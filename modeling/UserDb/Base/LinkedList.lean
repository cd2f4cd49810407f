import Mathlib

/-! Doubly linked lists in a memory given by its two link functions: a stretch of nodes
between two neighbours, how it is cut and joined, and what single link updates do to it. -/
namespace UserDb.Base.LinkedList

variable {π : Type}

/-- The nodes of `l` are linked in order, after `before` and in front of `behind`. -/
def Linked (next prev : π → Option π) : Option π → List π → Option π → Prop
  | _, [], _ => True
  | before, a :: l, behind =>
    prev a = before ∧ next a = l.head?.or behind ∧ Linked next prev (some a) l behind

/-- The nodes reached from `p`, at most `fuel` of them. -/
def reach (next : π → Option π) : Nat → Option π → List π
  | fuel + 1, some a => a :: reach next fuel (next a)
  | _, _ => []

/-- A list linked forwards only. -/
def Forward (next : π → Option π) : List π → Prop
  | [] => True
  | a :: l => next a = l.head? ∧ Forward next l

section Stretches
variable {next prev next' prev' : π → Option π} {before behind : Option π} {l xs ys : List π} {a : π}

theorem linked_append :
    Linked next prev before (xs ++ ys) behind ↔
      Linked next prev before xs (ys.head?.or behind) ∧
        Linked next prev (xs.getLast?.or before) ys behind := by
  induction xs generalizing before with
  | nil => simp [Linked]
  | cons a xs ih =>
    have hhead : (xs ++ ys).head?.or behind = xs.head?.or (ys.head?.or behind) := by
      cases xs <;> simp
    have hlast : ((a :: xs).getLast?.or before) = xs.getLast?.or (some a) := by
      cases hx : xs.getLast? with
      | none => simp [List.getLast?_eq_none_iff.mp hx]
      | some b => simp [List.getLast?_cons,hx]
    simp only [List.cons_append,Linked,ih,hhead,hlast]
    tauto

/-- A stretch only depends on the links of its own nodes. -/
theorem Linked.congr (h : Linked next prev before l behind)
    (hl : ∀ a ∈ l, next' a = next a ∧ prev' a = prev a) : Linked next' prev' before l behind := by
  induction l generalizing before with
  | nil => trivial
  | cons a l ih =>
    obtain ⟨hp,hn,h⟩ := h
    obtain ⟨hn',hp'⟩ := hl a List.mem_cons_self
    exact ⟨hp'.trans hp,hn'.trans hn,ih h fun x hx => hl x (List.mem_cons_of_mem _ hx)⟩

theorem Forward.congr (h : Forward next l) (hl : ∀ a ∈ l, next' a = next a) : Forward next' l := by
  induction l with
  | nil => trivial
  | cons a l ih =>
    obtain ⟨hn,h⟩ := h
    exact ⟨(hl a List.mem_cons_self).trans hn,ih h fun x hx => hl x (List.mem_cons_of_mem _ hx)⟩

/-- The same stretch in front of another neighbour: one link of its last node changes. -/
theorem Linked.setBehind [DecidableEq π] (h : Linked next prev before (xs ++ [a]) behind) (ha : a ∉ xs)
    (behind' : Option π) : Linked (Function.update next a behind') prev before (xs ++ [a]) behind' := by
  rw [linked_append] at h ⊢
  refine ⟨h.1.congr fun x hx => ?_,h.2.1,by simp,trivial⟩
  exact ⟨Function.update_of_ne (ne_of_mem_of_not_mem hx ha) _ _,rfl⟩

/-- The same stretch after another neighbour: one link of its first node changes. -/
theorem Linked.setBefore [DecidableEq π] (h : Linked next prev before (a :: l) behind) (ha : a ∉ l)
    (before' : Option π) : Linked next (Function.update prev a before') before' (a :: l) behind := by
  obtain ⟨_,hn,h⟩ := h
  refine ⟨by simp,hn,h.congr fun x hx => ?_⟩
  exact ⟨rfl,Function.update_of_ne (ne_of_mem_of_not_mem hx ha) _ _⟩

theorem Linked.next_eq (h : Linked next prev before (xs ++ a :: ys) behind) :
    next a = ys.head?.or behind := (linked_append.mp h).2.2.1

theorem Linked.prev_eq (h : Linked next prev before (xs ++ a :: ys) behind) :
    prev a = xs.getLast?.or before := (linked_append.mp h).2.1

/-- Links given node by node, by position. -/
theorem linked_of_getElem? (h : ∀ i a, l[i]? = some a →
    prev a = (if i = 0 then before else l[i-1]?) ∧ next a = l[i+1]?.or behind) :
    Linked next prev before l behind := by
  induction l generalizing before with
  | nil => trivial
  | cons a l ih =>
    obtain ⟨hp,hn⟩ := h 0 a rfl
    refine ⟨hp,by simpa [List.head?_eq_getElem?] using hn,ih ?_⟩
    intro i b hb
    obtain ⟨hp,hn⟩ := h (i+1) b (by simpa using hb)
    refine ⟨?_,by simpa using hn⟩
    rcases Nat.eq_zero_or_pos i with rfl | hi
    · simpa using hp
    · obtain ⟨j,rfl⟩ : ∃ j, i = j + 1 := ⟨i-1,by omega⟩
      simpa using hp

/-- The links of a node, by its position. -/
theorem Linked.getElem? (h : Linked next prev before l behind) {i : Nat} (ha : l[i]? = some a) :
    next a = l[i+1]?.or behind ∧ prev a = if i = 0 then before else l[i-1]? := by
  induction l generalizing before i with
  | nil => simp at ha
  | cons b l ih =>
    obtain ⟨hprev,hnext,h⟩ := h
    cases i with
    | zero =>
      obtain rfl : b = a := by simpa using ha
      exact ⟨by simpa [List.head?_eq_getElem?] using hnext,hprev⟩
    | succ i =>
      obtain ⟨hnext',hprev'⟩ := ih h (by simpa using ha)
      refine ⟨by simpa using hnext',?_⟩
      cases i with
      | zero => simpa using hprev'
      | succ i => simpa using hprev'

theorem Linked.forward (h : Linked next prev before l none) : Forward next l := by
  induction l generalizing before with
  | nil => trivial
  | cons a l ih =>
    obtain ⟨_,hn,h⟩ := h
    exact ⟨by rwa [Option.or_none] at hn,ih h⟩

/-- A stretch in front of a list that is linked forwards. -/
theorem Linked.forward_append (h : Linked next prev before xs ys.head?) (hys : Forward next ys) : Forward next (xs ++ ys) := by
  induction xs generalizing before with
  | nil => exact hys
  | cons a xs ih =>
    obtain ⟨_,hn,h⟩ := h
    refine ⟨hn.trans ?_,ih h⟩
    cases xs <;> simp

theorem reach_forward (h : Forward next l) {fuel : Nat} (hf : l.length ≤ fuel) : reach next fuel l.head? = l := by
  induction l generalizing fuel with
  | nil => cases fuel <;> rfl
  | cons a l ih =>
    obtain ⟨hn,h⟩ := h
    obtain ⟨fuel,rfl⟩ : ∃ n, fuel = n + 1 := ⟨fuel-1,by simp only [List.length_cons] at hf; omega⟩
    rw [List.head?_cons,reach,hn,ih h (by simpa using hf)]

theorem Forward.next_eq (h : Forward next (xs ++ a :: ys)) : next a = ys.head? := by
  induction xs with
  | nil => exact h.1
  | cons x xs ih => exact ih h.2

theorem Forward.suffix (h : Forward next (xs ++ ys)) : Forward next ys := by
  induction xs with
  | nil => exact h
  | cons x xs ih => exact ih h.2

/-- A new node after another one: two links are written. -/
theorem Forward.insertAfter [DecidableEq π] {b : π} (h : Forward next (xs ++ a :: ys))
    (hn : (xs ++ a :: ys).Nodup) (hb : b ∉ xs ++ a :: ys) :
    Forward (Function.update (Function.update next b (next a)) a (some b)) (xs ++ a :: b :: ys) := by
  induction xs with
  | nil =>
    obtain ⟨hnext,h⟩ := h
    obtain ⟨hba,hby⟩ := not_or.mp (List.mem_cons.not.mp hb)
    have hay := (List.nodup_cons.mp hn).1
    refine ⟨Function.update_self _ _ _,?_,h.congr fun y hy => ?_⟩
    · rw [Function.update_of_ne hba,Function.update_self,hnext]
    · rw [Function.update_of_ne (ne_of_mem_of_not_mem hy hay),Function.update_of_ne (ne_of_mem_of_not_mem hy hby)]
  | cons x xs ih =>
    obtain ⟨hnext,h⟩ := h
    obtain ⟨hx,hn⟩ := List.nodup_cons.mp hn
    obtain ⟨hbx,hb⟩ := not_or.mp (List.mem_cons.not.mp hb)
    have hxa : x ≠ a := fun he => hx (by simp [he])
    refine ⟨?_,ih h hn hb⟩
    rw [Function.update_of_ne hxa,Function.update_of_ne (Ne.symm hbx),hnext]
    cases xs <;> rfl

/-- Nodes taken from a finite store are not more than it holds. -/
theorem length_le_of_nodup_lt {l : List Nat} {bound : Nat} (hn : l.Nodup) (hb : ∀ a ∈ l, a < bound) :
    l.length ≤ bound := by
  have hsub : l ⊆ List.range bound := fun a ha => List.mem_range.mpr (hb a ha)
  simpa using (hn.subperm hsub).length_le

end Stretches

section Updates
variable [DecidableEq π] {next prev : π → Option π} {xs ys l : List π} {a b : π}

/-- The link that leads to what follows `xs`, for a memory whose list starts with `xs`. -/
def relinkNext (next : π → Option π) (xs : List π) (target : Option π) : π → Option π :=
  match xs.getLast? with
  | some last => Function.update next last target
  | none => next

/-- The link that leads back from what starts `ys`. -/
def relinkPrev (prev : π → Option π) (ys : List π) (target : Option π) : π → Option π :=
  match ys.head? with
  | some first => Function.update prev first target
  | none => prev

theorem Linked.relinkNext {before behind : Option π} (h : Linked next prev before xs behind)
    (hn : xs.Nodup) (behind' : Option π) :
    Linked (relinkNext next xs behind') prev before xs behind' := by
  rcases List.eq_nil_or_concat xs with rfl | ⟨init,last,rfl⟩
  · trivial
  · rw [List.concat_eq_append] at *
    have hlast : last ∉ init := fun hm => List.disjoint_of_nodup_append hn hm List.mem_cons_self
    simpa [LinkedList.relinkNext] using h.setBehind hlast behind'

theorem Linked.relinkPrev {before behind : Option π} (h : Linked next prev before ys behind)
    (hn : ys.Nodup) (before' : Option π) :
    Linked next (relinkPrev prev ys before') before' ys behind := by
  cases ys with
  | nil => trivial
  | cons first rest => simpa [LinkedList.relinkPrev] using h.setBefore (List.nodup_cons.mp hn).1 before'

theorem relinkNext_of_notMem {target : Option π} (h : a ∉ xs) :
    LinkedList.relinkNext next xs target a = next a := by
  unfold LinkedList.relinkNext
  cases hl : xs.getLast? with
  | none => rfl
  | some last => exact Function.update_of_ne (ne_of_mem_of_not_mem (List.mem_of_getLast? hl) h).symm _ _

/-- A new node at the end of a list that is linked forwards. -/
theorem Forward.concat (h : Forward next l) (hn : l.Nodup) (ha : a ∉ l) :
    Forward (LinkedList.relinkNext (Function.update next a none) l (some a)) (l ++ [a]) := by
  rcases List.eq_nil_or_concat l with rfl | ⟨init,last,rfl⟩
  · have hself : Function.update next a none a = none := Function.update_self a none next
    exact ⟨hself,trivial⟩
  · rw [List.concat_eq_append] at *
    have hlast : next last = none := h.next_eq
    have hinsert := h.insertAfter hn ha
    rw [hlast] at hinsert
    simpa [LinkedList.relinkNext] using hinsert

theorem relinkPrev_of_notMem {target : Option π} (h : a ∉ ys) :
    LinkedList.relinkPrev prev ys target a = prev a := by
  unfold LinkedList.relinkPrev
  cases hf : ys.head? with
  | none => rfl
  | some first => exact Function.update_of_ne (ne_of_mem_of_not_mem (List.mem_of_head? hf) h).symm _ _

/-- Two stretches are joined by the two links at the seam. -/
theorem Linked.join {before behind : Option π} {x y : Option π} (hx : Linked next prev before xs x)
    (hy : Linked next prev y ys behind) (hn : (xs ++ ys).Nodup) :
    Linked (LinkedList.relinkNext next xs (ys.head?.or behind))
      (LinkedList.relinkPrev prev ys (xs.getLast?.or before)) before (xs ++ ys) behind := by
  have hsep := List.disjoint_of_nodup_append hn
  obtain ⟨hnx,hny,_⟩ := List.nodup_append.mp hn
  refine linked_append.mpr ⟨?_,?_⟩
  · refine (hx.relinkNext hnx _).congr fun a ha => ⟨rfl,?_⟩
    exact relinkPrev_of_notMem fun hm => hsep ha hm
  · refine (hy.relinkPrev hny _).congr fun a ha => ⟨?_,rfl⟩
    exact relinkNext_of_notMem fun hm => hsep hm ha

/-- A node is taken out by joining what stands around it. -/
theorem Linked.remove (h : Linked next prev none (xs ++ a :: ys) none) (hn : (xs ++ a :: ys).Nodup) :
    Linked (LinkedList.relinkNext next xs (next a)) (LinkedList.relinkPrev prev ys (prev a)) none
      (xs ++ ys) none := by
  have hnext := h.next_eq
  have hprev := h.prev_eq
  obtain ⟨hxs,_,_,hys⟩ := linked_append.mp h
  rw [hnext,hprev]
  exact hxs.join hys (hn.sublist ((List.sublist_cons_self a ys).append_left xs))

/-- A new node is put between two stretches. -/
theorem Linked.insert (h : Linked next prev none (xs ++ ys) none) (hn : (xs ++ ys).Nodup)
    (ha : a ∉ xs ++ ys) :
    Linked (LinkedList.relinkNext (Function.update next a ys.head?) xs (some a))
      (LinkedList.relinkPrev (Function.update prev a xs.getLast?) ys (some a)) none
      (xs ++ a :: ys) none := by
  obtain ⟨hnx,hny,_⟩ := List.nodup_append.mp hn
  obtain ⟨hax,hay⟩ : a ∉ xs ∧ a ∉ ys := by simpa using ha
  obtain ⟨hxs,hys⟩ := linked_append.mp h
  have hxs : Linked (Function.update next a ys.head?) (Function.update prev a xs.getLast?) none xs
      (ys.head?.or none) := hxs.congr fun x hx =>
    ⟨Function.update_of_ne (ne_of_mem_of_not_mem hx hax) _ _,Function.update_of_ne (ne_of_mem_of_not_mem hx hax) _ _⟩
  have hys : Linked (Function.update next a ys.head?) (Function.update prev a xs.getLast?)
      (xs.getLast?.or none) ys none := hys.congr fun x hx =>
    ⟨Function.update_of_ne (ne_of_mem_of_not_mem hx hay) _ _,Function.update_of_ne (ne_of_mem_of_not_mem hx hay) _ _⟩
  have hsep := List.disjoint_of_nodup_append hn
  refine linked_append.mpr ⟨?_,?_,?_,?_⟩
  · refine (hxs.relinkNext hnx _).congr fun x hx => ⟨rfl,?_⟩
    exact relinkPrev_of_notMem fun hm => hsep hx hm
  · rw [relinkPrev_of_notMem hay]
    simp
  · rw [relinkNext_of_notMem hax]
    simp
  · refine (hys.relinkPrev hny _).congr fun x hx => ⟨?_,rfl⟩
    exact relinkNext_of_notMem fun hm => hsep hm hx

end Updates

end UserDb.Base.LinkedList
