import Mathlib

/-! Lists with one element for each name: setting an element in the place of the one with its name, or behind all. -/
namespace UserDb.Base.Upsert

variable {α κ : Type} [DecidableEq κ] (name : α → κ)

/-- The place of the first element with a name, or the length. -/
def place (k : κ) (l : List α) : Nat := l.findIdx fun b => name b = k

def assign (a : α) (l : List α) : List α := if place name (name a) l < l.length then l.set (place name (name a) l) a else l ++ [a]

def assignAll (settings : List α) : List α := settings.foldl (fun l a => assign name a l) []

variable {name} {a b : α} {l settings : List α} {k : κ}

theorem assign_nil (a : α) : assign name a [] = [a] := rfl

theorem assign_cons (a b : α) (l : List α) : assign name a (b :: l) = if name b = name a then a :: l else b :: assign name a l := by
  unfold assign place
  rw [List.findIdx_cons]
  by_cases h : name b = name a
  · simp [h]
  · simp only [h,decide_false,cond_false,List.length_cons,Nat.add_lt_add_iff_right,List.set_cons_succ,if_false]
    split <;> rfl

theorem mem_assign (h : b ∈ assign name a l) : b = a ∨ b ∈ l := by
  induction l with
  | nil => exact .inl (List.mem_singleton.mp h)
  | cons c l ih =>
    rw [assign_cons] at h
    split at h
    · rcases List.mem_cons.mp h with hb | hb
      · exact .inl hb
      · exact .inr (List.mem_cons_of_mem c hb)
    · rcases List.mem_cons.mp h with rfl | hb
      · exact .inr List.mem_cons_self
      · exact (ih hb).imp_right (List.mem_cons_of_mem c)

/-- The names stay the same, or the new one is behind them. -/
theorem map_assign (a : α) (l : List α) :
    (assign name a l).map name = if name a ∈ l.map name then l.map name else l.map name ++ [name a] := by
  induction l with
  | nil => rfl
  | cons b l ih =>
    rw [assign_cons,List.map_cons]
    by_cases h : name b = name a
    · rw [if_pos h,if_pos (List.mem_cons.mpr (.inl h.symm)),List.map_cons,h]
    · rw [if_neg h,List.map_cons,ih]
      by_cases hmem : name a ∈ l.map name
      · rw [if_pos hmem,if_pos (List.mem_cons_of_mem _ hmem)]
      · have hnot : name a ∉ name b :: l.map name := fun hb => (List.mem_cons.mp hb).elim (fun hb => h hb.symm) hmem
        rw [if_neg hmem,if_neg hnot,List.cons_append]

private theorem nodup_assign (h : (l.map name).Nodup) : ((assign name a l).map name).Nodup := by
  rw [map_assign]
  split
  · exact h
  · rename_i hmem
    rw [List.nodup_append]
    refine ⟨h,List.nodup_singleton _,?_⟩
    rintro k hk _ hk' rfl
    exact hmem (List.mem_singleton.mp hk' ▸ hk)

/-- What a name stands for after a setting: the setting for its own name, and what it was for the others. -/
theorem find?_assign (a : α) (l : List α) (k : κ) :
    (assign name a l).find? (name · = k) = if name a = k then some a else l.find? (name · = k) := by
  induction l with
  | nil =>
    rw [assign_nil]
    by_cases h : name a = k <;> simp [h]
  | cons b l ih =>
    rw [assign_cons]
    by_cases hb : name b = name a
    · rw [if_pos hb]
      by_cases h : name a = k
      · simp [h]
      · have hbk : name b ≠ k := fun hk => h (hb.symm.trans hk)
        simp [h,hbk]
    · rw [if_neg hb,List.find?_cons,List.find?_cons,ih]
      by_cases h : name a = k
      · have hbk : name b ≠ k := fun hk => hb (hk.trans h.symm)
        simp [h,hbk]
      · rw [if_neg h,if_neg h]

/-- A setting leaves the elements with a property where they are, when neither it nor what has its name has the property. -/
theorem getElem?_assign {p : α → Prop} (hl : ∀ c ∈ l, name c = name a → ¬p c) (ha : ¬p a) {i : Nat} (hb : p b) :
    (assign name a l)[i]? = some b ↔ l[i]? = some b := by
  induction l generalizing i with
  | nil =>
    rw [assign_nil]
    have hne : b ≠ a := fun h => ha (h ▸ hb)
    cases i <;> simp [hne.symm]
  | cons c l ih =>
    have hl' : ∀ c ∈ l, name c = name a → ¬p c := fun d hd => hl d (List.mem_cons_of_mem c hd)
    rw [assign_cons]
    by_cases hc : name c = name a
    · have hca : c ≠ b := fun h => hl c List.mem_cons_self hc (h ▸ hb)
      have hab : a ≠ b := fun h => ha (h ▸ hb)
      rw [if_pos hc]
      cases i with
      | zero => simp [hca,hab]
      | succ i => simp
    · rw [if_neg hc]
      cases i with
      | zero => simp
      | succ i => simpa using ih hl'

theorem assignAll_append (settings : List α) (a : α) : assignAll name (settings ++ [a]) = assign name a (assignAll name settings) := by
  simp [assignAll]

theorem nodup_assignAll (settings : List α) : ((assignAll name settings).map name).Nodup := by
  induction settings using List.reverseRecOn with
  | nil => exact List.nodup_nil
  | append_singleton settings a ih =>
    rw [assignAll_append]
    exact nodup_assign ih

/-- A name stands for the last setting of it. -/
theorem find?_assignAll (settings : List α) (k : κ) :
    (assignAll name settings).find? (name · = k) = (settings.filter (name · = k)).getLast? := by
  induction settings using List.reverseRecOn with
  | nil => rfl
  | append_singleton settings a ih =>
    rw [assignAll_append,find?_assign,ih,List.filter_append]
    by_cases h : name a = k <;> simp [h]

end UserDb.Base.Upsert
