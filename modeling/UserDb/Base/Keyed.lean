import Mathlib

/-! Lists with one element for each key, as partial functions of the key. -/
namespace UserDb.Base

variable {α κ : Type} [DecidableEq κ] (key : α → κ)

/-- The first element with a key. -/
def keyed (l : List α) (k : κ) : Option α := l.find? (key · == k)

variable {key} {l : List α} {a b : α} {i : Nat} {k : κ}

theorem find?_keyed {p : α → Bool} (hp : ∀ a, p a = true ↔ key a = k) (l : List α) : l.find? p = keyed key l k := by
  unfold keyed
  congr 1
  funext a
  rw [Bool.eq_iff_iff,hp,beq_iff_eq]

private theorem keyed_mem (h : keyed key l k = some a) : a ∈ l := List.mem_of_find?_eq_some h

theorem keyed_key (h : keyed key l k = some a) : key a = k := by
  have hfound := List.find?_some h
  exact eq_of_beq hfound

theorem keyed_eq_none : keyed key l k = none ↔ ∀ a ∈ l, key a ≠ k := by
  simp [keyed]

theorem keyed_eq_some (h : (l.map key).Nodup) : keyed key l k = some a ↔ a ∈ l ∧ key a = k := by
  refine ⟨fun hfound => ⟨keyed_mem hfound,keyed_key hfound⟩,?_⟩
  rintro ⟨hmem,rfl⟩
  cases hfound : keyed key l (key a) with
  | none => exact absurd rfl (keyed_eq_none.mp hfound a hmem)
  | some b => rw [List.inj_on_of_nodup_map h (keyed_mem hfound) hmem (keyed_key hfound)]

theorem keyed_cons (a : α) (l : List α) (k : κ) : keyed key (a :: l) k = if key a = k then some a else keyed key l k := by
  unfold keyed
  rw [List.find?_cons]
  by_cases h : key a = k
  · rw [if_pos h,beq_iff_eq.mpr h]
  · rw [if_neg h,beq_eq_false_iff_ne.mpr h]

theorem keyed_append (hfresh : ∀ b ∈ l, key b ≠ key a) :
    keyed key (l ++ [a]) = Function.update (keyed key l) (key a) (some a) := by
  funext k
  induction l with
  | nil =>
    rw [List.nil_append,keyed_cons,Function.update_apply]
    exact if_congr eq_comm rfl rfl
  | cons b l ih =>
    obtain ⟨hb,hl⟩ := List.forall_mem_cons.mp hfresh
    rw [List.cons_append,keyed_cons,ih hl,Function.update_apply,Function.update_apply,keyed_cons]
    by_cases hk : k = key a
    · rw [if_pos hk,if_pos hk,if_neg fun h => hb (h.trans hk)]
    · rw [if_neg hk,if_neg hk]

/-- Writing over the element at a place, under the same key. -/
theorem keyed_set (h : (l.map key).Nodup) (hi : l[i]? = some a) (hkey : key b = key a) :
    keyed key (l.set i b) = Function.update (keyed key l) (key a) (some b) := by
  funext k
  rw [Function.update_apply]
  induction l generalizing i with
  | nil => cases hi
  | cons c l ih =>
    obtain ⟨hc,hl⟩ := List.nodup_cons.mp h
    cases i with
    | zero =>
      obtain rfl := Option.some.inj hi
      rw [List.set_cons_zero,keyed_cons,keyed_cons,hkey]
      by_cases hk : key c = k
      · rw [if_pos hk,if_pos hk.symm]
      · rw [if_neg hk,if_neg hk,if_neg fun h => hk h.symm]
    | succ i =>
      have hmem : key a ∈ l.map key := List.mem_map_of_mem (List.mem_of_getElem? hi)
      have hne : key c ≠ key a := fun heq => hc (heq ▸ hmem)
      rw [List.set_cons_succ,keyed_cons,keyed_cons,ih hl hi]
      by_cases hk : k = key a
      · rw [if_pos hk,if_pos hk,if_neg fun h => hne (h.trans hk)]
      · rw [if_neg hk,if_neg hk]

theorem keyed_eraseIdx (h : (l.map key).Nodup) (hi : l[i]? = some a) :
    keyed key (l.eraseIdx i) = Function.update (keyed key l) (key a) none := by
  funext k
  rw [Function.update_apply]
  induction l generalizing i with
  | nil => cases hi
  | cons c l ih =>
    obtain ⟨hc,hl⟩ := List.nodup_cons.mp h
    cases i with
    | zero =>
      obtain rfl := Option.some.inj hi
      rw [List.eraseIdx_cons_zero,keyed_cons]
      by_cases hk : k = key c
      · rw [if_pos hk,hk]
        exact keyed_eq_none.mpr fun b hb heq => hc (heq ▸ List.mem_map_of_mem hb)
      · rw [if_neg hk,if_neg fun h => hk h.symm]
    | succ i =>
      have hmem : key a ∈ l.map key := List.mem_map_of_mem (List.mem_of_getElem? hi)
      have hne : key c ≠ key a := fun heq => hc (heq ▸ hmem)
      rw [List.eraseIdx_cons_succ,keyed_cons,keyed_cons,ih hl hi]
      by_cases hk : k = key a
      · rw [if_pos hk,if_pos hk,if_neg fun h => hne (h.trans hk)]
      · rw [if_neg hk,if_neg hk]

/-- The elements at the other places are those with the other keys. -/
theorem mem_eraseIdx_keyed (h : (l.map key).Nodup) (hi : l[i]? = some a) : b ∈ l.eraseIdx i ↔ b ∈ l ∧ key b ≠ key a := by
  have hnodup : ((l.eraseIdx i).map key).Nodup := h.sublist ((List.eraseIdx_sublist l i).map key)
  have hself : keyed key (l.eraseIdx i) (key b) = some b ↔ b ∈ l.eraseIdx i :=
    (keyed_eq_some hnodup).trans (and_iff_left rfl)
  rw [← hself,keyed_eraseIdx h hi,Function.update_apply]
  by_cases heq : key b = key a
  · rw [if_pos heq]
    exact iff_of_false (fun h => by cases h) fun h => h.2 heq
  · rw [if_neg heq,keyed_eq_some h,and_iff_left rfl,and_iff_left heq]

/-- Rewriting every element under its own key. -/
theorem keyed_map {f : α → α} (hkey : ∀ a, key (f a) = key a) (l : List α) (k : κ) :
    keyed key (l.map f) k = (keyed key l k).map f := by
  unfold keyed
  rw [List.find?_map]
  congr 2
  funext a
  exact congrArg (· == k) (hkey a)

/-- How many keys are in use. -/
theorem ncard_keyed (h : (l.map key).Nodup) : {k | keyed key l k ≠ none}.ncard = l.length := by
  have hset : {k | keyed key l k ≠ none} = ((l.map key).toFinset : Set κ) := by
    ext k
    simp [keyed_eq_none]
  rw [hset,Set.ncard_coe_finset,List.toFinset_card_of_nodup h,List.length_map]

end UserDb.Base
