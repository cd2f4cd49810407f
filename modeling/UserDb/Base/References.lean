import Mathlib.Data.Option.Basic
import Mathlib.Logic.Function.Basic

/-! Tables from keys to values: a value that no two entries share, and references from one table to
another, under the storing and deleting of entries. -/
namespace UserDb.Base
universe u v w x y

/-- No two entries share the value of `f`. -/
def DistinctBy {κ : Type u} {α : Type v} {β : Type w} (f : α → β) (t : κ → Option α) : Prop :=
  ∀ i j a b, t i = some a → t j = some b → f a = f b → i = j

/-- The value that an entry of the first table names is that of an entry of the second. -/
def Refers {ι : Type u} {κ : Type v} {α : Type w} {γ : Type x} {β : Type y} (f : α → β) (g : γ → β) (t : ι → Option α)
    (s : κ → Option γ) : Prop :=
  ∀ i a, t i = some a → ∃ k c, s k = some c ∧ g c = f a

/-- An entry under a new key, and the one under the old key gone. -/
def rekey {κ : Type u} {α : Type v} [DecidableEq κ] (t : κ → Option α) (old new : κ) (a : α) : κ → Option α :=
  Function.update (Function.update t old none) new (some a)

section Distinct
variable {κ : Type u} {α : Type v} {β : Type w} {f : α → β} {t t' : κ → Option α} {a : α} {i k old new : κ}

theorem DistinctBy.of_le (h : DistinctBy f t) (hle : ∀ i a, t' i = some a → ∃ b, t i = some b ∧ f b = f a) : DistinctBy f t' := by
  intro i j a b hi hj hf
  obtain ⟨a',ha,hfa⟩ := hle i a hi
  obtain ⟨b',hb,hfb⟩ := hle j b hj
  exact h i j a' b' ha hb (hfa.trans (hf.trans hfb.symm))

variable [DecidableEq κ]

theorem DistinctBy.erase (h : DistinctBy f t) : DistinctBy f (Function.update t k none) := by
  refine h.of_le fun i a hi => ⟨a,?_,rfl⟩
  rw [Function.update_apply] at hi
  split at hi
  · cases hi
  · exact hi

/-- A stored value is not that of another entry. -/
theorem DistinctBy.store (h : DistinctBy f t) (hnew : ∀ i b, t i = some b → f b = f a → i = k) :
    DistinctBy f (Function.update t k (some a)) := by
  intro i j b c hi hj hf
  rw [Function.update_apply] at hi hj
  split at hi
  · rename_i hik
    split at hj
    · rename_i hjk
      rw [hik,hjk]
    · cases hi
      rw [hik]
      exact (hnew j c hj hf.symm).symm
  · split at hj
    · rename_i hjk
      cases hj
      rw [hjk]
      exact hnew i b hi hf
    · exact h i j b c hi hj hf

theorem DistinctBy.rekey (h : DistinctBy f t) (hnew : ∀ i b, t i = some b → f b = f a → i = old) :
    DistinctBy f (rekey t old new a) := by
  refine h.erase.store fun i b hi hf => ?_
  rw [Function.update_apply] at hi
  split at hi
  · cases hi
  · rename_i hne
    exact absurd (hnew i b hi hf) hne

theorem rekey_same (t : κ → Option α) (k : κ) (a : α) : rekey t k k a = Function.update t k (some a) := by
  unfold UserDb.Base.rekey
  rw [Function.update_idem]

/-- The new entry may be stored before the old one goes. -/
theorem rekey_of_ne (t : κ → Option α) (h : old ≠ new) (a : α) :
    Function.update (Function.update t new (some a)) old none = rekey t old new a := Function.update_comm h.symm _ _ t

theorem rekey_apply (t : κ → Option α) (old new : κ) (a : α) (i : κ) :
    rekey t old new a i = if i = new then some a else if i = old then none else t i := by
  unfold UserDb.Base.rekey
  rw [Function.update_apply,Function.update_apply]

end Distinct

section References
variable {ι : Type u} {κ : Type v} {α : Type w} {γ : Type x} {β : Type y} {f : α → β} {g : γ → β} {t t' : ι → Option α}
  {s s' : κ → Option γ}

theorem Refers.of_le (h : Refers f g t s) (hle : ∀ i a, t' i = some a → ∃ b, t i = some b ∧ f b = f a) : Refers f g t' s := by
  intro i a hi
  obtain ⟨b,hb,hf⟩ := hle i a hi
  obtain ⟨k,c,hc,hg⟩ := h i b hb
  exact ⟨k,c,hc,hg.trans hf⟩

theorem Refers.mono (h : Refers f g t s) (hle : ∀ k c, s k = some c → ∃ k' c', s' k' = some c' ∧ g c' = g c) : Refers f g t s' := by
  intro i a hi
  obtain ⟨k,c,hc,hg⟩ := h i a hi
  obtain ⟨k',c',hc',hg'⟩ := hle k c hc
  exact ⟨k',c',hc',hg'.trans hg⟩

end References

end UserDb.Base
