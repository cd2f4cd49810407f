import Mathlib

/-! Comparison functions that answer with a negative number, zero or a positive number. -/
namespace UserDb.Base

variable {α κ : Type}

/-- The two ways round give opposite answers, and being at most as great is transitive. -/
structure Comparison (c : α → α → Int) : Prop where
  opposite : ∀ a b, 0 < c a b ↔ c b a < 0
  trans : ∀ a b d, c a b ≤ 0 → c b d ≤ 0 → c a d ≤ 0

/-- By a number that belongs to each value. -/
def byKey (key : α → Nat) (a b : α) : Int := if key a < key b then -1 else if key b < key a then 1 else 0

/-- By the second comparison where the first one finds no difference. -/
def thenBy (c c' : α → α → Int) (a b : α) : Int := if c a b = 0 then c' a b else c a b

variable {c c' : α → α → Int} {key : α → Nat} {a b d : α}

theorem byKey_nonpos : byKey key a b ≤ 0 ↔ key a ≤ key b := by
  unfold byKey
  split
  · omega
  · split <;> omega

private theorem byKey_pos : 0 < byKey key a b ↔ key b < key a := by
  rw [← not_le,byKey_nonpos,not_le]

private theorem byKey_neg : byKey key a b < 0 ↔ key a < key b := by
  unfold byKey
  split
  · omega
  · split <;> omega

theorem Comparison.byKey (key : α → Nat) : Comparison (byKey key) where
  opposite _ _ := byKey_pos.trans byKey_neg.symm
  trans _ _ _ hab hbd := byKey_nonpos.mpr ((byKey_nonpos.mp hab).trans (byKey_nonpos.mp hbd))

theorem Comparison.neg_trans (h : Comparison c) (hab : c a b ≤ 0) (hbd : c b d ≤ 0) (hone : c a b < 0 ∨ c b d < 0) : c a d < 0 := by
  by_contra hnot
  have hda : c d a ≤ 0 := by
    have := h.opposite d a
    omega
  -- the three are equal, against `hone`
  have hdb := h.trans d a b hda hab
  have hba := h.trans b d a hbd hda
  have hopposite := h.opposite d b
  have hopposite' := h.opposite b a
  omega

private theorem thenBy_nonpos : thenBy c c' a b ≤ 0 ↔ c a b < 0 ∨ (c a b = 0 ∧ c' a b ≤ 0) := by
  unfold thenBy
  split <;> omega

theorem Comparison.thenBy (h : Comparison c) (h' : Comparison c') : Comparison (thenBy c c') where
  opposite a b := by
    have hab := h.opposite a b
    have hba := h.opposite b a
    have hab' := h'.opposite a b
    unfold Base.thenBy
    split <;> split <;> omega
  trans a b d hab hbd := by
    rw [thenBy_nonpos] at hab hbd ⊢
    rcases hab with hab | ⟨hab,hab'⟩
    · exact .inl (h.neg_trans hab.le (by omega) (.inl hab))
    · rcases hbd with hbd | ⟨hbd,hbd'⟩
      · exact .inl (h.neg_trans hab.le hbd.le (.inr hbd))
      · have hle := h.trans a b d hab.le hbd.le
        by_cases heq : c a d = 0
        · exact .inr ⟨heq,h'.trans a b d hab' hbd'⟩
        · exact .inl (by omega)

/-- A comparison of images. -/
theorem Comparison.onImage {β : Type} (h : Comparison c) (f : β → α) : Comparison fun x y => c (f x) (f y) where
  opposite x y := h.opposite (f x) (f y)
  trans x y z := h.trans (f x) (f y) (f z)

end UserDb.Base
