import Mathlib

/-! Values of a bounded range in an ordered group, and sums that stop at its ends. -/
namespace UserDb.Base
namespace Saturation
section Range
variable {α : Type} [LE α] [LT α] [DecidableLE α] [DecidableLT α] (lo hi : α)

def InRange (x : α) : Prop := lo ≤ x ∧ x ≤ hi

instance (x : α) : Decidable (InRange lo hi x) := inferInstanceAs (Decidable (lo ≤ x ∧ x ≤ hi))

/-- The nearest value of the range. -/
def saturate (x : α) : α := if hi < x then hi else if x < lo then lo else x

end Range

section Order
variable {α : Type} [LinearOrder α] {lo hi x : α}

theorem saturate_of_inRange (h : InRange lo hi x) : saturate lo hi x = x := by
  rw [saturate,if_neg (not_lt_of_ge h.2),if_neg (not_lt_of_ge h.1)]

theorem saturate_of_lt (h : hi < x) : saturate lo hi x = hi := if_pos h

theorem saturate_of_gt (hbounds : lo ≤ hi) (h : x < lo) : saturate lo hi x = lo := by
  rw [saturate,if_neg (not_lt_of_gt (h.trans_le hbounds)),if_pos h]

theorem saturate_inRange (hbounds : lo ≤ hi) (x : α) : InRange lo hi (saturate lo hi x) := by
  unfold saturate
  split
  · exact ⟨hbounds,le_rfl⟩
  · rename_i hhi
    split
    · exact ⟨le_rfl,hbounds⟩
    · rename_i hlo
      exact ⟨le_of_not_gt hlo,le_of_not_gt hhi⟩

end Order

section Sum
variable {α : Type} [AddCommGroup α] [LinearOrder α] [IsOrderedAddMonoid α] {lo hi a b : α} {l : List α}

/-- Values of the range whose least and greatest one are too large together are so with all between them. -/
theorem lt_sum_of_lt_add (hb : b ≤ hi) (hmid : ∀ x ∈ l, a ≤ x) (h : hi < a + b) : hi < a + (l.sum + b) := by
  have ha : 0 < a := by
    by_contra hle
    exact not_lt_of_ge ((add_le_add (le_of_not_gt hle) hb).trans_eq (zero_add hi)) h
  have hsum : 0 ≤ l.sum := List.sum_nonneg fun x hx => ha.le.trans (hmid x hx)
  calc hi < a + b := h
    _ ≤ a + (l.sum + b) := add_le_add le_rfl (le_add_of_nonneg_left hsum)

theorem sum_lt_of_add_lt (ha : lo ≤ a) (hmid : ∀ x ∈ l, x ≤ b) (h : a + b < lo) : a + (l.sum + b) < lo := by
  have hb : b < 0 := by
    by_contra hle
    exact not_lt_of_ge ((add_zero lo).symm.le.trans (add_le_add ha (le_of_not_gt hle))) h
  have hsum : l.sum ≤ 0 := by
    rw [← List.sum_map_zero (l := l),← List.map_id l,List.map_map]
    exact List.sum_le_sum fun x hx => (hmid x hx).trans hb.le
  calc a + (l.sum + b) ≤ a + b := add_le_add le_rfl (add_le_of_nonpos_left hsum)
    _ < lo := h

end Sum

end Saturation

end UserDb.Base
