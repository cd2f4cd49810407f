import Mathlib.Data.List.Basic

/-! Lists of words with exceptions, which may have exceptions of their own: what they mean, and one pass over the words. -/
namespace UserDb.Base
universe u
variable {α : Type u} (isExcept hit : α → Bool)

/-- Listed, and not among the exceptions. -/
def exceptListed : List (List α) → Bool
  | [] => false
  | words :: exceptions => words.any hit && !exceptListed exceptions

/-- The pass: whether a hit includes, whether there was one since the last exception, and the result so far. -/
def exceptPass : Bool → Bool → Bool → List α → Bool
  | _, _, result, [] => result
  | inclusion, matched, result, word :: words =>
    if isExcept word then
      if !matched then result else exceptPass (!inclusion) false result words
    else if hit word then exceptPass inclusion true inclusion words
    else exceptPass inclusion matched result words

variable {isExcept hit}

/-- A hit since the last exception is what the result says of its words. -/
theorem exceptPass_eq {words first : List α} {exceptions : List (List α)} {inclusion matched : Bool}
    (h : words.splitOnP isExcept = first :: exceptions) :
    exceptPass isExcept hit inclusion matched (inclusion == matched) words =
      (inclusion == ((matched || first.any hit) && !exceptListed hit exceptions)) := by
  induction words generalizing inclusion matched first exceptions with
  | nil =>
    obtain ⟨rfl,rfl⟩ := List.cons.inj (List.splitOnP_nil.symm.trans h)
    simp [exceptPass,exceptListed]
  | cons word words ih =>
    obtain ⟨first',exceptions',hrest⟩ := List.exists_cons_of_ne_nil (List.splitOnP_ne_nil isExcept words)
    rw [List.splitOnP_cons_eq_if_modifyHead,hrest] at h
    unfold exceptPass
    by_cases hexcept : isExcept word
    · rw [if_pos hexcept] at h
      obtain ⟨rfl,rfl⟩ := List.cons.inj h
      rw [if_pos hexcept]
      cases matched with
      | false => simp
      | true =>
        have hresult : (inclusion == true) = ((!inclusion) == false) := by cases inclusion <;> rfl
        rw [Bool.not_true,if_neg Bool.false_ne_true,hresult,ih hrest]
        cases inclusion <;> simp [exceptListed]
    · rw [if_neg hexcept] at h
      obtain ⟨rfl,rfl⟩ := List.cons.inj h
      rw [if_neg hexcept]
      by_cases hhit : hit word
      · rw [if_pos hhit]
        have hresult : inclusion = (inclusion == true) := by cases inclusion <;> rfl
        have hpass := @ih first' exceptions' inclusion true hrest
        rw [← hresult] at hpass
        rw [hpass]
        simp [hhit]
      · rw [if_neg hhit,ih hrest]
        simp [hhit]

/-- The pass says which words are listed but for the exceptions. -/
theorem exceptPass_listed (words : List α) :
    exceptPass isExcept hit true false false words = exceptListed hit (words.splitOnP isExcept) := by
  obtain ⟨first,exceptions,hsplit⟩ := List.exists_cons_of_ne_nil (List.splitOnP_ne_nil isExcept words)
  have hpass := @exceptPass_eq α isExcept hit words first exceptions true false hsplit
  rw [show (true == false) = false from rfl] at hpass
  rw [hpass,hsplit,exceptListed]
  simp

end UserDb.Base
