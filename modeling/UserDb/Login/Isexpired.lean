import UserDb.Base.Bytes
import UserDb.Numbers.Adds

/-! Whether a password has expired: the conditions on the days of a shadow entry. -/
namespace UserDb.Login
open UserDb.Base UserDb.Base.Saturation UserDb.Numbers

/-- The fields of a shadow entry that count days. -/
structure ShadowDays where
  lstchg : Long
  max : Long
  inact : Long
  expire : Long

def shadowPasswdString : Bytes := ascii "x"

def secondsPerDay : Int := 24 * 3600

/-- Times of the whole type are a small number of days. -/
theorem day_bounds (time : Long) : -(2^47) ≤ time.val.tdiv secondsPerDay ∧ time.val.tdiv secondsPerDay ≤ 2^47 := by
  obtain ⟨hmin,hmax⟩ := time.property
  have hday : secondsPerDay = 86400 := rfl
  rw [hday]
  unfold longMin longMax at *
  rcases Int.le_total 0 time.val with hpos | hneg
  · rw [Int.tdiv_eq_ediv_of_nonneg hpos]
    omega
  · have hflip : time.val.tdiv 86400 = -((-time.val) / 86400) := by
      rw [← Int.tdiv_eq_ediv_of_nonneg (by omega),Int.neg_tdiv,Int.neg_neg]
    rw [hflip]
    omega

private theorem day_inRange (time : Long) : LongRange (time.val.tdiv secondsPerDay) := by
  obtain ⟨hmin,hmax⟩ := day_bounds time
  unfold LongRange InRange longMin longMax
  omega

/-- The day of a time, as `isexpired` counts them. -/
def dayOf (time : Long) : Long := ⟨time.val.tdiv secondsPerDay,day_inRange time⟩

/-- `addsl` of all its arguments. -/
def addsl (addend : List Long) : Option Long := (addslN addend 0).map Prod.fst

/-- The code, where no sum overflows. -/
def isexpired (passwd : Bytes) (sp : Option ShadowDays) (now : Long) : Option Nat :=
  match sp with
  | none => some 0
  | some sp =>
    if 0 < sp.expire.val ∧ sp.expire.val ≤ now.val then some 3
    else if sp.lstchg.val = 0 ∧ passwd = shadowPasswdString then some 1
    else do
      let disabled ←
        if 0 < sp.lstchg.val ∧ 0 ≤ sp.max.val ∧ 0 ≤ sp.inact.val then
          (addsl [sp.lstchg,sp.max,sp.inact]).map fun sum => decide (sum.val ≤ now.val)
        else some false
      if disabled then some 2
      else if sp.lstchg.val = -1 ∨ sp.max.val = -1 then some 0
      else (addsl [sp.lstchg,sp.max]).map fun sum => if sum.val ≤ now.val then 1 else 0

/-- The same conditions with the exact sums. -/
def expiredCode (passwd : Bytes) (sp : Option ShadowDays) (now : Int) : Nat :=
  match sp with
  | none => 0
  | some sp =>
    if 0 < sp.expire.val ∧ sp.expire.val ≤ now then 3
    else if sp.lstchg.val = 0 ∧ passwd = shadowPasswdString then 1
    else if 0 < sp.lstchg.val ∧ 0 ≤ sp.max.val ∧ 0 ≤ sp.inact.val ∧ sp.lstchg.val + sp.max.val + sp.inact.val ≤ now then 2
    else if sp.lstchg.val = -1 ∨ sp.max.val = -1 then 0
    else if sp.lstchg.val + sp.max.val ≤ now then 1
    else 0

section Sums
variable {addend : List Long} {now : Long}

private theorem addsl_eq (hne : addend ≠ []) : addsl addend = some (nearest (exactSum addend)) := by
  rw [addsl,addslN_eq hne,Option.map_some]

/-- A day that is not the last one of the type is not before a saturated sum unless it is before the exact one. -/
theorem nearest_le_iff (n : Int) (hnow : now.val < longMax) : (nearest n).val ≤ now.val ↔ n ≤ now.val := by
  have hmin : longMin ≤ now.val := now.property.1
  by_cases hrange : LongRange n
  · rw [nearest_of_range hrange]
  · by_cases hlarge : longMax < n
    · rw [nearest_of_lt hlarge]
      exact iff_of_false (not_le_of_gt hnow) (not_le_of_gt (hnow.trans hlarge))
    · have hsmall : n < longMin := by
        by_contra hge
        exact hrange ⟨le_of_not_gt hge,le_of_not_gt hlarge⟩
      rw [nearest_of_gt hsmall]
      exact iff_of_true hmin (hsmall.le.trans hmin)

/-- Days are far from the last long. -/
theorem dayOf_lt (time : Long) : (dayOf time).val < longMax := by
  have hday : (dayOf time).val = time.val.tdiv secondsPerDay := rfl
  have hmax := (day_bounds time).2
  rw [hday]
  unfold longMax
  omega

end Sums

section Code
variable {passwd : Bytes} {sp : Option ShadowDays} {now : Long}

private theorem isexpired_eq (hnow : now.val < longMax) : isexpired passwd sp now = some (expiredCode passwd sp now.val) := by
  cases sp with
  | none => rfl
  | some sp =>
    unfold isexpired expiredCode
    simp only
    by_cases hexpire : 0 < sp.expire.val ∧ sp.expire.val ≤ now.val
    · rw [if_pos hexpire,if_pos hexpire]
    · rw [if_neg hexpire,if_neg hexpire]
      by_cases hchange : sp.lstchg.val = 0 ∧ passwd = shadowPasswdString
      · rw [if_pos hchange,if_pos hchange]
      · have hthree : exactSum [sp.lstchg,sp.max,sp.inact] = sp.lstchg.val + sp.max.val + sp.inact.val := by
          simp only [exactSum,List.map_cons,List.map_nil,List.sum_cons,List.sum_nil]
          omega
        have htwo : exactSum [sp.lstchg,sp.max] = sp.lstchg.val + sp.max.val := by
          simp only [exactSum,List.map_cons,List.map_nil,List.sum_cons,List.sum_nil]
          omega
        have hlast : (if sp.lstchg.val = -1 ∨ sp.max.val = -1 then some 0
            else (addsl [sp.lstchg,sp.max]).map fun sum => if sum.val ≤ now.val then 1 else 0) =
            some (if sp.lstchg.val = -1 ∨ sp.max.val = -1 then 0 else if sp.lstchg.val + sp.max.val ≤ now.val then 1 else 0) := by
          rw [addsl_eq (List.cons_ne_nil _ _),Option.map_some,htwo]
          simp only [nearest_le_iff _ hnow]
          split <;> rfl
        rw [if_neg hchange,if_neg hchange,hlast,addsl_eq (List.cons_ne_nil _ _),Option.map_some,hthree]
        simp only [nearest_le_iff _ hnow]
        by_cases hfields : 0 < sp.lstchg.val ∧ 0 ≤ sp.max.val ∧ 0 ≤ sp.inact.val
        · by_cases hdays : sp.lstchg.val + sp.max.val + sp.inact.val ≤ now.val
          · simp [hfields,hdays]
          · simp [hfields,hdays]
        · have hnot : ¬ (0 < sp.lstchg.val ∧ 0 ≤ sp.max.val ∧ 0 ≤ sp.inact.val ∧
              sp.lstchg.val + sp.max.val + sp.inact.val ≤ now.val) := fun h => hfields ⟨h.1,h.2.1,h.2.2.1⟩
          rw [if_neg hfields,if_neg hnot]
          rfl

/-- A later day finds the account no less expired: with the day of its password the day on which it is
disabled is not before that on which the password expires. -/
theorem expiredCode_monotone (passwd : Bytes) (sp : Option ShadowDays) : Monotone (expiredCode passwd sp) := by
  intro day later hle
  cases sp with
  | none => exact le_rfl
  | some sp =>
    unfold expiredCode
    simp only
    by_cases hexpire : 0 < sp.expire.val ∧ sp.expire.val ≤ later
    · rw [if_pos hexpire]
      split_ifs <;> omega
    · have hbefore : ¬ (0 < sp.expire.val ∧ sp.expire.val ≤ day) := fun h => hexpire ⟨h.1,h.2.trans hle⟩
      rw [if_neg hexpire,if_neg hbefore]
      by_cases hchange : sp.lstchg.val = 0 ∧ passwd = shadowPasswdString
      · rw [if_pos hchange,if_pos hchange]
      · rw [if_neg hchange,if_neg hchange]
        split_ifs <;> omega

end Code

/-- The code is that of the conditions with exact sums, and on a later day it is no smaller. -/
theorem isexpired_exact (passwd : Bytes) (sp : Option ShadowDays) :
    (∀ time, isexpired passwd sp (dayOf time) = some (expiredCode passwd sp (dayOf time).val)) ∧ Monotone (expiredCode passwd sp) :=
  ⟨fun time => isexpired_eq (dayOf_lt time),expiredCode_monotone passwd sp⟩

end UserDb.Login
