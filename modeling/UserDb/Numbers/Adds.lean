import UserDb.Base.Saturation

/-! Sums of longs that stop at the ends of the type. -/
namespace UserDb.Numbers
open UserDb.Base UserDb.Base.Saturation

def longMin : Int := -(2^63)
def longMax : Int := 2^63 - 1

abbrev Long := { n : Int // InRange longMin longMax n }

/-- The result of an operation on longs; there is none where it overflows. -/
def Long.ofInt (n : Int) : Option Long := if h : InRange longMin longMax n then some ⟨n,h⟩ else none

def LONG_MAX : Long := ⟨longMax,by decide⟩
def LONG_MIN : Long := ⟨longMin,by decide⟩

def EDOM : Nat := 33
def EOVERFLOW : Nat := 75

/-- `a > 0 && b > LONG_MAX - a` -/
def tooLarge (a b : Long) : Option Bool :=
  if 0 < a.val then (Long.ofInt (longMax - a.val)).map fun room => decide (room.val < b.val) else some false

/-- `a < 0 && b < LONG_MIN - a` -/
def tooSmall (a b : Long) : Option Bool :=
  if a.val < 0 then (Long.ofInt (longMin - a.val)).map fun room => decide (b.val < room.val) else some false

/-- The sum, and `errno` behind it. -/
def addsl2 (a b : Long) (errno : Nat) : Option (Long × Nat) := do
  if ← tooLarge a b then some (LONG_MAX,EOVERFLOW)
  else if ← tooSmall a b then some (LONG_MIN,EOVERFLOW)
  else (Long.ofInt (a.val + b.val)).map (·,errno)

/-- The order of `cmp_long`. -/
def longLe (a b : Long) : Prop := a.val ≤ b.val

instance : DecidableRel longLe := fun a b => inferInstanceAs (Decidable (a.val ≤ b.val))
instance : Std.Total longLe := ⟨fun a b => le_total a.val b.val⟩
instance : IsTrans Long longLe := ⟨fun _ _ _ h h' => le_trans h h'⟩

/-- The loop of `addslN`: in each round the smallest and the largest addend become one. -/
def addslLoop (e : Nat) : Nat → List Long → Option (Long × Nat)
  | 0, _ => none
  | _ + 1, [a] => some (a,e)
  | fuel + 1, addend =>
    match addend.insertionSort longLe with
    | [] => none
    | a :: rest => do
      let b ← rest.getLast?
      let (sum,errno) ← addsl2 a b 0
      if errno = EOVERFLOW then some (sum,errno) else addslLoop e fuel (sum :: rest.dropLast)

def addslN (addend : List Long) (errno : Nat) : Option (Long × Nat) :=
  if addend = [] then some (⟨0,by decide⟩,EDOM) else addslLoop errno addend.length addend

def LongRange (n : Int) : Prop := InRange longMin longMax n

instance (n : Int) : Decidable (LongRange n) := inferInstanceAs (Decidable (InRange longMin longMax n))

/-- The long that is nearest to a number. -/
def nearest (n : Int) : Long := ⟨saturate longMin longMax n,saturate_inRange (by decide) n⟩

def exactSum (addend : List Long) : Int := (addend.map Subtype.val).sum

section Two
variable {a b : Long} {n : Int}

theorem ofInt_eq (h : LongRange n) : Long.ofInt n = some ⟨n,h⟩ := dif_pos h

theorem nearest_of_range (h : LongRange n) : nearest n = ⟨n,h⟩ := Subtype.ext (saturate_of_inRange h)

theorem nearest_of_lt (h : longMax < n) : nearest n = LONG_MAX := Subtype.ext (saturate_of_lt h)

theorem nearest_of_gt (h : n < longMin) : nearest n = LONG_MIN := Subtype.ext (saturate_of_gt (by decide) h)

private theorem tooLarge_eq (a b : Long) : tooLarge a b = some (decide (longMax < a.val + b.val)) := by
  obtain ⟨hmin,hmax⟩ := a.property
  obtain ⟨hmin',hmax'⟩ := b.property
  unfold longMin longMax at *
  unfold tooLarge
  split
  · have hroom : LongRange (longMax - a.val) := by
      unfold LongRange InRange longMin longMax
      omega
    have hiff : longMax - a.val < b.val ↔ 2^63 - 1 < a.val + b.val := by
      unfold longMax
      omega
    rw [ofInt_eq hroom,Option.map_some]
    exact congrArg some (decide_eq_decide.mpr hiff)
  · have hnot : ¬ 2^63 - 1 < a.val + b.val := by omega
    rw [decide_eq_false hnot]

private theorem tooSmall_eq (a b : Long) : tooSmall a b = some (decide (a.val + b.val < longMin)) := by
  obtain ⟨hmin,hmax⟩ := a.property
  obtain ⟨hmin',hmax'⟩ := b.property
  unfold longMin longMax at *
  unfold tooSmall
  split
  · have hroom : LongRange (longMin - a.val) := by
      unfold LongRange InRange longMin longMax
      omega
    have hiff : b.val < longMin - a.val ↔ a.val + b.val < -(2^63) := by
      unfold longMin
      omega
    rw [ofInt_eq hroom,Option.map_some]
    exact congrArg some (decide_eq_decide.mpr hiff)
  · have hnot : ¬ a.val + b.val < -(2^63) := by omega
    rw [decide_eq_false hnot]

/-- The sum of two is the exact one, or the end of the range next to it. -/
theorem addsl2_eq (a b : Long) (errno : Nat) :
    addsl2 a b errno = some (nearest (a.val + b.val),if LongRange (a.val + b.val) then errno else EOVERFLOW) := by
  rw [addsl2,tooLarge_eq,tooSmall_eq]
  simp only [Option.bind_eq_bind,Option.bind_some]
  by_cases hlarge : longMax < a.val + b.val
  · have hnot : ¬ LongRange (a.val + b.val) := fun h => not_lt_of_ge h.2 hlarge
    rw [nearest_of_lt hlarge,if_neg hnot]
    simp [hlarge]
  · by_cases hsmall : a.val + b.val < longMin
    · have hnot : ¬ LongRange (a.val + b.val) := fun h => not_lt_of_ge h.1 hsmall
      rw [nearest_of_gt hsmall,if_neg hnot]
      simp [hlarge,hsmall]
    · have hrange : LongRange (a.val + b.val) := ⟨le_of_not_gt hsmall,le_of_not_gt hlarge⟩
      rw [nearest_of_range hrange,if_pos hrange,ofInt_eq hrange]
      simp [hlarge,hsmall]

end Two

section Many
variable {addend rest : List Long} {a b : Long} {e fuel : Nat}

private theorem exactSum_perm {l l' : List Long} (h : l.Perm l') : exactSum l = exactSum l' := (h.map _).sum_eq

/-- Two addends or more, in order: the smallest, the largest, and what is between them. -/
theorem sorted_ends (h : 2 ≤ addend.length) :
    ∃ a mid b, addend.insertionSort longLe = a :: (mid ++ [b]) ∧ (∀ x ∈ mid, a.val ≤ x.val ∧ x.val ≤ b.val) ∧
      exactSum addend = a.val + (exactSum mid + b.val) ∧ mid.length + 2 = addend.length := by
  have hperm := List.perm_insertionSort longLe addend
  have hsorted := List.pairwise_insertionSort longLe addend
  have hlength := hperm.length_eq
  have hsum := exactSum_perm hperm
  cases hs : addend.insertionSort longLe with
  | nil =>
    rw [hs,List.length_nil] at hlength
    omega
  | cons a rest =>
    rw [hs] at hsorted hsum hlength
    rcases List.eq_nil_or_concat rest with rfl | ⟨mid,b,rfl⟩
    · rw [List.length_singleton] at hlength
      omega
    · obtain ⟨hfirst,hrest⟩ := List.pairwise_cons.mp hsorted
      refine ⟨a,mid,b,by simp,?_,?_,?_⟩
      · intro x hx
        rw [List.concat_eq_append] at hrest hfirst
        exact ⟨hfirst x (List.mem_append_left _ hx),(List.pairwise_append.mp hrest).2.2 x hx b List.mem_cons_self⟩
      · rw [← hsum]
        simp [exactSum]
      · rw [← hlength]
        simp

/-- A round of the loop: where the two ends together leave the range, so does the sum of all. -/
theorem addslLoop_step {mid : List Long} (hlength : 2 ≤ addend.length)
    (hsort : addend.insertionSort longLe = a :: (mid ++ [b])) :
    addslLoop e (fuel + 1) addend =
      if LongRange (a.val + b.val) then addslLoop e fuel (nearest (a.val + b.val) :: mid)
      else some (nearest (a.val + b.val),EOVERFLOW) := by
  obtain ⟨x,y,more,rfl⟩ : ∃ x y more, addend = x :: y :: more := by
    rcases addend with _ | ⟨x,_ | ⟨y,more⟩⟩
    · simp at hlength
    · simp at hlength
    · exact ⟨x,y,more,rfl⟩
  rw [addslLoop,hsort]
  · simp only [List.getLast?_concat,List.dropLast_concat,Option.bind_eq_bind,Option.bind_some,addsl2_eq]
    by_cases hrange : LongRange (a.val + b.val)
    · simp only [if_pos hrange]
      rw [if_neg (by decide)]
    · simp only [if_neg hrange,if_true]
  · simp

private theorem addslLoop_eq (hne : addend ≠ []) (hfuel : addend.length ≤ fuel) :
    addslLoop e fuel addend = some (nearest (exactSum addend),if LongRange (exactSum addend) then e else EOVERFLOW) := by
  induction fuel generalizing addend with
  | zero => exact absurd (List.eq_nil_of_length_eq_zero (Nat.le_zero.mp hfuel)) hne
  | succ fuel ih =>
    rcases Nat.lt_or_ge addend.length 2 with hone | htwo
    · obtain ⟨a,rfl⟩ : ∃ a, addend = [a] := by
        rcases addend with _ | ⟨a,_ | ⟨b,rest⟩⟩
        · exact absurd rfl hne
        · exact ⟨a,rfl⟩
        · simp at hone
      have hsum : exactSum [a] = a.val := by simp [exactSum]
      have hrange : LongRange a.val := a.property
      rw [addslLoop,hsum,nearest_of_range hrange,if_pos hrange]
    · obtain ⟨a,mid,b,hsort,hmid,hsum,hlength⟩ := sorted_ends htwo
      have hbetween : ∀ x ∈ mid.map Subtype.val, a.val ≤ x ∧ x ≤ b.val := by
        intro x hx
        obtain ⟨y,hy,rfl⟩ := List.mem_map.mp hx
        exact hmid y hy
      rw [addslLoop_step htwo hsort]
      by_cases hrange : LongRange (a.val + b.val)
      · have htotal : exactSum (nearest (a.val + b.val) :: mid) = exactSum addend := by
          rw [hsum,nearest_of_range hrange]
          simp only [exactSum,List.map_cons,List.sum_cons]
          omega
        rw [if_pos hrange,ih (List.cons_ne_nil _ _) (by rw [List.length_cons]; omega),htotal]
      · rw [if_neg hrange,hsum]
        by_cases hlarge : longMax < a.val + b.val
        · have hall : longMax < a.val + (exactSum mid + b.val) :=
            lt_sum_of_lt_add b.property.2 (fun x hx => (hbetween x hx).1) hlarge
          have hnot : ¬ LongRange (a.val + (exactSum mid + b.val)) := fun h => not_lt_of_ge h.2 hall
          rw [nearest_of_lt hlarge,nearest_of_lt hall,if_neg hnot]
        · have hsmall : a.val + b.val < longMin := by
            by_contra hge
            exact hrange ⟨le_of_not_gt hge,le_of_not_gt hlarge⟩
          have hall : a.val + (exactSum mid + b.val) < longMin :=
            sum_lt_of_add_lt a.property.1 (fun x hx => (hbetween x hx).2) hsmall
          have hnot : ¬ LongRange (a.val + (exactSum mid + b.val)) := fun h => not_lt_of_ge h.1 hall
          rw [nearest_of_gt hsmall,nearest_of_gt hall,if_neg hnot]

theorem addslN_eq (hne : addend ≠ []) (errno : Nat) :
    addslN addend errno = some (nearest (exactSum addend),if LongRange (exactSum addend) then errno else EOVERFLOW) := by
  rw [addslN,if_neg hne]
  exact addslLoop_eq hne le_rfl

end Many

/-- The sum of one addend or more never overflows on the way, and is the exact one, or the end of the range
on its side. -/
theorem addslN_saturates (first : Long) (more : List Long) (errno : Nat) :
    ∃ sum errno', addslN (first :: more) errno = some (sum,errno') ∧
      (LongRange (exactSum (first :: more)) → sum.val = exactSum (first :: more) ∧ errno' = errno) ∧
      (longMax < exactSum (first :: more) → sum.val = longMax ∧ errno' = EOVERFLOW) ∧
      (exactSum (first :: more) < longMin → sum.val = longMin ∧ errno' = EOVERFLOW) := by
  refine ⟨_,_,addslN_eq (List.cons_ne_nil _ _) errno,?_,?_,?_⟩
  · intro h
    rw [nearest_of_range h,if_pos h]
    exact ⟨rfl,rfl⟩
  · intro h
    have hnot : ¬ LongRange (exactSum (first :: more)) := fun hrange => not_lt_of_ge hrange.2 h
    rw [nearest_of_lt h,if_neg hnot]
    exact ⟨rfl,rfl⟩
  · intro h
    have hnot : ¬ LongRange (exactSum (first :: more)) := fun hrange => not_lt_of_ge hrange.1 h
    rw [nearest_of_gt h,if_neg hnot]
    exact ⟨rfl,rfl⟩

end UserDb.Numbers
