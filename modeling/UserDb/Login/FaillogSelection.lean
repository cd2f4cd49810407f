import UserDb.Login.FaillogEffect

/-! The options of `faillog` against their description: the selected users get the given values. -/
namespace UserDb.Login
open UserDb.Base UserDb.Commonio

/-- A user that is selected: the one that is named, or one between the bounds. -/
def Selected (o : FaillogOptions) (b : IdBounds) (pws : List Passwd) (records : Nat) (uid : UInt32) : Prop :=
  if isOne o.user.isSome b then uid.toNat = b.min
  else if o.aflg then (b.hasMin = true → b.min ≤ uid.toNat) ∧ if b.hasMax then uid.toNat ≤ b.max else uid.toNat < records
  else (∃ pwent ∈ pws, pwent.uid = uid) ∧ (b.hasMin = true → b.min ≤ uid.toNat) ∧ (b.hasMax = true → uid.toNat ≤ b.max)

/-- The record with the values of the options. -/
def FaillogOptions.apply (o : FaillogOptions) (fl : Faillog) : Faillog :=
  { fl with
    failLocktime := o.locktime.getD fl.failLocktime
    failMax := o.max.getD fl.failMax
    failCnt := if o.reset then 0 else fl.failCnt }

/-- The run ends, and the selected records have the values of the options, and the others what they had. -/
def SetsSelected (o : FaillogOptions) (b : IdBounds) (pws : List Passwd) (file : FaillogFile) : Prop :=
  ∃ steps file', (∀ fuel, steps ≤ fuel → faillog o b pws fuel file = some file') ∧ ∀ uid,
    (Selected o b pws file.length uid → file'.record uid = o.apply (file.record uid)) ∧
      (¬ Selected o b pws file.length uid → file'.record uid = file.record uid)

/-- When the passes see what they change, and their bounds are those of the selection. -/
structure FaillogCondition (o : FaillogOptions) (b : IdBounds) (pws : List Passwd) (file : FaillogFile) : Prop where
  ends : isOne o.user.isSome b = false → o.aflg = true → b.hasMax = true → b.max = 2^32 - 1 → o.locktime = none ∧ o.max = none
  seen : ∀ uid, Selected o b pws file.length uid → file.length ≤ uid.toNat →
    ∀ locktime max, o.locktime = some locktime → o.max = some max → locktime = 0 ∨ max = 0
  default : o.aflg = true → b.hasMax = false → file.length ≤ 1 → (b.hasMin = true → b.min ≤ file.length) →
    (∀ locktime, o.locktime = some locktime → locktime = 0) ∧ ∀ max, o.max = some max → max = 0
  counted : 2^32 ≤ file.length → isOne o.user.isSome b = false → ∀ uid, Selected o b pws file.length uid → lastUid file.length < uid →
    (o.aflg = true → b.hasMax = false → (∀ locktime, o.locktime = some locktime → (file.record uid).failLocktime = locktime) ∧
      ∀ max, o.max = some max → (file.record uid).failMax = max) ∧
    (o.reset = true → o.aflg = true ∨ o.user.isSome = true → (file.record uid).failCnt = 0)

/-- Bounds that are ids. -/
structure IdBounds.Small (b : IdBounds) : Prop where
  min_lt : b.min < 2^32
  max_lt : b.max < 2^32

variable {o : FaillogOptions} {b : IdBounds} {pws : List Passwd} {file file' : FaillogFile} {uid : UInt32} {records : Nat}

private theorem isOne_bounds {uflg : Bool} (h : isOne uflg b = true) : b.hasMin = true ∧ b.hasMax = true ∧ b.min = b.max := by
  unfold isOne at h
  simp only [Bool.and_eq_true,beq_iff_eq] at h
  exact ⟨h.1.1.2,h.1.2,h.2⟩

theorem isOne_of_unbounded {uflg : Bool} (h : b.hasMax = false) : isOne uflg b = false := by
  cases hone : isOne uflg b with
  | false => rfl
  | true =>
    rw [(isOne_bounds hone).2.1] at h
    cases h

theorem firstUid_le (hb : b.Small) : firstUid b ≤ uid ↔ (b.hasMin = true → b.min ≤ uid.toNat) := by
  unfold firstUid
  cases b.hasMin with
  | true =>
    simp only [if_true,true_implies]
    rw [UInt32.le_iff_toNat_le,UInt32.toNat_ofNat_of_lt' hb.min_lt]
  | false =>
    simp only [Bool.false_eq_true,if_false,false_implies,iff_true]
    exact UInt32.le_iff_toNat_le.mpr (Nat.zero_le _)

theorem isBelow_eq_false (uid : UInt32) (hb : b.Small) : isBelow b uid = false ↔ (b.hasMin = true → b.min ≤ uid.toNat) := by
  unfold isBelow
  cases b.hasMin with
  | true =>
    rw [Bool.true_and,decide_eq_false_iff_not,UInt32.not_lt,UInt32.le_iff_toNat_le,UInt32.toNat_ofNat_of_lt' hb.min_lt]
    simp
  | false => simp

private theorem isAbove_eq_false (hb : b.Small) : isAbove b uid = false ↔ (b.hasMax = true → uid.toNat ≤ b.max) := by
  unfold isAbove
  cases b.hasMax with
  | true =>
    rw [Bool.true_and,decide_eq_false_iff_not,UInt32.not_lt,UInt32.le_iff_toNat_le,UInt32.toNat_ofNat_of_lt' hb.max_lt]
    simp
  | false => simp

theorem lastUid_toNat (h : records < 2^32) : (lastUid records).toNat = if 1 < records then records - 1 else records := by
  have hrecords : (UInt32.ofNat records).toNat = records := UInt32.toNat_ofNat_of_lt' h
  have hone : (1 : UInt32).toNat = 1 := rfl
  have hlt : 1 < UInt32.ofNat records ↔ 1 < records := by rw [UInt32.lt_iff_toNat_lt,hrecords,hone]
  unfold lastUid
  by_cases hmore : 1 < records
  · rw [if_pos (hlt.mpr hmore),if_pos hmore,UInt32.toNat_sub,hrecords,hone]
    omega
  · rw [if_neg (fun h => hmore (hlt.mp h)),if_neg hmore]
    exact hrecords

/-- The ids of a pass that sets a field: those that are selected, but for the default upper bound. -/
theorem mem_setUids (hb : b.Small) (huser : o.user = none → b = ⟨0,false,0,false⟩) :
    uid ∈ setUids records pws o.user.isSome o.aflg b ↔
      if isOne o.user.isSome b = false ∧ o.aflg = true ∧ b.hasMax = false then
        (b.hasMin = true → b.min ≤ uid.toNat) ∧ uid ≤ lastUid records
      else Selected o b pws records uid := by
  unfold setUids Selected
  cases hone : isOne o.user.isSome b with
  | true =>
    simp only [if_true,List.mem_singleton,Bool.true_eq_false,false_and,if_false]
    rw [← UInt32.toNat_inj,UInt32.toNat_ofNat_of_lt' hb.min_lt]
  | false =>
    cases haflg : o.aflg with
    | true =>
      simp only [Bool.false_eq_true,if_false,if_true,true_and]
      rw [mem_uidsBetween,firstUid_le hb]
      cases hmax : b.hasMax with
      | true =>
        simp only [if_true,Bool.true_eq_false,if_false]
        rw [UInt32.le_iff_toNat_le,UInt32.toNat_ofNat_of_lt' hb.max_lt]
      | false => simp
    | false =>
      simp only [Bool.false_eq_true,if_false,false_and,and_false]
      rw [List.mem_filter,List.mem_map,← isBelow_eq_false _ hb,← isAbove_eq_false hb]
      cases huser' : o.user with
      | none =>
        rw [huser huser']
        simp [isBelow,isAbove]
      | some _ => simp

/-- Those whose counts are reset are no more than the selected ones, up to the end of the file. -/
theorem mem_resetUids (pws : List Passwd) (hb : b.Small) (huser : o.user = none → b = ⟨0,false,0,false⟩) (huid : uid.toNat < records) :
    uid ∈ resetUids records pws o.user.isSome o.aflg b ↔ Selected o b pws records uid ∧
      (isOne o.user.isSome b = false → o.aflg = true ∨ o.user.isSome = true → uid ≤ lastUid records) := by
  have hlast : uid ≤ lastReset records b ↔ (b.hasMax = true → uid.toNat ≤ b.max) ∧ uid ≤ lastUid records := by
    unfold lastReset
    cases b.hasMax with
    | false => simp
    | true =>
      have hmax : (UInt32.ofNat b.max).toNat = b.max := UInt32.toNat_ofNat_of_lt' hb.max_lt
      simp only [Bool.true_and,decide_eq_true_eq,true_implies]
      split
      · rename_i h
        have h := UInt32.lt_iff_toNat_lt.mp h
        rw [UInt32.le_iff_toNat_le,UInt32.le_iff_toNat_le]
        omega
      · rename_i h
        have h := UInt32.le_iff_toNat_le.mp (UInt32.not_lt.mp h)
        rw [UInt32.le_iff_toNat_le]
        omega
  unfold resetUids Selected
  cases hone : isOne o.user.isSome b with
  | true =>
    simp only [if_true,List.mem_singleton,Bool.true_eq_false,false_implies,and_true]
    rw [← UInt32.toNat_inj,UInt32.toNat_ofNat_of_lt' hb.min_lt]
  | false =>
    cases haflg : o.aflg with
    | true =>
      simp only [Bool.false_eq_true,if_false,if_true,true_or,true_implies]
      rw [mem_uidsBetween,firstUid_le hb,hlast]
      cases b.hasMax with
      | true =>
        simp only [if_true,true_implies]
        tauto
      | false =>
        simp only [Bool.false_eq_true,if_false,false_implies,true_and]
        tauto
    | false =>
      simp only [Bool.false_eq_true,if_false,false_or,true_implies]
      rw [List.mem_filter,List.mem_map]
      cases huser' : o.user with
      | none =>
        rw [huser huser']
        simp
      | some _ =>
        have hbelow := isBelow_eq_false uid hb
        simp only [Option.isSome_some,Bool.true_and,Bool.not_eq_true',Bool.or_eq_false_iff,decide_eq_false_iff_not,UInt32.not_lt,
          hbelow,hlast]
        tauto

section Final
variable (o : FaillogOptions) (b : IdBounds) (pws : List Passwd) (records : Nat) (uid : UInt32)

/-- What the first pass makes of a record. -/
def lockedRecord (fl : Faillog) : Faillog :=
  match o.locktime with
  | some locktime =>
    if uid ∈ setUids records pws o.user.isSome o.aflg b then
      updated records Faillog.failLocktime (fun fl locktime => { fl with failLocktime := locktime }) locktime uid fl
    else fl
  | none => fl

/-- What the second one makes of it. -/
def limitedRecord (fl : Faillog) : Faillog :=
  match o.max with
  | some max =>
    if uid ∈ setUids records pws o.user.isSome o.aflg b then
      updated records Faillog.failMax (fun fl max => { fl with failMax := max }) max uid (lockedRecord o b pws records uid fl)
    else lockedRecord o b pws records uid fl
  | none => lockedRecord o b pws records uid fl

/-- What all of them make of it. -/
def finalRecord (fl : Faillog) : Faillog :=
  if o.reset = true ∧ uid ∈ resetUids records pws o.user.isSome o.aflg b then
    updated records Faillog.failCnt (fun fl cnt => { fl with failCnt := cnt }) 0 uid (limitedRecord o b pws records uid fl)
  else limitedRecord o b pws records uid fl

end Final

/-- A run ends where its passes do, and makes of each record what they make of it. -/
theorem faillog_eq (pws : List Passwd) (file : FaillogFile) (h : Endless o.user.isSome o.aflg b → o.locktime = none ∧ o.max = none) :
    ∃ file', (∀ fuel, 2^32 ≤ fuel → faillog o b pws fuel file = some file') ∧
      ∀ uid, file'.record uid = finalRecord o b pws file.length uid (file.record uid) := by
  obtain ⟨locked,hlocked,hlockedRecord⟩ : ∃ locked, (∀ fuel, 2^32 ≤ fuel →
        passIf o.locktime (fun locktime => setLocktime file.length pws o.user.isSome o.aflg b locktime fuel) file = some locked) ∧
        ∀ uid, locked.record uid = lockedRecord o b pws file.length uid (file.record uid) := by
    unfold lockedRecord
    cases hvalue : o.locktime with
    | none => exact ⟨file,fun _ _ => rfl,fun _ => rfl⟩
    | some locktime =>
      have hends : ¬ Endless o.user.isSome o.aflg b := fun hendless => by
        rw [hvalue] at h
        cases (h hendless).1
      refine ⟨_,fun _ hfuel => setEach_eq _ hends hfuel,?_⟩
      intro uid
      exact record_foldl (record_updateOne isField_failLocktime) (updated_twice isField_failLocktime) _ _ _
  obtain ⟨limited,hlimited,hlimitedRecord⟩ : ∃ limited, (∀ fuel, 2^32 ≤ fuel →
        passIf o.max (fun max => setmax file.length pws o.user.isSome o.aflg b max fuel) locked = some limited) ∧
        ∀ uid, limited.record uid = limitedRecord o b pws file.length uid (file.record uid) := by
    unfold limitedRecord
    cases hvalue : o.max with
    | none => exact ⟨locked,fun _ _ => rfl,hlockedRecord⟩
    | some max =>
      have hends : ¬ Endless o.user.isSome o.aflg b := fun hendless => by
        rw [hvalue] at h
        cases (h hendless).2
      refine ⟨_,fun _ hfuel => setEach_eq _ hends hfuel,?_⟩
      intro uid
      rw [← hlockedRecord]
      exact record_foldl (record_updateOne isField_failMax) (updated_twice isField_failMax) _ _ _
  have hrun : ∀ fuel, 2^32 ≤ fuel → faillog o b pws fuel file =
      if o.reset then reset file.length pws o.user.isSome o.aflg b fuel limited else some limited := by
    intro fuel hfuel
    unfold faillog
    rw [hlocked fuel hfuel,Option.bind_eq_bind,Option.bind_some,hlimited fuel hfuel,Option.bind_some]
  unfold finalRecord
  cases hreset : o.reset with
  | false =>
    rw [hreset] at hrun
    refine ⟨limited,hrun,?_⟩
    intro uid
    rw [hlimitedRecord,if_neg (by simp)]
  | true =>
    rw [hreset] at hrun
    refine ⟨_,fun fuel hfuel => (hrun fuel hfuel).trans (reset_eq hfuel),?_⟩
    intro uid
    rw [← hlimitedRecord]
    simp only [true_and]
    exact record_foldl (record_updateOne isField_failCnt) (updated_twice isField_failCnt) _ _ _

private theorem faillog_endless (hendless : Endless o.user.isSome o.aflg b) (h : o.locktime ≠ none ∨ o.max ≠ none) (fuel : Nat) :
    faillog o b pws fuel file = none := by
  unfold faillog
  cases hlocktime : o.locktime with
  | some locktime =>
    rw [passIf,setLocktime,setEach_endless _ hendless]
    rfl
  | none =>
    cases hmax : o.max with
    | none =>
      rcases h with hne | hne
      · exact absurd hlocktime hne
      · exact absurd hmax hne
    | some max =>
      rw [passIf,Option.bind_eq_bind,Option.bind_some,passIf,setmax,setEach_endless _ hendless]
      rfl

/-- A record that the file had: each field is set where its pass goes over it. -/
theorem finalRecord_inside (hin : uid.toNat < records) (fl : Faillog) :
    finalRecord o b pws records uid fl =
      { fl with
        failLocktime := if uid ∈ setUids records pws o.user.isSome o.aflg b then o.locktime.getD fl.failLocktime else fl.failLocktime
        failMax := if uid ∈ setUids records pws o.user.isSome o.aflg b then o.max.getD fl.failMax else fl.failMax
        failCnt := if o.reset = true ∧ uid ∈ resetUids records pws o.user.isSome o.aflg b then 0 else fl.failCnt } := by
  unfold finalRecord limitedRecord lockedRecord updated
  by_cases hset : uid ∈ setUids records pws o.user.isSome o.aflg b
  · by_cases hreset : o.reset = true ∧ uid ∈ resetUids records pws o.user.isSome o.aflg b
    · cases o.locktime <;> cases o.max <;> simp [hin,hset,hreset]
    · cases o.locktime <;> cases o.max <;> simp [hin,hset,hreset]
  · by_cases hreset : o.reset = true ∧ uid ∈ resetUids records pws o.user.isSome o.aflg b
    · cases o.locktime <;> cases o.max <;> simp [hin,hset,hreset]
    · cases o.locktime <;> cases o.max <;> simp [hset,hreset]

/-- A record that the file did not have: a limit is set as if no time had been. -/
theorem finalRecord_outside (hout : records ≤ uid.toNat) :
    finalRecord o b pws records uid .zero =
      if uid ∈ setUids records pws o.user.isSome o.aflg b then
        { Faillog.zero with
          failLocktime := if o.max.getD 0 = 0 then o.locktime.getD 0 else 0
          failMax := o.max.getD 0 }
      else .zero := by
  have hin : ¬ uid.toNat < records := Nat.not_lt.mpr hout
  have hlimited : limitedRecord o b pws records uid .zero =
      if uid ∈ setUids records pws o.user.isSome o.aflg b then
        { Faillog.zero with
          failLocktime := if o.max.getD 0 = 0 then o.locktime.getD 0 else 0
          failMax := o.max.getD 0 }
      else .zero := by
    unfold limitedRecord lockedRecord updated
    by_cases hset : uid ∈ setUids records pws o.user.isSome o.aflg b
    · simp only [hset,hin,if_true,if_false]
      cases o.locktime with
      | none =>
        cases o.max with
        | none => rfl
        | some max => by_cases hmax : max = 0 <;> simp [Faillog.zero,hmax,eq_comm]
      | some locktime =>
        cases o.max with
        | none => by_cases hlocktime : locktime = 0 <;> simp [Faillog.zero,hlocktime,eq_comm]
        | some max =>
          by_cases hmax : max = 0
          · by_cases hlocktime : locktime = 0 <;> simp [Faillog.zero,hmax,hlocktime,eq_comm]
          · simp [Faillog.zero,hmax,eq_comm]
    · simp only [hset,if_false]
      cases o.locktime <;> cases o.max <;> rfl
  unfold finalRecord updated
  rw [if_neg hin,hlimited]
  have hcount : Faillog.zero.failCnt = 0 := rfl
  rw [if_pos hcount,ite_self]

/-- Up to the last id that is counted the passes go over the selected ids. -/
theorem mem_setUids_of_le (pws : List Passwd) (hb : b.Small) (huser : o.user = none → b = ⟨0,false,0,false⟩) (hin : uid.toNat < records)
    (hle : uid ≤ lastUid records) : uid ∈ setUids records pws o.user.isSome o.aflg b ↔ Selected o b pws records uid := by
  rw [mem_setUids hb huser]
  split
  · rename_i hdefault
    obtain ⟨hone,haflg,hmax⟩ := hdefault
    simp [Selected,hone,haflg,hmax,hin,hle]
  · exact Iff.rfl

/-- Where no default bound is taken, they go over the selected ids. -/
theorem mem_setUids_of_bound (records : Nat) (uid : UInt32) (pws : List Passwd) (hb : b.Small)
    (huser : o.user = none → b = ⟨0,false,0,false⟩) (hbound : o.aflg = true → b.hasMax = true) :
    uid ∈ setUids records pws o.user.isSome o.aflg b ↔ Selected o b pws records uid := by
  rw [mem_setUids hb huser,if_neg]
  rintro ⟨_,haflg,hmax⟩
  rw [hbound haflg] at hmax
  cases hmax

theorem selected_default (haflg : o.aflg = true) (hmax : b.hasMax = false) :
    Selected o b pws records uid ↔ (b.hasMin = true → b.min ≤ uid.toNat) ∧ uid.toNat < records := by
  simp [Selected,isOne_of_unbounded hmax,haflg,hmax]

theorem mem_setUids_default (hb : b.Small) (huser : o.user = none → b = ⟨0,false,0,false⟩) (haflg : o.aflg = true)
    (hmax : b.hasMax = false) : uid ∈ setUids records pws o.user.isSome o.aflg b ↔
      (b.hasMin = true → b.min ≤ uid.toNat) ∧ uid ≤ lastUid records := by
  rw [mem_setUids hb huser,if_pos ⟨isOne_of_unbounded hmax,haflg,hmax⟩]

private theorem lastUid_of_lt (hin : uid.toNat < records) (hrecords : records < 2^32) : uid ≤ lastUid records := by
  rw [UInt32.le_iff_toNat_le,lastUid_toNat hrecords]
  split <;> omega

/-- What a run leaves of a record is what the options say, under the condition. -/
theorem FaillogCondition.finalRecord (h : FaillogCondition o b pws file) (hb : b.Small) (huser : o.user = none → b = ⟨0,false,0,false⟩) :
    (Selected o b pws file.length uid →
        UserDb.Login.finalRecord o b pws file.length uid (file.record uid) = o.apply (file.record uid)) ∧
      (¬ Selected o b pws file.length uid → UserDb.Login.finalRecord o b pws file.length uid (file.record uid) = file.record uid) := by
  by_cases hin : uid.toNat < file.length
  · rw [finalRecord_inside hin]
    by_cases hle : uid ≤ lastUid file.length
    · have hset := mem_setUids_of_le pws hb huser hin hle
      have hreset := mem_resetUids pws hb huser hin
      constructor
      · intro hselected
        have hreset := hreset.mpr ⟨hselected,fun _ _ => hle⟩
        simp [hset.mpr hselected,hreset,FaillogOptions.apply]
      · intro hnot
        simp [mt hset.mp hnot,mt (fun hr => (hreset.mp hr).1) hnot]
    · -- the count of the records has gone round
      have hlong : 2^32 ≤ file.length := by
        by_contra hshort
        exact hle (lastUid_of_lt hin (Nat.not_le.mp hshort))
      have hreset := mem_resetUids pws hb huser hin
      constructor
      · intro hselected
        have hcnt : (if o.reset = true ∧ uid ∈ resetUids file.length pws o.user.isSome o.aflg b then 0 else (file.record uid).failCnt) =
            if o.reset = true then 0 else (file.record uid).failCnt := by
          by_cases hmem : uid ∈ resetUids file.length pws o.user.isSome o.aflg b
          · simp [hmem]
          · have hmissed : isOne o.user.isSome b = false ∧ (o.aflg = true ∨ o.user.isSome = true) := by
              rw [hreset] at hmem
              by_contra hno
              exact hmem ⟨hselected,fun hone hor => absurd ⟨hone,hor⟩ hno⟩
            have hcounted := (h.counted hlong hmissed.1 uid hselected (UInt32.not_le.mp hle)).2
            cases hr : o.reset with
            | false => simp
            | true => simp [hmem,hcounted hr hmissed.2]
        rw [hcnt]
        by_cases hdefault : o.aflg = true ∧ b.hasMax = false
        · obtain ⟨haflg,hmax⟩ := hdefault
          have hmem : uid ∉ setUids file.length pws o.user.isSome o.aflg b := by
            rw [mem_setUids_default hb huser haflg hmax]
            exact fun hs => hle hs.2
          obtain ⟨hlocktime,hlimit⟩ := (h.counted hlong (isOne_of_unbounded hmax) uid hselected (UInt32.not_le.mp hle)).1 haflg hmax
          have hlocktime' : o.locktime.getD (file.record uid).failLocktime = (file.record uid).failLocktime := by
            cases hvalue : o.locktime with
            | none => rfl
            | some locktime => exact (hlocktime _ hvalue).symm
          have hlimit' : o.max.getD (file.record uid).failMax = (file.record uid).failMax := by
            cases hvalue : o.max with
            | none => rfl
            | some max => exact (hlimit _ hvalue).symm
          simp [hmem,FaillogOptions.apply,hlocktime',hlimit']
        · have hmem := (mem_setUids_of_bound file.length uid pws hb huser (fun haflg => by
            by_contra hmax
            exact hdefault ⟨haflg,by simpa using hmax⟩)).mpr hselected
          simp [hmem,FaillogOptions.apply]
      · intro hnot
        have hmem : uid ∉ setUids file.length pws o.user.isSome o.aflg b := by
          by_cases hdefault : o.aflg = true ∧ b.hasMax = false
          · rw [mem_setUids_default hb huser hdefault.1 hdefault.2]
            exact fun hs => hle hs.2
          · rw [mem_setUids_of_bound _ _ _ hb huser]
            · exact hnot
            · intro haflg
              by_contra hmax
              exact hdefault ⟨haflg,by simpa using hmax⟩
        simp [hmem,mt (fun hr => (hreset.mp hr).1) hnot]
  · have hout := Nat.not_lt.mp hin
    rw [FaillogFile.record_of_length_le hout,finalRecord_outside hout]
    have hshort : file.length < 2^32 := lt_of_le_of_lt hout uid.toNat_lt
    by_cases hdefault : o.aflg = true ∧ b.hasMax = false
    · obtain ⟨haflg,hmax⟩ := hdefault
      have hnot : ¬ Selected o b pws file.length uid := by
        rw [selected_default haflg hmax]
        exact fun hs => hin hs.2
      refine ⟨fun hselected => absurd hselected hnot,fun _ => ?_⟩
      split
      · rename_i hmem
        rw [mem_setUids_default hb huser haflg hmax,UInt32.le_iff_toNat_le,lastUid_toNat hshort] at hmem
        have hfew : file.length ≤ 1 ∧ uid.toNat = file.length := by
          have hle := hmem.2
          split at hle <;> omega
        obtain ⟨hlocktime,hlimit⟩ := h.default haflg hmax hfew.1 (fun hmin => hfew.2 ▸ hmem.1 hmin)
        have hlocktime' : o.locktime.getD 0 = 0 := by
          cases hvalue : o.locktime with
          | none => rfl
          | some locktime => exact hlocktime _ hvalue
        have hlimit' : o.max.getD 0 = 0 := by
          cases hvalue : o.max with
          | none => rfl
          | some max => exact hlimit _ hvalue
        simp [hlocktime',hlimit',Faillog.zero]
      · rfl
    · have hmem := mem_setUids_of_bound file.length uid pws hb huser fun haflg => by
        by_contra hmax
        exact hdefault ⟨haflg,by simpa using hmax⟩
      constructor
      · intro hselected
        rw [if_pos (hmem.mpr hselected)]
        have hlocktime : (if o.max.getD 0 = 0 then o.locktime.getD 0 else 0) = o.locktime.getD 0 := by
          split
          · rfl
          · rename_i hlimit
            cases hmax : o.max with
            | none =>
              rw [hmax] at hlimit
              exact absurd rfl hlimit
            | some max =>
              cases hlocktime : o.locktime with
              | none => rfl
              | some locktime =>
                rw [hmax] at hlimit
                rcases h.seen uid hselected hout locktime max hlocktime hmax with hzero | hzero
                · exact hzero.symm
                · exact absurd hzero hlimit
        rw [hlocktime]
        simp [FaillogOptions.apply,Faillog.zero]
      · intro hnot
        rw [if_neg (mt hmem.mp hnot)]

private theorem finalRecord_of_setsSelected (h : SetsSelected o b pws file)
    (hends : Endless o.user.isSome o.aflg b → o.locktime = none ∧ o.max = none) :
    ∀ uid, (Selected o b pws file.length uid →
        finalRecord o b pws file.length uid (file.record uid) = o.apply (file.record uid)) ∧
      (¬ Selected o b pws file.length uid → finalRecord o b pws file.length uid (file.record uid) = file.record uid) := by
  obtain ⟨steps,file',hrun,hrecords⟩ := h
  obtain ⟨file'',hrun',hfinal⟩ := faillog_eq pws file hends
  have hsame : file' = file'' := by
    have hfirst := hrun (max steps (2^32)) (le_max_left _ _)
    rw [hrun' _ (le_max_right _ _)] at hfirst
    exact (Option.some.inj hfirst).symm
  intro uid
  rw [← hfinal,← hsame]
  exact hrecords uid

/-- The options of a run set exactly the fields that they say where the condition holds, and nowhere else. -/
theorem faillog_sets_selected_iff (o : FaillogOptions) (getpwnam : Bytes → Option Passwd) (b : IdBounds) (pws : List Passwd)
    (file : FaillogFile) (hselect : selectUsers getpwnam o.user = some b) (hmin : b.min < 2^32) (hmax : b.max < 2^32) :
    SetsSelected o b pws file ↔ FaillogCondition o b pws file := by
  have hb : b.Small := ⟨hmin,hmax⟩
  have huser : o.user = none → b = ⟨0,false,0,false⟩ := by
    intro hnone
    rw [hnone] at hselect
    exact (Option.some.inj hselect).symm
  have hlast : (UInt32.ofNat b.max).toNat = b.max := UInt32.toNat_ofNat_of_lt' hmax
  constructor
  · intro h
    have hends : Endless o.user.isSome o.aflg b → o.locktime = none ∧ o.max = none := by
      intro hendless
      by_contra hsome
      obtain ⟨steps,file',hrun,_⟩ := h
      have hrun := hrun steps le_rfl
      rw [faillog_endless hendless (by tauto)] at hrun
      cases hrun
    have hfinal := finalRecord_of_setsSelected h hends
    refine ⟨?_,?_,?_,?_⟩
    · intro hone haflg hhas hgreatest
      exact hends ⟨hone,haflg,hhas,hlast.trans hgreatest⟩
    · intro uid hselected hout locktime max hlocktime hlimit
      have hmem : uid ∈ setUids file.length pws o.user.isSome o.aflg b := by
        rw [mem_setUids_of_bound _ _ _ hb huser]
        · exact hselected
        · intro haflg
          by_contra hhas
          rw [selected_default haflg (by simpa using hhas)] at hselected
          omega
      have hrecord := (hfinal uid).1 hselected
      rw [FaillogFile.record_of_length_le hout,finalRecord_outside hout,if_pos hmem] at hrecord
      have hlocktimes := congrArg Faillog.failLocktime hrecord
      simp only [hlocktime,hlimit,Option.getD_some,FaillogOptions.apply] at hlocktimes
      by_cases hzero : max = 0
      · exact .inr hzero
      · rw [if_neg hzero] at hlocktimes
        exact .inl hlocktimes.symm
    · intro haflg hhas hfew hfirst
      have hlength : (UInt32.ofNat file.length).toNat = file.length := UInt32.toNat_ofNat_of_lt' (by simp only [UInt32.size]; omega)
      have hnot : ¬ Selected o b pws file.length (UInt32.ofNat file.length) := by
        rw [selected_default haflg hhas,hlength]
        exact fun hs => absurd hs.2 (lt_irrefl _)
      have hmem : UInt32.ofNat file.length ∈ setUids file.length pws o.user.isSome o.aflg b := by
        rw [mem_setUids_default hb huser haflg hhas,hlength,UInt32.le_iff_toNat_le,hlength,lastUid_toNat (by omega),
          if_neg (by omega)]
        exact ⟨hfirst,le_rfl⟩
      have hrecord := (hfinal _).2 hnot
      rw [FaillogFile.record_of_length_le hlength.ge,finalRecord_outside hlength.ge,if_pos hmem] at hrecord
      have hlimits : o.max.getD 0 = 0 := congrArg Faillog.failMax hrecord
      have hlocktimes := congrArg Faillog.failLocktime hrecord
      simp only [hlimits,if_true] at hlocktimes
      constructor
      · intro locktime hlocktime
        rw [hlocktime] at hlocktimes
        exact hlocktimes
      · intro max hlimit
        rw [hlimit] at hlimits
        exact hlimits
    · intro hlong hone uid hselected hbeyond
      have hin : uid.toNat < file.length := lt_of_lt_of_le uid.toNat_lt hlong
      have hrecord := (hfinal uid).1 hselected
      rw [finalRecord_inside hin] at hrecord
      constructor
      · intro haflg hhas
        have hmem : uid ∉ setUids file.length pws o.user.isSome o.aflg b := by
          rw [mem_setUids_default hb huser haflg hhas]
          exact fun hs => absurd hs.2 (UInt32.not_le.mpr hbeyond)
        have hlocktimes := congrArg Faillog.failLocktime hrecord
        have hlimits := congrArg Faillog.failMax hrecord
        simp only [hmem,if_false,FaillogOptions.apply] at hlocktimes hlimits
        constructor
        · intro locktime hlocktime
          rw [hlocktime] at hlocktimes
          exact hlocktimes
        · intro max hlimit
          rw [hlimit] at hlimits
          exact hlimits
      · intro hreset hpart
        have hmem : uid ∉ resetUids file.length pws o.user.isSome o.aflg b := by
          rw [mem_resetUids _ hb huser hin]
          exact fun hr => absurd (hr.2 hone hpart) (UInt32.not_le.mpr hbeyond)
        have hcounts := congrArg Faillog.failCnt hrecord
        simpa only [hmem,hreset,and_false,if_false,if_true,FaillogOptions.apply] using hcounts
  · intro h
    obtain ⟨file',hrun,hfinal⟩ := faillog_eq pws file fun hendless : Endless o.user.isSome o.aflg b =>
      h.ends hendless.1 hendless.2.1 hendless.2.2.1 (hlast.symm.trans hendless.2.2.2)
    refine ⟨2^32,file',hrun,?_⟩
    intro uid
    rw [hfinal]
    exact h.finalRecord hb huser

/-- Both limits for the first user. -/
def bothLimits : FaillogOptions := ⟨false,some (ascii "0"),some 60,some 5,false⟩

/-- In an empty file the second limit takes the first one away. -/
theorem second_limit_drops_the_first : selectUsers (fun _ => none) bothLimits.user = some ⟨0,true,0,true⟩ ∧
    ¬ SetsSelected bothLimits ⟨0,true,0,true⟩ [] [] := by
  refine ⟨by decide +kernel,?_⟩
  rintro ⟨steps,file',hrun,hrecords⟩
  have hrun : faillog bothLimits ⟨0,true,0,true⟩ [] steps [] = some file' := hrun steps le_rfl
  have hfile : file' = [⟨0,5,.replicate 12 0,0,0⟩] := (Option.some.inj hrun).symm
  have hlocktime := congrArg Faillog.failLocktime ((hrecords 0).1 rfl)
  rw [hfile] at hlocktime
  exact absurd hlocktime (by decide)

theorem faillog_sets_selected_present : SetsSelected bothLimits ⟨0,true,0,true⟩ [] [.zero] := by
  refine (faillog_sets_selected_iff bothLimits (fun _ => none) _ [] [.zero] (by decide +kernel) (by decide) (by decide)).mpr ?_
  refine ⟨nofun,?_,nofun,?_⟩
  · intro uid hselected hout
    have hzero : uid.toNat = 0 := hselected
    rw [hzero] at hout
    exact absurd hout (by decide)
  · intro hlong
    exact absurd hlong (by decide)

end UserDb.Login
