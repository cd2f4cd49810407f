import UserDb.Login.FaillogOptions

/-! What the passes over the file of failures leave: each record apart, and when it is what the
options say. -/
namespace UserDb.Login
open UserDb.Base UserDb.Commonio

/-- The ids between two ends. -/
def uidsBetween (first last : UInt32) : List UInt32 := (List.range' first.toNat (last.toNat + 1 - first.toNat)).map UInt32.ofNat

theorem mem_uidsBetween {first last uid : UInt32} : uid ∈ uidsBetween first last ↔ first ≤ uid ∧ uid ≤ last := by
  have hlast := last.toNat_lt
  rw [uidsBetween,List.mem_map,UInt32.le_iff_toNat_le,UInt32.le_iff_toNat_le]
  constructor
  · rintro ⟨n,hn,rfl⟩
    have hn := List.mem_range'_1.mp hn
    rw [UInt32.toNat_ofNat_of_lt' (by simp only [UInt32.size]; omega)]
    omega
  · intro h
    exact ⟨uid.toNat,List.mem_range'_1.mpr (by omega),UInt32.ofNat_toNat⟩

private theorem uidsBetween_cons {first last : UInt32} (h : first ≤ last) (hlast : last.toNat < 2^32 - 1) :
    uidsBetween first last = first :: uidsBetween (first + 1) last := by
  have hle := UInt32.le_iff_toNat_le.mp h
  have hsucc : (first + 1).toNat = first.toNat + 1 := by
    rw [UInt32.toNat_add]
    have hone : (1 : UInt32).toNat = 1 := rfl
    omega
  have hcount : last.toNat + 1 - first.toNat = (last.toNat + 1 - (first + 1).toNat) + 1 := by omega
  rw [uidsBetween,hcount,List.range'_succ,List.map_cons,UInt32.ofNat_toNat,uidsBetween,hsucc]

private theorem uidsBetween_nil {first last : UInt32} (h : last < first) : uidsBetween first last = [] := by
  have hlt := UInt32.lt_iff_toNat_lt.mp h
  have hcount : last.toNat + 1 - first.toNat = 0 := by omega
  rw [uidsBetween,hcount]
  rfl

section Loop
variable {one : FaillogFile → UInt32 → FaillogFile} {last uid : UInt32} {file : FaillogFile} {fuel : Nat}

/-- Up to an id that has a next one, the loop goes over the ids between. -/
theorem eachUid_eq (hlast : last.toNat < 2^32 - 1) (hfuel : last.toNat + 1 - uid.toNat < fuel) :
    eachUid one last fuel uid file = some ((uidsBetween uid last).foldl one file) := by
  induction fuel generalizing uid file with
  | zero => omega
  | succ fuel ih =>
    by_cases hle : uid ≤ last
    · have hle' := UInt32.le_iff_toNat_le.mp hle
      have hsucc : (uid + 1).toNat = uid.toNat + 1 := by
        rw [UInt32.toNat_add]
        have hone : (1 : UInt32).toNat = 1 := rfl
        omega
      rw [eachUid,if_pos hle,ih (by omega),uidsBetween_cons hle hlast]
      rfl
    · rw [eachUid,if_neg hle,uidsBetween_nil (UInt32.not_le.mp hle)]
      rfl

/-- Up to the greatest id it does not end. -/
theorem eachUid_endless (hlast : last.toNat = 2^32 - 1) : eachUid one last fuel uid file = none := by
  induction fuel generalizing uid file with
  | zero => rfl
  | succ fuel ih =>
    have hle : uid ≤ last := by
      rw [UInt32.le_iff_toNat_le]
      have hlt := uid.toNat_lt
      omega
    rw [eachUid,if_pos hle]
    exact ih

/-- Where a round changes the record of its id only, and a second one would change nothing, a loop
changes the records of its ids. -/
theorem record_foldl {change : UInt32 → Faillog → Faillog}
    (hone : ∀ file uid uid', (one file uid).record uid' = if uid' = uid then change uid (file.record uid) else file.record uid')
    (htwice : ∀ uid fl, change uid (change uid fl) = change uid fl) (uids : List UInt32) (file : FaillogFile) (uid : UInt32) :
    (uids.foldl one file).record uid = if uid ∈ uids then change uid (file.record uid) else file.record uid := by
  induction uids generalizing file with
  | nil => rfl
  | cons first uids ih =>
    rw [List.foldl_cons,ih,hone]
    by_cases hfirst : uid = first
    · subst hfirst
      simp [htwice]
    · simp [hfirst]

end Loop

section Pass
variable {β : Type} [DecidableEq β] {field : Faillog → β} {set : Faillog → β → Faillog} {value : β} {records : Nat}

/-- What a round makes of the record of an id: behind the end of the file that was, the old one is not seen. -/
def updated (records : Nat) (field : Faillog → β) (set : Faillog → β → Faillog) (value : β) (uid : UInt32) (fl : Faillog) : Faillog :=
  if uid.toNat < records then set fl value else if field .zero = value then fl else set .zero value

/-- A field that is read and set. -/
structure IsField (field : Faillog → β) (set : Faillog → β → Faillog) : Prop where
  get_set : ∀ fl value, field (set fl value) = value
  set_get : ∀ fl, set fl (field fl) = fl
  set_set : ∀ fl value, set (set fl value) value = set fl value

theorem record_updateOne (h : IsField field set) (file : FaillogFile) (uid uid' : UInt32) :
    (updateOne records field set value file uid).record uid' =
      if uid' = uid then updated records field set value uid (file.record uid) else file.record uid' := by
  unfold updateOne updated lookupFaillog
  by_cases hin : uid.toNat < records
  · rw [if_pos hin,if_pos hin]
    by_cases hsame : field (file.record uid) = value
    · rw [if_pos hsame,← hsame,h.set_get]
      split
      · rename_i heq
        rw [heq]
      · rfl
    · rw [if_neg hsame]
      split
      · rename_i heq
        rw [heq,FaillogFile.record_write_self]
      · rename_i hne
        exact FaillogFile.record_write_of_ne hne
  · rw [if_neg hin,if_neg hin]
    by_cases hsame : field .zero = value
    · rw [if_pos hsame,if_pos hsame]
      split
      · rename_i heq
        rw [heq]
      · rfl
    · rw [if_neg hsame,if_neg hsame]
      split
      · rename_i heq
        rw [heq,FaillogFile.record_write_self]
      · rename_i hne
        exact FaillogFile.record_write_of_ne hne

theorem updated_twice (h : IsField field set) (uid : UInt32) (fl : Faillog) :
    updated records field set value uid (updated records field set value uid fl) = updated records field set value uid fl := by
  unfold updated
  by_cases hin : uid.toNat < records
  · simp only [hin,if_true,h.set_set]
  · simp only [hin,if_false]
    split
    · rfl
    · rfl

end Pass

theorem isField_failCnt : IsField Faillog.failCnt (fun fl cnt => { fl with failCnt := cnt }) :=
  ⟨fun _ _ => rfl,fun _ => rfl,fun _ _ => rfl⟩

theorem isField_failMax : IsField Faillog.failMax (fun fl max => { fl with failMax := max }) :=
  ⟨fun _ _ => rfl,fun _ => rfl,fun _ _ => rfl⟩

theorem isField_failLocktime : IsField Faillog.failLocktime (fun fl locktime => { fl with failLocktime := locktime }) :=
  ⟨fun _ _ => rfl,fun _ => rfl,fun _ _ => rfl⟩

section Selection
variable (records : Nat) (pws : List Passwd) (uflg aflg : Bool) (b : IdBounds)

/-- The ids of a pass that sets a field. -/
def setUids : List UInt32 :=
  if isOne uflg b then [UInt32.ofNat b.min]
  else if aflg then uidsBetween (firstUid b) (if b.hasMax then UInt32.ofNat b.max else lastUid records)
  else (pws.map Passwd.uid).filter fun uid => !(uflg && (isBelow b uid || isAbove b uid))

/-- The ids of the pass that resets the counts. -/
def resetUids : List UInt32 :=
  if isOne uflg b then [UInt32.ofNat b.min]
  else if aflg then uidsBetween (firstUid b) (lastReset records b)
  else (pws.map Passwd.uid).filter fun uid => !(uflg && (isBelow b uid || lastReset records b < uid))

/-- The loop over the ids goes up to the greatest one. -/
def Endless : Prop := isOne uflg b = false ∧ aflg = true ∧ b.hasMax = true ∧ (UInt32.ofNat b.max).toNat = 2^32 - 1

variable {records pws uflg aflg b} {file : FaillogFile}

theorem lastUid_lt (records : Nat) : (lastUid records).toNat < 2^32 - 1 := by
  unfold lastUid
  have hlt := (UInt32.ofNat records).toNat_lt
  have hone : (1 : UInt32).toNat = 1 := rfl
  split
  · rename_i h
    have h := UInt32.lt_iff_toNat_lt.mp h
    rw [UInt32.toNat_sub]
    omega
  · rename_i h
    have h := UInt32.le_iff_toNat_le.mp (UInt32.not_lt.mp h)
    omega

private theorem lastReset_lt (records : Nat) (b : IdBounds) : (lastReset records b).toNat < 2^32 - 1 := by
  have hlast := lastUid_lt records
  unfold lastReset
  split
  · rename_i h
    have hlt := UInt32.lt_iff_toNat_lt.mp (Bool.and_eq_true_iff.mp h |>.2 |> of_decide_eq_true)
    omega
  · exact hlast

theorem foldl_filter {one : FaillogFile → UInt32 → FaillogFile} (skip : UInt32 → Bool) (pws : List Passwd) (file : FaillogFile) :
    pws.foldl (fun file pwent => if skip pwent.uid then file else one file pwent.uid) file =
      ((pws.map Passwd.uid).filter fun uid => !skip uid).foldl one file := by
  induction pws generalizing file with
  | nil => rfl
  | cons pwent pws ih =>
    rw [List.foldl_cons,ih,List.map_cons,List.filter_cons]
    cases skip pwent.uid with
    | false => rfl
    | true => rfl

/-- Such a pass goes over its ids, unless it does not end. -/
theorem setEach_eq (one : FaillogFile → UInt32 → FaillogFile) (h : ¬ Endless uflg aflg b) {fuel : Nat} (hfuel : 2^32 ≤ fuel) :
    setEach records pws uflg aflg b one fuel file = some ((setUids records pws uflg aflg b).foldl one file) := by
  unfold setEach setUids
  cases hone : isOne uflg b with
  | true => rfl
  | false =>
    cases aflg with
    | true =>
      have hlast : (if b.hasMax then UInt32.ofNat b.max else lastUid records).toNat < 2^32 - 1 := by
        cases hmax : b.hasMax with
        | true =>
          have hlt := (UInt32.ofNat b.max).toNat_lt
          have hne : (UInt32.ofNat b.max).toNat ≠ 2^32 - 1 := fun heq => h ⟨hone,rfl,hmax,heq⟩
          simp only [if_true]
          omega
        | false => exact lastUid_lt _
      exact eachUid_eq hlast (by omega)
    | false => exact congrArg some (foldl_filter (fun uid => uflg && (isBelow b uid || isAbove b uid)) pws file)

theorem setEach_endless (one : FaillogFile → UInt32 → FaillogFile) (h : Endless uflg aflg b) (fuel : Nat) :
    setEach records pws uflg aflg b one fuel file = none := by
  obtain ⟨hone,haflg,hmax,hlast⟩ := h
  unfold setEach
  rw [hone,haflg,hmax]
  exact eachUid_endless hlast

theorem reset_eq {fuel : Nat} (hfuel : 2^32 ≤ fuel) :
    reset records pws uflg aflg b fuel file = some ((resetUids records pws uflg aflg b).foldl (resetOne records) file) := by
  unfold reset resetUids
  cases isOne uflg b with
  | true => rfl
  | false =>
    cases aflg with
    | true =>
      have hlast := lastReset_lt records b
      exact eachUid_eq hlast (by omega)
    | false => exact congrArg some (foldl_filter (fun uid => uflg && (isBelow b uid || lastReset records b < uid)) pws file)

end Selection

end UserDb.Login
