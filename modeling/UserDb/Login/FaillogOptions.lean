import UserDb.Login.Faillog
import UserDb.Atoi.Strtoi
import UserDb.Commonio.Passwd

/-! Setting the fields of the records of failures: the selection of the users, and the passes over
the file, each with the size that the file had at first. -/
namespace UserDb.Login
open UserDb.Base UserDb.Atoi UserDb.Commonio

/-- The bounds of a range of ids, and which of them there are. -/
structure IdBounds where
  min : Nat
  hasMin : Bool
  max : Nat
  hasMax : Bool
  deriving DecidableEq, Repr

def parseMax (min : Nat) (hasMin : Bool) (text : Bytes) : Option IdBounds :=
  if !text.head?.any isDigit then none
  else (a2i text 10 min (2^64 - 1)).map fun max => ⟨min,hasMin,max,true⟩

/-- A range: a number, a lower bound, an upper bound, or both. -/
def getrange (range : Bytes) : Option IdBounds :=
  if range.head? = some 45 then parseMax 0 false range.tail
  else
    match strtouNoneg range 10 0 (2^64 - 1) with
    | (min,.success) => some ⟨min,true,min,true⟩
    | (min,.enotsup) =>
      match (scan range 10).map Scanned.rest with
      | some [45] => some ⟨min,true,0,false⟩
      | some (45 :: rest) => parseMax min true rest
      | _ => none
    | _ => none

/-- The options of a run that changes records. -/
structure FaillogOptions where
  aflg : Bool
  user : Option Bytes
  locktime : Option Int64
  max : Option Int16
  reset : Bool

/-- The bounds of a run: those of a user, of a range, or none. -/
def selectUsers (getpwnam : Bytes → Option Passwd) : Option Bytes → Option IdBounds
  | none => some ⟨0,false,0,false⟩
  | some user =>
    match getpwnam user with
    | some pwent => some ⟨pwent.uid.toNat,true,pwent.uid.toNat,true⟩
    | none => getrange user

section Program
variable (records : Nat) (pws : List Passwd) (uflg aflg : Bool) (b : IdBounds)

/-- The record of a user, by the size of the file at the start of the run. -/
def lookupFaillog (file : FaillogFile) (uid : UInt32) : Faillog :=
  if uid.toNat < records then file.record uid else .zero

/-- A record is written only where its field is to change. -/
def updateOne {β : Type} [DecidableEq β] (field : Faillog → β) (set : Faillog → β → Faillog) (value : β)
    (file : FaillogFile) (uid : UInt32) : FaillogFile :=
  if field (lookupFaillog records file uid) = value then file
  else file.write uid (set (lookupFaillog records file uid) value)

def resetOne : FaillogFile → UInt32 → FaillogFile := updateOne records Faillog.failCnt (fun fl cnt => { fl with failCnt := cnt }) 0

def setmaxOne (max : Int16) : FaillogFile → UInt32 → FaillogFile :=
  updateOne records Faillog.failMax (fun fl max => { fl with failMax := max }) max

def setLocktimeOne (locktime : Int64) : FaillogFile → UInt32 → FaillogFile :=
  updateOne records Faillog.failLocktime (fun fl locktime => { fl with failLocktime := locktime }) locktime

/-- The last id of a file of some size, in the type of an id. -/
def lastUid : UInt32 := if 1 < UInt32.ofNat records then UInt32.ofNat records - 1 else UInt32.ofNat records

/-- The loop over the ids up to a last one, which goes round at the greatest id. -/
def eachUid (one : FaillogFile → UInt32 → FaillogFile) (uidmax : UInt32) : Nat → UInt32 → FaillogFile → Option FaillogFile
  | 0, _, _ => none
  | fuel + 1, uid, file => if uid ≤ uidmax then eachUid one uidmax fuel (uid + 1) (one file uid) else some file

def isOne : Bool := uflg && b.hasMin && b.hasMax && b.min == b.max

def firstUid : UInt32 := if b.hasMin then UInt32.ofNat b.min else 0

def isBelow (uid : UInt32) : Bool := b.hasMin && uid < UInt32.ofNat b.min

def isAbove (uid : UInt32) : Bool := b.hasMax && UInt32.ofNat b.max < uid

/-- The pass over the selected users that sets a field of their records. -/
def setEach (one : FaillogFile → UInt32 → FaillogFile) (fuel : Nat) (file : FaillogFile) : Option FaillogFile :=
  if isOne uflg b then some (one file (UInt32.ofNat b.min))
  else if aflg then
    eachUid one (if b.hasMax then UInt32.ofNat b.max else lastUid records) fuel (firstUid b) file
  else
    some (pws.foldl (fun file pwent => if uflg && (isBelow b pwent.uid || isAbove b pwent.uid) then file else one file pwent.uid) file)

def setmax (max : Int16) : Nat → FaillogFile → Option FaillogFile := setEach records pws uflg aflg b (setmaxOne records max)

def setLocktime (locktime : Int64) : Nat → FaillogFile → Option FaillogFile :=
  setEach records pws uflg aflg b (setLocktimeOne records locktime)

/-- No count is reset outside of the file. -/
def lastReset : UInt32 := if b.hasMax && UInt32.ofNat b.max < lastUid records then UInt32.ofNat b.max else lastUid records

def reset (fuel : Nat) (file : FaillogFile) : Option FaillogFile :=
  if isOne uflg b then some (resetOne records file (UInt32.ofNat b.min))
  else if aflg then eachUid (resetOne records) (lastReset records b) fuel (firstUid b) file
  else
    some (pws.foldl (fun file pwent =>
      if uflg && (isBelow b pwent.uid || lastReset records b < pwent.uid) then file else resetOne records file pwent.uid) file)

end Program

/-- A pass that an option asks for. -/
def passIf {β : Type} (option : Option β) (pass : β → FaillogFile → Option FaillogFile) (file : FaillogFile) : Option FaillogFile :=
  match option with
  | some value => pass value file
  | none => some file

/-- The file after a run, if each loop ends within its steps. -/
def faillog (o : FaillogOptions) (b : IdBounds) (pws : List Passwd) (fuel : Nat) (file : FaillogFile) : Option FaillogFile := do
  let locked ← passIf o.locktime (fun locktime => setLocktime file.length pws o.user.isSome o.aflg b locktime fuel) file
  let limited ← passIf o.max (fun max => setmax file.length pws o.user.isSome o.aflg b max fuel) locked
  if o.reset then reset file.length pws o.user.isSome o.aflg b fuel limited else some limited

end UserDb.Login
