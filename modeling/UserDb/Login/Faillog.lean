import UserDb.Base.Bytes

/-! The file of login failures: one record for each user id, which is absent, or zero, where
nothing was written yet. -/
namespace UserDb.Login
open UserDb.Base

/-- A record, with the C types of its fields. -/
structure Faillog where
  failCnt : Int16
  failMax : Int16
  failLine : Vector UInt8 12
  failTime : Int64
  failLocktime : Int64
  deriving DecidableEq, Repr

/-- The record of zero bytes. -/
def Faillog.zero : Faillog := ⟨0,0,.replicate 12 0,0,0⟩

/-- The records of a file, indexed by user id. -/
abbrev FaillogFile := List Faillog

namespace FaillogFile

/-- What is read at the place of a user id, if the file is that long. -/
def read (file : FaillogFile) (uid : UInt32) : Option Faillog := file[uid.toNat]?

/-- A record is written in its place, behind zero bytes where the file ended before it. -/
def write (file : FaillogFile) (uid : UInt32) (fl : Faillog) : FaillogFile :=
  (file ++ List.replicate (uid.toNat + 1 - file.length) Faillog.zero).set uid.toNat fl

/-- The record of a user id: an absent one counts as zero. -/
def record (file : FaillogFile) (uid : UInt32) : Faillog := (file.read uid).getD .zero

variable {file : FaillogFile} {uid uid' : UInt32} {fl : Faillog}

private theorem read_eq_none : file.read uid = none ↔ file.length ≤ uid.toNat := List.getElem?_eq_none_iff

theorem record_of_length_le (h : file.length ≤ uid.toNat) : file.record uid = .zero := by
  rw [record,read_eq_none.mpr h]
  rfl

@[simp] theorem read_write_self : (file.write uid fl).read uid = some fl := by
  apply List.getElem?_set_self
  simp only [List.length_append,List.length_replicate]
  omega

@[simp] theorem record_write_self : (file.write uid fl).record uid = fl := by
  rw [record,read_write_self]
  rfl

theorem record_write_of_ne (h : uid' ≠ uid) : (file.write uid fl).record uid' = file.record uid' := by
  have hne : uid.toNat ≠ uid'.toNat := fun heq => h (UInt32.toNat_inj.mp heq).symm
  rw [record,record,read,read,write,List.getElem?_set_ne hne,List.getElem?_append]
  split
  · rfl
  · rename_i hlong
    rw [List.getElem?_eq_none (Nat.not_lt.mp hlong),List.getElem?_replicate]
    split
    · rfl
    · rfl

end FaillogFile

end UserDb.Login
