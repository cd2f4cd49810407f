import UserDb.Commonio.Invariant

/-! Closing a database: the entries go to a temporary file that then takes the place of the
old one, of which a backup was made before. -/
namespace UserDb.Commonio
open UserDb.Base UserDb.Base.LinkedList

variable {α : Type}

/-- How entries are written, and what is done before. A hook that fails gives no database. -/
structure CloseOps (α : Type) where
  put : α → Option Bytes
  closeHook : Db α → Option (Db α)

/-- The files that closing touches. -/
structure Disk where
  file : Option Bytes
  backup : Option Bytes
  deriving DecidableEq

/-- Which steps of a backup succeed. -/
structure BackupSteps where
  fstat : Bool
  mkstemp : Bool
  seek : Bool
  copy : Bool
  flush : Bool
  sync : Bool
  close : Bool
  rename : Bool

/-- Which steps of closing succeed; the security context matters where it is compiled in. -/
structure CloseSteps where
  fstat : Bool
  setBackupContext : Bool
  backup : BackupSteps
  closeOld : Bool
  resetBackupContext : Bool
  tempName : Bool
  setContext : Bool
  mkstemp : Bool
  write : Nat → Bool
  flush : Bool
  sync : Bool
  closeNew : Bool
  rename : Bool
  resetContext : Bool

/-- The old content goes under the name of the backup in one step, the last one. -/
def createBackup (steps : BackupSteps) (old : Bytes) (disk : Disk) : Bool × Disk :=
  if steps.fstat && steps.mkstemp && steps.seek && steps.copy && steps.flush && steps.sync && steps.close &&
      steps.rename then (true,{ disk with backup := some old })
  else (false,disk)

/-- What is written for an entry: a changed one through its value, another one as it was read. -/
def writeEntry (put : α → Option Bytes) (e : Entry α) : Option Bytes :=
  if e.changed then e.eptr.bind put
  else
    match e.line with
    | some line => some (line ++ [newline])
    | none => some []

def writeAll (ops : CloseOps α) (write : Nat → Bool) (db : Db α) : Option Bytes :=
  ((db.from db.head).mapM fun p => if write p then writeEntry ops.put (db.entries p) else none).map List.flatten

/-- The steps for the old file, where there is one: whether all went well, and the disk then. -/
def closeOldFile (selinux : Bool) (steps : CloseSteps) (old : Bytes) (disk : Disk) : Bool × Disk :=
  if !steps.fstat then (false,disk)
  else
    let (backedUp,disk) := createBackup steps.backup old disk
    ((!selinux || steps.setBackupContext) && backedUp && steps.closeOld && (!selinux || steps.resetBackupContext),disk)

def closeOld (selinux : Bool) (steps : CloseSteps) : Option Bytes → Disk → Bool × Disk
  | some old, disk => closeOldFile selinux steps old disk
  | none, disk => (true,disk)

/-- The steps for the new file. An error up to the renaming leaves the old one. -/
def writeNewFile (selinux : Bool) (ops : CloseOps α) (steps : CloseSteps) (db : Db α) (disk : Disk) : Bool × Disk :=
  if !steps.tempName || !steps.mkstemp then (false,disk)
  else
    match writeAll ops steps.write db with
    | none => (false,disk)
    | some bytes =>
      if (!selinux || steps.setContext) && steps.flush && steps.sync && steps.closeNew && steps.rename then
        (!selinux || steps.resetContext,{ disk with file := some bytes })
      else (false,disk)

/-- `old` is the stream of the file that was opened, if it was there. -/
def commonioClose (selinux : Bool) (ops : CloseOps α) (steps : CloseSteps) (db : Db α) (old : Option Bytes)
    (disk : Disk) : Bool × Db α × Disk :=
  if !db.isopen then (false,db,disk)
  else
    let db := { db with isopen := false }
    if !db.changed || db.readonly then (true,db.freeLinkedList,disk)
    else
      match ops.closeHook db with
      | none => (false,db.freeLinkedList,disk)
      | some db =>
        let (ok,disk) := closeOld selinux steps old disk
        if !ok then (false,db.freeLinkedList,disk)
        else
          let (ok,disk) := writeNewFile selinux ops steps db disk
          (ok,db.freeLinkedList,disk)

section Steps
variable {selinux : Bool} {ops : CloseOps α} {steps : CloseSteps} {db : Db α} {disk : Disk}

private theorem createBackup_file (steps : BackupSteps) (old : Bytes) (disk : Disk) :
    (createBackup steps old disk).2.file = disk.file := by
  unfold createBackup
  split <;> rfl

private theorem closeOldFile_file (old : Bytes) : (closeOldFile selinux steps old disk).2.file = disk.file := by
  unfold closeOldFile
  split
  · rfl
  · exact createBackup_file _ _ _

/-- Where the old file is closed without an error, the backup holds it. -/
theorem closeOldFile_backup {old : Bytes} (h : (closeOldFile selinux steps old disk).1 = true) :
    (closeOldFile selinux steps old disk).2.backup = some old := by
  unfold closeOldFile at h ⊢
  split at h
  · cases h
  · simp only [Bool.and_eq_true] at h
    have hbackup : (createBackup steps.backup old disk).1 = true := h.1.1.2
    unfold createBackup at hbackup ⊢
    split at hbackup
    · rename_i hf hall
      simp [hf,hall]
    · cases hbackup

private theorem closeOld_file (old : Option Bytes) : (closeOld selinux steps old disk).2.file = disk.file := by
  cases old with
  | none => rfl
  | some old => exact closeOldFile_file old

private theorem closeOld_backup {old : Option Bytes} (h : (closeOld selinux steps old disk).1 = true) :
    (closeOld selinux steps old disk).2.backup = old.or disk.backup := by
  cases old with
  | none => rfl
  | some old => exact closeOldFile_backup h

private theorem writeNewFile_backup (selinux : Bool) (ops : CloseOps α) (steps : CloseSteps) (db : Db α) (disk : Disk) :
    (writeNewFile selinux ops steps db disk).2.backup = disk.backup := by
  unfold writeNewFile
  split
  · rfl
  · split
    · rfl
    · split <;> rfl

/-- A new file is in place only as a whole: where all went well, or where no error was left
but that of the security context that is reset behind the renaming. -/
theorem writeNewFile_cases (selinux : Bool) (ops : CloseOps α) (steps : CloseSteps) (db : Db α) (disk : Disk) :
    ((writeNewFile selinux ops steps db disk).1 = false ∧ (writeNewFile selinux ops steps db disk).2.file = disk.file) ∨
    ∃ bytes, writeAll ops steps.write db = some bytes ∧
      (writeNewFile selinux ops steps db disk).1 = (!selinux || steps.resetContext) ∧
      (writeNewFile selinux ops steps db disk).2.file = some bytes := by
  unfold writeNewFile
  split
  · exact .inl ⟨rfl,rfl⟩
  · cases hwrite : writeAll ops steps.write db with
    | none => exact .inl ⟨rfl,rfl⟩
    | some bytes =>
      dsimp only
      split
      · exact .inr ⟨bytes,rfl,rfl,rfl⟩
      · exact .inl ⟨rfl,rfl⟩

/-- Closing either stops before the new file, which keeps the old one, or ends with its steps. -/
theorem commonioClose_cases (selinux : Bool) (ops : CloseOps α) (steps : CloseSteps) (db : Db α) (old : Option Bytes)
    (disk : Disk) (hopen : db.isopen = true) (hchanged : db.changed = true) (hwrite : db.readonly = false) :
    ((commonioClose selinux ops steps db old disk).1 = false ∧
      (commonioClose selinux ops steps db old disk).2.2.file = disk.file) ∨
    ∃ db₁ bytes, ops.closeHook { db with isopen := false } = some db₁ ∧ writeAll ops steps.write db₁ = some bytes ∧
      (commonioClose selinux ops steps db old disk).1 = (!selinux || steps.resetContext) ∧
      (commonioClose selinux ops steps db old disk).2.2 = ⟨some bytes,old.or disk.backup⟩ := by
  have hsame : { db with isopen := false, changed := true, readonly := false } = { db with isopen := false } := by
    rw [← hchanged,← hwrite]
  unfold commonioClose
  simp only [hopen,hchanged,hwrite,Bool.not_true,Bool.false_eq_true,Bool.or_self,if_false]
  rw [hsame]
  cases hhook : ops.closeHook { db with isopen := false } with
  | none => exact .inl ⟨rfl,rfl⟩
  | some db₁ =>
    cases hok : (closeOld selinux steps old disk).1 with
    | false =>
      simp only [Bool.not_false,if_true]
      exact .inl ⟨trivial,closeOld_file old⟩
    | true =>
      simp only [Bool.not_true,Bool.false_eq_true,if_false]
      have hbackup := writeNewFile_backup selinux ops steps db₁ (closeOld selinux steps old disk).2
      rw [closeOld_backup hok] at hbackup
      rcases writeNewFile_cases selinux ops steps db₁ (closeOld selinux steps old disk).2 with
        ⟨hf,hfile⟩ | ⟨bytes,hbytes,hresult,hfile⟩
      · exact .inl ⟨hf,hfile.trans (closeOld_file old)⟩
      · refine .inr ⟨db₁,bytes,rfl,hbytes,hresult,?_⟩
        rw [← hfile,← hbackup]

/-- In every case the list is freed. -/
theorem commonioClose_closed (selinux : Bool) (ops : CloseOps α) (steps : CloseSteps) (db : Db α)
    (old : Option Bytes) (disk : Disk) (hopen : db.isopen = true)
    (hhook : ∀ db₁ db₂, ops.closeHook db₁ = some db₂ → db₂.isopen = db₁.isopen) :
    (commonioClose selinux ops steps db old disk).2.1.isopen = false ∧
      (commonioClose selinux ops steps db old disk).2.1.head = none ∧
      (commonioClose selinux ops steps db old disk).2.1.tail = none := by
  unfold commonioClose
  simp only [hopen,Bool.not_true,Bool.false_eq_true,if_false]
  split
  · exact ⟨rfl,rfl,rfl⟩
  · split
    · exact ⟨rfl,rfl,rfl⟩
    · rename_i db₁ heq
      split <;> exact ⟨hhook _ _ heq,rfl,rfl⟩

end Steps

section Truth
variable {ops : CloseOps α} {db : Db α} {bytes : Bytes}

/-- What an entry is in the written file. -/
def Entry.Writes (put : α → Option Bytes) (e : Entry α) (part : Bytes) : Prop :=
  if e.changed then ∃ a, e.eptr = some a ∧ put a = some part else part = e.line.elim [] (· ++ [newline])

/-- The bytes are those of the entries, one after the other in the order of the list. -/
def Db.Writes (put : α → Option Bytes) (db : Db α) (bytes : Bytes) : Prop :=
  ∃ parts, List.Forall₂ (fun p part => (db.entries p).Writes put part) (db.from db.head) parts ∧ bytes = parts.flatten

private theorem writeEntry_writes {put : α → Option Bytes} {e : Entry α} (h : writeEntry put e = some bytes) :
    e.Writes put bytes := by
  unfold writeEntry at h
  unfold Entry.Writes
  cases hch : e.changed with
  | true =>
    rw [hch] at h
    exact Option.bind_eq_some_iff.mp h
  | false =>
    rw [hch] at h
    cases hline : e.line with
    | none =>
      rw [hline] at h
      exact (Option.some.inj h).symm
    | some line =>
      rw [hline] at h
      exact (Option.some.inj h).symm

private theorem writeAll_writes {write : Nat → Bool} (h : writeAll ops write db = some bytes) : db.Writes ops.put bytes := by
  obtain ⟨parts,hparts,rfl⟩ := Option.map_eq_some_iff.mp h
  refine ⟨parts,?_,rfl⟩
  clear h
  generalize db.from db.head = l at hparts
  induction l generalizing parts with
  | nil =>
    cases hparts
    exact .nil
  | cons p l ih =>
    simp only [List.mapM_cons,Option.bind_eq_bind,Option.bind_eq_some_iff] at hparts
    obtain ⟨part,hpart,rest,hrest,hparts⟩ := hparts
    cases hparts
    split at hpart
    · exact .cons (writeEntry_writes hpart) (ih rest hrest)
    · cases hpart

/-- The new content is in place and the old one under the name of the backup. -/
def Committed (ops : CloseOps α) (db : Db α) (old : Option Bytes) (before after : Disk) : Prop :=
  ∃ db₁ bytes, ops.closeHook { db with isopen := false } = some db₁ ∧ db₁.Writes ops.put bytes ∧
    after = ⟨some bytes,old.or before.backup⟩

/-- Closing a database that was opened for writing, where `old` is what the opened file held:
on failure the file is as before, or the context could not be reset once the new file was in
place; on success a changed database is on disk. In every case it is closed and empty. -/
def ClosesTruthfully (ops : CloseOps α) : Prop :=
  ∀ (selinux : Bool) (steps : CloseSteps) (db : Db α) (old : Option Bytes) (disk : Disk),
    db.isopen = true → db.readonly = false →
    let result := commonioClose selinux ops steps db old disk
    (result.1 = false → result.2.2.file = disk.file ∨
      (selinux = true ∧ steps.resetContext = false ∧ Committed ops db old disk result.2.2)) ∧
    (result.1 = true → db.changed = true → Committed ops db old disk result.2.2) ∧
    result.2.1.isopen = false ∧ result.2.1.head = none ∧ result.2.1.tail = none

theorem closesTruthfully_of_hook
    (hhook : ∀ db₁ db₂, ops.closeHook db₁ = some db₂ → db₂.isopen = db₁.isopen) : ClosesTruthfully ops := by
  intro selinux steps db old disk hopen hwrite
  refine ⟨fun hf => ?_,fun hok hch => ?_,commonioClose_closed selinux ops steps db old disk hopen hhook⟩
  · cases hch : db.changed with
    | false =>
      unfold commonioClose at hf
      simp only [hopen,hch,Bool.not_true,Bool.not_false,Bool.true_or,Bool.false_eq_true,if_false,if_true] at hf
      cases hf
    | true =>
      rcases commonioClose_cases selinux ops steps db old disk hopen hch hwrite with
        ⟨_,hfile⟩ | ⟨db₁,bytes,hdb,hbytes,hresult,hdisk⟩
      · exact .inl hfile
      · rw [hf] at hresult
        have hreset : selinux = true ∧ steps.resetContext = false := by simpa using hresult.symm
        exact .inr ⟨hreset.1,hreset.2,db₁,bytes,hdb,writeAll_writes hbytes,hdisk⟩
  · rcases commonioClose_cases selinux ops steps db old disk hopen hch hwrite with
      ⟨hf,_⟩ | ⟨db₁,bytes,hdb,hbytes,_,hdisk⟩
    · rw [hf] at hok
      cases hok
    · exact ⟨db₁,bytes,hdb,writeAll_writes hbytes,hdisk⟩

/-- How the databases without a close hook are closed. -/
def plainCloseOps (put : α → Option Bytes) : CloseOps α where
  put := put
  closeHook := some

def allBackupSteps : BackupSteps := ⟨true,true,true,true,true,true,true,true⟩

def allSteps : CloseSteps :=
  ⟨true,true,allBackupSteps,true,true,true,true,true,fun _ => true,true,true,true,true,true⟩

end Truth

section Replacement
variable {selinux : Bool} {steps : CloseSteps} {old : Option Bytes} {db : Db α} {bytes : Bytes}

/-- All steps of closing are done, up to the renaming of the new file. -/
structure Replaces (selinux : Bool) (steps : CloseSteps) (old : Option Bytes) : Prop where
  oldFile : ∀ bytes, old = some bytes → ∀ disk, (closeOldFile selinux steps bytes disk).1 = true
  names : steps.tempName = true ∧ steps.mkstemp = true
  context : selinux = true → steps.setContext = true
  written : ∀ p, steps.write p = true
  stored : steps.flush = true ∧ steps.sync = true ∧ steps.closeNew = true ∧ steps.rename = true

private theorem closeOld_replaces (hsteps : Replaces selinux steps old) (disk : Disk) : (closeOld selinux steps old disk).1 = true := by
  cases old with
  | none => rfl
  | some bytes => exact hsteps.oldFile bytes rfl disk

private theorem writeNewFile_replaces {ops : CloseOps α} (hsteps : Replaces selinux steps old)
    (h : writeAll ops steps.write db = some bytes) (disk : Disk) :
    writeNewFile selinux ops steps db disk = (!selinux || steps.resetContext,{ disk with file := some bytes }) := by
  have hcontext : (!selinux || steps.setContext) = true := by
    cases hselinux : selinux with
    | false => rfl
    | true => rw [hsteps.context hselinux]; rfl
  unfold writeNewFile
  rw [hsteps.names.1,hsteps.names.2,h,hcontext,hsteps.stored.1,hsteps.stored.2.1,hsteps.stored.2.2.1,hsteps.stored.2.2.2]
  rfl

/-- A changed database goes to the file where no step fails before the renaming. -/
theorem commonioClose_replaces {put : α → Option Bytes} (hopen : db.isopen = true) (hchanged : db.changed = true)
    (hwrite : db.readonly = false) (hsteps : Replaces selinux steps old)
    (hall : writeAll (plainCloseOps put) steps.write { db with isopen := false } = some bytes) (disk : Disk) :
    (commonioClose selinux (plainCloseOps put) steps db old disk).1 = (!selinux || steps.resetContext) ∧
      (commonioClose selinux (plainCloseOps put) steps db old disk).2.2.file = some bytes := by
  have hsame : { db with isopen := false, changed := true, readonly := false } = { db with isopen := false } := by
    rw [← hchanged,← hwrite]
  have hnew := writeNewFile_replaces hsteps hall (closeOld selinux steps old disk).2
  unfold commonioClose
  simp only [hopen,hchanged,hwrite,Bool.not_true,Bool.false_eq_true,Bool.or_self,if_false]
  rw [hsame]
  simp only [plainCloseOps,closeOld_replaces hsteps disk,Bool.not_true,Bool.false_eq_true,if_false]
  simp only [plainCloseOps] at hnew
  rw [hnew]
  exact ⟨rfl,rfl⟩

end Replacement

end UserDb.Commonio
