import UserDb.Commonio.Locks
import UserDb.Subid.Written

/-! Granting and releasing ranges through the library. A call locks, opens, changes, closes and unlocks
the database of its kind, in a process that keeps both databases from call to call. -/
namespace UserDb.Subid
open UserDb.Base UserDb.Commonio

/-- What a call finds outside of the process. `entryMemory` is asked for each new entry. -/
structure LibraryEnv where
  accounts : Accounts
  nss : Bool
  qsort : Qsort
  root : Bool
  lckpwdf : Bool
  lockMemory : Bool
  doLockFile : Nat → Bool
  opens : Bool
  readError : Bool
  openMemory : Bool
  sortMemory : Bool
  entryMemory : Nat → Bool
  selinux : Bool
  steps : CloseSteps

/-- The databases of a process, its locks, and the files. -/
structure SubidLibrary where
  db : IdKind → Db SubordinateRange
  locks : LockState
  disk : IdKind → Disk

/-- What opening finds of a file on a disk. -/
def LibraryEnv.fileState (e : LibraryEnv) (disk : Disk) : FileState :=
  if !e.opens then .unavailable
  else
    match disk.file with
    | none => .missing
    | some bytes => .contents bytes e.readError

namespace SubidLibrary
variable (e : LibraryEnv) (kind : IdKind)

def put (s : SubidLibrary) (db : Db SubordinateRange) : SubidLibrary := { s with db := Function.update s.db kind db }

def lock (s : SubidLibrary) : Bool × SubidLibrary :=
  let (ok,db,locks) := commonioLock false e.root e.lockMemory e.lckpwdf e.doLockFile (s.db kind) s.locks
  (ok,{ s.put kind db with locks := locks })

def opening (s : SubidLibrary) : Bool × SubidLibrary :=
  let (ok,db) := commonioOpen subordinateOps (s.db kind) .rdwr true (e.fileState (s.disk kind)) e.openMemory
  (ok,s.put kind db)

def close (s : SubidLibrary) : SubidLibrary :=
  let (_,db,disk) := commonioClose e.selinux (plainCloseOps subordinatePut) e.steps (s.db kind) (s.disk kind).file (s.disk kind)
  { s.put kind db with disk := Function.update s.disk kind disk }

def unlock (s : SubidLibrary) : SubidLibrary :=
  let (_,db,locks) := commonioUnlock e.selinux (plainCloseOps subordinatePut) e.steps (s.disk kind).file (s.disk kind) (s.db kind) s.locks
  { s.put kind db with locks := locks }

/-- The common start of the calls: a database that could not be opened is unlocked again. -/
def start (s : SubidLibrary) : Bool × SubidLibrary :=
  match s.lock e kind with
  | (false,s) => (false,s)
  | (true,s) =>
    match s.opening e kind with
    | (false,s) => (false,s.unlock e kind)
    | (true,s) => (true,s)

/-- Their common end, which ignores what closing and unlocking say. -/
def finish (s : SubidLibrary) (db : Db SubordinateRange) : SubidLibrary := ((s.put kind db).close e kind).unlock e kind

end SubidLibrary

section Program
variable (e : LibraryEnv)

/-- The first range of the same user with enough ids. -/
def findReusable (range : SubordinateRange) (db : Db SubordinateRange) : Option SubordinateRange × Db SubordinateRange :=
  searchEntry (fun r => isSameUser e.accounts r.owner range.owner && decide (range.count ≤ r.count)) db

/-- The call fills in the range, and leaves the database as it is where it found a range to reuse. -/
def newSubidRange (range : SubordinateRange) (kind : IdKind) (reuse : Bool) (s : SubidLibrary) :
    Option (Bool × SubordinateRange × SubidLibrary) :=
  if e.nss then some (false,range,s)
  else
    match s.start e kind with
    | (false,s) => some (false,range,s)
    | (true,s) =>
      match if reuse then findReusable e range (s.db kind) else (none,(commonioRewind (s.db kind)).2) with
      | (some r,db) => some (true,{ range with start := r.start, count := r.count },s.put kind db)
      | (none,db) =>
        let (start,db) := findFreeRange e.qsort db range.start.toUInt32 4294967295 range.count e.sortMemory
        if start = noId then some (false,range,s.finish e kind db)
        else
          let range := { range with start := start.toUInt64 }
          (addRange e.accounts kind.filename (e.entryMemory 0) db range.owner range.start range.count).map fun (ok,db) =>
            (ok,range,s.finish e kind db)

def releaseSubidRange (range : SubordinateRange) (kind : IdKind) (s : SubidLibrary) : Option (Bool × SubidLibrary) :=
  if e.nss then some (false,s)
  else
    match s.start e kind with
    | (false,s) => some (false,s)
    | (true,s) =>
      (removeRange e.accounts e.entryMemory (s.db kind) range.owner range.start range.count).map fun (ok,db) =>
        (ok,s.finish e kind db)

def subidGrantUidRange (range : SubordinateRange) (reuse : Bool) := newSubidRange e range .uid reuse
def subidGrantGidRange (range : SubordinateRange) (reuse : Bool) := newSubidRange e range .gid reuse
def subidUngrantUidRange (range : SubordinateRange) := releaseSubidRange e range .uid
def subidUngrantGidRange (range : SubordinateRange) := releaseSubidRange e range .gid

end Program

/-- The other of the two databases. -/
def IdKind.other : IdKind → IdKind
  | .uid => .gid
  | .gid => .uid

namespace SubidLibrary

/-- Whether a call left a database open and locked. -/
def busy (s : SubidLibrary) (kind : IdKind) : Bool := (s.db kind).locked

def held (s : SubidLibrary) : Nat := (if s.busy .uid then 1 else 0) + (if s.busy .gid then 1 else 0)

/-- Between the calls a database is open exactly while it is locked, the locks are counted, and the
library lock is free where nothing is locked. -/
structure Settled (s : SubidLibrary) : Prop where
  isopen : ∀ kind, (s.db kind).isopen = s.busy kind
  counted : s.locks.lockCount = s.held
  free : s.held = 0 → s.locks.lckpwdf = false

/-- What a call on one kind of ids leaves alone. -/
structure SparesOther (kind : IdKind) (s s' : SubidLibrary) : Prop where
  db : s'.db kind.other = s.db kind.other
  disk : s'.disk kind.other = s.disk kind.other

end SubidLibrary

section States
variable {e : LibraryEnv} {kind : IdKind} {s s' s₁ : SubidLibrary} {db db' : Db SubordinateRange} {l : List Nat}

open SubidLibrary

theorem IdKind.other_ne (kind : IdKind) : kind.other ≠ kind := by
  cases kind <;> decide

theorem put_db (s : SubidLibrary) (kind : IdKind) (db : Db SubordinateRange) : (s.put kind db).db kind = db := by
  unfold SubidLibrary.put
  exact Function.update_self ..

theorem put_other (s : SubidLibrary) (kind : IdKind) (db : Db SubordinateRange) : (s.put kind db).db kind.other = s.db kind.other := by
  unfold SubidLibrary.put
  exact Function.update_of_ne kind.other_ne ..

theorem held_eq (s : SubidLibrary) (kind : IdKind) :
    s.held = (if s.busy kind then 1 else 0) + (if s.busy kind.other then 1 else 0) := by
  cases kind with
  | uid => rfl
  | gid => exact Nat.add_comm ..

/-- A state is settled by what is known of one database and of the locks. -/
theorem SubidLibrary.Settled.of (h : s.Settled) (hapart : s'.db kind.other = s.db kind.other)
    (hisopen : (s'.db kind).isopen = s'.busy kind)
    (hcounted : s'.locks.lockCount = (if s'.busy kind then 1 else 0) + (if s.busy kind.other then 1 else 0))
    (hfree : s'.busy kind = false → s.busy kind.other = false → s'.locks.lckpwdf = false) : s'.Settled := by
  have hother : s'.busy kind.other = s.busy kind.other := congrArg Db.locked hapart
  have hheld := held_eq s' kind
  rw [hother] at hheld
  refine ⟨fun k => ?_,hcounted.trans hheld.symm,fun hzero => ?_⟩
  · by_cases hk : k = kind
    · rw [hk]
      exact hisopen
    · have hk : k = kind.other := by cases k <;> cases kind <;> first | rfl | exact absurd rfl hk
      rw [hk,hother,hapart]
      exact h.isopen kind.other
  · rw [hheld] at hzero
    apply hfree
    · cases hb : s'.busy kind with
      | false => rfl
      | true =>
        rw [hb] at hzero
        simp at hzero
    · cases hb : s.busy kind.other with
      | false => rfl
      | true =>
        rw [hb] at hzero
        simp at hzero

/-- A database that stays open and locked. -/
theorem SubidLibrary.Settled.put (h : s.Settled) (hmode : SameMode (s.db kind) db) : (s.put kind db).Settled := by
  have hbusy : (s.put kind db).busy kind = s.busy kind := by
    unfold SubidLibrary.busy
    rw [put_db,hmode.locked]
  refine Settled.of h (put_other s kind db) ?_ ?_ ?_
  · rw [hbusy,put_db,hmode.isopen]
    exact h.isopen kind
  · rw [hbusy,← held_eq]
    exact h.counted
  · intro hb ho
    apply h.free
    rw [held_eq s kind,← hbusy,hb,ho]
    rfl

theorem SubidLibrary.SparesOther.refl (kind : IdKind) (s : SubidLibrary) : SparesOther kind s s := ⟨rfl,rfl⟩

theorem SubidLibrary.SparesOther.trans (h : SparesOther kind s s₁) (h' : SparesOther kind s₁ s') : SparesOther kind s s' :=
  ⟨h'.db.trans h.db,h'.disk.trans h.disk⟩

/-- Giving the lock of a database back, which closes it too. -/
theorem unlock_settled (h : s.Settled) (hmode : (s₁.db kind).locked = true) (hspares : SparesOther kind s s₁)
    (hcount : s₁.locks.lockCount = 1 + if s.busy kind.other then 1 else 0) :
    (s₁.unlock e kind).Settled ∧ SparesOther kind s (s₁.unlock e kind) ∧ (s₁.unlock e kind).disk kind = s₁.disk kind ∧
      (s₁.unlock e kind).busy kind = false := by
  obtain ⟨hfree,hlocks⟩ := commonioUnlock_spec e.selinux (plainCloseOps subordinatePut) e.steps (s₁.disk kind).file (s₁.disk kind)
    (s₁.db kind) s₁.locks
  have hclosed := commonioUnlock_isopen e.selinux subordinatePut e.steps (s₁.disk kind).file (s₁.disk kind) (s₁.db kind) s₁.locks
  rw [hmode,if_pos rfl] at hlocks
  have hdb : (s₁.unlock e kind).db kind = (commonioUnlock e.selinux (plainCloseOps subordinatePut) e.steps (s₁.disk kind).file
      (s₁.disk kind) (s₁.db kind) s₁.locks).2.1 := put_db ..
  have hbusy : (s₁.unlock e kind).busy kind = false := by
    unfold SubidLibrary.busy
    rw [hdb]
    exact hfree
  have hother : (s₁.unlock e kind).db kind.other = s.db kind.other := (put_other ..).trans hspares.db
  have hshared : (s₁.unlock e kind).locks = s₁.locks.decLockCount := hlocks
  refine ⟨Settled.of h hother ?_ ?_ ?_,⟨hother,hspares.disk⟩,rfl,hbusy⟩
  · rw [hbusy,hdb]
    exact hclosed
  · rw [hshared,hbusy]
    unfold LockState.decLockCount
    rw [hcount,if_pos (by omega)]
    cases s.busy kind.other <;> rfl
  · intro _ ho
    rw [hshared]
    unfold LockState.decLockCount
    rw [hcount,ho,if_pos (by omega)]
    rfl

/-- The database of a call that came through its start: it shows the records of the file. -/
structure Opened (disk : Disk) (db : Db SubordinateRange) (l : List Nat) : Prop extends Editing db l where
  rep : Rep db l false
  unchanged : db.changed = false
  read : readFile subordinateOps disk.file = some (l.map db.record)

theorem Opened.of_open {disk : Disk} {create memory : Bool}
    (h : commonioOpen subordinateOps db .rdwr create (Commonio.fileState disk.file) memory = (true,db')) : ∃ l, Opened disk db' l := by
  obtain ⟨l,hkept,hread,hchanged⟩ := commonioOpen_kept (s := subidStorage) h
  have hlined : ∀ record ∈ l.map db'.record, Lined record := by
    intro record hrecord
    exact .inl (subidStorage.record_line hread record hrecord)
  exact ⟨l,⟨hkept.rep.chained,hkept.isopen,hkept.writable,hlined⟩,hkept.rep,hchanged,hread⟩

private theorem commonioOpen_opened {disk : Disk}
    (h : commonioOpen subordinateOps db .rdwr true (e.fileState disk) e.openMemory = (true,db')) :
    ∃ l, Opened disk db' l := by
  have hstate : e.fileState disk = Commonio.fileState disk.file := by
    unfold LibraryEnv.fileState at h ⊢
    unfold commonioOpen at h
    split at h
    · cases h
    · simp only at h
      split at h
      · cases h
      · cases hopens : e.opens with
        | false =>
          rw [hopens] at h
          cases h
        | true =>
          cases hfile : disk.file with
          | none => rfl
          | some bytes =>
            cases herror : e.readError with
            | false => rfl
            | true =>
              rw [hopens,hfile,herror] at h
              simp only [Bool.not_true,Bool.false_eq_true,if_false,Bool.or_true,if_true] at h
              split at h <;> cases h
  rw [hstate] at h
  exact Opened.of_open h

/-- A database that an earlier call left open: it cannot be opened again, and is put in order. -/
theorem start_busy (h : s.Settled) (hbusy : s.busy kind = true) :
    ∃ s', s.start e kind = (false,s') ∧ s'.Settled ∧ SparesOther kind s s' ∧ s'.disk kind = s.disk kind ∧ s'.busy kind = false := by
  have hcount : s.locks.lockCount = 1 + if s.busy kind.other then 1 else 0 := by
    rw [h.counted,held_eq s kind,hbusy]
    rfl
  have hlock : s.lock e kind = (true,{ s.put kind (s.db kind) with locks := s.locks }) := by
    unfold SubidLibrary.lock
    rw [commonioLock_again hbusy (by omega)]
  set s₁ : SubidLibrary := { s.put kind (s.db kind) with locks := s.locks } with hs₁
  have hopen : (s₁.db kind).isopen = true := by
    rw [hs₁,put_db]
    exact (h.isopen kind).trans hbusy
  have hrefused : commonioOpen subordinateOps (s₁.db kind) .rdwr true (e.fileState (s₁.disk kind)) e.openMemory =
      (false,s₁.db kind) := by
    unfold commonioOpen
    rw [hopen]
    rfl
  have hopening : s₁.opening e kind = (false,s₁.put kind (s₁.db kind)) := by
    unfold SubidLibrary.opening
    rw [hrefused]
  obtain ⟨hsettled,hspares,hdisk,hfree⟩ := @unlock_settled e kind s (s₁.put kind (s₁.db kind)) h
    (by rw [put_db,hs₁,put_db]; exact hbusy) ⟨(put_other ..).trans (put_other ..),rfl⟩ hcount
  refine ⟨(s₁.put kind (s₁.db kind)).unlock e kind,?_,hsettled,hspares,hdisk,hfree⟩
  unfold SubidLibrary.start
  simp only [hlock,hopening]

theorem start_idle (h : s.Settled) (hidle : s.busy kind = false) :
    ∃ ok s', s.start e kind = (ok,s') ∧ s'.Settled ∧ SparesOther kind s s' ∧ s'.disk kind = s.disk kind ∧ s'.busy kind = ok ∧
      (ok = true → ∃ l, Opened (s.disk kind) (s'.db kind) l) := by
  have hclosed : (s.db kind).isopen = false := (h.isopen kind).trans hidle
  have hcount : s.locks.lockCount = if s.busy kind.other then 1 else 0 := by
    rw [h.counted,held_eq s kind,hidle]
    exact Nat.zero_add _
  rcases hlock : commonioLock false e.root e.lockMemory e.lckpwdf e.doLockFile (s.db kind) s.locks with ⟨locked,db,locks⟩
  have hrun : s.lock e kind = (locked,{ s.put kind db with locks := locks }) := by
    unfold SubidLibrary.lock
    rw [hlock]
  rcases commonioLock_cases hidle hlock with ⟨rfl,rfl,hsame,hlckpwdf⟩ | ⟨rfl,rfl,hmore⟩
  · set s₁ : SubidLibrary := { s.put kind (s.db kind) with locks := locks } with hs₁
    have hdb : s₁.db kind = s.db kind := put_db ..
    have hbusy : s₁.busy kind = false := by
      unfold SubidLibrary.busy
      rw [hdb]
      exact hidle
    refine ⟨false,s₁,?_,?_,⟨put_other ..,rfl⟩,rfl,hbusy,fun hok => by cases hok⟩
    · unfold SubidLibrary.start
      simp only [hrun]
    · refine Settled.of h (put_other ..) ?_ ?_ ?_
      · rw [hbusy,hdb,hclosed]
      · rw [hbusy]
        exact hsame.trans (hcount.trans (Nat.zero_add _).symm)
      · intro _ ho
        show locks.lckpwdf = false
        cases hl : locks.lckpwdf with
        | false => rfl
        | true =>
          have hnone : s.held = 0 := by
            rw [held_eq s kind,hidle,ho]
            rfl
          exact absurd (hlckpwdf hl) (by rw [h.free hnone]; decide)
  · set s₁ : SubidLibrary := { s.put kind { s.db kind with locked := true } with locks := locks } with hs₁
    have hdb : s₁.db kind = { s.db kind with locked := true } := put_db ..
    rcases hopen : commonioOpen subordinateOps (s₁.db kind) .rdwr true (e.fileState (s₁.disk kind)) e.openMemory with ⟨opened,db⟩
    have hlocked : db.locked = true := by
      have hkept := @commonioOpen_locked _ subordinateOps rfl (s₁.db kind) .rdwr true (e.fileState (s₁.disk kind)) e.openMemory
      rw [hopen] at hkept
      rw [hkept,hdb]
    have hopening : s₁.opening e kind = (opened,s₁.put kind db) := by
      unfold SubidLibrary.opening
      rw [hopen]
    have hspares : SparesOther kind s (s₁.put kind db) := ⟨(put_other ..).trans (put_other ..),rfl⟩
    have hnow : (s₁.put kind db).locks.lockCount = 1 + if s.busy kind.other then 1 else 0 := by
      show locks.lockCount = _
      rw [hmore,hcount,Nat.add_comm]
    cases opened with
    | false =>
      obtain ⟨hsettled,hspares',hdisk,hfree⟩ := @unlock_settled e kind s (s₁.put kind db) h
        (by rw [put_db]; exact hlocked) hspares hnow
      refine ⟨false,_,?_,hsettled,hspares',hdisk,hfree,fun hok => by cases hok⟩
      unfold SubidLibrary.start
      simp only [hrun,hopening]
    | true =>
      obtain ⟨l,hopened⟩ := commonioOpen_opened hopen
      have hbusy : (s₁.put kind db).busy kind = true := by
        unfold SubidLibrary.busy
        rw [put_db]
        exact hlocked
      refine ⟨true,s₁.put kind db,?_,?_,hspares,rfl,hbusy,fun _ => ⟨l,?_⟩⟩
      · unfold SubidLibrary.start
        simp only [hrun,hopening]
      · refine Settled.of h hspares.db ?_ ?_ ?_
        · rw [hbusy,put_db]
          exact hopened.isopen
        · rw [hbusy]
          exact hnow
        · rw [hbusy]
          intros
          contradiction
      · rw [put_db]
        exact hopened

/-- The end of a call: the database is closed and free, and its file is what closing made of it. -/
theorem finish_settled (h : s.Settled) (hbusy : s.busy kind = true) (hmode : SameMode (s.db kind) db) :
    (s.finish e kind db).Settled ∧ SparesOther kind s (s.finish e kind db) ∧ (s.finish e kind db).busy kind = false ∧
      (s.finish e kind db).disk kind = (commonioClose e.selinux (plainCloseOps subordinatePut) e.steps db
        (s.disk kind).file (s.disk kind)).2.2 := by
  have hput : (s.put kind db).db kind = db := put_db ..
  obtain ⟨hclosed,hlocked⟩ := commonioClose_mode e.selinux subordinatePut e.steps db (s.disk kind).file (s.disk kind)
  set s₁ := (s.put kind db).close e kind with hs₁
  have hdb : s₁.db kind = (commonioClose e.selinux (plainCloseOps subordinatePut) e.steps db (s.disk kind).file (s.disk kind)).2.1 := by
    rw [hs₁]
    unfold SubidLibrary.close
    simp only [hput]
    exact put_db ..
  have hdisk : s₁.disk kind =
      (commonioClose e.selinux (plainCloseOps subordinatePut) e.steps db (s.disk kind).file (s.disk kind)).2.2 := by
    rw [hs₁]
    unfold SubidLibrary.close
    simp only [hput]
    exact Function.update_self ..
  have hspares : SparesOther kind s s₁ := by
    constructor
    · exact (put_other ..).trans (put_other ..)
    · exact Function.update_of_ne kind.other_ne ..
  have hcount : s₁.locks.lockCount = 1 + if s.busy kind.other then 1 else 0 := by
    have hcounted := h.counted
    rw [held_eq s kind,hbusy] at hcounted
    exact hcounted
  have hmodeLocked : (s₁.db kind).locked = true := by
    rw [hdb,hlocked,hmode.locked]
    exact hbusy
  obtain ⟨hsettled,hspares',hdisk',hfree⟩ := @unlock_settled e kind s s₁ h hmodeLocked hspares hcount
  exact ⟨hsettled,hspares',hfree,hdisk'.trans hdisk⟩

end States

end UserDb.Subid
