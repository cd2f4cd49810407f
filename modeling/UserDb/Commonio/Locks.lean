import UserDb.Commonio.Close

/-! The locks of one process: a lock file for each database, counted, and the library lock
over all of them. -/
namespace UserDb.Commonio
open UserDb.Base

/-- The part of the state that the databases of a process share: the lock files it holds, and
whether it holds the library lock. -/
structure LockState where
  lockCount : Nat
  lckpwdf : Bool
  deriving DecidableEq, Repr

section Calls
variable {α : Type}

def commonioLockNowait (db : Db α) (s : LockState) (memory doLockFile : Bool) : Bool × Db α × LockState :=
  if db.locked then (true,db,s)
  else if memory && doLockFile then (true,{ db with locked := true },{ s with lockCount := s.lockCount + 1 })
  else (false,db,s)

/-- The tries without the library lock; `tries` are the outcomes of the lock file. -/
def retryLock (root memory : Bool) (db : Db α) (s : LockState) : List Bool → Bool × Db α × LockState
  | [] => (false,db,s)
  | doLockFile :: tries =>
    let locked := commonioLockNowait db s memory doLockFile
    if locked.1 then locked
    else if !root then (false,locked.2)
    else retryLock root memory locked.2.1 locked.2.2 tries

def lockTries : Nat := 15

/-- `lckpwdf` tells whether the library lock can be taken, `doLockFile` what each try of the
lock file gives. -/
def commonioLock (setname root memory lckpwdf : Bool) (doLockFile : Nat → Bool) (db : Db α) (s : LockState) :
    Bool × Db α × LockState :=
  if setname then retryLock root memory db s ((List.range lockTries).map doLockFile)
  else if s.lockCount == 0 && !lckpwdf then (false,db,s)
  else
    let s := if s.lockCount = 0 then { s with lckpwdf := true } else s
    let locked := commonioLockNowait db s memory (doLockFile 0)
    if locked.1 then locked else (false,locked.2.1,{ locked.2.2 with lckpwdf := false })

def LockState.decLockCount (s : LockState) : LockState :=
  if 0 < s.lockCount then
    let s := { s with lockCount := s.lockCount - 1 }
    if s.lockCount = 0 then { s with lckpwdf := false } else s
  else s

/-- An open database is closed first, without writing it. -/
def commonioUnlock (selinux : Bool) (ops : CloseOps α) (steps : CloseSteps) (old : Option Bytes) (disk : Disk)
    (db : Db α) (s : LockState) : Bool × Db α × LockState :=
  let closed := if db.isopen then commonioClose selinux ops steps { db with readonly := true } old disk
    else (true,db,disk)
  let db := closed.2.1
  if !closed.1 then (false,db,if db.locked then s.decLockCount else s)
  else if db.locked then (true,{ db with locked := false },s.decLockCount)
  else (false,db,s)

end Calls

section System
variable {ι : Type} {α : ι → Type}

/-- The databases of a process. -/
structure Locks (α : ι → Type) where
  dbs : ∀ i, Db (α i)
  shared : LockState

/-- A call, with what the steps outside of the process give. -/
inductive LockCall (α : ι → Type) where
  | lock (i : ι) (root memory lckpwdf : Bool) (doLockFile : Nat → Bool)
  | unlock (i : ι) (selinux : Bool) (ops : CloseOps (α i)) (steps : CloseSteps) (old : Option Bytes) (disk : Disk)

def Locks.set [DecidableEq ι] (s : Locks α) (i : ι) (result : Bool × Db (α i) × LockState) : Locks α :=
  ⟨Function.update s.dbs i result.2.1,result.2.2⟩

/-- Calls on databases that were not renamed. -/
def Locks.call [DecidableEq ι] (s : Locks α) : LockCall α → Locks α
  | .lock i root memory lckpwdf doLockFile =>
    s.set i (commonioLock false root memory lckpwdf doLockFile (s.dbs i) s.shared)
  | .unlock i selinux ops steps old disk =>
    s.set i (commonioUnlock selinux ops steps old disk (s.dbs i) s.shared)

def Locks.locked [Fintype ι] (s : Locks α) : Finset ι := Finset.univ.filter fun i => (s.dbs i).locked = true

/-- The library lock is held exactly over the lock files, and these are counted. -/
structure Locks.Agree [Fintype ι] (s : Locks α) : Prop where
  held : s.shared.lckpwdf = true ↔ s.locked.Nonempty
  counted : s.shared.lockCount = s.locked.card

/-- The condition on a call: no lock file is refused while another database is locked. -/
def CallKeepsCover (s : Locks α) : LockCall α → Prop
  | .lock i _ memory _ doLockFile =>
    (s.dbs i).locked = true ∨ (memory && doLockFile 0) = true ∨ ∀ j, (s.dbs j).locked = false
  | .unlock _ _ _ _ _ _ => True

def RunKeepsCover [DecidableEq ι] : Locks α → List (LockCall α) → Prop
  | _, [] => True
  | s, c :: calls => CallKeepsCover s c ∧ RunKeepsCover (s.call c) calls

variable [Fintype ι] {s : Locks α} {i : ι}

theorem mem_locked : i ∈ s.locked ↔ (s.dbs i).locked = true := by
  simp [Locks.locked]

variable [DecidableEq ι]

private theorem locked_set (result : Bool × Db (α i) × LockState) :
    (s.set i result).locked = if result.2.1.locked then insert i s.locked else s.locked.erase i := by
  ext j
  rw [mem_locked]
  by_cases hj : j = i
  · subst hj
    cases h : result.2.1.locked <;> simp [Locks.set,h]
  · cases result.2.1.locked <;> simp [Locks.set,hj,mem_locked]

/-- Only the flag of the database and the shared state matter. -/
theorem agree_set (result : Bool × Db (α i) × LockState) :
    (s.set i result).Agree ↔
      (result.2.2.lckpwdf = true ↔ (if result.2.1.locked then insert i s.locked else s.locked.erase i).Nonempty) ∧
      result.2.2.lockCount = (if result.2.1.locked then insert i s.locked else s.locked.erase i).card := by
  rw [← locked_set]
  exact ⟨fun h => ⟨h.held,h.counted⟩,fun h => ⟨h.1,h.2⟩⟩

theorem commonioClose_readonly {β : Type} (selinux : Bool) (ops : CloseOps β) (steps : CloseSteps) (db : Db β)
    (old : Option Bytes) (disk : Disk) (hopen : db.isopen = true) (hro : db.readonly = true) :
    commonioClose selinux ops steps db old disk = (true,{ db with isopen := false }.freeLinkedList,disk) := by
  unfold commonioClose
  simp only [hopen,hro,Bool.not_true,Bool.or_true,Bool.false_eq_true,if_false,if_true]

theorem commonioUnlock_spec {β : Type} (selinux : Bool) (ops : CloseOps β) (steps : CloseSteps) (old : Option Bytes)
    (disk : Disk) (db : Db β) (t : LockState) :
    (commonioUnlock selinux ops steps old disk db t).2.1.locked = false ∧
      (commonioUnlock selinux ops steps old disk db t).2.2 = if db.locked then t.decLockCount else t := by
  unfold commonioUnlock
  cases hopen : db.isopen with
  | false =>
    cases hl : db.locked <;> simp [hl]
  | true =>
    have hclose := commonioClose_readonly selinux ops steps { db with readonly := true } old disk hopen rfl
    rw [hopen] at hclose
    rw [if_pos rfl,hclose]
    cases hl : db.locked <;> simp [Db.freeLinkedList]

theorem Locks.Agree.unlock (h : s.Agree) (selinux : Bool) (ops : CloseOps (α i)) (steps : CloseSteps)
    (old : Option Bytes) (disk : Disk) : (s.call (.unlock i selinux ops steps old disk)).Agree := by
  obtain ⟨hfree,hshared⟩ := commonioUnlock_spec selinux ops steps old disk (s.dbs i) s.shared
  refine (agree_set _).mpr ?_
  rw [hfree,hshared]
  simp only [Bool.false_eq_true,if_false]
  cases hl : (s.dbs i).locked with
  | false =>
    have hi : i ∉ s.locked := fun hm => by
      rw [mem_locked.mp hm] at hl
      cases hl
    rw [Finset.erase_eq_of_notMem hi]
    exact ⟨h.held,h.counted⟩
  | true =>
    have hi := mem_locked.mpr hl
    have hpos := Finset.card_pos.mpr ⟨i,hi⟩
    have hcard := Finset.card_erase_of_mem hi
    have hcount := h.counted
    simp only [if_true,LockState.decLockCount]
    rw [if_pos (by omega)]
    by_cases hone : s.shared.lockCount - 1 = 0
    · rw [if_pos hone]
      have hempty : s.locked.erase i = ∅ := Finset.card_eq_zero.mp (by omega)
      simp [hempty,hone]
    · rw [if_neg hone]
      have hne : (s.locked.erase i).Nonempty := Finset.card_pos.mp (by omega)
      exact ⟨iff_of_true (h.held.mpr ⟨i,hi⟩) hne,by simp only; omega⟩

section Taking
variable {β : Type} {db : Db β} {t : LockState}

theorem commonioLock_again (hl : db.locked = true) (hc : t.lockCount ≠ 0) (root memory lckpwdf : Bool)
    (doLockFile : Nat → Bool) : commonioLock false root memory lckpwdf doLockFile db t = (true,db,t) := by
  simp [commonioLock,commonioLockNowait,hc,hl]

/-- The first lock: the library lock is taken, and given back with it. -/
theorem commonioLock_first (hl : db.locked = false) (hc : t.lockCount = 0) (root memory lckpwdf : Bool)
    (doLockFile : Nat → Bool) : commonioLock false root memory lckpwdf doLockFile db t =
      if !lckpwdf then (false,db,t)
      else if memory && doLockFile 0 then (true,{ db with locked := true },⟨1,true⟩) else (false,db,⟨0,false⟩) := by
  cases lckpwdf <;> cases hfile : memory && doLockFile 0 <;> simp [commonioLock,commonioLockNowait,hc,hl,hfile]

/-- Another lock: where it is refused, the library lock is given back all the same. -/
theorem commonioLock_more (hl : db.locked = false) (hc : t.lockCount ≠ 0) (root memory lckpwdf : Bool)
    (doLockFile : Nat → Bool) : commonioLock false root memory lckpwdf doLockFile db t =
      if memory && doLockFile 0 then (true,{ db with locked := true },{ t with lockCount := t.lockCount + 1 })
      else (false,db,{ t with lckpwdf := false }) := by
  cases hfile : memory && doLockFile 0 <;> simp [commonioLock,commonioLockNowait,hc,hl,hfile]

end Taking

/-- Taking a lock keeps the agreement exactly under the condition. -/
theorem Locks.Agree.lock_iff (h : s.Agree) (root memory lckpwdf : Bool) (doLockFile : Nat → Bool) :
    (s.call (.lock i root memory lckpwdf doLockFile)).Agree ↔
      CallKeepsCover s (.lock i root memory lckpwdf doLockFile) := by
  have hnone : s.shared.lockCount = 0 ↔ ∀ j, (s.dbs j).locked = false := by
    rw [h.counted,Finset.card_eq_zero,Finset.eq_empty_iff_forall_notMem]
    simp [mem_locked]
  have hheld := h.held
  have hcounted := h.counted
  refine (agree_set _).trans ?_
  cases hl : (s.dbs i).locked with
  | true =>
    have hi := mem_locked.mpr hl
    have hpos : s.shared.lockCount ≠ 0 := by
      rw [h.counted]
      exact (Finset.card_pos.mpr ⟨i,hi⟩).ne'
    rw [commonioLock_again hl hpos]
    refine iff_of_true ?_ (.inl hl)
    rw [if_pos hl,Finset.insert_eq_of_mem hi]
    exact ⟨hheld,hcounted⟩
  | false =>
    have hi : i ∉ s.locked := fun hm => by
      rw [mem_locked.mp hm] at hl
      cases hl
    have herase : s.locked.erase i = s.locked := Finset.erase_eq_of_notMem hi
    have hinsert : (insert i s.locked).card = s.locked.card + 1 := Finset.card_insert_of_notMem hi
    by_cases hzero : s.shared.lockCount = 0
    · have hempty : s.locked = ∅ := Finset.card_eq_zero.mp (hcounted.symm.trans hzero)
      refine iff_of_true ?_ (.inr (.inr (hnone.mp hzero)))
      rw [commonioLock_first hl hzero]
      cases lckpwdf with
      | false => simpa [hl,herase] using And.intro hheld hcounted
      | true => cases hfile : memory && doLockFile 0 <;> simp [hl,hempty]
    · have hne : s.locked.Nonempty := Finset.card_pos.mp (by omega)
      rw [commonioLock_more hl hzero]
      cases hfile : memory && doLockFile 0 with
      | true =>
        refine iff_of_true ?_ (.inr (.inl hfile))
        simp [hinsert,hheld.mpr hne,hcounted]
      | false =>
        -- the library lock is given back although other lock files are held
        refine iff_of_false ?_ ?_
        · simp [hl,herase,hne]
        · rintro (hlocked | hok | hall)
          · rw [hl] at hlocked
            cases hlocked
          · rw [hfile] at hok
            cases hok
          · exact hzero (hnone.mpr hall)

/-- Every call keeps the agreement exactly under its condition. -/
theorem Locks.Agree.call_iff (h : s.Agree) (c : LockCall α) : (s.call c).Agree ↔ CallKeepsCover s c := by
  cases c with
  | lock i root memory lckpwdf doLockFile => exact h.lock_iff root memory lckpwdf doLockFile
  | unlock i selinux ops steps old disk => exact iff_of_true (h.unlock selinux ops steps old disk) trivial

/-- The library lock covers the lock files after every call of a run exactly if every call
meets its condition in the state it is made in. -/
theorem library_lock_covers_lock_files (h : s.Agree) (calls : List (LockCall α)) :
    (∀ n, ((calls.take n).foldl Locks.call s).Agree) ↔ RunKeepsCover s calls := by
  induction calls generalizing s with
  | nil => exact iff_of_true (fun n => by rwa [List.take_nil]) trivial
  | cons c calls ih =>
    constructor
    · intro hall
      have hc : (s.call c).Agree := hall 1
      exact ⟨(h.call_iff c).mp hc,(ih hc).mp fun n => hall (n+1)⟩
    · rintro ⟨hc,hcalls⟩ n
      have hc := (h.call_iff c).mpr hc
      cases n with
      | zero => exact h
      | succ n => exact (ih hc).mpr hcalls n

end System

def closedDb : Db Bytes := ⟨fun _ => ⟨none,none,none,none,false⟩,0,none,none,none,false,false,false,false⟩

/-- Two databases, nothing locked. -/
def unlockedPair : Locks (fun _ : Bool => Bytes) := ⟨fun _ => closedDb,⟨0,false⟩⟩

theorem unlockedPair_agree : unlockedPair.Agree := ⟨by decide,by decide⟩

/-- Both are locked, one after the other. -/
def pairCalls : List (LockCall fun _ : Bool => Bytes) :=
  [.lock true true true true fun _ => true,.lock false true true false fun _ => true]

theorem library_lock_covers_lock_files_pair : ((pairCalls.take 2).foldl Locks.call unlockedPair).Agree ∧
    ((pairCalls.take 2).foldl Locks.call unlockedPair).shared = ⟨2,true⟩ :=
  ⟨(library_lock_covers_lock_files unlockedPair_agree pairCalls).mpr ⟨.inr (.inl rfl),.inr (.inl rfl),trivial⟩ 2,rfl⟩

/-- The lock file of the second database is refused: the first stays locked without the library lock. -/
theorem refused_lock_uncovers_the_first :
    unlockedPair.Agree ∧
      let s := [.lock true true true true fun _ => true,.lock false true true true fun _ => false].foldl Locks.call
        unlockedPair
      (s.dbs true).locked = true ∧ s.shared = ⟨1,false⟩ ∧ ¬ s.Agree := by
  refine ⟨unlockedPair_agree,rfl,rfl,fun hagree => ?_⟩
  have hheld := hagree.held.mpr ⟨true,mem_locked.mpr rfl⟩
  cases hheld

end UserDb.Commonio
