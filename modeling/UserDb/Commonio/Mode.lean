import UserDb.Commonio.Chain
import UserDb.Commonio.Locks

/-! The flags of a database that only opening, closing and locking set: the loops, the sort and the
edits leave them alone, whatever the list looks like. -/
namespace UserDb.Commonio
open UserDb.Base

variable {α σ β : Type} {db db' db₁ db₂ : Db α}

/-- Open, for reading only, and locked, as before. -/
structure SameMode (db db' : Db α) : Prop where
  isopen : db'.isopen = db.isopen
  readonly : db'.readonly = db.readonly
  locked : db'.locked = db.locked

theorem SameMode.refl (db : Db α) : SameMode db db := ⟨rfl,rfl,rfl⟩

theorem SameMode.trans (h : SameMode db db₁) (h' : SameMode db₁ db₂) : SameMode db db₂ :=
  ⟨h'.isopen.trans h.isopen,h'.readonly.trans h.readonly,h'.locked.trans h.locked⟩

theorem commonioRewind_mode (db : Db α) : SameMode db (commonioRewind db).2 := by
  unfold commonioRewind
  split <;> exact ⟨rfl,rfl,rfl⟩

theorem commonioNext_mode (db : Db α) : SameMode db (commonioNext db).2 := by
  unfold commonioNext
  split <;> exact ⟨rfl,rfl,rfl⟩

private theorem eachEntry_mode (body : σ → α → Except β σ) (fuel : Nat) (s : σ) (db : Db α) :
    SameMode db (eachEntry body fuel s db).2 := by
  induction fuel generalizing s db with
  | zero => exact .refl db
  | succ fuel ih =>
    have hnext := commonioNext_mode db
    unfold eachEntry
    rcases hrun : commonioNext db with ⟨_ | a,db₁⟩
    · rw [hrun] at hnext
      exact hnext
    · rw [hrun] at hnext
      cases hbody : body s a with
      | ok s' =>
        simp only [hbody]
        exact hnext.trans (ih s' db₁)
      | error b =>
        simp only [hbody]
        exact hnext

theorem forEachEntry_mode (body : σ → α → Except β σ) (s : σ) (db : Db α) : SameMode db (forEachEntry body s db).2 :=
  (commonioRewind_mode db).trans (eachEntry_mode body _ s _)

theorem searchEntry_mode (test : α → Bool) (db : Db α) : SameMode db (searchEntry test db).2 := by
  have hmode := forEachEntry_mode (searchBody test) () db
  unfold searchEntry
  rcases hrun : forEachEntry (searchBody test) () db with ⟨_ | _,db'⟩
  · rw [hrun] at hmode
    exact hmode
  · rw [hrun] at hmode
    exact hmode

/-- Nothing is found in a database that is closed. -/
theorem searchEntry_closed (test : α → Bool) (h : db.isopen = false) : searchEntry test db = (none,db) := by
  have hrewind : (commonioRewind db).2 = db := by simp [commonioRewind,h]
  have hnext : commonioNext db = (none,db) := by simp [commonioNext,h]
  rw [searchEntry,forEachEntry,hrewind,eachEntry,hnext]

theorem commonioSort_mode (qsort : Qsort) (cmp : Entry α → Entry α → Int) (db : Db α) (memory : Bool) :
    SameMode db (commonioSort qsort cmp db memory).2 := by
  unfold commonioSort
  simp only
  split
  · exact .refl db
  · rename_i hlength
    cases memory with
    | false => exact .refl db
    | true =>
      rw [if_neg (by simp)]
      set sorted := qsort.run (fun p q => cmp (db.entries p) (db.entries q)) ((db.from db.head).takeWhile db.isSortable) with hsorted
      have hlen : 1 < sorted.length := by
        have hperm := qsort.perm (fun p q => cmp (db.entries p) (db.entries q)) ((db.from db.head).takeWhile db.isSortable)
        rw [hsorted,hperm.length_eq]
        omega
      have hshell := foldl_assignLinks_shell sorted (((db.from db.head).dropWhile db.isSortable).head?)
        { db with
          head := sorted.head?
          tail := if ((db.from db.head).dropWhile db.isSortable).head? = none then sorted.getLast? else db.tail }
        (0 :: (sorted.length - 1) :: List.range' 1 (sorted.length - 2))
      rw [relink_eq db _ hlen]
      exact ⟨hshell.isopen,hshell.readonly,hshell.locked⟩

theorem addOneEntry_mode (db : Db α) (p : Nat) : SameMode db (db.addOneEntry p) := by
  rw [addOneEntry_eq]
  have hshell := setNextAt_shell ((db.setNext p none).setPrev p db.tail) db.tail (some p)
  exact ⟨hshell.isopen,hshell.readonly,hshell.locked⟩

private theorem addLine_mode (ops : Ops α) (db : Db α) (line : Bytes) : SameMode db (db.addLine ops line) :=
  have hallocate : SameMode db (db.allocate (lineEntry ops line)) := ⟨rfl,rfl,rfl⟩
  hallocate.trans (addOneEntry_mode _ _)

private theorem addLines_mode (ops : Ops α) (db : Db α) (lines : List Bytes) : SameMode db (lines.foldl (Db.addLine ops) db) := by
  induction lines generalizing db with
  | nil => exact .refl db
  | cons line lines ih => exact (addLine_mode ops db line).trans (ih _)

theorem commonioAppend_mode (db : Db α) (eptr : α) (memory : Bool) : SameMode db (commonioAppend db eptr memory).2 := by
  unfold commonioAppend
  split
  · exact .refl db
  · have hadd := addOneEntry_mode (db.allocate ⟨none,some eptr,none,none,true⟩) db.fresh
    exact ⟨hadd.isopen,hadd.readonly,hadd.locked⟩

theorem commonioDelEntry_mode (db : Db α) (p : Nat) : SameMode db (commonioDelEntry db p) := by
  have hnext := setNextAt_shell db (db.prevOf p) (db.nextOf p)
  have hprev := setPrevAt_shell (db.setNextAt (db.prevOf p) (db.nextOf p)) (db.nextOf p) (db.prevOf p)
  rw [commonioDelEntry_eq]
  exact ⟨hprev.isopen.trans hnext.isopen,hprev.readonly.trans hnext.readonly,hprev.locked.trans hnext.locked⟩

theorem addOneEntryNis_frame (ops : Ops α) (db : Db α) (p : Nat) :
    (db.addOneEntryNis ops p).cursor = db.cursor ∧ SameMode db (db.addOneEntryNis ops p) := by
  unfold Db.addOneEntryNis
  split
  · rename_i q _
    generalize db.prevOf q = before
    cases before <;> exact ⟨rfl,rfl,rfl,rfl⟩
  · rw [addOneEntry_eq]
    have hshell := setNextAt_shell ((db.setNext p none).setPrev p db.tail) db.tail (some p)
    exact ⟨hshell.cursor,hshell.isopen,hshell.readonly,hshell.locked⟩

theorem commonioUpdate_mode (ops : Ops α) (db : Db α) (eptr : α) (memory : Bool) : SameMode db (commonioUpdate ops db eptr memory).2 := by
  unfold commonioUpdate
  split
  · exact .refl db
  · split
    · split
      · exact .refl db
      · exact ⟨rfl,rfl,rfl⟩
    · split
      · exact .refl db
      · have hframe := (addOneEntryNis_frame ops (db.allocate ⟨none,some eptr,none,none,true⟩) db.fresh).2
        exact ⟨hframe.isopen,hframe.readonly,hframe.locked⟩

theorem commonioRemove_mode (ops : Ops α) (db : Db α) (name : Bytes) : SameMode db (commonioRemove ops db name).2 := by
  unfold commonioRemove
  split
  · exact .refl db
  · split
    · exact .refl db
    · split
      · exact .refl db
      · exact commonioDelEntry_mode db _

theorem commonioLocate_mode (ops : Ops α) (db : Db α) (name : Bytes) : SameMode db (commonioLocate ops db name).2 := by
  unfold commonioLocate
  split
  · exact .refl db
  · split <;> exact ⟨rfl,rfl,rfl⟩

/-- Opening does not touch the lock. -/
theorem commonioOpen_locked {ops : Ops α} (hook : ops.openHook = none) (db : Db α) (access : AccessMode) (create : Bool)
    (file : FileState) (memory : Bool) : (commonioOpen ops db access create file memory).2.locked = db.locked := by
  unfold commonioOpen
  split
  · rfl
  · simp only
    split
    · rfl
    · cases file with
      | missing => cases create <;> rfl
      | unavailable => rfl
      | contents bytes readError =>
        simp only
        split
        · rfl
        · split
          · rfl
          · simp only [Db.runOpenHook,hook]
            exact (addLines_mode ops _ _).locked

/-- What could not be opened stays closed. -/
theorem commonioOpen_isopen {ops : Ops α} {access : AccessMode} {create memory : Bool} {file : FileState} (hclosed : db.isopen = false)
    (h : commonioOpen ops db access create file memory = (false,db')) : db'.isopen = false := by
  unfold commonioOpen at h
  split at h
  · cases h
    exact hclosed
  · simp only at h
    split at h
    · cases h
      exact hclosed
    · cases file with
      | missing =>
        cases create with
        | false =>
          cases h
          exact hclosed
        | true => cases h
      | unavailable =>
        cases h
        exact hclosed
      | contents bytes readError =>
        simp only at h
        split at h
        · cases h
          exact hclosed
        · split at h
          · cases h
            exact hclosed
          · cases h

/-- Closing leaves a closed database, and the lock to the call that gives it back. -/
theorem commonioClose_mode (selinux : Bool) (put : α → Option Bytes) (steps : CloseSteps) (db : Db α) (old : Option Bytes) (disk : Disk) :
    (commonioClose selinux (plainCloseOps put) steps db old disk).2.1.isopen = false ∧
      (commonioClose selinux (plainCloseOps put) steps db old disk).2.1.locked = db.locked := by
  unfold commonioClose
  cases hopen : db.isopen with
  | false => simp [hopen]
  | true =>
    simp only [Bool.not_true,Bool.false_eq_true,if_false,plainCloseOps]
    split
    · exact ⟨rfl,rfl⟩
    · split <;> exact ⟨rfl,rfl⟩

/-- Taking the lock of a database that is not locked: with the library lock, or under it. -/
theorem commonioLock_cases (hl : db.locked = false) {t t' : LockState} {root memory lckpwdf ok : Bool} {doLockFile : Nat → Bool}
    (h : commonioLock false root memory lckpwdf doLockFile db t = (ok,db',t')) :
    (ok = false ∧ db' = db ∧ t'.lockCount = t.lockCount ∧ (t'.lckpwdf = true → t.lckpwdf = true)) ∨
      (ok = true ∧ db' = { db with locked := true } ∧ t'.lockCount = t.lockCount + 1) := by
  by_cases hc : t.lockCount = 0
  · rw [commonioLock_first hl hc] at h
    split at h
    · cases h
      exact .inl ⟨rfl,rfl,rfl,id⟩
    · split at h
      · cases h
        exact .inr ⟨rfl,rfl,by rw [hc]⟩
      · cases h
        exact .inl ⟨rfl,rfl,hc.symm,(by intros; contradiction)⟩
  · rw [commonioLock_more hl hc] at h
    split at h
    · cases h
      exact .inr ⟨rfl,rfl,rfl⟩
    · cases h
      exact .inl ⟨rfl,rfl,rfl,(by intros; contradiction)⟩

/-- Giving the lock back closes what is still open. -/
theorem commonioUnlock_isopen (selinux : Bool) (put : α → Option Bytes) (steps : CloseSteps) (old : Option Bytes) (disk : Disk) (db : Db α)
    (t : LockState) : (commonioUnlock selinux (plainCloseOps put) steps old disk db t).2.1.isopen = false := by
  unfold commonioUnlock
  cases hopen : db.isopen with
  | false =>
    cases hl : db.locked <;> simp [hopen,hl]
  | true =>
    have hclose := commonioClose_readonly selinux (plainCloseOps put) steps { db with readonly := true } old disk hopen rfl
    rw [hopen] at hclose
    rw [if_pos rfl,hclose]
    cases hl : db.locked <;> simp [Db.freeLinkedList]

end UserDb.Commonio
