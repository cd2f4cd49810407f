import UserDb.Commonio.Passwd
import UserDb.Commonio.Sheet

/-! Runs of calls on a database and its file, from opening to closing and opening again: the linked
entries answer as a list of records does, and leave the same file. -/
namespace UserDb.Commonio
open UserDb.Base UserDb.Base.LinkedList

/-- A call on a database. The entry to delete is given by its place in the list. -/
inductive FileCall (α : Type) where
  | open (access : AccessMode) (create available readError memory : Bool)
  | update (eptr : α) (memory : Bool)
  | append (eptr : α) (memory : Bool)
  | remove (name : Bytes)
  | delEntry (index : Nat)
  | locate (name : Bytes)
  | rewind
  | next
  | close (steps : CloseSteps)

inductive Answer (α : Type) where
  | done (ok : Bool)
  | entry (found : Option α)

variable {α : Type}

section Linked

/-- A database in its memory, and the files that it is read from and written to. -/
structure OnDisk (α : Type) where
  db : Db α
  disk : Disk

def foundFile (available readError : Bool) (file : Option Bytes) : FileState :=
  if !available then .unavailable
  else
    match file with
    | none => .missing
    | some bytes => .contents bytes readError

def OnDisk.call (selinux : Bool) (ops : Ops α) (put : α → Option Bytes) (s : OnDisk α) : FileCall α → Answer α × OnDisk α
  | .open access create available readError memory =>
    let (ok,db) := commonioOpen ops s.db access create (foundFile available readError s.disk.file) memory
    (.done ok,{ s with db := db })
  | .update eptr memory =>
    let (ok,db) := commonioUpdate ops s.db eptr memory
    (.done ok,{ s with db := db })
  | .append eptr memory =>
    let (ok,db) := commonioAppend s.db eptr memory
    (.done ok,{ s with db := db })
  | .remove name =>
    let (ok,db) := commonioRemove ops s.db name
    (.done ok,{ s with db := db })
  | .delEntry index => (.done true,{ s with db := ((s.db.from s.db.head)[index]?).elim s.db (commonioDelEntry s.db) })
  | .locate name =>
    let (found,db) := commonioLocate ops s.db name
    (.entry found,{ s with db := db })
  | .rewind =>
    let (ok,db) := commonioRewind s.db
    (.done ok,{ s with db := db })
  | .next =>
    let (found,db) := commonioNext s.db
    (.entry found,{ s with db := db })
  | .close steps =>
    let (ok,db,disk) := commonioClose selinux (plainCloseOps put) steps s.db s.disk.file s.disk
    (.done ok,⟨db,disk⟩)

def OnDisk.Step (selinux : Bool) (ops : Ops α) (put : α → Option Bytes) (i : FileCall α × Answer α) (s s' : OnDisk α) : Prop :=
  s.call selinux ops put i.1 = (i.2,s')

end Linked

section Listed

/-- What is left of a database without its memory: the open sheet, the lock, and the file. -/
structure SheetFile (α : Type) where
  sheet : Option (Sheet α)
  locked : Bool
  file : Option Bytes

/-- A call on an open sheet; a closed one gives the answer of a refusal. -/
def SheetFile.edit (s : SheetFile α) (closed : Answer α) (f : Sheet α → Answer α × Sheet α) : Answer α × SheetFile α :=
  match s.sheet with
  | none => (closed,s)
  | some sheet => ((f sheet).1,{ s with sheet := some (f sheet).2 })

/-- The records of a file that can be read: a new file has none. -/
def openedRecords (ops : Ops α) (create available readError memory : Bool) (file : Option Bytes) : Option (List (Record α)) :=
  if !available then none
  else
    match file with
    | none => if create then some [] else none
    | some bytes =>
      match fileLines bytes with
      | none => none
      | some lines => if !memory || readError then none else some (lines.map (lineRecord ops))

def SheetFile.open (ops : Ops α) (s : SheetFile α) (access : AccessMode) (create available readError memory : Bool) :
    Bool × SheetFile α :=
  if s.sheet.isSome || access == .other || (access != .rdonly && !s.locked) then (false,s)
  else
    match openedRecords ops create available readError memory s.file with
    | none => (false,s)
    | some records => (true,{ s with sheet := some ⟨records,none,false,access == .rdonly⟩ })

/-- `written` tells whether the new file took the place of the old one. -/
def SheetFile.close (selinux : Bool) (put : α → Option Bytes) (steps : CloseSteps) (written : Bool) (s : SheetFile α) :
    Bool × SheetFile α :=
  match s.sheet with
  | none => (false,s)
  | some sheet =>
    if !sheet.changed || sheet.readonly then (true,{ s with sheet := none })
    else
      match if written then sheet.text put else none with
      | none => (false,{ s with sheet := none })
      | some text => (!selinux || steps.resetContext,{ s with sheet := none, file := some text })

def SheetFile.call (selinux : Bool) (ops : Ops α) (put : α → Option Bytes) (written : Bool) (s : SheetFile α) :
    FileCall α → Answer α × SheetFile α
  | .open access create available readError memory =>
    let (ok,s) := s.open ops access create available readError memory
    (.done ok,s)
  | .update eptr memory => s.edit (.done false) fun sheet => (sheet.update ops eptr memory).map .done id
  | .append eptr memory => s.edit (.done false) fun sheet => (sheet.append eptr memory).map .done id
  | .remove name => s.edit (.done false) fun sheet => (sheet.remove ops name).map .done id
  | .delEntry index => s.edit (.done true) fun sheet => (.done true,sheet.delEntry index)
  | .locate name => s.edit (.entry none) fun sheet => (sheet.locate ops name).map .entry id
  | .rewind => s.edit (.done false) fun sheet => (.done true,sheet.rewind)
  | .next => s.edit (.entry none) fun sheet => sheet.next.map .entry id
  | .close steps =>
    let (ok,s) := s.close selinux put steps written
    (.done ok,s)

/-- A call on the sheet. A file is only left unwritten where a step of the closing failed. -/
def SheetFile.Step (selinux : Bool) (ops : Ops α) (put : α → Option Bytes) (i : FileCall α × Answer α) (s s' : SheetFile α) : Prop :=
  ∃ written, (∀ steps, i.1 = .close steps → Replaces selinux steps s.file → written = true) ∧
    s.call selinux ops put written i.1 = (i.2,s')

end Listed

/-- A database that stands for a sheet and has its file. -/
structure Represents (t : SheetFile α) (s : OnDisk α) : Prop where
  opened : ∀ sheet, t.sheet = some sheet → ∃ l, Links sheet s.db l
  closed : t.sheet = none → s.db.isopen = false ∧ s.db.head = none
  locked : s.db.locked = t.locked
  file : s.disk.file = t.file

section Opening
variable {ops : Ops α} {db : Db α}

/-- Without a hook the opened list is that of the lines, with the cursor in front. -/
theorem commonioOpen_links (hook : ops.openHook = none) {access : AccessMode} (hguard : refusesOpen db access = false) (create : Bool)
    {bytes : Bytes} {lines : List Bytes} (hlines : fileLines bytes = some lines) :
    ∃ db' l, commonioOpen ops db access create (.contents bytes false) true = (true,db') ∧
      Links ⟨lines.map (lineRecord ops),none,false,access == .rdonly⟩ db' l := by
  obtain ⟨hopen,hlocked⟩ := refusesOpen_eq_false hguard
  have hstart : Rep { db with
      readonly := access == .rdonly
      head := none
      tail := none
      cursor := none
      changed := false } [] false := Rep.of_empty rfl rfl rfl
  obtain ⟨l,hrep,hmap,hcursor⟩ := hstart.addLines ops lines
  have hrun : ∃ db', commonioOpen ops db access create (.contents bytes false) true = (true,db') ∧ db' =
      { lines.foldl (Db.addLine ops) { db with
          readonly := access == .rdonly
          head := none
          tail := none
          cursor := none
          changed := false } with isopen := true } := by
    refine ⟨_,?_,rfl⟩
    unfold commonioOpen
    simp only [hopen,hlocked,hlines,Bool.false_eq_true,if_false,Bool.not_true,Bool.or_self,Db.runOpenHook,hook]
  obtain ⟨db',hrun,rfl⟩ := hrun
  have hflags := commonioOpen_flags hrun
  refine ⟨_,l,hrun,hrep.withFlags _ true _ _,hmap.trans (List.nil_append _),hcursor,by rintro i ⟨⟩,?_,?_,rfl⟩
  · exact congrArg Prod.fst hflags
  · exact congrArg Prod.snd hflags

/-- A file that gives no records leaves a closed and empty database. -/
theorem commonioOpen_of_none {access : AccessMode} (hguard : refusesOpen db access = false)
    {create available readError memory : Bool} {file : Option Bytes}
    (hnone : openedRecords ops create available readError memory file = none) :
    (commonioOpen ops db access create (foundFile available readError file) memory).1 = false ∧
      (commonioOpen ops db access create (foundFile available readError file) memory).2.isopen = false ∧
      (commonioOpen ops db access create (foundFile available readError file) memory).2.head = none := by
  obtain ⟨hopen,hlocked⟩ := refusesOpen_eq_false hguard
  have hclosed : db.isopen = false := (Bool.or_eq_false_iff.mp hopen).1
  unfold commonioOpen
  simp only [hopen,hlocked,Bool.false_eq_true,if_false]
  cases available with
  | false => exact ⟨rfl,hclosed,rfl⟩
  | true =>
    cases file with
    | none =>
      cases create with
      | false => exact ⟨rfl,hclosed,rfl⟩
      | true => cases hnone
    | some bytes =>
      simp only [openedRecords,foundFile,Bool.not_true,Bool.false_eq_true,if_false] at hnone ⊢
      cases hlines : fileLines bytes with
      | none => exact ⟨rfl,hclosed,rfl⟩
      | some lines =>
        rw [hlines] at hnone
        simp only at hnone ⊢
        split at hnone
        · rename_i hfails
          rw [if_pos hfails]
          exact ⟨rfl,hclosed,rfl⟩
        · cases hnone

/-- The records of a file that could be read are those of the opened database. -/
theorem commonioOpen_of_some (hook : ops.openHook = none) {access : AccessMode} (hguard : refusesOpen db access = false)
    {create available readError memory : Bool} {file : Option Bytes} {records : List (Record α)}
    (hsome : openedRecords ops create available readError memory file = some records) :
    (commonioOpen ops db access create (foundFile available readError file) memory).1 = true ∧
      ∃ l, Links ⟨records,none,false,access == .rdonly⟩
        (commonioOpen ops db access create (foundFile available readError file) memory).2 l := by
  cases available with
  | false => cases hsome
  | true =>
    cases file with
    | none =>
      cases create with
      | false => cases hsome
      | true =>
        cases hsome
        obtain ⟨hopen,hlocked⟩ := refusesOpen_eq_false hguard
        unfold commonioOpen
        simp only [hopen,hlocked,Bool.false_eq_true,if_false]
        exact ⟨rfl,[],Rep.of_empty rfl rfl rfl,rfl,rfl,by rintro i ⟨⟩,rfl,rfl,rfl⟩
    | some bytes =>
      simp only [openedRecords,Bool.not_true,Bool.false_eq_true,if_false] at hsome
      cases hlines : fileLines bytes with
      | none =>
        rw [hlines] at hsome
        cases hsome
      | some lines =>
        rw [hlines] at hsome
        simp only at hsome
        split at hsome
        · cases hsome
        · rename_i hfine
          cases hsome
          obtain ⟨rfl,rfl⟩ : memory = true ∧ readError = false := by simpa using hfine
          obtain ⟨db',l,hrun,hlinks⟩ := commonioOpen_links hook hguard create hlines
          have hrun : commonioOpen ops db access create (foundFile true false (some bytes)) true = (true,db') := hrun
          rw [hrun]
          exact ⟨rfl,l,hlinks⟩

end Opening

section Writing
variable {put : α → Option Bytes} {write : Nat → Bool} {db : Db α} {sheet : Sheet α} {l : List Nat} {bytes : Bytes}

theorem writeEntry_text (put : α → Option Bytes) (e : Entry α) : writeEntry put e = e.record.text put := by
  obtain ⟨line,eptr,prev,next,changed⟩ := e
  cases changed <;> cases line <;> rfl

/-- What could be written is the text of the records. -/
theorem mapM_text {parts : List Bytes} (h : (l.mapM fun p => if write p then writeEntry put (db.entries p) else none) = some parts) :
    (l.map db.record).mapM (Record.text put) = some parts := by
  induction l generalizing parts with
  | nil => exact h
  | cons p l ih =>
    simp only [List.mapM_cons,Option.bind_eq_bind,Option.bind_eq_some_iff] at h
    obtain ⟨part,hpart,rest,hrest,h⟩ := h
    split at hpart
    · have htext : (db.record p).text put = some part := (writeEntry_text put _).symm.trans hpart
      rw [List.map_cons,List.mapM_cons,htext,ih hrest]
      exact h
    · cases hpart

private theorem mapM_writeEntry_all (hwrite : ∀ p, write p = true) :
    (l.mapM fun p => if write p then writeEntry put (db.entries p) else none) = (l.map db.record).mapM (Record.text put) := by
  induction l with
  | nil => rfl
  | cons p l ih =>
    have htext : writeEntry put (db.entries p) = (db.record p).text put := writeEntry_text put _
    rw [List.map_cons,List.mapM_cons,List.mapM_cons,ih,hwrite p,if_pos rfl,htext]

theorem Links.written (h : Links sheet db l) (hall : writeAll (plainCloseOps put) write { db with isopen := false } = some bytes) :
    sheet.text put = some bytes := by
  have hfrom : Db.from { db with isopen := false } db.head = l := h.rep.from_head
  obtain ⟨parts,hparts,rfl⟩ := Option.map_eq_some_iff.mp hall
  simp only at hparts
  rw [hfrom] at hparts
  rw [Sheet.text,← h.records]
  exact congrArg (Option.map List.flatten) (mapM_text hparts)

theorem Links.written_all (h : Links sheet db l) (put : α → Option Bytes) (hwrite : ∀ p, write p = true) :
    writeAll (plainCloseOps put) write { db with isopen := false } = sheet.text put := by
  have hfrom : Db.from { db with isopen := false } db.head = l := h.rep.from_head
  rw [writeAll,Sheet.text,← h.records]
  simp only
  rw [hfrom]
  exact congrArg (Option.map List.flatten) (mapM_writeEntry_all hwrite)

end Writing

section Steps
variable {selinux : Bool} {ops : Ops α} {put : α → Option Bytes} {t t' : SheetFile α} {s s' : OnDisk α}

/-- A call that leaves the file alone, by what it does to an open database and to a closed one. -/
theorem Represents.edit (h : Represents t s) {db : Db α} {answer closed : Answer α} {f : Sheet α → Answer α × Sheet α}
    (hlocked : SameMode s.db db) (hopened : ∀ sheet l, Links sheet s.db l → answer = (f sheet).1 ∧ ∃ l', Links (f sheet).2 db l')
    (hclosed : s.db.isopen = false → s.db.head = none → answer = closed ∧ db = s.db) :
    ∃ t', t.edit closed f = (answer,t') ∧ Represents t' { s with db := db } := by
  unfold SheetFile.edit
  cases hsheet : t.sheet with
  | none =>
    obtain ⟨hisopen,hhead⟩ := h.closed hsheet
    obtain ⟨rfl,rfl⟩ := hclosed hisopen hhead
    exact ⟨t,rfl,h⟩
  | some sheet =>
    obtain ⟨l,hl⟩ := h.opened sheet hsheet
    obtain ⟨rfl,hl'⟩ := hopened sheet l hl
    refine ⟨_,rfl,?_,fun hnone => absurd hnone (Option.some_ne_none _),hlocked.locked.trans h.locked,h.file⟩
    rintro _ ⟨⟩
    exact hl'

theorem Represents.isSome (h : Represents t s) : t.sheet.isSome = s.db.isopen := by
  cases hsheet : t.sheet with
  | none => exact (h.closed hsheet).1.symm
  | some sheet =>
    obtain ⟨l,hl⟩ := h.opened sheet hsheet
    exact hl.isopen.symm

/-- A database that could not be opened is as before, or closed and empty. -/
theorem Represents.untouched (h : Represents t s) {db : Db α} (hlocked : db.locked = s.db.locked)
    (hdb : db = s.db ∨ t.sheet = none ∧ db.isopen = false ∧ db.head = none) : Represents t { s with db := db } := by
  rcases hdb with rfl | ⟨hnone,hclosed⟩
  · exact h
  · refine ⟨?_,fun _ => hclosed,hlocked.trans h.locked,h.file⟩
    rw [hnone]
    rintro _ ⟨⟩

/-- A refused opening changes no more than the mode of a database that is closed. -/
theorem commonioOpen_refused_db (ops : Ops α) {db : Db α} {access : AccessMode} (hrefused : refusesOpen db access = true) (create : Bool)
    (file : FileState) (memory : Bool) :
    (commonioOpen ops db access create file memory).2 = db ∨
      db.isopen = false ∧ (commonioOpen ops db access create file memory).2 = { db with readonly := access == .rdonly } := by
  unfold commonioOpen
  split
  · exact .inl rfl
  · rename_i hfirst
    have hlocked : (!(access == .rdonly) && !db.locked) = true := by
      cases access <;> simp_all [refusesOpen]
    simp only [hlocked,if_true]
    exact .inr ⟨by simp_all,trivial⟩

theorem Represents.open (hook : ops.openHook = none) (h : Represents t s) (access : AccessMode)
    (create available readError memory : Bool) :
    ∃ t', t.open ops access create available readError memory =
        ((commonioOpen ops s.db access create (foundFile available readError s.disk.file) memory).1,t') ∧
      Represents t' { s with db := (commonioOpen ops s.db access create (foundFile available readError s.disk.file) memory).2 } := by
  have hguard : (t.sheet.isSome || access == .other || (access != .rdonly && !t.locked)) = refusesOpen s.db access := by
    rw [h.isSome,← h.locked,refusesOpen]
  have hlocked := commonioOpen_locked hook s.db access create (foundFile available readError s.disk.file) memory
  unfold SheetFile.open
  rw [hguard]
  cases hguard' : refusesOpen s.db access with
  | true =>
    rw [if_pos rfl,commonioOpen_refused hguard']
    refine ⟨t,rfl,h.untouched hlocked ?_⟩
    rcases commonioOpen_refused_db ops hguard' create (foundFile available readError s.disk.file) memory with hsame | ⟨hclosed,hdb⟩
    · exact .inl hsame
    · rw [hdb]
      have hnone : t.sheet = none := Option.isNone_iff_eq_none.mp (by rw [← Option.not_isSome,h.isSome,hclosed]; rfl)
      exact .inr ⟨hnone,hclosed,(h.closed hnone).2⟩
  | false =>
    have hnone : t.sheet = none := by
      have hclosed : t.sheet.isSome = false := by
        rw [h.isSome]
        exact (Bool.or_eq_false_iff.mp (Bool.or_eq_false_iff.mp hguard').1).1
      simpa using hclosed
    rw [if_neg Bool.false_ne_true,← h.file]
    cases hrecords : openedRecords ops create available readError memory s.disk.file with
    | none =>
      obtain ⟨hfalse,hclosed⟩ := commonioOpen_of_none hguard' hrecords
      rw [hfalse]
      exact ⟨t,rfl,h.untouched hlocked (.inr ⟨hnone,hclosed⟩)⟩
    | some records =>
      obtain ⟨htrue,hlinks⟩ := commonioOpen_of_some hook hguard' hrecords
      rw [htrue]
      refine ⟨_,rfl,?_,fun hnone => absurd hnone (Option.some_ne_none _),hlocked.trans h.locked,rfl⟩
      rintro _ ⟨⟩
      exact hlinks

/-- Nothing is written of a database that was not changed, or was opened for reading. -/
theorem commonioClose_of_unwritten (selinux : Bool) (put : α → Option Bytes) (steps : CloseSteps) {db : Db α} (old : Option Bytes)
    (disk : Disk) (hopen : db.isopen = true) (hunwritten : (!db.changed || db.readonly) = true) :
    commonioClose selinux (plainCloseOps put) steps db old disk = (true,{ db with isopen := false }.freeLinkedList,disk) := by
  unfold commonioClose
  simp only [hopen,hunwritten,Bool.not_true,Bool.false_eq_true,if_false,if_true]

private theorem from_none (db : Db α) : db.from none = [] := by
  unfold Db.from
  cases db.fresh <;> rfl

theorem Represents.close (selinux : Bool) (put : α → Option Bytes) (h : Represents t s) (steps : CloseSteps) :
    ∃ written, (Replaces selinux steps t.file → written = true) ∧
      ∃ t', t.close selinux put steps written =
          ((commonioClose selinux (plainCloseOps put) steps s.db s.disk.file s.disk).1,t') ∧
        Represents t' ⟨(commonioClose selinux (plainCloseOps put) steps s.db s.disk.file s.disk).2.1,
          (commonioClose selinux (plainCloseOps put) steps s.db s.disk.file s.disk).2.2⟩ := by
  obtain ⟨_,hlocked⟩ := commonioClose_mode selinux put steps s.db s.disk.file s.disk
  unfold SheetFile.close
  cases hsheet : t.sheet with
  | none =>
    obtain ⟨hisopen,hhead⟩ := h.closed hsheet
    have hclose : commonioClose selinux (plainCloseOps put) steps s.db s.disk.file s.disk = (false,s.db,s.disk) := by
      rw [commonioClose,hisopen]
      rfl
    rw [hclose]
    exact ⟨true,fun _ => rfl,t,rfl,h⟩
  | some sheet =>
    obtain ⟨l,hl⟩ := h.opened sheet hsheet
    obtain ⟨hisopen,hhead,_⟩ := commonioClose_closed selinux (plainCloseOps put) steps s.db s.disk.file s.disk hl.isopen
      (by rintro db₁ _ ⟨⟩; rfl)
    -- the database is closed in every case; what the file becomes is left to see
    have hrepresents : ∀ file, (commonioClose selinux (plainCloseOps put) steps s.db s.disk.file s.disk).2.2.file = file →
        Represents ⟨none,t.locked,file⟩ ⟨(commonioClose selinux (plainCloseOps put) steps s.db s.disk.file s.disk).2.1,
          (commonioClose selinux (plainCloseOps put) steps s.db s.disk.file s.disk).2.2⟩ := fun file hfile =>
      ⟨by rintro _ ⟨⟩,fun _ => ⟨hisopen,hhead⟩,hlocked.trans h.locked,hfile⟩
    simp only
    cases hwrites : !sheet.changed || sheet.readonly with
    | true =>
      have hclose := commonioClose_of_unwritten selinux put steps s.disk.file s.disk hl.isopen (by rwa [hl.changed,hl.readonly])
      refine ⟨true,fun _ => rfl,_,?_,hrepresents t.file ?_⟩
      · rw [hclose]
        rfl
      · rw [hclose]
        exact h.file
    | false =>
      obtain ⟨hchanged,hreadonly⟩ : sheet.changed = true ∧ sheet.readonly = false := by simpa using hwrites
      simp only [Bool.false_eq_true,if_false]
      rcases commonioClose_cases selinux (plainCloseOps put) steps s.db s.disk.file s.disk hl.isopen (hl.changed.trans hchanged)
        (hl.readonly.trans hreadonly) with ⟨hfalse,hfile⟩ | ⟨db₁,bytes,hhook,hall,hresult,hdisk⟩
      · by_cases hreplaces : Replaces selinux steps s.disk.file
        · cases htext : sheet.text put with
          | none =>
            refine ⟨true,fun _ => rfl,_,?_,hrepresents t.file (hfile.trans h.file)⟩
            rw [if_pos rfl,hfalse]
          | some text =>
            have hall := (hl.written_all put hreplaces.written).trans htext
            obtain ⟨hresult,hnew⟩ := commonioClose_replaces hl.isopen (hl.changed.trans hchanged) (hl.readonly.trans hreadonly)
              hreplaces hall s.disk
            refine ⟨true,fun _ => rfl,_,?_,hrepresents (some text) hnew⟩
            rw [if_pos rfl,hresult]
        · -- some step failed, and the file is the one from before
          refine ⟨false,fun hsteps => absurd (h.file ▸ hsteps) hreplaces,_,?_,hrepresents t.file (hfile.trans h.file)⟩
          rw [if_neg Bool.false_ne_true,hfalse]
      · cases hhook
        refine ⟨true,fun _ => rfl,_,?_,hrepresents (some bytes) (congrArg Disk.file hdisk)⟩
        rw [if_pos rfl,hl.written hall,hresult]

/-- A call on the linked entries is one on the list of records, with the same answer. -/
theorem Represents.call (selinux : Bool) (put : α → Option Bytes) (hook : ops.openHook = none) (h : Represents t s) (c : FileCall α) :
    ∃ written, (∀ steps, c = .close steps → Replaces selinux steps t.file → written = true) ∧
      ∃ t', t.call selinux ops put written c = ((s.call selinux ops put c).1,t') ∧ Represents t' (s.call selinux ops put c).2 := by
  cases c with
  | «open» access create available readError memory =>
    obtain ⟨t',hcall,hrepresents⟩ := h.open hook access create available readError memory
    refine ⟨true,fun _ _ _ => rfl,t',?_,hrepresents⟩
    rw [SheetFile.call,hcall]
    rfl
  | update eptr memory =>
    have hrefuses (hclosed : s.db.isopen = false) : commonioUpdate ops s.db eptr memory = (false,s.db) := by simp [commonioUpdate,hclosed]
    refine ⟨true,fun _ _ _ => rfl,h.edit (commonioUpdate_mode ops s.db eptr memory) (fun sheet l hl => ?_) fun hclosed _ => ?_⟩
    · obtain ⟨hanswer,hlinks⟩ := hl.update ops eptr memory
      exact ⟨congrArg Answer.done hanswer,hlinks⟩
    · exact ⟨congrArg Answer.done (congrArg Prod.fst (hrefuses hclosed)),congrArg Prod.snd (hrefuses hclosed)⟩
  | append eptr memory =>
    have hrefuses (hclosed : s.db.isopen = false) : commonioAppend s.db eptr memory = (false,s.db) := by simp [commonioAppend,hclosed]
    refine ⟨true,fun _ _ _ => rfl,h.edit (commonioAppend_mode s.db eptr memory) (fun sheet l hl => ?_) fun hclosed _ => ?_⟩
    · obtain ⟨hanswer,hlinks⟩ := hl.append eptr memory
      exact ⟨congrArg Answer.done hanswer,hlinks⟩
    · exact ⟨congrArg Answer.done (congrArg Prod.fst (hrefuses hclosed)),congrArg Prod.snd (hrefuses hclosed)⟩
  | remove name =>
    have hrefuses (hclosed : s.db.isopen = false) : commonioRemove ops s.db name = (false,s.db) := by simp [commonioRemove,hclosed]
    refine ⟨true,fun _ _ _ => rfl,h.edit (commonioRemove_mode ops s.db name) (fun sheet l hl => ?_) fun hclosed _ => ?_⟩
    · obtain ⟨hanswer,hlinks⟩ := hl.remove ops name
      exact ⟨congrArg Answer.done hanswer,hlinks⟩
    · exact ⟨congrArg Answer.done (congrArg Prod.fst (hrefuses hclosed)),congrArg Prod.snd (hrefuses hclosed)⟩
  | delEntry index =>
    have hmode : SameMode s.db (((s.db.from s.db.head)[index]?).elim s.db (commonioDelEntry s.db)) := by
      cases (s.db.from s.db.head)[index]? with
      | none => exact .refl s.db
      | some p => exact commonioDelEntry_mode s.db p
    refine ⟨true,fun _ _ _ => rfl,h.edit hmode (fun sheet l hl => ⟨rfl,hl.delEntry index⟩) fun _ hhead => ⟨rfl,?_⟩⟩
    rw [hhead,from_none]
    rfl
  | locate name =>
    have hrefuses (hclosed : s.db.isopen = false) : commonioLocate ops s.db name = (none,s.db) := by simp [commonioLocate,hclosed]
    refine ⟨true,fun _ _ _ => rfl,h.edit (commonioLocate_mode ops s.db name) (fun sheet l hl => ?_) fun hclosed _ => ?_⟩
    · obtain ⟨hanswer,hlinks⟩ := hl.locate ops name
      exact ⟨congrArg Answer.entry hanswer,hlinks⟩
    · exact ⟨congrArg Answer.entry (congrArg Prod.fst (hrefuses hclosed)),congrArg Prod.snd (hrefuses hclosed)⟩
  | rewind =>
    have hrefuses (hclosed : s.db.isopen = false) : commonioRewind s.db = (false,s.db) := by simp [commonioRewind,hclosed]
    refine ⟨true,fun _ _ _ => rfl,h.edit (commonioRewind_mode s.db) (fun sheet l hl => ?_) fun hclosed _ => ?_⟩
    · exact ⟨congrArg Answer.done hl.rewind.1,l,hl.rewind.2⟩
    · exact ⟨congrArg Answer.done (congrArg Prod.fst (hrefuses hclosed)),congrArg Prod.snd (hrefuses hclosed)⟩
  | next =>
    have hrefuses (hclosed : s.db.isopen = false) : commonioNext s.db = (none,s.db) := by simp [commonioNext,hclosed]
    refine ⟨true,fun _ _ _ => rfl,h.edit (commonioNext_mode s.db) (fun sheet l hl => ?_) fun hclosed _ => ?_⟩
    · exact ⟨congrArg Answer.entry hl.next.1,l,hl.next.2⟩
    · exact ⟨congrArg Answer.entry (congrArg Prod.fst (hrefuses hclosed)),congrArg Prod.snd (hrefuses hclosed)⟩
  | close steps =>
    obtain ⟨written,hwritten,t',hcall,hrepresents⟩ := h.close selinux put steps
    refine ⟨written,?_,t',?_,hrepresents⟩
    · rintro _ ⟨⟩
      exact hwritten
    · rw [SheetFile.call,hcall]
      rfl

/-- The linked database steps as the list of its records does. -/
theorem linked_simulates (selinux : Bool) (put : α → Option Bytes) (hook : ops.openHook = none) :
    Simulates (fun s t => Represents t s) (OnDisk.Step selinux ops put) (SheetFile.Step selinux ops put) := by
  intro i s s' t h hstep
  obtain ⟨call,answer⟩ := i
  have hstep : s.call selinux ops put call = (answer,s') := hstep
  obtain ⟨written,hwritten,t',hcall,hrepresents⟩ := h.call selinux put hook call
  rw [hstep] at hcall hrepresents
  exact ⟨t',⟨written,hwritten,hcall⟩,hrepresents⟩

end Steps

/-- Whatever the memory held: a run of calls on the linked entries gives the answers that the list of
the records gives, and leaves the file that it leaves. -/
theorem linked_runs_are_list_runs (selinux : Bool) (ops : Ops α) (put : α → Option Bytes) (hook : ops.openHook = none)
    (memory : Nat → Entry α) (fresh : Nat) (locked : Bool) (disk : Disk) {calls : List (FileCall α × Answer α)} {s : OnDisk α}
    (hrun : Run (OnDisk.Step selinux ops put) calls ⟨Db.initial memory fresh locked,disk⟩ s) :
    ∃ t, Run (SheetFile.Step selinux ops put) calls ⟨none,locked,disk.file⟩ t ∧ Represents t s := by
  have hstart : Represents ⟨none,locked,disk.file⟩ ⟨Db.initial memory fresh locked,disk⟩ :=
    ⟨by rintro _ ⟨⟩,fun _ => ⟨rfl,rfl⟩,rfl,rfl⟩
  exact (linked_simulates selinux put hook).run hstart hrun

/-- Bob is stored behind root, then root is taken out while the cursor stands on it. -/
def replacedAccount : List (FileCall Passwd × Answer Passwd) :=
  [(.open .rdwr false true false true,.done true),(.update (accountNamed (ascii "bob")) true,.done true),(.rewind,.done true),
    (.locate (ascii "root"),.entry (some ⟨ascii "root",ascii "x",0,0,[],ascii "/root",ascii "/bin/sh"⟩)),
    (.remove (ascii "root"),.done true),(.next,.entry none),(.close allSteps,.done true)]

theorem linked_runs_are_list_runs_passwd :
    ∃ s t, Run (OnDisk.Step false passwdOps (passwdPut plainPutpwent)) replacedAccount ⟨lockedPasswd,rootDisk⟩ s ∧
      Run (SheetFile.Step false passwdOps (passwdPut plainPutpwent)) replacedAccount ⟨none,true,rootDisk.file⟩ t ∧
      s.disk.file = t.file ∧ s.disk.file = some (ascii "bob:x:1000:1000::/home:/bin/sh\n") := by
  obtain ⟨s,hrun,hfile⟩ : ∃ s, Run (OnDisk.Step false passwdOps (passwdPut plainPutpwent)) replacedAccount ⟨lockedPasswd,rootDisk⟩ s ∧
      s.disk.file = some (ascii "bob:x:1000:1000::/home:/bin/sh\n") :=
    ⟨_,.cons rfl (.cons rfl (.cons rfl (.cons rfl (.cons rfl (.cons rfl (.cons rfl (.nil _))))))),by decide +kernel⟩
  obtain ⟨t,hlist,hrepresents⟩ := linked_runs_are_list_runs false passwdOps (passwdPut plainPutpwent) rfl _ 0 true rootDisk hrun
  exact ⟨s,t,hrun,hlist,hrepresents.file,hfile⟩

end UserDb.Commonio
