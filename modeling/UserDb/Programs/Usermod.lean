import UserDb.Subid.Add
import UserDb.Programs.Setup

/-! The options of `usermod` that give and take subordinate ids: how their argument is read, the
calls for each range, and what the written file says of the user. -/
namespace UserDb.Programs
open UserDb.Base UserDb.Atoi UserDb.Commonio UserDb.Subid

/-- An interval of ids with both its ends. -/
structure IdRange where
  first : UInt32
  last : UInt32
  deriving DecidableEq, Repr

/-- What stands for no interval: its ends are the wrong way round. -/
def noRange : IdRange := ⟨4294967295,0⟩

def getidRange (str : Bytes) : IdRange :=
  match strtouNoneg str 10 0 (2^32 - 1) with
  | (first,status) =>
    if status ≠ .success ∧ status ≠ .enotsup then noRange
    else
      match (scan str 10).map Scanned.rest with
      | some (45 :: pos) =>
        match a2i pos 10 first (2^32 - 1) with
        | none => noRange
        | some last => ⟨.ofNat first,.ofNat last⟩
      | _ => noRange

/-- A list with the interval of an argument in front, where there is one. -/
def prependRange (memory : Bool) (str : Bytes) (head : List IdRange) : Option (List IdRange) :=
  if (getidRange str).last < (getidRange str).first then none
  else if memory then some (getidRange str :: head) else none

/-- How many ids an interval has, as an id: none for all of them. -/
def IdRange.count (range : IdRange) : UInt32 := range.last - range.first + 1

/-- What the surroundings give for one of the files. -/
structure SubidEnv where
  accounts : Accounts
  nss : Bool
  defs : Subid.LoginDefs
  lock : Bool
  openMemory : Bool
  memory : Nat → Bool
  selinux : Bool
  steps : CloseSteps

section Program
variable (e : SubidEnv) (kind : IdKind) (user : Bytes)

def subidFailure : IdKind → Exit
  | .uid => .status 16
  | .gid => .status 18

def wantSubidFile : Bool := !e.nss && getdefUlong e.defs kind.countItem 65536 != 0

def subidRemove (db : Db SubordinateRange) (start : UInt32) (count : UInt64) : Option (Bool × Db SubordinateRange) :=
  match kind with
  | .uid => subUidRemove e.accounts e.nss e.memory db user start count
  | .gid => subGidRemove e.accounts e.nss e.memory db user start count

/-- The loop over the intervals to take away. -/
def removeSubids : List IdRange → Db SubordinateRange → Except Exit (Db SubordinateRange)
  | [], db => .ok db
  | range :: ranges, db =>
    match subidRemove e kind user db range.first range.count.toUInt64 with
    | none => .error .endless
    | some (false,_) => .error (subidFailure kind)
    | some (true,db) => removeSubids ranges db

/-- The loop over the intervals to give. -/
def addSubids : List IdRange → Db SubordinateRange → Except Exit (Db SubordinateRange)
  | [], db => .ok db
  | range :: ranges, db =>
    match subidAdd kind e.accounts e.nss e.defs (e.memory db.fresh) db user range.first range.count.toUInt64 with
    | none => .error .endless
    | some (false,_) => .error (subidFailure kind)
    | some (true,db) => addSubids ranges db

/-- The run for one of the files, with the database as it is written. -/
def usermodSubids (del add : List IdRange) (disk : Disk) : Except Exit (Db SubordinateRange × Disk) :=
  if !wantSubidFile e kind || disk.file.isNone then .error (.status 2)
  else if !e.lock then .error (subidFailure kind)
  else
    match commonioOpen subordinateOps { closedRanges with locked := true } .rdwr true (fileState disk.file) e.openMemory with
    | (false,_) => .error (subidFailure kind)
    | (true,db) =>
      match removeSubids e kind user del db with
      | .error exit => .error exit
      | .ok db =>
        match addSubids e kind user add db with
        | .error exit => .error exit
        | .ok db =>
          match commonioClose e.selinux (plainCloseOps subordinatePut) e.steps db disk.file disk with
          | (false,_,_) => .error (subidFailure kind)
          | (true,_,disk) => .ok (db,disk)

end Program

variable {str : Bytes} {range : IdRange}

/-- An argument that is accepted has its ends in order. -/
theorem prependRange_le {memory : Bool} {head ranges : List IdRange} (h : prependRange memory str head = some ranges) :
    ranges = getidRange str :: head ∧ (getidRange str).first ≤ (getidRange str).last := by
  unfold prependRange at h
  split at h
  · cases h
  · rename_i horder
    split at h
    · cases h
      exact ⟨rfl,UInt32.not_lt.mp horder⟩
    · cases h

/-- The interval of all ids. -/
def IdRange.IsWhole (range : IdRange) : Prop := range.first = 0 ∧ range.last = 4294967295

instance (range : IdRange) : Decidable range.IsWhole := inferInstanceAs (Decidable (_ ∧ _))

theorem IdRange.count_whole (h : range.IsWhole) : range.count = 0 := by
  rw [IdRange.count,h.1,h.2]
  rfl

theorem IdRange.count_toNat (hle : range.first ≤ range.last) (h : ¬ range.IsWhole) :
    range.count.toNat = range.last.toNat - range.first.toNat + 1 ∧ range.first.toNat + range.count.toNat ≤ 2^32 := by
  have hle := UInt32.le_iff_toNat_le.mp hle
  have hword := range.last.toNat_lt
  have hnot : ¬ (range.first.toNat = 0 ∧ range.last.toNat = 4294967295) := fun hends =>
    h ⟨UInt32.toNat_inj.mp hends.1,UInt32.toNat_inj.mp hends.2⟩
  have hcount : range.count.toNat = range.last.toNat - range.first.toNat + 1 := by
    rw [IdRange.count,UInt32.toNat_add,UInt32.toNat_sub,show (1 : UInt32).toNat = 1 from rfl]
    omega
  exact ⟨hcount,by omega⟩

section Stored
variable {rs before : List (Record SubordinateRange)} {file : Option Bytes}

/-- Records as they were read, or with a range that is read back. -/
def StorableRanges (rs : List (Record SubordinateRange)) : Prop :=
  ∀ r ∈ rs, (∃ line, IsLine line ∧ r = lineRecord subordinateOps line) ∨
    ∃ a, r.eptr = some a ∧ r.changed = true ∧ a.Text

theorem StorableRanges.of_read (h : readFile subordinateOps file = some rs) : StorableRanges rs := fun r hr =>
  .inl (subidStorage.record_line h r hr)

/-- The range of a record is the one that is read from its line in the new file. -/
theorem StorableRanges.again_eptr (h : StorableRanges rs) : ∀ r ∈ rs, (subidStorage.again r).eptr = r.eptr := by
  intro r hr
  rcases h r hr with ⟨line,_,rfl⟩ | ⟨a,ha,hch,htext⟩
  · rfl
  · have hnis : nameIsNis (rangeLine a) = false := (fieldsLine_notNis _ _ _).trans htext.notNis
    have hline : subidStorage.again r = lineRecord subordinateOps (rangeLine a) := by
      rw [LineStorage.again,hch,if_pos rfl,ha]
      rfl
    have hentry : (lineRecord subordinateOps (rangeLine a)).eptr =
        if nameIsNis (rangeLine a) then none else subordinateParse (rangeLine a) := rfl
    rw [hline,hentry,hnis,if_neg Bool.false_ne_true,subordinateParse_rangeLine.mpr htext.toRereads,ha]

theorem StorableRanges.again_entries (h : StorableRanges rs) : entriesOf (rs.map subidStorage.again) = entriesOf rs := by
  rw [entriesOf,List.filterMap_map]
  exact List.filterMap_congr h.again_eptr

/-- The records of the others, where these are records as they were read. -/
theorem StorableRanges.again_others {accounts : Accounts} {user : Bytes} (h : StorableRanges rs)
    (hread : ∀ r ∈ before, ∃ line, IsLine line ∧ r = lineRecord subordinateOps line)
    (hothers : (rs.filter fun r => !isOwn accounts user r) = before.filter fun r => !isOwn accounts user r) :
    ((rs.map subidStorage.again).filter fun r => !isOwn accounts user r) = before.filter fun r => !isOwn accounts user r := by
  rw [List.filter_map,← hothers]
  have hown : ∀ r ∈ rs, ((fun r => !isOwn accounts user r) ∘ subidStorage.again) r = !isOwn accounts user r := fun r hr => by
    rw [Function.comp_apply,isOwn,h.again_eptr r hr]
    rfl
  rw [List.filter_congr hown,hothers]
  refine (List.map_congr_left fun r hr => ?_).trans (List.map_id _)
  obtain ⟨line,_,rfl⟩ := hread r (List.mem_of_mem_filter hr)
  rfl

/-- Closing a database of such records writes a file that is read as they are. -/
theorem StorableRanges.close {db : Db SubordinateRange} {l : List Nat} (h : StorableRanges (l.map db.record)) (hrep : Rep db l false)
    (hflags : db.isopen = true ∧ db.readonly = false) (hread : readFile subordinateOps file = some before)
    (hchanged : db.changed = true ∨ l.map db.record = before) {selinux : Bool} {steps : CloseSteps} {old : Option Bytes}
    {disk : Disk} (hdisk : disk.file = file)
    (hok : (commonioClose selinux (plainCloseOps subordinatePut) steps db old disk).1 = true) :
    readFile subordinateOps (commonioClose selinux (plainCloseOps subordinatePut) steps db old disk).2.2.file =
      some ((l.map db.record).map subidStorage.again) := by
  have hkept : Kept subidStorage file db l := by
    refine ⟨hrep,hflags.1,hflags.2,fun r hr hch => ?_,fun r hr hch => ?_,fun hch => ?_⟩
    · rcases h r hr with ⟨line,hline,rfl⟩ | ⟨a,_,hch',_⟩
      · exact ⟨line,rfl,hline⟩
      · rw [hch'] at hch
        cases hch
    · rcases h r hr with ⟨line,_,rfl⟩ | ⟨a,ha,_,htext⟩
      · cases hch
      · exact ⟨a,ha,htext⟩
    · have hsame : l.map db.record = before := hchanged.resolve_left (by simp [hch])
      have hlines := subidStorage.record_line hread
      refine ⟨?_,fun r hr => ?_⟩
      · rw [hsame]
        refine hread.trans (congrArg some (Eq.symm ?_))
        refine (List.map_congr_left fun r hr => ?_).trans (List.map_id _)
        obtain ⟨line,_,rfl⟩ := hlines r hr
        rfl
      · rw [hsame] at hr
        obtain ⟨line,_,rfl⟩ := hlines r hr
        rfl
  exact (hkept.close hdisk hok).1

end Stored

/-- The written file says what it should: the ids of the user, the entries of the others as they
were, and the ranges as they were in memory. -/
structure WritesExactly (accounts : Accounts) (user : Bytes) (wanted : Set Nat) (before : List (Record SubordinateRange))
    (ranges : List SubordinateRange) (file : Option Bytes) : Prop where
  ids : idsOf (Owns accounts user) ranges = wanted
  others : ∃ after, readFile subordinateOps file = some after ∧
    (after.filter fun r => !isOwn accounts user r) = before.filter fun r => !isOwn accounts user r
  parsed : fileRanges file = some ranges

/-- Storable records are written exactly, where their ids are those that are wanted. -/
theorem StorableRanges.writesExactly {accounts : Accounts} {user : Bytes} {wanted : Set Nat} {before : List (Record SubordinateRange)}
    {db : Db SubordinateRange} {l : List Nat} {file written : Option Bytes} (h : StorableRanges (l.map db.record))
    (hread : readFile subordinateOps file = some before)
    (hwritten : readFile subordinateOps written = some ((l.map db.record).map subidStorage.again))
    (hids : idsOf (Owns accounts user) (entriesOf (l.map db.record)) = wanted)
    (hothers : ((l.map db.record).filter fun r => !isOwn accounts user r) = before.filter fun r => !isOwn accounts user r) :
    WritesExactly accounts user wanted before (entriesOf (l.map db.record)) written := by
  refine ⟨hids,⟨_,hwritten,h.again_others (subidStorage.record_line hread) hothers⟩,?_⟩
  rw [fileRanges,hwritten,Option.map_some,h.again_entries]

section Runs
variable {e : SubidEnv} {kind : IdKind} {user : Bytes} {db db' : Db SubordinateRange} {l : List Nat} {disk disk' : Disk}
  {records : List (Record SubordinateRange)}

theorem IdKind.file (kind : IdKind) : kind.filename = subuidFile ∨ kind.filename = subgidFile := by
  cases kind
  · exact .inl rfl
  · exact .inr rfl

private theorem subidRemove_eq (e : SubidEnv) (kind : IdKind) (user : Bytes) (db : Db SubordinateRange) (start : UInt32) (count : UInt64) :
    subidRemove e kind user db start count =
      if e.nss then some (false,db) else removeRange e.accounts e.memory db user start.toUInt64 count := by
  cases kind <;> rfl

/-- The last id of an interval that is not the whole, as the calls compute it. -/
theorem IdRange.stop_eq (hle : range.first ≤ range.last) (h : ¬ range.IsWhole) :
    range.first.toUInt64 + range.count.toUInt64 - 1 = range.last.toUInt64 ∧ range.count.toUInt64 ≠ 0 := by
  obtain ⟨hcount,hstop⟩ := IdRange.count_toNat hle h
  have hle := UInt32.le_iff_toNat_le.mp hle
  have hone : (1 : UInt64).toNat = 1 := rfl
  constructor
  · rw [← UInt64.toNat_inj,UInt64.toNat_sub,UInt64.toNat_add,UInt32.toNat_toUInt64,UInt32.toNat_toUInt64,
      UInt32.toNat_toUInt64,hone]
    omega
  · intro hzero
    have hzero := congrArg UInt64.toNat hzero
    rw [UInt32.toNat_toUInt64,show (0 : UInt64).toNat = 0 from rfl] at hzero
    omega

/-- The records after an interval was taken away: nothing is, where it is the whole. -/
def recordsWithout (e : SubidEnv) (user : Bytes) (range : IdRange) (records : List (Record SubordinateRange)) :
    List (Record SubordinateRange) :=
  if range.IsWhole then records
  else removedRecords e.accounts user range.first.toUInt64 range.last.toUInt64 records

private theorem subidRemove_spec (e : SubidEnv) (kind : IdKind) (user : Bytes) (hrep : Rep db l false) (hle : range.first ≤ range.last) :
    ∃ ok db', subidRemove e kind user db range.first range.count.toUInt64 = some (ok,db') ∧
      (ok = true → ∃ l', Rep db' l' false ∧ l'.map db'.record = recordsWithout e user range (l.map db.record) ∧
        (db'.isopen = db.isopen ∧ db'.readonly = db.readonly) ∧ (db'.changed = true ∨ db' = db ∧ l' = l)) := by
  rw [subidRemove_eq]
  unfold recordsWithout
  cases e.nss with
  | true => exact ⟨false,db,rfl,nofun⟩
  | false =>
    rw [if_neg Bool.false_ne_true]
    by_cases hwhole : range.IsWhole
    · rw [IdRange.count_whole hwhole,if_pos hwhole]
      exact ⟨true,db,rfl,fun _ => ⟨l,hrep,rfl,⟨rfl,rfl⟩,.inr ⟨rfl,rfl⟩⟩⟩
    · obtain ⟨hstop,hcount⟩ := IdRange.stop_eq hle hwhole
      have hspec := removeRange_spec e.accounts e.memory hrep user range.first.toUInt64 hcount
      rw [hstop] at hspec
      rw [if_neg hwhole]
      exact hspec

/-- The spelling of the user that a new range gets. -/
def storedOwner (e : SubidEnv) (kind : IdKind) (user : Bytes) : Bytes :=
  if getdefBool e.defs kind.storeByUid then
    match getpwUidOrNam e.accounts user with
    | some pw => numeral pw.uid.toNat
    | none => user
  else user

def newRange (e : SubidEnv) (kind : IdKind) (user : Bytes) (range : IdRange) : SubordinateRange :=
  ⟨storedOwner e kind user,range.first.toUInt64,range.count.toUInt64⟩

def userIds (e : SubidEnv) (user : Bytes) (records : List (Record SubordinateRange)) : Set Nat :=
  idsOf (Owns e.accounts user) (entriesOf records)

def IdRange.ids (range : IdRange) : Set Nat := Set.Icc range.first.toNat range.last.toNat

theorem isSameUser_storedOwner (hacc : e.accounts.Consistent) (hknown : (getpwUidOrNam e.accounts user).isSome) :
    isSameUser e.accounts (storedOwner e kind user) user = true := by
  obtain ⟨pw,hpw⟩ := Option.isSome_iff_exists.mp hknown
  unfold storedOwner
  split
  · rw [hpw]
    exact isSameUser_numeral hacc hpw
  · exact isSameUser_self hknown

/-- Whether the call finds the interval with the user: never where it is the whole. -/
theorem covered_iff (hle : range.first ≤ range.last) {ids : Set Nat} :
    (0 < range.count.toUInt64.toNat ∧
      Set.Ico range.first.toUInt64.toNat (range.first.toUInt64.toNat + range.count.toUInt64.toNat) ⊆ ids) ↔
        ¬ range.IsWhole ∧ range.ids ⊆ ids := by
  rw [UInt32.toNat_toUInt64,UInt32.toNat_toUInt64]
  by_cases hwhole : range.IsWhole
  · rw [IdRange.count_whole hwhole]
    exact ⟨fun h => absurd h.1 (lt_irrefl 0),fun h => absurd hwhole h.1⟩
  · obtain ⟨hcount,_⟩ := IdRange.count_toNat hle hwhole
    have hle := UInt32.le_iff_toNat_le.mp hle
    have hinterval : Set.Ico range.first.toNat (range.first.toNat + range.count.toNat) = range.ids := by
      ext id
      rw [IdRange.ids,Set.mem_Ico,Set.mem_Icc]
      omega
    rw [hinterval]
    exact ⟨fun h => ⟨hwhole,h.2⟩,fun h => ⟨by omega,h.2⟩⟩

private theorem subidAdd_spec (kind : IdKind) (hacc : e.accounts.Consistent) (hknown : (getpwUidOrNam e.accounts user).isSome)
    (hrep : Rep db l false) (hopen : db.isopen = true) (hwrap : NoneWraps (entriesOf (l.map db.record))) (memory : Bool)
    (hle : range.first ≤ range.last) :
    ∃ ok db', subidAdd kind e.accounts e.nss e.defs memory db user range.first range.count.toUInt64 = some (ok,db') ∧
      (ok = true →
        ((¬ range.IsWhole ∧ range.ids ⊆ userIds e user (l.map db.record)) ∧ MovedCursor db db' l) ∨
        (¬ (¬ range.IsWhole ∧ range.ids ⊆ userIds e user (l.map db.record)) ∧ db'.changed = true ∧
          (db'.isopen = db.isopen ∧ db'.readonly = db.readonly) ∧
          ∃ l', Rep db' l' false ∧
            l'.map db'.record = l.map db.record ++ [editedRecord none (newRange e kind user range)])) := by
  have hstop : range.first.toUInt64.toNat + range.count.toUInt64.toNat ≤ 2^64 := by
    have hfirst := range.first.toNat_lt
    have hcount := range.count.toNat_lt
    rw [UInt32.toNat_toUInt64,UInt32.toNat_toUInt64]
    omega
  have hadd : subidAdd kind e.accounts e.nss e.defs memory db user range.first range.count.toUInt64 =
      if e.nss then some (false,db)
      else addRange e.accounts kind.filename memory db (storedOwner e kind user) range.first.toUInt64 range.count.toUInt64 := by
    obtain ⟨pw,hpw⟩ := Option.isSome_iff_exists.mp hknown
    unfold subidAdd storedOwner
    rw [hpw]
    cases e.nss <;> cases getdefBool e.defs kind.storeByUid <;> rfl
  rw [hadd]
  cases e.nss with
  | true => exact ⟨false,db,rfl,nofun⟩
  | false =>
    rw [if_neg Bool.false_ne_true]
    obtain ⟨ok,db',hrun,hspec⟩ := addRange_spec (IdKind.file kind) hrep hopen hwrap memory
      (isSameUser_storedOwner hacc hknown) hstop
    refine ⟨ok,db',hrun,fun hok => ?_⟩
    rcases hspec hok with ⟨hpos,hsub,hmoved⟩ | ⟨hnot,hrest⟩
    · exact .inl ⟨(covered_iff hle).mp ⟨hpos,hsub⟩,hmoved⟩
    · exact .inr ⟨fun h => hnot ((covered_iff hle).mpr h),hrest⟩

/-- What is left of the ranges of the user fits the parser; all ids can only be taken from a user who has none. -/
def RemovalFits (e : SubidEnv) (user : Bytes) (range : IdRange) (records : List (Record SubordinateRange)) : Prop :=
  if range.IsWhole then userIds e user records = ∅
  else ∀ r ∈ entriesOf records, Owns e.accounts user r →
    ∀ piece ∈ leftOver range.first.toUInt64 range.last.toUInt64 r, (rangeLine piece).length < 1024

/-- The new range can be read back, or is not needed; all ids can only be given to a user who has them. -/
def AdditionFits (e : SubidEnv) (kind : IdKind) (user : Bytes) (range : IdRange) (records : List (Record SubordinateRange)) : Prop :=
  if range.IsWhole then range.ids ⊆ userIds e user records ∧ (newRange e kind user range).Text
  else range.ids ⊆ userIds e user records ∨ (newRange e kind user range).Text

private theorem userIds_lt (hread : readFile subordinateOps disk.file = some records) {id : Nat} (h : id ∈ userIds e user records) :
    id < 2^32 := by
  obtain ⟨r,hr,_,hid⟩ := h
  have hranges : fileRanges disk.file = some (entriesOf records) := by rw [fileRanges,hread]; rfl
  have hstop := (fileRanges_text hranges r hr).stop_le
  have hlt : id < r.start.toNat + r.count.toNat := hid.2
  omega

theorem IdRange.ids_whole (h : range.IsWhole) : range.ids = Set.Iio (2^32) := by
  ext id
  rw [IdRange.ids,h.1,h.2,Set.mem_Icc,Set.mem_Iio,show (0 : UInt32).toNat = 0 from rfl,
    show (4294967295 : UInt32).toNat = 4294967295 from rfl]
  omega

private theorem storableRanges_without (hread : readFile subordinateOps disk.file = some records)
    (hnonempty : ∀ r ∈ entriesOf records, r.count ≠ 0) (hfits : ¬ range.IsWhole → RemovalFits e user range records) :
    StorableRanges (recordsWithout e user range records) := by
  have hranges : fileRanges disk.file = some (entriesOf records) := by rw [fileRanges,hread]; rfl
  unfold recordsWithout
  split
  · exact StorableRanges.of_read hread
  · rename_i hwhole
    have hfits := hfits hwhole
    rw [RemovalFits,if_neg hwhole] at hfits
    intro record hrecord
    rcases removed_cases hrecord with hrecord | ⟨r,hr,hown,hch,piece,hpiece,heptr⟩
    · exact StorableRanges.of_read hread record hrecord
    · have htext := fileRanges_text hranges r hr
      have howner := leftOver_owner hpiece
      have hrereads := leftOver_rereads htext.toRereads (fun hzero => hnonempty r hr hzero.2) hpiece (hfits r hr hown piece hpiece)
      exact .inr ⟨piece,heptr,hch,hrereads,howner ▸ htext.notNis,howner ▸ htext.owner_newline,howner ▸ htext.owner_zero⟩

/-- Taking ids away: what the closed file says, by what the removal made of the records. -/
theorem removal_exact_iff (hread : readFile subordinateOps disk.file = some records)
    (hnonempty : ∀ r ∈ entriesOf records, r.count ≠ 0) (hle : range.first ≤ range.last) (hrep : Rep db l false)
    (hflags : db.isopen = true ∧ db.readonly = false) (hmap : l.map db.record = recordsWithout e user range records)
    (hchanged : db.changed = true ∨ l.map db.record = records)
    (hclose : (commonioClose e.selinux (plainCloseOps subordinatePut) e.steps db disk.file disk).1 = true) :
    WritesExactly e.accounts user (userIds e user records \ range.ids) records (entriesOf (l.map db.record))
        (commonioClose e.selinux (plainCloseOps subordinatePut) e.steps db disk.file disk).2.2.file ↔
      RemovalFits e user range records := by
  have hranges : fileRanges disk.file = some (entriesOf records) := by rw [fileRanges,hread]; rfl
  have hfirst : range.first.toUInt64.toNat = range.first.toNat := UInt32.toNat_toUInt64 _
  have hlast : range.last.toUInt64.toNat = range.last.toNat := UInt32.toNat_toUInt64 _
  have hle : range.first.toUInt64 ≤ range.last.toUInt64 := by
    rw [UInt64.le_iff_toNat_le,hfirst,hlast]
    exact UInt32.le_iff_toNat_le.mp hle
  constructor
  · intro h
    have htext := fileRanges_text h.parsed
    rw [hmap] at htext h
    unfold RemovalFits
    by_cases hwhole : range.IsWhole
    · rw [if_pos hwhole]
      have hids := h.ids
      rw [recordsWithout,if_pos hwhole,IdRange.ids_whole hwhole] at hids
      refine Set.eq_empty_iff_forall_notMem.mpr fun id hid => ?_
      have hout : id ∈ userIds e user records \ Set.Iio (2^32) := hids ▸ hid
      exact hout.2 (userIds_lt hread hid)
    · rw [if_neg hwhole]
      intro r hr hown piece hpiece
      refine (htext piece ?_).length_lt
      rw [recordsWithout,if_neg hwhole]
      exact mem_entriesOf_removed.mpr ⟨r,hr,by rwa [if_pos hown]⟩
  · intro hfits
    have hstorable : StorableRanges (l.map db.record) := hmap ▸ storableRanges_without hread hnonempty fun _ => hfits
    refine hstorable.writesExactly hread (hstorable.close hrep hflags hread hchanged rfl hclose) ?_ ?_
    · rw [hmap]
      unfold recordsWithout
      unfold RemovalFits at hfits
      by_cases hwhole : range.IsWhole
      · rw [if_pos hwhole] at hfits ⊢
        rw [hfits,Set.empty_sdiff]
        exact hfits
      · rw [if_neg hwhole]
        refine (removedRecords_ids hle fun r hr _ => ⟨?_,fun hzero => hnonempty r hr hzero.2⟩).trans ?_
        · have hstop := (fileRanges_text hranges r hr).stop_le
          omega
        · rw [hfirst,hlast]
          rfl
    · rw [hmap]
      unfold recordsWithout
      split
      · rfl
      · exact removedRecords_others

private theorem idsOf_append (P : SubordinateRange → Prop) (rs : List SubordinateRange) {r : SubordinateRange} (h : P r) :
    idsOf P (rs ++ [r]) = idsOf P rs ∪ r.ids := by
  ext id
  constructor
  · rintro ⟨r',hr',hP,hid⟩
    rcases List.mem_append.mp hr' with hr' | hr'
    · exact .inl ⟨r',hr',hP,hid⟩
    · exact .inr (List.mem_singleton.mp hr' ▸ hid)
  · rintro (⟨r',hr',hP,hid⟩ | hid)
    · exact ⟨r',List.mem_append_left _ hr',hP,hid⟩
    · exact ⟨r,by simp,h,hid⟩

private theorem newRange_ids (hle : range.first ≤ range.last) :
    (newRange e kind user range).ids = if range.IsWhole then ∅ else range.ids := by
  split
  · rename_i hwhole
    refine SubordinateRange.ids_of_count_zero ?_
    show range.count.toUInt64.toNat = 0
    rw [IdRange.count_whole hwhole]
    rfl
  · rename_i hwhole
    obtain ⟨hcount,_⟩ := IdRange.count_toNat hle hwhole
    have hle := UInt32.le_iff_toNat_le.mp hle
    ext id
    show range.first.toUInt64.toNat ≤ id ∧ id < range.first.toUInt64.toNat + range.count.toUInt64.toNat ↔ _
    rw [IdRange.ids,Set.mem_Icc,UInt32.toNat_toUInt64,UInt32.toNat_toUInt64]
    omega

/-- Giving ids: what the closed file says where a range was appended. -/
theorem addition_exact_iff (hacc : e.accounts.Consistent) (hknown : (getpwUidOrNam e.accounts user).isSome)
    (hread : readFile subordinateOps disk.file = some records) (hle : range.first ≤ range.last)
    (hnot : ¬ (¬ range.IsWhole ∧ range.ids ⊆ userIds e user records)) (hrep : Rep db l false)
    (hflags : db.isopen = true ∧ db.readonly = false)
    (hmap : l.map db.record = records ++ [editedRecord none (newRange e kind user range)]) (hchanged : db.changed = true)
    (hclose : (commonioClose e.selinux (plainCloseOps subordinatePut) e.steps db disk.file disk).1 = true) :
    WritesExactly e.accounts user (userIds e user records ∪ range.ids) records (entriesOf (l.map db.record))
        (commonioClose e.selinux (plainCloseOps subordinatePut) e.steps db disk.file disk).2.2.file ↔
      AdditionFits e kind user range records := by
  have hown : Owns e.accounts user (newRange e kind user range) := isSameUser_storedOwner hacc hknown
  have hentries : entriesOf (l.map db.record) = entriesOf records ++ [newRange e kind user range] := by
    rw [hmap,entriesOf,List.filterMap_append]
    rfl
  have hids : idsOf (Owns e.accounts user) (entriesOf (l.map db.record)) =
      userIds e user records ∪ if range.IsWhole then ∅ else range.ids := by
    rw [hentries,idsOf_append _ _ hown,newRange_ids hle]
    rfl
  constructor
  · intro h
    have htext : (newRange e kind user range).Text := by
      refine fileRanges_text h.parsed _ ?_
      rw [hentries]
      simp
    unfold AdditionFits
    by_cases hwhole : range.IsWhole
    · rw [if_pos hwhole]
      have hwanted := h.ids
      rw [hids,if_pos hwhole,Set.union_empty] at hwanted
      exact ⟨hwanted ▸ Set.subset_union_right,htext⟩
    · rw [if_neg hwhole]
      exact .inr htext
  · intro hfits
    have hboth : (newRange e kind user range).Text ∧
        (userIds e user records ∪ if range.IsWhole then ∅ else range.ids) = userIds e user records ∪ range.ids := by
      unfold AdditionFits at hfits
      by_cases hwhole : range.IsWhole
      · rw [if_pos hwhole] at hfits ⊢
        exact ⟨hfits.2,by rw [Set.union_empty,Set.union_eq_left.mpr hfits.1]⟩
      · rw [if_neg hwhole] at hfits ⊢
        exact ⟨hfits.resolve_left fun hsub => hnot ⟨hwhole,hsub⟩,rfl⟩
    have hstorable : StorableRanges (l.map db.record) := by
      rw [hmap]
      intro record hrecord
      rcases List.mem_append.mp hrecord with hrecord | hrecord
      · exact StorableRanges.of_read hread record hrecord
      · rw [List.mem_singleton.mp hrecord]
        exact .inr ⟨_,rfl,rfl,hboth.1⟩
    refine hstorable.writesExactly hread (hstorable.close hrep hflags hread (.inl hchanged) rfl hclose) (hids.trans hboth.2) ?_
    have hisOwn : isOwn e.accounts user (editedRecord none (newRange e kind user range)) = true := hown
    rw [hmap,List.filter_append,List.filter_cons_of_neg (by simp [hisOwn]),List.filter_nil,List.append_nil]

/-- Where the user has the ids, nothing is written. -/
theorem covered_exact (hread : readFile subordinateOps disk.file = some records)
    (hcovered : range.ids ⊆ userIds e user records) (hrep : Rep db l false)
    (hflags : db.isopen = true ∧ db.readonly = false) (hmap : l.map db.record = records)
    (hclose : (commonioClose e.selinux (plainCloseOps subordinatePut) e.steps db disk.file disk).1 = true) :
    WritesExactly e.accounts user (userIds e user records ∪ range.ids) records (entriesOf (l.map db.record))
      (commonioClose e.selinux (plainCloseOps subordinatePut) e.steps db disk.file disk).2.2.file := by
  have hstorable : StorableRanges (l.map db.record) := hmap ▸ StorableRanges.of_read hread
  refine hstorable.writesExactly hread (hstorable.close hrep hflags hread (.inr hmap) rfl hclose) ?_ (by rw [hmap])
  rw [hmap,Set.union_eq_left.mpr hcovered]
  rfl

/-- What holds of every run that succeeds, by what the two loops do to the database that was opened. -/
theorem usermodSubids_run {del add : List IdRange} {P : Db SubordinateRange → Option Bytes → Prop}
    (h : ∀ db, commonioOpen subordinateOps { closedRanges with locked := true } .rdwr true (fileState disk.file) e.openMemory =
      (true,db) → ∃ result : Except Exit (Db SubordinateRange), (match removeSubids e kind user del db with
          | .error exit => .error exit
          | .ok db => addSubids e kind user add db) = result ∧ result ≠ .error .endless ∧
        ∀ db', result = .ok db' →
          (commonioClose e.selinux (plainCloseOps subordinatePut) e.steps db' disk.file disk).1 = true →
            P db' (commonioClose e.selinux (plainCloseOps subordinatePut) e.steps db' disk.file disk).2.2.file) :
    usermodSubids e kind user del add disk ≠ .error .endless ∧
      ∀ db disk', usermodSubids e kind user del add disk = .ok (db,disk') → P db disk'.file := by
  have hfail : subidFailure kind ≠ .endless := by cases kind <;> nofun
  have hstatus : ∀ exit : Exit, exit ≠ .endless →
      ((.error exit : Except Exit (Db SubordinateRange × Disk)) ≠ .error .endless ∧
        ∀ db disk', (.error exit : Except Exit (Db SubordinateRange × Disk)) = .ok (db,disk') → P db disk'.file) :=
    fun exit hexit => ⟨fun heq => hexit (Except.error.inj heq),nofun⟩
  unfold usermodSubids
  by_cases hwant : (!wantSubidFile e kind || disk.file.isNone) = true
  · rw [if_pos hwant]
    exact hstatus _ nofun
  rw [if_neg hwant]
  by_cases hlock : (!e.lock) = true
  · rw [if_pos hlock]
    exact hstatus _ hfail
  rw [if_neg hlock]
  rcases hopen : commonioOpen subordinateOps { closedRanges with locked := true } .rdwr true (fileState disk.file) e.openMemory with
    ⟨_ | _,db₀⟩
  · exact hstatus _ hfail
  · obtain ⟨result,hrun,hends,hspec⟩ := h db₀ hopen
    dsimp only
    cases hremove : removeSubids e kind user del db₀ with
    | error exit =>
      rw [hremove] at hrun
      refine hstatus exit fun heq => hends ?_
      rw [← hrun,heq]
    | ok db₁ =>
      rw [hremove] at hrun
      dsimp only at hrun ⊢
      rw [hrun]
      cases result with
      | error exit => exact hstatus exit fun heq => hends (by rw [heq])
      | ok db =>
        have hspec := hspec db rfl
        dsimp only
        rcases hclose : commonioClose e.selinux (plainCloseOps subordinatePut) e.steps db disk.file disk with ⟨_ | _,db',disk'⟩
        · exact hstatus _ hfail
        · rw [hclose] at hspec
          refine ⟨nofun,fun db'' disk'' heq => ?_⟩
          cases heq
          exact hspec rfl

/-- With one accepted argument, giving or taking ids of either kind changes exactly the ids of the
argument, and the file says so, just where the conditions on the argument and the old file hold. -/
theorem usermod_subids_exact_iff (e : SubidEnv) (kind : IdKind) (user : Bytes) (hacc : e.accounts.Consistent)
    (hknown : (getpwUidOrNam e.accounts user).isSome) (hread : readFile subordinateOps disk.file = some records)
    (hnonempty : ∀ r ∈ entriesOf records, r.count ≠ 0) {memory : Bool} {str : Bytes} {ranges : List IdRange}
    (harg : prependRange memory str [] = some ranges) :
    (usermodSubids e kind user [] ranges disk ≠ .error .endless ∧
      ∀ db disk', usermodSubids e kind user [] ranges disk = .ok (db,disk') →
        (WritesExactly e.accounts user (userIds e user records ∪ (getidRange str).ids) records (Db.ranges db) disk'.file ↔
          AdditionFits e kind user (getidRange str) records)) ∧
    (usermodSubids e kind user ranges [] disk ≠ .error .endless ∧
      ∀ db disk', usermodSubids e kind user ranges [] disk = .ok (db,disk') →
        (WritesExactly e.accounts user (userIds e user records \ (getidRange str).ids) records (Db.ranges db) disk'.file ↔
          RemovalFits e user (getidRange str) records)) := by
  obtain ⟨rfl,hle⟩ := prependRange_le harg
  have hopened : ∀ db, commonioOpen subordinateOps { closedRanges with locked := true } .rdwr true (fileState disk.file)
      e.openMemory = (true,db) → ∃ l, Kept subidStorage disk.file db l ∧ l.map db.record = records := fun db hopen => by
    obtain ⟨l,hkept,hread',_⟩ := commonioOpen_kept (s := subidStorage) hopen
    exact ⟨l,hkept,Option.some.inj (hread'.symm.trans hread)⟩
  have hwrap : NoneWraps (entriesOf records) := noneWraps_of_fits fun r hr =>
    (fileRanges_text (show fileRanges disk.file = some (entriesOf records) by rw [fileRanges,hread]; rfl) r hr).toFits
  constructor
  · refine usermodSubids_run (P := fun db file => WritesExactly e.accounts user
      (userIds e user records ∪ (getidRange str).ids) records (Db.ranges db) file ↔ AdditionFits e kind user (getidRange str) records)
      fun db hopen => ?_
    obtain ⟨l,hkept,hrecords⟩ := hopened db hopen
    obtain ⟨ok,db',hrun,hspec⟩ := subidAdd_spec kind hacc hknown hkept.rep hkept.isopen (hrecords ▸ hwrap)
      (e.memory db.fresh) hle
    simp only [removeSubids,addSubids,hrun]
    cases ok with
    | false => exact ⟨_,rfl,by cases kind <;> (intro h; cases h),(by intros; contradiction)⟩
    | true =>
      refine ⟨_,rfl,(by intro h; cases h),fun db'' heq hclose => ?_⟩
      cases heq
      rw [hrecords] at hspec
      rcases hspec rfl with ⟨⟨hwhole,hcovered⟩,hmoved⟩ | ⟨hnot,hchanged,hflags,l',hrep',hmap⟩
      · have hrep' := hmoved.rep hkept.rep
        have hmap : l.map db'.record = records := by rw [hmoved.record,hrecords]
        have hflags := hmoved.flags
        rw [← entriesOf_of_holds ⟨l,false,hrep',rfl⟩]
        refine ⟨fun _ => ?_,fun _ => covered_exact hread hcovered hrep'
          ⟨hflags.1.trans hkept.isopen,hflags.2.1.trans hkept.writable⟩ hmap hclose⟩
        rw [AdditionFits,if_neg hwhole]
        exact .inl hcovered
      · rw [← entriesOf_of_holds ⟨l',false,hrep',rfl⟩]
        exact addition_exact_iff hacc hknown hread hle hnot hrep'
          ⟨hflags.1.trans hkept.isopen,hflags.2.trans hkept.writable⟩ hmap hchanged hclose
  · refine usermodSubids_run (P := fun db file => WritesExactly e.accounts user
      (userIds e user records \ (getidRange str).ids) records (Db.ranges db) file ↔ RemovalFits e user (getidRange str) records)
      fun db hopen => ?_
    obtain ⟨l,hkept,hrecords⟩ := hopened db hopen
    obtain ⟨ok,db',hrun,hspec⟩ := subidRemove_spec e kind user hkept.rep hle
    simp only [removeSubids,hrun]
    cases ok with
    | false => exact ⟨_,rfl,by cases kind <;> (intro h; cases h),(by intros; contradiction)⟩
    | true =>
      refine ⟨_,rfl,(by intro h; cases h),fun db'' heq hclose => ?_⟩
      cases heq
      obtain ⟨l',hrep',hmap,hflags,hchanged⟩ := hspec rfl
      rw [← entriesOf_of_holds ⟨l',false,hrep',rfl⟩]
      refine removal_exact_iff hread hnonempty hle hrep'
        ⟨hflags.1.trans hkept.isopen,hflags.2.trans hkept.writable⟩ (hrecords ▸ hmap) ?_ hclose
      rcases hchanged with hchanged | ⟨rfl,rfl⟩
      · exact .inl hchanged
      · exact .inr hrecords

end Runs

def oneAccount : Passwd := ⟨ascii "u",[120],1000,1000,[],[],[]⟩

def oneUser : Accounts where
  getpwuid uid := if uid = 1000 then some oneAccount else none
  getpwnam name := if name = ascii "u" then some oneAccount else none

private theorem oneUser_consistent : oneUser.Consistent where
  uid uid pw h := by
    simp only [oneUser] at h
    split at h
    · rename_i huid
      rw [← Option.some.inj h,huid]
      rfl
    · cases h
  name name pw h := by
    simp only [oneUser] at h
    split at h
    · rw [← Option.some.inj h]
      rfl
    · cases h

def plainSubidEnv : SubidEnv := ⟨oneUser,false,fun _ => none,true,true,fun _ => true,false,allSteps⟩

def oneRange : Disk := ⟨some (ascii "u:100:50\n"),none⟩

def oneRangeRecords : List (Record SubordinateRange) := [⟨some (ascii "u:100:50"),some ⟨ascii "u",100,50⟩,false⟩]

/-- What a run leaves: the ranges in memory, and the file. -/
def outcome (result : Except Exit (Db SubordinateRange × Disk)) : Option (List SubordinateRange × Option Bytes) :=
  result.toOption.map fun out => (Db.ranges out.1,out.2.file)

theorem outcome_eq_some {result : Except Exit (Db SubordinateRange × Disk)} {ranges : List SubordinateRange} {file : Option Bytes}
    (h : outcome result = some (ranges,file)) : ∃ db disk, result = .ok (db,disk) ∧ Db.ranges db = ranges ∧ disk.file = file := by
  cases result with
  | error exit => cases h
  | ok out =>
    cases h
    exact ⟨out.1,out.2,rfl,rfl,rfl⟩

/-- Ids at the end of a range, and ids within it. -/
theorem usermod_subids_exact_middle :
    (∃ db disk, usermodSubids plainSubidEnv .uid (ascii "u") [] [⟨140,159⟩] oneRange = .ok (db,disk) ∧
      disk.file = some (ascii "u:100:50\nu:140:20\n") ∧
      WritesExactly oneUser (ascii "u") (userIds plainSubidEnv (ascii "u") oneRangeRecords ∪ Set.Icc 140 159) oneRangeRecords
        (Db.ranges db) disk.file) ∧
    ∃ db disk, usermodSubids plainSubidEnv .gid (ascii "u") [⟨110,119⟩] [] oneRange = .ok (db,disk) ∧
      disk.file = some (ascii "u:100:10\nu:120:30\n") ∧
      WritesExactly oneUser (ascii "u") (userIds plainSubidEnv (ascii "u") oneRangeRecords \ Set.Icc 110 119) oneRangeRecords
        (Db.ranges db) disk.file := by
  have hread : readFile subordinateOps oneRange.file = some oneRangeRecords := rfl
  have hadded := (usermod_subids_exact_iff plainSubidEnv .uid (ascii "u") oneUser_consistent (by decide +kernel) hread
    (by decide +kernel) (show prependRange true (ascii "140-159") [] = some [⟨140,159⟩] by decide +kernel)).1.2
  have hremoved := (usermod_subids_exact_iff plainSubidEnv .gid (ascii "u") oneUser_consistent (by decide +kernel) hread
    (by decide +kernel) (show prependRange true (ascii "110-119") [] = some [⟨110,119⟩] by decide +kernel)).2.2
  obtain ⟨db,disk,hrun,_,hfile⟩ := outcome_eq_some (show
    outcome (usermodSubids plainSubidEnv .uid (ascii "u") [] [⟨140,159⟩] oneRange) =
      some ([⟨ascii "u",100,50⟩,⟨ascii "u",140,20⟩],some (ascii "u:100:50\nu:140:20\n")) by decide +kernel)
  obtain ⟨db',disk',hrun',_,hfile'⟩ := outcome_eq_some (show
    outcome (usermodSubids plainSubidEnv .gid (ascii "u") [⟨110,119⟩] [] oneRange) =
      some ([⟨ascii "u",100,10⟩,⟨ascii "u",120,30⟩],some (ascii "u:100:10\nu:120:30\n")) by decide +kernel)
  refine ⟨⟨db,disk,hrun,hfile,(hadded db disk hrun).mpr (.inr ?_)⟩,db',disk',hrun',hfile',(hremoved db' disk' hrun').mpr ?_⟩
  · exact ⟨⟨⟨by decide,by decide,by decide⟩,by decide,by decide,by decide +kernel⟩,by decide,by decide,by decide⟩
  · exact (by decide +kernel : ∀ r ∈ entriesOf oneRangeRecords, Owns oneUser (ascii "u") r →
      ∀ piece ∈ leftOver 110 119 r, (rangeLine piece).length < 1024)

/-- All ids are counted as none: the whole interval is neither given nor taken away. -/
theorem whole_interval_is_lost : prependRange true (ascii "0-4294967295") [] = some [⟨0,4294967295⟩] ∧
    (∃ db disk, usermodSubids plainSubidEnv .uid (ascii "u") [] [⟨0,4294967295⟩] oneRange = .ok (db,disk) ∧
      disk.file = some (ascii "u:100:50\nu:0:0\n") ∧
      ¬ WritesExactly oneUser (ascii "u") (userIds plainSubidEnv (ascii "u") oneRangeRecords ∪ Set.Icc 0 4294967295)
        oneRangeRecords (Db.ranges db) disk.file) ∧
    ∃ db disk, usermodSubids plainSubidEnv .uid (ascii "u") [⟨0,4294967295⟩] [] oneRange = .ok (db,disk) ∧
      disk.file = oneRange.file ∧
      ¬ WritesExactly oneUser (ascii "u") (userIds plainSubidEnv (ascii "u") oneRangeRecords \ Set.Icc 0 4294967295)
        oneRangeRecords (Db.ranges db) disk.file := by
  obtain ⟨db,disk,hrun,hranges,hfile⟩ := outcome_eq_some (show
    outcome (usermodSubids plainSubidEnv .uid (ascii "u") [] [⟨0,4294967295⟩] oneRange) =
      some ([⟨ascii "u",100,50⟩,⟨ascii "u",0,0⟩],some (ascii "u:100:50\nu:0:0\n")) by decide +kernel)
  obtain ⟨db',disk',hrun',hranges',hfile'⟩ := outcome_eq_some (show
    outcome (usermodSubids plainSubidEnv .uid (ascii "u") [⟨0,4294967295⟩] [] oneRange) =
      some ([⟨ascii "u",100,50⟩],oneRange.file) by decide +kernel)
  refine ⟨by decide +kernel,⟨db,disk,hrun,hfile,fun h => ?_⟩,db',disk',hrun',hfile',fun h => ?_⟩
  · have hzero : 0 ∈ idsOf (Owns oneUser (ascii "u")) (Db.ranges db) := h.ids ▸ .inr ⟨le_rfl,by omega⟩
    rw [hranges] at hzero
    obtain ⟨r,hr,_,hid⟩ := hzero
    simp only [List.mem_cons,List.not_mem_nil,or_false] at hr
    rcases hr with rfl | rfl
    · exact absurd hid.1 (show ¬ 100 ≤ 0 by omega)
    · exact absurd hid.2 (show ¬ 0 < 0 + 0 by omega)
  · have hhundred : 100 ∈ idsOf (Owns oneUser (ascii "u")) (Db.ranges db') := by
      rw [hranges']
      exact ⟨_,List.mem_singleton_self _,by decide +kernel,show 100 ≤ 100 ∧ 100 < 100 + 50 by omega⟩
    rw [h.ids] at hhundred
    exact hhundred.2 ⟨by omega,by omega⟩

end UserDb.Programs
