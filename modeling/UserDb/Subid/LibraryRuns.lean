import UserDb.Subid.Grant
import UserDb.Subid.Holders

/-! Whole runs of grants and releases in one process, between which others may replace the files: what
a call leaves of the process, and how what it answers and the file agree. -/
namespace UserDb.Subid
open UserDb.Base UserDb.Commonio

/-- The ranges that a file shows. -/
def rangesOn (disk : Disk) : List SubordinateRange := (fileRanges disk.file).getD []

/-- No line of the file starts like a NIS line. -/
def PlainLines (disk : Disk) : Prop :=
  ∀ records, readFile subordinateOps disk.file = some records → ∀ record ∈ records, nameIsNis (record.line.getD []) = false

/-- The file has no empty range at zero, which a removal would take for the whole word. -/
def NothingAtZero (disk : Disk) : Prop := ∀ r ∈ rangesOn disk, ¬ (r.start = 0 ∧ r.count = 0)

/-- A sort in a call puts all ranges of the file in order: it has its memory, no NIS line stops it,
and the library's sort leaves nothing in front of an entry that the comparison puts below it. -/
structure SortsFile (e : LibraryEnv) (disk : Disk) : Prop where
  memory : e.sortMemory = true
  lines : PlainLines disk
  sorts : ∀ (db : Db SubordinateRange) (l : List Nat), SortedBy (fun p q => subordinateRangeCmp (db.entries p) (db.entries q))
    (e.qsort.run (fun p q => subordinateRangeCmp (db.entries p) (db.entries q)) l)

/-- A range that is asked for. With a newline in its owner the file would get further lines. -/
structure RangeRequest extends SubordinateRange where
  line : IsLine owner

/-- What a grant does to a file: its answer, the range it fills in, and whether the database stays open. -/
inductive GrantEffect (e : LibraryEnv) (range : SubordinateRange) (reuse : Bool) (disk disk' : Disk) :
    Bool → SubordinateRange → Bool → Prop
  | refused {new : SubordinateRange} (filled : ∃ start, new = { range with start := start })
      (same : (rangesOn disk').Perm (rangesOn disk)) (plain : nameIsNis range.owner = false → PlainLines disk → PlainLines disk') :
      GrantEffect e range reuse disk disk' false new false
  | reused {r : SubordinateRange} (asked : reuse = true) (recorded : r ∈ rangesOn disk)
      (own : isSameUser e.accounts r.owner range.owner = true) (enough : range.count ≤ r.count) (same : disk' = disk) :
      GrantEffect e range reuse disk disk' true { range with start := r.start, count := r.count } true
  | added {new : SubordinateRange} (nonempty : range.count ≠ 0) (filled : ∃ start : UInt32, new = { range with start := start.toUInt64 })
      (file : (rangesOn disk').Perm (rangesOn disk) ∨ new.Text ∧ (rangesOn disk').Perm (rangesOn disk ++ [new]))
      (recorded : Replaces e.selinux e.steps disk.file → new.Text →
        new.ids ⊆ idsOf (Authorizes e.accounts range.owner) (rangesOn disk'))
      (lowest : SortsFile e disk → new.Fits →
        IsFreeBlock (rangesOn disk) range.start.toUInt32.toNat (2^32 - 1) range.count.toNat new.start.toNat ∧
          ∀ block < new.start.toNat,
            ¬ IsFreeBlock (rangesOn disk) range.start.toUInt32.toNat (2^32 - 1) range.count.toNat block)
      (plain : nameIsNis range.owner = false → PlainLines disk → PlainLines disk') :
      GrantEffect e range reuse disk disk' true new false

/-- What a release does to a file: nothing to the ranges of other users, and nobody gets an id. Where it
answers that it removed the interval, the user has no id of it. -/
structure ReleaseEffect (e : LibraryEnv) (range : SubordinateRange) (disk disk' : Disk) (ok : Bool) : Prop where
  others : (rangesOn disk').filter (fun r => !isSameUser e.accounts r.owner range.owner) =
    (rangesOn disk).filter fun r => !isSameUser e.accounts r.owner range.owner
  holders : range.start.toNat + range.count.toNat ≤ 2^64 → NoneAtZero e.accounts range.owner (rangesOn disk) →
    ∀ id, holders id (rangesOn disk') ≤ holders id (rangesOn disk)
  plain : PlainLines disk → PlainLines disk'
  nonzero : NothingAtZero disk → NothingAtZero disk'
  removed : ok = true → Replaces e.selinux e.steps disk.file → range.start.toNat + range.count.toNat ≤ 2^64 →
    NoneAtZero e.accounts range.owner (rangesOn disk) →
      Disjoint range.ids (idsOf (Owns e.accounts range.owner) (rangesOn disk'))

section Edits
variable {e : LibraryEnv} {kind : IdKind} {db db' : Db SubordinateRange} {l : List Nat} {disk : Disk} {range : SubordinateRange}
  {filename owner : Bytes}

theorem Opened.wereRead (h : Opened disk db l) : WereRead (l.map db.record) := subidStorage.record_line h.read

theorem Opened.ranges (h : Opened disk db l) : rangesOn disk = entriesOf (l.map db.record) := by
  rw [rangesOn,fileRanges,h.read]
  rfl

/-- The ranges of the file after closing: those of before, or those that are left of the records. -/
theorem Editing.closed_ranges (h : Editing db l) (disk : Disk) :
    rangesOn (commonioClose e.selinux (plainCloseOps subordinatePut) e.steps db disk.file disk).2.2 = rangesOn disk ∨
      rangesOn (commonioClose e.selinux (plainCloseOps subordinatePut) e.steps db disk.file disk).2.2 =
        entriesOf ((l.map db.record).map subidStorage.again) := by
  rcases h.close e.selinux e.steps disk.file disk with hsame | hwritten
  · left
    unfold rangesOn
    rw [hsame]
  · right
    rw [rangesOn,fileRanges,hwritten]
    rfl

theorem Editing.closed_replaced (h : Editing db l) (disk : Disk) (hchanged : db.changed = true)
    (hsteps : Replaces e.selinux e.steps disk.file) :
    rangesOn (commonioClose e.selinux (plainCloseOps subordinatePut) e.steps db disk.file disk).2.2 =
      entriesOf ((l.map db.record).map subidStorage.again) := by
  rw [rangesOn,fileRanges,h.close_replaces disk hchanged hsteps]
  rfl

private theorem closed_unchanged (disk : Disk) (hchanged : db.changed = false) :
    rangesOn (commonioClose e.selinux (plainCloseOps subordinatePut) e.steps db disk.file disk).2.2 = rangesOn disk := by
  rw [commonioClose_unchanged _ hchanged]

theorem lineOf_edited (line : Option Bytes) (r : SubordinateRange) : lineOf (editedRecord line r) = rangeLine r := rfl

theorem nameIsNis_rangeLine (r : SubordinateRange) : nameIsNis (rangeLine r) = nameIsNis r.owner := fieldsLine_notNis _ _ _

/-- Closing a database whose lines are no NIS lines. -/
theorem Editing.closed_plain (h : Editing db l) (hplain : PlainLines disk)
    (hlines : ∀ record ∈ l.map db.record, nameIsNis (lineOf record) = false) :
    PlainLines (commonioClose e.selinux (plainCloseOps subordinatePut) e.steps db disk.file disk).2.2 := by
  intro records hread record hrecord
  rcases h.close e.selinux e.steps disk.file disk with hsame | hwritten
  · rw [hsame] at hread
    exact hplain records hread record hrecord
  · rw [hwritten] at hread
    obtain rfl := Option.some.inj hread
    obtain ⟨old,hold,rfl⟩ := List.mem_map.mp hrecord
    exact hlines old hold

theorem WereRead.plain {records : List (Record SubordinateRange)} (h : WereRead records)
    (hplain : ∀ record ∈ records, nameIsNis (record.line.getD []) = false) :
    ∀ record ∈ records, nameIsNis (lineOf record) = false := by
  intro record hrecord
  have hline := hplain record hrecord
  obtain ⟨line,_,rfl⟩ := h record hrecord
  exact hline

theorem ReleaseEffect.refl (hok : Bool) (hfalse : hok = false) : ReleaseEffect e range disk disk hok := by
  refine ⟨rfl,fun _ _ id => le_rfl,id,id,fun h => ?_⟩
  rw [hfalse] at h
  cases h

/-- A removal in an open database, and its file after closing. -/
theorem Opened.removeRange (h : Opened disk db l) (range : SubordinateRange) :
    ∃ ok db', removeRange e.accounts e.entryMemory db range.owner range.start range.count = some (ok,db') ∧
      SameMode db db' ∧ ReleaseEffect e range disk
        (commonioClose e.selinux (plainCloseOps subordinatePut) e.steps db' disk.file disk).2.2 ok := by
  by_cases hcount : range.count = 0
  · refine ⟨true,db,?_,.refl db,?_⟩
    · rw [Subid.removeRange,if_pos hcount]
    · have hsame : rangesOn (commonioClose e.selinux (plainCloseOps subordinatePut) e.steps db disk.file disk).2.2 = rangesOn disk :=
        closed_unchanged disk h.unchanged
      refine ⟨by rw [hsame],fun _ _ id => by rw [hsame],fun hplain => ?_,fun hzero => ?_,fun _ _ _ _ => ?_⟩
      · exact h.toEditing.closed_plain hplain (h.wereRead.plain (hplain _ h.read))
      · unfold NothingAtZero
        rwa [hsame]
      rw [SubordinateRange.ids_of_count_zero (by rw [hcount]; rfl)]
      exact Set.empty_disjoint _
  · obtain ⟨ok,db',l',done,rest,hrun,hrep,hthinned,hchanged⟩ :=
      removeRange_thins e.accounts e.entryMemory h.rep range.owner range.start hcount
    have hmode := removeRange_mode hrun
    have hediting : Editing db' l' := ⟨hrep.chained,hmode.isopen.trans h.isopen,hmode.readonly.trans h.writable,hthinned.lined h.wereRead⟩
    have hsublist := entriesOf_again_sublist (hthinned.lined h.wereRead)
    have hfits : ∀ r ∈ entriesOf (l.map db.record), r.Fits := fun r hr => (h.wereRead.text hr).toFits
    have hpos : 0 < range.count.toNat := by
      by_contra hzero
      exact hcount (UInt64.toNat_inj.mp (by simpa using hzero))
    have hlast : range.start.toNat + range.count.toNat ≤ 2^64 →
        (range.start + range.count - 1).toNat = range.start.toNat + range.count.toNat - 1 :=
      fun hstop => SubordinateRange.last_of_pos (r := range) hpos hstop
    have hle : range.start.toNat + range.count.toNat ≤ 2^64 → range.start ≤ range.start + range.count - 1 := fun hstop => by
      rw [UInt64.le_iff_toNat_le,hlast hstop]
      omega
    refine ⟨ok,db',hrun,hmode,⟨?_,fun hstop hzero id => ?_,fun hplain => ?_,fun hzero => ?_,fun hok hsteps hstop hzero => ?_⟩⟩
    · rcases hediting.closed_ranges disk with hsame | hwritten
      · rw [hsame]
      · rw [hwritten,h.ranges]
        exact hthinned.others_again h.wereRead
    · rcases hediting.closed_ranges disk with hsame | hwritten
      · rw [hsame]
      · rw [hwritten,h.ranges]
        rw [h.ranges] at hzero
        exact (holders_sublist hsublist id).trans (hthinned.holders_le (hle hstop) (noneWraps_of_fits hfits) hzero id)
    · refine hediting.closed_plain hplain ?_
      intro record hrecord
      rcases hthinned.cases hrecord with hold | ⟨r,hr,_,hch,piece,hpiece,heptr⟩
      · exact h.wereRead.plain (hplain _ h.read) record hold
      · have hline : lineOf record = rangeLine piece := by
          rw [lineOf,hch,if_pos rfl,heptr]
          rfl
        rw [hline,nameIsNis_rangeLine,leftOver_owner hpiece]
        exact (h.wereRead.text hr).notNis
    · unfold NothingAtZero at hzero ⊢
      rcases hediting.closed_ranges disk with hsame | hwritten
      · rwa [hsame]
      · rw [hwritten]
        rw [h.ranges] at hzero
        intro r hr
        obtain ⟨record,hrecord,heptr⟩ := List.mem_filterMap.mp (hsublist.subset hr)
        rcases hthinned.cases hrecord with hold | ⟨old,hold,_,_,piece,hpiece,hnew⟩
        · exact hzero r (List.mem_filterMap.mpr ⟨record,hold,heptr⟩)
        · obtain rfl := Option.some.inj (hnew.symm.trans heptr)
          exact leftOver_nonzero (hzero old hold) hpiece
    · rw [h.ranges] at hzero
      have hrest := hthinned.whole hok
      have hranges : ∀ r ∈ entriesOf (l.map db.record), Owns e.accounts range.owner r →
          r.start.toNat + r.count.toNat ≤ 2^64 ∧ ¬ (r.start = 0 ∧ r.count = 0) := by
        intro r hr hown
        have hend := (hfits r hr).stop_le
        exact ⟨by omega,hzero r hr hown⟩
      have hafter : l'.map db'.record = removedRecords e.accounts range.owner range.start (range.start + range.count - 1)
        (l.map db.record) := by
        rw [hthinned.after,hthinned.before,hrest,List.append_nil,List.append_nil]
        rfl
      have hids := removedRecords_ids (hle hstop) hranges
      rw [← hafter] at hids
      have hfile : (rangesOn (commonioClose e.selinux (plainCloseOps subordinatePut) e.steps db' disk.file disk).2.2).Sublist
          (entriesOf (l'.map db'.record)) := by
        rcases hchanged with hchanged | ⟨rfl,rfl⟩
        · rw [hediting.closed_replaced disk hchanged hsteps]
          exact hsublist
        · rw [closed_unchanged disk h.unchanged,h.ranges]
      apply Set.disjoint_left.mpr
      rintro id hid ⟨r,hr,hown,hmem⟩
      have hleft : id ∈ idsOf (Owns e.accounts range.owner) (entriesOf (l'.map db'.record)) := ⟨r,hfile.subset hr,hown,hmem⟩
      rw [hids] at hleft
      refine hleft.2 ⟨hid.1,?_⟩
      have hlt : id < range.start.toNat + range.count.toNat := hid.2
      rw [hlast hstop]
      omega

theorem Editing.moved (h : Editing db l) (hmoved : MovedCursor db db' l) : Editing db' l := by
  refine ⟨hmoved.chained h.toChained,hmoved.flags.1.trans h.isopen,hmoved.flags.2.1.trans h.writable,?_⟩
  rw [hmoved.record]
  exact h.lined

theorem Opened.moved (h : Opened disk db l) (hmoved : MovedCursor db db' l) : Opened disk db' l := by
  refine ⟨h.toEditing.moved hmoved,hmoved.rep h.rep,hmoved.flags.2.2.1.trans h.unchanged,?_⟩
  rw [hmoved.record]
  exact h.read

/-- The search for a range to reuse, or the rewinding in its place. -/
theorem Opened.search (h : Opened disk db l) (reuse : Bool) {found : Option SubordinateRange}
    (hrun : (if reuse then findReusable e range db else (none,(commonioRewind db).2)) = (found,db')) :
    Opened disk db' l ∧ ∀ r, found = some r →
      reuse = true ∧ r ∈ rangesOn disk ∧ isSameUser e.accounts r.owner range.owner = true ∧ range.count ≤ r.count := by
  cases reuse with
  | false =>
    rw [if_neg Bool.false_ne_true] at hrun
    cases hrun
    refine ⟨h.moved ⟨none,?_,(by intros; contradiction)⟩,(by intros; contradiction)⟩
    unfold commonioRewind
    rw [h.isopen]
    rfl
  | true =>
    rw [if_pos rfl] at hrun
    obtain ⟨hfind,hmoved⟩ := h.toChain.searchEntry_eq
      (fun r => isSameUser e.accounts r.owner range.owner && decide (range.count ≤ r.count)) h.isopen
    unfold findReusable at hrun
    rw [hrun] at hfind hmoved
    refine ⟨h.moved hmoved,fun r hr => ?_⟩
    have hfound := hfind.symm.trans hr
    have htest := List.find?_some hfound
    rw [Bool.and_eq_true,decide_eq_true_eq] at htest
    rw [h.ranges]
    exact ⟨rfl,List.mem_of_find?_eq_some hfound,htest.1,htest.2⟩

/-- An interval whose end is behind the last word is found covered at once, or not at all. -/
theorem haveRange_returns (accounts : Accounts) (hfile : filename = subuidFile ∨ filename = subgidFile)
    (hwrap : NoneWraps (entriesOf (l.map db.record))) (hchain : Chain db l) (hopen : db.isopen = true) (owner : Bytes)
    (start count : UInt64) : ∃ covered db', haveRange accounts filename db owner start count = some (covered,db') := by
  by_cases hstop : start.toNat + count.toNat ≤ 2^64
  · obtain ⟨covered,db',hrun,_⟩ := haveRange_spec accounts hfile hwrap hchain hopen owner hstop
    exact ⟨covered,db',hrun⟩
  · obtain ⟨hsound,_,_⟩ := findRange_spec accounts hchain hopen hfile hwrap owner start
    unfold haveRange
    split
    · exact ⟨false,db,rfl⟩
    · unfold haveRangeFrom
      rcases hrun : findRange accounts filename db owner start with ⟨_ | r,db₁⟩
      · exact ⟨false,db₁,rfl⟩
      · rw [hrun] at hsound
        obtain ⟨hr,_,hid⟩ := hsound r rfl
        have hlast := (mem_ids_iff_le (hwrap r hr)).mp hid
        have hle : start + count - 1 ≤ r.last := by
          have hend := UInt64.le_iff_toNat_le.mp hlast.2.2
          have hone : (1 : UInt64).toNat = 1 := rfl
          have hword := start.toNat_lt
          have hword' := count.toNat_lt
          rw [UInt64.le_iff_toNat_le,UInt64.toNat_sub,UInt64.toNat_add,hone]
          omega
        simp only [hle,if_true]
        exact ⟨true,db₁,rfl⟩

theorem Editing.reordered (h : Editing db l) (hre : Reordered db db' l) (hmode : SameMode db db') :
    ∃ l', Editing db' l' ∧ (l'.map db'.record).Perm (l.map db.record) := by
  obtain ⟨l',hchained,hperm⟩ := hre.chained
  refine ⟨l',⟨hchained,hmode.isopen.trans h.isopen,hmode.readonly.trans h.writable,?_⟩,?_⟩
  · rw [hre.record]
    intro record hrecord
    exact h.lined record ((hperm.map db.record).subset hrecord)
  · rw [hre.record]
    exact hperm.map db.record

theorem IdKind.filename_cases (kind : IdKind) : kind.filename = subuidFile ∨ kind.filename = subgidFile := by
  cases kind with
  | uid => exact .inl rfl
  | gid => exact .inr rfl

theorem entriesOf_perm {records records' : List (Record SubordinateRange)} (h : records.Perm records') :
    (entriesOf records).Perm (entriesOf records') := h.filterMap _

private theorem idsOf_perm {P : SubordinateRange → Prop} {rs rs' : List SubordinateRange} (h : rs.Perm rs') :
    idsOf P rs = idsOf P rs' := by
  unfold idsOf
  simp only [h.mem_iff]

/-- Closing a database of records that were read rearranges the ranges of the file at most. -/
theorem Editing.closed_perm (h : Editing db l) (hread : WereRead (l.map db.record))
    (hperm : (entriesOf (l.map db.record)).Perm (rangesOn disk)) :
    (rangesOn (commonioClose e.selinux (plainCloseOps subordinatePut) e.steps db disk.file disk).2.2).Perm (rangesOn disk) := by
  rcases h.closed_ranges disk with hsame | hwritten
  · rw [hsame]
  · rw [hwritten,hread.again]
    exact hperm

/-- There is no block without ids. -/
theorem findFreeRange_zero (qsort : Qsort) (db : Db SubordinateRange) (min max : UInt32) (memory : Bool) :
    (findFreeRange qsort db min max 0 memory).1 = noId := by
  have hsigned : signed 0 = 0 := rfl
  unfold findFreeRange
  simp only [hsigned,true_or,if_true]

/-- What the search for a block says of it, where the sort did its part. -/
theorem Opened.lowest (h : Opened disk db l) (hsorts : SortsFile e disk) {start : UInt32} {min : UInt32} {count : UInt64}
    (hrun : (findFreeRange e.qsort db min 4294967295 count e.sortMemory).1 = start) (hfound : start ≠ noId)
    (hcount : count.toNat < 2^32) :
    IsFreeBlock (rangesOn disk) min.toNat (2^32 - 1) count.toNat start.toNat ∧
      ∀ block < start.toNat, ¬ IsFreeBlock (rangesOn disk) min.toNat (2^32 - 1) count.toNat block := by
  have hpos : 0 < count.toNat := by
    by_contra hzero
    obtain rfl : count = 0 := UInt64.toNat_inj.mp (by simpa using hzero)
    exact hfound (hrun.symm.trans (findFreeRange_zero e.qsort db min 4294967295 e.sortMemory))
  have hlines : ∀ p ∈ l, db.isSortable p = true := by
    intro p hp
    have hline : nameIsNis ((db.record p).line.getD []) = false := hsorts.lines _ h.read _ (List.mem_map_of_mem hp)
    show (!nameIsNis ((db.record p).line.getD [])) = true
    rw [hline]
    rfl
  have hsort : (commonioSort e.qsort subordinateRangeCmp db e.sortMemory).1 = true := by
    unfold commonioSort
    rw [hsorts.memory]
    simp only
    split <;> rfl
  have hfits : ∀ r ∈ entriesOf (l.map db.record), r.Fits := fun r hr => (h.wereRead.text hr).toFits
  obtain ⟨hlowest,_⟩ := findFreeRange_lowest e.qsort h.rep h.isopen hlines hfits min 4294967295 hpos (by omega) hsort
    (hsorts.sorts db l)
  rw [hrun,← h.ranges] at hlowest
  exact hlowest hfound

/-- The new range in the database that the search left, and the file after closing. -/
theorem Opened.addition (h : Opened disk db l) (hline : IsLine range.owner) (kind : IdKind) (reuse : Bool) {start : UInt32}
    (hfind : findFreeRange e.qsort db range.start.toUInt32 4294967295 range.count e.sortMemory = (start,db'))
    (hfound : start ≠ noId) :
    ∃ ok db₁, addRange e.accounts kind.filename (e.entryMemory 0) db' range.owner start.toUInt64 range.count = some (ok,db₁) ∧
      SameMode db' db₁ ∧ GrantEffect e range reuse disk
        (commonioClose e.selinux (plainCloseOps subordinatePut) e.steps db₁ disk.file disk).2.2 ok
        { range with start := start.toUInt64 } false := by
  have hre := findFreeRange_reordered h.toChained h.isopen e.qsort range.start.toUInt32 4294967295 range.count e.sortMemory
  have hmode := findFreeRange_mode e.qsort db range.start.toUInt32 4294967295 range.count e.sortMemory
  rw [hfind] at hre hmode
  obtain ⟨l₁,hediting,hperm⟩ := h.toEditing.reordered hre hmode
  have hread : WereRead (l₁.map db'.record) := fun record hrecord => h.wereRead record (hperm.subset hrecord)
  have hentries : (entriesOf (l₁.map db'.record)).Perm (rangesOn disk) := by
    rw [h.ranges]
    exact entriesOf_perm hperm
  have hwrap : NoneWraps (entriesOf (l₁.map db'.record)) := noneWraps_of_fits fun r hr => (hread.text hr).toFits
  have hlowest : SortsFile e disk → SubordinateRange.Fits { range with start := start.toUInt64 } →
      IsFreeBlock (rangesOn disk) range.start.toUInt32.toNat (2^32 - 1) range.count.toNat start.toUInt64.toNat ∧
        ∀ block < start.toUInt64.toNat, ¬ IsFreeBlock (rangesOn disk) range.start.toUInt32.toNat (2^32 - 1) range.count.toNat block := by
    intro hsorts hfits
    rw [UInt32.toNat_toUInt64]
    exact h.lowest hsorts (by rw [hfind]) hfound hfits.count_lt
  have hnonempty : range.count ≠ 0 := by
    intro hzero
    apply hfound
    have hnone := findFreeRange_zero e.qsort db range.start.toUInt32 4294967295 e.sortMemory
    rw [← hzero,hfind] at hnone
    exact hnone
  obtain ⟨covered,db₁,hhave⟩ := haveRange_returns e.accounts kind.filename_cases hwrap hediting.toChain hediting.isopen range.owner
    start.toUInt64 range.count
  have hmoved := haveRange_moved hediting.toChain hediting.isopen hhave
  have hediting₁ := hediting.moved hmoved
  have hread₁ : WereRead (l₁.map db₁.record) := by rwa [hmoved.record]
  have hentries₁ : (entriesOf (l₁.map db₁.record)).Perm (rangesOn disk) := by rwa [hmoved.record]
  have hkept : PlainLines disk → ∀ record ∈ l₁.map db₁.record, nameIsNis (lineOf record) = false := by
    intro hplain record hrecord
    rw [hmoved.record] at hrecord
    exact h.wereRead.plain (hplain _ h.read) record (hperm.subset hrecord)
  cases covered with
  | true =>
    have hclosed : (rangesOn (commonioClose e.selinux (plainCloseOps subordinatePut) e.steps db₁ disk.file disk).2.2).Perm
      (rangesOn disk) :=
      hediting₁.closed_perm hread₁ hentries₁
    refine ⟨true,db₁,?_,haveRange_mode hhave,.added hnonempty ⟨start,rfl⟩ (.inl hclosed) (fun _ htext => ?_) hlowest
      fun _ hplain => hediting₁.closed_plain hplain (hkept hplain)⟩
    · unfold addRange
      rw [hhave]
    · have hstop : start.toUInt64.toNat + range.count.toNat ≤ 2^64 := by
        have hend : start.toUInt64.toNat + range.count.toNat ≤ 2^32 := htext.stop_le
        omega
      obtain ⟨covered,db₂,hrun,hcovered,_⟩ := haveRange_spec e.accounts kind.filename_cases hwrap hediting.toChain hediting.isopen
        range.owner hstop
      rw [hhave] at hrun
      cases hrun
      have hids := (hcovered.mp rfl).2
      rw [idsOf_perm (hentries.trans hclosed.symm)] at hids
      exact hids
  | false =>
    rcases happend : commonioAppend db₁ ⟨range.owner,start.toUInt64,range.count⟩ (e.entryMemory 0) with ⟨ok,db₂⟩
    have hrun : addRange e.accounts kind.filename (e.entryMemory 0) db' range.owner start.toUInt64 range.count = some (ok,db₂) := by
      unfold addRange
      rw [hhave]
      exact congrArg some happend
    refine ⟨ok,db₂,hrun,addRange_mode hrun,?_⟩
    have happended := commonioAppend_mode db₁ ⟨range.owner,start.toUInt64,range.count⟩ (e.entryMemory 0)
    rw [happend] at happended
    rcases hediting₁.append ⟨range.owner,start.toUInt64,range.count⟩ (e.entryMemory 0) happend with ⟨rfl,rfl⟩ | ⟨rfl,_,hchained,hrecord⟩
    · exact .refused ⟨_,rfl⟩ (hediting₁.closed_perm hread₁ hentries₁) fun _ hplain => hediting₁.closed_plain hplain (hkept hplain)
    · have hediting₂ : Editing db₂ (l₁ ++ [db₁.fresh]) := by
        refine ⟨hchained,happended.isopen.trans hediting₁.isopen,happended.readonly.trans hediting₁.writable,?_⟩
        rw [hrecord]
        intro record hm
        rcases List.mem_append.mp hm with hm | hm
        · exact hediting₁.lined record hm
        · rw [List.mem_singleton.mp hm]
          exact Lined.edited none hline
      have hagain : entriesOf (((l₁ ++ [db₁.fresh]).map db₂.record).map subidStorage.again) =
          entriesOf (l₁.map db₁.record) ++
            (subidStorage.again (editedRecord none ⟨range.owner,start.toUInt64,range.count⟩)).eptr.toList := by
        rw [hrecord,List.map_append,hread₁.again,entriesOf_append]
        refine congrArg (_ ++ ·) ?_
        cases hnew : (subidStorage.again (editedRecord none ⟨range.owner,start.toUInt64,range.count⟩)).eptr <;> simp [entriesOf,hnew]
      refine .added hnonempty ⟨start,rfl⟩ ?_ (fun hsteps htext => ?_) hlowest fun hnis hplain => hediting₂.closed_plain hplain ?_
      · rcases hediting₂.closed_ranges disk with hsame | hwritten
        · rw [hsame]
          exact .inl (.refl _)
        · rw [hwritten,hagain]
          cases hnew : (subidStorage.again (editedRecord none ⟨range.owner,start.toUInt64,range.count⟩)).eptr with
          | none =>
            left
            rw [Option.toList_none,List.append_nil]
            exact hentries₁
          | some a =>
            right
            have hsame := (Lined.edited none hline : Lined (editedRecord none ⟨range.owner,start.toUInt64,range.count⟩)).again_eptr hnew
            cases hsame
            obtain ⟨hnis,hparse⟩ := lineRecord_eptr hnew
            have hisline : IsLine (rangeLine ⟨range.owner,start.toUInt64,range.count⟩) := isLine_rangeLine hline
            exact ⟨SubordinateRange.Text.of_line hisline hnis hparse,hentries₁.append_right _⟩
      · have hchanged : db₂.changed = true := by
          unfold commonioAppend at happend
          split at happend
          · cases happend
          · cases happend
            rfl
        rw [hediting₂.closed_replaced disk hchanged hsteps,hagain,again_edited none htext]
        intro id hid
        exact ⟨_,List.mem_append_right _ List.mem_cons_self,.inl rfl,hid⟩
      · rw [hrecord]
        intro record hm
        rcases List.mem_append.mp hm with hm | hm
        · exact hkept hplain record hm
        · rw [List.mem_singleton.mp hm,lineOf_edited,nameIsNis_rangeLine]
          exact hnis

end Edits

/-- A call of the library, by the file it is about. -/
inductive LibraryCall where
  | grant (kind : IdKind) (request : RangeRequest) (reuse : Bool)
  | ungrant (kind : IdKind) (request : RangeRequest)

def LibraryCall.kind : LibraryCall → IdKind
  | .grant kind _ _ => kind
  | .ungrant kind _ => kind

def LibraryCall.request : LibraryCall → RangeRequest
  | .grant _ request _ => request
  | .ungrant _ request => request

def LibraryCall.run (e : LibraryEnv) : LibraryCall → SubidLibrary → Option (Bool × SubordinateRange × SubidLibrary)
  | .grant .uid request reuse, s => subidGrantUidRange e request.toSubordinateRange reuse s
  | .grant .gid request reuse, s => subidGrantGidRange e request.toSubordinateRange reuse s
  | .ungrant .uid request, s => (subidUngrantUidRange e request.toSubordinateRange s).map fun (ok,s) => (ok,request.toSubordinateRange,s)
  | .ungrant .gid request, s => (subidUngrantGidRange e request.toSubordinateRange s).map fun (ok,s) => (ok,request.toSubordinateRange,s)

/-- What a call does to its own database and file. -/
inductive CallEffect (e : LibraryEnv) (s s' : SubidLibrary) : LibraryCall → Bool → SubordinateRange → Prop
  /-- A module of the name service handles these ids. -/
  | elsewhere {c : LibraryCall} {range : SubordinateRange} (nss : e.nss = true) (same : s' = s) : CallEffect e s s' c false range
  /-- An earlier call left the database open: this one fails, and puts it in order. -/
  | tidied {c : LibraryCall} {range : SubordinateRange} (busy : s.busy c.kind = true) (free : s'.busy c.kind = false)
      (same : s'.disk c.kind = s.disk c.kind) : CallEffect e s s' c false range
  | granted {kind : IdKind} {request : RangeRequest} {reuse ok : Bool} {new : SubordinateRange} (idle : s.busy kind = false)
      (effect : GrantEffect e request.toSubordinateRange reuse (s.disk kind) (s'.disk kind) ok new (s'.busy kind)) :
      CallEffect e s s' (.grant kind request reuse) ok new
  | released {kind : IdKind} {request : RangeRequest} {ok : Bool} (idle : s.busy kind = false) (free : s'.busy kind = false)
      (effect : ReleaseEffect e request.toSubordinateRange (s.disk kind) (s'.disk kind) ok) :
      CallEffect e s s' (.ungrant kind request) ok request.toSubordinateRange

section Calls
open SubidLibrary
variable {e : LibraryEnv} {kind : IdKind} {s s' : SubidLibrary}

private theorem newSubidRange_effect (h : s.Settled) (e : LibraryEnv) (request : RangeRequest) (kind : IdKind) (reuse : Bool) :
    ∃ ok new s', newSubidRange e request.toSubordinateRange kind reuse s = some (ok,new,s') ∧ s'.Settled ∧ SparesOther kind s s' ∧
      CallEffect e s s' (.grant kind request reuse) ok new := by
  unfold newSubidRange
  cases hnss : e.nss with
  | true => exact ⟨false,_,s,rfl,h,.refl kind s,.elsewhere hnss rfl⟩
  | false =>
    simp only [Bool.false_eq_true,if_false]
    cases hbusy : s.busy kind with
    | true =>
      obtain ⟨s₁,hstart,hsettled,hspares,hdisk,hfree⟩ := @start_busy e kind s h hbusy
      simp only [hstart]
      exact ⟨false,_,s₁,rfl,hsettled,hspares,.tidied hbusy hfree hdisk⟩
    | false =>
      obtain ⟨ok,s₁,hstart,hsettled,hspares,hdisk,hbusy₁,hopened⟩ := @start_idle e kind s h hbusy
      simp only [hstart]
      cases ok with
      | false =>
        refine ⟨false,_,s₁,rfl,hsettled,hspares,.granted hbusy ?_⟩
        rw [hbusy₁,hdisk]
        exact .refused ⟨_,rfl⟩ (.refl _) fun _ => id
      | true =>
        obtain ⟨l,hopened⟩ := hopened rfl
        rcases hsearch : (if reuse then findReusable e request.toSubordinateRange (s₁.db kind)
          else (none,(commonioRewind (s₁.db kind)).2)) with ⟨found,db⟩
        obtain ⟨hopened',hreuse⟩ := hopened.search reuse hsearch
        have hmode : SameMode (s₁.db kind) db := by
          have hsearched := congrArg Prod.snd hsearch
          cases reuse with
          | false =>
            obtain rfl : (commonioRewind (s₁.db kind)).2 = db := hsearched
            exact commonioRewind_mode _
          | true =>
            obtain rfl : (findReusable e request.toSubordinateRange (s₁.db kind)).2 = db := hsearched
            exact searchEntry_mode _ _
        simp only [hsearch]
        cases found with
        | some r =>
          obtain ⟨hasked,hrecorded,hown,henough⟩ := hreuse r rfl
          refine ⟨true,_,s₁.put kind db,rfl,Settled.put hsettled hmode,hspares.trans ⟨put_other ..,rfl⟩,.granted hbusy ?_⟩
          have hstays : (s₁.put kind db).busy kind = true := by
            unfold SubidLibrary.busy
            rw [put_db,hmode.locked]
            exact hbusy₁
          rw [hstays]
          exact .reused hasked hrecorded hown henough hdisk
        | none =>
          simp only
          rcases hfind : findFreeRange e.qsort db request.start.toUInt32 4294967295 request.count e.sortMemory with ⟨start,db'⟩
          have hfindMode := findFreeRange_mode e.qsort db request.start.toUInt32 4294967295 request.count e.sortMemory
          rw [hfind] at hfindMode
          have hmode' := hmode.trans hfindMode
          simp only
          by_cases hnone : start = noId
          · rw [if_pos hnone]
            obtain ⟨hsettled',hspares',hfree,hdisk'⟩ := @finish_settled e kind s₁ db' hsettled hbusy₁ hmode'
            refine ⟨false,_,_,rfl,hsettled',hspares.trans hspares',.granted hbusy ?_⟩
            rw [hfree,hdisk',hdisk]
            have hre := findFreeRange_reordered hopened'.toChained hopened'.isopen e.qsort request.start.toUInt32 4294967295
              request.count e.sortMemory
            rw [hfind] at hre
            obtain ⟨l₁,hediting,hperm⟩ := hopened'.toEditing.reordered hre hfindMode
            refine .refused ⟨_,rfl⟩ (hediting.closed_perm (fun record hrecord => hopened'.wereRead record (hperm.subset hrecord)) ?_)
              fun _ hplain => hediting.closed_plain hplain fun record hrecord =>
                hopened'.wereRead.plain (hplain _ hopened'.read) record (hperm.subset hrecord)
            rw [hopened'.ranges]
            exact entriesOf_perm hperm
          · rw [if_neg hnone]
            obtain ⟨ok,db₁,hadd,haddMode,heffect⟩ := hopened'.addition request.line kind reuse hfind hnone
            rw [hadd,Option.map_some]
            obtain ⟨hsettled',hspares',hfree,hdisk'⟩ := @finish_settled e kind s₁ db₁ hsettled hbusy₁ (hmode'.trans haddMode)
            refine ⟨ok,_,_,rfl,hsettled',hspares.trans hspares',.granted hbusy ?_⟩
            rw [hfree,hdisk',hdisk]
            exact heffect

private theorem releaseSubidRange_effect (h : s.Settled) (e : LibraryEnv) (request : RangeRequest) (kind : IdKind) :
    ∃ ok s', releaseSubidRange e request.toSubordinateRange kind s = some (ok,s') ∧ s'.Settled ∧ SparesOther kind s s' ∧
      CallEffect e s s' (.ungrant kind request) ok request.toSubordinateRange := by
  unfold releaseSubidRange
  cases hnss : e.nss with
  | true => exact ⟨false,s,rfl,h,.refl kind s,.elsewhere hnss rfl⟩
  | false =>
    simp only [Bool.false_eq_true,if_false]
    cases hbusy : s.busy kind with
    | true =>
      obtain ⟨s₁,hstart,hsettled,hspares,hdisk,hfree⟩ := @start_busy e kind s h hbusy
      simp only [hstart]
      exact ⟨false,s₁,rfl,hsettled,hspares,.tidied hbusy hfree hdisk⟩
    | false =>
      obtain ⟨ok,s₁,hstart,hsettled,hspares,hdisk,hbusy₁,hopened⟩ := @start_idle e kind s h hbusy
      simp only [hstart]
      cases ok with
      | false =>
        refine ⟨false,s₁,rfl,hsettled,hspares,.released hbusy hbusy₁ ?_⟩
        rw [hdisk]
        exact .refl false rfl
      | true =>
        obtain ⟨l,hopened⟩ := hopened rfl
        obtain ⟨ok,db',hremove,hmode,heffect⟩ := @Opened.removeRange e (s₁.db kind) l (s.disk kind) hopened request.toSubordinateRange
        simp only [hremove,Option.map_some]
        obtain ⟨hsettled',hspares',hfree,hdisk'⟩ := @finish_settled e kind s₁ db' hsettled hbusy₁ hmode
        refine ⟨ok,_,rfl,hsettled',hspares.trans hspares',.released hbusy hfree ?_⟩
        rw [hdisk',hdisk]
        exact heffect

/-- Every call returns, and leaves a settled process. -/
theorem LibraryCall.effect (h : s.Settled) (e : LibraryEnv) (c : LibraryCall) :
    ∃ ok new s', c.run e s = some (ok,new,s') ∧ s'.Settled ∧ SparesOther c.kind s s' ∧ CallEffect e s s' c ok new := by
  cases c with
  | grant kind request reuse =>
    obtain ⟨ok,new,s',hrun,hspec⟩ := newSubidRange_effect h e request kind reuse
    refine ⟨ok,new,s',?_,hspec⟩
    cases kind <;> exact hrun
  | ungrant kind request =>
    obtain ⟨ok,s',hrun,hspec⟩ := releaseSubidRange_effect h e request kind
    refine ⟨ok,request.toSubordinateRange,s',?_,hspec⟩
    cases kind with
    | uid => exact congrArg (Option.map fun result => (result.1,request.toSubordinateRange,result.2)) hrun
    | gid => exact congrArg (Option.map fun result => (result.1,request.toSubordinateRange,result.2)) hrun

end Calls

section Runs

/-- A call of the process, or somebody else who replaces a file between two calls. -/
inductive LibraryEvent where
  | call (e : LibraryEnv) (c : LibraryCall)
  | replaced (kind : IdKind) (disk : Disk)

/-- A process that has not used its databases yet. -/
def SubidLibrary.initial (disk : IdKind → Disk) : SubidLibrary := ⟨fun _ => closedRanges,⟨0,false⟩,disk⟩

/-- All along a run the process is settled, and each call returns with its effect. -/
def Accounted : SubidLibrary → List LibraryEvent → Prop
  | s, [] => s.Settled
  | s, .call e c :: events => s.Settled ∧ ∃ ok new s', c.run e s = some (ok,new,s') ∧ SubidLibrary.SparesOther c.kind s s' ∧
      CallEffect e s s' c ok new ∧ Accounted s' events
  | s, .replaced kind disk :: events => s.Settled ∧ Accounted { s with disk := Function.update s.disk kind disk } events

theorem initial_settled (disk : IdKind → Disk) : (SubidLibrary.initial disk).Settled := by
  refine ⟨fun kind => rfl,rfl,fun _ => rfl⟩

theorem SubidLibrary.Settled.accounted {s : SubidLibrary} (h : s.Settled) (events : List LibraryEvent) : Accounted s events := by
  induction events generalizing s with
  | nil => exact h
  | cons event events ih =>
    cases event with
    | call e c =>
      obtain ⟨ok,new,s',hrun,hsettled,hspares,heffect⟩ := c.effect h e
      exact ⟨h,ok,new,s',hrun,hspares,heffect,ih hsettled⟩
    | replaced kind disk =>
      exact ⟨h,ih ⟨h.isopen,h.counted,h.free⟩⟩

/-- In every run of grants and releases a database stays open and locked only behind a range that was
reused, and the next call on it puts it in order. -/
theorem grants_and_releases_accounted (disk : IdKind → Disk) (events : List LibraryEvent) :
    Accounted (SubidLibrary.initial disk) events :=
  SubidLibrary.Settled.accounted (initial_settled disk) events

end Runs

end UserDb.Subid
