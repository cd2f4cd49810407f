import UserDb.Programs.SubidAssignment
import UserDb.Subid.LibraryRuns
import Mathlib.Logic.Relation

/-! No id is given to two users: what `newusers`, `useradd` and the library make of a file of ranges that
do not meet, program after program. -/
namespace UserDb.Programs
open UserDb.Base UserDb.Base.Outcomes UserDb.Commonio UserDb.Subid UserDb.Ids

/-- The library's sort leaves nothing in front of a range that the comparison puts below it. -/
def SortsRanges (qsort : Qsort) : Prop :=
  ∀ (db : Db SubordinateRange) (l : List Nat), SortedBy (fun p q => subordinateRangeCmp (db.entries p) (db.entries q))
    (qsort.run (fun p q => subordinateRangeCmp (db.entries p) (db.entries q)) l)

private theorem mem_orderedInsert {β : Type} (r : β → β → Prop) [DecidableRel r] {a x : β} {l : List β} (h : x ∈ l.orderedInsert r a) :
    x = a ∨ x ∈ l :=
  List.mem_cons.mp ((List.perm_orderedInsert r a l).subset h)

/-- Sorting by insertion, for a comparison that may put two values after each other. -/
theorem insertionSort_sortedBy {β : Type} {cmp : β → β → Int}
    (h : ∀ a b d, cmp a b ≤ 0 → (cmp b d ≤ 0 ∨ 0 < cmp d b) → cmp a d ≤ 0 ∨ 0 < cmp d a) (l : List β) :
    SortedBy cmp (l.insertionSort (cmp · · ≤ 0)) := by
  have hinsert : ∀ (a : β) {l : List β}, SortedBy cmp l → SortedBy cmp (l.orderedInsert (cmp · · ≤ 0) a) := by
    intro a l hl
    induction l with
    | nil => exact List.pairwise_singleton _ a
    | cons b l ih =>
      obtain ⟨hb,hl'⟩ := List.pairwise_cons.mp hl
      by_cases hab : cmp a b ≤ 0
      · rw [List.orderedInsert_cons_of_le (cmp · · ≤ 0) l hab]
        refine List.pairwise_cons.mpr ⟨List.forall_mem_cons.mpr ⟨.inl hab,?_⟩,hl⟩
        exact fun d hd => h a b d hab (hb d hd)
      · rw [List.orderedInsert_of_not_le (cmp · · ≤ 0) l hab]
        refine List.pairwise_cons.mpr ⟨fun d hd => ?_,ih hl'⟩
        rcases mem_orderedInsert _ hd with rfl | hd
        · exact .inr (not_le.mp hab)
        · exact hb d hd
  induction l with
  | nil => exact List.Pairwise.nil
  | cons a l ih => exact hinsert a ih

private theorem insertionSort_sortsRanges : SortsRanges insertionSort := by
  intro db l
  apply insertionSort_sortedBy
  intro p q t hpq hqt
  rw [subordinateRangeCmp_eq] at hpq hqt ⊢
  cases hp : (db.entries p).eptr with
  | none =>
    rw [nullLast_unparsed hp] at hpq
    omega
  | some a =>
    cases ht : (db.entries t).eptr with
    | none =>
      rw [nullLast_parsed hp ht]
      exact .inl (by decide)
    | some d =>
      cases hq : (db.entries q).eptr with
      | none =>
        rw [nullLast_unparsed hq,nullLast_parsed ht hq] at hqt
        omega
      | some b =>
        rw [nullLast_both hp hq] at hpq
        rw [nullLast_both hq ht,nullLast_both ht hq] at hqt
        rw [nullLast_both hp ht]
        have hopposite := compareRanges_comparison.opposite d b
        exact .inl (compareRanges_comparison.trans a b d hpq (by omega))

/-- A file of ranges that do not meet: no NIS line stops the sort of its lines, and no range is the
empty one at zero. -/
structure Isolated (disk : Disk) : Prop where
  plain : PlainLines disk
  nonzero : NothingAtZero disk
  apart : Subid.Apart (rangesOn disk)

/-- An open database of such ranges, all of which will be sorted. -/
structure Allocatable (db : Db SubordinateRange) (l : List Nat) : Prop where
  rep : Rep db l false
  isopen : db.isopen = true
  writable : db.readonly = false
  lined : ∀ record ∈ l.map db.record, Lined record
  sortable : ∀ record ∈ l.map db.record, nameIsNis (record.line.getD []) = false
  plain : ∀ record ∈ l.map db.record, nameIsNis (lineOf record) = false
  fits : ∀ r ∈ entriesOf (l.map db.record), r.Fits
  nonzero : ∀ r ∈ entriesOf (l.map db.record), ¬ (r.start = 0 ∧ r.count = 0)
  apart : Subid.Apart (entriesOf (l.map db.record))

section Steps
variable {db db' : Db SubordinateRange} {l : List Nat} {disk : Disk} {qsort : Qsort} {min max start : UInt32} {count : UInt64}

theorem Allocatable.of_perm {l' : List Nat} (h : Allocatable db l) (hrep : Rep db' l' false) (hmode : SameMode db db')
    (hperm : (l'.map db'.record).Perm (l.map db.record)) : Allocatable db' l' := by
  have hentries : (entriesOf (l'.map db'.record)).Perm (entriesOf (l.map db.record)) := hperm.filterMap _
  exact ⟨hrep,hmode.isopen.trans h.isopen,hmode.readonly.trans h.writable,fun r hr => h.lined r (hperm.subset hr),
    fun r hr => h.sortable r (hperm.subset hr),fun r hr => h.plain r (hperm.subset hr),
    fun r hr => h.fits r (hentries.subset hr),fun r hr => h.nonzero r (hentries.subset hr),h.apart.of_perm hentries⟩

theorem Allocatable.moved (h : Allocatable db l) (hmoved : MovedCursor db db' l) (hmode : SameMode db db') : Allocatable db' l := by
  apply h.of_perm (hmoved.rep h.rep) hmode
  rw [hmoved.record]

theorem Allocatable.isSortable (h : Allocatable db l) : ∀ p ∈ l, db.isSortable p = true := by
  intro p hp
  have hline : nameIsNis ((db.record p).line.getD []) = false := h.sortable _ (List.mem_map_of_mem hp)
  show (!nameIsNis ((db.record p).line.getD [])) = true
  rw [hline]
  rfl

private theorem commonioSort_memory (qsort : Qsort) (cmp : Entry SubordinateRange → Entry SubordinateRange → Int)
    (db : Db SubordinateRange) : (commonioSort qsort cmp db true).1 = true := by
  unfold commonioSort
  simp only
  split <;> rfl

/-- The search for a block sorts the database, and finds one that no range meets. -/
theorem Allocatable.findFreeRange (h : Allocatable db l) (hqsort : SortsRanges qsort) (hcount : count.toNat < 2^32)
    (hrun : findFreeRange qsort db min max count true = (start,db')) :
    (∃ l', Allocatable db' l') ∧ (entriesIn db').Perm (entriesIn db) ∧
      (start ≠ noId → count ≠ 0 ∧ IsFreeBlock (entriesIn db) min.toNat max.toNat count.toNat start.toNat) := by
  have hmode := findFreeRange_mode qsort db min max count true
  have hsort := commonioSort_memory qsort subordinateRangeCmp db
  have hentries : entriesIn db = entriesOf (l.map db.record) := entriesIn_chain h.rep.chain
  rw [hrun] at hmode
  have hstart : (Subid.findFreeRange qsort db min max count true).1 = start := by rw [hrun]
  have hafter : ∃ l', Rep db' l' false ∧ (l'.map db'.record).Perm (l.map db.record) := by
    have hsecond : (Subid.findFreeRange qsort db min max count true).2 = db' := by rw [hrun]
    rw [← hsecond]
    unfold Subid.findFreeRange
    simp only
    split
    · exact ⟨l,h.rep,.refl _⟩
    · obtain ⟨l',hrep',hperm,_,hrecord,hisopen⟩ := h.rep.commonioSort_all qsort subordinateRangeCmp h.isSortable hsort
      obtain ⟨_,hmoved⟩ := forEachEntry_eq (scanRange max (signed count)) (min.toNat : Int) hrep' (hisopen.trans h.isopen)
      have hdone : ∀ {found : UInt32 × Db SubordinateRange}, found.2 =
          (forEachEntry (scanRange max (signed count)) (min.toNat : Int) (commonioSort qsort subordinateRangeCmp db true).2).2 →
          ∃ l', Rep found.2 l' false ∧ (l'.map found.2.record).Perm (l.map db.record) := by
        intro found heq
        rw [heq]
        refine ⟨l',hmoved.rep hrep',?_⟩
        rw [hmoved.record,hrecord]
        exact hperm.map db.record
      split
      · rename_i heq
        exact hdone (by rw [heq])
      · rename_i heq
        exact hdone (by rw [heq])
  obtain ⟨l',hrep',hperm⟩ := hafter
  refine ⟨⟨l',h.of_perm hrep' hmode hperm⟩,?_,fun hfound => ?_⟩
  · rw [hentries,entriesIn_chain hrep'.chain]
    exact hperm.filterMap _
  · have hpos : count ≠ 0 := by
      rintro rfl
      exact hfound (hstart.symm.trans (findFreeRange_zero qsort db min max true))
    have hpos' : 0 < count.toNat := by
      by_contra hzero
      exact hpos (UInt64.toNat_inj.mp (by simpa using hzero))
    obtain ⟨hlowest,_⟩ := findFreeRange_lowest qsort h.rep h.isopen h.isSortable h.fits min max hpos' (by omega) hsort
      (hqsort db l)
    rw [hstart,← hentries] at hlowest
    exact ⟨hpos,(hlowest hfound).1⟩

/-- A new range that no other meets. -/
theorem Allocatable.append (h : Allocatable db l) {r : SubordinateRange} (hline : IsLine r.owner) (hnis : nameIsNis r.owner = false)
    (hfits : r.Fits) (hcount : r.count ≠ 0) (hfree : ∀ r' ∈ entriesIn db, Disjoint r'.ids r.ids) {memory ok : Bool}
    (hrun : commonioAppend db r memory = (ok,db')) : ∃ l', Allocatable db' l' := by
  rcases commonioAppend_cases h.rep r memory hrun with ⟨_,rfl⟩ | ⟨_,_,hisopen,hreadonly,hfresh,hrep,hrecord⟩
  · exact ⟨l,h⟩
  · rw [entriesIn_chain h.rep.chain] at hfree
    have hrecords : (l ++ [db.fresh]).map db'.record = l.map db.record ++ [editedRecord none r] := by
      rw [List.map_append,List.map_singleton,hrecord,Function.update_self]
      refine congrArg (· ++ _) (List.map_congr_left fun q hq => ?_)
      rw [Function.update_of_ne (ne_of_mem_of_not_mem hq hfresh)]
    have hentries := congrArg entriesOf hrecords
    rw [entriesOf_append_edited] at hentries
    refine ⟨l ++ [db.fresh],⟨hrep,hisopen.trans h.isopen,hreadonly.trans h.writable,?_,?_,?_,?_,?_,?_⟩⟩
    · rw [hrecords]
      exact List.forall_mem_append.mpr ⟨h.lined,List.forall_mem_singleton.mpr (Lined.edited none hline)⟩
    · rw [hrecords]
      exact List.forall_mem_append.mpr ⟨h.sortable,List.forall_mem_singleton.mpr rfl⟩
    · rw [hrecords]
      refine List.forall_mem_append.mpr ⟨h.plain,List.forall_mem_singleton.mpr ?_⟩
      rw [lineOf_edited,nameIsNis_rangeLine]
      exact hnis
    · rw [hentries]
      exact List.forall_mem_append.mpr ⟨h.fits,List.forall_mem_singleton.mpr hfits⟩
    · rw [hentries]
      exact List.forall_mem_append.mpr ⟨h.nonzero,List.forall_mem_singleton.mpr fun hzero => hcount hzero.2⟩
    · rw [hentries]
      exact h.apart.concat hfree

/-- A spelling of an owner that makes one plain line of a range. -/
structure PlainOwner (owner : Bytes) : Prop where
  line : IsLine owner
  notNis : nameIsNis owner = false

private theorem plainOwner_numeral (n : Nat) : PlainOwner (numeral n) := by
  refine ⟨⟨fun hn => (numeral_ne_sep hn).2 rfl,numeral_ne_zero⟩,?_⟩
  cases hnumeral : numeral n with
  | nil => exact absurd hnumeral (numeral_ne_nil n)
  | cons b bs =>
    have hb : b ∈ numeral n := by
      rw [hnumeral]
      exact List.mem_cons_self
    have hdigit := isDigit_iff.mp (numeral_digits hb)
    have hplus : b ≠ 43 := by
      rintro rfl
      exact absurd hdigit (by decide)
    have hminus : b ≠ 45 := by
      rintro rfl
      exact absurd hdigit (by decide)
    simp [nameIsNis,hplus,hminus]

private theorem plainOwner_spelling {kind : IdKind} {accounts : Accounts} {defs : Subid.LoginDefs} {user owner : Bytes}
    (h : PlainOwner user) (howner : ownerSpelling kind accounts defs user = some owner) : PlainOwner owner := by
  unfold ownerSpelling at howner
  split at howner
  · obtain ⟨pw,_,rfl⟩ := Option.map_eq_some_iff.mp howner
    exact plainOwner_numeral _
  · cases howner
    exact h

/-- Linear allocation of blocks that an id can count. -/
structure LinearBlocks (kind : IdKind) (defs : Subid.LoginDefs) : Prop where
  linear : getdefBool defs (subidItems kind).deterministic = false
  count_lt : (getdefUlong defs (subidItems kind).count 65536).toNat < 2^32

/-- A new block of ids that no range of the database has. -/
structure NewBlock (db : Db SubordinateRange) (start : UInt32) (count : UInt64) : Prop where
  count_ne : count ≠ 0
  count_lt : count.toNat < 2^32
  stop_le : start.toNat + count.toNat ≤ 2^32
  free : ∀ r ∈ entriesIn db, Disjoint r.ids (Set.Ico start.toNat (start.toNat + count.toNat))

theorem NewBlock.of_perm (h : NewBlock db start count) (hperm : (entriesIn db').Perm (entriesIn db)) : NewBlock db' start count :=
  ⟨h.count_ne,h.count_lt,h.stop_le,fun r hr => h.free r (hperm.subset hr)⟩

/-- The search for a new range. -/
theorem Allocatable.findNewRange (h : Allocatable db l) (hqsort : SortsRanges qsort) {kind : IdKind} {defs : Subid.LoginDefs}
    (hdefs : LinearBlocks kind defs) (uid : UInt32) {found : Option (UInt32 × UInt64)}
    (hrun : findNewRange qsort true kind defs uid db = (found,db')) :
    (∃ l', Allocatable db' l') ∧ ∀ start count, found = some (start,count) → NewBlock db' start count := by
  unfold Subid.findNewRange findNewSubids findNewSubidsLinear at hrun
  simp only [hdefs.linear,Bool.false_eq_true,if_false] at hrun
  rcases hfind : Subid.findFreeRange qsort db (getdefUlong defs (subidItems kind).min 100000).toUInt32
    (getdefUlong defs (subidItems kind).max 600100000).toUInt32 (getdefUlong defs (subidItems kind).count 65536) true with ⟨start,db₁⟩
  obtain ⟨hafter,hperm,hblock⟩ := h.findFreeRange hqsort hdefs.count_lt hfind
  rw [hfind] at hrun
  simp only [Prod.mk.injEq] at hrun
  obtain ⟨hfound,rfl⟩ := hrun
  refine ⟨hafter,?_⟩
  intro start' count hsome
  rw [hsome] at hfound
  split at hfound
  · cases hfound
  · rename_i hne
    cases hfound
    obtain ⟨hcount,hfree⟩ := hblock hne
    have hle := hfree.le_max
    have hmax := (getdefUlong defs (subidItems kind).max 600100000).toUInt32.toNat_lt
    exact ⟨hcount,hdefs.count_lt,by omega,fun r hr => hfree.free r (hperm.subset hr)⟩

/-- Adding the new block for a user. -/
theorem Allocatable.subidAdd (h : Allocatable db l) (hnew : NewBlock db start count) {kind : IdKind} {accounts : Accounts}
    {nss memory : Bool} {defs : Subid.LoginDefs} {user : Bytes} (hplain : PlainOwner user)
    (hrun : subidAdd kind accounts nss defs memory db user start count = some (true,db')) : ∃ l', Allocatable db' l' := by
  obtain ⟨owner,howner,hadd⟩ : ∃ owner, ownerSpelling kind accounts defs user = some owner ∧
      addRange accounts kind.filename memory db owner start.toUInt64 count = some (true,db') := by
    unfold Subid.subidAdd at hrun
    unfold ownerSpelling
    split at hrun
    · cases hrun
    · split at hrun
      · rename_i hstore
        rw [if_pos hstore]
        split at hrun
        · cases hrun
        · rename_i pw hpw
          rw [hpw]
          exact ⟨_,rfl,hrun⟩
      · rename_i hstore
        rw [if_neg hstore]
        exact ⟨user,rfl,hrun⟩
  have howner := plainOwner_spelling hplain howner
  unfold addRange at hadd
  split at hadd
  · cases hadd
  · rename_i db₁ hhave
    cases hadd
    exact ⟨l,h.moved (haveRange_moved h.rep.chain h.isopen hhave) (haveRange_mode hhave)⟩
  · rename_i db₁ hhave
    have hmoved := haveRange_moved h.rep.chain h.isopen hhave
    have hafter := h.moved hmoved (haveRange_mode hhave)
    have hentries : entriesIn db₁ = entriesIn db := by
      rw [entriesIn_chain hafter.rep.chain,entriesIn_chain h.rep.chain,hmoved.record]
    have hstart : start.toUInt64.toNat = start.toNat := UInt32.toNat_toUInt64 start
    have hword := start.toNat_lt
    refine hafter.append howner.line howner.notNis ⟨hnew.count_lt,?_,?_⟩ hnew.count_ne ?_ (Option.some.inj hadd)
    · show start.toUInt64.toNat + count.toNat ≤ 2^32
      rw [hstart]
      exact hnew.stop_le
    · show start.toUInt64.toNat < 2^32
      rw [hstart]
      exact hword
    · rw [hentries]
      intro r hr
      show Disjoint r.ids (Set.Ico start.toUInt64.toNat (start.toUInt64.toNat + count.toNat))
      rw [hstart]
      exact hnew.free r hr

theorem Allocatable.rangeExists (h : Allocatable db l) (accounts : Accounts) (user : Bytes) {found : Bool}
    (hrun : rangeExists accounts db user = (found,db')) : Allocatable db' l ∧ (entriesIn db').Perm (entriesIn db) := by
  obtain ⟨_,hmoved⟩ := rangeExists_spec h.rep.chained h.isopen accounts user
  have hmode : SameMode db (Subid.rangeExists accounts db user).2 := by
    unfold Subid.rangeExists
    have hsearch := searchEntry_mode (fun r : SubordinateRange => isSameUser accounts r.owner user) db
    split
    · rename_i heq
      rw [heq] at hsearch
      exact hsearch
    · rename_i heq
      rw [heq] at hsearch
      exact hsearch
  rw [hrun] at hmoved hmode
  have hafter := h.moved hmoved hmode
  refine ⟨hafter,?_⟩
  rw [entriesIn_chain hafter.rep.chain,entriesIn_chain h.rep.chain,hmoved.record]

/-- Opening a file whose ranges do not meet. -/
theorem Isolated.opened (h : Isolated disk) (hopened : Opened disk db l) : Allocatable db l := by
  have hplain := h.plain _ hopened.read
  refine ⟨hopened.rep,hopened.isopen,hopened.writable,hopened.lined,hplain,hopened.wereRead.plain hplain,
    fun r hr => (hopened.wereRead.text hr).toFits,?_,?_⟩
  · rw [← hopened.ranges]
    exact h.nonzero
  · rw [← hopened.ranges]
    exact h.apart

theorem Isolated.openFirst {file : Option Bytes} (h : Isolated disk) (hfile : disk.file = file) {read memory : Bool}
    (hrun : openFirst subidStorage.toStorage .rdwr true file read memory = (true,db)) : ∃ l, Allocatable db l := by
  subst hfile
  unfold Programs.openFirst at hrun
  cases read with
  | false => cases hrun
  | true =>
    obtain ⟨l,hopened⟩ := Opened.of_open hrun
    exact ⟨l,h.opened hopened⟩

/-- Closing such a database leaves such a file, wherever it stops. -/
theorem Isolated.closed (hdisk : Isolated disk) (h : Allocatable db l) (selinux : Bool) (steps : CloseSteps) :
    Isolated (commonioClose selinux (plainCloseOps subordinatePut) steps db disk.file disk).2.2 := by
  have hediting : Editing db l := ⟨h.rep.chained,h.isopen,h.writable,h.lined⟩
  have hsublist := entriesOf_again_sublist h.lined
  rcases hediting.close selinux steps disk.file disk with hsame | hwritten
  · have hranges : rangesOn (commonioClose selinux (plainCloseOps subordinatePut) steps db disk.file disk).2.2 = rangesOn disk := by
      unfold rangesOn
      rw [hsame]
    refine ⟨?_,?_,?_⟩
    · unfold PlainLines
      rw [hsame]
      exact hdisk.plain
    · unfold NothingAtZero
      rw [hranges]
      exact hdisk.nonzero
    · rw [hranges]
      exact hdisk.apart
  · have hranges : rangesOn (commonioClose selinux (plainCloseOps subordinatePut) steps db disk.file disk).2.2 =
        entriesOf ((l.map db.record).map subidStorage.again) := by
      rw [rangesOn,fileRanges,hwritten]
      rfl
    refine ⟨?_,?_,?_⟩
    · intro records hread record hrecord
      rw [hwritten] at hread
      obtain rfl := Option.some.inj hread
      obtain ⟨old,hold,rfl⟩ := List.mem_map.mp hrecord
      exact h.plain old hold
    · unfold NothingAtZero
      rw [hranges]
      exact fun r hr => h.nonzero r (hsublist.subset hr)
    · rw [hranges]
      exact h.apart.sublist hsublist

end Steps

section Runs
variable {kind : IdKind} {disk disk' : Disk}

/-- One line of `newusers`. -/
theorem Newusers.addLine_allocatable {e : NewusersEnv} {files : NewusersFiles} {s s' : Newusers} {line : Bytes}
    (hqsort : SortsRanges e.qsort) (hmemory : ∀ n, e.memory n 8 = true) (hdefs : LinearBlocks kind e.defs)
    (hplain : ∀ f, lineFields line = some f → PlainOwner f.name) (hused : isSub e files kind = true)
    (h : ∃ l, Allocatable (s.subids kind) l) (hrun : addLine e files s line = .ok s') : ∃ l, Allocatable (s'.subids kind) l := by
  obtain ⟨f,newpw,s₁,hfields,hstore,hassign⟩ := addLine_eq_ok hrun
  have hsubids : s₁.subids = s.subids := by simpa using storeUser_subids hstore
  have hassign := hassign kind
  unfold assignSubids at hassign
  rw [hused,hsubids] at hassign
  obtain ⟨l,h⟩ := h
  rw [Bool.not_true,if_neg Bool.false_ne_true] at hassign
  rcases hexists : Subid.rangeExists e.accounts (s.subids kind) f.name with ⟨_ | _,db⟩
  · obtain ⟨h₁,_⟩ := h.rangeExists e.accounts f.name hexists
    rw [hexists] at hassign
    simp only at hassign
    rcases hfind : findNewRange e.qsort (e.memory s₁.line 8) kind e.defs newpw.uid db with ⟨_ | ⟨start,count⟩,db₂⟩
    · rw [hfind] at hassign
      cases hassign
    · rw [hfind] at hassign
      rw [hmemory] at hfind
      obtain ⟨⟨l₂,h₂⟩,hnew⟩ := h₁.findNewRange hqsort hdefs newpw.uid hfind
      simp only at hassign
      split at hassign
      · cases hassign
      · cases hassign
      · rename_i db₃ hadd
        have hdone := h₂.subidAdd (hnew start count rfl) (hplain f hfields) hadd
        rwa [Except.ok.inj hassign] at hdone
  · obtain ⟨h₁,_⟩ := h.rangeExists e.accounts f.name hexists
    rw [hexists] at hassign
    have hsame : db = s'.subids kind := Except.ok.inj hassign
    exact ⟨l,hsame ▸ h₁⟩

theorem Newusers.addLines_allocatable {e : NewusersEnv} {files : NewusersFiles} {s s' : Newusers} {lines : List Bytes}
    (hqsort : SortsRanges e.qsort) (hmemory : ∀ n, e.memory n 8 = true) (hdefs : LinearBlocks kind e.defs)
    (hplain : ∀ line ∈ lines, ∀ f, lineFields line = some f → PlainOwner f.name) (hused : isSub e files kind = true)
    (h : ∃ l, Allocatable (s.subids kind) l) (hrun : addLines e files s lines = .ok s') : ∃ l, Allocatable (s'.subids kind) l := by
  unfold addLines at hrun
  induction lines generalizing s with
  | nil =>
    cases hrun
    exact h
  | cons line lines ih =>
    rw [List.foldlM_cons,except_bind_eq_ok] at hrun
    obtain ⟨s₁,hline,hrest⟩ := hrun
    obtain ⟨hfirst,hothers⟩ := List.forall_mem_cons.mp hplain
    exact ih hothers (addLine_allocatable hqsort hmemory hdefs hfirst hused h hline) hrest

theorem Useradd.openSubids_allocatable {e : UseraddEnv} {o : UseraddOptions} {file : Option Bytes} {uid : UInt32}
    {db : Db SubordinateRange} (h : Isolated disk) (hfile : disk.file = file) (hused : shouldAssignSubid e o kind file uid = true)
    (hrun : openSubids e o kind file uid = .ok db) : ∃ l, Allocatable db l := by
  unfold openSubids at hrun
  rw [hused,Bool.not_true,if_neg Bool.false_ne_true] at hrun
  split at hrun
  · cases hrun
  · split at hrun
    · cases hrun
    · rename_i hopen
      cases hrun
      exact h.openFirst hfile hopen

theorem Useradd.findSubids_allocatable {e : UseraddEnv} {o : UseraddOptions} {file : Option Bytes} {uid : UInt32}
    {db db' : Db SubordinateRange} {range : UInt32 × UInt64} (hqsort : SortsRanges e.qsort) (hmemory : e.subidMemory kind 0 = true)
    (hdefs : LinearBlocks kind e.defs) (hused : shouldAssignSubid e o kind file uid = true) (h : ∃ l, Allocatable db l)
    (hrun : findSubids e o kind file uid db = .ok (range,db')) : (∃ l, Allocatable db' l) ∧ NewBlock db' range.1 range.2 := by
  unfold findSubids at hrun
  rw [hused,hmemory,Bool.not_true,if_neg Bool.false_ne_true] at hrun
  obtain ⟨l,h⟩ := h
  rcases hfind : findNewRange e.qsort true kind e.defs uid db with ⟨_ | found,db₁⟩
  · rw [hfind] at hrun
    cases hrun
  · rw [hfind] at hrun
    cases hrun
    obtain ⟨hafter,hnew⟩ := h.findNewRange hqsort hdefs uid hfind
    exact ⟨hafter,hnew range.1 range.2 rfl⟩

/-- The run up to the new entries has found a block that no range meets. -/
theorem Useradd.prepare_allocatable {e : UseraddEnv} {o : UseraddOptions} {passwd : Option Bytes} {files : IdKind → Option Bytes}
    {u : Useradd} (h : Isolated disk) (hfile : disk.file = files kind) (hqsort : SortsRanges e.qsort)
    (hmemory : e.subidMemory kind 0 = true) (hdefs : LinearBlocks kind e.defs)
    (hused : shouldAssignSubid e o kind (files kind) u.userId = true) (hrun : prepare e o passwd files = .ok u) :
    (∃ l, Allocatable (u.subids kind) l) ∧ NewBlock (u.subids kind) (u.ranges kind).1 (u.ranges kind).2 := by
  unfold prepare at hrun
  split at hrun
  · cases hrun
  · split at hrun
    · cases hrun
    · split at hrun
      · cases hrun
      · obtain ⟨⟨uid,db⟩,_,hrun⟩ := except_bind_eq_ok.mp hrun
        obtain ⟨subuid,hopenUid,hrun⟩ := except_bind_eq_ok.mp hrun
        obtain ⟨subgid,hopenGid,hrun⟩ := except_bind_eq_ok.mp hrun
        obtain ⟨⟨uids,subuid'⟩,hfindUid,hrun⟩ := except_bind_eq_ok.mp hrun
        obtain ⟨⟨gids,subgid'⟩,hfindGid,hrun⟩ := except_bind_eq_ok.mp hrun
        cases hrun
        cases kind with
        | uid => exact findSubids_allocatable hqsort hmemory hdefs hused (openSubids_allocatable h hfile hused hopenUid) hfindUid
        | gid => exact findSubids_allocatable hqsort hmemory hdefs hused (openSubids_allocatable h hfile hused hopenGid) hfindGid

theorem Useradd.addSubids_allocatable {e : UseraddEnv} {o : UseraddOptions} {file : Option Bytes} {uid : UInt32}
    {db db' : Db SubordinateRange} {range : UInt32 × UInt64} (hplain : PlainOwner o.userName)
    (h : ∃ l, Allocatable db l) (hnew : NewBlock db range.1 range.2)
    (hrun : addSubids e o kind file uid db range = .ok db') : ∃ l, Allocatable db' l := by
  unfold addSubids at hrun
  obtain ⟨l,h⟩ := h
  split at hrun
  · cases hrun
    exact ⟨l,h⟩
  · split at hrun
    · rename_i hexists
      cases hrun
      exact ⟨l,(h.rangeExists e.accounts o.userName hexists).1⟩
    · rename_i hexists
      obtain ⟨h₁,hperm⟩ := h.rangeExists e.accounts o.userName hexists
      split at hrun
      · cases hrun
      · cases hrun
      · rename_i hadd
        cases hrun
        exact h₁.subidAdd (hnew.of_perm hperm) hplain hadd

theorem Useradd.usrUpdate_allocatable {e : UseraddEnv} {o : UseraddOptions} {files : IdKind → Option Bytes} {u u' : Useradd}
    (hplain : PlainOwner o.userName) (h : ∃ l, Allocatable (u.subids kind) l)
    (hnew : NewBlock (u.subids kind) (u.ranges kind).1 (u.ranges kind).2) (hrun : usrUpdate e o files u = .ok u') :
    ∃ l, Allocatable (u'.subids kind) l := by
  unfold usrUpdate at hrun
  split at hrun
  · cases hrun
  · obtain ⟨subuid,huid,hrun⟩ := except_bind_eq_ok.mp hrun
    obtain ⟨subgid,hgid,hrun⟩ := except_bind_eq_ok.mp hrun
    cases hrun
    cases kind with
    | uid => exact addSubids_allocatable hplain h hnew huid
    | gid => exact addSubids_allocatable hplain h hnew hgid

/-- A call of the library on a file in order: the sort has its memory, the owner makes a plain line,
and an interval that is released ends in the word. -/
structure OrderlyCall (e : LibraryEnv) (c : LibraryCall) : Prop where
  memory : e.sortMemory = true
  sorts : SortsRanges e.qsort
  plain : nameIsNis c.request.owner = false
  stop_le : c.request.start.toNat + c.request.count.toNat ≤ 2^64

theorem Isolated.of_perm (h : Isolated disk) (hplain : PlainLines disk') (hperm : (rangesOn disk').Perm (rangesOn disk)) :
    Isolated disk' :=
  ⟨hplain,fun r hr => h.nonzero r (hperm.subset hr),h.apart.of_perm hperm⟩

/-- A grant takes a block that no range meets, or adds nothing. -/
theorem Isolated.granted {e : LibraryEnv} {range new : SubordinateRange} {reuse ok busy : Bool} (h : Isolated disk)
    (hmemory : e.sortMemory = true) (hsorts : SortsRanges e.qsort) (hnis : nameIsNis range.owner = false)
    (heffect : GrantEffect e range reuse disk disk' ok new busy) : Isolated disk' := by
  cases heffect with
  | refused _ hperm hplain => exact h.of_perm (hplain hnis h.plain) hperm
  | reused _ _ _ _ hsame =>
    rw [hsame]
    exact h
  | added hcount hfilled hfile _ hlowest hplain =>
    rcases hfile with hperm | ⟨htext,hperm⟩
    · exact h.of_perm (hplain hnis h.plain) hperm
    · obtain ⟨hfree,_⟩ := hlowest ⟨hmemory,h.plain,hsorts⟩ htext.toFits
      obtain ⟨start,rfl⟩ := hfilled
      refine ⟨hplain hnis h.plain,?_,(h.apart.concat hfree.free).of_perm hperm⟩
      intro r hr
      rcases List.mem_append.mp (hperm.subset hr) with hr | hr
      · exact h.nonzero r hr
      · rw [List.mem_singleton.mp hr]
        exact fun hzero => hcount hzero.2

/-- A release gives no id to more ranges than before. -/
theorem Isolated.released {e : LibraryEnv} {range : SubordinateRange} {ok : Bool} (h : Isolated disk)
    (hstop : range.start.toNat + range.count.toNat ≤ 2^64) (heffect : ReleaseEffect e range disk disk' ok) : Isolated disk' := by
  refine ⟨heffect.plain h.plain,heffect.nonzero h.nonzero,?_⟩
  apply apart_iff_holders.mpr
  intro id
  exact (heffect.holders hstop (fun r hr _ => h.nonzero r hr) id).trans (apart_iff_holders.mp h.apart id)

theorem Isolated.call {e : LibraryEnv} {c : LibraryCall} {s s' : SubidLibrary} {ok : Bool} {new : SubordinateRange}
    (h : Isolated (s.disk c.kind)) (horderly : OrderlyCall e c) (heffect : CallEffect e s s' c ok new) : Isolated (s'.disk c.kind) := by
  cases heffect with
  | elsewhere _ hsame =>
    rw [hsame]
    exact h
  | tidied _ _ hsame =>
    rw [hsame]
    exact h
  | granted _ heffect => exact h.granted horderly.memory horderly.sorts horderly.plain heffect
  | released _ _ heffect => exact h.released horderly.stop_le heffect

/-- What can happen to the file of one kind of ids: a run of `newusers` or `useradd` that comes to the
closing of the file, or a call of the library in some process. -/
inductive AllocationStep (kind : IdKind) : Disk → Disk → Prop
  | newusers {disk : Disk} {e : NewusersEnv} {files : NewusersFiles} {lines : List Bytes} {s : Newusers} (selinux : Bool)
      (steps : CloseSteps) (file : disk.file = files.subids kind) (used : Newusers.isSub e files kind = true)
      (sorts : SortsRanges e.qsort) (memory : ∀ n, e.memory n 8 = true) (defs : LinearBlocks kind e.defs)
      (owners : ∀ line ∈ lines, ∀ f, lineFields line = some f → PlainOwner f.name) (run : newusers e files lines = .ok s) :
      AllocationStep kind disk (commonioClose selinux (plainCloseOps subordinatePut) steps (s.subids kind) disk.file disk).2.2
  | useradd {disk : Disk} {e : UseraddEnv} {o : UseraddOptions} {passwd : Option Bytes} {files : IdKind → Option Bytes}
      {u u' : Useradd} (selinux : Bool) (steps : CloseSteps) (file : disk.file = files kind)
      (used : Useradd.shouldAssignSubid e o kind (files kind) u.userId = true) (sorts : SortsRanges e.qsort)
      (memory : e.subidMemory kind 0 = true) (defs : LinearBlocks kind e.defs) (owner : PlainOwner o.userName)
      (prepare : Useradd.prepare e o passwd files = .ok u) (run : Useradd.usrUpdate e o files u = .ok u') :
      AllocationStep kind disk (commonioClose selinux (plainCloseOps subordinatePut) steps (u'.subids kind) disk.file disk).2.2
  | library {e : LibraryEnv} {c : LibraryCall} {s s' : SubidLibrary} {ok : Bool} {new : SubordinateRange} (own : c.kind = kind)
      (settled : s.Settled) (orderly : OrderlyCall e c) (run : c.run e s = some (ok,new,s')) :
      AllocationStep kind (s.disk kind) (s'.disk kind)

theorem Newusers.openFiles_allocatable {e : NewusersEnv} {files : NewusersFiles} {s : Newusers} (h : Isolated disk)
    (hfile : disk.file = files.subids kind) (hused : isSub e files kind = true) (hrun : openFiles e files = .ok s) :
    ∃ l, Allocatable (s.subids kind) l := by
  have hopened : ∀ {calls : Bool × Bool} {db : Db SubordinateRange},
      openUsed subidStorage.toStorage (isSub e files kind) (files.subids kind) calls = .ok db → ∃ l, Allocatable db l := by
    intro calls db hopen
    unfold openUsed at hopen
    rw [hused,Bool.not_true,if_neg Bool.false_ne_true] at hopen
    split at hopen
    · cases hopen
    · rename_i hfirst
      cases hopen
      exact h.openFirst hfile hfirst
  unfold openFiles at hrun
  split at hrun
  · cases hrun
  · obtain ⟨_,_,hrun⟩ := except_bind_eq_ok.mp hrun
    obtain ⟨_,_,hrun⟩ := except_bind_eq_ok.mp hrun
    obtain ⟨_,_,hrun⟩ := except_bind_eq_ok.mp hrun
    obtain ⟨_,_,hrun⟩ := except_bind_eq_ok.mp hrun
    obtain ⟨_,huid,hrun⟩ := except_bind_eq_ok.mp hrun
    obtain ⟨_,hgid,hrun⟩ := except_bind_eq_ok.mp hrun
    cases hrun
    cases kind with
    | uid => exact hopened huid
    | gid => exact hopened hgid

theorem AllocationStep.isolated (hstep : AllocationStep kind disk disk') (h : Isolated disk) : Isolated disk' := by
  cases hstep with
  | newusers selinux steps hfile hused hsorts hmemory hdefs howners hrun =>
    unfold Programs.newusers at hrun
    obtain ⟨s₀,hopen,hlines⟩ := except_bind_eq_ok.mp hrun
    have hopened := Newusers.openFiles_allocatable h hfile hused hopen
    obtain ⟨l,hdone⟩ := Newusers.addLines_allocatable hsorts hmemory hdefs howners hused hopened hlines
    exact h.closed hdone selinux steps
  | useradd selinux steps hfile hused hsorts hmemory hdefs howner hprepare hrun =>
    obtain ⟨hopened,hnew⟩ := Useradd.prepare_allocatable h hfile hsorts hmemory hdefs hused hprepare
    obtain ⟨l,hdone⟩ := Useradd.usrUpdate_allocatable howner hopened hnew hrun
    exact h.closed hdone selinux steps
  | library hown hsettled horderly hrun =>
    subst hown
    obtain ⟨_,_,_,hrun',_,_,heffect⟩ := LibraryCall.effect hsettled _ _
    obtain ⟨rfl,rfl,rfl⟩ := Prod.mk.inj (Option.some.inj (hrun'.symm.trans hrun)) |>.imp_right Prod.mk.inj
    exact h.call horderly heffect

/-- However the programs and the calls of the library follow each other, no id of the file is in two
ranges. -/
theorem allocations_keep_users_apart (h : Isolated disk) (hsteps : Relation.ReflTransGen (AllocationStep kind) disk disk') :
    Isolated disk' := by
  induction hsteps with
  | refl => exact h
  | tail _ hstep ih => exact hstep.isolated ih

end Runs

def libraryCalled : LibraryEnv where
  accounts := accountsOf [⟨ascii "u",[120],1000,1000,[],ascii "/home/u",ascii "/bin/sh"⟩]
  nss := false
  qsort := insertionSort
  root := true
  lckpwdf := true
  lockMemory := true
  doLockFile _ := true
  opens := true
  readError := false
  openMemory := true
  sortMemory := true
  entryMemory _ := true
  selinux := false
  steps := allSteps

def assignedOnce : Disk := ⟨some (ascii "u:100000:65536\n"),none⟩

def rangeForOther : LibraryCall := .grant .uid ⟨⟨ascii "v",100000,65536⟩,⟨by decide,by decide⟩⟩ false

private theorem assignedOnce_isolated : Isolated assignedOnce := by
  have hranges : rangesOn assignedOnce = [⟨ascii "u",100000,65536⟩] := by decide +kernel
  have hlines : (readFile subordinateOps assignedOnce.file).map (·.map Record.line) = some [some (ascii "u:100000:65536")] := by
    decide +kernel
  refine ⟨?_,?_,?_⟩
  · intro records hread record hrecord
    rw [hread] at hlines
    have hline : record.line ∈ [some (ascii "u:100000:65536")] := by
      rw [← Option.some.inj hlines]
      exact List.mem_map_of_mem hrecord
    rw [List.mem_singleton.mp hline]
    rfl
  · unfold NothingAtZero
    rw [hranges]
    exact List.forall_mem_singleton.mpr (by decide)
  · rw [hranges]
    exact List.pairwise_singleton _ _

/-- Behind the range of `u` stands one for the user of a run of `newusers`. -/
def bothAssigned : Disk := ⟨some (ascii "u:100000:65536\na:165536:65536\n"),assignedOnce.file⟩
def assignedFiles : NewusersFiles := { rootFiles with subids := fun _ => assignedOnce.file }
def closedRun (s : Newusers) : Disk :=
  (commonioClose false (plainCloseOps subordinatePut) allSteps (s.subids .uid) assignedOnce.file assignedOnce).2.2

def releaseOfFirst : LibraryCall := .ungrant .uid ⟨⟨ascii "u",100000,65536⟩,⟨by decide,by decide⟩⟩

/-- The answers to a grant and a release, and the file after each. -/
def grantAndRelease : Option ((Bool × SubordinateRange × Option Bytes) × Bool × Option Bytes) := do
  let (granted,new,s₁) ← rangeForOther.run libraryCalled (SubidLibrary.initial fun _ => bothAssigned)
  let (released,_,s₂) ← releaseOfFirst.run libraryCalled s₁
  return ((granted,new,(s₁.disk .uid).file),released,(s₂.disk .uid).file)

theorem allocations_keep_users_apart_granted :
    ∃ s, newusers plainNewusersEnv assignedFiles [newLine] = .ok s ∧ closedRun s = bothAssigned ∧
    ∃ new s₁, rangeForOther.run libraryCalled (SubidLibrary.initial fun _ => bothAssigned) = some (true,new,s₁) ∧
      new = ⟨ascii "v",231072,65536⟩ ∧ ∃ range s₂, releaseOfFirst.run libraryCalled s₁ = some (true,range,s₂) ∧
        (s₂.disk .uid).file = some (ascii "a:165536:65536\nv:231072:65536\n") ∧ Isolated (s₂.disk .uid) := by
  have hmade : (newusers plainNewusersEnv assignedFiles [newLine]).toOption.map closedRun = some bothAssigned := by decide +kernel
  have hanswers : grantAndRelease = some ((true,⟨ascii "v",231072,65536⟩,some (ascii "u:100000:65536\na:165536:65536\nv:231072:65536\n")),
      true,some (ascii "a:165536:65536\nv:231072:65536\n")) := by decide +kernel
  have hsettled := initial_settled fun _ => bothAssigned
  obtain ⟨granted,new,s₁,hgrant,hsettled₁,_⟩ := LibraryCall.effect hsettled libraryCalled rangeForOther
  obtain ⟨released,range,s₂,hrelease,_⟩ := LibraryCall.effect hsettled₁ libraryCalled releaseOfFirst
  rw [grantAndRelease,hgrant,Option.bind_eq_bind,Option.bind_some] at hanswers
  simp only [hrelease,Option.bind_some,Option.pure_def,Option.some.injEq,Prod.mk.injEq] at hanswers
  obtain ⟨⟨rfl,rfl,_⟩,rfl,hfile⟩ := hanswers
  cases hrun : newusers plainNewusersEnv assignedFiles [newLine] with
  | error exit =>
    rw [hrun] at hmade
    cases hmade
  | ok s =>
    rw [hrun] at hmade
    have hclosed : closedRun s = bothAssigned := Option.some.inj hmade
    have howners : ∀ line ∈ [newLine], ∀ f, lineFields line = some f → PlainOwner f.name := by
      intro line hline f hf
      have hname : (lineFields newLine).map LineFields.name = some (ascii "a") := by decide +kernel
      rw [← List.mem_singleton.mp hline,hf] at hname
      rw [Option.some.inj hname]
      exact ⟨⟨by decide,by decide⟩,by decide⟩
    have hnew : AllocationStep .uid assignedOnce (closedRun s) :=
      .newusers false allSteps rfl (by decide +kernel) insertionSort_sortsRanges (fun _ => rfl) ⟨rfl,by decide⟩ howners hrun
    rw [hclosed] at hnew
    have hgranted := AllocationStep.library rfl hsettled ⟨rfl,insertionSort_sortsRanges,rfl,by decide⟩ hgrant
    have hreleased := AllocationStep.library rfl hsettled₁ ⟨rfl,insertionSort_sortsRanges,rfl,by decide⟩ hrelease
    exact ⟨s,rfl,hclosed,_,s₁,hgrant,rfl,range,s₂,hrelease,hfile,
      allocations_keep_users_apart assignedOnce_isolated (((Relation.ReflTransGen.single hnew).tail hgranted).tail hreleased)⟩

end UserDb.Programs
