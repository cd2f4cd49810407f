import UserDb.Subid.Ranges
import UserDb.Commonio.Cursor
import UserDb.Commonio.Passwd

/-! Which ids a user is authorized for: the search for a range with an id, and the loop that
decides whether the ranges cover an interval. -/
namespace UserDb.Subid
open UserDb.Base UserDb.Atoi UserDb.Commonio

/-- The accounts that the library finds, by user id and by name. -/
structure Accounts where
  getpwuid : UInt32 → Option Passwd
  getpwnam : Bytes → Option Passwd

def getpwUidOrNam (accounts : Accounts) (u : Bytes) : Option Passwd :=
  match getUid u with
  | some uid => accounts.getpwuid uid.toUInt32
  | none => accounts.getpwnam u

def isSameUser (accounts : Accounts) (a b : Bytes) : Bool :=
  match getpwUidOrNam accounts a with
  | none => false
  | some pw =>
    match getpwUidOrNam accounts b with
    | none => false
    | some pw' => pw.uid == pw'.uid

section Program
variable (accounts : Accounts) (filename : Bytes)

def findRange (db : Db SubordinateRange) (owner : Bytes) (val : UInt64) :
    Option SubordinateRange × Db SubordinateRange :=
  match searchEntry (fun r => r.count != 0 && r.owner == owner && (r.start ≤ val && val ≤ r.last)) db with
  | (some r,db) => (some r,db)
  | (none,db) =>
    if filename != subuidFile && filename != subgidFile then (none,db)
    else
      -- again, for owners that are other spellings of the same user
      searchEntry (fun r => r.count != 0 && !(val < r.start || r.last < val) && isSameUser accounts r.owner owner) db

/-- The loop over the ranges that hold the next id, with the interval that is left. -/
def haveRangeFrom (owner : Bytes) (stop : UInt64) :
    Nat → UInt64 → UInt64 → Db SubordinateRange → Option (Bool × Db SubordinateRange)
  | 0, _, _, _ => none
  | fuel + 1, start, count, db =>
    match findRange accounts filename db owner start with
    | (none,db) => some (false,db)
    | (some r,db) =>
      if start + count - 1 ≤ r.last then some (true,db)
      else haveRangeFrom owner stop fuel (r.last + 1) (stop - r.last) db

/-- Whether an open database authorizes an owner for an interval. Each round of the loop goes past
one id of it at least. -/
def haveRange (db : Db SubordinateRange) (owner : Bytes) (start count : UInt64) :
    Option (Bool × Db SubordinateRange) :=
  if count = 0 then some (false,db)
  else haveRangeFrom accounts filename owner (start + count - 1) (count.toNat + 1) start count db

end Program

variable {accounts : Accounts} {filename owner : Bytes} {db db' : Db SubordinateRange} {l : List Nat}
  {rs : List SubordinateRange} {r : SubordinateRange}

/-- A range that is the owner's by name, or that of the same user. -/
def Authorizes (accounts : Accounts) (owner : Bytes) (r : SubordinateRange) : Prop :=
  r.owner = owner ∨ isSameUser accounts r.owner owner = true

/-- The ids of the ranges with some property. -/
def idsOf (P : SubordinateRange → Prop) (rs : List SubordinateRange) : Set Nat := {id | ∃ r ∈ rs, P r ∧ id ∈ r.ids}

/-- No range goes around the end of the word. -/
def NoneWraps (rs : List SubordinateRange) : Prop := ∀ r ∈ rs, r.start.toNat + r.count.toNat ≤ 2^64

/-- What the comparisons of the loops say, for a range that does not wrap. -/
theorem mem_ids_iff_le (hstop : r.start.toNat + r.count.toNat ≤ 2^64) {val : UInt64} :
    val.toNat ∈ r.ids ↔ r.count ≠ 0 ∧ r.start ≤ val ∧ val ≤ r.last := by
  rw [UInt64.le_iff_toNat_le,UInt64.le_iff_toNat_le]
  have hzero : r.count ≠ 0 ↔ 0 < r.count.toNat := by
    rw [ne_eq,← UInt64.toNat_inj,show (0 : UInt64).toNat = 0 from rfl]
    omega
  rw [hzero]
  constructor
  · intro hval
    have hcount : 0 < r.count.toNat := by
      rcases Nat.eq_zero_or_pos r.count.toNat with h | h
      · rw [SubordinateRange.ids_of_count_zero h] at hval
        exact absurd hval (Set.notMem_empty _)
      · exact h
    exact ⟨hcount,(SubordinateRange.mem_ids_iff hcount hstop).mp hval⟩
  · rintro ⟨hcount,hends⟩
    exact (SubordinateRange.mem_ids_iff hcount hstop).mpr hends

/-- A search of both passes is sound and complete for the ranges of the owner. -/
theorem findRange_spec (accounts : Accounts) (hchain : Chain db l) (hopen : db.isopen = true)
    (hfile : filename = subuidFile ∨ filename = subgidFile) (hwrap : NoneWraps (entriesOf (l.map db.record)))
    (owner : Bytes) (val : UInt64) :
    (∀ r, (findRange accounts filename db owner val).1 = some r →
      r ∈ entriesOf (l.map db.record) ∧ Authorizes accounts owner r ∧ val.toNat ∈ r.ids) ∧
    ((findRange accounts filename db owner val).1 = none →
      val.toNat ∉ idsOf (Authorizes accounts owner) (entriesOf (l.map db.record))) ∧
    MovedCursor db (findRange accounts filename db owner val).2 l := by
  unfold findRange
  obtain ⟨hfirst,hmoved⟩ := Chain.searchEntry_eq
    (fun r : SubordinateRange => r.count != 0 && r.owner == owner && (r.start ≤ val && val ≤ r.last)) hchain hopen
  rcases hrun : searchEntry
    (fun r : SubordinateRange => r.count != 0 && r.owner == owner && (r.start ≤ val && val ≤ r.last)) db with ⟨result,db₁⟩
  rw [hrun] at hfirst hmoved
  obtain rfl : result = _ := hfirst
  cases hfind : (entriesOf (l.map db.record)).find?
      fun r : SubordinateRange => r.count != 0 && r.owner == owner && (r.start ≤ val && val ≤ r.last) with
  | some r =>
    have hr := List.mem_of_find?_eq_some hfind
    have htest := List.find?_some hfind
    simp only [Bool.and_eq_true,bne_iff_ne,beq_iff_eq,decide_eq_true_eq] at htest
    refine ⟨fun r' hr' => ?_,(by intros; contradiction),hmoved⟩
    cases hr'
    exact ⟨hr,.inl htest.1.2,(mem_ids_iff_le (hwrap r hr)).mpr ⟨htest.1.1,htest.2⟩⟩
  | none =>
    have hnone := List.find?_eq_none.mp hfind
    have hstandard : (filename != subuidFile && filename != subgidFile) = false := by
      rcases hfile with rfl | rfl <;> simp
    simp only [hstandard,Bool.false_eq_true,if_false]
    have hchain₁ := hmoved.chain hchain
    obtain ⟨hsecond,hmoved₁⟩ := Chain.searchEntry_eq
      (fun r : SubordinateRange => r.count != 0 && !(val < r.start || r.last < val) && isSameUser accounts r.owner owner)
      hchain₁ (hmoved.flags.1.trans hopen)
    rw [hsecond,hmoved.record]
    refine ⟨fun r hr' => ?_,fun hr' => ?_,hmoved.trans hmoved₁⟩
    · have hr := List.mem_of_find?_eq_some hr'
      have htest := List.find?_some hr'
      simp only [Bool.and_eq_true,bne_iff_ne,Bool.not_eq_true',Bool.or_eq_false_iff,decide_eq_false_iff_not,
        UInt64.not_lt] at htest
      exact ⟨hr,.inr htest.2,(mem_ids_iff_le (hwrap r hr)).mpr ⟨htest.1.1,htest.1.2⟩⟩
    · rintro ⟨r,hr,howner,hval⟩
      obtain ⟨hcount,hstart,hlast⟩ := (mem_ids_iff_le (hwrap r hr)).mp hval
      rcases howner with rfl | hsame
      · exact hnone r hr (by simp [hcount,hstart,hlast])
      · exact List.find?_eq_none.mp hr' r hr (by simp [hcount,UInt64.not_lt.mpr hstart,UInt64.not_lt.mpr hlast,hsame])

/-- The loop ends, and tells whether the rest of the interval is covered. -/
theorem haveRangeFrom_spec (accounts : Accounts) (owner : Bytes) (hfile : filename = subuidFile ∨ filename = subgidFile)
    (hwrap : NoneWraps (entriesOf (l.map db.record))) {stop : UInt64} {fuel : Nat} {start count : UInt64}
    (hchain : Chain db l) (hopen : db.isopen = true) (hle : start.toNat ≤ stop.toNat) (hcount : start + count - 1 = stop)
    (hfuel : stop.toNat - start.toNat < fuel) :
    ∃ covered db', haveRangeFrom accounts filename owner stop fuel start count db = some (covered,db') ∧
      (covered = true ↔
        Set.Icc start.toNat stop.toNat ⊆ idsOf (Authorizes accounts owner) (entriesOf (l.map db.record))) ∧
      MovedCursor db db' l := by
  induction fuel generalizing db start count with
  | zero => omega
  | succ fuel ih =>
    obtain ⟨hsome,hnone,hmoved⟩ := findRange_spec accounts hchain hopen hfile hwrap owner start
    rcases hrun : findRange accounts filename db owner start with ⟨result,db₁⟩
    rw [hrun] at hsome hnone hmoved
    cases result with
    | none =>
      refine ⟨false,db₁,by simp only [haveRangeFrom,hrun],?_,hmoved⟩
      refine ⟨nofun,fun hsub => absurd (hsub ⟨le_rfl,hle⟩) (hnone rfl)⟩
    | some r =>
      obtain ⟨hr,howner,hmem⟩ := hsome r rfl
      obtain ⟨hne,hstart,hlast⟩ := (mem_ids_iff_le (hwrap r hr)).mp hmem
      have hids : ∀ id, start.toNat ≤ id → id ≤ r.last.toNat →
          id ∈ idsOf (Authorizes accounts owner) (entriesOf (l.map db.record)) := fun id hge hid => by
        have hpos : 0 < r.count.toNat := by
          by_contra hzero
          exact hne (UInt64.toNat_inj.mp (by simpa using hzero))
        refine ⟨r,hr,howner,(SubordinateRange.mem_ids_iff hpos (hwrap r hr)).mpr ⟨?_,hid⟩⟩
        exact (UInt64.le_iff_toNat_le.mp hstart).trans hge
      simp only [haveRangeFrom,hrun,hcount]
      by_cases hdone : stop ≤ r.last
      · rw [if_pos hdone]
        refine ⟨true,db₁,rfl,⟨fun _ id hid => ?_,fun _ => rfl⟩,hmoved⟩
        exact hids id hid.1 (hid.2.trans (UInt64.le_iff_toNat_le.mp hdone))
      · rw [if_neg hdone]
        rw [UInt64.le_iff_toNat_le] at hdone hlast
        have hnext : (r.last + 1).toNat = r.last.toNat + 1 := by
          have hlt := stop.toNat_lt
          rw [UInt64.toNat_add,show (1 : UInt64).toNat = 1 from rfl]
          omega
        have hrest : r.last + 1 + (stop - r.last) - 1 = stop := by grind
        have hrecord := hmoved.record
        obtain ⟨covered,db',heq,hcovered,hmoved'⟩ := ih (by rwa [hrecord]) (hmoved.chain hchain)
          (hmoved.flags.1.trans hopen) (by omega) hrest (by omega)
        refine ⟨covered,db',heq,?_,hmoved.trans hmoved'⟩
        rw [hcovered,hrecord,hnext]
        constructor
        · intro hsub id hid
          rcases Nat.lt_or_ge r.last.toNat id with hlt | hge
          · exact hsub ⟨hlt,hid.2⟩
          · exact hids id hid.1 hge
        · intro hsub id hid
          exact hsub ⟨by have := hid.1; omega,hid.2⟩

/-- On an open database of ranges that do not wrap. -/
theorem haveRange_spec (accounts : Accounts) (hfile : filename = subuidFile ∨ filename = subgidFile)
    (hwrap : NoneWraps (entriesOf (l.map db.record))) (hchain : Chain db l) (hopen : db.isopen = true) (owner : Bytes)
    {start count : UInt64} (hstop : start.toNat + count.toNat ≤ 2^64) :
    ∃ covered db', haveRange accounts filename db owner start count = some (covered,db') ∧
      (covered = true ↔ 0 < count.toNat ∧
        Set.Ico start.toNat (start.toNat + count.toNat) ⊆ idsOf (Authorizes accounts owner) (entriesOf (l.map db.record))) ∧
      MovedCursor db db' l := by
  unfold haveRange
  by_cases hzero : count = 0
  · subst hzero
    rw [if_pos rfl]
    exact ⟨false,db,rfl,⟨nofun,fun h => absurd h.1 (lt_irrefl 0)⟩,db.cursor,rfl,hchain.cursor⟩
  · rw [if_neg hzero]
    have hpos : 0 < count.toNat := by
      by_contra h
      exact hzero (UInt64.toNat_inj.mp (by simpa using h))
    have hlast : (start + count - 1).toNat = start.toNat + count.toNat - 1 :=
      SubordinateRange.last_of_pos (r := ⟨owner,start,count⟩) hpos hstop
    have hinterval : Set.Ico start.toNat (start.toNat + count.toNat) = Set.Icc start.toNat (start + count - 1).toNat := by
      ext id
      rw [Set.mem_Ico,Set.mem_Icc,hlast]
      omega
    have hle : start.toNat ≤ (start + count - 1).toNat := by omega
    have hfuel : (start + count - 1).toNat - start.toNat < count.toNat + 1 := by omega
    obtain ⟨covered,db',heq,hcovered,hmoved⟩ :=
      haveRangeFrom_spec accounts owner hfile hwrap hchain hopen hle rfl hfuel
    refine ⟨covered,db',heq,?_,hmoved⟩
    rw [hcovered,hinterval]
    exact ⟨fun h => ⟨hpos,h⟩,And.right⟩

/-- The ranges of a file: its lines that parse, in order. -/
def fileRanges (file : Option Bytes) : Option (List SubordinateRange) := (readFile subordinateOps file).map entriesOf

theorem fileRanges_text {file : Option Bytes} (h : fileRanges file = some rs) : ∀ r ∈ rs, r.Text := by
  obtain ⟨records,hread,rfl⟩ := Option.map_eq_some_iff.mp h
  intro r hr
  obtain ⟨record,hrecord,hr⟩ := List.mem_filterMap.mp hr
  exact subidStorage.read record (readFile_isRead (namesParts_of_no_hook rfl) hread record hrecord).1 r hr

theorem noneWraps_of_fits (h : ∀ r ∈ rs, r.Fits) : NoneWraps rs := fun r hr => by
  have hstop := (h r hr).stop_le
  omega

/-- Opening a file gives its ranges, none of which leaves the ids of 32 bits. -/
theorem commonioOpen_ranges {db₀ : Db SubordinateRange} {access : AccessMode} {create memory : Bool}
    {file : Option Bytes} (h : commonioOpen subordinateOps db₀ access create (fileState file) memory = (true,db)) :
    ∃ l, Rep db l false ∧ db.isopen = true ∧ fileRanges file = some (entriesOf (l.map db.record)) := by
  obtain ⟨l,stale,hread,hloaded,hopen,hstale⟩ := commonioOpen_loaded (namesParts_of_no_hook rfl) h
  obtain rfl := hstale rfl
  exact ⟨l,hloaded.rep,hopen,by rw [fileRanges,hread]; rfl⟩

/-- On every opened file the loop ends, and it tells whether each id of the interval is in a range
that authorizes the owner. -/
theorem haveRange_decides_coverage (accounts : Accounts) (hfile : filename = subuidFile ∨ filename = subgidFile)
    {db₀ : Db SubordinateRange} {access : AccessMode} {create memory : Bool} {file : Option Bytes}
    (hopen : commonioOpen subordinateOps db₀ access create (fileState file) memory = (true,db)) (owner : Bytes)
    (start count : UInt64) (hstop : start.toNat + count.toNat ≤ 2^64) :
    ∃ rs covered db', fileRanges file = some rs ∧
      haveRange accounts filename db owner start count = some (covered,db') ∧
      (covered = true ↔ 0 < count.toNat ∧ ∀ id, start.toNat ≤ id → id < start.toNat + count.toNat →
        ∃ r ∈ rs, (r.owner = owner ∨ isSameUser accounts r.owner owner = true) ∧ id ∈ r.ids) := by
  obtain ⟨l,hrep,hisopen,hranges⟩ := commonioOpen_ranges hopen
  have hwrap := noneWraps_of_fits fun r hr => (fileRanges_text hranges r hr).toFits
  obtain ⟨covered,db',heq,hcovered,_⟩ := haveRange_spec accounts hfile hwrap hrep.chain hisopen owner hstop
  refine ⟨_,covered,db',hranges,heq,?_⟩
  rw [hcovered]
  exact ⟨fun h => ⟨h.1,fun id hge hlt => h.2 ⟨hge,hlt⟩⟩,fun h => ⟨h.1,fun id hid => h.2 id hid.1 hid.2⟩⟩

/-- One account, which has two names. -/
def twoNames : Accounts where
  getpwuid _ := none
  getpwnam name := if name = ascii "u" ∨ name = ascii "v" then some ⟨name,[120],1000,1000,[],[],[]⟩ else none

def closedRanges : Db SubordinateRange := Db.initial (fun _ => ⟨none,none,none,none,false⟩) 0 false

def adjacentRanges : Bytes := ascii "v:0x96:10\nw:140:9\n+\nu:100:50\n"

theorem haveRange_decides_coverage_adjacent :
    ∃ db, commonioOpen subordinateOps closedRanges .rdonly false (fileState (some adjacentRanges)) true = (true,db) ∧
      (∃ db', haveRange twoNames subuidFile db (ascii "u") 120 40 = some (true,db')) ∧
      ∃ db', haveRange twoNames subuidFile db (ascii "u") 120 41 = some (false,db') := by
  obtain ⟨db,hopen⟩ : ∃ db, commonioOpen subordinateOps closedRanges .rdonly false (fileState (some adjacentRanges)) true =
      (true,db) := ⟨_,rfl⟩
  have hranges : fileRanges (some adjacentRanges) =
      some [⟨ascii "v",150,10⟩,⟨ascii "w",140,9⟩,⟨ascii "u",100,50⟩] := by decide +kernel
  obtain ⟨rs,covered,db₁,hrs,heq,hcovered⟩ := haveRange_decides_coverage twoNames (.inl rfl) hopen (ascii "u") 120 40 (by decide)
  obtain ⟨_,covered',db₂,hrs',heq',hcovered'⟩ := haveRange_decides_coverage twoNames (.inl rfl) hopen (ascii "u") 120 41 (by decide)
  obtain rfl := Option.some.inj (hrs.symm.trans hranges)
  obtain rfl := Option.some.inj (hrs'.symm.trans hranges)
  refine ⟨db,hopen,⟨db₁,?_⟩,db₂,?_⟩
  · rw [heq,hcovered.mpr ⟨by decide,fun id hge hlt => ?_⟩]
    have hge : 120 ≤ id := hge
    have hlt : id < 160 := hlt
    rcases Nat.lt_or_ge id 150 with hid | hid
    · exact ⟨⟨ascii "u",100,50⟩,by simp,.inl rfl,show 100 ≤ id ∧ id < 150 by omega⟩
    · exact ⟨⟨ascii "v",150,10⟩,by simp,.inr (by decide +kernel),show 150 ≤ id ∧ id < 160 by omega⟩
  · have hfalse : covered' = false := by
      rw [← Bool.not_eq_true,hcovered']
      rintro ⟨_,hall⟩
      obtain ⟨r,hr,_,hid⟩ := hall 160 (by decide) (by decide)
      simp only [List.mem_cons,List.not_mem_nil,or_false] at hr
      rcases hr with rfl | rfl | rfl
      · exact absurd hid (show ¬ (150 ≤ 160 ∧ 160 < 160) by omega)
      · exact absurd hid (show ¬ (140 ≤ 160 ∧ 160 < 149) by omega)
      · exact absurd hid (show ¬ (100 ≤ 160 ∧ 160 < 150) by omega)
    rw [heq',hfalse]

end UserDb.Subid
