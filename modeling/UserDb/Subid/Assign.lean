import UserDb.Subid.Add
import UserDb.Subid.Deterministic
import UserDb.Commonio.Chain

/-! A new range for a user without one: the test for a range of the user, the search for a new one,
and the call that adds it. The search may sort the database in front of NIS lines. -/
namespace UserDb.Subid
open UserDb.Base UserDb.Atoi UserDb.Commonio

def subidItems : IdKind → SubidItems
  | .uid => subUidItems
  | .gid => subGidItems

/-- Whether a database has a range of the user. -/
def rangeExists (accounts : Accounts) (db : Db SubordinateRange) (owner : Bytes) : Bool × Db SubordinateRange :=
  match searchEntry (fun r => isSameUser accounts r.owner owner) db with
  | (some _,db) => (true,db)
  | (none,db) => (false,db)

/-- A new range, and the database as the search for a free block leaves it. -/
def findNewRange (qsort : Qsort) (memory : Bool) (kind : IdKind) (defs : LoginDefs) (uid : UInt32)
    (db : Db SubordinateRange) : Option (UInt32 × UInt64) × Db SubordinateRange :=
  let items := subidItems kind
  let findFree := fun (min max : UInt32) (count : UInt64) => findFreeRange qsort db min max count memory
  (findNewSubids items defs (fun min max count => (findFree min max count).1) uid,
    if getdefBool defs items.deterministic then db
    else (findFree (getdefUlong defs items.min 100000).toUInt32 (getdefUlong defs items.max 600100000).toUInt32
      (getdefUlong defs items.count 65536)).2)

/-- How a user is spelled in a new range, where that can be told. -/
def ownerSpelling (kind : IdKind) (accounts : Accounts) (defs : LoginDefs) (user : Bytes) : Option Bytes :=
  if getdefBool defs kind.storeByUid then (getpwUidOrNam accounts user).map fun pw => numeral pw.uid.toNat else some user

/-- A range of the user, as the accounts tell it. -/
def Recognized (accounts : Accounts) (user : Bytes) (rs : List SubordinateRange) : Prop :=
  ∃ r ∈ rs, isSameUser accounts r.owner user = true

/-- An interval that the user has already under the spelling of a new range. -/
def CoveredFor (kind : IdKind) (accounts : Accounts) (defs : LoginDefs) (user : Bytes) (db : Db SubordinateRange)
    (start : UInt32) (count : UInt64) : Prop :=
  ∃ owner db', ownerSpelling kind accounts defs user = some owner ∧
    haveRange accounts kind.filename db owner start.toUInt64 count = some (true,db')

variable {kind : IdKind} {accounts : Accounts} {defs : LoginDefs} {filename owner user : Bytes} {db db' : Db SubordinateRange}
  {l : List Nat} {nss memory : Bool} {start : UInt32} {count : UInt64}

theorem rangeExists_spec (hchained : Chained db l) (hopen : db.isopen = true) (accounts : Accounts) (user : Bytes) :
    ((rangeExists accounts db user).1 = true ↔ Recognized accounts user (entriesOf (l.map db.record))) ∧
      MovedCursor db (rangeExists accounts db user).2 l := by
  obtain ⟨hfind,hmoved⟩ := hchained.searchEntry_eq (fun r => isSameUser accounts r.owner user) hopen
  unfold rangeExists Recognized
  rcases hrun : searchEntry (fun r => isSameUser accounts r.owner user) db with ⟨_ | r,db₁⟩
  · rw [hrun] at hfind hmoved ⊢
    refine ⟨iff_of_false Bool.false_ne_true ?_,hmoved⟩
    rintro ⟨r,hr,hsame⟩
    exact List.find?_eq_none.mp hfind.symm r hr hsame
  · rw [hrun] at hfind hmoved ⊢
    have hfound : (entriesOf (l.map db.record)).find? (fun r => isSameUser accounts r.owner user) = some r := hfind.symm
    have htest := List.find?_some hfound
    exact ⟨iff_of_true rfl ⟨r,List.mem_of_find?_eq_some hfound,htest⟩,hmoved⟩

private theorem findRange_moved (hchain : Chain db l) (hopen : db.isopen = true) (val : UInt64) :
    MovedCursor db (findRange accounts filename db owner val).2 l := by
  unfold findRange
  have hmoved := (hchain.searchEntry_eq
    (fun r : SubordinateRange => r.count != 0 && r.owner == owner && (r.start ≤ val && val ≤ r.last)) hopen).2
  rcases hrun : searchEntry
    (fun r : SubordinateRange => r.count != 0 && r.owner == owner && (r.start ≤ val && val ≤ r.last)) db with ⟨_ | r,db₁⟩
  · rw [hrun] at hmoved
    simp only
    split
    · exact hmoved
    · exact hmoved.trans ((hmoved.chain hchain).searchEntry_eq _ (hmoved.flags.1.trans hopen)).2
  · rw [hrun] at hmoved
    exact hmoved

/-- The test whether an interval is covered moves the cursor only, whatever the ranges are. -/
theorem haveRangeFrom_moved {stop start count : UInt64} {fuel : Nat} {covered : Bool} (hchain : Chain db l)
    (hopen : db.isopen = true) (h : haveRangeFrom accounts filename owner stop fuel start count db = some (covered,db')) :
    MovedCursor db db' l := by
  induction fuel generalizing db start count with
  | zero => cases h
  | succ fuel ih =>
    have hmoved : MovedCursor db (findRange accounts filename db owner start).2 l := findRange_moved hchain hopen start
    unfold haveRangeFrom at h
    rcases hrun : findRange accounts filename db owner start with ⟨_ | r,db₁⟩
    · rw [hrun] at h hmoved
      cases h
      exact hmoved
    · rw [hrun] at h hmoved
      simp only at h
      split at h
      · cases h
        exact hmoved
      · exact hmoved.trans (ih (hmoved.chain hchain) (hmoved.flags.1.trans hopen) h)

theorem haveRange_moved {start count : UInt64} {covered : Bool} (hchain : Chain db l) (hopen : db.isopen = true)
    (h : haveRange accounts filename db owner start count = some (covered,db')) : MovedCursor db db' l := by
  unfold haveRange at h
  split at h
  · cases h
    exact ⟨db.cursor,rfl,hchain.cursor⟩
  · exact haveRangeFrom_moved hchain hopen h

/-- A database in another order. -/
structure Reordered (db db' : Db SubordinateRange) (l : List Nat) : Prop where
  chained : ∃ l', Chained db' l' ∧ l'.Perm l
  record : db'.record = db.record
  isopen : db'.isopen = db.isopen

theorem reordered_of_moved (h : MovedCursor db db' l) (hchained : Chained db l) : Reordered db db' l :=
  ⟨⟨l,h.chained hchained,.refl l⟩,h.record,h.flags.1⟩

/-- The search for a free block sorts the database at most. -/
theorem findFreeRange_reordered (hchained : Chained db l) (hopen : db.isopen = true) (qsort : Qsort) (min max : UInt32)
    (count : UInt64) (memory : Bool) : Reordered db (findFreeRange qsort db min max count memory).2 l := by
  unfold findFreeRange
  simp only
  split
  · exact ⟨⟨l,hchained,.refl l⟩,rfl,rfl⟩
  · obtain ⟨l',hchained',hperm,hrecord,hisopen⟩ := hchained.commonioSort qsort subordinateRangeCmp memory
    obtain ⟨_,hmoved⟩ := hchained'.forEachEntry_eq (scanRange max (signed count)) (min.toNat : Int) (hisopen.trans hopen)
    have hreordered : ∀ {found : UInt32 × Db SubordinateRange}, found.2 =
        (forEachEntry (scanRange max (signed count)) (min.toNat : Int) (commonioSort qsort subordinateRangeCmp db memory).2).2 →
        Reordered db found.2 l := fun heq =>
      heq ▸ ⟨⟨l',hmoved.chained hchained',hperm⟩,hmoved.record.trans hrecord,hmoved.flags.1.trans hisopen⟩
    split
    · rename_i heq
      exact hreordered (by rw [heq])
    · rename_i heq
      exact hreordered (by rw [heq])

theorem findNewRange_reordered (hchained : Chained db l) (hopen : db.isopen = true) (qsort : Qsort) (memory : Bool) (kind : IdKind)
    (defs : LoginDefs) (uid : UInt32) : Reordered db (findNewRange qsort memory kind defs uid db).2 l := by
  unfold findNewRange
  simp only
  split
  · exact ⟨⟨l,hchained,.refl l⟩,rfl,rfl⟩
  · exact findFreeRange_reordered hchained hopen qsort _ _ _ memory

/-- A call that succeeds found the interval covered, or appended it. -/
theorem subidAdd_cases (hchained : Chained db l) (hopen : db.isopen = true)
    (h : subidAdd kind accounts nss defs memory db user start count = some (true,db')) :
    (CoveredFor kind accounts defs user db start count ∧ MovedCursor db db' l) ∨
    (¬ CoveredFor kind accounts defs user db start count ∧ db'.isopen = true ∧
      ∃ owner l', ownerSpelling kind accounts defs user = some owner ∧ Chained db' l' ∧
        l'.map db'.record = l.map db.record ++ [editedRecord none ⟨owner,start.toUInt64,count⟩]) := by
  obtain ⟨owner,howner,hadd⟩ : ∃ owner, ownerSpelling kind accounts defs user = some owner ∧
      addRange accounts kind.filename memory db owner start.toUInt64 count = some (true,db') := by
    unfold subidAdd at h
    unfold ownerSpelling
    split at h
    · cases h
    · split at h
      · rename_i hstore
        rw [if_pos hstore]
        split at h
        · cases h
        · rename_i pw hpw
          rw [hpw]
          exact ⟨_,rfl,h⟩
      · rename_i hstore
        rw [if_neg hstore]
        exact ⟨user,rfl,h⟩
  unfold addRange at hadd
  split at hadd
  · cases hadd
  · rename_i db₁ hhave
    cases hadd
    exact .inl ⟨⟨owner,_,howner,hhave⟩,haveRange_moved hchained.toChain hopen hhave⟩
  · rename_i db₁ hhave
    have hmoved := haveRange_moved hchained.toChain hopen hhave
    have happend := Option.some.inj hadd
    rcases (hmoved.chained hchained).append _ memory happend with ⟨hfalse,_⟩ | ⟨_,hisopen,hchained',hrecord⟩
    · cases hfalse
    · refine .inr ⟨?_,hisopen.trans (hmoved.flags.1.trans hopen),owner,_,howner,hchained',?_⟩
      · rintro ⟨owner',db₂,howner',hhave'⟩
        obtain rfl := Option.some.inj (howner.symm.trans howner')
        rw [hhave] at hhave'
        cases hhave'
      · rw [hrecord,hmoved.record]

end UserDb.Subid
