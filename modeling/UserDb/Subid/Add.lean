import UserDb.Subid.Remove

/-! Adding an interval of ids to a user: it is appended as a range where the user is not authorized
for all of it. -/
namespace UserDb.Subid
open UserDb.Base UserDb.Atoi UserDb.Commonio

def addRange (accounts : Accounts) (filename : Bytes) (memory : Bool) (db : Db SubordinateRange) (owner : Bytes)
    (start count : UInt64) : Option (Bool × Db SubordinateRange) :=
  match haveRange accounts filename db owner start count with
  | none => none
  | some (true,db) => some (true,db)
  | some (false,db) => some (commonioAppend db ⟨owner,start,count⟩ memory)

/-- The two kinds of subordinate ids, which have a file of their own each. -/
inductive IdKind where
  | uid | gid
  deriving DecidableEq, Repr

def IdKind.filename : IdKind → Bytes
  | .uid => subuidFile
  | .gid => subgidFile

def IdKind.countItem : IdKind → Bytes
  | .uid => subUidItems.count
  | .gid => subGidItems.count

def IdKind.storeByUid : IdKind → Bytes
  | .uid => ascii "SUB_UID_STORE_BY_UID"
  | .gid => ascii "SUB_GID_STORE_BY_UID"

/-- Adding for one kind of ids, under the name or the number of the user. -/
def subidAdd (kind : IdKind) (accounts : Accounts) (nss : Bool) (defs : LoginDefs) (memory : Bool)
    (db : Db SubordinateRange) (owner : Bytes) (start : UInt32) (count : UInt64) : Option (Bool × Db SubordinateRange) :=
  if nss then some (false,db)
  else if getdefBool defs kind.storeByUid then
    match getpwUidOrNam accounts owner with
    | none => some (false,db)
    | some pw => addRange accounts kind.filename memory db (numeral pw.uid.toNat) start.toUInt64 count
  else addRange accounts kind.filename memory db owner start.toUInt64 count

def subUidAdd := subidAdd .uid
def subGidAdd := subidAdd .gid

/-- What the library promises of the accounts: one that is found by its number has it, and the
number of one that is found by its name is found. -/
structure Accounts.Consistent (accounts : Accounts) : Prop where
  uid : ∀ uid pw, accounts.getpwuid uid = some pw → pw.uid = uid
  name : ∀ name pw, accounts.getpwnam name = some pw → (accounts.getpwuid pw.uid).isSome

variable {accounts : Accounts} {filename owner user : Bytes} {db : Db SubordinateRange} {l : List Nat}
  {r : SubordinateRange} {rs : List SubordinateRange}

theorem isSameUser_iff {a b : Bytes} : isSameUser accounts a b = true ↔
    ∃ pw pw', getpwUidOrNam accounts a = some pw ∧ getpwUidOrNam accounts b = some pw' ∧ pw.uid = pw'.uid := by
  unfold isSameUser
  cases ha : getpwUidOrNam accounts a with
  | none => simp
  | some pw =>
    cases hb : getpwUidOrNam accounts b with
    | none => simp
    | some pw' => simp

theorem isSameUser_self (h : (getpwUidOrNam accounts user).isSome) : isSameUser accounts user user = true := by
  obtain ⟨pw,hpw⟩ := Option.isSome_iff_exists.mp h
  exact isSameUser_iff.mpr ⟨pw,pw,hpw,hpw,rfl⟩

/-- The number of a user is a spelling of the user. -/
theorem isSameUser_numeral (hacc : accounts.Consistent) {pw : Passwd} (h : getpwUidOrNam accounts user = some pw) :
    isSameUser accounts (numeral pw.uid.toNat) user = true := by
  have hfound : (accounts.getpwuid pw.uid).isSome := by
    unfold getpwUidOrNam at h
    split at h
    · rw [hacc.uid _ pw h,h]
      rfl
    · exact hacc.name user pw h
  obtain ⟨pw',hpw'⟩ := Option.isSome_iff_exists.mp hfound
  refine isSameUser_iff.mpr ⟨pw',pw,?_,h,hacc.uid _ pw' hpw'⟩
  rw [getpwUidOrNam,getUid_numeral pw.uid.toNat_lt]
  simpa using hpw'

/-- For a spelling of the user, the ranges that authorize are those of the user. -/
theorem authorizes_iff_owns (h : isSameUser accounts owner user = true) : Authorizes accounts owner r ↔ Owns accounts user r := by
  obtain ⟨pw,pw',hpw,hpw',huid⟩ := isSameUser_iff.mp h
  unfold Authorizes Owns
  constructor
  · rintro (hr | hr)
    · rw [hr]
      exact h
    · obtain ⟨q,q',hq,hq',heq⟩ := isSameUser_iff.mp hr
      cases hpw.symm.trans hq'
      exact isSameUser_iff.mpr ⟨q,pw',hq,hpw',heq.trans huid⟩
  · intro hr
    obtain ⟨q,q',hq,hq',heq⟩ := isSameUser_iff.mp hr
    cases hpw'.symm.trans hq'
    exact .inr (isSameUser_iff.mpr ⟨q,pw,hq,hpw,heq.trans huid.symm⟩)

private theorem idsOf_congr {P Q : SubordinateRange → Prop} (h : ∀ r, P r ↔ Q r) (rs : List SubordinateRange) :
    idsOf P rs = idsOf Q rs := by
  unfold idsOf
  simp only [h]

/-- The call returns; where it succeeds, the user had the interval already, or has the new range now. -/
theorem addRange_spec (hfile : filename = subuidFile ∨ filename = subgidFile) (hrep : Rep db l false)
    (hopen : db.isopen = true) (hwrap : NoneWraps (entriesOf (l.map db.record))) (memory : Bool)
    (howner : isSameUser accounts owner user = true) {start count : UInt64} (hstop : start.toNat + count.toNat ≤ 2^64) :
    ∃ ok db', addRange accounts filename memory db owner start count = some (ok,db') ∧
      (ok = true →
        (0 < count.toNat ∧ Set.Ico start.toNat (start.toNat + count.toNat) ⊆
            idsOf (Owns accounts user) (entriesOf (l.map db.record)) ∧ MovedCursor db db' l) ∨
        (¬ (0 < count.toNat ∧ Set.Ico start.toNat (start.toNat + count.toNat) ⊆
            idsOf (Owns accounts user) (entriesOf (l.map db.record))) ∧ db'.changed = true ∧
          (db'.isopen = db.isopen ∧ db'.readonly = db.readonly) ∧
          ∃ l', Rep db' l' false ∧ l'.map db'.record = l.map db.record ++ [editedRecord none ⟨owner,start,count⟩])) := by
  obtain ⟨covered,db₁,hrun,hcovered,hmoved⟩ := haveRange_spec accounts hfile hwrap hrep.chain hopen owner hstop
  rw [idsOf_congr fun r => authorizes_iff_owns howner] at hcovered
  unfold addRange
  rw [hrun]
  cases covered with
  | true => exact ⟨true,db₁,rfl,fun _ => .inl ⟨(hcovered.mp rfl).1,(hcovered.mp rfl).2,hmoved⟩⟩
  | false =>
    rcases happend : commonioAppend db₁ ⟨owner,start,count⟩ memory with ⟨ok,db'⟩
    refine ⟨ok,db',by simp only [happend],fun hok => .inr ⟨fun h => Bool.false_ne_true (hcovered.mpr h),?_⟩⟩
    rcases commonioAppend_cases (hmoved.rep hrep) _ memory happend with ⟨rfl,_⟩ |
      ⟨_,hchanged,hisopen,hreadonly,hfresh,hrep',hrecord⟩
    · cases hok
    · have hflags := hmoved.flags
      refine ⟨hchanged,⟨hisopen.trans hflags.1,hreadonly.trans hflags.2.1⟩,_,hrep',?_⟩
      rw [List.map_append,List.map_singleton,hrecord,Function.update_self,← hmoved.record]
      refine congrArg (· ++ _) (List.map_congr_left fun q hq => ?_)
      rw [Function.update_of_ne (ne_of_mem_of_not_mem hq hfresh)]

end UserDb.Subid
