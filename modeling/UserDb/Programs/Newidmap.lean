import UserDb.Commonio.Mode
import UserDb.Programs.Setup
import UserDb.Subid.Add
import UserDb.Subid.MapRanges
import UserDb.Subid.Queries

/-! The maps of a user namespace as `newuidmap` and `newgidmap` set them: what a user may have
mapped, and the text that goes to the kernel. -/
namespace UserDb.Programs.Newidmap
open UserDb.Base UserDb.Atoi UserDb.Commonio UserDb.Subid

/-- What opening the file `setgroups` of a process comes to. -/
inductive SetgroupsOpen where
  | opened | missing | failed
  deriving DecidableEq

/-- The process, as the kernel shows it, and which of the calls succeed. -/
structure MapKernel where
  getlogin : Option Bytes
  getuid : UInt32
  getgid : UInt32
  geteuid : UInt32
  /-- a descriptor of the file system with `/proc/self/uid_map` -/
  isProcFd : Nat → Bool
  opensProc : Nat → Bool
  fstat : Option (UInt32 × UInt32)
  capabilities : Bool
  prctl : Bool
  seteuid : Bool
  capset : Bool → Bool
  openSetgroups : SetgroupsOpen
  policyBuffer : Option Bytes
  lseek : Bool
  dprintf : Bool
  openMap : Bool
  writeFull : Bytes → Bool
  closeMap : Bool

/-- What a run is given; `memory` and `openMemory` are for the arrays and for each opening of the file. -/
structure IdmapEnv where
  kernel : MapKernel
  accounts : Accounts
  defs : Subid.LoginDefs
  disk : Disk
  openMemory : Nat → Bool
  memory : Bool
  selinux : Bool
  steps : CloseSteps
  db : Db SubordinateRange
  closed : db.isopen = false

/-- How a run ends, whether it forbids the groups, and what it writes to the map. -/
structure Outcome where
  exit : Exit
  setgroups : Bool
  mapping : Option Bytes
  deriving DecidableEq

/-- The account of the login name where that is the user's, else the one of the user id. -/
def getMyPwent (accounts : Accounts) (login : Option Bytes) (ruid : UInt32) : Option Passwd :=
  (((login.filter (· != [])).bind accounts.getpwnam).filter fun pw => pw.uid == ruid).or (accounts.getpwuid ruid)

def getFd (s : Bytes) : Option Nat :=
  match strtoi s 10 0 (2^31 - 1) with
  | (n,.success) => some n.toNat
  | _ => none

section Program
variable (e : IdmapEnv) (kind : IdKind)

def hasTarget (target : Bytes) : Bool :=
  if 3 < target.length && (ascii "fd:").isPrefixOf target then (getFd (target.drop 3)).any e.kernel.isProcFd
  else (getPid target).any e.kernel.opensProc

/-- The process has the user and the group of the caller, who has those of the account. -/
def ownsTarget (pw : Passwd) (stat : UInt32 × UInt32) : Bool :=
  e.kernel.getuid == pw.uid && (getdefBool e.defs (ascii "GRANT_AUX_GROUP_SUBIDS") || e.kernel.getgid == pw.gid) &&
    pw.uid == stat.1 && e.kernel.getgid == stat.2

def subidOpen (i : Nat) (db : Db SubordinateRange) : Bool × Db SubordinateRange :=
  commonioOpen subordinateOps db .rdonly false (fileState e.disk.file) (e.openMemory i)

def subidClose (db : Db SubordinateRange) : Db SubordinateRange :=
  (commonioClose e.selinux (plainCloseOps subordinatePut) e.steps db e.disk.file e.disk).2.1

/-- `have_sub_uids` and `have_sub_gids`, for the check number `i`: a database that is not open is
opened for the check. -/
def haveSubids (i : Nat) (db : Db SubordinateRange) (owner : Bytes) (start : UInt32) (count : UInt64) :
    Option (Bool × Db SubordinateRange) :=
  if count = 0 then some (false,db)
  else if db.isopen then haveRange e.accounts kind.filename db owner start.toUInt64 count
  else (haveRange e.accounts kind.filename (subidOpen e i db).2 owner start.toUInt64 count).map fun
    | (found,db) => (found,subidClose e db)

/-- What a check says of a range: whether it is allowed, and whether the file allows it. -/
structure Verdict where
  allowed : Bool
  granted : Bool

/-- The check of a range against the file, and against the caller's own id. -/
def verifyRange (own : UInt32) (i : Nat) (pw : Passwd) (range : MapRange) (db : Db SubordinateRange) :
    Option (Verdict × Db SubordinateRange) :=
  if range.count = 0 then some (⟨false,false⟩,db)
  else (haveSubids e kind i db pw.name range.lower.toUInt32 range.count).map fun
    | (true,db) => (⟨true,true⟩,db)
    | (false,db) => (⟨range.count == 1 && own.toUInt64 == range.lower,false⟩,db)

/-- The loop over the ranges: whether the file allowed one of them. -/
def verifyRanges (own : UInt32) (pw : Passwd) : Nat → List MapRange → Bool → Db SubordinateRange → Except Exit Bool
  | _, [], allowSetgroups, _ => .ok allowSetgroups
  | i, range :: ranges, allowSetgroups, db =>
    match verifyRange e kind own i pw range db with
    | none => .error .endless
    | some (verdict,db) =>
      if verdict.allowed then verifyRanges own pw (i + 1) ranges (allowSetgroups || verdict.granted) db
      else .error (.status 1)

/-- Everything that comes before the first write. -/
def authorize (own : Passwd → UInt32) (argv : List Bytes) : Except Exit (Passwd × List MapRange × Bool) :=
  match argv with
  | [] => .error (.status 1)
  | target :: args =>
    if !hasTarget e target then .error (.status 1)
    else
      match getMyPwent e.accounts e.kernel.getlogin e.kernel.getuid, e.kernel.fstat with
      | some pw, some stat =>
        if !ownsTarget e pw stat then .error (.status 1)
        else
          let wantFile := getdefUlong e.defs kind.countItem 65536 != 0
          let (opened,db) := if wantFile then subidOpen e 0 e.db else (true,e.db)
          if !opened then .error (.status 1)
          else
            match getMapRanges ((args.length + 2) / 3) args e.memory with
            | none => .error (.status 1)
            | some mappings => (verifyRanges e kind (own pw) pw 1 mappings false db).map fun allow => (pw,mappings,allow)
      | _, _ => .error (.status 1)

def deny : Bytes := ascii "deny\n"

/-- Whether the policy is written. Where the file has granted a range, groups stay as they are. -/
def writeSetgroups (allowSetgroups : Bool) : Except Exit Bool :=
  if allowSetgroups then .ok false
  else
    match e.kernel.openSetgroups with
    | .missing => .ok false
    | .failed => .error (.status 1)
    | .opened =>
      match e.kernel.policyBuffer with
      | none => .error (.status 1)
      | some buffer =>
        if deny.isPrefixOf buffer then .ok false
        else if e.kernel.lseek && e.kernel.dprintf then .ok true
        else .error (.status 1)

def mapsLowerRoot (mappings : List MapRange) : Bool := kind == .uid && mappings.any (·.lower == 0)

def dropsPrivileges (ruid : UInt32) (mappings : List MapRange) : Bool :=
  if !e.kernel.capabilities then true
  else if e.kernel.geteuid == 0 && e.kernel.geteuid != ruid && !(e.kernel.prctl && e.kernel.seteuid) then false
  else e.kernel.capset (mapsLowerRoot kind mappings)

/-- The status, and the text that goes to the map file. -/
def writeMapping (mappings : List MapRange) (ruid : UInt32) : Exit × Option Bytes :=
  if !dropsPrivileges e kind ruid mappings then (.status 1,none)
  else
    match mappingText mappings with
    | none => (.status 1,none)
    | some text =>
      if !e.kernel.openMap then (.status 1,none)
      else (if e.kernel.writeFull text && e.kernel.closeMap then .status 0 else .status 1,some text)

/-- Both programs: they differ in the id that is the caller's own, and in what is done about groups. -/
def run (own : Passwd → UInt32) (restrict : Bool → Except Exit Bool) (argv : List Bytes) : Outcome :=
  match authorize e kind own argv with
  | .error exit => ⟨exit,false,none⟩
  | .ok (pw,mappings,allowSetgroups) =>
    match restrict allowSetgroups with
    | .error exit => ⟨exit,false,none⟩
    | .ok restricted =>
      let (exit,mapping) := writeMapping e kind mappings pw.uid
      ⟨exit,restricted,mapping⟩

/-- `argv` is without the name of the program. -/
def newuidmap (argv : List Bytes) : Outcome := run e .uid Passwd.uid (fun _ => .ok false) argv

def newgidmap (argv : List Bytes) : Outcome := run e .gid (fun _ => e.kernel.getgid) (writeSetgroups e) argv

end Program

section Databases
variable {accounts : Accounts} {filename owner : Bytes} {db : Db SubordinateRange}

private theorem haveRange_closed (h : db.isopen = false) (start count : UInt64) :
    haveRange accounts filename db owner start count = some (false,db) := by
  have hfind : findRange accounts filename db owner start = (none,db) := by
    unfold findRange
    simp only [searchEntry_closed _ h]
    split <;> rfl
  unfold haveRange
  split
  · rfl
  · rw [haveRangeFrom,hfind]

end Databases

section Checks
variable {e : IdmapEnv} {kind : IdKind} {db db' : Db SubordinateRange} {owner : Bytes}

/-- The ranges of the file. -/
def IdmapEnv.ranges (e : IdmapEnv) : List SubordinateRange := (fileRanges e.disk.file).getD []

/-- A database that is closed, or shows the ranges of the file. -/
def Shows (e : IdmapEnv) (db : Db SubordinateRange) : Prop :=
  db.isopen = false ∨ ∃ l, Rep db l false ∧ db.isopen = true ∧ entriesOf (l.map db.record) = e.ranges

theorem subidOpen_shows {i : Nat} {opened : Bool} (hclosed : db.isopen = false) (h : subidOpen e i db = (opened,db')) : Shows e db' := by
  cases opened with
  | false => exact .inl (commonioOpen_isopen hclosed h)
  | true =>
    obtain ⟨l,hrep,hisopen,hranges⟩ := commonioOpen_ranges h
    refine .inr ⟨l,hrep,hisopen,?_⟩
    rw [IdmapEnv.ranges,hranges,Option.getD_some]

private theorem subidClose_isopen (db : Db SubordinateRange) : (subidClose e db).isopen = false :=
  (commonioClose_mode e.selinux subordinatePut e.steps db e.disk.file e.disk).1

/-- The ids of an interval that the file gives to an owner. -/
def Owned (e : IdmapEnv) (owner : Bytes) (start count : Nat) : Prop :=
  ∀ id, start ≤ id → id < start + count → ∃ r ∈ e.ranges, Authorizes e.accounts owner r ∧ id ∈ r.ids

/-- A check of a database leaves one that shows the file, and does not say more than the file. -/
theorem haveRange_shows (kind : IdKind) (owner : Bytes) (hshows : Shows e db) {start count : UInt64}
    (hstop : start.toNat + count.toNat ≤ 2^64) :
    ∃ found db', haveRange e.accounts kind.filename db owner start count = some (found,db') ∧ Shows e db' ∧
      (found = true → Owned e owner start.toNat count.toNat) := by
  rcases hshows with hclosed | ⟨l,hrep,hopen,hranges⟩
  · exact ⟨false,db,haveRange_closed hclosed start count,.inl hclosed,fun h => by cases h⟩
  · have hfile : kind.filename = subuidFile ∨ kind.filename = subgidFile := by
      cases kind with
      | uid => exact .inl rfl
      | gid => exact .inr rfl
    have hfits : ∀ r ∈ e.ranges, r.Fits := by
      intro r hr
      unfold IdmapEnv.ranges at hr
      cases hfile : fileRanges e.disk.file with
      | none =>
        rw [hfile] at hr
        exact absurd hr List.not_mem_nil
      | some rs =>
        rw [hfile] at hr
        exact (fileRanges_text hfile r hr).toFits
    have hwrap := noneWraps_of_fits hfits
    obtain ⟨found,db',hrun,hfound,hmoved⟩ :=
      haveRange_spec e.accounts hfile (by rwa [hranges]) hrep.chain hopen owner hstop
    rw [hranges] at hfound
    refine ⟨found,db',hrun,.inr ⟨l,hmoved.rep hrep,hmoved.flags.1.trans hopen,?_⟩,fun h id hge hlt => ?_⟩
    · rw [hmoved.record,hranges]
    · exact (hfound.mp h).2 ⟨hge,hlt⟩

private theorem haveSubids_shows (kind : IdKind) (owner : Bytes) (i : Nat) (hshows : Shows e db) {start : UInt32} {count : UInt64}
    (hstop : start.toNat + count.toNat ≤ 2^64) :
    ∃ found db', haveSubids e kind i db owner start count = some (found,db') ∧ Shows e db' ∧
      (found = true → Owned e owner start.toNat count.toNat) := by
  have hstart : start.toUInt64.toNat = start.toNat := UInt32.toNat_toUInt64 start
  unfold haveSubids
  by_cases hzero : count = 0
  · rw [if_pos hzero]
    exact ⟨false,db,rfl,hshows,fun h => by cases h⟩
  · rw [if_neg hzero]
    cases hopen : db.isopen with
    | true =>
      obtain ⟨found,db',hrun,hafter,hfound⟩ := haveRange_shows kind owner hshows (hstart ▸ hstop)
      rw [hstart] at hfound
      exact ⟨found,db',hrun,hafter,hfound⟩
    | false =>
      rcases hrun : subidOpen e i db with ⟨opened,db₁⟩
      obtain ⟨found,db',hrun,_,hfound⟩ :=
        haveRange_shows kind owner (subidOpen_shows hopen hrun) (hstart ▸ hstop)
      rw [hstart] at hfound
      refine ⟨found,subidClose e db',?_,.inl (subidClose_isopen db'),hfound⟩
      simp only [hrun,Bool.false_eq_true,if_false,Option.map_some]

end Checks

section Runs
variable {e : IdmapEnv} {kind : IdKind} {db db' : Db SubordinateRange} {own : UInt32} {pw : Passwd} {mappings : List MapRange}

/-- What a caller may have mapped: the own id, or ids that the file gives to the name. -/
def Allowed (e : IdmapEnv) (own : UInt32) (pw : Passwd) (m : MapRange) : Prop :=
  m.count.toNat = 1 ∧ m.lower.toNat = own.toNat ∨ Owned e pw.name m.lower.toNat m.count.toNat

private theorem verifyRange_shows (kind : IdKind) (own : UInt32) (pw : Passwd) (hshows : Shows e db) {m : MapRange}
    (hfits : m.Fits) (i : Nat) :
    ∃ verdict db', verifyRange e kind own i pw m db = some (verdict,db') ∧ Shows e db' ∧
      (verdict.allowed = true → Allowed e own pw m) ∧ (verdict.granted = true → Owned e pw.name m.lower.toNat m.count.toNat) := by
  have hstop := hfits.lower_stop
  have hlower : m.lower.toUInt32.toNat = m.lower.toNat := by
    rw [UInt64.toNat_toUInt32]
    omega
  have hne : m.count ≠ 0 := by
    intro hzero
    have hpos := hfits.count_pos
    rw [hzero] at hpos
    exact absurd hpos (by decide)
  obtain ⟨found,db',hrun,hafter,hfound⟩ :=
    haveSubids_shows kind pw.name i hshows (show m.lower.toUInt32.toNat + m.count.toNat ≤ 2^64 by omega)
  rw [hlower] at hfound
  unfold verifyRange
  rw [if_neg hne,hrun]
  cases found with
  | true => exact ⟨_,db',rfl,hafter,fun _ => .inr (hfound rfl),fun _ => hfound rfl⟩
  | false =>
    refine ⟨_,db',rfl,hafter,fun h => .inl ?_,fun h => by cases h⟩
    simp only [Bool.and_eq_true,beq_iff_eq] at h
    constructor
    · rw [h.1]
      rfl
    · rw [← h.2,UInt32.toNat_toUInt64]

/-- The loop ends; where it gets to its end every range is allowed, and groups are left alone only
for a range of the file. -/
theorem verifyRanges_spec (kind : IdKind) (own : UInt32) (pw : Passwd) (hshows : Shows e db) (hfits : ∀ m ∈ mappings, m.Fits)
    (i : Nat) (allow : Bool) :
    verifyRanges e kind own pw i mappings allow db = .error (.status 1) ∨
      ∃ allow', verifyRanges e kind own pw i mappings allow db = .ok allow' ∧ (∀ m ∈ mappings, Allowed e own pw m) ∧
        (allow' = true → allow = true ∨ ∃ m ∈ mappings, Owned e pw.name m.lower.toNat m.count.toNat) := by
  induction mappings generalizing i allow db with
  | nil => exact .inr ⟨allow,rfl,fun m hm => absurd hm List.not_mem_nil,.inl⟩
  | cons m mappings ih =>
    obtain ⟨hm,hrest⟩ := List.forall_mem_cons.mp hfits
    obtain ⟨verdict,db',hrun,hafter,hallowed,hgranted⟩ := verifyRange_shows kind own pw hshows hm i
    simp only [verifyRanges,hrun]
    cases hverdict : verdict.allowed with
    | false => exact .inl rfl
    | true =>
      rw [if_pos rfl]
      rcases ih hafter hrest (i + 1) (allow || verdict.granted) with hend | ⟨allow',hend,hall,hgroups⟩
      · exact .inl hend
      · refine .inr ⟨allow',hend,List.forall_mem_cons.mpr ⟨hallowed hverdict,hall⟩,fun h => ?_⟩
        rcases hgroups h with hsofar | ⟨m',hm',howned⟩
        · rcases Bool.or_eq_true_iff.mp hsofar with hsofar | hgrant
          · exact .inl hsofar
          · exact .inr ⟨m,List.mem_cons_self,hgranted hgrant⟩
        · exact .inr ⟨m',List.mem_cons_of_mem _ hm',howned⟩

/-- A caller for whom there is an account has one with the user id. -/
theorem ownsTarget_uid {stat : UInt32 × UInt32} (h : ownsTarget e pw stat = true) : pw.uid = e.kernel.getuid := by
  simp only [ownsTarget,Bool.and_eq_true,beq_iff_eq] at h
  exact h.1.1.1.symm

/-- What is known where the maps are about to be written. -/
theorem authorize_spec {own : Passwd → UInt32} {argv : List Bytes} {allow : Bool}
    (h : authorize e kind own argv = .ok (pw,mappings,allow)) :
    getMyPwent e.accounts e.kernel.getlogin e.kernel.getuid = some pw ∧ pw.uid = e.kernel.getuid ∧
      Requests (argv.drop 1) (mappings.map MapRange.triple) ∧ (∀ m ∈ mappings, m.Fits ∧ Allowed e (own pw) pw m) ∧
      (allow = true → ∃ m ∈ mappings, Owned e pw.name m.lower.toNat m.count.toNat) := by
  unfold authorize at h
  cases argv with
  | nil => cases h
  | cons target args =>
    simp only at h
    split at h
    · cases h
    · split at h
      · rename_i pw' stat hpw hstat
        split at h
        · cases h
        · rename_i howns
          rcases hopen : (if (getdefUlong e.defs kind.countItem 65536 != 0) = true then subidOpen e 0 e.db else (true,e.db)) with
            ⟨opened,db⟩
          have hshows : Shows e db := by
            split at hopen
            · exact subidOpen_shows e.closed hopen
            · cases hopen
              exact .inl e.closed
          rw [hopen] at h
          simp only at h
          split at h
          · cases h
          · split at h
            · cases h
            · rename_i ranges hranges
              obtain ⟨hrequests,hfits⟩ := getMapRanges_spec hranges
              rcases verifyRanges_spec kind (own pw') pw' hshows hfits 1 false with
                hend | ⟨allow',hend,hall,hgroups⟩
              · rw [hend] at h
                cases h
              · rw [hend] at h
                cases h
                have howns : ownsTarget e pw stat = true := by simpa using howns
                refine ⟨hpw,ownsTarget_uid howns,hrequests,fun m hm => ⟨hfits m hm,hall m hm⟩,fun hallow => ?_⟩
                exact (hgroups hallow).resolve_left Bool.false_ne_true
      · cases h

/-- Only a text that the ranges were written to goes to the map file. -/
theorem run_mapping {own : Passwd → UInt32} {restrict : Bool → Except Exit Bool} {argv : List Bytes} {text : Bytes}
    (h : (run e kind own restrict argv).mapping = some text) :
    ∃ pw mappings allow, authorize e kind own argv = .ok (pw,mappings,allow) ∧
      text = (mappings.map mapLine).flatMap (· ++ [newline]) := by
  unfold run at h
  split at h
  · cases h
  · rename_i pw mappings allow hauth
    refine ⟨pw,mappings,allow,hauth,?_⟩
    split at h
    · cases h
    · simp only [writeMapping,mappingText_eq] at h
      split at h
      · cases h
      · split at h
        · cases h
        · exact (Option.some.inj h).symm

/-- A text stands for a user id, by its number or by its name. -/
def ResolvesTo (accounts : Accounts) (user : Bytes) (uid : UInt32) : Prop := ∃ pw, getpwUidOrNam accounts user = some pw ∧ pw.uid = uid

private theorem resolvesTo_of_isSameUser {accounts : Accounts} {owner user : Bytes} (h : isSameUser accounts owner user = true) :
    ∃ uid, ResolvesTo accounts owner uid ∧ ResolvesTo accounts user uid := by
  unfold isSameUser at h
  split at h
  · cases h
  · rename_i pw hpw
    split at h
    · cases h
    · rename_i pw' hpw'
      exact ⟨pw.uid,⟨pw,hpw,rfl⟩,pw',hpw',(beq_iff_eq.mp h).symm⟩

/-- A name that is no number stands for the user id of the account that it finds. -/
theorem ResolvesTo.eq_uid {accounts : Accounts} {uid : UInt32} (h : ResolvesTo accounts pw.name uid) (hplain : getUid pw.name = none)
    (hfound : accounts.getpwnam pw.name = some pw) : uid = pw.uid := by
  obtain ⟨pw',hpw',rfl⟩ := h
  unfold getpwUidOrNam at hpw'
  rw [hplain,hfound] at hpw'
  rw [Option.some.inj hpw']

/-- The text asks the kernel for the triples of the arguments: each of them with ids that fit, and for
the caller's own id or for ids of ranges that the caller is given. -/
def MapsOnly (e : IdmapEnv) (own : UInt32) (gives : Passwd → SubordinateRange → Prop) (argv : List Bytes) (text : Bytes) : Prop :=
  ∃ caller triples, getMyPwent e.accounts e.kernel.getlogin e.kernel.getuid = some caller ∧ caller.uid = e.kernel.getuid ∧
    Requests (argv.drop 1) triples ∧ readMapping text = some triples ∧
    ∀ upper lower count, (upper,lower,count) ∈ triples →
      1 ≤ count ∧ lower + count ≤ 2^32 - 1 ∧ upper + count ≤ 2^32 - 1 ∧
        (count = 1 ∧ lower = own.toNat ∨ ∀ id, lower ≤ id → id < lower + count → ∃ r ∈ e.ranges, gives caller r ∧ id ∈ r.ids)

/-- The range is under the caller's name, or under a text for the user that this name stands for: the
caller, where the name is no number and finds the caller's account. -/
def GivesTo (accounts : Accounts) (caller : Passwd) (r : SubordinateRange) : Prop :=
  r.owner = caller.name ∨ ∃ uid, ResolvesTo accounts r.owner uid ∧ ResolvesTo accounts caller.name uid ∧
    (getUid caller.name = none → accounts.getpwnam caller.name = some caller → uid = caller.uid)

private theorem givesTo_of_authorizes {accounts : Accounts} {r : SubordinateRange} (h : Authorizes accounts pw.name r) :
    GivesTo accounts pw r := by
  rcases h with hname | hsame
  · exact .inl hname
  · obtain ⟨uid,howner,huser⟩ := resolvesTo_of_isSameUser hsame
    exact .inr ⟨uid,howner,huser,huser.eq_uid⟩

private theorem run_mapsOnly {own : Passwd → UInt32} {restrict : Bool → Except Exit Bool} {argv : List Bytes} {text : Bytes} {id : UInt32}
    (hown : ∀ pw, pw.uid = e.kernel.getuid → own pw = id) (h : (run e kind own restrict argv).mapping = some text) :
    MapsOnly e id (GivesTo e.accounts) argv text := by
  obtain ⟨pw,mappings,allow,hauth,rfl⟩ := run_mapping h
  obtain ⟨hcaller,huid,hrequests,hall,_⟩ := authorize_spec hauth
  refine ⟨pw,_,hcaller,huid,hrequests,readMapping_text mappings,fun upper lower count hmem => ?_⟩
  obtain ⟨m,hm,htriple⟩ := List.mem_map.mp hmem
  cases htriple
  obtain ⟨hfits,hallowed⟩ := hall m hm
  refine ⟨hfits.count_pos,hfits.lower_stop,hfits.upper_stop,?_⟩
  rcases hallowed with ⟨hone,hlower⟩ | howned
  · rw [hown pw huid] at hlower
    exact .inl ⟨hone,hlower⟩
  · right
    intro i hge hlt
    obtain ⟨r,hr,hauthorizes,hi⟩ := howned i hge hlt
    exact ⟨r,hr,givesTo_of_authorizes hauthorizes,hi⟩

end Runs

/-- Neither program maps an id that the caller has not been given. -/
theorem maps_only_given (e : IdmapEnv) (argv : List Bytes) (text : Bytes) :
    ((newuidmap e argv).mapping = some text → MapsOnly e e.kernel.getuid (GivesTo e.accounts) argv text) ∧
      ((newgidmap e argv).mapping = some text → MapsOnly e e.kernel.getgid (GivesTo e.accounts) argv text) :=
  ⟨run_mapsOnly fun _ huid => huid,run_mapsOnly fun _ _ => rfl⟩

/-- A caller with one id for the user and for the group, whose process is owned. -/
def plainKernel (id : UInt32) : MapKernel where
  getlogin := none
  getuid := id
  getgid := id
  geteuid := 0
  isProcFd _ := false
  opensProc _ := true
  fstat := some (id,id)
  capabilities := true
  prctl := true
  seteuid := true
  capset _ := true
  openSetgroups := .opened
  policyBuffer := some (ascii "allow\n")
  lseek := true
  dprintf := true
  openMap := true
  writeFull _ := true
  closeMap := true

def account (name : Bytes) (id : UInt32) : Passwd := ⟨name,[120],id,id,[],[],[]⟩

/-- An account whose name is the number of another one. -/
def numberedAccounts : List Passwd := [account (ascii "alice") 1000,account (ascii "1000") 1001]

def idmapEnv (id : UInt32) : IdmapEnv where
  kernel := plainKernel id
  accounts := accountsOf numberedAccounts
  defs _ := none
  disk := ⟨some (ascii "alice:100000:65536\n"),none⟩
  openMemory _ := true
  memory := true
  selinux := false
  steps := allSteps
  db := closedRanges
  closed := rfl

def mapArguments : List Bytes := [ascii "42",ascii "0",ascii "100000",ascii "10"]

theorem maps_only_given_alice :
    MapsOnly (idmapEnv 1000) 1000 (GivesTo (idmapEnv 1000).accounts) mapArguments (ascii "0 100000 10\n") ∧
      MapsOnly (idmapEnv 1000) 1000 (GivesTo (idmapEnv 1000).accounts) mapArguments (ascii "0 100000 10\n") :=
  ⟨(maps_only_given (idmapEnv 1000) mapArguments (ascii "0 100000 10\n")).1 (by decide +kernel),
    (maps_only_given (idmapEnv 1000) mapArguments (ascii "0 100000 10\n")).2 (by decide +kernel)⟩

/-- The caller 1001, whose name is `1000`, is let map the ids of the user 1000. -/
theorem numbered_name_maps_foreign :
    ¬ ∀ (e : IdmapEnv) (argv : List Bytes) (text : Bytes), (newuidmap e argv).mapping = some text →
      MapsOnly e e.kernel.getuid (fun caller r => r.owner = caller.name ∨ ResolvesTo e.accounts r.owner caller.uid) argv text := by
  intro h
  obtain ⟨caller,triples,hcaller,huid,_,hread,hall⟩ :=
    h (idmapEnv 1001) mapArguments (ascii "0 100000 10\n") (by decide +kernel)
  have hcaller' : getMyPwent (idmapEnv 1001).accounts none 1001 = some (account (ascii "1000") 1001) := by decide +kernel
  obtain rfl := Option.some.inj (hcaller.symm.trans hcaller')
  have hread' : readMapping (ascii "0 100000 10\n") = some [(0,100000,10)] := by decide +kernel
  obtain rfl := Option.some.inj (hread.symm.trans hread')
  obtain ⟨_,_,_,hgiven⟩ := hall 0 100000 10 List.mem_cons_self
  rcases hgiven with ⟨hone,_⟩ | hgiven
  · exact absurd hone (by decide)
  · have hranges : (idmapEnv 1001).ranges = [⟨ascii "alice",100000,65536⟩] := by decide +kernel
    obtain ⟨r,hr,howner,_⟩ := hgiven 100000 le_rfl (by decide)
    rw [hranges] at hr
    obtain rfl := List.mem_singleton.mp hr
    rcases howner with hname | ⟨pw,hpw,hresolved⟩
    · exact absurd hname (by decide +kernel)
    · have halice : getpwUidOrNam (idmapEnv 1001).accounts (ascii "alice") = some (account (ascii "alice") 1000) := by
        decide +kernel
      obtain rfl := Option.some.inj (hpw.symm.trans halice)
      exact absurd hresolved (by decide)

end UserDb.Programs.Newidmap
