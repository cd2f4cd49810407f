import UserDb.Base.Outcomes
import UserDb.Ids.NewId
import UserDb.Programs.Usermod
import UserDb.Programs.Walk
import UserDb.Subid.Assign

/-! A new user of `useradd`: the user id, the entry of the password file, and the subordinate ids,
which are looked for before the entry is stored and given after it. -/
namespace UserDb.Programs
open UserDb.Base UserDb.Base.Outcomes UserDb.Commonio UserDb.Subid UserDb.Ids

/-- What a run is given. The files of a prefix have their own accounts; without one they are those
of the name service. -/
structure UseraddEnv where
  tools : Tools
  isShadowPwd : Bool
  accounts : Accounts
  prefixAccounts : Accounts
  nss : Bool
  defs : Subid.LoginDefs
  qsort : Qsort
  fuel : Nat
  lock : Bool
  subidLock : IdKind → Bool
  passwdOpen : Bool × Bool
  subidOpen : IdKind → Bool × Bool
  memory : Nat → Bool
  subidMemory : IdKind → Nat → Bool

/-- The options, and the fields of the new entry. -/
structure UseraddOptions where
  userName : Bytes
  userId : Option UInt32
  oflg : Bool
  rflg : Bool
  addSubidsForSystem : Bool
  userPass : Bytes
  userGid : UInt32
  userComment : Bytes
  userHome : Bytes
  userShell : Bytes

/-- The state of a run: the user id, the databases, and the new ranges. -/
structure Useradd where
  userId : UInt32
  passwd : Db Passwd
  subids : IdKind → Db SubordinateRange
  ranges : IdKind → UInt32 × UInt64

namespace Useradd
variable (e : UseraddEnv) (o : UseraddOptions)

/-- The id from the options, or a new one. -/
def chooseUid (passwd : Db Passwd) : Except Exit (UInt32 × Db Passwd) :=
  match o.userId with
  | some uid =>
    if !o.oflg && (e.prefixAccounts.getpwuid uid).isSome then .error (.status 4) else .ok (uid,passwd)
  | none =>
    if o.oflg then .error (.status 2)
    else
      match findNewUid e.defs (fun uid => (e.prefixAccounts.getpwuid uid).isSome) (e.memory 0) e.fuel o.rflg none passwd with
      | (.returned (some uid),passwd) => .ok (uid,passwd)
      | (.returned none,_) => .error (.status 4)
      | (_,_) => .error .endless

def shouldAssignSubid (kind : IdKind) (file : Option Bytes) (uid : UInt32) : Bool :=
  let uidMin := (getdefUlong e.defs (ascii "UID_MIN") 1000).toUInt32
  let uidMax := (getdefUlong e.defs (ascii "UID_MAX") 60000).toUInt32
  if e.nss then false
  else if getdefUlong e.defs kind.countItem 65536 = 0 then false
  else if file.isNone then false
  else if o.addSubidsForSystem then true
  else if o.rflg then false
  else if uid = 0 then false
  else if uidMax < uid ∨ uid < uidMin then false
  else true

def openSubids (kind : IdKind) (file : Option Bytes) (uid : UInt32) : Except Exit (Db SubordinateRange) :=
  if !shouldAssignSubid e o kind file uid then .ok (Db.initial (fun _ => ⟨none,none,none,none,false⟩) 0 false)
  else if !e.subidLock kind then .error (subidFailure kind)
  else
    match openFirst subidStorage.toStorage .rdwr true file (e.subidOpen kind).1 (e.subidOpen kind).2 with
    | (false,_) => .error (subidFailure kind)
    | (true,db) => .ok db

def findSubids (kind : IdKind) (file : Option Bytes) (uid : UInt32) (db : Db SubordinateRange) :
    Except Exit ((UInt32 × UInt64) × Db SubordinateRange) :=
  if !shouldAssignSubid e o kind file uid then .ok ((0,getdefUlong e.defs kind.countItem 65536),db)
  else
    match findNewRange e.qsort (e.subidMemory kind 0) kind e.defs uid db with
    | (none,_) => .error (subidFailure kind)
    | (some range,db) => .ok (range,db)

/-- The run up to the new entries. -/
def prepare (passwd : Option Bytes) (files : IdKind → Option Bytes) : Except Exit Useradd :=
  if (e.prefixAccounts.getpwnam o.userName).isSome then .error (.status 9)
  else if !e.lock then .error (.status 1)
  else
    match openFirst e.tools.passwd .rdwr true passwd e.passwdOpen.1 e.passwdOpen.2 with
    | (false,_) => .error (.status 1)
    | (true,passwd) => do
      let (uid,passwd) ← chooseUid e o passwd
      let subuid ← openSubids e o .uid (files .uid) uid
      let subgid ← openSubids e o .gid (files .gid) uid
      let (uids,subuid) ← findSubids e o .uid (files .uid) uid subuid
      let (gids,subgid) ← findSubids e o .gid (files .gid) uid subgid
      return ⟨uid,passwd,fun | .uid => subuid | .gid => subgid,fun | .uid => uids | .gid => gids⟩

def newPwent (uid : UInt32) : Passwd :=
  ⟨o.userName,if e.isShadowPwd then [120] else o.userPass,uid,o.userGid,o.userComment,o.userHome,o.userShell⟩

def addSubids (kind : IdKind) (file : Option Bytes) (uid : UInt32) (db : Db SubordinateRange) (range : UInt32 × UInt64) :
    Except Exit (Db SubordinateRange) :=
  if !shouldAssignSubid e o kind file uid then .ok db
  else
    match rangeExists e.accounts db o.userName with
    | (true,db) => .ok db
    | (false,db) =>
      match subidAdd kind e.accounts e.nss e.defs (e.subidMemory kind 1) db o.userName range.1 range.2 with
      | none => .error .endless
      | some (false,_) => .error (subidFailure kind)
      | some (true,db) => .ok db

def usrUpdate (files : IdKind → Option Bytes) (u : Useradd) : Except Exit Useradd :=
  match commonioUpdate e.tools.passwd.ops u.passwd (newPwent e o u.userId) (e.memory 1) with
  | (false,_) => .error (.status 1)
  | (true,passwd) => do
    let subuid ← addSubids e o .uid (files .uid) u.userId (u.subids .uid) (u.ranges .uid)
    let subgid ← addSubids e o .gid (files .gid) u.userId (u.subids .gid) (u.ranges .gid)
    return { u with
      passwd := passwd
      subids := fun
        | .uid => subuid
        | .gid => subgid }

end Useradd

end UserDb.Programs
