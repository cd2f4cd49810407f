import UserDb.Ids.NewId
import UserDb.Programs.Gpasswd
import UserDb.Programs.Setup

/-! The programs `groupadd`, `groupmod` and `groupdel`: what each checks against the name service, what it
makes of the open files, and in which order these are written. -/
namespace UserDb.Programs
open UserDb.Base UserDb.Atoi UserDb.Commonio UserDb.Ids

/-- The files of a group program. The shadow file is in use where it is there. -/
structure GroupFiles where
  passwd : Disk
  group : Disk
  gshadow : Disk

def GroupFiles.isShadowGrp (files : GroupFiles) : Bool := files.gshadow.file.isSome

/-- What the name service gives, or the files under a prefix in its place; `hostGetgrgid` asks the
name service under a prefix too. -/
structure NameService where
  getgrnam : Bytes → Option Group
  getgrgid : UInt32 → Option Group
  hostGetgrgid : UInt32 → Option Group
  getpwnam : Bytes → Option Passwd
  getpwent : List Passwd

/-- Which calls on one file succeed, with the memory of each update. -/
structure FileCalls where
  lock : Bool
  read : Bool
  openMemory : Bool
  memory : Nat → Bool
  steps : CloseSteps

/-- What the surroundings of a run give; the search for a gid may take `fuel` steps. -/
structure GroupEnv where
  tools : Tools
  defs : Subid.LoginDefs
  service : NameService
  selinux : Bool
  groupNameMaxLength : Nat
  passwd : FileCalls
  group : FileCalls
  gshadow : FileCalls
  idMemory : Bool
  fuel : Nat

/-- The open files of a run; those that it does not use are not there. -/
structure GroupDbs where
  group : Db Group
  gshadow : Option (Db Sgrp)
  passwd : Option (Db Passwd)

namespace Groups

/-! The ends of the programs, by their status. -/

def success : Exit := .status 0
def usage : Exit := .status 2
def badArg : Exit := .status 3
def gidInUse : Exit := .status 4
def notFound : Exit := .status 6
def groupBusy : Exit := .status 8
def nameInUse : Exit := .status 9
def grpUpdateFailed : Exit := .status 10

section Common
variable (e : GroupEnv)

def isValidGroupName (name : Bytes) : Bool :=
  if 0 < e.groupNameMaxLength ∧ e.groupNameMaxLength < name.length then false else isValidName name false

/-- The argument of `-g`. -/
def parseGid (arg : Bytes) : Except Exit UInt32 :=
  match getGid arg with
  | none => .error badArg
  | some id => if id.toUInt32 = 0xFFFFFFFF then .error badArg else .ok id.toUInt32

def parseGids : Option Bytes → Except Exit (Option UInt32)
  | none => .ok none
  | some arg => (parseGid arg).map some

/-- The users that `-U` lists, all of them known. -/
def listedUsers : Bytes → Except Exit (List Bytes)
  | [] => .ok []
  | list =>
    let users := list.splitOn comma
    if users.all fun user => (e.service.getpwnam user).isSome then .ok users else .error grpUpdateFailed

def openLocked {α : Type} (s : Storage α) (calls : FileCalls) (file : Option Bytes) : Except Exit (Db α) :=
  match openFirst s .rdwr true file calls.read calls.openMemory with
  | (false,_) => .error grpUpdateFailed
  | (true,db) => .ok db

/-- A file that is opened only where it is used. -/
def openUsed {α : Type} (s : Storage α) (used : Bool) (calls : FileCalls) (file : Option Bytes) : Except Exit (Option (Db α)) :=
  if used then (openLocked s calls file).map some else .ok none

/-- All locks come before the first file that is opened. -/
def openFiles (shadow passwd : Bool) (files : GroupFiles) : Except Exit GroupDbs :=
  if !e.group.lock || (shadow && !e.gshadow.lock) || (passwd && !e.passwd.lock) then .error grpUpdateFailed
  else do
    let groups ← openLocked e.tools.group e.group files.group.file
    let gshadows ← openUsed e.tools.gshadow shadow e.gshadow files.gshadow.file
    let passwds ← openUsed e.tools.passwd passwd e.passwd files.passwd.file
    return ⟨groups,gshadows,passwds⟩

def closeFile {α : Type} (s : Storage α) (calls : FileCalls) (db : Db α) (disk : Disk) : Bool × Disk :=
  let (ok,_,disk) := commonioClose e.selinux s.closeOps calls.steps db disk.file disk
  (ok,disk)

def closeUsed {α : Type} (s : Storage α) (calls : FileCalls) (db : Option (Db α)) (disk : Disk) : Bool × Disk :=
  match db with
  | none => (true,disk)
  | some db => closeFile e s calls db disk

/-- The files are written one after the other, as long as that succeeds. -/
def closeFiles (dbs : GroupDbs) (files : GroupFiles) : Exit × GroupFiles :=
  let (ok,group) := closeFile e e.tools.group e.group dbs.group files.group
  let files := { files with group := group }
  if !ok then (grpUpdateFailed,files)
  else
    let (ok,gshadow) := closeUsed e e.tools.gshadow e.gshadow dbs.gshadow files.gshadow
    let files := { files with gshadow := gshadow }
    if !ok then (grpUpdateFailed,files)
    else
      let (ok,passwd) := closeUsed e e.tools.passwd e.passwd dbs.passwd files.passwd
      (if ok then success else grpUpdateFailed,{ files with passwd := passwd })

/-- A run ends before its files are written, or with writing them. -/
def commit (work : Except Exit GroupDbs) (files : GroupFiles) : Exit × GroupFiles :=
  match work with
  | .error exit => (exit,files)
  | .ok dbs => closeFiles e dbs files

/-! Calls on the open files, each with an error of its own where it fails. -/

def storeGroup (n : Nat) (db : Db Group) (grp : Group) : Except Exit (Db Group) :=
  match commonioUpdate e.tools.group.ops db grp (e.group.memory n) with
  | (false,_) => .error grpUpdateFailed
  | (true,db) => .ok db

def removeGroup (db : Db Group) (name : Bytes) : Except Exit (Db Group) :=
  match commonioRemove e.tools.group.ops db name with
  | (false,_) => .error grpUpdateFailed
  | (true,db) => .ok db

def storeGshadow (n : Nat) (db : Db Sgrp) (sgrp : Sgrp) : Except Exit (Db Sgrp) :=
  match commonioUpdate e.tools.gshadow.ops db sgrp (e.gshadow.memory n) with
  | (false,_) => .error grpUpdateFailed
  | (true,db) => .ok db

def removeGshadow (db : Db Sgrp) (name : Bytes) : Except Exit (Db Sgrp) :=
  match commonioRemove e.tools.gshadow.ops db name with
  | (false,_) => .error grpUpdateFailed
  | (true,db) => .ok db

end Common

end Groups

/-- The command line of `groupadd`. -/
structure Groupadd where
  name : Bytes
  gid : Option Bytes
  force : Bool
  nonUnique : Bool
  system : Bool
  password : Option Bytes
  users : Option Bytes

namespace Groupadd
open Groups
variable (o : Groupadd) (e : GroupEnv)

/-- The gid that was asked for, where it is to be used. -/
def checkFlags (gid : Option UInt32) : Except Exit (Option UInt32) :=
  if o.nonUnique && gid.isNone then .error usage
  else if !isValidGroupName e o.name then .error badArg
  else if (e.service.getgrnam o.name).isSome then .error (if o.force then success else nameInUse)
  else
    match gid with
    | none => .ok none
    | some id =>
      if (e.service.getgrgid id).isSome then
        if o.nonUnique then .ok (some id)
        else if o.force then .ok none
        else .error gidInUse
      else .ok (some id)

/-- The gid that was asked for, or a new one; the search moves the cursor. -/
def groupId (gid : Option UInt32) (groups : Db Group) : Except Exit (UInt32 × Db Group) :=
  match gid with
  | some id => .ok (id,groups)
  | none =>
    match findNewGid e.defs (fun id => (e.service.getgrgid id).isSome) e.idMemory e.fuel o.system none groups with
    | (.returned (some id),groups) => .ok (id,groups)
    | (.returned none,_) => .error gidInUse
    | (_,_) => .error .endless

def newGrent (isShadowGrp : Bool) (gid : UInt32) (users : List Bytes) : Group :=
  ⟨o.name,if isShadowGrp then [120] else o.password.getD [120],gid,users.foldl addList []⟩

def newSgent (users : List Bytes) : Sgrp := ⟨o.name,o.password.getD [33],[],users.foldl addList []⟩

def grpUpdate (gid : UInt32) (dbs : GroupDbs) : Except Exit GroupDbs := do
  let users ← listedUsers e (o.users.getD [])
  let groups ← storeGroup e 0 dbs.group (o.newGrent dbs.gshadow.isSome gid users)
  match dbs.gshadow with
  | none => return { dbs with group := groups }
  | some gshadows =>
    let gshadows ← storeGshadow e 0 gshadows (o.newSgent users)
    return { dbs with group := groups, gshadow := some gshadows }

def work (files : GroupFiles) : Except Exit GroupDbs := do
  let gid ← parseGids o.gid
  let gid ← o.checkFlags e gid
  let dbs ← openFiles e files.isShadowGrp false files
  let (gid,groups) ← o.groupId e gid dbs.group
  o.grpUpdate e gid { dbs with group := groups }

def run (files : GroupFiles) : Exit × GroupFiles := commit e (o.work e files) files

end Groupadd

/-- The command line of `groupdel`. -/
structure Groupdel where
  name : Bytes
  force : Bool

namespace Groupdel
open Groups
variable (o : Groupdel) (e : GroupEnv)

/-- The group is not the primary group of a user. -/
def checkBusy (gid : UInt32) : Except Exit Unit :=
  if !o.force && e.service.getpwent.any fun pwd => pwd.gid == gid then .error groupBusy else .ok ()

def grpUpdate (dbs : GroupDbs) : Except Exit GroupDbs := do
  let groups ← removeGroup e dbs.group o.name
  match dbs.gshadow with
  | none => return { dbs with group := groups }
  | some gshadows =>
    match commonioLocate e.tools.gshadow.ops gshadows o.name with
    | (none,gshadows) => return { dbs with group := groups, gshadow := some gshadows }
    | (some _,gshadows) =>
      let gshadows ← removeGshadow e gshadows o.name
      return { dbs with group := groups, gshadow := some gshadows }

def work (files : GroupFiles) : Except Exit GroupDbs :=
  match e.service.getgrnam o.name with
  | none => .error notFound
  | some grp => do
    o.checkBusy e grp.gid
    let dbs ← openFiles e files.isShadowGrp false files
    o.grpUpdate e dbs

def run (files : GroupFiles) : Exit × GroupFiles := commit e (o.work e files) files

end Groupdel

/-- The command line of `groupmod`. -/
structure Groupmod where
  name : Bytes
  gid : Option Bytes
  newName : Option Bytes
  nonUnique : Bool
  append : Bool
  password : Option Bytes
  users : Option Bytes

/-- What is left to change: a gid and a name that are not those of before. -/
structure GroupChange where
  gid : Option UInt32
  name : Option Bytes

namespace Groupmod
open Groups
variable (o : Groupmod) (e : GroupEnv)

def checkNewGid (groupId : UInt32) : Option UInt32 → Except Exit (Option UInt32)
  | none => .ok none
  | some newid =>
    if groupId = newid then .ok none
    else if o.nonUnique || (e.service.hostGetgrgid newid).isNone then .ok (some newid)
    else .error gidInUse

def checkNewName : Except Exit (Option Bytes) :=
  match o.newName with
  | none => .ok none
  | some newName =>
    if o.name = newName then .ok none
    else if !isValidGroupName e newName then .error badArg
    else if (e.service.getgrnam newName).isSome then .error nameInUse
    else .ok (some newName)

def processFlags : Except Exit GroupChange := do
  let gid ← parseGids o.gid
  if o.nonUnique && gid.isNone then .error usage
  else
    match e.service.getgrnam o.name with
    | none => .error notFound
    | some grp =>
      let gid ← o.checkNewGid e grp.gid gid
      let newName ← o.checkNewName e
      return ⟨gid,newName⟩

/-- The shadow file is used for a change of what it has a field for. -/
def usesShadow (change : GroupChange) (files : GroupFiles) : Bool :=
  files.isShadowGrp && (o.password.isSome || change.name.isSome || o.users.isSome)

/-- The password goes to the group file where it is kept there. -/
def newGrent (isShadowGrp : Bool) (change : GroupChange) (grent : Group) : Group :=
  { grent with
    name := change.name.getD grent.name
    gid := change.gid.getD grent.gid
    passwd := if !isShadowGrp || grent.passwd != [120] then o.password.getD grent.passwd else grent.passwd }

def newSgent (change : GroupChange) (sgent : Sgrp) : Sgrp :=
  { sgent with name := change.name.getD sgent.name, passwd := o.password.getD sgent.passwd }

/-- The shadow entry to store: the one that is there, or a new one for a password that is kept in it. -/
def shadowEntry (change : GroupChange) (grp : Group) : Option Sgrp → Option Sgrp
  | some sgrp => some (o.newSgent change sgrp)
  | none =>
    if o.password.isSome && grp.passwd == [120] then some (o.newSgent change ⟨grp.name,grp.passwd,[],grp.members⟩) else none

/-- The member list with the users of `-U`, in the place of the old one or behind it. -/
def newMembers (users : Option (List Bytes)) (members : List Bytes) : List Bytes :=
  match users with
  | none => members
  | some users => users.foldl addList (if o.append then members else [])

/-- The users whose primary group it was get the new gid, each under its name in the file. -/
def updatePrimaryGroups (ogid ngid : UInt32) : List Passwd → Nat → Db Passwd → Except Exit (Db Passwd)
  | [], _, db => .ok db
  | pwd :: pwds, n, db =>
    if pwd.gid == ogid then
      match commonioLocate e.tools.passwd.ops db pwd.name with
      | (none,_) => .error grpUpdateFailed
      | (some lpwd,db) =>
        match commonioUpdate e.tools.passwd.ops db { lpwd with gid := ngid } (e.passwd.memory n) with
        | (false,_) => .error grpUpdateFailed
        | (true,db) => updatePrimaryGroups ogid ngid pwds (n + 1) db
    else updatePrimaryGroups ogid ngid pwds n db

/-- Storing an entry; under a new name, the one with the old name goes. -/
def replaceGroup (change : GroupChange) (db : Db Group) (grp : Group) : Except Exit (Db Group) := do
  let db ← storeGroup e 0 db grp
  if change.name.isSome then removeGroup e db o.name else return db

def replaceGshadow (change : GroupChange) (db : Db Sgrp) (sgrp : Sgrp) : Except Exit (Db Sgrp) := do
  let db ← storeGshadow e 0 db sgrp
  if change.name.isSome then removeGshadow e db o.name else return db

/-- The passwd file is open where the gid changes. -/
def updatePasswds (change : GroupChange) (ogid : UInt32) (passwds : Option (Db Passwd)) : Except Exit (Option (Db Passwd)) :=
  match change.gid, passwds with
  | some ngid, some db => (updatePrimaryGroups e ogid ngid e.service.getpwent 0 db).map some
  | _, passwds => .ok passwds

def updateGshadows (change : GroupChange) (grp : Group) (users : Option (List Bytes)) :
    Option (Db Sgrp) → Except Exit (Option (Db Sgrp))
  | none => .ok none
  | some gshadows =>
    let (osgrp,gshadows) := commonioLocate e.tools.gshadow.ops gshadows o.name
    match o.shadowEntry change grp osgrp with
    | none => .ok (some gshadows)
    | some sgrp => (o.replaceGshadow e change gshadows { sgrp with mem := o.newMembers users sgrp.mem }).map some

def grpUpdate (isShadowGrp : Bool) (change : GroupChange) (dbs : GroupDbs) : Except Exit GroupDbs :=
  match commonioLocate e.tools.group.ops dbs.group o.name with
  | (none,_) => .error grpUpdateFailed
  | (some ogrp,groups) => do
    let grp := o.newGrent isShadowGrp change ogrp
    let passwds ← updatePasswds e change ogrp.gid dbs.passwd
    let users ← match o.users with
      | none => .ok none
      | some list => (listedUsers e list).map some
    let groups ← o.replaceGroup e change groups { grp with members := o.newMembers users grp.members }
    let gshadows ← o.updateGshadows e change grp users dbs.gshadow
    return ⟨groups,gshadows,passwds⟩

def work (files : GroupFiles) : Except Exit GroupDbs := do
  let change ← o.processFlags e
  let dbs ← openFiles e (o.usesShadow change files) change.gid.isSome files
  o.grpUpdate e files.isShadowGrp change dbs

def run (files : GroupFiles) : Exit × GroupFiles := commit e (o.work e files) files

end Groupmod

end UserDb.Programs
