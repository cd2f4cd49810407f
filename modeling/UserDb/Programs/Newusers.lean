import UserDb.Base.Outcomes
import UserDb.Ids.NewId
import UserDb.Programs.Usermod
import UserDb.Subid.Assign
import UserDb.Programs.Walk

/-! The users of a list of lines: each is found in the password file or made there, with a group
and with subordinate ids where it has none. The name service still knows the files of the start. -/
namespace UserDb.Programs
open UserDb.Base UserDb.Base.Outcomes UserDb.Atoi UserDb.Commonio UserDb.Subid UserDb.Ids

/-- What the calls for a home directory find and do. -/
structure HomeCalls where
  access : Bool
  mkdir : Bool
  eexist : Bool
  chown : Bool

/-- What a run is given. The functions of a number tell it for each line; `memory` has a second one
for the allocations of the line, and the loops over ids may take `fuel` steps. -/
structure NewusersEnv where
  bflg : Bool
  rflg : Bool
  pam : Bool
  bufsiz : Nat
  loginNameMax : Nat
  groupNameMaxLength : Nat
  tools : Tools
  accounts : Accounts
  getgrnam : Bytes → Option Group
  getgrgid : UInt32 → Option Group
  nss : Bool
  defs : Subid.LoginDefs
  aging : LoginDefs
  qsort : Qsort
  fuel : Nat
  locks : Bool
  opens : Nat → Bool × Bool
  memory : Nat → Nat → Bool
  crypt : Nat → Bytes → Option Bytes
  home : Nat → HomeCalls

/-- The fields of a line, as they stand there. -/
structure LineFields where
  name : Bytes
  passwd : Bytes
  uid : Bytes
  gid : Bytes
  gecos : Bytes
  dir : Bytes
  shell : Bytes

def lineFields (line : Bytes) : Option LineFields :=
  match line.splitOn colon with
  | [name,passwd,uid,gid,gecos,dir,shell] => some ⟨name,passwd,uid,gid,gecos,dir,shell⟩
  | _ => none

/-- The entry with the fields of the line that are not empty. -/
def LineFields.fill (f : LineFields) (pw : Passwd) : Passwd :=
  { pw with
    gecos := if f.gecos != [] then f.gecos else pw.gecos
    dir := if f.dir != [] then f.dir else pw.dir
    shell := if f.shell != [] then f.shell else pw.shell }

/-- The open files, and how many lines were read. A file that is not in use has a closed database. -/
structure Newusers where
  line : Nat
  passwd : Db Passwd
  shadow : Db Spwd
  group : Db Group
  gshadow : Db Sgrp
  subids : IdKind → Db SubordinateRange

structure NewusersFiles where
  passwd : Option Bytes
  shadow : Option Bytes
  group : Option Bytes
  gshadow : Option Bytes
  subids : IdKind → Option Bytes

namespace Newusers

/-- Every error ends the run in one way. -/
def failExit {β : Type} : Except Exit β := .error (.status 1)

def isSub (e : NewusersEnv) (files : NewusersFiles) (kind : IdKind) : Bool :=
  !e.nss && getdefUlong e.defs kind.countItem 65536 != 0 && (files.subids kind).isSome && !e.rflg

def isShadow (files : NewusersFiles) : Bool := files.shadow.isSome
def isShadowGrp (files : NewusersFiles) : Bool := files.gshadow.isSome

def openUsed {α : Type} (s : Storage α) (used : Bool) (file : Option Bytes) (calls : Bool × Bool) : Except Exit (Db α) :=
  if !used then .ok (Db.initial (fun _ => ⟨none,none,none,none,false⟩) 0 false)
  else
    match openFirst s .rdwr true file calls.1 calls.2 with
    | (false,_) => failExit
    | (true,db) => .ok db

def openFiles (e : NewusersEnv) (files : NewusersFiles) : Except Exit Newusers :=
  if !e.locks then failExit
  else do
    let passwd ← openUsed e.tools.passwd true files.passwd (e.opens 0)
    let shadow ← openUsed e.tools.shadow (isShadow files) files.shadow (e.opens 1)
    let group ← openUsed e.tools.group true files.group (e.opens 2)
    let gshadow ← openUsed e.tools.gshadow (isShadowGrp files) files.gshadow (e.opens 3)
    let subuid ← openUsed subidStorage.toStorage (isSub e files .uid) (files.subids .uid) (e.opens 4)
    let subgid ← openUsed subidStorage.toStorage (isSub e files .gid) (files.subids .gid) (e.opens 5)
    return ⟨0,passwd,shadow,group,gshadow,fun | .uid => subuid | .gid => subgid⟩

section Program
variable (e : NewusersEnv) (files : NewusersFiles)

/-- The id of a search; one that does not end, or leaves its array, ends no run. -/
def foundId {β : Type} : Ids.Outcome × β → Except Exit (UInt32 × β)
  | (.returned (some id),db) => .ok (id,db)
  | (.returned none,_) => failExit
  | (_,_) => .error .endless

/-- The user id: a number, that of another user, or a new one. -/
def getUserId (s : Newusers) (uid : Bytes) : Except Exit (UInt32 × Db Passwd) :=
  if uid != [] && uid.all isDigit then
    match getUid uid with
    | none => failExit
    | some uid => if uid.toUInt32 = noId then failExit else .ok (uid.toUInt32,s.passwd)
  else if uid != [] then
    match e.accounts.getpwnam uid with
    | some pw => .ok (pw.uid,s.passwd)
    | none =>
      match commonioLocate passwdOps s.passwd uid with
      | (none,_) => failExit
      | (some pw,passwd) => .ok (pw.uid,passwd)
  else
    foundId (findNewUid e.defs (fun uid => (e.accounts.getpwuid uid).isSome) (e.memory s.line 0) e.fuel e.rflg none s.passwd)

def isValidGroupName (name : Bytes) : Bool :=
  if 0 < e.groupNameMaxLength ∧ e.groupNameMaxLength < name.length then false else isValidName name false

def storeGroup (s : Newusers) (grent : Group) : Except Exit (UInt32 × Newusers) :=
  match commonioUpdate e.tools.group.ops s.group grent (e.memory s.line 2) with
  | (false,_) => failExit
  | (true,group) => .ok (grent.gid,{ s with group := group })

/-- A new group, with a shadow where there is a file for it. -/
def newGroup (s : Newusers) (name : Bytes) (gid : UInt32) : Except Exit (UInt32 × Newusers) :=
  if !isValidGroupName e name then failExit
  else if isShadowGrp files then
    match commonioLocate gshadowOps s.gshadow name with
    | (some _,_) => failExit
    | (none,gshadow) =>
      match commonioUpdate gshadowOps gshadow ⟨name,[42],[],[]⟩ (e.memory s.line 1) with
      | (false,_) => failExit
      | (true,gshadow) => storeGroup e { s with gshadow := gshadow } ⟨name,[120],gid,[]⟩
  else storeGroup e s ⟨name,[42],gid,[]⟩

/-- The primary group: one with the name, or the number, in the field, or a new one. -/
def addGroup (s : Newusers) (name gid : Bytes) (uid : UInt32) : Except Exit (UInt32 × Newusers) :=
  match e.getgrnam gid with
  | some grp => .ok (grp.gid,s)
  | none =>
    match commonioLocate e.tools.group.ops s.group gid with
    | (some grp,group) => .ok (grp.gid,{ s with group := group })
    | (none,group) =>
      if gid != [] && gid.all isDigit then
        match getGid gid with
        | none => failExit
        | some id =>
          if (e.getgrgid id.toUInt32).isSome then .ok (id.toUInt32,{ s with group := group })
          else
            match searchEntry (fun grp => grp.gid == id.toUInt32) group with
            | (some _,group) => .ok (id.toUInt32,{ s with group := group })
            | (none,group) =>
              if id.toUInt32 = noId then failExit else newGroup e files { s with group := group } name id.toUInt32
      else
        match foundId (findNewGid e.defs (fun gid => (e.getgrgid gid).isSome) (e.memory s.line 3) e.fuel e.rflg (some uid) group) with
        | .error exit => .error exit
        | .ok (id,group) => newGroup e files { s with group := group } (if gid != [] then gid else name) id

def addUser (s : Newusers) (name : Bytes) (uid gid : UInt32) : Except Exit Newusers :=
  if !isValidUserName e.loginNameMax name e.bflg then failExit
  else
    match commonioUpdate passwdOps s.passwd ⟨name,[120],uid,gid,[],[],[]⟩ (e.memory s.line 4) with
    | (false,_) => failExit
    | (true,passwd) => .ok { s with passwd := passwd }

/-- A user that the file does not have, and that nobody else knows either. -/
def createUser (s : Newusers) (f : LineFields) : Except Exit Newusers := do
  if (e.accounts.getpwnam f.name).isSome then failExit
  else
    let (uid,passwd) ← getUserId e s f.uid
    let (gid,s) ← addGroup e files { s with passwd := passwd } f.name f.gid uid
    addUser e s f.name uid gid

def updatePasswd (s : Newusers) (pwd : Passwd) (password : Bytes) : Except Exit Passwd :=
  match e.crypt s.line password with
  | none => failExit
  | some cp => .ok { pwd with passwd := cp }

def updateShadow (s : Newusers) (spent : Spwd) : Except Exit Newusers :=
  match commonioUpdate shadowOps s.shadow spent (e.memory s.line 5) with
  | (false,_) => failExit
  | (true,shadow) => .ok { s with shadow := shadow }

/-- Without PAM the password is stored at once, otherwise the new entry is locked until the end. -/
def addPasswd (s : Newusers) (pwd : Passwd) (password : Bytes) : Except Exit (Passwd × Newusers) :=
  if !e.pam && !isShadow files then do
    let pwd ← updatePasswd e s pwd password
    return (pwd,s)
  else
    match commonioLocate shadowOps s.shadow pwd.name with
    | (some sp,shadow) =>
      if e.pam then .ok (pwd,{ s with shadow := shadow })
      else
        match e.crypt s.line password with
        | none => failExit
        | some cp => do
          let s ← updateShadow e { s with shadow := shadow } { sp with pwdp := cp, lstchg := e.aging.lstchg }
          return (pwd,s)
    | (none,shadow) =>
      if pwd.passwd != [120] then
        if e.pam then .ok (pwd,{ s with shadow := shadow })
        else do
          let pwd ← updatePasswd e { s with shadow := shadow } pwd password
          return (pwd,{ s with shadow := shadow })
      else
        match if e.pam then some [33] else e.crypt s.line password with
        | none => failExit
        | some cp => do
          let s ← updateShadow e { s with shadow := shadow }
            ⟨pwd.name,cp,e.aging.lstchg,-1,e.aging.passMaxDays,e.aging.passWarnAge,-1,-1,flagUnset⟩
          return (pwd,s)

/-- The home directory is made where the line names one that is not there. -/
def makeHome (calls : HomeCalls) (f : LineFields) : Except Exit Unit :=
  if f.dir != [] && !calls.access then
    if f.dir.head? ≠ some 47 then failExit
    else if !calls.mkdir && !calls.eexist then failExit
    else if !calls.chown then failExit
    else .ok ()
  else .ok ()

/-- A user that the file has stays as it is, another one is made. -/
def ensureUser (s : Newusers) (f : LineFields) : Except Exit Newusers :=
  match commonioLocate passwdOps s.passwd f.name with
  | (some _,passwd) => .ok { s with passwd := passwd }
  | (none,passwd) => createUser e files { s with passwd := passwd } f

def storePassword (s : Newusers) (newpw : Passwd) (f : LineFields) : Except Exit (Passwd × Newusers) :=
  if f.passwd != [] then addPasswd e files s newpw f.passwd else .ok (newpw,s)

/-- The fields of the line go into the entry, and the entry into the file. -/
def fillUser (s : Newusers) (newpw : Passwd) (f : LineFields) : Except Exit (Passwd × Newusers) := do
  let (newpw,s) ← storePassword e files s newpw f
  makeHome (e.home s.line) f
  match commonioUpdate passwdOps s.passwd (f.fill newpw) (e.memory s.line 7) with
  | (false,_) => failExit
  | (true,passwd) => .ok (f.fill newpw,{ s with passwd := passwd })

/-- The entry of the user, as it is stored, and the files with it. -/
def storeUser (s : Newusers) (f : LineFields) : Except Exit (Passwd × Newusers) := do
  let s ← ensureUser e files s f
  match commonioLocate passwdOps s.passwd f.name with
  | (none,_) => failExit
  | (some pw,passwd) =>
    if e.pam && !e.memory s.line 6 then failExit else fillUser e files { s with passwd := passwd } pw f

/-- Subordinate ids of one kind for a user that does not have them. -/
def assignSubids (kind : IdKind) (line : Nat) (db : Db SubordinateRange) (user : Bytes) (uid : UInt32) :
    Except Exit (Db SubordinateRange) :=
  if !isSub e files kind then .ok db
  else
    match rangeExists e.accounts db user with
    | (true,db) => .ok db
    | (false,db) =>
      match findNewRange e.qsort (e.memory line 8) kind e.defs uid db with
      | (none,_) => failExit
      | (some (start,count),db) =>
        match subidAdd kind e.accounts e.nss e.defs (e.memory line 9) db user start count with
        | none => .error .endless
        | some (false,_) => failExit
        | some (true,db) => .ok db

/-- One round of the loop over the lines. -/
def addLine (s : Newusers) (line : Bytes) : Except Exit Newusers :=
  if e.bufsiz ≤ line.length + 1 then failExit
  else
    match lineFields line with
    | none => failExit
    | some f => do
      let (newpw,s) ← storeUser e files { s with line := s.line + 1 } f
      let subuid ← assignSubids e files .uid s.line (s.subids .uid) f.name newpw.uid
      let subgid ← assignSubids e files .gid s.line (s.subids .gid) f.name newpw.uid
      return { s with subids := fun | .uid => subuid | .gid => subgid }

def addLines (s : Newusers) (lines : List Bytes) : Except Exit Newusers := lines.foldlM (addLine e files) s

end Program

section Frame
variable {e : NewusersEnv} {files : NewusersFiles} {s s' : Newusers} {name : Bytes} {id : UInt32} {f : LineFields} {pwd newpw : Passwd}

private theorem storeGroup_subids {grent : Group} (h : storeGroup e s grent = .ok (id,s')) : s'.subids = s.subids := by
  unfold storeGroup at h
  split at h
  · cases h
  · cases h
    rfl

private theorem newGroup_subids {gid : UInt32} (h : newGroup e files s name gid = .ok (id,s')) : s'.subids = s.subids := by
  unfold newGroup at h
  split at h
  · cases h
  · split at h
    · split at h
      · cases h
      · split at h
        · cases h
        · have hstore := storeGroup_subids h
          exact hstore
    · exact storeGroup_subids h

private theorem addGroup_subids {gid : Bytes} {uid : UInt32} (h : addGroup e files s name gid uid = .ok (id,s')) :
    s'.subids = s.subids := by
  unfold addGroup at h
  split at h
  · cases h
    rfl
  · split at h
    · cases h
      rfl
    · split at h
      · split at h
        · cases h
        · split at h
          · cases h
            rfl
          · split at h
            · cases h
              rfl
            · split at h
              · cases h
              · have hnew := newGroup_subids h
                exact hnew
      · split at h
        · cases h
        · have hnew := newGroup_subids h
          exact hnew

private theorem addUser_subids {uid gid : UInt32} (h : addUser e s name uid gid = .ok s') : s'.subids = s.subids := by
  unfold addUser at h
  split at h
  · cases h
  · split at h
    · cases h
    · cases h
      rfl

private theorem createUser_subids (h : createUser e files s f = .ok s') : s'.subids = s.subids := by
  unfold createUser at h
  split at h
  · cases h
  · obtain ⟨⟨uid,passwd⟩,_,h⟩ := except_bind_eq_ok.mp h
    obtain ⟨⟨gid,s₁⟩,hgroup,h⟩ := except_bind_eq_ok.mp h
    have hs₁ := addGroup_subids hgroup
    exact (addUser_subids h).trans hs₁

private theorem updateShadow_subids {spent : Spwd} (h : updateShadow e s spent = .ok s') : s'.subids = s.subids := by
  unfold updateShadow at h
  split at h
  · cases h
  · cases h
    rfl

private theorem addPasswd_subids {password : Bytes} (h : addPasswd e files s pwd password = .ok (newpw,s')) : s'.subids = s.subids := by
  unfold addPasswd at h
  split at h
  · obtain ⟨_,_,h⟩ := except_bind_eq_ok.mp h
    cases h
    rfl
  · split at h
    · split at h
      · cases h
        rfl
      · split at h
        · cases h
        · obtain ⟨_,hupdate,h⟩ := except_bind_eq_ok.mp h
          have hs' := updateShadow_subids hupdate
          cases h
          exact hs'
    · split at h
      · split at h
        · cases h
          rfl
        · obtain ⟨_,_,h⟩ := except_bind_eq_ok.mp h
          cases h
          rfl
      · split at h
        · cases h
        · obtain ⟨_,hupdate,h⟩ := except_bind_eq_ok.mp h
          have hs' := updateShadow_subids hupdate
          cases h
          exact hs'

private theorem ensureUser_subids (h : ensureUser e files s f = .ok s') : s'.subids = s.subids := by
  unfold ensureUser at h
  split at h
  · cases h
    rfl
  · have hs' := createUser_subids h
    exact hs'

private theorem fillUser_subids (h : fillUser e files s pwd f = .ok (newpw,s')) : s'.subids = s.subids := by
  unfold fillUser at h
  obtain ⟨⟨newpw',s₁⟩,hpasswd,h⟩ := except_bind_eq_ok.mp h
  obtain ⟨_,_,h⟩ := except_bind_eq_ok.mp h
  have hs₁ : s₁.subids = s.subids := by
    unfold storePassword at hpasswd
    split at hpasswd
    · exact addPasswd_subids hpasswd
    · cases hpasswd
      rfl
  split at h
  · cases h
  · cases h
    exact hs₁

/-- Storing the user leaves the subordinate ids alone. -/
theorem storeUser_subids (h : storeUser e files s f = .ok (newpw,s')) : s'.subids = s.subids := by
  unfold storeUser at h
  obtain ⟨s₁,hensure,h⟩ := except_bind_eq_ok.mp h
  split at h
  · cases h
  · split at h
    · cases h
    · have hfill := fillUser_subids h
      have hs₁ := ensureUser_subids hensure
      exact hfill.trans hs₁

/-- A round over a line stores the user, and then gives the subordinate ids of each kind. -/
theorem addLine_eq_ok {line : Bytes} (h : addLine e files s line = .ok s') :
    ∃ f newpw s₁, lineFields line = some f ∧ storeUser e files { s with line := s.line + 1 } f = .ok (newpw,s₁) ∧
      ∀ kind, assignSubids e files kind s₁.line (s₁.subids kind) f.name newpw.uid = .ok (s'.subids kind) := by
  unfold addLine at h
  split at h
  · cases h
  · split at h
    · cases h
    · rename_i f hfields
      obtain ⟨⟨newpw,s₁⟩,hstore,h⟩ := except_bind_eq_ok.mp h
      obtain ⟨subuid,huid,h⟩ := except_bind_eq_ok.mp h
      obtain ⟨subgid,hgid,h⟩ := except_bind_eq_ok.mp h
      cases h
      refine ⟨f,newpw,s₁,hfields,hstore,?_⟩
      intro kind
      cases kind with
      | uid => exact huid
      | gid => exact hgid

end Frame

end Newusers

/-- A run up to the closing of the files. -/
def newusers (e : NewusersEnv) (files : NewusersFiles) (lines : List Bytes) : Except Exit Newusers := do
  let s ← Newusers.openFiles e files
  s.addLines e files lines

end UserDb.Programs
