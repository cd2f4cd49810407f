import UserDb.Base.Fgets
import UserDb.Base.LastWrite
import UserDb.Defaults.Values
import UserDb.Login.Porttime
import UserDb.Programs.GroupsWork

/-! The program `chgpasswd`: a name and a password on each line of its input, in the group file and in its shadow;
all of them, or none. -/
namespace UserDb.Programs
open UserDb.Base UserDb.Atoi UserDb.Commonio UserDb.Defaults

/-- What the options say of the new passwords; `crypt` makes the hash for a line, with a salt of its own. -/
structure Chgpasswd where
  encrypted : Bool
  cryptMethod : Option Bytes
  crypt : Nat → Bytes → Option Bytes

namespace Chgpasswd
variable (o : Chgpasswd) (e : GroupEnv)

def failed : Exit := .status 1

/-- The name and the password of a line; there is none where the buffer has no whole line, or this no colon. -/
def splitLine (buf : Bytes) : Option (Bytes × Bytes) :=
  match stpsep newline (cstring buf) with
  | (_,none) => none
  | (line,some _) =>
    match stpsep colon line with
    | (_,none) => none
    | (name,some newpwd) => some (name,newpwd)

def newPassword (n : Nat) (newpwd : Bytes) : Option Bytes :=
  if !o.encrypted && o.cryptMethod != some (ascii "NONE") then o.crypt n newpwd else some newpwd

/-- The shadow entry to change, made up where there is none for a password that is said to be in it. -/
def shadowEntry (gr : Group) (name : Bytes) : Option Sgrp → Option Sgrp
  | some sg => some sg
  | none => if gr.passwd == shadowPasswdString then some ⟨name,[],[],gr.members⟩ else none

/-- The shadow of a group, where the file is in use. -/
def locateShadow (gr : Group) (name : Bytes) : Option (Db Sgrp) → Option Sgrp × Option (Db Sgrp)
  | none => (none,none)
  | some gshadows =>
    let (sg,gshadows) := commonioLocate e.tools.gshadow.ops gshadows name
    (shadowEntry gr name sg,some gshadows)

def updateShadow (n : Nat) (cp : Bytes) : Option Sgrp → Option (Db Sgrp) → Bool × Option (Db Sgrp)
  | some sg, some gshadows =>
    let (ok,gshadows) := commonioUpdate e.tools.gshadow.ops gshadows { sg with passwd := cp } (e.gshadow.memory n)
    (ok,some gshadows)
  | _, gshadows => (true,gshadows)

def updateGroup (n : Nat) (cp : Bytes) (gr : Group) (shadowed : Bool) (groups : Db Group) : Bool × Db Group :=
  if !shadowed || gr.passwd != shadowPasswdString then
    commonioUpdate e.tools.group.ops groups { gr with passwd := cp } (e.group.memory n)
  else (true,groups)

/-- One line, and whether that succeeded. -/
def changePassword (n : Nat) (name cp : Bytes) (dbs : GroupDbs) : Bool × GroupDbs :=
  match commonioLocate e.tools.group.ops dbs.group name with
  | (none,groups) => (false,{ dbs with group := groups })
  | (some gr,groups) =>
    let (sg,gshadows) := locateShadow e gr name dbs.gshadow
    let (stored,gshadows) := updateShadow e n cp sg gshadows
    if !stored then (false,{ dbs with group := groups, gshadow := gshadows })
    else
      let (stored,groups) := updateGroup e n cp gr sg.isSome groups
      (stored,{ dbs with group := groups, gshadow := gshadows })

/-- All lines are gone through, also behind an error; only a password that has no hash ends the program. -/
def changePasswords : Nat → List Bytes → Bool × GroupDbs → Except Exit (Bool × GroupDbs)
  | _, [], state => .ok state
  | n, buf :: bufs, (errors,dbs) =>
    match splitLine buf with
    | none => changePasswords (n + 1) bufs (true,dbs)
    | some (name,newpwd) =>
      match o.newPassword n newpwd with
      | none => .error failed
      | some cp =>
        let (ok,dbs) := changePassword e n name cp dbs
        changePasswords (n + 1) bufs (errors || !ok,dbs)

def openFiles (shadow : Bool) (files : GroupFiles) : Except Exit GroupDbs :=
  if !e.group.lock || (shadow && !e.gshadow.lock) then .error failed
  else
    match Groups.openLocked e.tools.group e.group files.group.file,
      Groups.openUsed e.tools.gshadow shadow e.gshadow files.gshadow.file with
    | .ok groups, .ok gshadows => .ok ⟨groups,gshadows,none⟩
    | _, _ => .error failed

/-- The shadow is written first. -/
def closeFiles (dbs : GroupDbs) (files : GroupFiles) : Exit × GroupFiles :=
  let (ok,gshadow) := Groups.closeUsed e e.tools.gshadow e.gshadow dbs.gshadow files.gshadow
  let files := { files with gshadow := gshadow }
  if !ok then (failed,files)
  else
    let (ok,group) := Groups.closeFile e e.tools.group e.group dbs.group files.group
    (if ok then Groups.success else failed,{ files with group := group })

def run (stdin : Bytes) (files : GroupFiles) : Exit × GroupFiles :=
  match openFiles e files.isShadowGrp files with
  | .error exit => (exit,files)
  | .ok dbs =>
    match o.changePasswords e 0 (Fgets.pieces newline Login.bufsiz stdin) (false,dbs) with
    | .error exit => (exit,files)
    | .ok (true,_) => (failed,files)
    | .ok (false,dbs) => closeFiles e dbs files

end Chgpasswd

end UserDb.Programs
