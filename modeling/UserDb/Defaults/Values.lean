import UserDb.Base.Fgets
import UserDb.Base.Text
import UserDb.Base.KeyedLines
import UserDb.Commonio.Group

/-! The defaults for new users: the values, how each is read from its text, and how it is written. -/
namespace UserDb.Defaults
open UserDb.Base UserDb.Atoi UserDb.Commonio

def slash : UInt8 := 47
def equals : UInt8 := 61

/-- The values of the defaults file, in the order in which missing ones are added. -/
inductive DefKey where
  | group | groups | home | inactive | expire | shell | skel | usrskel | createMailSpool | btrfsSubvolumeHome
  | btrfsSubvolumeSystem | logInit
  deriving DecidableEq, Repr

namespace DefKey

def all : List DefKey :=
  [.group,.groups,.home,.inactive,.expire,.shell,.skel,.usrskel,.createMailSpool,.btrfsSubvolumeHome,.btrfsSubvolumeSystem,.logInit]

theorem mem_all (k : DefKey) : k ∈ all := by
  cases k <;> decide

theorem nodup_all : all.Nodup := by decide

instance : Fintype DefKey := ⟨⟨all,nodup_all⟩,mem_all⟩

def name : DefKey → Bytes
  | .group => ascii "GROUP"
  | .groups => ascii "GROUPS"
  | .home => ascii "HOME"
  | .inactive => ascii "INACTIVE"
  | .expire => ascii "EXPIRE"
  | .shell => ascii "SHELL"
  | .skel => ascii "SKEL"
  | .usrskel => ascii "USRSKEL"
  | .createMailSpool => ascii "CREATE_MAIL_SPOOL"
  | .btrfsSubvolumeHome => ascii "BTRFS_SUBVOLUME_HOME"
  | .btrfsSubvolumeSystem => ascii "BTRFS_SUBVOLUME_SYSTEM"
  | .logInit => ascii "LOG_INIT"

def ofName (text : Bytes) : Option DefKey := all.find? fun k => k.name == text

end DefKey

/-- `def_groups`, and the list that `get_groups` leaves in `user_groups`. -/
structure SupplementaryGroups where
  text : Bytes
  names : List Bytes
  deriving DecidableEq, Repr

def DefKey.Value : DefKey → Type
  | .group => UInt32
  | .groups => SupplementaryGroups
  | .inactive => Int
  | .home | .expire | .shell | .skel | .usrskel | .createMailSpool | .btrfsSubvolumeHome | .btrfsSubvolumeSystem | .logInit => Bytes

/-- One value for each key. -/
abbrev Values := (k : DefKey) → k.Value

/-- A string that a program is given as an argument. -/
abbrev CString := { text : Bytes // 0 ∉ text }

/-- What `get_defaults` uses besides the file: the prefix, the group file, and how many groups a
process can have. -/
structure DefaultsEnv where
  prefixDir : CString
  groupFile : List Group
  sysNgroups : Nat

def skelDir : Bytes := ascii "/etc/skel"
def usrSkelDir : Bytes := ascii "/usr/etc/skel"

/-- The values without a defaults file. -/
def builtin : Values
  | .group => (1000 : UInt32)
  | .groups => ⟨[],[]⟩
  | .home => ascii "/home"
  | .inactive => (-1 : Int)
  | .expire => ([] : Bytes)
  | .shell => ascii "/bin/bash"
  | .skel => skelDir
  | .usrskel => usrSkelDir
  | .createMailSpool => ascii "yes"
  | .btrfsSubvolumeHome => ascii "no"
  | .btrfsSubvolumeSystem => ascii "no"
  | .logInit => ascii "yes"

section Reading
variable (e : DefaultsEnv)

def grByGid (gid : UInt32) : Option Group := e.groupFile.find? fun grp => grp.gid == gid
def grByName (name : Bytes) : Option Group := e.groupFile.find? fun grp => grp.name == name

/-- `prefix_getgr_nam_gid` and `get_local_group`: a number is a group id, other text is a name. -/
def groupByText (text : Bytes) : Option Group :=
  match getGid text with
  | some gid => grByGid e gid.toUInt32
  | none => grByName e text

/-- The groups of a list that are found, up to as many as there can be. -/
def getGroups (list : Bytes) : List Bytes :=
  if list = [] then [] else (((list.splitOn comma).filterMap (groupByText e)).map Group.name).take e.sysNgroups

/-- What `strsep` leaves of a list that it has cut up. -/
def cutList (list : Bytes) : Bytes := list.takeWhile (· != comma)

def readGroup (gid : UInt32) (text : Bytes) : UInt32 :=
  match groupByText e text with
  | none => gid
  | some grp => grp.gid

def readGroups (def_groups : SupplementaryGroups) (text : Bytes) : SupplementaryGroups :=
  -- the copy is made of the list that get_groups has cut at its commas
  if getGroups e text = [] then ⟨def_groups.text,[]⟩ else ⟨cutList text,getGroups e text⟩

def prefixed (dir : Bytes) : Bytes := if e.prefixDir.val = [] then dir else e.prefixDir.val ++ slash :: dir

def orElse (text other : Bytes) : Bytes := if text = [] then other else text

/-- The days are a number of the C language; other text stands for none. -/
def readInactive (text : Bytes) : Int :=
  match strtoi text 0 (-1) (2^63 - 1) with
  | (n,.success) => n
  | _ => -1

/-- What the text of a key makes of its value. -/
def readValue : (k : DefKey) → k.Value → Bytes → k.Value
  | .group, gid, text => readGroup e gid text
  | .groups, def_groups, text => readGroups e def_groups text
  | .home, _, text => text
  | .shell, _, text => text
  | .inactive, _, text => readInactive text
  | .expire, _, text => text
  | .skel, _, text => prefixed e (orElse text skelDir)
  | .usrskel, _, text => prefixed e (orElse text usrSkelDir)
  | .createMailSpool, _, text => orElse text (ascii "no")
  | .btrfsSubvolumeHome, _, text => orElse text (ascii "no")
  | .btrfsSubvolumeSystem, _, text => orElse text (ascii "no")
  | .logInit, def_log_init, text => orElse text def_log_init

end Reading

/-- A number as `%ld` writes it. -/
def signedNumeral (n : Int) : Bytes := if n < 0 then 45 :: numeral n.natAbs else numeral n.natAbs

/-- The text of a value. -/
def showValue : (k : DefKey) → k.Value → Bytes
  | .group, gid => numeral (UInt32.toNat gid)
  | .groups, def_groups => SupplementaryGroups.text def_groups
  | .inactive, n => signedNumeral n
  | .home, text | .expire, text | .shell, text | .skel, text | .usrskel, text | .createMailSpool, text
  | .btrfsSubvolumeHome, text | .btrfsSubvolumeSystem, text | .logInit, text => text

/-- The text up to a separator, and what is behind it. -/
def stpsep (sep : UInt8) (s : Bytes) : Bytes × Option Bytes :=
  match s.dropWhile (· != sep) with
  | [] => (s,none)
  | _ :: rest => (s.takeWhile (· != sep),some rest)

def bufSize : Nat := 1024

/-- The line that a buffer holds. -/
def lineOf (buf : Bytes) : Bytes := (stpsep newline (cstring buf)).1

/-- The key of a line, if it is one that is known. -/
def keyOf (line : Bytes) : Option DefKey :=
  match stpsep equals line with
  | (_,none) => none
  | (name,some _) => DefKey.ofName name

/-- The text behind the first equals sign. -/
def textOf (line : Bytes) : Bytes := (stpsep equals line).2.getD []

def defaultsLine (e : DefaultsEnv) : Values → Bytes → Values := KeyedLines.readLine keyOf fun k cur line => readValue e k cur (textOf line)

/-- The values that `get_defaults` reads. -/
def getDefaults (e : DefaultsEnv) (content : Bytes) : Values :=
  (Fgets.pieces newline bufSize content).foldl (fun d buf => defaultsLine e d (lineOf buf)) builtin

def defaultFile (e : DefaultsEnv) : Bytes :=
  if e.prefixDir.val = [] then ascii "/etc/default/useradd" else e.prefixDir.val ++ slash :: ascii "/etc/default/useradd"

/-- Whether the end of the file was reached when the buffer was read. -/
def atEof (buf : Bytes) : Bool := newline ∉ buf && buf.length < bufSize - 1

def shownLine (d : Values) (k : DefKey) : Bytes := k.name ++ equals :: showValue k (d k)

/-- The loop of `set_defaults` and the lines added after it, with the keys that are already out. -/
def copyLines (d : Values) : List Bytes → List DefKey → Option (List Bytes)
  | [], out => some ((DefKey.all.filter (· ∉ out)).map (shownLine d))
  | buf :: pieces, out =>
    match stpsep newline (cstring buf) with
    | (line,rest) =>
      if rest = none ∧ atEof buf = false then none
      else
        match stpsep equals line with
        | (_,none) => (copyLines d pieces out).map (line :: ·)
        | (name,some val) =>
          match DefKey.ofName name with
          | some k =>
            if k ∉ out then (copyLines d pieces (k :: out)).map (shownLine d k :: ·)
            else (copyLines d pieces out).map ((name ++ equals :: val) :: ·)
          | none => (copyLines d pieces out).map ((name ++ equals :: val) :: ·)

/-- The file that `set_defaults` puts in the place of the old one. The name of the backup has to fit
in the buffer. -/
def setDefaults (e : DefaultsEnv) (d : Values) (content : Bytes) : Option Bytes := do
  let lines ← copyLines d (Fgets.pieces newline bufSize content) []
  if (defaultFile e).length + 1 < bufSize then some (lines.flatMap (· ++ [newline])) else none

end UserDb.Defaults
