import UserDb.Base.Bytes

/-! Copying a directory tree: what is read from the source, and what is made of it below the
destination. -/
namespace UserDb.Homes
open UserDb.Base

abbrev Name := Bytes

/-- The id that stands for no user and no group. -/
def noId : UInt32 := 0xFFFFFFFF

/-- A user or a group that can own a file. -/
abbrev Owner := { id : UInt32 // id ≠ noId }

structure Stat where
  mode : Nat
  uid : Owner
  gid : Owner
  deriving DecidableEq

structure FileId where
  dev : UInt64
  ino : UInt64
  deriving DecidableEq, Repr

inductive FileKind where
  | regular (content : Bytes)
  | special (format rdev : Nat)
  deriving DecidableEq, Repr

/-- A file of the source, which may have several names. -/
structure FileInfo where
  stat : Stat
  nlink : Nat
  kind : FileKind

/-- What a directory has in it besides itself and its parent, in the order in which it is read. -/
inductive Listing where
  | nil
  | dir (name : Name) (st : Stat) (inside rest : Listing)
  | symlink (name : Name) (st : Stat) (target : Bytes) (rest : Listing)
  | file (name : Name) (id : FileId) (rest : Listing)

/-- What stands below the destination under a path. -/
inductive DstObj where
  | dir (st : Stat)
  | symlink (st : Stat) (target : Bytes)
  | file (inode : Nat)
  deriving DecidableEq

structure DstFile where
  stat : Stat
  kind : FileKind
  deriving DecidableEq

/-- A file of the source with several names, and where its copy is. The name is that of the path
below the destination. -/
structure LinkName where
  id : FileId
  count : Nat
  name : List Name

structure CopyState where
  dst : List Name → Option DstObj
  inodes : Nat → DstFile
  fresh : Nat
  links : List LinkName

/-- The arguments of `copy_tree`, and who calls it. -/
structure CopyCall where
  srcRoot : Bytes
  dstRoot : Bytes
  oldUid : UInt32
  newUid : UInt32
  oldGid : UInt32
  newGid : UInt32
  euid : Owner
  egid : Owner

/-- One of the two ids that a copy is given. -/
def chownId (old new : UInt32) (own : Owner) : UInt32 :=
  let tmp := if old = noId ∨ own.val = old then new else noId
  if tmp = noId then own.val else tmp

/-- `chown` leaves alone what it is not given. -/
def chowned (id : UInt32) (own : Owner) : Owner := if h : id = noId then own else ⟨id,h⟩

section Calls
variable (call : CopyCall)

/-- The owner as the `_if_needed` functions set it. -/
def chownIfNeeded (src st : Stat) : Stat :=
  { st with
    uid := chowned (chownId call.oldUid call.newUid src.uid) st.uid
    gid := chowned (chownId call.oldGid call.newGid src.gid) st.gid }

/-- A new object under a path that is free, in a directory that is there. -/
def create (path : List Name) (obj : DstObj) (s : CopyState) : Option CopyState :=
  match s.dst path,s.dst path.dropLast with
  | none,some (.dir _) => some { s with dst := Function.update s.dst path (some obj) }
  | _,_ => none

/-- A change of the status of what stands under a path. -/
def setStat (path : List Name) (f : Stat → Stat) (s : CopyState) : Option CopyState :=
  match s.dst path with
  | some (.dir st) => some { s with dst := Function.update s.dst path (some (.dir (f st))) }
  | some (.symlink st target) => some { s with dst := Function.update s.dst path (some (.symlink (f st) target)) }
  | some (.file i) => some { s with inodes := Function.update s.inodes i { s.inodes i with stat := f (s.inodes i).stat } }
  | none => none

def chmod (mode : Nat) (st : Stat) : Stat := { st with mode := mode &&& 0o7777 }

def bufSize : Nat := 8192

/-- The loop that copies what is in a file. -/
def copyLoop : Nat → Bytes → Bytes → Bytes
  | 0, _, written => written
  | fuel + 1, rest, written => if rest = [] then written else copyLoop fuel (rest.drop bufSize) (written ++ rest.take bufSize)

def copyContent (content : Bytes) : Bytes := copyLoop content.length content []

/-- A new file with one name. -/
def createFile (path : List Name) (file : DstFile) (s : CopyState) : Option CopyState :=
  (create path (.file s.fresh) s).map fun s' => { s' with inodes := Function.update s'.inodes s.fresh file, fresh := s.fresh + 1 }

def writeFile (path : List Name) (content : Bytes) (s : CopyState) : Option CopyState :=
  match s.dst path with
  | some (.file i) => some { s with inodes := Function.update s.inodes i { s.inodes i with kind := .regular content } }
  | _ => none

/-- The target of a copied link: the text of the source root at its beginning is replaced. -/
def copiedTarget (oldlink : Bytes) : Bytes :=
  if call.srcRoot <+: oldlink then call.dstRoot ++ oldlink.drop call.srcRoot.length else oldlink

def copySymlink (path : List Name) (st : Stat) (target : Bytes) (s : CopyState) : Option CopyState := do
  let s ← create path (.symlink ⟨0o777,call.euid,call.egid⟩ (copiedTarget call target)) s
  setStat path (chownIfNeeded call st) s

/-- The table without one of the names that are still to come. -/
def useLink (id : FileId) : List LinkName → List LinkName
  | [] => []
  | l :: links =>
    if l.id = id then (if l.count - 1 = 0 then links else { l with count := l.count - 1 } :: links)
    else l :: useLink id links

def copyHardlink (path : List Name) (l : LinkName) (s : CopyState) : Option CopyState :=
  match s.dst l.name with
  | some (.file i) => (create path (.file i) s).map fun s' => { s' with links := useLink l.id s'.links }
  | _ => none

def copyFile (path : List Name) (st : Stat) (content : Bytes) (s : CopyState) : Option CopyState := do
  let s ← createFile path ⟨⟨0o600,call.euid,call.egid⟩,.regular []⟩ s
  let s ← setStat path (chownIfNeeded call st) s
  let s ← setStat path (chmod st.mode) s
  writeFile path (copyContent content) s

def copySpecial (path : List Name) (st : Stat) (format rdev : Nat) (s : CopyState) : Option CopyState := do
  let s ← createFile path ⟨⟨0,call.euid,call.egid⟩,.special format rdev⟩ s
  let s ← setStat path (chownIfNeeded call st) s
  setStat path (chmod st.mode) s

/-- What `check_link` finds, and the table behind it. -/
def checkLink (path : List Name) (id : FileId) (nlink : Nat) (links : List LinkName) : Option LinkName × List LinkName :=
  match links.find? fun l => l.id == id with
  | some l => (some l,links)
  | none => if nlink = 1 then (none,links) else (none,⟨id,nlink,path⟩ :: links)

/-- `copy_dir`, with what is done inside. -/
def copyDir (path : List Name) (st : Stat) (inside : CopyState → Option CopyState) (s : CopyState) : Option CopyState :=
  match s.dst path with
  | some (.dir _) => inside s
  | _ => do
    let s ← create path (.dir ⟨0o700,call.euid,call.egid⟩) s
    let s ← setStat path (chownIfNeeded call st) s
    let s ← setStat path (chmod st.mode) s
    inside s

variable (info : FileId → FileInfo)

/-- `copy_entry` for what is neither a directory nor a symbolic link. -/
def copyEntryFile (path : List Name) (id : FileId) (s : CopyState) : Option CopyState :=
  if (s.dst path).isSome then some s
  else
    match checkLink path id (info id).nlink s.links with
    | (some l,_) => copyHardlink path l s
    | (none,links) =>
      match (info id).kind with
      | .regular content => copyFile call path (info id).stat content { s with links := links }
      | .special format rdev => copySpecial call path (info id).stat format rdev { s with links := links }

def copyEntrySymlink (path : List Name) (st : Stat) (target : Bytes) (s : CopyState) : Option CopyState :=
  if (s.dst path).isSome then some s else copySymlink call path st target s

/-- `copy_tree_impl` without the root: the entries one after the other. -/
def copyListing : Listing → List Name → CopyState → Option CopyState
  | .nil, _, s => some s
  | .dir name st inside rest, path, s =>
    (copyDir call (path ++ [name]) st (copyListing inside (path ++ [name])) s).bind (copyListing rest path)
  | .symlink name st target rest, path, s => (copyEntrySymlink call (path ++ [name]) st target s).bind (copyListing rest path)
  | .file name id rest, path, s => (copyEntryFile call info (path ++ [name]) id s).bind (copyListing rest path)

end Calls

end UserDb.Homes
