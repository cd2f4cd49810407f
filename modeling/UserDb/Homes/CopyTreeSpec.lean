import UserDb.Homes.CopyTree

/-! What a faithful copy is, and that the entries of a directory are copied one by one. -/
namespace UserDb.Homes
open UserDb.Base

/-- What stands in the source under a path. -/
inductive SrcObj where
  | dir (st : Stat)
  | symlink (st : Stat) (target : Bytes)
  | file (id : FileId)

namespace Listing

def names : Listing → List Name
  | .nil => []
  | .dir name _ _ rest => name :: rest.names
  | .symlink name _ _ rest => name :: rest.names
  | .file name _ rest => name :: rest.names

/-- In every directory each name stands once. -/
def Distinct : Listing → Prop
  | .nil => True
  | .dir name _ inside rest => name ∉ rest.names ∧ inside.Distinct ∧ rest.Distinct
  | .symlink name _ _ rest => name ∉ rest.names ∧ rest.Distinct
  | .file name _ rest => name ∉ rest.names ∧ rest.Distinct

/-- A path in an entry of the name, or in the others. -/
def step (name : Name) (here : SrcObj) (below : List Name → Option SrcObj) (others : Option SrcObj) : List Name → Option SrcObj
  | [] => none
  | n :: p => if n = name then (if p = [] then some here else below p) else others

def lookup : Listing → List Name → Option SrcObj
  | .nil, _ => none
  | .dir name st inside rest, p => step name (.dir st) inside.lookup (rest.lookup p) p
  | .symlink name st target rest, p => step name (.symlink st target) (fun _ => none) (rest.lookup p) p
  | .file name id rest, p => step name (.file id) (fun _ => none) (rest.lookup p) p

/-- The names of files below a path, each with its file. -/
def files : Listing → List Name → List (List Name × FileId)
  | .nil, _ => []
  | .dir name _ inside rest, path => inside.files (path ++ [name]) ++ rest.files path
  | .symlink _ _ _ rest, path => rest.files path
  | .file name id rest, path => (path ++ [name],id) :: rest.files path

end Listing

/-- A source tree: its entries, and its files. A file has at least the names that are found. -/
structure SourceTree where
  listing : Listing
  info : FileId → FileInfo
  distinct : listing.Distinct
  linked : ∀ id, ((listing.files []).map Prod.snd).count id ≤ (info id).nlink

/-- The owner of a copy: the old one is replaced by the new one. Without an old one every owner is
replaced, without a new one none. -/
def mappedOwner (old new own : UInt32) : UInt32 :=
  if new = noId then own else if old = noId ∨ own = old then new else own

section Faithful
variable (call : CopyCall) (info : FileId → FileInfo)

/-- The status of a copy, up to its mode. -/
def OwnedLike (src st : Stat) : Prop :=
  st.uid.val = mappedOwner call.oldUid call.newUid src.uid ∧ st.gid.val = mappedOwner call.oldGid call.newGid src.gid

def ModeLike (src st : Stat) : Prop := st.mode = src.mode &&& 0o7777

def CopyOf (src : FileInfo) (file : DstFile) : Prop :=
  OwnedLike call src.stat file.stat ∧ ModeLike src.stat file.stat ∧ file.kind = src.kind

/-- What stands under a path of the copy, for what stands under it in the source. -/
def Matches (targets : Bytes → Bytes → Prop) (s : CopyState) : Option SrcObj → Option DstObj → Prop
  | none, none => True
  | some (.dir src), some (.dir st) => OwnedLike call src st ∧ ModeLike src st
  | some (.symlink src target), some (.symlink st target') => OwnedLike call src st ∧ targets target target'
  | some (.file id), some (.file i) => CopyOf call (info id) (s.inodes i)
  | _, _ => False

/-- The same paths with the same contents; names of one file are names of one copy, and no others. -/
structure FaithfulCopy (targets : Bytes → Bytes → Prop) (listing : Listing) (s : CopyState) : Prop where
  objects : ∀ p ≠ [], Matches call info targets s (listing.lookup p) (s.dst p)
  shared : ∀ p q id id' i j, listing.lookup p = some (.file id) → listing.lookup q = some (.file id') →
    s.dst p = some (.file i) → s.dst q = some (.file j) → (i = j ↔ id = id')

/-- An empty directory, and no name known to have others. -/
structure StartsEmpty (s : CopyState) : Prop where
  root : ∃ st, s.dst [] = some (.dir st)
  empty : ∀ p ≠ [], s.dst p = none
  noLinks : s.links = []

end Faithful

section Steps
variable {call : CopyCall} {info : FileId → FileInfo} {path : List Name} {s : CopyState}

private theorem copyLoop_eq {fuel : Nat} {rest : Bytes} (h : rest.length ≤ fuel) (written : Bytes) :
    copyLoop fuel rest written = written ++ rest := by
  induction fuel generalizing rest written with
  | zero =>
    obtain rfl := List.eq_nil_of_length_eq_zero (Nat.le_zero.mp h)
    rw [copyLoop,List.append_nil]
  | succ fuel ih =>
    rw [copyLoop]
    split
    · rename_i hnil
      rw [hnil,List.append_nil]
    · rename_i hne
      have hpos := List.length_pos_iff.mpr hne
      have hbuf : 0 < bufSize := by decide
      rw [ih (by rw [List.length_drop]; omega),List.append_assoc,List.take_append_drop]

private theorem copyContent_eq (content : Bytes) : copyContent content = content := copyLoop_eq le_rfl []

/-- The two steps of `chown_if_needed` give the documented owner. -/
theorem chowned_chownId (old new : UInt32) (own cur : Owner) : (chowned (chownId old new own) cur).val = mappedOwner old new own := by
  have hown := own.property
  unfold chowned chownId mappedOwner
  by_cases hnew : new = noId
  · simp [hnew,hown]
  · by_cases hold : old = noId ∨ own.val = old
    · simp [hnew,hold]
    · simp [hnew,hold,hown]

theorem ownedLike_chown (src st : Stat) : OwnedLike call src (chownIfNeeded call src st) :=
  ⟨chowned_chownId _ _ _ _,chowned_chownId _ _ _ _⟩

theorem create_eq {obj : DstObj} (hfree : s.dst path = none) (hdir : ∃ st, s.dst path.dropLast = some (.dir st)) :
    create path obj s = some { s with dst := Function.update s.dst path (some obj) } := by
  obtain ⟨st,hst⟩ := hdir
  rw [create,hfree,hst]

theorem copySymlink_eq (call : CopyCall) (src : Stat) (target : Bytes) (hfree : s.dst path = none)
    (hdir : ∃ st, s.dst path.dropLast = some (.dir st)) :
    ∃ st, copySymlink call path src target s =
        some { s with dst := Function.update s.dst path (some (.symlink st (copiedTarget call target))) } ∧
      OwnedLike call src st := by
  refine ⟨_,?_,ownedLike_chown src ⟨0o777,call.euid,call.egid⟩⟩
  rw [copySymlink,create_eq hfree hdir]
  simp [setStat]

/-- A copied file gets an inode of its own. -/
theorem copyNew_eq (call : CopyCall) (info : FileId → FileInfo) (path : List Name) (id : FileId) (s : CopyState)
    (hfree : s.dst path = none) (hdir : ∃ st, s.dst path.dropLast = some (.dir st)) :
    ∃ file, (match (info id).kind with
      | .regular content => copyFile call path (info id).stat content s
      | .special format rdev => copySpecial call path (info id).stat format rdev s) =
        some { s with dst := Function.update s.dst path (some (.file s.fresh)), inodes := Function.update s.inodes s.fresh file,
                      fresh := s.fresh + 1 } ∧
      CopyOf call (info id) file := by
  cases hkind : (info id).kind with
  | regular content =>
    refine ⟨⟨chmod (info id).stat.mode (chownIfNeeded call (info id).stat ⟨0o600,call.euid,call.egid⟩),.regular content⟩,?_,?_⟩
    · simp only [copyFile,createFile]
      rw [create_eq hfree hdir]
      simp [setStat,writeFile,copyContent_eq]
    · exact ⟨ownedLike_chown _ _,rfl,hkind.symm⟩
  | special format rdev =>
    refine ⟨⟨chmod (info id).stat.mode (chownIfNeeded call (info id).stat ⟨0,call.euid,call.egid⟩),.special format rdev⟩,?_,?_⟩
    · simp only [copySpecial,createFile]
      rw [create_eq hfree hdir]
      simp [setStat]
    · exact ⟨ownedLike_chown _ _,rfl,hkind.symm⟩

/-- A new directory, before anything is put in it. -/
theorem copyDir_eq (call : CopyCall) (src : Stat) (inside : CopyState → Option CopyState) (hfree : s.dst path = none)
    (hdir : ∃ st, s.dst path.dropLast = some (.dir st)) :
    ∃ st, copyDir call path src inside s = inside { s with dst := Function.update s.dst path (some (.dir st)) } ∧
      OwnedLike call src st ∧ ModeLike src st := by
  refine ⟨chmod src.mode (chownIfNeeded call src ⟨0o700,call.euid,call.egid⟩),?_,ownedLike_chown _ _,rfl⟩
  rw [copyDir,hfree]
  simp only
  rw [create_eq hfree hdir]
  simp [setStat]

end Steps

end UserDb.Homes
