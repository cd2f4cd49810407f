import UserDb.Homes.CopyTreeCopy
import UserDb.Base.Paths

/-! When a copied tree is faithful, its symbolic links included. -/
namespace UserDb.Homes
open UserDb.Base

def slash : UInt8 := '/'.toUInt8

section Law
variable {call : CopyCall} {info : FileId → FileInfo} {s : CopyState}

private theorem copiedTarget_eq (call : CopyCall) : copiedTarget call = Paths.replaceRoot call.srcRoot call.dstRoot := rfl

/-- A link is what it is in the source up to the rule for its target. -/
theorem Matches.retarget {targets targets' : Bytes → Bytes → Prop} {obj : Option SrcObj} {made : Option DstObj}
    (h : Matches call info targets s obj made)
    (hlink : ∀ st target target', obj = some (.symlink st target) → targets target target' → targets' target target') :
    Matches call info targets' s obj made := by
  rcases obj with _ | ⟨src⟩ | ⟨src,target⟩ | ⟨id⟩ <;> rcases made with _ | ⟨st⟩ | ⟨st,target'⟩ | ⟨i⟩
  case some.symlink.some.symlink => exact ⟨h.1,hlink src target target' rfl h.2⟩
  all_goals exact h

theorem Matches.symlink {targets : Bytes → Bytes → Prop} {src : Stat} {target : Bytes} {made : Option DstObj}
    (h : Matches call info targets s (some (.symlink src target)) made) :
    ∃ st target', made = some (.symlink st target') ∧ targets target target' := by
  rcases made with _ | ⟨st⟩ | ⟨st,target'⟩ | ⟨i⟩
  case some.symlink => exact ⟨st,target',rfl,h.2⟩
  all_goals exact h.elim

private theorem lookup_ne_nil {es : Listing} {p : List Name} {obj : SrcObj} (h : es.lookup p = some obj) : p ≠ [] := by
  rintro rfl
  cases es <;> cases h

/-- Both directories have a name. -/
structure Named (call : CopyCall) : Prop where
  src : call.srcRoot ≠ []
  dst : call.dstRoot ≠ []

/-- Every link points where its target moves with its text. -/
def LinksMove (call : CopyCall) (src : SourceTree) : Prop :=
  ∀ p st target, src.listing.lookup p = some (.symlink st target) → Paths.MovesText slash call.srcRoot call.dstRoot target

theorem copiedTarget_moved_iff (hnamed : Named call) (target : Bytes) :
    Paths.Moved slash call.srcRoot call.dstRoot target (copiedTarget call target) ↔
      Paths.MovesText slash call.srcRoot call.dstRoot target := by
  rw [copiedTarget_eq]
  exact Paths.moved_replaceRoot_iff hnamed.src hnamed.dst target

/-- In a faithful copy the links move with their texts, for there is only one copy. -/
theorem LinksMove.of_faithful {src : SourceTree} {s' : CopyState} (hnamed : Named call) (hs : StartsEmpty s)
    (hrun : copyListing call src.info src.listing [] s = some s')
    (h : FaithfulCopy call src.info (Paths.Moved slash call.srcRoot call.dstRoot) src.listing s') : LinksMove call src := by
  obtain ⟨s'',hrun',hfaithful⟩ := copyTree_faithful call src hs
  obtain rfl : s' = s'' := Option.some.inj (hrun.symm.trans hrun')
  intro p st target hlookup
  have hp := lookup_ne_nil hlookup
  have hcopied := hfaithful.objects p hp
  have hcopied' := h.objects p hp
  rw [hlookup] at hcopied hcopied'
  obtain ⟨st₁,target₁,hmade,htarget⟩ := hcopied.symlink
  obtain ⟨st₂,target₂,hmade',hmove⟩ := hcopied'.symlink
  rw [hmade] at hmade'
  cases hmade'
  rw [htarget] at hmove
  exact (copiedTarget_moved_iff hnamed target).mp hmove

theorem LinksMove.faithful {src : SourceTree} (hnamed : Named call) (hs : StartsEmpty s) (h : LinksMove call src) :
    ∃ s', copyListing call src.info src.listing [] s = some s' ∧
      FaithfulCopy call src.info (Paths.Moved slash call.srcRoot call.dstRoot) src.listing s' := by
  obtain ⟨s',hrun,hfaithful⟩ := copyTree_faithful call src hs
  refine ⟨s',hrun,?_,hfaithful.shared⟩
  intro p hp
  apply (hfaithful.objects p hp).retarget
  rintro st target target' hlookup rfl
  exact (copiedTarget_moved_iff hnamed target).mpr (h p st target hlookup)

/-- Every tree is copied faithfully up to the targets of its links, and with them exactly when they
all move with their texts. -/
theorem copyTree_faithful_iff (call : CopyCall) (hnamed : Named call) (src : SourceTree) (s : CopyState) (hs : StartsEmpty s) :
    (∃ s', copyListing call src.info src.listing [] s = some s' ∧
      FaithfulCopy call src.info (Paths.Moved slash call.srcRoot call.dstRoot) src.listing s') ↔ LinksMove call src :=
  ⟨fun ⟨_,hrun,h⟩ => LinksMove.of_faithful hnamed hs hrun h,fun h => h.faithful hnamed hs⟩

section Neighbour

def user : Owner := ⟨1000,by decide⟩
def movedUser : Owner := ⟨1001,by decide⟩

def neighbourCall : CopyCall where
  srcRoot := ascii "/home/user"
  dstRoot := ascii "/home/new"
  oldUid := 1000
  newUid := 1001
  oldGid := 1000
  newGid := 1001
  euid := ⟨0,by decide⟩
  egid := ⟨0,by decide⟩

/-- One link, to a file of a neighbour. -/
def neighbourTree : SourceTree where
  listing := .symlink (ascii "link") ⟨0o777,user,user⟩ (ascii "/home/user2/x") .nil
  info := fun _ => ⟨⟨0,user,user⟩,1,.regular []⟩
  distinct := ⟨List.not_mem_nil,trivial⟩
  linked := fun _ => Nat.zero_le _

/-- An empty directory. -/
def emptyCopy : CopyState where
  dst := fun p => if p = [] then some (.dir ⟨0o755,user,user⟩) else none
  inodes := fun _ => ⟨⟨0,user,user⟩,.regular []⟩
  fresh := 0
  links := []

theorem emptyCopy_starts : StartsEmpty emptyCopy :=
  ⟨⟨_,rfl⟩,fun _ hp => if_neg hp,rfl⟩

theorem neighbourCall_named : Named neighbourCall := by
  constructor <;> decide +kernel

/-- The neighbour's path does not move with its text. -/
theorem neighbourTree_not_moves : ¬ LinksMove neighbourCall neighbourTree := by
  intro h
  have hmoves := h [ascii "link"] ⟨0o777,user,user⟩ (ascii "/home/user2/x") rfl
  have hend := hmoves.1 (ascii "2/x") (by decide +kernel)
  revert hend
  decide +kernel

/-- A file with two names, one of them in a directory, where a link to it stands as well. -/
def homeTree : SourceTree where
  listing := .dir (ascii "docs") ⟨0o700,user,user⟩
    (.file (ascii "a") ⟨1,7⟩ (.symlink (ascii "link") ⟨0o777,user,user⟩ (ascii "/home/user/docs/a") .nil)) (.file (ascii "b") ⟨1,7⟩ .nil)
  info := fun _ => ⟨⟨0o640,user,user⟩,2,.regular (ascii "text")⟩
  distinct := ⟨by decide,⟨by decide,⟨List.not_mem_nil,trivial⟩⟩,List.not_mem_nil,trivial⟩
  linked := fun _ => List.count_le_length

private theorem homeTree_moves : LinksMove neighbourCall homeTree := by
  intro p st target hlookup
  have htarget : target = ascii "/home/user/docs/a" := by
    rcases p with _ | ⟨n,_ | ⟨m,p⟩⟩
    · cases hlookup
    · simp only [homeTree,Listing.lookup,Listing.step] at hlookup
      split_ifs at hlookup <;> cases hlookup
    · simp only [homeTree,Listing.lookup,Listing.step] at hlookup
      split_ifs at hlookup <;> cases hlookup
      rfl
  rw [htarget]
  constructor
  · intro rest hrest
    have hroot : ascii "/home/user/docs/a" = neighbourCall.srcRoot ++ ascii "/docs/a" := by decide +kernel
    rw [← List.append_cancel_left (hroot.symm.trans hrest)]
    exact .inr (.inl rfl)
  · exact fun hnot => absurd (by decide +kernel) hnot

theorem copyTree_neighbour :
    (∃ s', copyListing neighbourCall homeTree.info homeTree.listing [] emptyCopy = some s' ∧
      FaithfulCopy neighbourCall homeTree.info (Paths.Moved slash neighbourCall.srcRoot neighbourCall.dstRoot) homeTree.listing s' ∧
      s'.dst [ascii "docs",ascii "a"] = some (.file 0) ∧ s'.dst [ascii "b"] = some (.file 0) ∧
      s'.dst [ascii "docs",ascii "link"] = some (.symlink ⟨0o777,movedUser,movedUser⟩ (ascii "/home/new/docs/a"))) ∧
    ((∃ s', copyListing neighbourCall neighbourTree.info neighbourTree.listing [] emptyCopy = some s' ∧
      FaithfulCopy neighbourCall neighbourTree.info (Paths.Moved slash neighbourCall.srcRoot neighbourCall.dstRoot)
        neighbourTree.listing s') ↔ LinksMove neighbourCall neighbourTree) := by
  refine ⟨?_,copyTree_faithful_iff neighbourCall neighbourCall_named neighbourTree emptyCopy emptyCopy_starts⟩
  have hmade : (copyListing neighbourCall homeTree.info homeTree.listing [] emptyCopy).map (fun s' =>
      [s'.dst [ascii "docs",ascii "a"],s'.dst [ascii "b"],s'.dst [ascii "docs",ascii "link"]]) =
        some [some (.file 0),some (.file 0),some (.symlink ⟨0o777,movedUser,movedUser⟩ (ascii "/home/new/docs/a"))] := by decide +kernel
  obtain ⟨s',hrun,hfaithful⟩ :=
    (copyTree_faithful_iff neighbourCall neighbourCall_named homeTree emptyCopy emptyCopy_starts).mpr homeTree_moves
  rw [hrun] at hmade
  simp only [Option.map_some,Option.some.injEq,List.cons.injEq] at hmade
  obtain ⟨hfirst,hsecond,hlink,_⟩ := hmade
  exact ⟨s',hrun,hfaithful,hfirst,hsecond,hlink⟩

/-- The copied link points into another home than the one of the neighbour. -/
theorem copyTree_neighbour_unfaithful :
    ¬ ∃ s', copyListing neighbourCall neighbourTree.info neighbourTree.listing [] emptyCopy = some s' ∧
      FaithfulCopy neighbourCall neighbourTree.info (Paths.Moved slash neighbourCall.srcRoot neighbourCall.dstRoot)
        neighbourTree.listing s' := by
  rintro ⟨s',hrun,h⟩
  exact neighbourTree_not_moves (LinksMove.of_faithful neighbourCall_named emptyCopy_starts hrun h)

end Neighbour

end Law

end UserDb.Homes
