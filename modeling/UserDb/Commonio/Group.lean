import UserDb.Commonio.Sort
import UserDb.Atoi.Strtoi

/-! The group file: how a line is read and written, and how a group is split over several
lines and put together again. -/
namespace UserDb.Commonio
open UserDb.Base UserDb.Atoi

structure Group where
  name : Bytes
  passwd : Bytes
  gid : UInt32
  members : List Bytes
  deriving DecidableEq, Repr

/-- The members of a comma separated list, a last empty one left out. -/
def memberList (s : Bytes) : List Bytes :=
  let members := s.splitOn comma
  if members.getLast? = some [] then members.dropLast else members

def sgetgrent (s : Bytes) : Option Group :=
  match (s.takeWhile (· != newline)).splitOn colon with
  | [name,passwd,gid,members] =>
    if gid.isEmpty then none
    else (getGid gid).map fun gid => ⟨name,passwd,gid.toUInt32,memberList members⟩
  | _ => none

def isCntrl (b : UInt8) : Bool := b == 127 || (1 ≤ b && b ≤ 31)
def isPrint (b : UInt8) : Bool := 32 ≤ b && b ≤ 126

/-- `-1` for illegal or control characters, `1` for characters outside ASCII, `0` otherwise. -/
def validField (field illegal : Bytes) : Int :=
  if field.any illegal.contains then -1
  else if field.any isCntrl then -1
  else if field.isEmpty then 0
  else if field.all isPrint then 0
  else 1

/-- The text of a group, as its line in the file. -/
def groupLine (gr : Group) : Bytes :=
  [colon].intercalate [gr.name,gr.passwd,numeral gr.gid.toNat,[comma].intercalate gr.members]

/-- The library function that writes a group: where it succeeds on a group that is not a NIS
entry, it writes the line of the group. -/
structure Putgrent where
  run : Group → Option Bytes
  writes : ∀ gr bytes, nameIsNis gr.name = false → run gr = some bytes → bytes = groupLine gr ++ [newline]

def groupPut (putgrent : Putgrent) (gr : Group) : Option Bytes :=
  if validField gr.name [colon,newline] == -1 || validField gr.passwd [colon,newline] == -1 ||
      gr.gid == 0xFFFFFFFF then none
  else if gr.members.any fun member => validField member [comma,colon,newline] == -1 then none
  else putgrent.run gr

def addMember (members : List Bytes) (member : Bytes) : List Bytes :=
  if member ∈ members then members else members ++ [member]

/-- What `group_open_hook` compares and `merge_group_entries` puts together. -/
def groupSplit : SplitEntries Group where
  same g1 g2 := g1.name == g2.name && g1.passwd == g2.passwd && g1.gid == g2.gid
  merge g1 g2 := { g1 with members := g2.members.foldl addMember g1.members }
  symm h := by
    simp only [Bool.and_eq_true,beq_iff_eq] at h ⊢
    exact ⟨⟨h.1.1.symm,h.1.2.symm⟩,h.2.symm⟩
  trans h h' := by
    simp only [Bool.and_eq_true,beq_iff_eq] at h h' ⊢
    exact ⟨⟨h.1.1.trans h'.1.1,h.1.2.trans h'.1.2⟩,h.2.trans h'.2⟩
  merge_same _ _ _ := rfl

def groupOps (maxMembers : Nat) : Ops Group where
  getname := Group.name
  parse := sgetgrent
  openHook := if maxMembers = 0 then none else some groupSplit

/-- By gid, with what did not parse behind the rest. -/
def grCmp (ce1 ce2 : Entry Group) : Int :=
  match ce1.eptr, ce2.eptr with
  | none, _ => 1
  | some _, none => -1
  | some g1, some g2 => if g1.gid < g2.gid then -1 else if g2.gid < g1.gid then 1 else 0

section Lines
variable {gr : Group}

/-- A group whose line says what it is. -/
structure Group.Writable (gr : Group) : Prop where
  name : ∀ b ∈ gr.name, b ≠ colon ∧ b ≠ newline
  passwd : ∀ b ∈ gr.passwd, b ≠ colon ∧ b ≠ newline
  members : ∀ member ∈ gr.members, member ≠ [] ∧ ∀ b ∈ member, b ≠ comma ∧ b ≠ colon ∧ b ≠ newline

theorem Group.Writable.members_ne (h : gr.Writable) {b : UInt8} (hb : b ∈ [comma].intercalate gr.members) :
    b ≠ colon ∧ b ≠ newline := by
  rcases mem_intercalate hb with rfl | ⟨member,hm,hb⟩
  · decide
  · exact ((h.members member hm).2 b hb).2

theorem memberList_intercalate {members : List Bytes} (h : ∀ member ∈ members, member ≠ [] ∧ comma ∉ member) :
    memberList ([comma].intercalate members) = members := by
  by_cases hnil : members = []
  · rw [hnil]
    decide
  · have hsplit : ([comma].intercalate members).splitOn comma = members :=
      List.splitOn_intercalate comma (fun member hm => (h member hm).2) hnil
    have hlast : members.getLast? ≠ some [] := fun he => (h [] (List.mem_of_getLast? he)).1 rfl
    simp only [memberList,hsplit]
    exact if_neg hlast

/-- The line of a group is one line of four fields. -/
theorem groupLine_spec (h : gr.Writable) :
    newline ∉ groupLine gr ∧
      (groupLine gr).splitOn colon = [gr.name,gr.passwd,numeral gr.gid.toNat,[comma].intercalate gr.members] := by
  have hfields : ∀ field ∈ [gr.name,gr.passwd,numeral gr.gid.toNat,[comma].intercalate gr.members],
      ∀ b ∈ field, b ≠ colon ∧ b ≠ newline := by
    simp only [List.forall_mem_cons]
    exact ⟨h.name,h.passwd,fun b hb => numeral_ne_sep hb,fun b hb => h.members_ne hb,by simp⟩
  obtain ⟨hline,hsplit,_⟩ := fieldsLine_spec hfields (List.cons_ne_nil _ _)
  exact ⟨hline,hsplit⟩

/-- A line that was written is read back as the group it was written from. -/
theorem sgetgrent_groupLine (h : gr.Writable) : sgetgrent (groupLine gr) = some gr := by
  obtain ⟨hline,hsplit⟩ := groupLine_spec h
  have htake : (groupLine gr).takeWhile (· != newline) = groupLine gr :=
    List.takeWhile_eq_self_iff.mpr fun b hb => by
      simpa using ne_of_mem_of_not_mem hb hline
  have hgid : getGid (numeral gr.gid.toNat) = some gr.gid.toNat := getGid_numeral gr.gid.toNat_lt
  have hmembers : memberList ([comma].intercalate gr.members) = gr.members :=
    memberList_intercalate fun member hm =>
      ⟨(h.members member hm).1,fun hc => ((h.members member hm).2 comma hc).1 rfl⟩
  have hne : (numeral gr.gid.toNat).isEmpty = false := by simpa using numeral_ne_nil gr.gid.toNat
  simp only [sgetgrent,htake,hsplit,hne,hgid,hmembers,Option.map_some]
  simp

theorem validField_ne {field illegal : Bytes} (h : (validField field illegal == -1) = false) :
    ∀ b ∈ field, b ∉ illegal := by
  intro b hb hi
  have hany : field.any illegal.contains = true := List.any_eq_true.mpr ⟨b,hb,by simpa using hi⟩
  rw [validField,if_pos hany] at h
  cases h

theorem groupPut_bytes {putgrent : Putgrent} {bytes : Bytes} (h : groupPut putgrent gr = some bytes)
    (hnis : nameIsNis gr.name = false) : bytes = groupLine gr ++ [newline] := by
  unfold groupPut at h
  split at h
  · cases h
  · split at h
    · cases h
    · exact putgrent.writes gr bytes hnis h

/-- What is written passed the checks of the writer. -/
theorem groupPut_eq_some {putgrent : Putgrent} {bytes : Bytes} (h : groupPut putgrent gr = some bytes)
    (hnis : nameIsNis gr.name = false) (hmembers : ∀ member ∈ gr.members, member ≠ []) :
    gr.Writable ∧ bytes = groupLine gr ++ [newline] := by
  unfold groupPut at h
  split at h
  · cases h
  · rename_i hfields
    split at h
    · cases h
    · rename_i hmem
      simp only [Bool.or_eq_true,not_or,Bool.not_eq_true] at hfields
      simp only [List.any_eq_true,not_exists,not_and,Bool.not_eq_true] at hmem
      refine ⟨⟨fun b hb => ?_,fun b hb => ?_,fun member hm => ⟨hmembers member hm,fun b hb => ?_⟩⟩,
        putgrent.writes gr bytes hnis h⟩
      · simpa using validField_ne hfields.1.1 b hb
      · simpa using validField_ne hfields.1.2 b hb
      · simpa using validField_ne (hmem member hm) b hb

end Lines

end UserDb.Commonio
