import UserDb.Commonio.Content
import UserDb.Commonio.GroupSession

/-! What a written group is read back as, whatever its members are: empty names in the list may
be lost, and members that stand in it twice may be put together. -/
namespace UserDb.Commonio
open UserDb.Base UserDb.Atoi

/-- A group of texts without null bytes, whose name does not make its line a NIS line. -/
structure Group.Text (gr : Group) : Prop where
  notNis : nameIsNis gr.name = false
  name : (0 : UInt8) ∉ gr.name
  passwd : (0 : UInt8) ∉ gr.passwd
  members : ∀ member ∈ gr.members, (0 : UInt8) ∉ member

/-- A group that passed the checks of the writer. -/
structure Group.Clean (gr : Group) : Prop where
  name : ∀ b ∈ gr.name, b ≠ colon ∧ b ≠ newline
  passwd : ∀ b ∈ gr.passwd, b ≠ colon ∧ b ≠ newline
  members : ∀ member ∈ gr.members, ∀ b ∈ member, b ≠ comma ∧ b ≠ colon ∧ b ≠ newline

/-- The same group with the same users in it. -/
structure SameGroup (gr gr' : Group) : Prop where
  name : gr'.name = gr.name
  passwd : gr'.passwd = gr.passwd
  gid : gr'.gid = gr.gid
  members : ∀ user, user ≠ [] → (user ∈ gr'.members ↔ user ∈ gr.members)

theorem SameGroup.refl (gr : Group) : SameGroup gr gr := ⟨rfl,rfl,rfl,fun _ _ => Iff.rfl⟩

section Members
variable {members : List Bytes} {user : Bytes}

/-- A list of users, written and read: only an empty name at its end is lost. -/
theorem mem_memberList (h : ∀ member ∈ members, comma ∉ member) (huser : user ≠ []) :
    user ∈ memberList ([comma].intercalate members) ↔ user ∈ members := by
  by_cases hnil : members = []
  · subst hnil
    have hempty : memberList ([comma].intercalate []) = [] := by decide
    rw [hempty]
  · rw [memberList,List.splitOn_intercalate comma h hnil]
    split
    · rename_i hlast
      obtain ⟨init,rfl⟩ := List.getLast?_eq_some_iff.mp hlast
      simp [huser]
    · rfl

/-- Nobody is read from a list who was not written to it. -/
theorem mem_of_mem_memberList (h : ∀ member ∈ members, comma ∉ member) (huser : user ∈ memberList ([comma].intercalate members)) :
    user ∈ members := by
  by_cases hnil : members = []
  · subst hnil
    have hempty : memberList ([comma].intercalate []) = [] := by decide
    rwa [hempty] at huser
  · rw [memberList,List.splitOn_intercalate comma h hnil] at huser
    split at huser
    · exact List.mem_of_mem_dropLast huser
    · exact huser

theorem mem_splitOn_of_mem_memberList {s : Bytes} (h : user ∈ memberList s) : user ∈ s.splitOn comma := by
  unfold memberList at h
  extract_lets members at h
  split at h
  · exact List.mem_of_mem_dropLast h
  · exact h

theorem mem_foldl_addMember {chunk : List Bytes} : user ∈ chunk.foldl addMember members ↔ user ∈ members ∨ user ∈ chunk := by
  induction chunk generalizing members with
  | nil => simp
  | cons member chunk ih =>
    rw [List.foldl_cons,ih,addMember]
    split
    · rename_i hm
      constructor
      · rintro (h | h)
        · exact .inl h
        · exact .inr (List.mem_cons_of_mem member h)
      · rintro (h | h)
        · exact .inl h
        · rcases List.mem_cons.mp h with rfl | h
          · exact .inl hm
          · exact .inr h
    · simp only [List.mem_append,List.mem_cons]
      tauto

end Members

section Lines
variable {maxMembers : Nat} {gr : Group}

/-- What the line of a group is read as. -/
def Group.reread (gr : Group) : Group := { gr with members := memberList ([comma].intercalate gr.members) }

theorem groupLine_clean (h : gr.Clean) : newline ∉ groupLine gr ∧ sgetgrent (groupLine gr) = some gr.reread := by
  have hmembers : ∀ b ∈ [comma].intercalate gr.members, b ≠ colon ∧ b ≠ newline := fun b hb => by
    rcases mem_intercalate hb with rfl | ⟨member,hm,hb⟩
    · decide
    · exact (h.members member hm b hb).2
  have hfields : ∀ field ∈ [gr.name,gr.passwd,numeral gr.gid.toNat,[comma].intercalate gr.members],
      ∀ b ∈ field, b ≠ colon ∧ b ≠ newline := by
    simp only [List.forall_mem_cons]
    exact ⟨h.name,h.passwd,fun _ => numeral_ne_sep,hmembers,nofun⟩
  obtain ⟨hline,hsplit,htake⟩ := fieldsLine_spec hfields (List.cons_ne_nil _ _)
  have hgid : getGid (numeral gr.gid.toNat) = some gr.gid.toNat := getGid_numeral gr.gid.toNat_lt
  have hne : (numeral gr.gid.toNat).isEmpty = false := by simpa using numeral_ne_nil gr.gid.toNat
  refine ⟨hline,?_⟩
  simp only [sgetgrent,groupLine,htake,hsplit,hne,hgid,Option.map_some]
  simp [Group.reread]

theorem reread_same (h : gr.Clean) : SameGroup gr gr.reread :=
  ⟨rfl,rfl,rfl,fun _ huser => mem_memberList (fun member hm hc => (h.members member hm comma hc).1 rfl) huser⟩

theorem Group.Text.zero_notMem (h : gr.Text) : (0 : UInt8) ∉ groupLine gr := by
  intro hz
  rcases mem_intercalate hz with hc | ⟨field,hf,hz⟩
  · exact absurd hc (by decide)
  · simp only [List.mem_cons,List.not_mem_nil,or_false] at hf
    rcases hf with rfl | rfl | rfl | rfl
    · exact h.name hz
    · exact h.passwd hz
    · exact absurd (isDigit_iff.mp (numeral_digits hz)).1 (by decide)
    · rcases mem_intercalate hz with hc | ⟨member,hm,hz⟩
      · exact absurd hc (by decide)
      · exact h.members member hm hz

/-- A part is the group with some of its members. -/
theorem splitGroup_part {part : Group} (hpart : part ∈ splitGroup maxMembers gr) :
    ∃ chunk, part = { gr with members := chunk } ∧ ∀ member ∈ chunk, member ∈ gr.members := by
  obtain ⟨chunks,hchunks,hflat⟩ := splitGroup_parts maxMembers gr
  rw [hchunks] at hpart
  obtain ⟨chunk,hchunk,rfl⟩ := List.mem_map.mp hpart
  refine ⟨chunk,rfl,fun member hm => ?_⟩
  rw [← hflat]
  exact List.mem_flatten.mpr ⟨chunk,hchunk,hm⟩

theorem Group.Text.withMembers (h : gr.Text) {members : List Bytes} (hmem : ∀ user ∈ members, (0 : UInt8) ∉ user) :
    Group.Text { gr with members := members } := ⟨h.notNis,h.name,h.passwd,hmem⟩

theorem Group.Text.part (h : gr.Text) {part : Group} (hpart : part ∈ splitGroup maxMembers gr) : part.Text := by
  obtain ⟨chunk,rfl,hchunk⟩ := splitGroup_part hpart
  exact ⟨h.notNis,h.name,h.passwd,fun member hm => h.members member (hchunk member hm)⟩

/-- A group that was read is one of text. -/
theorem IsRead.groupText {r : Record Group} (h : IsRead (groupOps maxMembers) r) (hgr : r.eptr = some gr) : gr.Text := by
  refine h.entry (fun line gr hline hnis hparse => ?_) (fun split hook g₁ g₂ h₁ h₂ => ?_) hgr
  · have hparse : sgetgrent line = some gr := hparse
    unfold sgetgrent at hparse
    rw [takeWhile_line hline] at hparse
    split at hparse
    · rename_i name passwd gid members hsplit
      have hzero : ∀ field ∈ line.splitOn colon, (0 : UInt8) ∉ field := fun field hf hz =>
        hline.2 (mem_of_mem_splitOn hf hz)
      rw [hsplit] at hzero
      simp only [List.forall_mem_cons] at hzero
      obtain ⟨hname,hpasswd,_,hmembers,_⟩ := hzero
      split at hparse
      · cases hparse
      · obtain ⟨n,_,rfl⟩ := Option.map_eq_some_iff.mp hparse
        refine ⟨firstField_notNis hnis hsplit,hname,hpasswd,fun member hm hz => ?_⟩
        exact hmembers (mem_of_mem_splitOn (mem_splitOn_of_mem_memberList hm) hz)
    · cases hparse
  · obtain rfl : split = groupSplit := by
      unfold groupOps at hook
      simp only at hook
      split at hook
      · cases hook
      · exact (Option.some.inj hook).symm
    refine ⟨h₁.notNis,h₁.name,h₁.passwd,fun member hm => ?_⟩
    rcases mem_foldl_addMember.mp hm with hm | hm
    · exact h₁.members member hm
    · exact h₂.members member hm

/-- What the writer takes passed its checks. -/
theorem groupPut_clean {putgrent : Putgrent} {bytes : Bytes} (h : groupPut putgrent gr = some bytes)
    (hnis : nameIsNis gr.name = false) : gr.Clean ∧ bytes = groupLine gr ++ [newline] := by
  unfold groupPut at h
  split at h
  · cases h
  · rename_i hfields
    split at h
    · cases h
    · rename_i hmem
      simp only [Bool.or_eq_true,not_or,Bool.not_eq_true] at hfields
      simp only [List.any_eq_true,not_exists,not_and,Bool.not_eq_true] at hmem
      refine ⟨⟨fun b hb => ?_,fun b hb => ?_,fun member hm b hb => ?_⟩,putgrent.writes gr bytes hnis h⟩
      · simpa using validField_ne hfields.1.1 b hb
      · simpa using validField_ne hfields.1.2 b hb
      · simpa using validField_ne (hmem member hm) b hb

/-- Parts that were read are put together to a group of all their members. -/
theorem foldl_absorb_reread (gr : Group) (chunks : List (List Bytes)) {r : Record Group} {members : List Bytes}
    (hr : r.eptr = some { gr with members := members }) :
    ∃ members', ((chunks.map fun chunk => (⟨some (groupLine { gr with members := chunk }),
      some (Group.reread { gr with members := chunk }),false⟩ : Record Group)).foldl (absorbRecord groupSplit) r).eptr =
        some { gr with members := members' } ∧
      ∀ user, user ∈ members' ↔ user ∈ members ∨ ∃ chunk ∈ chunks, user ∈ memberList ([comma].intercalate chunk) := by
  induction chunks generalizing r members with
  | nil => exact ⟨members,hr,fun user => by simp⟩
  | cons chunk chunks ih =>
    have hsame : groupSplit.same { gr with members := members } (Group.reread { gr with members := chunk }) = true := by
      simp [groupSplit,Group.reread]
    rw [List.map_cons,List.foldl_cons,absorbRecord_of_same hr rfl hsame]
    obtain ⟨members',heptr,hmem⟩ := ih (r := ⟨some (r.line.getD [] ++ [newline] ++ groupLine { gr with members := chunk }),
      some { gr with members := (memberList ([comma].intercalate chunk)).foldl addMember members },r.changed⟩) rfl
    refine ⟨members',heptr,fun user => ?_⟩
    rw [hmem,mem_foldl_addMember,List.exists_mem_cons_iff]
    tauto

/-- A group is read back from its lines with the users that it had. -/
theorem groupLines_rereadAs (h : gr.Text) (hclean : ∀ part ∈ splitGroup maxMembers gr, part.Clean) :
    RereadsAs (groupOps maxMembers) SameGroup (groupLines maxMembers) gr := by
  obtain ⟨chunks,hchunks,hflat⟩ := splitGroup_parts maxMembers gr
  have hrecord : ∀ part ∈ splitGroup maxMembers gr, lineRecord (groupOps maxMembers) (groupLine part) =
      ⟨some (groupLine part),some part.reread,false⟩ := fun part hpart => by
    have hparse : (groupOps maxMembers).parse (groupLine part) = some part.reread := (groupLine_clean (hclean part hpart)).2
    rw [lineRecord,lineEntry,groupLine_notNis (h.part hpart).notNis,if_neg Bool.false_ne_true,hparse]
    rfl
  have hmap : (groupLines maxMembers gr).map (lineRecord (groupOps maxMembers)) =
      chunks.map fun chunk => ⟨some (groupLine { gr with members := chunk }),
        some (Group.reread { gr with members := chunk }),false⟩ := by
    rw [groupLines,List.map_map]
    refine (List.map_congr_left fun part hpart => hrecord part hpart).trans ?_
    rw [hchunks,List.map_map]
    rfl
  refine ⟨fun line hline => ?_,?_⟩
  · obtain ⟨part,hpart,rfl⟩ := List.mem_map.mp hline
    obtain ⟨chunk,rfl,_⟩ := splitGroup_part hpart
    rw [lineName,hrecord _ hpart]
    rfl
  · have hcomma : ∀ chunk ∈ chunks, ∀ member ∈ chunk, comma ∉ member := fun chunk hchunk member hm hc => by
      have hpart : ({ gr with members := chunk } : Group) ∈ splitGroup maxMembers gr := by
        rw [hchunks]
        exact List.mem_map_of_mem hchunk
      exact ((hclean _ hpart).members member hm comma hc).1 rfl
    have hmembers : ∀ user, user ≠ [] →
        ((∃ chunk ∈ chunks, user ∈ memberList ([comma].intercalate chunk)) ↔ user ∈ gr.members) := fun user huser => by
      rw [← hflat,List.mem_flatten]
      exact exists_congr fun chunk => and_congr_right fun hchunk => mem_memberList (hcomma chunk hchunk) huser
    cases chunks with
    | nil => exact absurd hchunks (splitGroup_ne_nil maxMembers gr)
    | cons first rest =>
      rcases Nat.eq_zero_or_pos maxMembers with rfl | hpos
      · obtain rfl : rest = [] := by
          have hlen := congrArg List.length hchunks
          rw [splitGroup,if_neg (by omega)] at hlen
          simpa using hlen.symm
        refine ⟨_,Group.reread { gr with members := first },by rw [hmap]; rfl,rfl,rfl,rfl,rfl,fun user huser => ?_⟩
        simpa [Group.reread] using hmembers user huser
      · have hook : (groupOps maxMembers).openHook = some groupSplit := by
          rw [groupOps]
          exact if_neg (by omega)
        obtain ⟨members',heptr,hmem⟩ := @foldl_absorb_reread gr rest
          ⟨some (groupLine { gr with members := first }),some (Group.reread { gr with members := first }),false⟩ _ rfl
        rw [hmap,Ops.merged,hook,List.map_cons]
        simp only
        rw [mergeRecords,List.filter_eq_nil_iff.mpr,mergeRecords]
        · refine ⟨_,_,rfl,heptr,rfl,rfl,rfl,fun user huser => ?_⟩
          rw [← hmembers user huser,List.exists_mem_cons_iff]
          exact hmem user
        · intro r hr
          obtain ⟨chunk,_,rfl⟩ := List.mem_map.mp hr
          simp [samePart,groupSplit,Group.reread]

end Lines

section Closing
variable {maxMembers : Nat} {memory : Bool}

/-- Closing the group file writes the lines of the parts of the groups. -/
theorem groupCloseOps_writesLines (maxMembers : Nat) (putgrent : Putgrent) (memory : Bool) :
    WritesLines (groupCloseOps maxMembers putgrent memory) Group.Text
      (RereadsAs (groupOps maxMembers) SameGroup (groupLines maxMembers)) (groupLines maxMembers) := by
  intro db rs write db₁ bytes hdb htext hhook hall
  obtain ⟨hbytes,hput⟩ := groupClose_parts hdb (fun r hr hch gr hgr => (htext r hr hch gr hgr).notNis) hhook hall
  refine ⟨hbytes,fun r hr hch gr hgr => ?_⟩
  have hclean : ∀ part ∈ splitGroup maxMembers gr, part.Text ∧ part.Clean := fun part hpart => by
    obtain ⟨bs,hbs⟩ := hput r hr hch gr hgr part hpart
    have hpt := (htext r hr hch gr hgr).part hpart
    exact ⟨hpt,(groupPut_clean hbs hpt.notNis).1⟩
  refine ⟨groupLines_rereadAs (htext r hr hch gr hgr) fun part hpart => (hclean part hpart).2,fun line hline => ?_⟩
  obtain ⟨part,hpart,rfl⟩ := List.mem_map.mp hline
  obtain ⟨hpt,hpc⟩ := hclean part hpart
  exact ⟨(groupLine_clean hpc).1,hpt.zero_notMem⟩

end Closing

end UserDb.Commonio
