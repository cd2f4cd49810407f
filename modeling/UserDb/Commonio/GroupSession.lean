import UserDb.Commonio.GroupSplit
import UserDb.Commonio.Runs
import UserDb.Commonio.Session

/-! Sessions on the group file: what is updated, removed or left alone is found again so when
the written file is opened the next time. -/
namespace UserDb.Commonio
open UserDb.Base UserDb.Base.LinkedList

/-- A group that a caller may store: no NIS name, no text with a null byte, distinct members. -/
structure Group.Storable (gr : Group) : Prop where
  notNis : nameIsNis gr.name = false
  memberNames : ∀ member ∈ gr.members, member ≠ []
  distinct : gr.members.Nodup
  name : (0 : UInt8) ∉ gr.name
  passwd : (0 : UInt8) ∉ gr.passwd
  members : ∀ member ∈ gr.members, (0 : UInt8) ∉ member

/-- The lines in which a stored group is written. -/
def groupLines (maxMembers : Nat) (gr : Group) : List Bytes := (splitGroup maxMembers gr).map groupLine

section Parts
variable {maxMembers : Nat} {gr : Group}

theorem groupOps_namesParts (maxMembers : Nat) : (groupOps maxMembers).NamesParts := by
  have hsplit : ∀ split, (groupOps maxMembers).openHook = some split → split = groupSplit := by
    intro split h
    unfold groupOps at h
    simp only at h
    split at h
    · cases h
    · exact (Option.some.inj h).symm
  refine ⟨fun split h a b hs => ?_,fun split h a b => ?_⟩
  · rw [hsplit split h] at hs
    simp only [groupSplit,Bool.and_eq_true,beq_iff_eq] at hs
    exact hs.1.1
  · rw [hsplit split h]
    rfl

/-- The parts of a group are the group with stretches of its members. -/
theorem splitGroup_parts (maxMembers : Nat) (gr : Group) :
    ∃ chunks : List (List Bytes), splitGroup maxMembers gr = chunks.map (fun chunk => { gr with members := chunk }) ∧
      chunks.flatten = gr.members := by
  induction hn : gr.members.length using Nat.strong_induction_on generalizing gr with
  | _ n ih =>
    rw [splitGroup]
    split
    · rename_i h
      have hlt : (gr.members.drop maxMembers).length < n := by
        rw [List.length_drop]
        omega
      obtain ⟨chunks,hchunks,hflat⟩ := ih _ hlt { gr with members := gr.members.drop maxMembers } rfl
      refine ⟨gr.members.take maxMembers :: chunks,?_,?_⟩
      · rw [hchunks]
        rfl
      · rw [List.flatten_cons,hflat,List.take_append_drop]
    · exact ⟨[gr.members],rfl,by simp⟩

theorem foldl_addMember {members chunk : List Bytes} (h : (members ++ chunk).Nodup) :
    chunk.foldl addMember members = members ++ chunk := by
  induction chunk generalizing members with
  | nil => simp
  | cons member chunk ih =>
    have hm : member ∉ members := fun hm => List.disjoint_of_nodup_append h hm List.mem_cons_self
    rw [List.foldl_cons,addMember,if_neg hm,ih (by simpa using h)]
    simp

theorem groupLine_notNis (h : nameIsNis gr.name = false) : nameIsNis (groupLine gr) = false := by
  have hline : ∃ rest, groupLine gr = gr.name ++ colon :: rest := by
    refine ⟨[colon].intercalate [gr.passwd,numeral gr.gid.toNat,[comma].intercalate gr.members],?_⟩
    rw [groupLine,List.intercalate_cons_cons,List.append_assoc]
    rfl
  obtain ⟨rest,hline⟩ := hline
  rw [hline]
  cases hname : gr.name with
  | nil => rfl
  | cons b name =>
    rw [hname] at h
    exact h

/-- The line of a part is read as that part. -/
theorem lineRecord_groupLine (h : gr.Writable) (hnis : nameIsNis gr.name = false) :
    lineRecord (groupOps maxMembers) (groupLine gr) = ⟨some (groupLine gr),some gr,false⟩ := by
  have hparse : (groupOps maxMembers).parse (groupLine gr) = some gr := sgetgrent_groupLine h
  rw [lineRecord,lineEntry,groupLine_notNis hnis,if_neg Bool.false_ne_true,hparse]
  rfl

/-- Parts with distinct members are put together to the members in order. -/
theorem foldl_absorb_parts {r : Record Group} {chunks : List (List Bytes)} {members : List Bytes}
    (hr : r.eptr = some { gr with members := members }) (hn : (members ++ chunks.flatten).Nodup) :
    ((chunks.map fun chunk => (⟨some (groupLine { gr with members := chunk }),some { gr with members := chunk },
      false⟩ : Record Group)).foldl (absorbRecord groupSplit) r).eptr =
      some { gr with members := members ++ chunks.flatten } := by
  induction chunks generalizing r members with
  | nil => simpa using hr
  | cons chunk chunks ih =>
    rw [List.flatten_cons,← List.append_assoc] at hn
    have hsame : groupSplit.same { gr with members := members } { gr with members := chunk } = true := by
      simp [groupSplit]
    rw [List.map_cons,List.foldl_cons,absorbRecord_of_same hr rfl hsame,List.flatten_cons,← List.append_assoc]
    refine ih ?_ hn
    simp only [groupSplit,foldl_addMember (List.nodup_append.mp hn).1]

/-- A stored group is read back from its lines, whole. -/
theorem groupLines_reread (h : gr.Storable) (hw : ∀ part ∈ splitGroup maxMembers gr, part.Writable) :
    Rereads (groupOps maxMembers) (groupLines maxMembers) gr := by
  obtain ⟨chunks,hchunks,hflat⟩ := splitGroup_parts maxMembers gr
  have hrecord : ∀ part ∈ splitGroup maxMembers gr, lineRecord (groupOps maxMembers) (groupLine part) =
      ⟨some (groupLine part),some part,false⟩ ∧ part.name = gr.name := fun part hpart => by
    have hname : part.name = gr.name := by
      rw [hchunks] at hpart
      obtain ⟨chunk,_,rfl⟩ := List.mem_map.mp hpart
      rfl
    exact ⟨lineRecord_groupLine (hw part hpart) (by rw [hname]; exact h.notNis),hname⟩
  refine ⟨fun line hline => ?_,?_⟩
  · obtain ⟨part,hpart,rfl⟩ := List.mem_map.mp hline
    obtain ⟨hrec,hname⟩ := hrecord part hpart
    rw [lineName,hrec]
    exact congrArg some hname
  · have hmap : (groupLines maxMembers gr).map (lineRecord (groupOps maxMembers)) =
        chunks.map fun chunk => ⟨some (groupLine { gr with members := chunk }),some { gr with members := chunk },
          false⟩ := by
      rw [groupLines,List.map_map]
      refine (List.map_congr_left fun part hpart => (hrecord part hpart).1).trans ?_
      rw [hchunks,List.map_map]
      rfl
    cases chunks with
    | nil => exact absurd hchunks (splitGroup_ne_nil maxMembers gr)
    | cons first rest =>
      rcases Nat.eq_zero_or_pos maxMembers with rfl | hpos
      · have hone : rest = [] := by
          have hlen := congrArg List.length hchunks
          rw [splitGroup,if_neg (by omega)] at hlen
          simpa using hlen.symm
        subst hone
        refine ⟨_,by rw [hmap]; rfl,?_⟩
        have hfirst : first = gr.members := by simpa using hflat
        simp only [hfirst]
      · have hook : (groupOps maxMembers).openHook = some groupSplit := by
          rw [groupOps]
          exact if_neg (by omega)
        rw [hmap,Ops.merged,hook,List.map_cons]
        simp only
        rw [mergeRecords,List.filter_eq_nil_iff.mpr,mergeRecords]
        · refine ⟨_,rfl,?_⟩
          have hnodup : (first ++ rest.flatten).Nodup := by
            rw [← List.flatten_cons,hflat]
            exact h.distinct
          rw [foldl_absorb_parts rfl hnodup,← List.flatten_cons,hflat]
        · intro r hr
          obtain ⟨chunk,_,rfl⟩ := List.mem_map.mp hr
          simp [samePart,groupSplit]

end Parts

section Closing
variable {maxMembers : Nat} {memory : Bool} {db db₁ : Db Group} {rs : List (Record Group)} {gr : Group}

/-- The records that the close hook leaves. -/
theorem groupCloseHook_records (h : db.Holds rs) (hhook : groupCloseHook maxMembers db memory = some db₁) :
    (db₁.from db₁.head).map db₁.record = rs.flatMap (splitRecord maxMembers) := by
  obtain ⟨l,stale,hrep,rfl⟩ := h
  unfold groupCloseHook at hhook
  split at hhook
  · rename_i hzero
    cases hhook
    have hsmall : ∀ r ∈ l.map db.record, splitRecord maxMembers r = [r] := fun r _ => by
      obtain ⟨line,eptr,changed⟩ := r
      cases changed with
      | false => rfl
      | true =>
        cases eptr with
        | none => rfl
        | some gr =>
          have hone : splitGroup maxMembers gr = [gr] := by rw [splitGroup,if_neg (by omega)]
          simp [splitRecord,hone]
    rw [List.flatMap_congr hsmall,hrep.from_head]
    simp
  · rename_i hpos
    split at hhook
    · cases hhook
      have hcost : (l.map fun p => splitCost (db.record p)).sum ≤ db.splitSteps := by
        rw [Db.splitSteps,hrep.from_head]
        exact le_of_eq rfl
      have hlinked : Forward db.nextOf ([] ++ l) := hrep.linked.forward
      obtain ⟨l',hc,hn,hb,hmap,_,hhead,hfirst⟩ :=
        splitGroups_spec (Nat.pos_of_ne_zero hpos) hlinked hrep.nodup hrep.bound hcost
      rw [← hrep.head] at hc hb hmap hhead hfirst
      have hreach : reach (db.splitGroups maxMembers db.splitSteps db.head).nextOf
          (db.splitGroups maxMembers db.splitSteps db.head).fresh l'.head? = l' :=
        reach_forward hc (length_le_of_nodup_lt hn hb)
      rw [hfirst] at hreach
      rw [Db.from,hhead,hreach,hmap]
    · cases hhook

/-- The entries that stand for a changed record are the parts of its group. -/
theorem splitRecord_changed {r : Record Group} {gr : Group} (hch : r.changed = true) (hr : r.eptr = some gr) :
    (splitRecord maxMembers r).map (fun r => (r.eptr,r.changed)) =
      (splitGroup maxMembers gr).map fun part => (some part,true) := by
  obtain ⟨first,rest,hrest⟩ := List.exists_cons_of_ne_nil (splitGroup_ne_nil maxMembers gr)
  simp only [splitRecord,hch,hr,hrest,List.map_cons,List.map_map]
  rfl

theorem splitRecord_unchanged {r : Record Group} (h : r.changed = false ∨ r.eptr = none) :
    splitRecord maxMembers r = [r] := by
  obtain ⟨line,eptr,changed⟩ := r
  rcases h with h | h <;> cases h
  · rfl
  · cases changed <;> rfl

theorem mem_splitRecord {r q : Record Group} {part : Group} (hq : q ∈ splitRecord maxMembers r)
    (hch : q.changed = true) (hpart : q.eptr = some part) :
    r.changed = true ∧ ∃ gr, r.eptr = some gr ∧ part ∈ splitGroup maxMembers gr := by
  by_cases hr : r.changed = false ∨ r.eptr = none
  · rw [splitRecord_unchanged hr,List.mem_singleton] at hq
    subst hq
    rw [hch,hpart] at hr
    rcases hr with hr | hr <;> cases hr
  · obtain ⟨hrch,hgr⟩ := not_or.mp hr
    obtain ⟨gr,hgr⟩ := Option.ne_none_iff_exists'.mp hgr
    have hrch : r.changed = true := by simpa using hrch
    have hm : (q.eptr,q.changed) ∈ (splitRecord maxMembers r).map fun r => (r.eptr,r.changed) :=
      List.mem_map_of_mem hq
    rw [splitRecord_changed hrch hgr,hpart,hch] at hm
    obtain ⟨part',hp,he⟩ := List.mem_map.mp hm
    cases he
    exact ⟨hrch,gr,hgr,hp⟩

/-- Every part of a changed group stands in an entry that the hook leaves. -/
theorem exists_splitRecord {r : Record Group} {gr part : Group} (hch : r.changed = true) (hr : r.eptr = some gr)
    (hpart : part ∈ splitGroup maxMembers gr) :
    ∃ q ∈ splitRecord maxMembers r, q.changed = true ∧ q.eptr = some part := by
  have hm : (some part,true) ∈ (splitRecord maxMembers r).map fun r => (r.eptr,r.changed) := by
    rw [splitRecord_changed hch hr]
    exact List.mem_map_of_mem hpart
  obtain ⟨q,hq,he⟩ := List.mem_map.mp hm
  exact ⟨q,hq,congrArg Prod.snd he,congrArg Prod.fst he⟩

/-- The parts are written where the group would be. -/
theorem writtenLines_splitRecord (r : Record Group) :
    (splitRecord maxMembers r).flatMap (writtenLines fun gr => [groupLine gr]) =
      writtenLines (groupLines maxMembers) r := by
  obtain ⟨line,eptr,changed⟩ := r
  cases changed with
  | false => simp [splitRecord,writtenLines]
  | true =>
    cases eptr with
    | none => simp [splitRecord,writtenLines]
    | some gr =>
      obtain ⟨first,rest,hrest⟩ := List.exists_cons_of_ne_nil (splitGroup_ne_nil maxMembers gr)
      simp only [splitRecord,groupLines,writtenLines,hrest,List.flatMap_cons,List.flatMap_map,List.map_cons,
        Option.elim_some,if_true,List.singleton_append]
      rw [List.map_eq_flatMap]

theorem Group.Storable.part (h : gr.Storable) {part : Group} (hpart : part ∈ splitGroup maxMembers gr) :
    part.Storable := by
  obtain ⟨chunks,hchunks,hflat⟩ := splitGroup_parts maxMembers gr
  rw [hchunks] at hpart
  obtain ⟨chunk,hchunk,rfl⟩ := List.mem_map.mp hpart
  have hsub : chunk.Sublist gr.members := hflat ▸ List.sublist_flatten_of_mem hchunk
  exact ⟨h.notNis,fun m hm => h.memberNames m (hsub.subset hm),h.distinct.sublist hsub,h.name,h.passwd,
    fun m hm => h.members m (hsub.subset hm)⟩

theorem Group.Storable.zero_notMem (h : gr.Storable) : (0 : UInt8) ∉ groupLine gr := by
  intro hz
  rcases mem_intercalate hz with hc | ⟨field,hf,hz⟩
  · exact absurd hc (by decide)
  · simp only [List.mem_cons,List.not_mem_nil,or_false] at hf
    rcases hf with rfl | rfl | rfl | rfl
    · exact h.name hz
    · exact h.passwd hz
    · exact absurd (isDigit_iff.mp (numeral_digits hz)).1 (by decide)
    · rcases mem_intercalate hz with hc | ⟨member,hm,hz⟩
      · exact absurd hc (by decide)
      · exact h.members member hm hz

/-- Closing writes the lines of the parts of the groups, each of which the writer takes. -/
theorem groupClose_parts {putgrent : Putgrent} {write : Nat → Bool} {bytes : Bytes} (hdb : db.Holds rs)
    (hnis : ∀ r ∈ rs, r.changed = true → ∀ gr ∈ r.eptr, nameIsNis gr.name = false)
    (hhook : (groupCloseOps maxMembers putgrent memory).closeHook db = some db₁)
    (hall : writeAll (groupCloseOps maxMembers putgrent memory) write db₁ = some bytes) :
    bytes = fileText (rs.flatMap (writtenLines (groupLines maxMembers))) ∧
      ∀ r ∈ rs, r.changed = true → ∀ gr ∈ r.eptr, ∀ part ∈ splitGroup maxMembers gr,
        ∃ bs, groupPut putgrent part = some bs := by
  have hrecords := groupCloseHook_records hdb hhook
  have hparts : ∀ q ∈ rs.flatMap (splitRecord maxMembers), q.changed = true → ∀ part ∈ q.eptr, nameIsNis part.name = false :=
    fun q hq hch part hpart => by
      obtain ⟨r,hr,hq⟩ := List.mem_flatMap.mp hq
      obtain ⟨hrch,gr,hgr,hmem⟩ := mem_splitRecord hq hch hpart
      obtain ⟨chunks,hchunks,_⟩ := splitGroup_parts maxMembers gr
      rw [hchunks] at hmem
      obtain ⟨chunk,_,rfl⟩ := List.mem_map.mp hmem
      exact hnis r hr hrch gr hgr
  have hentries : ∀ p ∈ db₁.from db₁.head, db₁.record p ∈ rs.flatMap (splitRecord maxMembers) := fun p hp => by
    rw [← hrecords]
    exact List.mem_map_of_mem hp
  have hput : ∀ p ∈ db₁.from db₁.head, (db₁.record p).changed = true → ∀ part ∈ (db₁.record p).eptr, ∀ bs,
      (groupCloseOps maxMembers putgrent memory).put part = some bs → bs = groupLine part ++ [newline] :=
    fun p hp hch part hpart bs hbs => groupPut_bytes hbs (hparts _ (hentries p hp) hch part hpart)
  obtain ⟨hbytes,hwritten⟩ := writeAll_lines hput rfl hall
  have hlines : ((db₁.from db₁.head).map db₁.record).flatMap (writtenLines fun gr => [groupLine gr]) =
      rs.flatMap (writtenLines (groupLines maxMembers)) := by
    rw [hrecords,List.flatMap_assoc]
    exact List.flatMap_congr fun r _ => writtenLines_splitRecord r
  refine ⟨by rw [hbytes,hlines],fun r hr hch gr hgr part hpart => ?_⟩
  obtain ⟨q,hq,hqch,hqpart⟩ := exists_splitRecord hch hgr hpart
  have hq := List.mem_flatMap.mpr ⟨r,hr,hq⟩
  rw [← hrecords] at hq
  obtain ⟨p,hp,rfl⟩ := List.mem_map.mp hq
  obtain ⟨part',hpart',hsome⟩ := hwritten p hp hqch
  cases hpart'.symm.trans hqpart
  exact Option.isSome_iff_exists.mp hsome

/-- What closing writes for stored groups is read back. -/
theorem groupCloseOps_writesBack (maxMembers : Nat) (putgrent : Putgrent) (memory : Bool) :
    WritesBack (groupOps maxMembers) (groupCloseOps maxMembers putgrent memory) Group.Storable
      (groupLines maxMembers) := by
  intro db rs write db₁ bytes hdb hstorable hhook hall
  obtain ⟨hbytes,hput⟩ := groupClose_parts hdb (fun r hr hch gr hgr => (hstorable r hr hch gr hgr).notNis) hhook hall
  refine ⟨hbytes,fun r hr hch gr hgr => ?_⟩
  have hparts : ∀ part ∈ splitGroup maxMembers gr, part.Writable ∧ part.Storable := fun part hpart => by
    obtain ⟨bs,hbs⟩ := hput r hr hch gr hgr part hpart
    have hs := (hstorable r hr hch gr hgr).part hpart
    exact ⟨(groupPut_eq_some hbs hs.notNis hs.memberNames).1,hs⟩
  refine ⟨groupLines_reread (hstorable r hr hch gr hgr) fun part hpart => (hparts part hpart).1,fun line hline => ?_⟩
  obtain ⟨part,hpart,rfl⟩ := List.mem_map.mp hline
  obtain ⟨hw,hs⟩ := hparts part hpart
  exact ⟨(groupLine_spec hw).1,hs.zero_notMem⟩

end Closing

/-- A session of linked edits loses nothing: reopening the written file finds the groups that
were stored last and none that was removed, and every other line is there as often as before. -/
theorem edit_session_keeps_groups (maxMembers : Nat) (putgrent : Putgrent) (hookMemory selinux : Bool) (steps : CloseSteps)
    (disk : Disk) (access : AccessMode) (create memory : Bool) (edits : List (Edit Group)) (db₀ db₁ db₂ : Db Group)
    (hopen : commonioOpen (groupOps maxMembers) db₀ access create (fileState disk.file) memory = (true,db₁))
    (hedits : runEdits (groupOps maxMembers) db₁ edits = some db₂)
    (hstorable : ∀ gr, Edit.update gr ∈ edits → gr.Storable)
    (hlinked : EditsAreLinked (groupOps maxMembers) db₁ edits)
    (hclose : (commonioClose selinux (groupCloseOps maxMembers putgrent hookMemory) steps db₂ disk.file disk).1 = true) :
    let file := (commonioClose selinux (groupCloseOps maxMembers putgrent hookMemory) steps db₂ disk.file disk).2.2.file
    ∃ lines lines', diskLines disk.file = some lines ∧ diskLines file = some lines' ∧
      (lines'.filter (untouched (groupOps maxMembers) edits)).Perm (lines.filter (untouched (groupOps maxMembers) edits)) ∧
      ∀ (db : Db Group) (access : AccessMode) (create : Bool), refusesOpen db access = false →
        (file = none → create = true) →
        ∃ db', commonioOpen (groupOps maxMembers) db access create (fileState file) true = (true,db') ∧
          db'.Finds (groupOps maxMembers) edits :=
  session_rereads (groupOps_namesParts maxMembers) (groupCloseOps_writesBack maxMembers putgrent hookMemory)
    hopen hedits hstorable hlinked hclose

/-- The library function for groups that are no NIS entries. -/
def plainPutgrent : Putgrent where
  run gr := some (groupLine gr ++ [newline])
  writes _ _ _ h := (Option.some.inj h).symm

/-- A file with a group that is read from its last line too. -/
def splitDisk : Disk := ⟨some splitFile,none⟩

def openedGroups : Db Group :=
  (commonioOpen (groupOps 1) (Db.initial emptyMemory 0 true) .rdwr false (fileState splitDisk.file) true).2

def movedGroup : Group := ⟨ascii "b",ascii "x",9,[ascii "w"]⟩

def newGroup : Group := ⟨ascii "c",ascii "x",7,[]⟩

def movedGroups : Db Group := (openedGroups.edit (groupOps 1) (.update movedGroup)).2

def extendedGroups : Db Group := (openedGroups.edit (groupOps 1) (.update newGroup)).2

theorem edit_session_keeps_groups_moved :
    ∃ lines lines', diskLines splitDisk.file = some lines ∧
      diskLines (commonioClose false (groupCloseOps 1 plainPutgrent true) allSteps movedGroups splitDisk.file
        splitDisk).2.2.file = some lines' ∧
      (lines'.filter (untouched (groupOps 1) [.update movedGroup])).Perm
        (lines.filter (untouched (groupOps 1) [.update movedGroup])) := by
  obtain ⟨lines,lines',hlines,hlines',hkept,_⟩ := edit_session_keeps_groups 1 plainPutgrent true false allSteps splitDisk
    .rdwr false true [.update movedGroup] (Db.initial emptyMemory 0 true) openedGroups movedGroups rfl rfl
    (fun gr hgr => by
      obtain rfl : gr = movedGroup := by simpa using hgr
      exact ⟨by decide,by decide,by decide,by decide,by decide,by decide⟩)
    ⟨.inl rfl,trivial⟩ rfl
  exact ⟨lines,lines',hlines,hlines',hkept⟩

/-- A new group is linked behind the entry that was absorbed: every call succeeds, and the
written file does not have the group. -/
theorem new_group_behind_absorbed_entry_is_lost :
    commonioOpen (groupOps 1) (Db.initial emptyMemory 0 true) .rdwr false (fileState splitDisk.file) true =
      (true,openedGroups) ∧
    runEdits (groupOps 1) openedGroups [.update newGroup] = some extendedGroups ∧ newGroup.Storable ∧
    let closed := commonioClose false (groupCloseOps 1 plainPutgrent true) allSteps extendedGroups splitDisk.file splitDisk
    closed.1 = true ∧ ∃ db', commonioOpen (groupOps 1) (Db.initial emptyMemory 0 true) .rdwr false
      (fileState closed.2.2.file) true = (true,db') ∧ ¬ db'.Finds (groupOps 1) [.update newGroup] := by
  refine ⟨rfl,rfl,⟨by decide,by decide,by decide,by decide,by decide,by decide⟩,rfl,_,rfl,fun hfinds => ?_⟩
  have hfound := hfinds.1 (ascii "c") newGroup rfl
  have hlost : (commonioOpen (groupOps 1) (Db.initial emptyMemory 0 true) .rdwr false
    (fileState (some (ascii "a:x:5:u\na:x:5:v\nb:x:6:\n"))) true).2.entriesNamed (groupOps 1) (ascii "c") = [] := by
    decide +kernel
  exact absurd (hfound.symm.trans hlost) (List.cons_ne_nil _ _)

/-- The context is reset behind the renaming: where that fails, closing fails with the new file
in place. -/
theorem failed_close_with_new_file :
    movedGroups.isopen = true ∧ movedGroups.readonly = false ∧
      let result := commonioClose true (groupCloseOps 1 plainPutgrent true) { allSteps with resetContext := false }
        movedGroups splitDisk.file splitDisk
      result.1 = false ∧ result.2.2.file ≠ splitDisk.file := by
  refine ⟨rfl,rfl,rfl,?_⟩
  decide +kernel

end UserDb.Commonio
