import UserDb.Commonio.GroupFile

/-! The split of large groups and the merge of their parts are inverse to each other, over the
whole list of a database and through the file. -/
namespace UserDb.Commonio
open UserDb.Base

section Merging
variable {α : Type} {split : SplitEntries α} {xs ys : List (Record α)} {r : Record α}

/-- Records that are parts of nothing else are left out of account. -/
theorem foldl_absorbRecord_apart (h : ∀ q ∈ ys, samePart split r q = false) : ys.foldl (absorbRecord split) r = r := by
  induction ys with
  | nil => rfl
  | cons q ys ih =>
    obtain ⟨hq,hys⟩ := List.forall_mem_cons.mp h
    rw [List.foldl_cons,absorbRecord_of_not hq,ih hys]

/-- Lists that share no entry are merged each for itself. -/
theorem mergeRecords_append (h : ∀ q ∈ xs, ∀ q' ∈ ys, samePart split q q' = false) :
    mergeRecords split (xs ++ ys) = mergeRecords split xs ++ mergeRecords split ys := by
  induction hn : xs.length using Nat.strong_induction_on generalizing xs with
  | _ n ih =>
    cases xs with
    | nil =>
      rw [mergeRecords]
      rfl
    | cons r xs =>
      obtain ⟨hr,hxs⟩ := List.forall_mem_cons.mp h
      have hfold : ∀ (rs : List (Record α)) (r' : Record α), (∀ q, samePart split r' q = samePart split r q) →
          (rs ++ ys).foldl (absorbRecord split) r' = rs.foldl (absorbRecord split) r' := by
        intro rs
        induction rs with
        | nil =>
          intro r' hr'
          exact foldl_absorbRecord_apart fun q hq => by rw [hr',hr q hq]
        | cons q rs ih =>
          intro r' hr'
          exact ih _ fun q' => by rw [samePart_absorbRecord,hr']
      have hfilter : (xs ++ ys).filter (fun q => !samePart split r q) = xs.filter (fun q => !samePart split r q) ++ ys := by
        rw [List.filter_append]
        congr 1
        exact List.filter_eq_self.mpr fun q hq => by rw [hr q hq]; rfl
      have hlt : (xs.filter fun q => !samePart split r q).length < n := by
        rw [← hn]
        exact Nat.lt_succ_of_le (List.length_filter_le _ _)
      rw [List.cons_append,mergeRecords,mergeRecords,hfold xs r fun _ => rfl,hfilter,
        ih _ hlt (fun q hq => hxs q (List.mem_of_mem_filter hq)) rfl]
      rfl

/-- Records that stand for separate entries are merged each for itself. -/
theorem mergeRecords_flatMap {f : Record α → List (Record α)} {rs : List (Record α)}
    (h : rs.Pairwise fun r r' => ∀ q ∈ f r, ∀ q' ∈ f r', samePart split q q' = false) :
    mergeRecords split (rs.flatMap f) = rs.flatMap fun r => mergeRecords split (f r) := by
  induction rs with
  | nil =>
    rw [List.flatMap_nil,mergeRecords]
    rfl
  | cons r rs ih =>
    obtain ⟨hr,hrs⟩ := List.pairwise_cons.mp h
    rw [List.flatMap_cons,List.flatMap_cons,mergeRecords_append,ih hrs]
    intro q hq q' hq'
    obtain ⟨r',hr',hq'⟩ := List.mem_flatMap.mp hq'
    exact hr r' hr' q hq q' hq'

/-- A record that is a part of an entry is one of the entry that it goes into. -/
theorem exists_mergeRecords {q : Record α} (hq : q ∈ xs) (hself : samePart split q q = true) :
    ∃ r ∈ mergeRecords split xs, samePart split r q = true := by
  induction hn : xs.length using Nat.strong_induction_on generalizing xs with
  | _ n ih =>
    cases xs with
    | nil => cases hq
    | cons r xs =>
      rw [mergeRecords]
      have hfold : samePart split (xs.foldl (absorbRecord split) r) q = samePart split r q := by
        clear ih hn hq
        induction xs generalizing r with
        | nil => rfl
        | cons q' xs ih => rw [List.foldl_cons,ih,samePart_absorbRecord]
      cases hs : samePart split r q with
      | true => exact ⟨_,List.mem_cons_self,hfold.trans hs⟩
      | false =>
        have hne : q ≠ r := fun he => by
          rw [← he,hself] at hs
          cases hs
        have hq : q ∈ xs.filter fun q' => !samePart split r q' :=
          List.mem_filter.mpr ⟨(List.mem_cons.mp hq).resolve_left hne,by rw [hs]; rfl⟩
        have hlt : (xs.filter fun q' => !samePart split r q').length < n := by
          rw [← hn]
          exact Nat.lt_succ_of_le (List.length_filter_le _ _)
        obtain ⟨r',hr',hs'⟩ := ih _ hlt hq rfl
        exact ⟨r',List.mem_cons_of_mem _ hr',hs'⟩

end Merging

section Parts
variable {maxMembers : Nat} {gr : Group} {chunk members : List Bytes} {chunks : List (List Bytes)}

/-- What a stretch of members is read back as: an empty name at its end is not seen. -/
def dropEmptyLast (chunk : List Bytes) : List Bytes := if chunk.getLast? = some [] then chunk.dropLast else chunk

private theorem memberList_chunk (h : ∀ member ∈ chunk, comma ∉ member) :
    memberList ([comma].intercalate chunk) = dropEmptyLast chunk := by
  by_cases hnil : chunk = []
  · subst hnil
    decide
  · rw [memberList,List.splitOn_intercalate comma h hnil]
    rfl

/-- The members that are found again: an empty name is lost where it is the last one of a part. -/
def keptMembers (maxMembers : Nat) (gr : Group) : List Bytes :=
  if ∃ part ∈ splitGroup maxMembers gr, part.members.getLast? = some [] then gr.members.erase [] else gr.members

private theorem flatten_dropEmptyLast (h : chunks.flatten.Nodup) :
    (chunks.map dropEmptyLast).flatten =
      if ∃ chunk ∈ chunks, chunk.getLast? = some [] then chunks.flatten.erase [] else chunks.flatten := by
  induction chunks with
  | nil => rfl
  | cons chunk chunks ih =>
    rw [List.flatten_cons] at h
    obtain ⟨hchunk,hchunks,hdisjoint⟩ := List.nodup_append.mp h
    rw [List.map_cons,List.flatten_cons,ih hchunks,List.flatten_cons]
    by_cases hlast : chunk.getLast? = some []
    · -- the only empty name is the last one here
      have hmem : [] ∈ chunk := List.mem_of_getLast? hlast
      have hnot : [] ∉ chunks.flatten := fun hm => hdisjoint [] hmem [] hm rfl
      have hrest : ¬ ∃ chunk ∈ chunks, chunk.getLast? = some [] := by
        rintro ⟨other,hother,hl⟩
        exact hnot (List.mem_flatten_of_mem hother (List.mem_of_getLast? hl))
      obtain ⟨init,hinit⟩ := List.getLast?_eq_some_iff.mp hlast
      have hout : [] ∉ init := fun hm => by
        rw [hinit] at hchunk
        exact List.disjoint_of_nodup_append hchunk hm (List.mem_singleton_self _)
      rw [if_neg hrest,if_pos ⟨chunk,List.mem_cons_self,hlast⟩,dropEmptyLast,if_pos hlast,List.erase_append_left _ hmem,hinit,
        List.dropLast_concat,List.erase_append_right _ hout,List.erase_cons_head,List.append_nil]
    · rw [dropEmptyLast,if_neg hlast]
      by_cases hrest : ∃ chunk ∈ chunks, chunk.getLast? = some []
      · obtain ⟨other,hother,hl⟩ := hrest
        have hmem : [] ∈ chunks.flatten := List.mem_flatten_of_mem hother (List.mem_of_getLast? hl)
        have hout : [] ∉ chunk := fun hm => hdisjoint [] hm [] hmem rfl
        rw [if_pos ⟨other,hother,hl⟩,if_pos ⟨other,List.mem_cons_of_mem _ hother,hl⟩,List.erase_append_right _ hout]
      · rw [if_neg hrest,if_neg]
        rintro ⟨other,hother,hl⟩
        rcases List.mem_cons.mp hother with rfl | hother
        · exact hlast hl
        · exact hrest ⟨other,hother,hl⟩

/-- No part has more members than allowed. -/
theorem length_splitGroup (hm : 0 < maxMembers) (gr : Group) : ∀ part ∈ splitGroup maxMembers gr, part.members.length ≤ maxMembers := by
  induction hn : gr.members.length using Nat.strong_induction_on generalizing gr with
  | _ n ih =>
    rw [splitGroup]
    split
    · rename_i h
      have hlt : (gr.members.drop maxMembers).length < n := by
        rw [List.length_drop]
        omega
      intro part hpart
      rcases List.mem_cons.mp hpart with rfl | hpart
      · exact List.length_take_le _ _
      · exact ih _ hlt { gr with members := gr.members.drop maxMembers } rfl part hpart
    · rename_i h
      intro part hpart
      rw [List.mem_singleton.mp hpart]
      omega

/-- A member is in one part only. -/
theorem countP_splitGroup (h : gr.members.Nodup) {member : Bytes} (hm : member ∈ gr.members) :
    (splitGroup maxMembers gr).countP (fun part => decide (member ∈ part.members)) = 1 := by
  obtain ⟨chunks,hchunks,hflat⟩ := splitGroup_parts maxMembers gr
  rw [hchunks,List.countP_map]
  rw [← hflat] at h hm
  clear hchunks hflat
  induction chunks with
  | nil => cases hm
  | cons chunk chunks ih =>
    rw [List.flatten_cons] at h hm
    obtain ⟨_,hchunks,hdisjoint⟩ := List.nodup_append.mp h
    rw [List.countP_cons]
    rcases List.mem_append.mp hm with hmem | hmem
    · have hzero :
          chunks.countP ((fun part : Group => decide (member ∈ part.members)) ∘ fun chunk => { gr with members := chunk }) = 0 := by
        refine List.countP_eq_zero.mpr fun other hother hin => ?_
        exact hdisjoint member hmem member (List.mem_flatten_of_mem hother (of_decide_eq_true hin)) rfl
      rw [hzero]
      simp [hmem]
    · have hnot : member ∉ chunk := fun hin => hdisjoint member hin member hmem rfl
      rw [ih hmem hchunks]
      simp [hnot]

/-- Parts that were read are put together to a group of all their members, in order. -/
theorem foldl_absorb_stretches {r : Record Group} {parts : List (Record Group)}
    (hparts : parts.map Record.eptr = chunks.map fun chunk => some { gr with members := chunk })
    (hr : r.eptr = some { gr with members := members }) (hn : (members ++ chunks.flatten).Nodup) :
    (parts.foldl (absorbRecord groupSplit) r).eptr = some { gr with members := members ++ chunks.flatten } := by
  induction chunks generalizing r parts members with
  | nil =>
    obtain rfl : parts = [] := List.map_eq_nil_iff.mp hparts
    simpa using hr
  | cons chunk chunks ih =>
    obtain ⟨part,parts,rfl,hpart,hparts⟩ := List.map_eq_cons_iff.mp hparts
    rw [List.flatten_cons,← List.append_assoc] at hn ⊢
    have hsame : groupSplit.same { gr with members := members } { gr with members := chunk } = true := by
      simp [groupSplit]
    rw [List.foldl_cons,absorbRecord_of_same hr hpart hsame]
    refine ih hparts ?_ hn
    simp only [groupSplit,foldl_addMember (List.nodup_append.mp hn).1]

end Parts

/-- What the list of a database is after it was written in parts and read again. -/
def rereadGroup (maxMembers : Nat) (r : Record Group) : Option Group :=
  if r.changed then r.eptr.map fun gr => { gr with members := keptMembers maxMembers gr } else r.eptr

section Reading
variable {maxMembers : Nat} {gr : Group} {db db₁ : Db Group} {l : List Nat} {stale memory : Bool}

theorem groupOps_hook (hm : 0 < maxMembers) : (groupOps maxMembers).openHook = some groupSplit := by
  rw [groupOps]
  exact if_neg (by omega)

/-- The records of the lines of a group, as they are read. -/
theorem lineRecord_groupLines (h : gr.Text) (hclean : ∀ part ∈ splitGroup maxMembers gr, part.Clean) :
    ((groupLines maxMembers gr).map (lineRecord (groupOps maxMembers))).map Record.eptr =
      (splitGroup maxMembers gr).map fun part => some { gr with members := dropEmptyLast part.members } := by
  obtain ⟨chunks,hchunks,_⟩ := splitGroup_parts maxMembers gr
  rw [groupLines,List.map_map,List.map_map]
  refine List.map_congr_left fun part hpart => ?_
  have hparse : (groupOps maxMembers).parse (groupLine part) = some part.reread := (groupLine_clean (hclean part hpart)).2
  have hcomma : ∀ member ∈ part.members, comma ∉ member := fun member hmem hc => ((hclean part hpart).members member hmem comma hc).1 rfl
  obtain ⟨chunk,rfl,_⟩ := splitGroup_part hpart
  have hnis : nameIsNis (groupLine { gr with members := chunk }) = false := groupLine_notNis h.notNis
  show (lineRecord (groupOps maxMembers) (groupLine { gr with members := chunk })).eptr = _
  rw [lineRecord,lineEntry,hnis,if_neg Bool.false_ne_true,hparse,← memberList_chunk hcomma]
  rfl

/-- The lines of a group are merged to one record, with the members that are kept. -/
theorem merged_groupLines (h : gr.Text) (hdistinct : gr.members.Nodup)
    (hclean : ∀ part ∈ splitGroup maxMembers gr, part.Clean) :
    ∃ r, mergeRecords groupSplit ((groupLines maxMembers gr).map (lineRecord (groupOps maxMembers))) = [r] ∧
      r.eptr = some { gr with members := keptMembers maxMembers gr } := by
  obtain ⟨chunks,hchunks,hflat⟩ := splitGroup_parts maxMembers gr
  have heptr := lineRecord_groupLines h hclean
  generalize (groupLines maxMembers gr).map (lineRecord (groupOps maxMembers)) = rs at heptr
  have hkept : (chunks.map dropEmptyLast).flatten = keptMembers maxMembers gr := by
    rw [flatten_dropEmptyLast (hflat ▸ hdistinct),keptMembers,hchunks,hflat]
    simp only [List.mem_map,exists_exists_and_eq_and]
  have hnodup : (keptMembers maxMembers gr).Nodup := by
    unfold keptMembers
    split
    · exact hdistinct.erase _
    · exact hdistinct
  rw [hchunks,List.map_map] at heptr
  cases chunks with
  | nil => exact absurd hchunks (splitGroup_ne_nil maxMembers gr)
  | cons first rest =>
    rw [List.map_cons] at heptr
    obtain ⟨r,rs,rfl,hr,hrs⟩ := List.map_eq_cons_iff.mp heptr
    have hsame : ∀ q ∈ rs, samePart groupSplit r q = true := fun q hq => by
      have hqe : q.eptr ∈ rs.map Record.eptr := List.mem_map_of_mem hq
      rw [hrs] at hqe
      obtain ⟨chunk,_,hqe⟩ := List.mem_map.mp hqe
      exact samePart_iff.mpr ⟨_,_,hr,hqe.symm,by simp [groupSplit]⟩
    rw [mergeRecords,List.filter_eq_nil_iff.mpr fun q hq => by simp [hsame q hq],mergeRecords]
    refine ⟨_,rfl,?_⟩
    have hstretches : rs.map Record.eptr = (rest.map dropEmptyLast).map fun chunk => some { gr with members := chunk } := by
      rw [hrs,List.map_map]
      rfl
    rw [foldl_absorb_stretches hstretches hr,← List.flatten_cons,← List.map_cons,hkept]
    rw [← List.flatten_cons,← List.map_cons,hkept]
    exact hnodup

/-- Two entries have the same name, password and gid. -/
def SameTriple (r r' : Record Group) : Prop :=
  ∃ gr gr', r.eptr = some gr ∧ r'.eptr = some gr' ∧ gr.name = gr'.name ∧ gr.passwd = gr'.passwd ∧ gr.gid = gr'.gid

theorem samePart_iff_triple {r r' : Record Group} : samePart groupSplit r r' = true ↔ SameTriple r r' := by
  rw [samePart_iff]
  unfold SameTriple
  simp only [groupSplit,Bool.and_eq_true,beq_iff_eq,and_assoc]

/-- A record from a line of an entry is a part of nothing but that entry. -/
theorem sameTriple_of_part {r r₁ q : Record Group} {lines : List Bytes}
    (hmerged : mergeRecords groupSplit (lines.map (lineRecord (groupOps maxMembers))) = [r₁])
    (hr₁ : ∀ gr₁ ∈ r₁.eptr, ∃ gr, r.eptr = some gr ∧ gr.name = gr₁.name ∧ gr.passwd = gr₁.passwd ∧ gr.gid = gr₁.gid)
    (hq : q ∈ lines.map (lineRecord (groupOps maxMembers))) (hself : samePart groupSplit q q = true) : SameTriple r q := by
  obtain ⟨r',hr',hs⟩ := exists_mergeRecords hq hself
  rw [hmerged] at hr'
  obtain rfl := List.mem_singleton.mp hr'
  obtain ⟨gr₁,gr',h₁,h',hname,hpasswd,hgid⟩ := samePart_iff_triple.mp hs
  obtain ⟨gr,hgr,hn,hp,hg⟩ := hr₁ gr₁ h₁
  exact ⟨gr,gr',hgr,h',hn.trans hname,hp.trans hpasswd,hg.trans hgid⟩

/-- The lines of a record are read back as one record, the one that is expected. -/
theorem merged_writtenLines (hm : 0 < maxMembers) {r : Record Group}
    (hread : r.changed = false → IsRead (groupOps maxMembers) r) (hstored : r.changed = true → r.eptr.isSome)
    (htext : r.changed = true → ∀ gr ∈ r.eptr, gr.Text ∧ gr.members.Nodup ∧ ∀ part ∈ splitGroup maxMembers gr, part.Clean) :
    ∃ r₁, mergeRecords groupSplit ((writtenLines (groupLines maxMembers) r).map (lineRecord (groupOps maxMembers))) = [r₁] ∧
      r₁.eptr = rereadGroup maxMembers r := by
  unfold writtenLines rereadGroup
  cases hch : r.changed with
  | false =>
    refine ⟨r,?_,rfl⟩
    have hmerged := (hread hch).merged
    rw [Ops.merged,groupOps_hook hm] at hmerged
    exact hmerged
  | true =>
    obtain ⟨gr,hgr⟩ := Option.isSome_iff_exists.mp (hstored hch)
    obtain ⟨ht,hdistinct,hclean⟩ := htext hch gr hgr
    rw [hgr]
    exact merged_groupLines ht hdistinct hclean

end Reading

section Splitting
variable {maxMembers : Nat} {rs : List (Record Group)}

/-- The entries that were split: parts of at most so many members, in each of which a member of
the group stands once, and the entries that were not changed as they were. -/
structure SplitInto (maxMembers : Nat) (rs qs : List (Record Group)) : Prop where
  parts : qs = rs.flatMap (splitRecord maxMembers)
  bounded : ∀ q ∈ qs, q.changed = true → ∀ gr ∈ q.eptr, gr.members.length ≤ maxMembers
  untouched : ∀ r ∈ rs, r.changed = false → splitRecord maxMembers r = [r]
  once : ∀ r ∈ rs, r.changed = true → ∀ gr ∈ r.eptr, ∀ member ∈ gr.members,
    (splitRecord maxMembers r).countP (fun q => q.eptr.any fun part => decide (member ∈ part.members)) = 1

private theorem splitInto (hm : 0 < maxMembers) (hdistinct : ∀ r ∈ rs, r.changed = true → ∀ gr ∈ r.eptr, gr.members.Nodup) :
    SplitInto maxMembers rs (rs.flatMap (splitRecord maxMembers)) := by
  refine ⟨rfl,fun q hq hch gr hgr => ?_,fun r _ hch => splitRecord_unchanged (.inl hch),fun r hr hch gr hgr member hmem => ?_⟩
  · obtain ⟨r,_,hq⟩ := List.mem_flatMap.mp hq
    obtain ⟨_,whole,_,hpart⟩ := mem_splitRecord hq hch hgr
    exact length_splitGroup hm whole gr hpart
  · have hparts := congrArg (List.countP fun q : Option Group × Bool => q.1.any fun part => decide (member ∈ part.members))
      (@splitRecord_changed maxMembers _ _ hch hgr)
    rw [List.countP_map,List.countP_map] at hparts
    exact hparts.trans (countP_splitGroup (hdistinct r hr hch gr hgr) hmem)

end Splitting

/-- Opening the file that was written from the parts puts every group together again. -/
theorem split_then_merge (maxMembers : Nat) (putgrent : Putgrent) (memory : Bool) (write : Nat → Bool) (db db₁ : Db Group)
    (l : List Nat) (stale : Bool) (bytes : Bytes) (hm : 0 < maxMembers) (hloaded : Loaded (groupOps maxMembers) db l stale)
    (htext : ∀ r ∈ l.map db.record, r.changed = true → ∀ gr ∈ r.eptr, gr.Text)
    (hdistinct : ∀ r ∈ l.map db.record, r.changed = true → ∀ gr ∈ r.eptr, gr.members.Nodup)
    (hapart : (l.map db.record).Pairwise fun r r' => ¬ SameTriple r r')
    (hhook : groupCloseHook maxMembers db memory = some db₁)
    (hwrite : writeAll (groupCloseOps maxMembers putgrent memory) write db₁ = some bytes) :
    SplitInto maxMembers (l.map db.record) ((db₁.from db₁.head).map db₁.record) ∧
      ∀ (db₀ : Db Group) (access : AccessMode) (create : Bool), refusesOpen db₀ access = false →
        ∃ db₂, commonioOpen (groupOps maxMembers) db₀ access create (fileState (some bytes)) true = (true,db₂) ∧
          (db₂.from db₂.head).map (fun p => (db₂.record p).eptr) = (l.map db.record).map (rereadGroup maxMembers) := by
  have hholds : db.Holds (l.map db.record) := ⟨l,stale,hloaded.rep,rfl⟩
  obtain ⟨hbytes,hput⟩ := groupClose_parts hholds (fun r hr hch gr hgr => (htext r hr hch gr hgr).notNis) hhook hwrite
  have hclean : ∀ r ∈ l.map db.record, r.changed = true → ∀ gr ∈ r.eptr, ∀ part ∈ splitGroup maxMembers gr,
      part.Text ∧ part.Clean := fun r hr hch gr hgr part hpart => by
    obtain ⟨bs,hbs⟩ := hput r hr hch gr hgr part hpart
    have hpt := (htext r hr hch gr hgr).part hpart
    exact ⟨hpt,(groupPut_clean hbs hpt.notNis).1⟩
  have hlines : ∀ r ∈ l.map db.record, r.changed = true → ∀ gr ∈ r.eptr, ∀ line ∈ groupLines maxMembers gr, IsLine line :=
    fun r hr hch gr hgr line hline => by
      obtain ⟨part,hpart,rfl⟩ := List.mem_map.mp hline
      obtain ⟨hpt,hpc⟩ := hclean r hr hch gr hgr part hpart
      exact ⟨(groupLine_clean hpc).1,hpt.zero_notMem⟩
  have hmerged : ∀ r ∈ l.map db.record, ∃ r₁, mergeRecords groupSplit
      ((writtenLines (groupLines maxMembers) r).map (lineRecord (groupOps maxMembers))) = [r₁] ∧
        r₁.eptr = rereadGroup maxMembers r := fun r hr =>
    merged_writtenLines hm (hloaded.read r hr) (hloaded.stored r hr) fun hch gr hgr =>
      ⟨htext r hr hch gr hgr,hdistinct r hr hch gr hgr,fun part hpart => (hclean r hr hch gr hgr part hpart).2⟩
  -- parts of two entries have nothing in common
  have hparts : ∀ r ∈ l.map db.record, ∀ q ∈ (writtenLines (groupLines maxMembers) r).map (lineRecord (groupOps maxMembers)),
      samePart groupSplit q q = true → SameTriple r q := fun r hr q hq hself => by
    obtain ⟨r₁,hr₁,heptr⟩ := hmerged r hr
    refine sameTriple_of_part hr₁ (fun gr₁ hgr₁ => ?_) hq hself
    rw [heptr,rereadGroup] at hgr₁
    split at hgr₁
    · obtain ⟨gr,hgr,rfl⟩ := Option.map_eq_some_iff.mp hgr₁
      exact ⟨gr,hgr,rfl,rfl,rfl⟩
    · exact ⟨gr₁,hgr₁,rfl,rfl,rfl⟩
  have hseparate : (l.map db.record).Pairwise fun r r' =>
      ∀ q ∈ (writtenLines (groupLines maxMembers) r).map (lineRecord (groupOps maxMembers)),
        ∀ q' ∈ (writtenLines (groupLines maxMembers) r').map (lineRecord (groupOps maxMembers)),
          samePart groupSplit q q' = false := by
    refine hapart.imp_of_mem fun {r r'} hr hr' hne q hq q' hq' => Bool.eq_false_iff.mpr fun hs => hne ?_
    obtain ⟨gr,g,hgr,hg,hn,hp,hi⟩ := hparts r hr q hq (samePart_trans hs (samePart_symm hs))
    obtain ⟨gr',g',hgr',hg',hn',hp',hi'⟩ := hparts r' hr' q' hq' (samePart_trans (samePart_symm hs) hs)
    obtain ⟨a,a',ha,ha',hna,hpa,hia⟩ := samePart_iff_triple.mp hs
    cases ha.symm.trans hg
    cases ha'.symm.trans hg'
    exact ⟨gr,gr',hgr,hgr',hn.trans (hna.trans hn'.symm),hp.trans (hpa.trans hp'.symm),hi.trans (hia.trans hi'.symm)⟩
  refine ⟨groupCloseHook_records hholds hhook ▸ splitInto hm hdistinct,fun db₀ access create hguard => ?_⟩
  have hfile : readFile (groupOps maxMembers) (some bytes) = some ((l.map db.record).flatMap fun r =>
      mergeRecords groupSplit ((writtenLines (groupLines maxMembers) r).map (lineRecord (groupOps maxMembers)))) := by
    rw [readFile,hbytes,hloaded.diskLines_written hlines,Option.map_some,Ops.merged,groupOps_hook hm,List.map_flatMap]
    exact congrArg some (mergeRecords_flatMap hseparate)
  obtain ⟨db₂,l₂,stale₂,hrun,hloaded₂,hrecords,_⟩ :=
    commonioOpen_of_readFile (groupOps_namesParts maxMembers) hguard hfile (by intros; contradiction)
  refine ⟨db₂,hrun,?_⟩
  have heptrs : (db₂.from db₂.head).map (fun p => (db₂.record p).eptr) = (l₂.map db₂.record).map Record.eptr := by
    rw [hloaded₂.rep.from_head,List.map_map]
    rfl
  rw [heptrs,hrecords,List.map_flatMap]
  have hone : ∀ r ∈ l.map db.record, (mergeRecords groupSplit
      ((writtenLines (groupLines maxMembers) r).map (lineRecord (groupOps maxMembers)))).map Record.eptr =
        [rereadGroup maxMembers r] := fun r hr => by
    obtain ⟨r₁,hr₁,heptr⟩ := hmerged r hr
    rw [hr₁,List.map_singleton,heptr]
  exact (List.flatMap_congr hone).trans List.map_eq_flatMap.symm

def openedParts : Db Group :=
  (commonioOpen (groupOps 2) (Db.initial emptyMemory 0 true) .rdwr false (fileState (some (ascii "a:x:5:u\nb:x:6:u\n"))) true).2

def storedParts (members : List Bytes) : Db Group :=
  (openedParts.edit (groupOps 2) (.update ⟨ascii "a",ascii "x",5,members⟩)).2

def storedRecords (members : List Bytes) : List (Record Group) :=
  [⟨some (ascii "a:x:5:u"),some ⟨ascii "a",ascii "x",5,members⟩,true⟩,
    ⟨some (ascii "b:x:6:u"),some ⟨ascii "b",ascii "x",6,[ascii "u"]⟩,false⟩]

theorem storedParts_loaded (members : List Bytes) :
    ∃ l stale, Loaded (groupOps 2) (storedParts members) l stale ∧ l.map (storedParts members).record = storedRecords members := by
  have hopen : commonioOpen (groupOps 2) (Db.initial emptyMemory 0 true) .rdwr false
      (fileState (some (ascii "a:x:5:u\nb:x:6:u\n"))) true = (true,openedParts) := rfl
  have hedit : openedParts.edit (groupOps 2) (.update ⟨ascii "a",ascii "x",5,members⟩) = (true,storedParts members) := rfl
  obtain ⟨l,stale,_,hloaded,_⟩ := commonioOpen_loaded (groupOps_namesParts 2) hopen
  obtain ⟨l',stale',hloaded',_⟩ := hloaded.edit hedit (.inl rfl)
  refine ⟨l',stale',hloaded',?_⟩
  rw [← hloaded'.rep.from_head]
  rfl

theorem split_then_merge_three :
    ∃ db₁ bytes db₂, groupCloseHook 2 (storedParts [ascii "u",ascii "v",ascii "w"]) true = some db₁ ∧
      writeAll (groupCloseOps 2 plainPutgrent true) (fun _ => true) db₁ = some bytes ∧
      SplitInto 2 (storedRecords [ascii "u",ascii "v",ascii "w"]) ((db₁.from db₁.head).map db₁.record) ∧
      commonioOpen (groupOps 2) (Db.initial emptyMemory 0 true) .rdwr false (fileState (some bytes)) true = (true,db₂) ∧
      (db₂.from db₂.head).map (fun p => (db₂.record p).eptr) =
        (storedRecords [ascii "u",ascii "v",ascii "w"]).map (rereadGroup 2) := by
  obtain ⟨l,stale,hloaded,hrecords⟩ := storedParts_loaded [ascii "u",ascii "v",ascii "w"]
  obtain ⟨db₁,hhook⟩ : ∃ db₁, groupCloseHook 2 (storedParts [ascii "u",ascii "v",ascii "w"]) true = some db₁ := ⟨_,rfl⟩
  obtain ⟨bytes,hwrite⟩ : ∃ bytes, writeAll (groupCloseOps 2 plainPutgrent true) (fun _ => true) db₁ = some bytes := by
    cases hhook
    exact ⟨_,rfl⟩
  obtain ⟨hsplit,hopen⟩ := split_then_merge 2 plainPutgrent true (fun _ => true) _ db₁ l stale bytes (by decide) hloaded
    (by
      rw [hrecords]
      simp only [storedRecords,List.forall_mem_cons]
      exact ⟨fun _ gr hgr => Option.some.inj hgr ▸ ⟨by decide,by decide,by decide,by decide⟩,nofun,nofun⟩)
    (by
      rw [hrecords]
      decide)
    (by
      rw [hrecords]
      refine List.pairwise_pair.mpr ?_
      rintro ⟨_,_,⟨⟩,⟨⟩,hname,_⟩
      exact absurd hname (by decide)) hhook hwrite
  obtain ⟨db₂,hrun,hmembers⟩ := hopen (Db.initial emptyMemory 0 true) .rdwr false rfl
  rw [hrecords] at hsplit hmembers
  exact ⟨db₁,bytes,db₂,hhook,hwrite,hsplit,hrun,hmembers⟩

/-- An empty name is not found again where it is the last one of a part. -/
theorem empty_member_is_not_reread :
    ¬ ∀ (maxMembers : Nat) (putgrent : Putgrent) (memory : Bool) (write : Nat → Bool) (db db₁ : Db Group) (l : List Nat)
      (stale : Bool) (bytes : Bytes), 0 < maxMembers → Loaded (groupOps maxMembers) db l stale →
      (∀ r ∈ l.map db.record, r.changed = true → ∀ gr ∈ r.eptr, gr.members.Nodup) →
      (l.map db.record).Pairwise (fun r r' => ¬ SameTriple r r') →
      groupCloseHook maxMembers db memory = some db₁ →
      writeAll (groupCloseOps maxMembers putgrent memory) write db₁ = some bytes →
      ∃ db₂, commonioOpen (groupOps maxMembers) (Db.initial emptyMemory 0 true) .rdwr false (fileState (some bytes)) true =
          (true,db₂) ∧
        (db₂.from db₂.head).map (fun p => (db₂.record p).eptr) = (l.map db.record).map Record.eptr := by
  intro hall
  obtain ⟨l,stale,hloaded,hrecords⟩ := storedParts_loaded [ascii "u",[],ascii "w"]
  obtain ⟨db₂,hrun,hmembers⟩ := hall 2 plainPutgrent true (fun _ => true) _ _ l stale _ (by decide) hloaded
    (by
      rw [hrecords]
      decide)
    (by
      rw [hrecords]
      refine List.pairwise_pair.mpr ?_
      rintro ⟨_,_,⟨⟩,⟨⟩,hname,_⟩
      exact absurd hname (by decide)) rfl rfl
  rw [hrecords] at hmembers
  have hlost : db₂ = (commonioOpen (groupOps 2) (Db.initial emptyMemory 0 true) .rdwr false
      (fileState (some (ascii "a:x:5:u,\na:x:5:w\nb:x:6:u\n"))) true).2 := congrArg Prod.snd hrun.symm
  subst hlost
  revert hmembers
  decide +kernel

end UserDb.Commonio
