import UserDb.Commonio.Files

/-! A database of one-line entries of which only this is known: what was not changed still has
its line. The values of such entries may have been edited in place. -/
namespace UserDb.Commonio
open UserDb.Base

variable {α : Type}

/-- A kind of file with one line for each entry. -/
structure LineStorage (α : Type) extends Storage α where
  lineOf : α → Bytes
  hook : ops.openHook = none
  single : entryLines = fun a => [lineOf a]

/-- What a record is when its file is written and read again. -/
def LineStorage.again (s : LineStorage α) (r : Record α) : Record α :=
  lineRecord s.ops (if r.changed then r.eptr.elim [] s.lineOf else r.line.getD [])

/-- A database that is open for writing, and the file it was read from. -/
structure Kept (s : LineStorage α) (file : Option Bytes) (db : Db α) (l : List Nat) : Prop where
  rep : Rep db l false
  isopen : db.isopen = true
  writable : db.readonly = false
  lines : ∀ r ∈ l.map db.record, r.changed = false → ∃ line, r.line = some line ∧ IsLine line
  text : ∀ r ∈ l.map db.record, r.changed = true → ∃ a, r.eptr = some a ∧ s.Text a
  unchanged : db.changed = false →
    readFile s.ops file = some ((l.map db.record).map s.again) ∧ ∀ r ∈ l.map db.record, r.changed = false

variable {s : LineStorage α} {file : Option Bytes} {db db' : Db α} {l xs ys : List Nat} {p : Nat}

theorem LineStorage.merged (s : LineStorage α) (rs : List (Record α)) : s.ops.merged rs = rs := by
  rw [Ops.merged,s.hook]

/-- The records of a file, line by line. -/
theorem LineStorage.readFile_eq (s : LineStorage α) {lines : List Bytes} (h : diskLines file = some lines) :
    readFile s.ops file = some (lines.map (lineRecord s.ops)) := by
  rw [readFile,h,Option.map_some,s.merged]

/-- A line of the file, as a record. -/
theorem LineStorage.record_line (s : LineStorage α) {rs : List (Record α)} (h : readFile s.ops file = some rs) :
    ∀ r ∈ rs, ∃ line, IsLine line ∧ r = lineRecord s.ops line := by
  obtain ⟨lines,hlines,rfl⟩ := Option.map_eq_some_iff.mp h
  rw [s.merged]
  intro r hr
  obtain ⟨line,hline,rfl⟩ := List.mem_map.mp hr
  exact ⟨line,diskLines_isLine hlines line hline,rfl⟩

/-- Records with one line each are read again from these lines. -/
theorem LineStorage.written_again (s : LineStorage α) {rs : List (Record α)}
    (h : ∀ r ∈ rs, ∃ line, writtenLines s.entryLines r = [line] ∧ IsLine line ∧ s.again r = lineRecord s.ops line) :
    (∀ line ∈ rs.flatMap (writtenLines s.entryLines), IsLine line) ∧
      (rs.flatMap (writtenLines s.entryLines)).map (lineRecord s.ops) = rs.map s.again := by
  induction rs with
  | nil => exact ⟨nofun,rfl⟩
  | cons r rs ih =>
    obtain ⟨⟨line,hwritten,hisline,hagain⟩,hrs⟩ := List.forall_mem_cons.mp h
    obtain ⟨hlines,hmap⟩ := ih hrs
    rw [List.flatMap_cons,hwritten,List.singleton_append,List.map_cons,List.map_cons,hmap,hagain]
    exact ⟨List.forall_mem_cons.mpr ⟨hisline,hlines⟩,rfl⟩

/-- Opening a file for writing. -/
theorem commonioOpen_kept {db₀ : Db α} {create memory : Bool}
    (h : commonioOpen s.ops db₀ .rdwr create (fileState file) memory = (true,db)) :
    ∃ l, Kept s file db l ∧ readFile s.ops file = some (l.map db.record) ∧ db.changed = false := by
  obtain ⟨l,stale,hread,hloaded,hisopen,hstale⟩ := commonioOpen_loaded s.parts h
  obtain rfl := hstale s.hook
  have hflags := commonioOpen_flags h
  have hch : db.changed = false := congrArg Prod.fst hflags
  have hlines := s.record_line hread
  refine ⟨l,⟨hloaded.rep,hisopen,congrArg Prod.snd hflags,fun r hr _ => ?_,fun r hr hrch => ?_,fun _ => ⟨?_,fun r hr => ?_⟩⟩,hread,hch⟩
  · obtain ⟨line,hline,rfl⟩ := hlines r hr
    exact ⟨line,rfl,hline⟩
  · obtain ⟨line,_,rfl⟩ := hlines r hr
    cases hrch
  · rw [hread]
    refine congrArg some (Eq.symm ?_)
    refine (List.map_congr_left fun r hr => ?_).trans (List.map_id _)
    obtain ⟨line,_,rfl⟩ := hlines r hr
    rfl
  · obtain ⟨line,_,rfl⟩ := hlines r hr
    rfl

theorem Kept.withCursor (h : Kept s file db l) {c : Option Nat} (hc : ∀ p, c = some p → p ∈ l) :
    Kept s file { db with cursor := c } l :=
  ⟨h.rep.withCursor hc,h.isopen,h.writable,h.lines,h.text,h.unchanged⟩

/-- Looking a name up moves the cursor at most; it is found where a record has it. -/
theorem Rep.locate {ops : Ops α} (h : Rep db l false) (hopen : db.isopen = true) (name : Bytes) :
    ∃ found c, Commonio.commonioLocate ops db name = (found,{ db with cursor := c }) ∧ (∀ p, c = some p → p ∈ l) ∧
      (found = none ↔ ∀ q ∈ l, (db.record q).name ops ≠ some name) := by
  unfold Commonio.commonioLocate
  rw [if_neg (by simp [hopen]),h.findEntryByName]
  cases hfind : l.find? fun p => (db.record p).name ops == some name with
  | none =>
    refine ⟨none,db.cursor,rfl,h.cursor,iff_of_true rfl fun q hq hname => ?_⟩
    have hnot := List.find?_eq_none.mp hfind q hq
    rw [hname,beq_self_eq_true] at hnot
    exact hnot rfl
  | some p =>
    have hp : p ∈ l := List.mem_of_find?_eq_some hfind
    have hname : (db.record p).name ops = some name := by simpa using List.find?_some hfind
    obtain ⟨a,ha,_⟩ := Option.map_eq_some_iff.mp hname
    have ha : (db.entries p).eptr = some a := ha
    refine ⟨some a,some p,by simp only [ha],fun q hq => Option.some.inj hq ▸ hp,iff_of_false nofun fun hall => hall p hp hname⟩

theorem Kept.locate (h : Kept s file db l) (name : Bytes) :
    ∃ found c, commonioLocate s.ops db name = (found,{ db with cursor := c }) ∧ (∀ p, c = some p → p ∈ l) ∧
      (found = none ↔ ∀ q ∈ l, (db.record q).name s.ops ≠ some name) := h.rep.locate h.isopen name

theorem Kept.delete (h : Kept s file db (xs ++ p :: ys)) : Kept s file (commonioDelEntry db p) (xs ++ ys) := by
  have hsub : ∀ r ∈ (xs ++ ys).map db.record, r ∈ (xs ++ p :: ys).map db.record := fun r hr => by
    simp only [List.map_append,List.map_cons,List.mem_append,List.mem_cons] at hr ⊢
    tauto
  have hflags := commonioDelEntry_flags db p
  have hrecord := record_commonioDelEntry db p
  refine ⟨h.rep.delEntry,hflags.1.trans h.isopen,hflags.2.trans h.writable,?_,?_,fun hch => ?_⟩
  · rw [hrecord]
    exact fun r hr => h.lines r (hsub r hr)
  · rw [hrecord]
    exact fun r hr => h.text r (hsub r hr)
  · rw [commonioDelEntry_eq] at hch
    cases hch

/-- A record that is put in the place of another one. -/
theorem Kept.replace (h : Kept s file db (xs ++ p :: ys)) (hrep : Rep db' (xs ++ p :: ys) false)
    (hflags : db'.isopen = true ∧ db'.readonly = false) {r : Record α}
    (hrecord : db'.record = Function.update db.record p r)
    (hline : r.changed = false → ∃ line, r.line = some line ∧ IsLine line)
    (htext : r.changed = true → ∃ a, r.eptr = some a ∧ s.Text a)
    (hsame : db'.changed = false → db.changed = false ∧ r.changed = false ∧ s.again r = s.again (db.record p)) :
    Kept s file db' (xs ++ p :: ys) := by
  have hp : p ∉ xs ++ ys := (List.nodup_cons.mp (List.nodup_middle.mp h.rep.nodup)).1
  have hother : ∀ q ∈ xs ++ ys, db'.record q = db.record q := fun q hq => by
    rw [hrecord,Function.update_of_ne (ne_of_mem_of_not_mem hq hp)]
  have hself : db'.record p = r := by rw [hrecord,Function.update_self]
  have hcases : ∀ q ∈ xs ++ p :: ys, db'.record q = r ∨ db'.record q = db.record q := fun q hq => by
    by_cases hqp : q = p
    · exact .inl (hqp ▸ hself)
    · exact .inr (by rw [hrecord,Function.update_of_ne hqp])
  refine ⟨hrep,hflags.1,hflags.2,fun r' hr' hch => ?_,fun r' hr' hch => ?_,fun hch => ?_⟩
  · obtain ⟨q,hq,rfl⟩ := List.mem_map.mp hr'
    rcases hcases q hq with heq | heq
    · rw [heq] at hch ⊢
      exact hline hch
    · rw [heq] at hch ⊢
      exact h.lines _ (List.mem_map_of_mem hq) hch
  · obtain ⟨q,hq,rfl⟩ := List.mem_map.mp hr'
    rcases hcases q hq with heq | heq
    · rw [heq] at hch ⊢
      exact htext hch
    · rw [heq] at hch ⊢
      exact h.text _ (List.mem_map_of_mem hq) hch
  · obtain ⟨hdb,hr,hagain⟩ := hsame hch
    obtain ⟨hread,hall⟩ := h.unchanged hdb
    refine ⟨?_,fun r' hr' => ?_⟩
    · rw [hread]
      simp only [List.map_append,List.map_cons,hself,hagain]
      rw [List.map_congr_left fun q hq => hother q (List.mem_append_left ys hq),
        List.map_congr_left fun q hq => hother q (List.mem_append_right xs hq)]
    · obtain ⟨q,hq,rfl⟩ := List.mem_map.mp hr'
      rcases hcases q hq with heq | heq
      · rw [heq]
        exact hr
      · rw [heq]
        exact hall _ (List.mem_map_of_mem hq)

/-- Storing an entry in the place of the one of its name. -/
theorem Kept.update_at (h : Kept s file db (xs ++ p :: ys)) {a : α} {memory : Bool}
    (hname : (db.record p).name s.ops = some (s.ops.getname a)) (htext : s.Text a)
    (hrun : commonioUpdate s.ops db a memory = (true,db')) :
    Kept s file db' (xs ++ p :: ys) ∧ db'.record = Function.update db.record p (editedRecord (db.record p).line a) := by
  have hflags := edit_flags (edit_of_update hrun)
  have hp : p ∈ xs ++ p :: ys := by simp
  rcases commonioUpdate_cases h.rep a memory hrun with ⟨hf,_⟩ | ⟨_,hch,xs',q,ys',hl,_,hne,hrep,hrec⟩ | ⟨_,_,hne,_⟩
  · cases hf
  · have hpq : p = q := by
      rw [hl] at hp
      by_contra hpq
      refine hne p ?_ hname
      rcases List.mem_append.mp hp with hx | hx
      · exact List.mem_append_left ys' hx
      · exact List.mem_append_right xs' (List.mem_of_ne_of_mem hpq hx)
    subst hpq
    refine ⟨h.replace hrep hflags hrec nofun (fun _ => ⟨a,rfl,htext⟩) fun hf => ?_,hrec⟩
    rw [hch] at hf
    cases hf
  · exact absurd hname (hne p hp)

/-- Storing an entry under a new name. -/
theorem Kept.update_new (h : Kept s file db l) {a : α} {memory : Bool}
    (hne : ∀ q ∈ l, (db.record q).name s.ops ≠ some (s.ops.getname a)) (htext : s.Text a)
    (hrun : commonioUpdate s.ops db a memory = (true,db')) :
    ∃ xs p ys, l = xs ++ ys ∧ p ∉ l ∧ Kept s file db' (xs ++ p :: ys) ∧
      db'.record = Function.update db.record p (editedRecord none a) := by
  have hedit := edit_of_update hrun
  have hflags := edit_flags hedit
  rcases commonioUpdate_cases h.rep a memory hrun with ⟨hf,_⟩ | ⟨_,_,xs,q,ys,rfl,hq,_⟩ | ⟨_,hch,_,hfresh,hrep,hrec⟩
  · cases hf
  · exact absurd hq (hne q (by simp))
  · have hl : beforeNis s.ops db.record l ++ fromNis s.ops db.record l = l := beforeNis_append_fromNis db.record
    rw [EditIsLinked.place h.rep (h.rep.editIsLinked _) hne] at hrep
    have hold : ∀ q ∈ l, db'.record q = db.record q := fun q hq => by
      rw [hrec,Function.update_of_ne (ne_of_mem_of_not_mem hq hfresh)]
    have hcases : ∀ r ∈ (beforeNis s.ops db.record l ++ db.fresh :: fromNis s.ops db.record l).map db'.record,
        r = editedRecord none a ∨ r ∈ l.map db.record := fun r hr => by
      obtain ⟨q,hq,rfl⟩ := List.mem_map.mp hr
      rcases List.mem_cons.mp (List.perm_middle.mem_iff.mp hq) with rfl | hq
      · exact .inl (by rw [hrec,Function.update_self])
      · rw [hl] at hq
        exact .inr (by rw [hold q hq]; exact List.mem_map_of_mem hq)
    refine ⟨_,db.fresh,_,hl.symm,hfresh,⟨hrep,hflags.1,hflags.2,fun r hr hrch => ?_,fun r hr hrch => ?_,fun hf => ?_⟩,hrec⟩
    · rcases hcases r hr with rfl | hr
      · cases hrch
      · exact h.lines r hr hrch
    · rcases hcases r hr with rfl | hr
      · exact ⟨a,rfl,htext⟩
      · exact h.text r hr hrch
    · rw [hch] at hf
      cases hf

/-- Records that are written and read: what was changed is read as the same entry. -/
theorem Kept.close (h : Kept s file db l) {selinux : Bool} {steps : CloseSteps} {old : Option Bytes} {disk : Disk}
    (hdisk : disk.file = file) (hok : (commonioClose selinux s.closeOps steps db old disk).1 = true) :
    readFile s.ops (commonioClose selinux s.closeOps steps db old disk).2.2.file = some ((l.map db.record).map s.again) ∧
      ∀ r ∈ l.map db.record, r.changed = true → ∃ a b, r.eptr = some a ∧ (s.again r).eptr = some b ∧ s.Same a b := by
  cases hch : db.changed with
  | false =>
    obtain ⟨hread,hall⟩ := h.unchanged hch
    rw [commonioClose_unchanged s.closeOps hch,hdisk]
    exact ⟨hread,fun r hr hrch => absurd ((hall r hr).symm.trans hrch) Bool.false_ne_true⟩
  | true =>
    rcases commonioClose_cases selinux s.closeOps steps db old disk h.isopen hch h.writable with
      ⟨hf,_⟩ | ⟨db₁,bytes,hhook,hall,_,hdisk'⟩
    · rw [hf] at hok
      cases hok
    · have hholds : Db.Holds { db with isopen := false } (l.map db.record) := Db.Holds.withClosed ⟨l,false,h.rep,rfl⟩
      have htext : ∀ r ∈ l.map db.record, r.changed = true → ∀ a ∈ r.eptr, s.Text a := fun r hr hrch a ha => by
        obtain ⟨b,hb,hbtext⟩ := h.text r hr hrch
        cases hb.symm.trans ha
        exact hbtext
      obtain ⟨hbytes,hgood⟩ := s.writes _ _ _ _ _ hholds htext hhook hall
      have hline : ∀ r ∈ l.map db.record, ∃ line, writtenLines s.entryLines r = [line] ∧ IsLine line ∧
          s.again r = lineRecord s.ops line := fun r hr => by
        cases hrch : r.changed with
        | true =>
          obtain ⟨a,ha,_⟩ := h.text r hr hrch
          have hlines := (hgood r hr hrch a ha).2
          rw [s.single] at hlines ⊢
          refine ⟨s.lineOf a,by simp [writtenLines,hrch,ha],hlines _ (List.mem_singleton_self _),?_⟩
          rw [LineStorage.again,hrch,if_pos rfl,ha]
          rfl
        | false =>
          obtain ⟨line,hline,hisline⟩ := h.lines r hr hrch
          refine ⟨line,?_,hisline,by rw [LineStorage.again,hrch,if_neg Bool.false_ne_true,hline]; rfl⟩
          rw [writtenLines,hrch,if_neg Bool.false_ne_true,recordLines,hline]
          exact List.splitOn_eq_singleton hisline.1
      obtain ⟨hisline,hagain⟩ := s.written_again hline
      refine ⟨?_,fun r hr hrch => ?_⟩
      · have hlines : diskLines (some (fileText ((l.map db.record).flatMap (writtenLines s.entryLines)))) =
            some ((l.map db.record).flatMap (writtenLines s.entryLines)) := fileLines_fileText hisline
        rw [hdisk',hbytes,s.readFile_eq hlines,hagain]
      · obtain ⟨a,ha,_⟩ := h.text r hr hrch
        obtain ⟨_,r',b,hr',hb,hsame⟩ := (hgood r hr hrch a ha).1
        rw [s.single,s.merged,List.map_singleton,List.singleton_inj] at hr'
        refine ⟨a,b,ha,?_,hsame⟩
        rw [LineStorage.again,hrch,if_pos rfl,ha,Option.elim_some,hr',hb]

end UserDb.Commonio
