import UserDb.Commonio.Close
import UserDb.Commonio.Records

/-! A session: a database is opened, edited through its calls and closed. The links refine
the records, and the records are what reaches the file. -/
namespace UserDb.Commonio
open UserDb.Base UserDb.Base.LinkedList

variable {α : Type}

def Db.edit (ops : Ops α) (db : Db α) : Edit α → Bool × Db α
  | .update eptr => commonioUpdate ops db eptr true
  | .remove name => commonioRemove ops db name

/-- Edits one after the other, as long as all of them succeed. -/
def runEdits (ops : Ops α) : Db α → List (Edit α) → Option (Db α)
  | db, [] => some db
  | db, e :: edits =>
    match db.edit ops e with
    | (true,db) => runEdits ops db edits
    | (false,_) => none

/-- A stored entry is linked to the list: it has a place there, a NIS entry to stand in front
of, or a tail that is in the list. -/
def EditIsLinked (ops : Ops α) (db : Db α) : Edit α → Prop
  | .update eptr => (db.findEntryByName ops (ops.getname eptr)).isSome ∨
      (∃ p ∈ db.from db.head, (db.record p).isNis ops = true) ∨
      ∀ t, db.tail = some t → t ∈ db.from db.head
  | .remove _ => True

/-- Every edit of a session is linked, in the state it is made in. -/
def EditsAreLinked (ops : Ops α) : Db α → List (Edit α) → Prop
  | _, [] => True
  | db, e :: edits => EditIsLinked ops db e ∧ EditsAreLinked ops (db.edit ops e).2 edits

/-- The records that a database holds, in order. -/
def Db.Holds (db : Db α) (rs : List (Record α)) : Prop :=
  ∃ l stale, Rep db l stale ∧ l.map db.record = rs

section Refinement
variable {ops : Ops α} {db db' : Db α} {rs : List (Record α)} {e : Edit α} {lines : List Bytes}
  {edits edits' : List (Edit α)}

private theorem addOneEntryNis_flags (ops : Ops α) (db : Db α) (p : Nat) :
    (db.addOneEntryNis ops p).isopen = db.isopen ∧ (db.addOneEntryNis ops p).readonly = db.readonly := by
  unfold Db.addOneEntryNis
  split
  · rename_i q _
    generalize db.prevOf q = before
    cases before <;> exact ⟨rfl,rfl⟩
  · rw [addOneEntry_eq]
    have hshell := setNextAt_shell ((db.setNext p none).setPrev p db.tail) db.tail (some p)
    exact ⟨hshell.isopen,hshell.readonly⟩

theorem commonioDelEntry_flags (db : Db α) (p : Nat) :
    (commonioDelEntry db p).isopen = db.isopen ∧ (commonioDelEntry db p).readonly = db.readonly := by
  have hnext := setNextAt_shell db (db.prevOf p) (db.nextOf p)
  have hprev := setPrevAt_shell (db.setNextAt (db.prevOf p) (db.nextOf p)) (db.nextOf p) (db.prevOf p)
  rw [commonioDelEntry_eq]
  exact ⟨hprev.isopen.trans hnext.isopen,hprev.readonly.trans hnext.readonly⟩

/-- Only a database that is open for writing can be edited, and it stays so. -/
theorem edit_flags (h : db.edit ops e = (true,db')) : db'.isopen = true ∧ db'.readonly = false := by
  cases e with
  | update eptr =>
    have h : commonioUpdate ops db eptr true = (true,db') := h
    unfold commonioUpdate at h
    split at h
    · cases h
    · rename_i hopen
      simp only [Bool.or_eq_true,Bool.not_eq_true',not_or,Bool.not_eq_false,Bool.not_eq_true] at hopen
      split at h
      · split at h
        · cases h
        · cases h
          exact hopen
      · cases h
        have hflags := addOneEntryNis_flags ops (db.allocate ⟨none,some eptr,none,none,true⟩) db.fresh
        exact ⟨hflags.1.trans hopen.1,hflags.2.trans hopen.2⟩
  | remove name =>
    have h : commonioRemove ops db name = (true,db') := h
    unfold commonioRemove at h
    split at h
    · cases h
    · rename_i hopen
      simp only [Bool.or_eq_true,Bool.not_eq_true',not_or,Bool.not_eq_false,Bool.not_eq_true] at hopen
      split at h
      · cases h
      · split at h
        · cases h
        · cases h
          have hflags := commonioDelEntry_flags db
          exact ⟨(hflags _).1.trans hopen.1,(hflags _).2.trans hopen.2⟩

/-- A new entry that is linked has its place in the list. -/
theorem EditIsLinked.place {eptr : α} {l : List Nat} {stale : Bool} (hrep : Rep db l stale)
    (h : EditIsLinked ops db (.update eptr)) (hne : ∀ q ∈ l, (db.record q).name ops ≠ some (ops.getname eptr)) :
    withNew ops db.record l stale db.fresh =
      beforeNis ops db.record l ++ db.fresh :: fromNis ops db.record l := by
  unfold withNew
  refine if_neg fun hlost => ?_
  obtain ⟨rfl,hempty⟩ := Bool.and_eq_true_iff.mp hlost
  rcases h with hfound | ⟨p,hp,hnis⟩ | htail
  · rw [hrep.findEntryByName] at hfound
    obtain ⟨q,hq,hname⟩ := List.find?_isSome.mp hfound
    exact hne q hq (by simpa using hname)
  · rw [hrep.from_head] at hp
    have hall := List.dropWhile_eq_nil_iff.mp (List.isEmpty_iff.mp hempty) p hp
    rw [hnis] at hall
    cases hall
  · obtain ⟨_,t,ht,hm,_⟩ : l ≠ [] ∧ ∃ t, db.tail = some t ∧ t ∉ l ∧ t < db.fresh := hrep.tail
    have hin := htail t ht
    rw [hrep.from_head] at hin
    exact hm hin

/-- An edit that succeeds and is linked is an edit of the records, and makes no tail stale. -/
theorem Rep.edit {l : List Nat} {stale : Bool} (hrep : Rep db l stale) (hrun : db.edit ops e = (true,db'))
    (hlinked : EditIsLinked ops db e) :
    ∃ l' stale', Rep db' l' stale' ∧ (stale = false → stale' = false) ∧
      EditStep ops (l.map db.record) e (l'.map db'.record) ∧ db'.changed = true := by
  have hmap : ∀ (xs : List Nat) (name : Bytes), (∀ q ∈ xs, (db.record q).name ops ≠ some name) →
      ∀ r ∈ xs.map db.record, r.name ops ≠ some name := fun xs name hne r hr => by
    obtain ⟨q,hq,rfl⟩ := List.mem_map.mp hr
    exact hne q hq
  cases e with
  | update eptr =>
    rcases commonioUpdate_cases hrep eptr true hrun with
      ⟨hf,_⟩ | ⟨_,hch,xs,p,ys,rfl,hname,hne,hrep',hrec⟩ | ⟨_,hch,hne,hfresh,hrep',hrec⟩
    · cases hf
    · have hp : p ∉ xs ++ ys := (List.nodup_cons.mp (List.nodup_middle.mp hrep.nodup)).1
      have hkeep : ∀ q ∈ xs ++ ys, db'.record q = db.record q := fun q hq => by
        rw [hrec,Function.update_of_ne (ne_of_mem_of_not_mem hq hp)]
      refine ⟨_,stale,hrep',id,⟨xs.map db.record,[db.record p],ys.map db.record,by simp,?_,?_,
        (db.record p).line,?_⟩,hch⟩
      · intro q hq
        rw [List.mem_singleton.mp hq]
        exact hname
      · rw [← List.map_append]
        exact hmap _ _ hne
      · rw [List.map_append,List.map_cons,List.map_congr_left fun q hq => hkeep q (List.mem_append_left ys hq),
          List.map_congr_left fun q hq => hkeep q (List.mem_append_right xs hq),hrec,Function.update_self]
    · have hl : beforeNis ops db.record l ++ fromNis ops db.record l = l := beforeNis_append_fromNis db.record
      have hkeep : ∀ q ∈ l, db'.record q = db.record q := fun q hq => by
        rw [hrec,Function.update_of_ne (ne_of_mem_of_not_mem hq hfresh)]
      rw [hlinked.place hrep hne] at hrep'
      refine ⟨_,stale,hrep',id,⟨(beforeNis ops db.record l).map db.record,[],
        (fromNis ops db.record l).map db.record,?_,nofun,?_,none,?_⟩,hch⟩
      · rw [List.append_nil,← List.map_append,hl]
      · rw [← List.map_append,hl]
        exact hmap _ _ hne
      · have hbefore : (beforeNis ops db.record l).map db'.record = (beforeNis ops db.record l).map db.record :=
          List.map_congr_left fun q hq => hkeep q ((List.takeWhile_sublist _).subset hq)
        have hfrom : (fromNis ops db.record l).map db'.record = (fromNis ops db.record l).map db.record :=
          List.map_congr_left fun q hq => hkeep q ((List.dropWhile_sublist _).subset hq)
        rw [List.map_append,List.map_cons,hbefore,hfrom,hrec,Function.update_self]
  | remove name =>
    rcases commonioRemove_cases hrep name hrun with ⟨hf,_⟩ | ⟨_,hch,xs,p,ys,rfl,hname,hne,hrep',hrec⟩
    · cases hf
    · refine ⟨_,_,hrep',fun hs => by rw [hs]; rfl,⟨xs.map db.record,[db.record p],ys.map db.record,by simp,?_,?_,?_⟩,hch⟩
      · intro q hq
        rw [List.mem_singleton.mp hq]
        exact hname
      · rw [← List.map_append]
        exact hmap _ _ hne
      · show _ = _
        rw [hrec,List.map_append]

theorem Db.Holds.edit (h : db.Holds rs) (hrun : db.edit ops e = (true,db')) (hlinked : EditIsLinked ops db e) :
    ∃ rs', db'.Holds rs' ∧ EditStep ops rs e rs' ∧ db'.changed = true := by
  obtain ⟨l,stale,hrep,rfl⟩ := h
  obtain ⟨l',stale',hrep',_,hstep,hch⟩ := hrep.edit hrun hlinked
  exact ⟨_,⟨l',stale',hrep',rfl⟩,hstep,hch⟩

/-- Where the tail is in the list, every edit is linked. -/
theorem Rep.editIsLinked {l : List Nat} (h : Rep db l false) (e : Edit α) : EditIsLinked ops db e := by
  cases e with
  | update eptr =>
    refine .inr (.inr fun t ht => ?_)
    have htail : db.tail = l.getLast? := h.tail
    rw [h.from_head]
    exact List.mem_of_getLast? (htail.symm.trans ht)
  | remove name => trivial

/-- A whole session of linked edits, from records that some edits led to. -/
theorem Db.Holds.session (h : db.Holds rs) (hedited : Edited ops lines edits rs)
    (hrun : runEdits ops db edits' = some db') (hlinked : EditsAreLinked ops db edits') :
    ∃ rs', db'.Holds rs' ∧ Edited ops lines (edits ++ edits') rs' ∧
      (edits' ≠ [] → db'.isopen = true ∧ db'.readonly = false ∧ db'.changed = true) := by
  induction edits' generalizing db rs edits with
  | nil =>
    cases hrun
    exact ⟨rs,h,by simpa using hedited,fun hne => absurd rfl hne⟩
  | cons e edits' ih =>
    obtain ⟨hlink,hlinked⟩ := hlinked
    unfold runEdits at hrun
    split at hrun
    · rename_i db₁ he
      rw [he] at hlinked
      obtain ⟨rs₁,h₁,hstep,hch⟩ := h.edit he hlink
      have hflags := edit_flags he
      obtain ⟨rs',h',hedited',hopen⟩ := ih h₁ (hedited.step hstep) hrun hlinked
      refine ⟨rs',h',by simpa using hedited',fun _ => ?_⟩
      cases edits' with
      | nil =>
        cases hrun
        exact ⟨hflags.1,hflags.2,hch⟩
      | cons e' edits' => exact hopen (List.cons_ne_nil _ _)
    · cases hrun

end Refinement

section Writing
variable {closeOps : CloseOps α} {write : Nat → Bool} {db : Db α} {l : List Nat} {bytes : Bytes}

/-- The text of lines, each ended by a newline. -/
def fileText (lines : List Bytes) : Bytes := lines.flatMap (· ++ [newline])

/-- A text of lines is read as these lines. -/
theorem fileLines_fileText {lines : List Bytes} (h : ∀ line ∈ lines, newline ∉ line ∧ (0 : UInt8) ∉ line) :
    fileLines (fileText lines) = some lines := by
  have hsplit : (fileText lines).splitOn newline = lines ++ [[]] := splitOn_lines fun line hl => (h line hl).1
  have hzero : (lines.all fun line => !line.contains 0) = true :=
    List.all_eq_true.mpr fun line hline => by simpa using (h line hline).2
  simp only [fileLines,hsplit,List.getLast?_concat,List.dropLast_concat,hzero]
  rfl

/-- Lines that were read hold no separators, and the text is theirs. -/
theorem fileLines_eq_some {lines : List Bytes} (h : fileLines bytes = some lines) :
    bytes = fileText lines ∧ ∀ line ∈ lines, newline ∉ line ∧ (0 : UInt8) ∉ line := by
  unfold fileLines at h
  simp only at h
  split at h
  · rename_i hok
    cases h
    obtain ⟨hlast,hzero⟩ := Bool.and_eq_true_iff.mp hok
    obtain ⟨init,hinit⟩ := List.getLast?_eq_some_iff.mp (of_decide_eq_true hlast)
    have htext := splitOn_separated newline bytes
    rw [hinit,List.flatMap_append] at htext
    refine ⟨?_,fun line hline => ⟨notMem_of_mem_splitOn (List.dropLast_subset _ hline),?_⟩⟩
    · rw [hinit,List.dropLast_concat]
      have htext : fileText init = bytes := by simpa [fileText] using htext
      exact htext.symm
    · simpa using List.all_eq_true.mp hzero line hline
  · cases h

private theorem writeEntry_lines {put : α → Option Bytes} {lineOf : α → Bytes} {e : Entry α}
    (hput : e.changed = true → ∀ a ∈ e.eptr, ∀ bs, put a = some bs → bs = lineOf a ++ [newline])
    (h : writeEntry put e = some bytes) :
    bytes = fileText (writtenLines (fun a => [lineOf a]) e.record) ∧
      (e.changed = true → ∃ a, e.eptr = some a ∧ (put a).isSome) := by
  obtain ⟨line,eptr,prev,next,changed⟩ := e
  cases changed with
  | true =>
    cases eptr with
    | none => cases h
    | some a =>
      have h : put a = some bytes := h
      rw [hput rfl a rfl bytes h]
      exact ⟨by simp [writtenLines,Entry.record,fileText],fun _ => ⟨a,rfl,by rw [h]; rfl⟩⟩
  | false =>
    refine ⟨?_,(by intros; contradiction)⟩
    cases line with
    | none =>
      cases h
      rfl
    | some line =>
      cases h
      exact (splitOn_separated newline line).symm

/-- The written file is the text of the lines of the records. -/
theorem writeAll_lines {lineOf : α → Bytes}
    (hput : ∀ p ∈ l, (db.record p).changed = true → ∀ a ∈ (db.record p).eptr, ∀ bs, closeOps.put a = some bs →
      bs = lineOf a ++ [newline])
    (hl : db.from db.head = l) (h : writeAll closeOps write db = some bytes) :
    bytes = fileText ((l.map db.record).flatMap (writtenLines fun a => [lineOf a])) ∧
      ∀ p ∈ l, (db.record p).changed = true → ∃ a, (db.record p).eptr = some a ∧ (closeOps.put a).isSome := by
  rw [writeAll,hl,Option.map_eq_some_iff] at h
  obtain ⟨parts,hparts,rfl⟩ := h
  clear hl
  induction l generalizing parts with
  | nil =>
    cases hparts
    exact ⟨rfl,nofun⟩
  | cons p l ih =>
    obtain ⟨hp,hl⟩ := List.forall_mem_cons.mp hput
    simp only [List.mapM_cons,Option.bind_eq_bind,Option.bind_eq_some_iff] at hparts
    obtain ⟨part,hpart,rest,hrest,hparts⟩ := hparts
    cases hparts
    split at hpart
    · obtain ⟨rfl,hwritten⟩ := writeEntry_lines hp hpart
      obtain ⟨hrest,hwritten'⟩ := ih hl rest hrest
      refine ⟨?_,List.forall_mem_cons.mpr ⟨hwritten,hwritten'⟩⟩
      rw [List.flatten_cons,hrest,List.map_cons,List.flatMap_cons,fileText,fileText,fileText,List.flatMap_append]
      rfl
    · cases hpart

end Writing

section Files
variable {ops : Ops α} {db db' : Db α}

/-- What opening finds of a file on disk. -/
def fileState : Option Bytes → FileState
  | some bytes => .contents bytes false
  | none => .missing

/-- The lines of a file on disk, a missing one having none. -/
def diskLines : Option Bytes → Option (List Bytes)
  | some bytes => fileLines bytes
  | none => some []

theorem merged_nil : ops.merged [] = [] := by
  unfold Ops.merged
  split <;> simp [mergeRecords]

theorem commonioOpen_refused {access : AccessMode} (h : refusesOpen db access = true) (create : Bool)
    (file : FileState) (memory : Bool) : (commonioOpen ops db access create file memory).1 = false := by
  unfold commonioOpen
  by_cases hopen : (db.isopen || access == .other) = true
  · rw [if_pos hopen]
  · have hlocked : (!(access == .rdonly) && !db.locked) = true := by
      cases access <;> simp_all [refusesOpen]
    simp only [hopen,hlocked,Bool.false_eq_true,if_false,if_true]

/-- A file that could be opened is one of lines, and the list is that of their merged records. -/
theorem commonioOpen_rep {file : Option Bytes} {access : AccessMode} {create memory : Bool}
    (h : commonioOpen ops db access create (fileState file) memory = (true,db')) :
    ∃ lines l, diskLines file = some lines ∧ Rep db' l (lastAbsorbed ops lines) ∧
      l.map db'.record = ops.merged (lines.map (lineRecord ops)) ∧
      refusesOpen db access = false ∧ (file = none → create = true) ∧ db'.isopen = true := by
  have hguard : refusesOpen db access = false := by
    refine Bool.eq_false_iff.mpr fun hrefuse => ?_
    have hf : (commonioOpen ops db access create (fileState file) memory).1 = false :=
      commonioOpen_refused hrefuse create _ memory
    rw [h] at hf
    cases hf
  obtain ⟨hopen,hlocked⟩ := refusesOpen_eq_false hguard
  cases file with
  | none =>
    unfold commonioOpen at h
    simp only [hopen,hlocked,fileState,Bool.false_eq_true,if_false] at h
    cases create with
    | false => cases h
    | true =>
      cases h
      have hlast : lastAbsorbed ops ([] : List Bytes) = false := by
        unfold lastAbsorbed
        cases ops.openHook <;> rfl
      refine ⟨[],[],rfl,?_,?_,hguard,fun _ => rfl,rfl⟩
      · rw [hlast]
        exact Rep.of_empty rfl rfl rfl
      · rw [List.map_nil,List.map_nil,merged_nil]
  | some bytes =>
    have hlines : ∃ lines, fileLines bytes = some lines ∧ memory = true := by
      unfold commonioOpen at h
      simp only [hopen,hlocked,fileState,Bool.false_eq_true,if_false] at h
      cases hlines : fileLines bytes with
      | none =>
        rw [hlines] at h
        cases h
      | some lines =>
        cases memory with
        | false =>
          simp only [hlines] at h
          cases h
        | true => exact ⟨lines,rfl,rfl⟩
    obtain ⟨lines,hlines,rfl⟩ := hlines
    obtain ⟨l',db'',hrun,hrep,hmap,hisopen⟩ := commonioOpen_reads ops hguard create hlines
    cases h.symm.trans hrun
    exact ⟨lines,l',hlines,hrep,hmap,hguard,nofun,hisopen⟩

private theorem commonioOpen_holds {file : Option Bytes} {access : AccessMode} {create memory : Bool}
    (h : commonioOpen ops db access create (fileState file) memory = (true,db')) :
    ∃ lines, diskLines file = some lines ∧ db'.Holds (ops.merged (lines.map (lineRecord ops))) := by
  obtain ⟨lines,l,hlines,hrep,hmap,_⟩ := commonioOpen_rep h
  exact ⟨lines,hlines,l,_,hrep,hmap⟩

/-- A file of lines can be opened in every way that is not refused. -/
theorem commonioOpen_of_lines {file : Option Bytes} {access : AccessMode} {create : Bool} {lines : List Bytes}
    (hguard : refusesOpen db access = false) (hfile : diskLines file = some lines) (hcreate : file = none → create = true) :
    ∃ db', commonioOpen ops db access create (fileState file) true = (true,db') ∧
      db'.Holds (ops.merged (lines.map (lineRecord ops))) := by
  obtain ⟨hopen,hlocked⟩ := refusesOpen_eq_false hguard
  cases file with
  | none =>
    obtain rfl := hcreate rfl
    cases hfile
    refine ⟨{ db with
      readonly := access == .rdonly
      head := none
      tail := none
      cursor := none
      changed := false
      isopen := true },?_,[],false,Rep.of_empty rfl rfl rfl,?_⟩
    · unfold commonioOpen
      simp only [hopen,hlocked,fileState,Bool.false_eq_true,if_false,if_true]
    · rw [List.map_nil,List.map_nil,merged_nil]
  | some bytes =>
    obtain ⟨l',db',hrun,hrep,hmap,_⟩ := commonioOpen_reads ops hguard create hfile
    exact ⟨db',hrun,l',_,hrep,hmap⟩

/-- The entries of one name, in order. -/
def Db.entriesNamed (ops : Ops α) (db : Db α) (name : Bytes) : List α :=
  ((db.from db.head).filterMap fun p => (db.entries p).eptr).filter fun a => ops.getname a == name

theorem Db.Holds.entriesNamed {rs : List (Record α)} (h : db.Holds rs) (name : Bytes) :
    db.entriesNamed ops name = (named ops name rs).filterMap Record.eptr := by
  obtain ⟨l,stale,hrep,rfl⟩ := h
  rw [Db.entriesNamed,hrep.from_head]
  clear hrep
  induction l with
  | nil => rfl
  | cons p l ih =>
    have hentry : (db.entries p).eptr = (db.record p).eptr := rfl
    rw [List.filterMap_cons,List.map_cons,named,List.filter_cons,hentry]
    cases ha : (db.record p).eptr with
    | none =>
      have hname : (db.record p).name ops = none := by rw [Record.name,ha]; rfl
      simpa [hname,named] using ih
    | some a =>
      have hname : (db.record p).name ops = some (ops.getname a) := by rw [Record.name,ha]; rfl
      simp only [hname,List.filter_cons]
      by_cases heq : ops.getname a = name
      · simpa [heq,ha,named] using ih
      · simpa [heq,named] using ih

/-- The writing of entries that are `accepted`: the file is the text of the lines of the
records, and these lines are read back. -/
def WritesBack (ops : Ops α) (closeOps : CloseOps α) (accepted : α → Prop) (entryLines : α → List Bytes) : Prop :=
  ∀ (db : Db α) (rs : List (Record α)) (write : Nat → Bool) (db' : Db α) (bytes : Bytes), db.Holds rs →
    (∀ r ∈ rs, r.changed = true → ∀ a ∈ r.eptr, accepted a) → closeOps.closeHook db = some db' →
    writeAll closeOps write db' = some bytes →
      bytes = fileText (rs.flatMap (writtenLines entryLines)) ∧
        ∀ r ∈ rs, r.changed = true → ∀ a ∈ r.eptr,
          Rereads ops entryLines a ∧ ∀ line ∈ entryLines a, newline ∉ line ∧ (0 : UInt8) ∉ line

/-- What opening a file again finds of the edits of a session. -/
def Db.Finds (ops : Ops α) (edits : List (Edit α)) (db : Db α) : Prop :=
  (∀ name a, lastEdit ops name edits = some (.update a) → db.entriesNamed ops name = [a]) ∧
    ∀ name name', lastEdit ops name edits = some (.remove name') → db.entriesNamed ops name = []

theorem Db.Holds.withClosed {rs : List (Record α)} (h : db.Holds rs) : Db.Holds { db with isopen := false } rs := by
  obtain ⟨l,stale,hrep,hmap⟩ := h
  exact ⟨l,stale,hrep.withFlags db.changed false db.readonly db.locked,hmap⟩

/-- A session that closes well: the written file has the lines that no edit was about, and
opening it again finds what was stored last. -/
theorem session_rereads (hparts : ops.NamesParts) {closeOps : CloseOps α} {accepted : α → Prop}
    {entryLines : α → List Bytes} (hwrites : WritesBack ops closeOps accepted entryLines) {db₀ db₁ db₂ : Db α}
    {selinux : Bool} {steps : CloseSteps} {disk : Disk} {access : AccessMode} {create memory : Bool}
    {edits : List (Edit α)}
    (hopen : commonioOpen ops db₀ access create (fileState disk.file) memory = (true,db₁))
    (hedits : runEdits ops db₁ edits = some db₂) (haccepted : ∀ a, Edit.update a ∈ edits → accepted a)
    (hlinked : EditsAreLinked ops db₁ edits)
    (hclose : (commonioClose selinux closeOps steps db₂ disk.file disk).1 = true) :
    ∃ lines lines', diskLines disk.file = some lines ∧
      diskLines (commonioClose selinux closeOps steps db₂ disk.file disk).2.2.file = some lines' ∧
      (lines'.filter (untouched ops edits)).Perm (lines.filter (untouched ops edits)) ∧
      ∀ (db : Db α) (access : AccessMode) (create : Bool), refusesOpen db access = false →
        ((commonioClose selinux closeOps steps db₂ disk.file disk).2.2.file = none → create = true) →
        ∃ db', commonioOpen ops db access create
          (fileState (commonioClose selinux closeOps steps db₂ disk.file disk).2.2.file) true = (true,db') ∧
            db'.Finds ops edits := by
  obtain ⟨lines,hlines,hholds⟩ := commonioOpen_holds hopen
  have hplain : ∀ line ∈ lines, newline ∉ line ∧ (0 : UInt8) ∉ line := by
    cases hfile : disk.file with
    | none =>
      rw [hfile] at hlines
      cases hlines
      exact nofun
    | some bytes =>
      rw [hfile] at hlines
      exact (fileLines_eq_some hlines).2
  have hinitial := Edited.initial hparts fun line hline => (hplain line hline).1
  obtain ⟨rs,hrs,hedited,hflags⟩ := hholds.session hinitial hedits hlinked
  rw [List.nil_append] at hedited
  have hisopen : db₂.isopen = true := by
    cases hopen : db₂.isopen with
    | true => rfl
    | false => simp [commonioClose,hopen] at hclose
  -- what is found again only depends on the lines and on the records that they are read as
  have hreopen : ∀ (file : Option Bytes) (lines' : List Bytes), diskLines file = some lines' →
      (∀ name a, lastEdit ops name edits = some (.update a) → ∃ r,
        named ops name (ops.merged (lines'.map (lineRecord ops))) = [r] ∧ r.eptr = some a) →
      (∀ name name', lastEdit ops name edits = some (.remove name') →
        named ops name (ops.merged (lines'.map (lineRecord ops))) = []) →
      ∀ (db : Db α) (access : AccessMode) (create : Bool), refusesOpen db access = false →
        (file = none → create = true) →
        ∃ db', commonioOpen ops db access create (fileState file) true = (true,db') ∧ db'.Finds ops edits := by
    intro file lines' hfile hupdated hremoved db access create hguard hcreate
    obtain ⟨db',hrun,hholds'⟩ := commonioOpen_of_lines hguard hfile hcreate
    refine ⟨db',hrun,fun name a hlast => ?_,fun name name' hlast => ?_⟩
    · obtain ⟨r,hr,ha⟩ := hupdated name a hlast
      rw [hholds'.entriesNamed,hr,List.filterMap_cons,ha]
      rfl
    · rw [hholds'.entriesNamed,hremoved name name' hlast]
      rfl
  by_cases hwrite : db₂.changed = true ∧ db₂.readonly = false
  · rcases commonioClose_cases selinux closeOps steps db₂ disk.file disk hisopen hwrite.1 hwrite.2 with
      ⟨hf,_⟩ | ⟨db₃,bytes,hhook,hall,_,hdisk⟩
    · rw [hf] at hclose
      cases hclose
    · have hacc : ∀ r ∈ rs, r.changed = true → ∀ a ∈ r.eptr, accepted a := fun r hr hch a ha => by
        obtain ⟨b,hb,hlast⟩ := hedited.changed r hr hch
        cases hb.symm.trans ha
        exact haccepted a (List.mem_filter.mp (List.mem_of_getLast? hlast)).1
      obtain ⟨hbytes,hback⟩ := hwrites _ rs steps.write db₃ bytes hrs.withClosed hacc hhook hall
      obtain ⟨hupdated,hremoved,hkept⟩ := hedited.reopened hparts fun r hr hch a ha => (hback r hr hch a ha).1
      have hlines' : diskLines (commonioClose selinux closeOps steps db₂ disk.file disk).2.2.file =
          some (rs.flatMap (writtenLines entryLines)) := by
        rw [hdisk,hbytes]
        refine fileLines_fileText fun line hline => ?_
        obtain ⟨r,hr,hline⟩ := List.mem_flatMap.mp hline
        unfold writtenLines at hline
        split at hline
        · rename_i hch
          cases ha : r.eptr with
          | none =>
            rw [ha] at hline
            cases hline
          | some a =>
            rw [ha] at hline
            exact (hback r hr hch a ha).2 line hline
        · rename_i hch
          have hkept : r ∈ rs.filter fun r => !r.changed := List.mem_filter.mpr ⟨hr,by simpa using hch⟩
          have hmem := hedited.kept.mem_iff.mp (List.mem_flatMap.mpr ⟨r,hkept,hline⟩)
          exact hplain line (List.mem_filter.mp hmem).1
      exact ⟨lines,_,hlines,hlines',hkept,hreopen _ _ hlines' hupdated hremoved⟩
  · have hnil : edits = [] := by
      refine Classical.byContradiction fun hne => hwrite ?_
      obtain ⟨_,hro,hch⟩ := hflags hne
      exact ⟨hch,hro⟩
    have hdisk : (commonioClose selinux closeOps steps db₂ disk.file disk).2.2 = disk := by
      have hskip : (!db₂.changed || db₂.readonly) = true := by
        cases hch : db₂.changed <;> cases hro : db₂.readonly <;> simp_all
      unfold commonioClose
      simp only [hisopen,hskip,Bool.not_true,Bool.false_eq_true,if_false,if_true]
    subst hnil
    rw [hdisk]
    exact ⟨lines,lines,hlines,hlines,List.Perm.refl _,hreopen _ _ hlines nofun nofun⟩

end Files

end UserDb.Commonio
