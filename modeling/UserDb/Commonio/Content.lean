import UserDb.Commonio.Session

/-! What a file holds, entry by entry: what opening it gives, what the calls make of it, and
what is found again when the written file is read. -/
namespace UserDb.Commonio
open UserDb.Base UserDb.Base.LinkedList

variable {α : Type}

/-- The records of a file on disk, the parts of an entry put together. -/
def readFile (ops : Ops α) (file : Option Bytes) : Option (List (Record α)) :=
  (diskLines file).map fun lines => ops.merged (lines.map (lineRecord ops))

/-- A line as it stands in a text file. -/
def IsLine (line : Bytes) : Prop := newline ∉ line ∧ (0 : UInt8) ∉ line

/-- A record that was read: its own lines are read as this record. -/
structure IsRead (ops : Ops α) (r : Record α) : Prop where
  lines : ∀ line ∈ recordLines r, IsLine line
  merged : ops.merged ((recordLines r).map (lineRecord ops)) = [r]
  named : ∀ line ∈ recordLines r, lineName ops line = r.name ops

/-- A database whose records were read from a file, or hold an entry that was stored. -/
structure Loaded (ops : Ops α) (db : Db α) (l : List Nat) (stale : Bool) : Prop where
  rep : Rep db l stale
  read : ∀ r ∈ l.map db.record, r.changed = false → IsRead ops r
  stored : ∀ r ∈ l.map db.record, r.changed = true → r.eptr.isSome

/-- The entry of a name: the first one. -/
def lookup (ops : Ops α) (rs : List (Record α)) (name : Bytes) : Option α :=
  (rs.find? fun r => r.name ops == some name).bind Record.eptr

section Reading
variable {ops : Ops α}

theorem lookup_eq (rs : List (Record α)) (name : Bytes) :
    lookup ops rs name = (named ops name rs).head?.bind Record.eptr := by
  rw [lookup,named,List.head?_filter]

/-- An entry that is found has the name, and stands in a record. -/
theorem lookup_eq_some {rs : List (Record α)} {name : Bytes} {a : α} (h : lookup ops rs name = some a) :
    ∃ r ∈ rs, r.eptr = some a ∧ ops.getname a = name := by
  obtain ⟨r,hfind,ha⟩ := Option.bind_eq_some_iff.mp h
  have hname : r.name ops = some name := by simpa using List.find?_some hfind
  rw [Record.name,ha,Option.map_some,Option.some.injEq] at hname
  exact ⟨r,List.mem_of_find?_eq_some hfind,ha,hname⟩

theorem diskLines_isLine {file : Option Bytes} {lines : List Bytes} (h : diskLines file = some lines) :
    ∀ line ∈ lines, IsLine line := by
  cases file with
  | none =>
    cases h
    exact nofun
  | some bytes => exact (fileLines_eq_some h).2

/-- The first field of a line starts like the line. -/
theorem firstField_notNis {line name : Bytes} {rest : List Bytes} (hnis : nameIsNis line = false)
    (hsplit : line.splitOn colon = name :: rest) : nameIsNis name = false := by
  have hline : [colon].intercalate (line.splitOn colon) = line := List.intercalate_splitOn colon
  rw [hsplit] at hline
  cases name with
  | nil => rfl
  | cons b name =>
    rw [← hline] at hnis
    cases rest <;> exact hnis

theorem fieldsLine_notNis (name second : Bytes) (rest : List Bytes) :
    nameIsNis ([colon].intercalate (name :: second :: rest)) = nameIsNis name := by
  rw [List.intercalate_cons_cons]
  cases name <;> rfl

theorem zero_notMem_fieldsLine {fields : List Bytes} (h : ∀ field ∈ fields, (0 : UInt8) ∉ field) :
    (0 : UInt8) ∉ [colon].intercalate fields := by
  intro hz
  rcases mem_intercalate hz with hc | ⟨field,hf,hz⟩
  · exact absurd hc (by decide)
  · exact h field hf hz

theorem takeWhile_line {line : Bytes} (h : IsLine line) : line.takeWhile (· != newline) = line :=
  List.takeWhile_eq_self_iff.mpr fun b hb => by simpa using ne_of_mem_of_not_mem hb h.1

/-- An entry that is read comes from its line, which is no NIS line. -/
theorem lineRecord_eptr {line : Bytes} {a : α} (h : (lineRecord ops line).eptr = some a) :
    nameIsNis line = false ∧ ops.parse line = some a := by
  have heptr : (if nameIsNis line then none else ops.parse line) = some a := h
  split at heptr
  · cases heptr
  · rename_i hnis
    exact ⟨by simpa using hnis,heptr⟩

/-- What holds of the entry of every line, and is kept when parts are put together, holds of
the entry of a record that was read. -/
theorem IsRead.entry {r : Record α} (h : IsRead ops r) {P : α → Prop}
    (hline : ∀ line a, IsLine line → nameIsNis line = false → ops.parse line = some a → P a)
    (hmerge : ∀ split, ops.openHook = some split → ∀ a b, P a → P b → P (split.merge a b)) {a : α}
    (ha : r.eptr = some a) : P a := by
  have hsingle : ∀ q ∈ (recordLines r).map (lineRecord ops), ∀ a, q.eptr = some a → P a := fun q hq a ha => by
    obtain ⟨line,hl,rfl⟩ := List.mem_map.mp hq
    obtain ⟨hnis,hparse⟩ := lineRecord_eptr ha
    exact hline line a (h.lines line hl) hnis hparse
  have hall : ∀ q ∈ ops.merged ((recordLines r).map (lineRecord ops)), ∀ a, q.eptr = some a → P a := by
    unfold Ops.merged
    cases hook : ops.openHook with
    | none => exact hsingle
    | some split =>
      refine mergeRecords_forall fun first hfirst qs hqs => ?_
      have hr := hsingle first hfirst
      clear hfirst
      induction qs generalizing first with
      | nil => exact hr
      | cons q qs ih =>
        obtain ⟨hq,hqs⟩ := List.forall_mem_cons.mp hqs
        refine ih (absorbRecord split first q) hqs fun a ha => ?_
        cases hs : samePart split first q with
        | false =>
          rw [absorbRecord_of_not hs] at ha
          exact hr a ha
        | true =>
          obtain ⟨g₁,g₂,h₁,h₂,hs⟩ := samePart_iff.mp hs
          rw [absorbRecord_of_same h₁ h₂ hs] at ha
          cases ha
          exact hmerge split hook g₁ g₂ (hr g₁ h₁) (hsingle q hq g₂ h₂)
  refine hall r ?_ a ha
  rw [h.merged]
  exact List.mem_singleton_self r

/-- Records of single lines are read from these lines. -/
theorem flatMap_recordLines {qs : List (Record α)} (h : ∀ q ∈ qs, ∃ line, IsLine line ∧ q = lineRecord ops line) :
    (qs.flatMap recordLines).map (lineRecord ops) = qs ∧ ∀ line ∈ qs.flatMap recordLines, IsLine line := by
  induction qs with
  | nil => exact ⟨rfl,nofun⟩
  | cons q qs ih =>
    obtain ⟨⟨line,hline,rfl⟩,hqs⟩ := List.forall_mem_cons.mp h
    obtain ⟨hmap,hlines⟩ := ih hqs
    rw [List.flatMap_cons,recordLines_lineRecord hline.1,List.singleton_append,List.map_cons,hmap]
    exact ⟨rfl,List.forall_mem_cons.mpr ⟨hline,hlines⟩⟩

/-- Every record of a file was read from lines of its own. -/
theorem merged_isRead (hparts : ops.NamesParts) {lines : List Bytes} (hlines : ∀ line ∈ lines, IsLine line) :
    ∀ r ∈ ops.merged (lines.map (lineRecord ops)), IsRead ops r ∧ r.changed = false := by
  have hsingle : ∀ q ∈ lines.map (lineRecord ops), ∃ line, IsLine line ∧ q = lineRecord ops line := fun q hq => by
    obtain ⟨line,hline,rfl⟩ := List.mem_map.mp hq
    exact ⟨line,hlines line hline,rfl⟩
  unfold Ops.merged
  cases hook : ops.openHook with
  | none =>
    intro r hr
    obtain ⟨line,hline,rfl⟩ := hsingle r hr
    have hown : recordLines (lineRecord ops line) = [line] := recordLines_lineRecord hline.1
    refine ⟨⟨?_,?_,?_⟩,rfl⟩
    · rw [hown]
      exact List.forall_mem_cons.mpr ⟨hline,nofun⟩
    · rw [hown,Ops.merged,hook]
      rfl
    · rw [hown]
      exact List.forall_mem_cons.mpr ⟨rfl,nofun⟩
  | some split =>
    refine mergeRecords_forall fun r hr qs hqs => ?_
    obtain ⟨line,hline,rfl⟩ := hsingle r hr
    have hown : recordLines (lineRecord ops line) = [line] := recordLines_lineRecord hline.1
    have hqs : ∀ q ∈ qs, ∃ line, IsLine line ∧ q = lineRecord ops line := fun q hq => hsingle q (hqs q hq)
    -- the parts among the others are what the record takes in
    set parts := qs.filter (samePart split (lineRecord ops line))
    have hparts' : ∀ q ∈ parts, ∃ line, IsLine line ∧ q = lineRecord ops line :=
      fun q hq => hqs q (List.mem_filter.mp hq).1
    have hfold : qs.foldl (absorbRecord split) (lineRecord ops line) = parts.foldl (absorbRecord split) (lineRecord ops line) :=
      foldl_absorbRecord_filter _ fun q _ hq => hq
    obtain ⟨_,hlines'⟩ := foldl_absorbRecord split (r := lineRecord ops line) rfl fun q hq => by
      obtain ⟨line',_,rfl⟩ := hqs q hq
      rfl
    obtain ⟨hmap,hplain⟩ := flatMap_recordLines hparts'
    have hname : (qs.foldl (absorbRecord split) (lineRecord ops line)).name ops = (lineRecord ops line).name ops :=
      foldl_absorbRecord_name hook hparts
    rw [hown] at hlines'
    refine ⟨⟨?_,?_,?_⟩,foldl_absorbRecord_changed⟩
    · rw [hlines']
      exact List.forall_mem_cons.mpr ⟨hline,hplain⟩
    · rw [hlines',List.singleton_append,List.map_cons,hmap,Ops.merged,hook]
      simp only
      rw [mergeRecords,List.filter_eq_nil_iff.mpr,mergeRecords,hfold]
      intro q hq
      simp [(List.mem_filter.mp hq).2]
    · rw [hlines',hname]
      refine List.forall_mem_cons.mpr ⟨rfl,fun line' hline' => ?_⟩
      obtain ⟨q,hq,hm⟩ := List.mem_flatMap.mp hline'
      obtain ⟨line'',hline'',rfl⟩ := hparts' q hq
      rw [recordLines_lineRecord hline''.1,List.mem_singleton] at hm
      subst hm
      exact (name_of_samePart hook hparts (List.mem_filter.mp hq).2).symm

/-- What is read of a file was read from its lines, and nothing in it is changed. -/
theorem readFile_isRead (hparts : ops.NamesParts) {file : Option Bytes} {rs : List (Record α)}
    (h : readFile ops file = some rs) : ∀ r ∈ rs, IsRead ops r ∧ r.changed = false := by
  obtain ⟨lines,hlines,rfl⟩ := Option.map_eq_some_iff.mp h
  exact merged_isRead hparts (diskLines_isLine hlines)

theorem namesParts_of_no_hook (hook : ops.openHook = none) : ops.NamesParts :=
  ⟨fun _ h => (nomatch hook.symm.trans h),fun _ h => (nomatch hook.symm.trans h)⟩

end Reading

section Opening
variable {ops : Ops α} {db : Db α}

/-- Whether a database is changed, and whether it is for reading only. -/
def Db.flags (db : Db α) : Bool × Bool := (db.changed,db.readonly)

theorem Db.SameFrame.flags {db db' : Db α} (h : db.SameFrame db') : db'.flags = db.flags := Prod.ext h.changed h.readonly

private theorem addLine_flags (ops : Ops α) (db : Db α) (line : Bytes) : (db.addLine ops line).flags = db.flags := by
  rw [Db.addLine,addOneEntry_eq]
  exact (setNextAt_shell _ _ _).flags

private theorem addLines_flags (ops : Ops α) (db : Db α) (lines : List Bytes) :
    (lines.foldl (Db.addLine ops) db).flags = db.flags := by
  induction lines generalizing db with
  | nil => rfl
  | cons line lines ih => rw [List.foldl_cons,ih,addLine_flags]

private theorem absorb_flags (split : SplitEntries α) (db : Db α) (p q : Nat) : (db.absorb split p q).flags = db.flags := by
  unfold Db.absorb
  split
  · split
    · exact (setNextAt_shell _ _ _).flags.trans (setPrevAt_shell _ _ _).flags
    · rfl
  · rfl

private theorem absorbFrom_flags (split : SplitEntries α) (p fuel : Nat) (pos : Option Nat) (db : Db α) :
    (db.absorbFrom split p fuel pos).flags = db.flags := by
  induction fuel generalizing pos db with
  | zero => rfl
  | succ fuel ih =>
    cases pos with
    | none => rfl
    | some q => rw [Db.absorbFrom,ih,absorb_flags]

private theorem mergeFrom_flags (split : SplitEntries α) (fuel : Nat) (pos : Option Nat) (db : Db α) :
    (db.mergeFrom split fuel pos).flags = db.flags := by
  induction fuel generalizing pos db with
  | zero => rfl
  | succ fuel ih =>
    cases pos with
    | none => rfl
    | some p => rw [Db.mergeFrom,ih,absorbFrom_flags]

/-- What was just opened has not been changed, and is for reading as it was asked for. -/
theorem commonioOpen_flags {db₀ : Db α} {access : AccessMode} {create memory : Bool} {file : FileState}
    (h : commonioOpen ops db₀ access create file memory = (true,db)) : db.flags = (false,access == .rdonly) := by
  unfold commonioOpen at h
  split at h
  · cases h
  · simp only at h
    split at h
    · cases h
    · cases file with
      | missing =>
        cases create with
        | false => cases h
        | true =>
          cases h
          rfl
      | unavailable => cases h
      | contents bytes readError =>
        simp only at h
        split at h
        · cases h
        · split at h
          · cases h
          · cases h
            unfold Db.runOpenHook
            split
            · exact (mergeFrom_flags _ _ _ _).trans (addLines_flags ops _ _)
            · exact addLines_flags ops _ _

/-- Opening a file gives the records of the file. -/
theorem commonioOpen_loaded (hparts : ops.NamesParts) {db₀ : Db α} {file : Option Bytes} {access : AccessMode}
    {create memory : Bool} (h : commonioOpen ops db₀ access create (fileState file) memory = (true,db)) :
    ∃ l stale, readFile ops file = some (l.map db.record) ∧ Loaded ops db l stale ∧ db.isopen = true ∧
      (ops.openHook = none → stale = false) := by
  obtain ⟨lines,l,hlines,hrep,hmap,_,_,hisopen⟩ := commonioOpen_rep h
  have hread : readFile ops file = some (l.map db.record) := by
    rw [readFile,hlines,hmap]
    rfl
  refine ⟨l,lastAbsorbed ops lines,hread,⟨hrep,fun r hr _ => (readFile_isRead hparts hread r hr).1,fun r hr hch => ?_⟩,
    hisopen,fun hook => by rw [lastAbsorbed,hook]⟩
  rw [(readFile_isRead hparts hread r hr).2] at hch
  cases hch

/-- A file of lines can be opened, and gives its records. -/
theorem commonioOpen_of_readFile (hparts : ops.NamesParts) {db₀ : Db α} {file : Option Bytes} {access : AccessMode}
    {create : Bool} {rs : List (Record α)} (hguard : refusesOpen db₀ access = false)
    (hfile : readFile ops file = some rs) (hcreate : file = none → create = true) :
    ∃ db l stale, commonioOpen ops db₀ access create (fileState file) true = (true,db) ∧ Loaded ops db l stale ∧
      l.map db.record = rs ∧ db.isopen = true := by
  obtain ⟨lines,hlines,rfl⟩ := Option.map_eq_some_iff.mp hfile
  obtain ⟨db,hrun⟩ : ∃ db, commonioOpen ops db₀ access create (fileState file) true = (true,db) :=
    (commonioOpen_of_lines hguard hlines hcreate).imp fun _ h => h.1
  obtain ⟨l,stale,hread,hloaded,hisopen,_⟩ := commonioOpen_loaded hparts hrun
  exact ⟨db,l,stale,hrun,hloaded,Option.some.inj (hread.symm.trans hfile),hisopen⟩

end Opening

section Calls
variable {ops : Ops α} {db db' : Db α} {l xs ys : List Nat} {stale : Bool}

theorem Loaded.congr (h : Loaded ops db l stale) (hrep : Rep db' l stale) (hrec : db'.record = db.record) :
    Loaded ops db' l stale :=
  ⟨hrep,hrec ▸ h.read,hrec ▸ h.stored⟩

/-- An edit of a loaded database is one of its records. -/
theorem Loaded.edit (h : Loaded ops db l stale) {e : Edit α} (hrun : db.edit ops e = (true,db'))
    (hlinked : EditIsLinked ops db e) :
    ∃ l' stale', Loaded ops db' l' stale' ∧ (stale = false → stale' = false) ∧
      EditStep ops (l.map db.record) e (l'.map db'.record) ∧ db'.changed = true := by
  obtain ⟨l',stale',hrep,hstale,hstep,hch⟩ := h.rep.edit hrun hlinked
  obtain ⟨xs,old,new,ys,hrs,hrs',_,_,hnew,_⟩ := hstep.cases
  have hmem : ∀ r ∈ l'.map db'.record, r ∈ l.map db.record ∨ r ∈ new := fun r hr => by
    rw [hrs]
    rw [hrs'] at hr
    simp only [List.mem_append] at hr ⊢
    tauto
  refine ⟨l',stale',⟨hrep,fun r hr hread => ?_,fun r hr hstored => ?_⟩,hstale,hstep,hch⟩
  · rcases hmem r hr with hr | hr
    · exact h.read r hr hread
    · rw [(hnew r hr).1] at hread
      cases hread
  · rcases hmem r hr with hr | hr
    · exact h.stored r hr hstored
    · obtain ⟨_,a,_,ha⟩ := hnew r hr
      rw [ha]
      rfl

theorem Loaded.locate (h : Loaded ops db l stale) (hopen : db.isopen = true) (name : Bytes) :
    (commonioLocate ops db name).1 = lookup ops (l.map db.record) name := by
  unfold commonioLocate lookup
  rw [if_neg (by simp [hopen]),h.rep.findEntryByName,List.find?_map]
  cases hfind : l.find? fun p => (db.record p).name ops == some name with
  | none =>
    have hfind' : l.find? ((fun r => r.name ops == some name) ∘ db.record) = none := hfind
    rw [hfind']
    rfl
  | some p =>
    have hfind' : l.find? ((fun r => r.name ops == some name) ∘ db.record) = some p := hfind
    rw [hfind']
    rfl

theorem Loaded.found (h : Loaded ops db l stale) {name : Bytes} {a : α} (ha : lookup ops (l.map db.record) name = some a) :
    (db.findEntryByName ops name).isSome = true := by
  obtain ⟨r,hr,hra,hname⟩ := lookup_eq_some ha
  obtain ⟨p,hp,rfl⟩ := List.mem_map.mp hr
  rw [h.rep.findEntryByName,List.find?_isSome]
  exact ⟨p,hp,by simp [Record.name,hra,hname]⟩

/-- An update that succeeds had its memory. -/
theorem edit_of_update {a : α} {memory : Bool} (h : commonioUpdate ops db a memory = (true,db')) :
    db.edit ops (.update a) = (true,db') := by
  cases memory with
  | true => exact h
  | false =>
    unfold commonioUpdate at h
    split at h
    · cases h
    · split at h <;> cases h

/-- Looking up an entry leaves all but the cursor as it is. -/
theorem commonioLocate_db (db : Db α) (name : Bytes) : ∃ cursor, (commonioLocate ops db name).2 = { db with cursor := cursor } := by
  unfold commonioLocate
  split
  · exact ⟨db.cursor,rfl⟩
  · split
    · exact ⟨db.cursor,rfl⟩
    · exact ⟨_,rfl⟩

/-- The cursor on the last entry of a first stretch: the next one that parsed is in the rest. -/
theorem Chain.next (h : Chain db (xs ++ ys)) (hcursor : db.cursor = xs.getLast?) (hopen : db.isopen = true) :
    ((∀ q ∈ ys, (db.record q).eptr = none) ∧ commonioNext db = (none,{ db with cursor := none })) ∨
      ∃ us p vs a, ys = us ++ p :: vs ∧ (∀ q ∈ us, (db.record q).eptr = none) ∧ (db.record p).eptr = some a ∧
        commonioNext db = (some a,{ db with cursor := some p }) := by
  have hfrom : db.from (db.cursor.elim db.head db.nextOf) = ys := by
    cases hlast : xs.getLast? with
    | none =>
      rw [List.getLast?_eq_none_iff.mp hlast,List.nil_append] at h
      rw [hcursor,hlast]
      exact h.from_head
    | some p =>
      obtain ⟨zs,rfl⟩ := List.getLast?_eq_some_iff.mp hlast
      rw [List.append_assoc,List.singleton_append] at h
      rw [hcursor,hlast]
      exact h.from_next
  have hnext : commonioNext db = ((ys.find? fun p => (db.record p).eptr.isSome).bind fun p => (db.record p).eptr,
      { db with cursor := ys.find? fun p => (db.record p).eptr.isSome }) := by
    rw [← hfrom]
    unfold commonioNext
    rw [if_neg (by simp [hopen])]
    cases db.cursor <;> rfl
  rw [hnext]
  cases hfind : ys.find? fun p => (db.record p).eptr.isSome with
  | none => exact .inl ⟨fun q hq => by simpa using List.find?_eq_none.mp hfind q hq,rfl⟩
  | some p =>
    obtain ⟨us,vs,rfl,hus,hp⟩ := find?_split hfind
    obtain ⟨a,ha⟩ := Option.isSome_iff_exists.mp hp
    exact .inr ⟨us,p,vs,a,rfl,fun q hq => by simpa using hus q hq,ha,by simp [ha]⟩

end Calls

section Writing
variable {ops : Ops α} {closeOps : CloseOps α} {accepted good : α → Prop} {entryLines : α → List Bytes}

/-- Closing writes the lines of the records, and for entries that are `accepted` these are
lines of the file that the checks of the writer made `good`. -/
def WritesLines (closeOps : CloseOps α) (accepted good : α → Prop) (entryLines : α → List Bytes) : Prop :=
  ∀ (db : Db α) (rs : List (Record α)) (write : Nat → Bool) (db' : Db α) (bytes : Bytes), db.Holds rs →
    (∀ r ∈ rs, r.changed = true → ∀ a ∈ r.eptr, accepted a) → closeOps.closeHook db = some db' →
    writeAll closeOps write db' = some bytes →
      bytes = fileText (rs.flatMap (writtenLines entryLines)) ∧
        ∀ r ∈ rs, r.changed = true → ∀ a ∈ r.eptr, good a ∧ ∀ line ∈ entryLines a, IsLine line

/-- Entries that are written as one line each. -/
theorem plainCloseOps_writesLines {put : α → Option Bytes} {lineOf : α → Bytes}
    (hput : ∀ a bs, accepted a → put a = some bs → bs = lineOf a ++ [newline] ∧ IsLine (lineOf a) ∧ good a) :
    WritesLines (plainCloseOps put) accepted good fun a => [lineOf a] := by
  intro db rs write db' bytes hdb haccepted hhook hall
  cases hhook
  obtain ⟨l,stale,hrep,rfl⟩ := hdb
  have hacc : ∀ p ∈ l, (db.record p).changed = true → ∀ a ∈ (db.record p).eptr, accepted a :=
    fun p hp => haccepted _ (List.mem_map_of_mem hp)
  obtain ⟨hbytes,hwritten⟩ := writeAll_lines
    (fun p hp hch a ha bs hbs => (hput a bs (hacc p hp hch a ha) hbs).1) hrep.from_head hall
  refine ⟨hbytes,fun r hr hch a ha => ?_⟩
  obtain ⟨p,hp,rfl⟩ := List.mem_map.mp hr
  obtain ⟨a',ha',hsome⟩ := hwritten p hp hch
  cases ha'.symm.trans ha
  obtain ⟨bs,hbs⟩ := Option.isSome_iff_exists.mp hsome
  obtain ⟨_,hline,hgood⟩ := hput a bs (hacc p hp hch a ha) hbs
  exact ⟨hgood,List.forall_mem_cons.mpr ⟨hline,nofun⟩⟩

/-- The lines of the records are the lines of the file that is written. -/
theorem Loaded.diskLines_written {db : Db α} {l : List Nat} {stale : Bool} (h : Loaded ops db l stale)
    (hlines : ∀ r ∈ l.map db.record, r.changed = true → ∀ a ∈ r.eptr, ∀ line ∈ entryLines a, IsLine line) :
    diskLines (some (fileText ((l.map db.record).flatMap (writtenLines entryLines)))) =
      some ((l.map db.record).flatMap (writtenLines entryLines)) := by
  refine fileLines_fileText fun line hline => ?_
  obtain ⟨r,hr,hline⟩ := List.mem_flatMap.mp hline
  unfold writtenLines at hline
  split at hline
  · rename_i hch
    obtain ⟨a,ha⟩ := Option.isSome_iff_exists.mp (h.stored r hr hch)
    rw [ha] at hline
    exact hlines r hr hch a ha line hline
  · rename_i hch
    exact (h.read r hr (by simpa using hch)).lines line hline

/-- Closing a loaded database that was changed: the lines of the file. -/
theorem Loaded.close (hwrites : WritesLines closeOps accepted good entryLines) {db : Db α} {l : List Nat} {stale : Bool}
    (h : Loaded ops db l stale) (haccepted : ∀ r ∈ l.map db.record, r.changed = true → ∀ a ∈ r.eptr, accepted a)
    {selinux : Bool} {steps : CloseSteps} {old : Option Bytes} {disk : Disk} (hopen : db.isopen = true)
    (hch : db.changed = true) (hro : db.readonly = false)
    (hclose : (commonioClose selinux closeOps steps db old disk).1 = true) :
    diskLines (commonioClose selinux closeOps steps db old disk).2.2.file =
        some ((l.map db.record).flatMap (writtenLines entryLines)) ∧
      ∀ r ∈ l.map db.record, r.changed = true → ∀ a ∈ r.eptr, good a := by
  rcases commonioClose_cases selinux closeOps steps db old disk hopen hch hro with
    ⟨hf,_⟩ | ⟨db₁,bytes,hhook,hall,_,hdisk⟩
  · rw [hf] at hclose
    cases hclose
  · have hholds : Db.Holds { db with isopen := false } (l.map db.record) := Db.Holds.withClosed ⟨l,stale,h.rep,rfl⟩
    obtain ⟨hbytes,hgood⟩ := hwrites _ _ _ _ _ hholds haccepted hhook hall
    refine ⟨?_,fun r hr hch a ha => (hgood r hr hch a ha).1⟩
    rw [hdisk,hbytes]
    exact h.diskLines_written fun r hr hch a ha => (hgood r hr hch a ha).2

end Writing

section Rereading
variable {ops : Ops α} {R : α → α → Prop} {entryLines : α → List Bytes} {rs : List (Record α)}

/-- Lines from which an entry is read back as one that is like it, and nothing else under its name. -/
def RereadsAs (ops : Ops α) (R : α → α → Prop) (entryLines : α → List Bytes) (a : α) : Prop :=
  (∀ line ∈ entryLines a, lineName ops line = some (ops.getname a)) ∧
    ∃ r b, ops.merged ((entryLines a).map (lineRecord ops)) = [r] ∧ r.eptr = some b ∧ R a b

/-- The records of one name in a written file are those of the lines that stand for the name. -/
theorem named_written (hparts : ops.NamesParts) (hread : ∀ r ∈ rs, r.changed = false → IsRead ops r)
    (hstored : ∀ r ∈ rs, r.changed = true → ∃ a, r.eptr = some a ∧ RereadsAs ops R entryLines a) (name : Bytes) :
    named ops name (ops.merged ((rs.flatMap (writtenLines entryLines)).map (lineRecord ops))) =
      ops.merged (((named ops name rs).flatMap (writtenLines entryLines)).map (lineRecord ops)) := by
  have hnames : ∀ r ∈ rs, ∀ line ∈ writtenLines entryLines r, lineName ops line = r.name ops := by
    intro r hr line hline
    unfold writtenLines at hline
    split at hline
    · rename_i hch
      obtain ⟨a,ha,hlines,_⟩ := hstored r hr hch
      rw [ha] at hline
      rw [hlines line hline,Record.name,ha]
      rfl
    · rename_i hch
      exact (hread r hr (by simpa using hch)).named line hline
  rw [named_merged hparts,named_lineRecords,named,filter_flatMap_of fun r hr line hline => by rw [hnames r hr line hline]]

/-- A name with one record in the database has one in the written file, and that is like it. -/
theorem named_written_single (hparts : ops.NamesParts) (hrefl : ∀ a, R a a)
    (hread : ∀ r ∈ rs, r.changed = false → IsRead ops r)
    (hstored : ∀ r ∈ rs, r.changed = true → ∃ a, r.eptr = some a ∧ RereadsAs ops R entryLines a) {name : Bytes}
    {r : Record α} {a : α} (hr : named ops name rs = [r]) (ha : r.eptr = some a) :
    ∃ r' b, named ops name (ops.merged ((rs.flatMap (writtenLines entryLines)).map (lineRecord ops))) = [r'] ∧
      r'.eptr = some b ∧ R a b ∧ (r.changed = false → b = a) := by
  have hmem : r ∈ rs := by
    have hm : r ∈ named ops name rs := hr ▸ List.mem_singleton_self r
    exact (List.mem_filter.mp hm).1
  rw [named_written hparts hread hstored,hr,List.flatMap_singleton,writtenLines]
  cases hch : r.changed with
  | false => exact ⟨r,a,(hread r hmem hch).merged,ha,hrefl a,fun _ => rfl⟩
  | true =>
    obtain ⟨a',ha',_,r',b,hr',hb,hR⟩ := hstored r hmem hch
    cases ha'.symm.trans ha
    rw [if_pos rfl,ha]
    exact ⟨r',b,hr',hb,hR,(by intros; contradiction)⟩

theorem named_written_none (hparts : ops.NamesParts) (hread : ∀ r ∈ rs, r.changed = false → IsRead ops r)
    (hstored : ∀ r ∈ rs, r.changed = true → ∃ a, r.eptr = some a ∧ RereadsAs ops R entryLines a) {name : Bytes}
    (hr : named ops name rs = []) :
    named ops name (ops.merged ((rs.flatMap (writtenLines entryLines)).map (lineRecord ops))) = [] := by
  rw [named_written hparts hread hstored,hr,List.flatMap_nil,List.map_nil,merged_nil]

end Rereading

section Single
variable {ops : Ops α} {lineOf : α → Bytes}

/-- What a record is when the written file is read again. -/
def rereadRecord (ops : Ops α) (lineOf : α → Bytes) (r : Record α) : Record α :=
  if r.changed then lineRecord ops (r.eptr.elim [] lineOf) else r

/-- Where no entry has parts, the written file has a record for each one that was held. -/
theorem readFile_written (hook : ops.openHook = none) {file : Option Bytes} {rs : List (Record α)}
    (hread : ∀ r ∈ rs, r.changed = false → IsRead ops r) (hstored : ∀ r ∈ rs, r.changed = true → r.eptr.isSome)
    (hfile : diskLines file = some (rs.flatMap (writtenLines fun a => [lineOf a]))) :
    readFile ops file = some (rs.map (rereadRecord ops lineOf)) := by
  have hmerged : ∀ qs : List (Record α), ops.merged qs = qs := fun qs => by rw [Ops.merged,hook]
  rw [readFile,hfile,Option.map_some,hmerged]
  clear hfile
  induction rs with
  | nil => rfl
  | cons r rs ih =>
    obtain ⟨hr,hrs⟩ := List.forall_mem_cons.mp hread
    obtain ⟨hr',hrs'⟩ := List.forall_mem_cons.mp hstored
    have hone : (writtenLines (fun a => [lineOf a]) r).map (lineRecord ops) = [rereadRecord ops lineOf r] := by
      cases hch : r.changed with
      | true =>
        obtain ⟨a,ha⟩ := Option.isSome_iff_exists.mp (hr' hch)
        simp [writtenLines,rereadRecord,hch,ha]
      | false =>
        have hown := (hr hch).merged
        rw [hmerged] at hown
        simpa [writtenLines,rereadRecord,hch] using hown
    rw [List.flatMap_cons,List.map_append,hone,Option.some.inj (ih hrs hrs')]
    rfl

/-- Storing an entry in what was just opened, as it is read again: in place of the records of
its name there is that of its line. -/
theorem EditStep.reread (lineOf : α → Bytes) {rs rs' : List (Record α)} {a : α} (he : EditStep ops rs (.update a) rs')
    (hrs : ∀ r ∈ rs, r.changed = false) :
    ∃ xs old ys, rs = xs ++ old ++ ys ∧ (∀ q ∈ old, q.name ops = some (ops.getname a)) ∧
      (∀ q ∈ xs ++ ys, q.name ops ≠ some (ops.getname a)) ∧
      rs'.map (rereadRecord ops lineOf) = xs ++ lineRecord ops (lineOf a) :: ys := by
  obtain ⟨xs,old,ys,rfl,hold,hne,line,rfl⟩ := he
  have hkept : ∀ zs : List (Record α), (∀ r ∈ zs, r.changed = false) → zs.map (rereadRecord ops lineOf) = zs :=
    fun zs hzs => (List.map_congr_left fun r hr => by
      rw [rereadRecord,hzs r hr,if_neg Bool.false_ne_true,id_eq]).trans (List.map_id zs)
  refine ⟨xs,old,ys,rfl,hold,hne,?_⟩
  rw [List.map_append,List.map_cons,hkept xs fun r hr => hrs r (by simp [hr]),
    hkept ys fun r hr => hrs r (by simp [hr])]
  rfl

end Single

section Storing
variable {ops : Ops α}

/-- One record of the name, and no other one. -/
theorem lookup_middle {rs rs' : List (Record α)} {r : Record α} {name : Bytes}
    (h : ∀ q ∈ rs ++ rs', q.name ops ≠ some name) :
    lookup ops (rs ++ r :: rs') name = if r.name ops = some name then r.eptr else none := by
  have hnone : ∀ qs : List (Record α), (∀ q ∈ qs, q ∈ rs ++ rs') → qs.find? (fun r => r.name ops == some name) = none :=
    fun qs hqs => List.find?_eq_none.mpr fun q hq => by simpa using h q (hqs q hq)
  rw [lookup,List.find?_append,hnone rs fun q => List.mem_append_left rs',Option.none_or,List.find?_cons]
  by_cases hr : r.name ops = some name
  · simp [hr]
  · have hr' : (r.name ops == some name) = false := by simpa using hr
    rw [hr',hnone rs' fun q => List.mem_append_right rs,if_neg hr]
    rfl

/-- An entry that is stored in what was just opened: its record is the one that changed. -/
theorem EditStep.changed {rs rs' : List (Record α)} {a : α} (he : EditStep ops rs (.update a) rs')
    (hrs : ∀ r ∈ rs, r.changed = false) :
    (∃ r ∈ rs', r.changed = true) ∧ ∀ r ∈ rs', r.changed = true → r.eptr = some a := by
  obtain ⟨xs,old,ys,rfl,_,_,line,rfl⟩ := he
  refine ⟨⟨editedRecord line a,by simp,rfl⟩,fun r hr hch => ?_⟩
  have hkept : r ∉ xs ++ ys := fun hm => by
    have hf := hrs r (by rcases List.mem_append.mp hm with hm | hm <;> simp [hm])
    rw [hf] at hch
    cases hch
  rcases List.mem_append.mp hr with hx | hx
  · exact absurd (List.mem_append_left ys hx) hkept
  · rcases List.mem_cons.mp hx with rfl | hy
    · rfl
    · exact absurd (List.mem_append_right xs hy) hkept

/-- A stored entry has one record under its name. -/
theorem EditStep.named {rs rs' : List (Record α)} {a : α} (he : EditStep ops rs (.update a) rs') :
    ∃ line, Commonio.named ops (ops.getname a) rs' = [editedRecord line a] := by
  obtain ⟨xs,old,ys,_,_,hne,line,rfl⟩ := he
  have hne : ∀ q ∈ xs ++ ys, q.name ops ≠ some (ops.getname a) := hne
  refine ⟨line,?_⟩
  rw [List.append_cons,named_append,named_append,named_of_ne fun q hq => hne q (List.mem_append_left ys hq),
    named_of_ne fun q hq => hne q (List.mem_append_right xs hq),List.nil_append,List.append_nil]
  exact named_of_eq fun q hq => by
    rw [List.mem_singleton.mp hq]
    rfl

end Storing

end UserDb.Commonio
