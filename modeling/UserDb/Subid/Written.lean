import UserDb.Base.Text
import UserDb.Commonio.Mode
import UserDb.Subid.Assign

/-! What a file of ranges says after a database of it was sorted, appended to or thinned out, and
closed: every line that was written reads as its own range, or as none. -/
namespace UserDb.Subid
open UserDb.Base UserDb.Atoi UserDb.Commonio

section Modes
variable {accounts : Accounts} {filename owner : Bytes} {db db' : Db SubordinateRange}

private theorem findRange_mode (val : UInt64) : SameMode db (findRange accounts filename db owner val).2 := by
  unfold findRange
  have hfirst := searchEntry_mode (fun r : SubordinateRange => r.count != 0 && r.owner == owner && (r.start ≤ val && val ≤ r.last)) db
  rcases hrun : searchEntry
    (fun r : SubordinateRange => r.count != 0 && r.owner == owner && (r.start ≤ val && val ≤ r.last)) db with ⟨_ | r,db₁⟩
  · rw [hrun] at hfirst
    simp only
    split
    · exact hfirst
    · exact hfirst.trans (searchEntry_mode _ db₁)
  · rw [hrun] at hfirst
    exact hfirst

private theorem haveRangeFrom_mode {stop start count : UInt64} {fuel : Nat} {covered : Bool}
    (h : haveRangeFrom accounts filename owner stop fuel start count db = some (covered,db')) : SameMode db db' := by
  induction fuel generalizing db start count with
  | zero => cases h
  | succ fuel ih =>
    have hmode : SameMode db (findRange accounts filename db owner start).2 := findRange_mode start
    unfold haveRangeFrom at h
    rcases hrun : findRange accounts filename db owner start with ⟨_ | r,db₁⟩
    · rw [hrun] at h hmode
      cases h
      exact hmode
    · rw [hrun] at h hmode
      simp only at h
      split at h
      · cases h
        exact hmode
      · exact hmode.trans (ih h)

theorem haveRange_mode {start count : UInt64} {covered : Bool}
    (h : haveRange accounts filename db owner start count = some (covered,db')) : SameMode db db' := by
  unfold haveRange at h
  split at h
  · cases h
    exact .refl db
  · exact haveRangeFrom_mode h

theorem findFreeRange_mode (qsort : Qsort) (db : Db SubordinateRange) (min max : UInt32) (count : UInt64) (memory : Bool) :
    SameMode db (findFreeRange qsort db min max count memory).2 := by
  unfold findFreeRange
  simp only
  split
  · exact .refl db
  · have hmode := (commonioSort_mode qsort subordinateRangeCmp db memory).trans
      (forEachEntry_mode (scanRange max (signed count)) (min.toNat : Int) _)
    split
    · rename_i heq
      rw [heq] at hmode
      exact hmode
    · rename_i heq
      rw [heq] at hmode
      exact hmode

theorem addRange_mode {memory ok : Bool} {start count : UInt64}
    (h : addRange accounts filename memory db owner start count = some (ok,db')) : SameMode db db' := by
  unfold addRange at h
  split at h
  · cases h
  · rename_i db₁ hhave
    cases h
    exact haveRange_mode hhave
  · rename_i db₁ hhave
    have hmode := commonioAppend_mode db₁ ⟨owner,start,count⟩ memory
    rw [Option.some.inj h] at hmode
    exact (haveRange_mode hhave).trans hmode

private theorem removeFromEntry_mode {start stop : UInt64} (memory : Bool) (p : Nat) (db : Db SubordinateRange) :
    SameMode db (removeFromEntry accounts owner start stop memory p db).2 := by
  unfold removeFromEntry
  split
  · exact .refl db
  · rename_i range _
    simp only
    split
    · exact .refl db
    · split
      · exact .refl db
      · split
        · split
          · exact commonioDelEntry_mode db p
          · exact ⟨rfl,rfl,rfl⟩
        · split
          · exact ⟨rfl,rfl,rfl⟩
          · have hmode := commonioAppend_mode db ⟨range.owner,stop + 1,range.last - (stop + 1) + 1⟩ memory
            rcases hrun : commonioAppend db ⟨range.owner,stop + 1,range.last - (stop + 1) + 1⟩ memory with ⟨_ | _,db₁⟩
            · rw [hrun] at hmode
              exact hmode
            · rw [hrun] at hmode
              exact hmode.trans ⟨rfl,rfl,rfl⟩

private theorem removeRangeFrom_mode {start stop : UInt64} {memory : Nat → Bool} {fuel : Nat} {pos : Option Nat} {ok : Bool}
    (h : removeRangeFrom accounts owner start stop memory fuel pos db = some (ok,db')) : SameMode db db' := by
  induction fuel generalizing pos db with
  | zero => cases h
  | succ fuel ih =>
    cases pos with
    | none =>
      cases h
      exact .refl _
    | some p =>
      have hmode : SameMode db (removeFromEntry accounts owner start stop (memory p) p db).2 := removeFromEntry_mode (memory p) p db
      unfold removeRangeFrom at h
      rcases hrun : removeFromEntry accounts owner start stop (memory p) p db with ⟨_ | _,db₁⟩
      · rw [hrun] at h hmode
        cases h
        exact hmode
      · rw [hrun] at h hmode
        exact hmode.trans (ih h)

theorem removeRange_mode {memory : Nat → Bool} {start count : UInt64} {ok : Bool}
    (h : removeRange accounts memory db owner start count = some (ok,db')) : SameMode db db' := by
  unfold removeRange at h
  split at h
  · cases h
    exact .refl db
  · exact removeRangeFrom_mode h

end Modes

section Lines
variable {r a b : SubordinateRange} {record : Record SubordinateRange} {records : List (Record SubordinateRange)}

theorem isLine_rangeLine (h : IsLine r.owner) : IsLine (rangeLine r) := by
  refine ⟨fun hn => ?_,zero_notMem_fieldsLine fun field hf hz => ?_⟩
  · rcases mem_intercalate hn with hc | ⟨field,hf,hn⟩
    · exact absurd hc (by decide)
    · simp only [rangeFields,List.mem_cons,List.not_mem_nil,or_false] at hf
      rcases hf with rfl | rfl | rfl
      · exact h.1 hn
      · exact (numeral_ne_sep hn).2 rfl
      · exact (numeral_ne_sep hn).2 rfl
  · simp only [rangeFields,List.mem_cons,List.not_mem_nil,or_false] at hf
    rcases hf with rfl | rfl | rfl
    · exact h.2 hz
    · exact numeral_ne_zero hz
    · exact numeral_ne_zero hz

/-- A record whose line is one line of a text: it was read, or it holds a range to write. -/
def Lined (record : Record SubordinateRange) : Prop :=
  (∃ line, IsLine line ∧ record = lineRecord subordinateOps line) ∨
    ∃ a, record.changed = true ∧ record.eptr = some a ∧ IsLine a.owner

theorem Lined.edited (line : Option Bytes) (h : IsLine a.owner) : Lined (editedRecord line a) := .inr ⟨a,rfl,rfl,h⟩

/-- The line that is written for a record. -/
def lineOf (record : Record SubordinateRange) : Bytes :=
  if record.changed then record.eptr.elim [] rangeLine else record.line.getD []

theorem Lined.isLine (h : Lined record) : IsLine (lineOf record) := by
  rcases h with ⟨line,hline,rfl⟩ | ⟨a,hchanged,ha,howner⟩
  · exact hline
  · rw [lineOf,hchanged,if_pos rfl,ha]
    exact isLine_rangeLine howner

/-- A range is read from its line as itself, or not at all. -/
theorem eq_of_reread (h : subordinateParse (rangeLine a) = some b) : b = a := by
  have hline : rangeLine a = a.owner ++ colon :: (numeral a.start.toNat ++ colon :: numeral a.count.toNat) := by
    simp [rangeLine,rangeFields,List.intercalate_cons_cons]
  have hcolon : colon ∉ a.owner := by
    -- the line has two separators, which stand between its three fields
    intro hmem
    obtain ⟨_,_,_,start,count,hsplit,_⟩ := subordinateParse_eq_some h
    obtain ⟨htext,hb,hs,hc⟩ := of_splitOn_three hsplit
    have hcount := congrArg (List.count colon) (hline.symm.trans htext)
    simp only [List.count_append,List.count_cons_self,List.count_eq_zero.mpr hb,List.count_eq_zero.mpr hs,
      List.count_eq_zero.mpr hc] at hcount
    have hpos := List.count_pos_iff.mpr hmem
    omega
  unfold subordinateParse at h
  rw [rangeLine_fields hcolon,rangeFields] at h
  simp only at h
  split at h
  · cases h
  · split at h
    · cases h
    · split at h
      · cases h
      · rename_i first hfirst
        split at h
        · cases h
        · rename_i n hn
          obtain rfl := eq_of_a2i_numeral hfirst (by omega)
          obtain rfl := eq_of_a2i_numeral hn (by omega)
          cases h
          simp only [UInt64.ofNat_toNat]

/-- What a record says when its file is read again: the range that it holds, or nothing. -/
theorem Lined.again_eptr (h : Lined record) (ha : (subidStorage.again record).eptr = some a) : record.eptr = some a := by
  rcases h with ⟨line,_,rfl⟩ | ⟨b,hchanged,hb,_⟩
  · exact ha
  · have hagain : subidStorage.again record = lineRecord subordinateOps (rangeLine b) := by
      rw [LineStorage.again,hchanged,if_pos rfl,hb]
      rfl
    rw [hagain] at ha
    obtain ⟨_,hparse⟩ := lineRecord_eptr ha
    rw [hb,eq_of_reread hparse]

private theorem lineRecord_text (htext : a.Text) : (lineRecord subordinateOps (rangeLine a)).eptr = some a := by
  have hnis : nameIsNis (rangeLine a) = false := (fieldsLine_notNis _ _ _).trans htext.notNis
  have hentry : (lineRecord subordinateOps (rangeLine a)).eptr =
      if nameIsNis (rangeLine a) then none else subordinateParse (rangeLine a) := rfl
  rw [hentry,hnis,if_neg Bool.false_ne_true,subordinateParse_rangeLine.mpr htext.toRereads]

/-- The lines of the records are the lines of the file that is read again. -/
theorem readFile_lineOf (h : ∀ record ∈ records, Lined record) :
    readFile subordinateOps (some (fileText (records.map lineOf))) = some (records.map subidStorage.again) := by
  have hlines : ∀ line ∈ records.map lineOf, IsLine line := by
    intro line hline
    obtain ⟨record,hrecord,rfl⟩ := List.mem_map.mp hline
    exact (h record hrecord).isLine
  have hread : diskLines (some (fileText (records.map lineOf))) = some (records.map lineOf) := fileLines_fileText hlines
  have hfile := subidStorage.readFile_eq hread
  rw [List.map_map] at hfile
  refine hfile.trans (congrArg some (List.map_congr_left ?_))
  intro record _
  rfl

/-- The new record of a range that fits its line is read as this range. -/
theorem again_edited (line : Option Bytes) (htext : a.Text) : (subidStorage.again (editedRecord line a)).eptr = some a := by
  have hagain : subidStorage.again (editedRecord line a) = lineRecord subordinateOps (rangeLine a) := rfl
  rw [hagain,lineRecord_text htext]

end Lines

section Closing
variable {db db' : Db SubordinateRange} {l : List Nat} {records : List (Record SubordinateRange)} {a : SubordinateRange}

/-- An open database of lines, in any order. -/
structure Editing (db : Db SubordinateRange) (l : List Nat) : Prop extends Chained db l where
  isopen : db.isopen = true
  writable : db.readonly = false
  lined : ∀ record ∈ l.map db.record, Lined record

theorem writeEntry_lined {e : Entry SubordinateRange} (h : Lined e.record) :
    writeEntry subordinatePut e = some (lineOf e.record ++ [newline]) := by
  have hchanged : e.changed = e.record.changed := rfl
  have heptr : e.eptr = e.record.eptr := rfl
  have hline : e.line = e.record.line := rfl
  unfold writeEntry lineOf
  rw [hchanged,heptr,hline]
  rcases h with ⟨line,_,hrecord⟩ | ⟨a,hch,ha,_⟩
  · rw [hrecord]
    rfl
  · rw [hch,ha]
    rfl

theorem mapM_writeEntry {write : Nat → Bool} (hlined : ∀ record ∈ l.map db.record, Lined record) {parts : List Bytes}
    (h : (l.mapM fun p => if write p then writeEntry subordinatePut (db.entries p) else none) = some parts) :
    parts.flatten = fileText ((l.map db.record).map lineOf) := by
  induction l generalizing parts with
  | nil =>
    cases h
    rfl
  | cons p l ih =>
    simp only [List.map_cons,List.forall_mem_cons] at hlined
    simp only [List.mapM_cons,Option.bind_eq_bind,Option.bind_eq_some_iff] at h
    obtain ⟨part,hpart,rest,hrest,h⟩ := h
    cases h
    split at hpart
    · rw [writeEntry_lined hlined.1] at hpart
      cases hpart
      rw [List.flatten_cons,ih hlined.2 hrest,List.map_cons,List.map_cons]
      rfl
    · cases hpart

/-- Closing leaves the file, or writes the lines of the records. -/
theorem Editing.close (h : Editing db l) (selinux : Bool) (steps : CloseSteps) (old : Option Bytes) (disk : Disk) :
    (commonioClose selinux (plainCloseOps subordinatePut) steps db old disk).2.2.file = disk.file ∨
      readFile subordinateOps (commonioClose selinux (plainCloseOps subordinatePut) steps db old disk).2.2.file =
        some ((l.map db.record).map subidStorage.again) := by
  cases hchanged : db.changed with
  | false =>
    rw [commonioClose_unchanged _ hchanged]
    exact .inl rfl
  | true =>
    rcases commonioClose_cases selinux (plainCloseOps subordinatePut) steps db old disk h.isopen hchanged h.writable with
      ⟨_,hfile⟩ | ⟨db₁,bytes,hhook,hall,_,hdisk⟩
    · exact .inl hfile
    · right
      cases hhook
      obtain ⟨parts,hparts,rfl⟩ := Option.map_eq_some_iff.mp hall
      have hfrom : Db.from { db with isopen := false } db.head = l := h.from_head
      simp only at hparts
      rw [hfrom] at hparts
      have hbytes : parts.flatten = fileText ((l.map db.record).map lineOf) := mapM_writeEntry h.lined hparts
      rw [hdisk,hbytes]
      exact readFile_lineOf h.lined

private theorem exists_mapM_writeEntry {write : Nat → Bool} (hwrite : ∀ p, write p = true)
    (hlined : ∀ record ∈ l.map db.record, Lined record) :
    ∃ parts, (l.mapM fun p => if write p then writeEntry subordinatePut (db.entries p) else none) = some parts := by
  induction l with
  | nil => exact ⟨[],rfl⟩
  | cons p l ih =>
    simp only [List.map_cons,List.forall_mem_cons] at hlined
    obtain ⟨parts,hparts⟩ := ih hlined.2
    refine ⟨(lineOf (db.record p) ++ [newline]) :: parts,?_⟩
    have hentry : writeEntry subordinatePut (db.entries p) = some (lineOf (db.record p) ++ [newline]) := writeEntry_lined hlined.1
    simp only [List.mapM_cons,hwrite p,if_true,hentry,hparts]
    rfl

/-- A changed database goes to the file where no step fails before the renaming. -/
theorem Editing.close_replaces (h : Editing db l) {selinux : Bool} {steps : CloseSteps} {old : Option Bytes} (disk : Disk)
    (hchanged : db.changed = true) (hsteps : Replaces selinux steps old) :
    readFile subordinateOps (commonioClose selinux (plainCloseOps subordinatePut) steps db old disk).2.2.file =
      some ((l.map db.record).map subidStorage.again) := by
  have hfrom : Db.from { db with isopen := false } db.head = l := h.from_head
  obtain ⟨parts,hparts⟩ := exists_mapM_writeEntry hsteps.written h.lined
  have hall : writeAll (plainCloseOps subordinatePut) steps.write { db with isopen := false } = some parts.flatten := by
    unfold writeAll
    simp only
    rw [hfrom]
    exact congrArg (Option.map List.flatten) hparts
  have hbytes : parts.flatten = fileText ((l.map db.record).map lineOf) := mapM_writeEntry h.lined hparts
  rw [(commonioClose_replaces h.isopen hchanged h.writable hsteps hall disk).2,hbytes]
  exact readFile_lineOf h.lined

end Closing

end UserDb.Subid
