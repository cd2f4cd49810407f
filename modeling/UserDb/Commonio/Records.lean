import UserDb.Commonio.Edits
import UserDb.Commonio.Merge

/-! A file as the records that an open database holds, its order and links apart: what
reading, merging and editing do to the names and to the lines behind the records. -/
namespace UserDb.Commonio
open UserDb.Base

variable {α : Type}

/-- Parts of one entry have one name, and it is that of the merged entry. -/
structure Ops.NamesParts (ops : Ops α) : Prop where
  same : ∀ split, ops.openHook = some split → ∀ a b, split.same a b = true → ops.getname a = ops.getname b
  merge : ∀ split, ops.openHook = some split → ∀ a b, ops.getname (split.merge a b) = ops.getname a

/-- The lines of the file that a record was read from. -/
def recordLines (r : Record α) : List Bytes :=
  match r.line with
  | some line => line.splitOn newline
  | none => []

/-- The name of the entry that a line is read as. -/
def lineName (ops : Ops α) (line : Bytes) : Option Bytes := (lineRecord ops line).name ops

section Merging
variable {ops : Ops α} {split : SplitEntries α} {r q : Record α} {rs : List (Record α)} {name : Bytes}

private theorem absorbRecord_line (split : SplitEntries α) (q : Record α) (hr : r.line.isSome) : (absorbRecord split r q).line.isSome := by
  unfold absorbRecord
  split
  · split
    · rfl
    · exact hr
  · exact hr

private theorem absorbRecord_changed : (absorbRecord split r q).changed = r.changed := by
  unfold absorbRecord
  split
  · split <;> rfl
  · rfl

private theorem absorbRecord_name (hook : ops.openHook = some split) (h : ops.NamesParts) :
    (absorbRecord split r q).name ops = r.name ops := by
  cases hs : samePart split r q with
  | false => rw [absorbRecord_of_not hs]
  | true =>
    obtain ⟨g₁,g₂,h₁,h₂,hs⟩ := samePart_iff.mp hs
    rw [absorbRecord_of_same h₁ h₂ hs]
    simp [Record.name,h₁,h.merge split hook]

theorem name_of_samePart (hook : ops.openHook = some split) (h : ops.NamesParts)
    (hs : samePart split r q = true) : r.name ops = q.name ops := by
  obtain ⟨g₁,g₂,h₁,h₂,hs⟩ := samePart_iff.mp hs
  rw [Record.name,Record.name,h₁,h₂,Option.map_some,Option.map_some,h.same split hook g₁ g₂ hs]

private theorem recordLines_absorbRecord (hr : r.line.isSome) (hq : q.line.isSome) :
    recordLines (absorbRecord split r q) =
      if samePart split r q then recordLines r ++ recordLines q else recordLines r := by
  obtain ⟨line,hline⟩ := Option.isSome_iff_exists.mp hr
  obtain ⟨line',hline'⟩ := Option.isSome_iff_exists.mp hq
  cases hs : samePart split r q with
  | false => rw [absorbRecord_of_not hs,if_neg Bool.false_ne_true]
  | true =>
    obtain ⟨g₁,g₂,h₁,h₂,hs⟩ := samePart_iff.mp hs
    rw [absorbRecord_of_same h₁ h₂ hs,if_pos rfl]
    simp [recordLines,hline,hline',List.splitOn_append_cons_self]

/-- What a record becomes when it takes in the parts among `rs`. -/
theorem foldl_absorbRecord (split : SplitEntries α) (hr : r.line.isSome) (hrs : ∀ q ∈ rs, q.line.isSome) :
    (rs.foldl (absorbRecord split) r).line.isSome ∧
      recordLines (rs.foldl (absorbRecord split) r) =
        recordLines r ++ (rs.filter (samePart split r)).flatMap recordLines := by
  induction rs generalizing r with
  | nil => exact ⟨hr,by simp⟩
  | cons q rs ih =>
    obtain ⟨hq,hrs⟩ := List.forall_mem_cons.mp hrs
    obtain ⟨hline,hlines⟩ := ih (absorbRecord_line split q hr) hrs
    refine ⟨hline,?_⟩
    have hfilter : rs.filter (samePart split (absorbRecord split r q)) = rs.filter (samePart split r) :=
      List.filter_congr fun x _ => samePart_absorbRecord
    rw [List.foldl_cons,hlines,hfilter,recordLines_absorbRecord hr hq]
    cases hs : samePart split r q <;> simp [hs]

theorem foldl_absorbRecord_name (hook : ops.openHook = some split) (h : ops.NamesParts) :
    (rs.foldl (absorbRecord split) r).name ops = r.name ops := by
  induction rs generalizing r with
  | nil => rfl
  | cons q rs ih => rw [List.foldl_cons,ih,absorbRecord_name hook h]

theorem foldl_absorbRecord_changed : (rs.foldl (absorbRecord split) r).changed = r.changed := by
  induction rs generalizing r with
  | nil => rfl
  | cons q rs ih => rw [List.foldl_cons,ih,absorbRecord_changed]

/-- Records that are no parts of `r` leave it as it is. -/
theorem foldl_absorbRecord_filter (keep : Record α → Bool)
    (h : ∀ q ∈ rs, keep q = false → samePart split r q = false) :
    rs.foldl (absorbRecord split) r = (rs.filter keep).foldl (absorbRecord split) r := by
  induction rs generalizing r with
  | nil => rfl
  | cons q rs ih =>
    obtain ⟨hq,hrs⟩ := List.forall_mem_cons.mp h
    rw [List.foldl_cons,List.filter_cons]
    cases hk : keep q with
    | true =>
      rw [if_pos rfl,List.foldl_cons]
      refine ih fun x hx hkx => ?_
      rw [samePart_absorbRecord]
      exact hrs x hx hkx
    | false =>
      rw [absorbRecord_of_not (hq hk)]
      exact ih hrs

/-- A property of what every fold of a record gives holds of all merged records. -/
theorem mergeRecords_forall {P : Record α → Prop}
    (h : ∀ r ∈ rs, ∀ qs : List (Record α), (∀ q ∈ qs, q ∈ rs) → P (qs.foldl (absorbRecord split) r)) :
    ∀ r ∈ mergeRecords split rs, P r := by
  induction hn : rs.length using Nat.strong_induction_on generalizing rs with
  | _ n ih =>
    cases rs with
    | nil => simp [mergeRecords]
    | cons r rs =>
      rw [mergeRecords,List.forall_mem_cons]
      refine ⟨h r List.mem_cons_self rs fun q hq => List.mem_cons_of_mem r hq,?_⟩
      have hlt : (rs.filter fun r' => !samePart split r r').length < n := by
        rw [← hn]
        exact Nat.lt_succ_of_le (List.length_filter_le _ _)
      refine ih _ hlt (fun q hq qs hqs => ?_) rfl
      exact h q (List.mem_cons_of_mem r (List.mem_filter.mp hq).1) qs fun x hx =>
        List.mem_cons_of_mem r (List.mem_filter.mp (hqs x hx)).1

/-- The lines behind the merged records are those behind the records. -/
theorem mergeRecords_lines (hrs : ∀ q ∈ rs, q.line.isSome) :
    ((mergeRecords split rs).flatMap recordLines).Perm (rs.flatMap recordLines) := by
  induction hn : rs.length using Nat.strong_induction_on generalizing rs with
  | _ n ih =>
    cases rs with
    | nil => simp [mergeRecords]
    | cons r rs =>
      obtain ⟨hr,hrs⟩ := List.forall_mem_cons.mp hrs
      have hlt : (rs.filter fun r' => !samePart split r r').length < n := by
        rw [← hn]
        exact Nat.lt_succ_of_le (List.length_filter_le _ _)
      have hrest := ih _ hlt (fun q hq => hrs q (List.mem_filter.mp hq).1) rfl
      rw [mergeRecords,List.flatMap_cons,List.flatMap_cons,(foldl_absorbRecord split hr hrs).2,List.append_assoc]
      refine ((hrest.append_left _).trans ?_).append_left _
      rw [← List.flatMap_append]
      exact (List.filter_append_perm (samePart split r) rs).flatMap_right recordLines

/-- Merging looks at the records of one name apart from all others. -/
theorem mergeRecords_filter (hook : ops.openHook = some split) (h : ops.NamesParts) (name : Bytes) :
    (mergeRecords split rs).filter (fun r => r.name ops == some name) =
      mergeRecords split (rs.filter fun r => r.name ops == some name) := by
  induction hn : rs.length using Nat.strong_induction_on generalizing rs with
  | _ n ih =>
    cases rs with
    | nil => simp [mergeRecords]
    | cons r rs =>
      have hlt : (rs.filter fun r' => !samePart split r r').length < n := by
        rw [← hn]
        exact Nat.lt_succ_of_le (List.length_filter_le _ _)
      rw [mergeRecords,List.filter_cons,List.filter_cons,foldl_absorbRecord_name hook h,ih _ hlt rfl,
        List.filter_filter]
      cases hr : r.name ops == some name with
      | true =>
        rw [if_pos rfl,if_pos rfl,mergeRecords,List.filter_filter]
        have hname : r.name ops = some name := by simpa using hr
        congr 1
        · refine foldl_absorbRecord_filter _ fun q _ hq => Bool.eq_false_iff.mpr fun hs => ?_
          rw [← name_of_samePart hook h hs,hname,beq_self_eq_true] at hq
          cases hq
        · congr 1
          refine List.filter_congr fun q _ => ?_
          exact Bool.and_comm _ _
      | false =>
        rw [if_neg Bool.false_ne_true,if_neg Bool.false_ne_true]
        congr 1
        refine List.filter_congr fun q _ => ?_
        cases hs : samePart split r q with
        | false => simp
        | true =>
          rw [name_of_samePart hook h hs] at hr
          simp [hr]

end Merging

section Editing
variable (ops : Ops α)

/-- An edit of an open database: storing an entry, or removing the one of a name. -/
inductive Edit (α : Type) where
  | update (eptr : α)
  | remove (name : Bytes)

def Edit.name : Edit α → Bytes
  | .update eptr => ops.getname eptr
  | .remove name => name

/-- The records of one name. -/
def named (name : Bytes) (rs : List (Record α)) : List (Record α) := rs.filter fun r => r.name ops == some name

/-- What a successful edit does to the records: at most one has the name, and it is replaced. -/
def EditStep (rs : List (Record α)) (e : Edit α) (rs' : List (Record α)) : Prop :=
  ∃ xs old ys, rs = xs ++ old ++ ys ∧ (∀ q ∈ old, q.name ops = some (e.name ops)) ∧
    (∀ q ∈ xs ++ ys, q.name ops ≠ some (e.name ops)) ∧
    match e with
    | .update eptr => ∃ line, rs' = xs ++ editedRecord line eptr :: ys
    | .remove _ => rs' = xs ++ ys

/-- The last edit under a name. -/
def lastEdit (name : Bytes) (edits : List (Edit α)) : Option (Edit α) :=
  (edits.filter fun e => e.name ops == name).getLast?

/-- A line that belongs to no entry under the names of the edits. -/
def untouched (edits : List (Edit α)) (line : Bytes) : Bool :=
  edits.all fun e => lineName ops line != some (e.name ops)

/-- What holds of the records after some edits of a file of `lines`. -/
structure Edited (lines : List Bytes) (edits : List (Edit α)) (rs : List (Record α)) : Prop where
  faithful : ∀ r ∈ rs, r.changed = false → r.line.isSome ∧ ∀ line ∈ recordLines r, lineName ops line = r.name ops
  kept : ((rs.filter fun r => !r.changed).flatMap recordLines).Perm (lines.filter (untouched ops edits))
  changed : ∀ r ∈ rs, r.changed = true →
    ∃ a, r.eptr = some a ∧ lastEdit ops (ops.getname a) edits = some (.update a)
  updated : ∀ name a, lastEdit ops name edits = some (.update a) →
    ∃ r, named ops name rs = [r] ∧ r.eptr = some a ∧ r.changed = true
  removed : ∀ name name', lastEdit ops name edits = some (.remove name') → named ops name rs = []

variable {ops} {lines : List Bytes} {edits : List (Edit α)} {rs rs' : List (Record α)} {e : Edit α}

private theorem lastEdit_append (name : Bytes) (edits : List (Edit α)) (e : Edit α) :
    lastEdit ops name (edits ++ [e]) = if e.name ops = name then some e else lastEdit ops name edits := by
  unfold lastEdit
  rw [List.filter_append]
  by_cases h : e.name ops = name
  · simp [h]
  · simp [h]

private theorem untouched_append (edits : List (Edit α)) (e : Edit α) (line : Bytes) :
    untouched ops (edits ++ [e]) line = (untouched ops edits line && lineName ops line != some (e.name ops)) := by
  simp [untouched]

/-- Records whose lines are read under another name than `name` keep all their lines. -/
theorem flatMap_filter_ne (name : Bytes) (hf : ∀ r ∈ rs, ∀ line ∈ recordLines r, lineName ops line = r.name ops)
    (hne : ∀ r ∈ rs, r.name ops ≠ some name) :
    (rs.flatMap recordLines).filter (fun line => lineName ops line != some name) = rs.flatMap recordLines := by
  refine List.filter_eq_self.mpr fun line hline => ?_
  obtain ⟨r,hr,hline⟩ := List.mem_flatMap.mp hline
  rw [hf r hr line hline]
  simpa using hne r hr

private theorem flatMap_filter_eq (name : Bytes) (hf : ∀ r ∈ rs, ∀ line ∈ recordLines r, lineName ops line = r.name ops)
    (heq : ∀ r ∈ rs, r.name ops = some name) :
    (rs.flatMap recordLines).filter (fun line => lineName ops line != some name) = [] := by
  refine List.filter_eq_nil_iff.mpr fun line hline => ?_
  obtain ⟨r,hr,hline⟩ := List.mem_flatMap.mp hline
  simp [hf r hr line hline,heq r hr]

theorem named_append (name : Bytes) (xs ys : List (Record α)) :
    named ops name (xs ++ ys) = named ops name xs ++ named ops name ys := List.filter_append _ _

theorem named_of_eq {name : Bytes} (h : ∀ r ∈ rs, r.name ops = some name) : named ops name rs = rs :=
  List.filter_eq_self.mpr fun r hr => by simp [h r hr]

theorem named_of_ne {name : Bytes} (h : ∀ r ∈ rs, r.name ops ≠ some name) : named ops name rs = [] :=
  List.filter_eq_nil_iff.mpr fun r hr => by simp [h r hr]

/-- The records that an edit puts in the place of the old ones. -/
theorem EditStep.cases (he : EditStep ops rs e rs') :
    ∃ xs old new ys, rs = xs ++ old ++ ys ∧ rs' = xs ++ new ++ ys ∧
      (∀ q ∈ old, q.name ops = some (e.name ops)) ∧ (∀ q ∈ xs ++ ys, q.name ops ≠ some (e.name ops)) ∧
      (∀ r ∈ new, r.changed = true ∧ ∃ a, e = .update a ∧ r.eptr = some a) ∧
      (∀ a, e = .update a → ∃ r, new = [r]) ∧ ∀ name, e = .remove name → new = [] := by
  obtain ⟨xs,old,ys,hrs,hold,hne,hnew⟩ := he
  cases e with
  | update a =>
    obtain ⟨line,hrs'⟩ := hnew
    refine ⟨xs,old,[editedRecord line a],ys,hrs,by simpa using hrs',hold,hne,?_,fun _ _ => ⟨_,rfl⟩,nofun⟩
    intro r hr
    rw [List.mem_singleton.mp hr]
    exact ⟨rfl,a,rfl,rfl⟩
  | remove name => exact ⟨xs,old,[],ys,hrs,by simpa using hnew,hold,hne,nofun,nofun,fun _ _ => rfl⟩

theorem Edited.step (h : Edited ops lines edits rs) (he : EditStep ops rs e rs') :
    Edited ops lines (edits ++ [e]) rs' := by
  obtain ⟨xs,old,new,ys,rfl,rfl,hold,hne,hnew,hupdate,hremove⟩ := he.cases
  have hsub : ∀ r ∈ xs ++ ys, r ∈ xs ++ old ++ ys := fun r hr => by
    rcases List.mem_append.mp hr with hr | hr <;> simp [hr]
  have hmem : ∀ r ∈ xs ++ new ++ ys, r ∈ new ∨ r ∈ xs ++ ys := fun r hr => by
    simp only [List.mem_append] at hr ⊢
    tauto
  have hnewname : ∀ r ∈ new, r.name ops = some (e.name ops) := fun r hr => by
    obtain ⟨-,a,rfl,ha⟩ := hnew r hr
    rw [Record.name,ha]
    rfl
  have hnamed : ∀ name, name ≠ e.name ops → named ops name (xs ++ new ++ ys) = named ops name (xs ++ old ++ ys) := by
    intro name hn
    have hoff : named ops name new = [] := named_of_ne fun r hr => by simpa [hnewname r hr] using Ne.symm hn
    have hoff' : named ops name old = [] := named_of_ne fun r hr => by simpa [hold r hr] using Ne.symm hn
    simp only [named_append,hoff,hoff']
  have hnamed' : named ops (e.name ops) (xs ++ new ++ ys) = new := by
    have hx : named ops (e.name ops) xs = [] := named_of_ne fun r hr => hne r (List.mem_append_left ys hr)
    have hy : named ops (e.name ops) ys = [] := named_of_ne fun r hr => hne r (List.mem_append_right xs hr)
    rw [named_append,named_append,named_of_eq hnewname,hx,hy,List.nil_append,List.append_nil]
  refine ⟨fun r hr hch => ?_,?_,fun r hr hch => ?_,fun name a hlast => ?_,fun name name' hlast => ?_⟩
  · rcases hmem r hr with hr | hr
    · rw [(hnew r hr).1] at hch
      cases hch
    · exact h.faithful r (hsub r hr) hch
  · have hunch : ∀ l : List (Record α), (∀ r ∈ l, r ∈ xs ++ old ++ ys) → ∀ r ∈ l.filter fun r => !r.changed,
        ∀ line ∈ recordLines r, lineName ops line = r.name ops := fun l hl r hr =>
      (h.faithful r (hl r (List.mem_filter.mp hr).1) (by simpa using (List.mem_filter.mp hr).2)).2
    have hx : ∀ l : List (Record α), (∀ r ∈ l, r ∈ xs ++ ys) →
        ((l.filter fun r => !r.changed).flatMap recordLines).filter
          (fun line => lineName ops line != some (e.name ops)) =
        (l.filter fun r => !r.changed).flatMap recordLines := fun l hl =>
      flatMap_filter_ne _ (hunch l fun r hr => hsub r (hl r hr)) fun r hr => hne r (hl r (List.mem_filter.mp hr).1)
    have hoff : new.filter (fun r => !r.changed) = [] :=
      List.filter_eq_nil_iff.mpr fun r hr => by simp [(hnew r hr).1]
    have hkept := h.kept.filter fun line => lineName ops line != some (e.name ops)
    rw [List.filter_filter] at hkept
    simp only [List.filter_append,List.flatMap_append] at hkept
    rw [hx xs fun r hr => List.mem_append_left ys hr,hx ys fun r hr => List.mem_append_right xs hr,
      flatMap_filter_eq _ (hunch old fun r hr => by simp [hr]) fun r hr => hold r (List.mem_filter.mp hr).1,
      List.append_nil] at hkept
    rw [List.filter_append,List.filter_append,hoff,List.append_nil,List.flatMap_append]
    refine hkept.trans (List.Perm.of_eq (List.filter_congr fun line _ => ?_))
    rw [untouched_append]
    exact Bool.and_comm _ _
  · rcases hmem r hr with hr | hr
    · obtain ⟨-,a,rfl,ha⟩ := hnew r hr
      refine ⟨a,ha,?_⟩
      rw [lastEdit_append]
      exact if_pos rfl
    · obtain ⟨a,ha,hlast⟩ := h.changed r (hsub r hr) hch
      have hrn := hne r hr
      rw [Record.name,ha,Option.map_some,ne_eq,Option.some.injEq] at hrn
      exact ⟨a,ha,by rw [lastEdit_append,if_neg (Ne.symm hrn),hlast]⟩
  · rw [lastEdit_append] at hlast
    split at hlast
    · rename_i hname
      obtain ⟨r,rfl⟩ := hupdate a (Option.some.inj hlast)
      obtain ⟨hch,b,he,hb⟩ := hnew r List.mem_cons_self
      rw [Option.some.inj hlast] at he
      cases he
      exact ⟨r,hname ▸ hnamed',hb,hch⟩
    · rename_i hname
      rw [hnamed name (Ne.symm hname)]
      exact h.updated name a hlast
  · rw [lastEdit_append] at hlast
    split at hlast
    · rename_i hname
      rw [← hname,hnamed',hremove name' (Option.some.inj hlast)]
    · rename_i hname
      rw [hnamed name (Ne.symm hname)]
      exact h.removed name name' hlast

theorem recordLines_lineRecord {line : Bytes} (h : newline ∉ line) : recordLines (lineRecord ops line) = [line] :=
  List.splitOn_eq_singleton h

/-- Before the first edit: the records are those of the lines. -/
theorem Edited.initial (hparts : ops.NamesParts) (hlines : ∀ line ∈ lines, newline ∉ line) :
    Edited ops lines [] (ops.merged (lines.map (lineRecord ops))) := by
  have hkeep : lines.filter (untouched ops ([] : List (Edit α))) = lines := List.filter_eq_self.mpr fun _ _ => rfl
  have hflat : (lines.map (lineRecord ops)).flatMap recordLines = lines := by
    induction lines with
    | nil => rfl
    | cons line lines ih =>
      obtain ⟨hline,hlines⟩ := List.forall_mem_cons.mp hlines
      rw [List.map_cons,List.flatMap_cons,recordLines_lineRecord hline,
        ih hlines (List.filter_eq_self.mpr fun _ _ => rfl)]
      rfl
  have hrec : ∀ r ∈ lines.map (lineRecord ops), r.changed = false ∧ r.line.isSome ∧
      ∀ line ∈ recordLines r, lineName ops line = r.name ops := by
    intro r hr
    obtain ⟨line,hline,rfl⟩ := List.mem_map.mp hr
    refine ⟨rfl,rfl,fun line' hline' => ?_⟩
    rw [recordLines_lineRecord (hlines line hline),List.mem_singleton] at hline'
    rw [hline']
    rfl
  have hall : ∀ r ∈ ops.merged (lines.map (lineRecord ops)), r.changed = false ∧ r.line.isSome ∧
      ∀ line ∈ recordLines r, lineName ops line = r.name ops := by
    unfold Ops.merged
    split
    · rename_i split hook
      refine mergeRecords_forall fun r hr qs hqs => ?_
      obtain ⟨hch,hline,hname⟩ := hrec r hr
      have hqline : ∀ q ∈ qs, q.line.isSome := fun q hq => (hrec q (hqs q hq)).2.1
      obtain ⟨hline',hlines'⟩ := foldl_absorbRecord split hline hqline
      refine ⟨foldl_absorbRecord_changed.trans hch,hline',fun line hl => ?_⟩
      rw [foldl_absorbRecord_name hook hparts]
      rw [hlines',List.mem_append] at hl
      rcases hl with hl | hl
      · exact hname line hl
      · obtain ⟨q,hq,hl⟩ := List.mem_flatMap.mp hl
        obtain ⟨hq,hs⟩ := List.mem_filter.mp hq
        rw [name_of_samePart hook hparts hs]
        exact (hrec q (hqs q hq)).2.2 line hl
    · exact hrec
  have hperm : ((ops.merged (lines.map (lineRecord ops))).flatMap recordLines).Perm lines := by
    refine Eq.subst (motive := fun l => List.Perm _ l) hflat ?_
    unfold Ops.merged
    split
    · exact mergeRecords_lines fun q hq => (hrec q hq).2.1
    · exact List.Perm.refl _
  have hsame : (ops.merged (lines.map (lineRecord ops))).filter (fun r => !r.changed) =
      ops.merged (lines.map (lineRecord ops)) :=
    List.filter_eq_self.mpr fun r hr => by simp [(hall r hr).1]
  refine ⟨fun r hr _ => (hall r hr).2,?_,fun r hr hch => ?_,nofun,nofun⟩
  · rw [hsame,hkeep]
    exact hperm
  · rw [(hall r hr).1] at hch
    cases hch

end Editing

section Reopening
variable {ops : Ops α} {lines : List Bytes} {edits : List (Edit α)} {rs : List (Record α)}

/-- The lines that stand for a record in the written file, with those of a stored entry given. -/
def writtenLines (entryLines : α → List Bytes) (r : Record α) : List Bytes :=
  if r.changed then r.eptr.elim [] entryLines else recordLines r

/-- Lines from which an entry is read back, and nothing else under its name. -/
def Rereads (ops : Ops α) (entryLines : α → List Bytes) (a : α) : Prop :=
  (∀ line ∈ entryLines a, lineName ops line = some (ops.getname a)) ∧
    ∃ r, ops.merged ((entryLines a).map (lineRecord ops)) = [r] ∧ r.eptr = some a

theorem filter_flatMap_of {β : Type} {f : β → List Bytes} {l : List β} {test : Bytes → Bool} {keep : β → Bool}
    (h : ∀ b ∈ l, ∀ line ∈ f b, test line = keep b) :
    (l.flatMap f).filter test = (l.filter keep).flatMap f := by
  induction l with
  | nil => rfl
  | cons b l ih =>
    obtain ⟨hb,hl⟩ := List.forall_mem_cons.mp h
    rw [List.flatMap_cons,List.filter_append,ih hl,List.filter_cons]
    cases hk : keep b with
    | true =>
      rw [if_pos rfl,List.flatMap_cons,List.filter_eq_self.mpr fun line hline => (hb line hline).trans hk]
    | false =>
      rw [if_neg Bool.false_ne_true,List.filter_eq_nil_iff.mpr fun line hline => by simp [hb line hline,hk],
        List.nil_append]

theorem named_merged (hparts : ops.NamesParts) (name : Bytes) :
    named ops name (ops.merged rs) = ops.merged (named ops name rs) := by
  unfold Ops.merged named
  cases hook : ops.openHook with
  | none => rfl
  | some split => exact mergeRecords_filter hook hparts name

theorem named_lineRecords (name : Bytes) (lines : List Bytes) :
    named ops name (lines.map (lineRecord ops)) =
      (lines.filter fun line => lineName ops line == some name).map (lineRecord ops) :=
  List.filter_map

theorem Edited.name_touched (h : Edited ops lines edits rs) {r : Record α} (hr : r ∈ rs) :
    (r.changed = true ↔ ∃ e ∈ edits, r.name ops = some (e.name ops)) := by
  constructor
  · intro hch
    obtain ⟨a,ha,hlast⟩ := h.changed r hr hch
    refine ⟨.update a,(List.mem_filter.mp (List.mem_of_getLast? hlast)).1,?_⟩
    rw [Record.name,ha]
    rfl
  · rintro ⟨e,he,hname⟩
    have hm : r ∈ named ops (e.name ops) rs := List.mem_filter.mpr ⟨hr,by simp [hname]⟩
    have hne : (edits.filter fun e' => e'.name ops == e.name ops) ≠ [] :=
      List.ne_nil_of_mem (List.mem_filter.mpr ⟨he,beq_self_eq_true _⟩)
    obtain ⟨last,hlast⟩ := Option.ne_none_iff_exists'.mp (List.getLast?_eq_none_iff.not.mpr hne)
    cases last with
    | update a =>
      obtain ⟨r',hr',-,hch⟩ := h.updated (e.name ops) a hlast
      rw [hr',List.mem_singleton] at hm
      rwa [hm]
    | remove name =>
      rw [h.removed (e.name ops) name hlast] at hm
      cases hm

/-- The written file, read again: each name as it was last edited, every other line as before. -/
theorem Edited.reopened (h : Edited ops lines edits rs) (hparts : ops.NamesParts) {entryLines : α → List Bytes}
    (hentry : ∀ r ∈ rs, r.changed = true → ∀ a ∈ r.eptr, Rereads ops entryLines a) :
    (∀ name a, lastEdit ops name edits = some (.update a) → ∃ r,
      named ops name (ops.merged ((rs.flatMap (writtenLines entryLines)).map (lineRecord ops))) = [r] ∧
        r.eptr = some a) ∧
    (∀ name name', lastEdit ops name edits = some (.remove name') →
      named ops name (ops.merged ((rs.flatMap (writtenLines entryLines)).map (lineRecord ops))) = []) ∧
    ((rs.flatMap (writtenLines entryLines)).filter (untouched ops edits)).Perm
      (lines.filter (untouched ops edits)) := by
  have hnames : ∀ r ∈ rs, ∀ line ∈ writtenLines entryLines r, lineName ops line = r.name ops := by
    intro r hr line hline
    unfold writtenLines at hline
    split at hline
    · rename_i hch
      cases ha : r.eptr with
      | none =>
        rw [ha] at hline
        cases hline
      | some a =>
        rw [ha] at hline
        rw [(hentry r hr hch a ha).1 line hline,Record.name,ha]
        rfl
    · rename_i hch
      exact (h.faithful r hr (by simpa using hch)).2 line hline
  have hnamed : ∀ name, named ops name (ops.merged ((rs.flatMap (writtenLines entryLines)).map (lineRecord ops))) =
      ops.merged (((named ops name rs).flatMap (writtenLines entryLines)).map (lineRecord ops)) := fun name => by
    rw [named_merged hparts,named_lineRecords,named,
      filter_flatMap_of fun r hr line hline => by rw [hnames r hr line hline]]
  refine ⟨fun name a hlast => ?_,fun name name' hlast => ?_,?_⟩
  · obtain ⟨r,hr,ha,hch⟩ := h.updated name a hlast
    have hmem : r ∈ rs := by
      have hm : r ∈ named ops name rs := hr ▸ List.mem_singleton_self r
      exact (List.mem_filter.mp hm).1
    obtain ⟨r',hr',ha'⟩ := (hentry r hmem hch a ha).2
    refine ⟨r',?_,ha'⟩
    rw [hnamed,hr,List.flatMap_singleton,writtenLines,if_pos hch,ha]
    exact hr'
  · rw [hnamed,h.removed name name' hlast]
    unfold Ops.merged
    split <;> simp [mergeRecords]
  · have hkeep : ∀ r ∈ rs, ∀ line ∈ writtenLines entryLines r, untouched ops edits line = !r.changed := by
      intro r hr line hline
      have htouched := h.name_touched hr
      rw [untouched,hnames r hr line hline,Bool.eq_iff_iff,List.all_eq_true,Bool.not_eq_true',
        ← Bool.not_eq_true,htouched]
      simp
    have hunch : (rs.filter fun r => !r.changed).flatMap (writtenLines entryLines) =
        (rs.filter fun r => !r.changed).flatMap recordLines :=
      List.flatMap_congr fun r hr => if_neg (by simpa using (List.mem_filter.mp hr).2)
    rw [filter_flatMap_of hkeep,hunch]
    exact h.kept

end Reopening

end UserDb.Commonio
