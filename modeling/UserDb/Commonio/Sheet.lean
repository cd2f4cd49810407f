import UserDb.Base.Place
import UserDb.Base.Simulation
import UserDb.Commonio.Mode

/-! A database without its links: the list of its records and a place in it. Each call on the linked
entries is one on the list, with the same answer. -/
namespace UserDb.Commonio
open UserDb.Base UserDb.Base.LinkedList

/-- An open database as the list of its records, the cursor as a place in it. -/
structure Sheet (α : Type) where
  records : List (Record α)
  place : Option Nat
  changed : Bool
  readonly : Bool

variable {α : Type}

section Operations
variable (ops : Ops α) (sheet : Sheet α)

def Sheet.find (name : Bytes) : Option Nat := sheet.records.findIdx? fun r => r.name ops == some name

/-- Whether the name stands on another record behind the one at `i`. -/
def Sheet.foundAgain (name : Bytes) (i : Nat) : Bool := (sheet.records.drop (i + 1)).any fun r => r.name ops == some name

def Sheet.insert (i : Nat) (r : Record α) : Sheet α :=
  { sheet with records := sheet.records.insertIdx i r, place := sheet.place.map (shiftInsert i), changed := true }

/-- The cursor goes on to the next record where its own is taken out. -/
def Sheet.erase (i : Nat) : Sheet α :=
  let records := sheet.records.eraseIdx i
  { sheet with
    records := records
    place := (sheet.place.map (shiftErase i)).filter (· < records.length)
    changed := true }

def Sheet.store (i : Nat) (eptr : α) : Sheet α :=
  { sheet with
    records := sheet.records.modify i fun r => editedRecord r.line eptr
    place := some i
    changed := true }

/-- In the place of the record of its name, or in front of the first NIS record. -/
def Sheet.update (eptr : α) (memory : Bool) : Bool × Sheet α :=
  if sheet.readonly || !memory then (false,sheet)
  else
    match sheet.find ops (ops.getname eptr) with
    | some i => if sheet.foundAgain ops (ops.getname eptr) i then (false,sheet) else (true,sheet.store i eptr)
    | none => (true,sheet.insert (sheet.records.takeWhile fun r => !r.isNis ops).length (editedRecord none eptr))

def Sheet.append (eptr : α) (memory : Bool) : Bool × Sheet α :=
  if sheet.readonly || !memory then (false,sheet)
  else (true,sheet.insert sheet.records.length (editedRecord none eptr))

def Sheet.remove (name : Bytes) : Bool × Sheet α :=
  if sheet.readonly then (false,sheet)
  else
    match sheet.find ops name with
    | some i => if sheet.foundAgain ops name i then (false,sheet) else (true,sheet.erase i)
    | none => (false,sheet)

def Sheet.delEntry (i : Nat) : Sheet α := if i < sheet.records.length then sheet.erase i else sheet

def Sheet.locate (name : Bytes) : Option α × Sheet α :=
  match sheet.find ops name with
  | some i => ((sheet.records[i]?).bind Record.eptr,{ sheet with place := some i })
  | none => (none,sheet)

def Sheet.rewind : Sheet α := { sheet with place := none }

def Sheet.next : Option α × Sheet α :=
  let place := findAfter (fun r => r.eptr.isSome) sheet.records sheet.place
  ((elementAt sheet.records place).bind Record.eptr,{ sheet with place := place })

/-- The text of a record, which an entry that cannot be written does not have. -/
def Record.text (put : α → Option Bytes) (r : Record α) : Option Bytes :=
  if r.changed then r.eptr.bind put else some (r.line.elim [] (· ++ [newline]))

def Sheet.text (put : α → Option Bytes) : Option Bytes := (sheet.records.mapM (Record.text put)).map List.flatten

end Operations

/-- The linked entries are the records of the sheet, and the cursor is at its place. -/
structure Links (sheet : Sheet α) (db : Db α) (l : List Nat) : Prop where
  rep : Rep db l false
  records : l.map db.record = sheet.records
  place : db.cursor = elementAt l sheet.place
  inside : ∀ i, sheet.place = some i → i < sheet.records.length
  changed : db.changed = sheet.changed
  readonly : db.readonly = sheet.readonly
  isopen : db.isopen = true

section Searching
variable {ops : Ops α} {sheet : Sheet α} {db : Db α} {l xs ys : List Nat} {p : Nat} {name : Bytes}

/-- The first record of a name is that of the entry that is found, and both have the same ones behind. -/
theorem Links.find (h : Links sheet db l) (ops : Ops α) (name : Bytes) :
    (db.findEntryByName ops name = none ∧ sheet.find ops name = none) ∨
      ∃ xs p ys, l = xs ++ p :: ys ∧ db.findEntryByName ops name = some p ∧ sheet.find ops name = some xs.length ∧
        (db.nextEntryByName ops (db.nextOf p) name).isSome = sheet.foundAgain ops name xs.length := by
  rw [h.rep.findEntryByName,Sheet.find,← h.records,List.findIdx?_map]
  cases hfind : l.find? fun p => (db.record p).name ops == some name with
  | none =>
    left
    refine ⟨rfl,List.findIdx?_eq_none_iff.mpr fun q hq => ?_⟩
    simpa using List.find?_eq_none.mp hfind q hq
  | some p =>
    right
    obtain ⟨xs,ys,rfl,hxs,hp⟩ := find?_split hfind
    refine ⟨xs,p,ys,rfl,rfl,?_,?_⟩
    · have hnone : xs.findIdx? ((fun r => r.name ops == some name) ∘ db.record) = none :=
        List.findIdx?_eq_none_iff.mpr fun q hq => hxs q hq
      rw [List.findIdx?_append,hnone,List.findIdx?_cons]
      simp [hp]
    · rw [h.rep.toCore.nextEntryByName,Sheet.foundAgain,← h.records,List.map_append,List.map_cons]
      have hdrop : (xs.map db.record ++ db.record p :: ys.map db.record).drop (xs.length + 1) = ys.map db.record := by
        simp [List.drop_append]
      rw [hdrop,List.any_map]
      refine Bool.eq_iff_iff.mpr ?_
      rw [List.find?_isSome,List.any_eq_true]
      rfl

end Searching

section Edits
variable {ops : Ops α} {sheet : Sheet α} {db db' : Db α} {l xs ys : List Nat} {p : Nat}

private theorem map_update_of_notMem {content : Nat → Record α} {r : Record α} (hp : p ∉ l) :
    l.map (Function.update content p r) = l.map content :=
  List.map_congr_left fun _ hq => Function.update_of_ne (ne_of_mem_of_not_mem hq hp) _ _

theorem map_update_middle {content : Nat → Record α} {r : Record α} (hnodup : (xs ++ p :: ys).Nodup) :
    (xs ++ p :: ys).map (Function.update content p r) = xs.map content ++ r :: ys.map content := by
  have hp : p ∉ xs ++ ys := (List.nodup_cons.mp (List.nodup_middle.mp hnodup)).1
  rw [List.mem_append,not_or] at hp
  rw [List.map_append,List.map_cons,map_update_of_notMem hp.1,map_update_of_notMem hp.2,Function.update_self]

/-- A new value in its entry, and the cursor there. -/
theorem Links.store (h : Links sheet db (xs ++ p :: ys)) (eptr : α) :
    Links (sheet.store xs.length eptr)
      { db.store p { db.entries p with eptr := some eptr, changed := true } with cursor := some p, changed := true } (xs ++ p :: ys) := by
  have hstore := h.rep.store (p := p) (e := { db.entries p with eptr := some eptr, changed := true }) rfl rfl
  have hcursor : ∀ q, some p = some q → q ∈ xs ++ p :: ys := by
    rintro q ⟨⟩
    exact List.mem_append_right xs List.mem_cons_self
  have hrecord : (db.store p { db.entries p with eptr := some eptr, changed := true }).record =
      Function.update db.record p (editedRecord (db.record p).line eptr) := record_store _
  have hrecords : sheet.records = xs.map db.record ++ db.record p :: ys.map db.record := by
    rw [← h.records,List.map_append,List.map_cons]
  have hstored : (sheet.store xs.length eptr).records =
      xs.map db.record ++ editedRecord (db.record p).line eptr :: ys.map db.record := by
    rw [Sheet.store,hrecords]
    have hmodify := modify_middle (xs.map db.record) (db.record p) (ys.map db.record) fun r => editedRecord r.line eptr
    rwa [List.length_map] at hmodify
  refine ⟨(hstore.withCursor hcursor).withFlags true _ _ _,?_,elementAt_append_length.symm,?_,rfl,h.readonly,h.isopen⟩
  · rw [hstored,← map_update_middle h.rep.nodup]
    exact congrArg (List.map · (xs ++ p :: ys)) hrecord
  · rintro i ⟨⟩
    rw [hstored]
    simp

/-- A new entry between two stretches: the cursor stays on its own. -/
theorem Links.insert (h : Links sheet db (xs ++ ys)) (eptr : α) (hrep : Rep db' (xs ++ p :: ys) false)
    (hrecord : db'.record = Function.update db.record p (editedRecord none eptr)) (hcursor : db'.cursor = db.cursor)
    (hchanged : db'.changed = true) (hmode : SameMode db db') :
    Links (sheet.insert xs.length (editedRecord none eptr)) db' (xs ++ p :: ys) := by
  have hrecords : sheet.records = xs.map db.record ++ ys.map db.record := by rw [← h.records,List.map_append]
  have hinserted : (sheet.insert xs.length (editedRecord none eptr)).records =
      xs.map db.record ++ editedRecord none eptr :: ys.map db.record := by
    rw [Sheet.insert,hrecords]
    have hinsert := insertIdx_middle (xs.map db.record) (editedRecord none eptr) (ys.map db.record)
    rwa [List.length_map] at hinsert
  refine ⟨hrep,?_,?_,?_,hchanged,hmode.readonly.trans h.readonly,hmode.isopen.trans h.isopen⟩
  · rw [hrecord,hinserted,map_update_middle hrep.nodup]
  · rw [hcursor,h.place]
    exact elementAt_insert.symm
  · intro i hi
    obtain ⟨j,hj,rfl⟩ := Option.map_eq_some_iff.mp hi
    have hlt := h.inside j hj
    rw [hrecords,List.length_append,List.length_map,List.length_map] at hlt
    rw [hinserted,List.length_append,List.length_cons,List.length_map,List.length_map,shiftInsert]
    split <;> omega

private theorem cursor_commonioDelEntry (db : Db α) (p : Nat) :
    (commonioDelEntry db p).cursor = if some p = db.cursor then db.nextOf p else db.cursor := by rw [commonioDelEntry_eq]

theorem Links.erase (h : Links sheet db (xs ++ p :: ys)) : Links (sheet.erase xs.length) (commonioDelEntry db p) (xs ++ ys) := by
  have hrecords : sheet.records = xs.map db.record ++ db.record p :: ys.map db.record := by
    rw [← h.records,List.map_append,List.map_cons]
  have herased : (sheet.erase xs.length).records = xs.map db.record ++ ys.map db.record := by
    rw [Sheet.erase,hrecords]
    have herase := eraseIdx_middle (xs.map db.record) (db.record p) (ys.map db.record)
    rwa [List.length_map] at herase
  have hlength : (sheet.erase xs.length).records.length = (xs ++ ys).length := by rw [herased]; simp
  have hnext : db.nextOf p = ys.head? := by rw [h.rep.linked.next_eq,Option.or_none]
  have hmode := commonioDelEntry_mode db p
  have hrep := h.rep.delEntry
  rw [Bool.false_and] at hrep
  have hplace : (sheet.erase xs.length).place = (sheet.place.map (shiftErase xs.length)).filter (· < (xs ++ ys).length) := by
    rw [← hlength]
    rfl
  refine ⟨hrep,?_,?_,?_,by rw [commonioDelEntry_eq]; rfl,hmode.readonly.trans h.readonly,hmode.isopen.trans h.isopen⟩
  · rw [record_commonioDelEntry,herased,List.map_append]
  · rw [cursor_commonioDelEntry,hnext,hplace]
    exact elementAt_erase h.rep.nodup h.place
  · intro i hi
    rw [hplace,Option.filter_eq_some_iff] at hi
    rw [hlength]
    exact of_decide_eq_true hi.2

end Edits

section Calls
variable {ops : Ops α} {sheet : Sheet α} {db : Db α} {l : List Nat}

/-- A new entry in front of the first NIS entry. -/
theorem Links.addOneEntryNis (h : Links sheet db l) (eptr : α) :
    Links (sheet.insert (sheet.records.takeWhile fun r => !r.isNis ops).length (editedRecord none eptr))
      { (db.allocate ⟨none,some eptr,none,none,true⟩).addOneEntryNis ops db.fresh with changed := true }
      (beforeNis ops db.record l ++ db.fresh :: fromNis ops db.record l) := by
  obtain ⟨halloc,hunused⟩ := h.rep.allocate ⟨none,some eptr,none,none,true⟩
  have hframe := addOneEntryNis_frame ops (db.allocate ⟨none,some eptr,none,none,true⟩) db.fresh
  have hrecord := (record_addOneEntryNis ops (p := db.fresh) halloc.toCore).trans (record_allocate _)
  have hkeep : ∀ q ∈ l, (db.allocate ⟨none,some eptr,none,none,true⟩).record q = db.record q := fun q hq => by
    rw [record_allocate,Function.update_of_ne (ne_of_mem_of_not_mem hq hunused.notMem)]
  have hplace : (sheet.records.takeWhile fun r => !r.isNis ops).length = (beforeNis ops db.record l).length := by
    rw [← h.records,List.takeWhile_map,List.length_map]
    rfl
  have hl : beforeNis ops db.record l ++ fromNis ops db.record l = l := beforeNis_append_fromNis db.record
  rw [hplace]
  refine Links.insert (hl.symm ▸ h) eptr ((halloc.linkNew hunused hkeep).withFlags true _ _ _) hrecord hframe.1 rfl ?_
  exact ⟨hframe.2.isopen,hframe.2.readonly,hframe.2.locked⟩

theorem Links.update (ops : Ops α) (h : Links sheet db l) (eptr : α) (memory : Bool) :
    (commonioUpdate ops db eptr memory).1 = (sheet.update ops eptr memory).1 ∧
      ∃ l', Links (sheet.update ops eptr memory).2 (commonioUpdate ops db eptr memory).2 l' := by
  have hopen := h.isopen
  have hreadonly := h.readonly
  unfold commonioUpdate Sheet.update
  rw [hopen,hreadonly]
  cases hro : sheet.readonly with
  | true => exact ⟨rfl,l,h⟩
  | false =>
    simp only [Bool.not_true,Bool.false_or,Bool.false_eq_true,if_false]
    rcases h.find ops (ops.getname eptr) with ⟨hentry,hsheet⟩ | ⟨xs,p,ys,rfl,hentry,hsheet,hagain⟩
    · rw [hentry,hsheet]
      cases memory with
      | false => exact ⟨rfl,l,h⟩
      | true =>
        simp only [Bool.not_true,Bool.false_eq_true,if_false]
        exact ⟨trivial,_,h.addOneEntryNis eptr⟩
    · rw [hentry,hsheet]
      simp only [hagain]
      cases memory with
      | false => exact ⟨rfl,_,h⟩
      | true =>
        simp only [Bool.not_true,Bool.false_or,Bool.false_eq_true,if_false]
        split
        · exact ⟨rfl,_,h⟩
        · exact ⟨rfl,_,h.store eptr⟩

/-- A new entry behind all others. -/
theorem Links.addOneEntry (h : Links sheet db l) (eptr : α) :
    Links (sheet.insert sheet.records.length (editedRecord none eptr))
      { (db.allocate ⟨none,some eptr,none,none,true⟩).addOneEntry db.fresh with changed := true } (l ++ [db.fresh]) := by
  obtain ⟨halloc,hunused⟩ := h.rep.allocate ⟨none,some eptr,none,none,true⟩
  have hadd := halloc.addOneEntry hunused
  rw [if_neg Bool.false_ne_true] at hadd
  have hmode := addOneEntry_mode (db.allocate ⟨none,some eptr,none,none,true⟩) db.fresh
  have hrecord := (record_addOneEntry (db.allocate ⟨none,some eptr,none,none,true⟩) db.fresh).trans (record_allocate _)
  have hcursor : ((db.allocate ⟨none,some eptr,none,none,true⟩).addOneEntry db.fresh).cursor = db.cursor := by
    rw [addOneEntry_eq]
    exact (setNextAt_shell _ _ _).cursor
  have hlength : sheet.records.length = l.length := by rw [← h.records,List.length_map]
  rw [hlength]
  refine Links.insert (by rwa [List.append_nil]) eptr (hadd.withFlags true _ _ _) hrecord hcursor rfl ?_
  exact ⟨hmode.isopen,hmode.readonly,hmode.locked⟩

theorem Links.append (h : Links sheet db l) (eptr : α) (memory : Bool) :
    (commonioAppend db eptr memory).1 = (sheet.append eptr memory).1 ∧
      ∃ l', Links (sheet.append eptr memory).2 (commonioAppend db eptr memory).2 l' := by
  unfold commonioAppend Sheet.append
  rw [h.isopen,h.readonly,Bool.not_true,Bool.false_or]
  split
  · exact ⟨rfl,l,h⟩
  · exact ⟨rfl,_,h.addOneEntry eptr⟩

theorem Links.remove (ops : Ops α) (h : Links sheet db l) (name : Bytes) :
    (commonioRemove ops db name).1 = (sheet.remove ops name).1 ∧
      ∃ l', Links (sheet.remove ops name).2 (commonioRemove ops db name).2 l' := by
  unfold commonioRemove Sheet.remove
  rw [h.isopen,h.readonly,Bool.not_true,Bool.false_or]
  split
  · exact ⟨rfl,l,h⟩
  · rcases h.find ops name with ⟨hentry,hsheet⟩ | ⟨xs,p,ys,rfl,hentry,hsheet,hagain⟩
    · rw [hentry,hsheet]
      exact ⟨rfl,l,h⟩
    · rw [hentry,hsheet]
      simp only [hagain]
      split
      · exact ⟨rfl,_,h⟩
      · exact ⟨rfl,_,h.erase⟩

theorem Links.delEntry (h : Links sheet db l) (i : Nat) :
    ∃ l', Links (sheet.delEntry i) (((db.from db.head)[i]?).elim db (commonioDelEntry db)) l' := by
  rw [h.rep.from_head]
  have hlength : sheet.records.length = l.length := by rw [← h.records,List.length_map]
  unfold Sheet.delEntry
  rw [hlength]
  split
  · rename_i hi
    have hsplit : l = l.take i ++ l[i] :: l.drop (i + 1) := by rw [← List.drop_eq_getElem_cons hi,List.take_append_drop]
    have hi' : (l.take i).length = i := by rw [List.length_take]; omega
    rw [List.getElem?_eq_getElem hi]
    have herase := Links.erase (hsplit ▸ h)
    rw [hi'] at herase
    exact ⟨_,herase⟩
  · rename_i hi
    rw [List.getElem?_eq_none (by omega)]
    exact ⟨l,h⟩

theorem Links.locate (ops : Ops α) (h : Links sheet db l) (name : Bytes) :
    (commonioLocate ops db name).1 = (sheet.locate ops name).1 ∧
      ∃ l', Links (sheet.locate ops name).2 (commonioLocate ops db name).2 l' := by
  unfold commonioLocate Sheet.locate
  rw [if_neg (by simp [h.isopen])]
  rcases h.find ops name with ⟨hentry,hsheet⟩ | ⟨xs,p,ys,rfl,hentry,hsheet,_⟩
  · rw [hentry,hsheet]
    exact ⟨rfl,l,h⟩
  · rw [hentry,hsheet]
    have hrecord : sheet.records[xs.length]? = some (db.record p) := by
      rw [← h.records,List.map_append,List.map_cons]
      simp
    have hcursor : ∀ q, some p = some q → q ∈ xs ++ p :: ys := by
      rintro q ⟨⟩
      exact List.mem_append_right xs List.mem_cons_self
    refine ⟨?_,_,h.rep.withCursor hcursor,h.records,elementAt_append_length.symm,?_,h.changed,h.readonly,h.isopen⟩
    · simp only [hrecord]
      rfl
    · rintro i ⟨⟩
      exact (List.getElem?_eq_some_iff.mp hrecord).1

theorem Links.rewind (h : Links sheet db l) : (commonioRewind db).1 = true ∧ Links sheet.rewind (commonioRewind db).2 l := by
  unfold commonioRewind
  rw [if_neg (by simp [h.isopen])]
  exact ⟨rfl,h.rep.withCursor (by rintro p ⟨⟩),h.records,rfl,by rintro i ⟨⟩,h.changed,h.readonly,h.isopen⟩

/-- The walk goes on behind the place of the cursor. -/
theorem Links.start (h : Links sheet db l) :
    db.from (db.cursor.elim db.head db.nextOf) = l.drop (sheet.place.elim 0 (· + 1)) := by
  rw [h.place]
  cases hplace : sheet.place with
  | none => exact h.rep.from_head
  | some i =>
    have hi := h.inside i hplace
    rw [← h.records,List.length_map] at hi
    have hsplit : l = l.take i ++ l[i] :: l.drop (i + 1) := by rw [← List.drop_eq_getElem_cons hi,List.take_append_drop]
    rw [elementAt_some,List.getElem?_eq_getElem hi]
    exact (Core.from_next (hsplit ▸ h.rep.toCore))

theorem Links.next (h : Links sheet db l) :
    (commonioNext db).1 = sheet.next.1 ∧ Links sheet.next.2 (commonioNext db).2 l := by
  have hcursor : (l.drop (sheet.place.elim 0 (· + 1))).find? (fun p => (db.entries p).eptr.isSome) =
      elementAt l sheet.next.2.place := by
    refine (elementAt_findAfter (fun p => (db.entries p).eptr.isSome) l sheet.place).symm.trans ?_
    refine congrArg (elementAt l) ?_
    show _ = findAfter (fun r => r.eptr.isSome) sheet.records sheet.place
    rw [← h.records,findAfter_map]
    rfl
  have hnext : commonioNext db = ((elementAt l sheet.next.2.place).bind fun p => (db.entries p).eptr,
      { db with cursor := elementAt l sheet.next.2.place }) := by
    rw [← hcursor,← h.start]
    unfold commonioNext
    rw [if_neg (by simp [h.isopen])]
    cases db.cursor <;> rfl
  have hinside : ∀ i, sheet.next.2.place = some i → i < sheet.records.length := fun i hi => findAfter_lt hi
  rw [hnext]
  refine ⟨?_,h.rep.withCursor fun p hp => ?_,h.records,rfl,hinside,h.changed,h.readonly,h.isopen⟩
  · have hfound : elementAt sheet.records sheet.next.2.place = (elementAt l sheet.next.2.place).map db.record := by
      rw [← h.records]
      cases sheet.next.2.place with
      | none => rfl
      | some i => simp
    refine Eq.trans ?_ (congrArg (Option.bind · Record.eptr) hfound.symm)
    cases elementAt l sheet.next.2.place <;> rfl
  · obtain ⟨i,_,hi⟩ := Option.bind_eq_some_iff.mp hp
    exact List.mem_of_getElem? hi

end Calls

end UserDb.Commonio
