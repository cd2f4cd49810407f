import UserDb.Commonio.Invariant

/-! The edits of an open database: what each call does to the list and to the records. -/
namespace UserDb.Commonio
open UserDb.Base UserDb.Base.LinkedList

variable {α : Type} {ops : Ops α} {db : Db α} {l : List Nat} {stale : Bool}

/-- The entries in front of the first NIS entry, and the rest. -/
def beforeNis (ops : Ops α) (content : Nat → Record α) (l : List Nat) : List Nat :=
  l.takeWhile fun q => !(content q).isNis ops

def fromNis (ops : Ops α) (content : Nat → Record α) (l : List Nat) : List Nat :=
  l.dropWhile fun q => !(content q).isNis ops

/-- The list after a new entry was linked: behind a stale tail it is out of reach. -/
def withNew (ops : Ops α) (content : Nat → Record α) (l : List Nat) (stale : Bool) (p : Nat) : List Nat :=
  if stale && (fromNis ops content l).isEmpty then l
  else beforeNis ops content l ++ p :: fromNis ops content l

/-- The record of an entry that a call stores. -/
def editedRecord (old : Option Bytes) (eptr : α) : Record α := ⟨old,some eptr,true⟩

theorem beforeNis_append_fromNis (content : Nat → Record α) :
    beforeNis ops content l ++ fromNis ops content l = l := List.takeWhile_append_dropWhile

/-- Linking a new entry, for the content that the entries of the list have. -/
theorem Rep.linkNew (h : Rep db l stale) {p : Nat} (hp : db.Unused l p) {content : Nat → Record α}
    (hc : ∀ q ∈ l, db.record q = content q) :
    Rep (db.addOneEntryNis ops p) (withNew ops content l stale p) stale := by
  have hl : beforeNis ops content l ++ fromNis ops content l = l := beforeNis_append_fromNis content
  have hbefore : ∀ q ∈ beforeNis ops content l, (db.record q).isNis ops = false := fun q hq => by
    rw [hc q ((List.takeWhile_sublist _).subset hq)]
    simpa using List.mem_takeWhile_imp hq
  have hfrom : ∀ q ∈ (fromNis ops content l).head?, (db.record q).isNis ops = true := fun q hq => by
    have hfirst := List.head?_dropWhile_not (fun q => !(content q).isNis ops) l
    rw [Option.mem_def] at hq
    rw [show (l.dropWhile fun q => !(content q).isNis ops).head? = some q from hq] at hfirst
    rw [hc q ((List.dropWhile_sublist _).subset (List.mem_of_head? hq))]
    simpa using hfirst
  have hrep : Rep db (beforeNis ops content l ++ fromNis ops content l) stale := hl.symm ▸ h
  have hunused : db.Unused (beforeNis ops content l ++ fromNis ops content l) p := hl.symm ▸ hp
  have hadd := hrep.addOneEntryNis ops hunused hbefore hfrom
  unfold withNew
  cases hys : fromNis ops content l with
  | nil =>
    rw [hys,List.append_nil] at hl
    rw [hys] at hadd
    simpa [hl] using hadd
  | cons q ys =>
    rw [hys] at hadd
    simpa using hadd

/-- The open database refuses, stores a record, or links a new entry. -/
theorem commonioUpdate_cases (h : Rep db l stale) (eptr : α) (memory : Bool) {result : Bool} {db' : Db α}
    (hrun : commonioUpdate ops db eptr memory = (result,db')) :
    (result = false ∧ db' = db) ∨
    (result = true ∧ db'.changed = true ∧ ∃ xs p ys, l = xs ++ p :: ys ∧
      (db.record p).name ops = some (ops.getname eptr) ∧
      (∀ q ∈ xs ++ ys, (db.record q).name ops ≠ some (ops.getname eptr)) ∧ Rep db' l stale ∧
      db'.record = Function.update db.record p (editedRecord (db.record p).line eptr)) ∨
    (result = true ∧ db'.changed = true ∧ (∀ q ∈ l, (db.record q).name ops ≠ some (ops.getname eptr)) ∧
      db.fresh ∉ l ∧ Rep db' (withNew ops db.record l stale db.fresh) stale ∧
      db'.record = Function.update db.record db.fresh (editedRecord none eptr)) := by
  unfold commonioUpdate at hrun
  split at hrun
  · cases hrun
    exact .inl ⟨rfl,rfl⟩
  · rw [h.findEntryByName] at hrun
    cases hfind : l.find? fun p => (db.record p).name ops == some (ops.getname eptr) with
    | none =>
      simp only [hfind] at hrun
      split at hrun
      · cases hrun
        exact .inl ⟨rfl,rfl⟩
      · have hnone : ∀ q ∈ l, (db.record q).name ops ≠ some (ops.getname eptr) := fun q hq => by
          simpa using List.find?_eq_none.mp hfind q hq
        obtain ⟨halloc,hunused⟩ := h.allocate ⟨none,some eptr,none,none,true⟩
        have hkeep : ∀ q ∈ l, (db.allocate ⟨none,some eptr,none,none,true⟩).record q = db.record q :=
          fun q hq => by
            rw [record_allocate,Function.update_of_ne (ne_of_mem_of_not_mem hq hunused.notMem)]
        cases hrun
        refine .inr (.inr ⟨rfl,rfl,hnone,hunused.notMem,?_,?_⟩)
        · exact (halloc.linkNew hunused hkeep).withFlags true _ _ _
        · refine Eq.trans (record_addOneEntryNis ops halloc.toCore) ?_
          exact record_allocate _
    | some p =>
      obtain ⟨xs,ys,rfl,hxs,hp⟩ := find?_split hfind
      simp only [hfind] at hrun
      rw [h.toCore.nextEntryByName] at hrun
      split at hrun
      · cases hrun
        exact .inl ⟨rfl,rfl⟩
      · rename_i hlater
        simp only [Bool.or_eq_true,not_or,Bool.not_eq_true,Option.isSome_eq_false_iff,Option.isNone_iff_eq_none,
          List.find?_eq_none] at hlater
        cases hrun
        refine .inr (.inl ⟨rfl,rfl,xs,p,ys,rfl,by simpa using hp,fun q hq => ?_,?_,?_⟩)
        · rcases List.mem_append.mp hq with hq | hq
          · simpa using hxs q hq
          · simpa using hlater.2 q hq
        · have hstore := h.store (p := p) (e := { db.entries p with eptr := some eptr, changed := true }) rfl rfl
          have hcursor : ∀ q, some p = some q → q ∈ xs ++ p :: ys := fun q hq => by
            cases hq
            simp
          exact (hstore.withCursor hcursor).withFlags true _ _ _
        · exact record_store _

/-- The open database refuses, or links a new entry at the end. -/
theorem Rep.commonioAppend (h : Rep db l stale) (eptr : α) (memory : Bool) :
    ∃ l', Rep (commonioAppend db eptr memory).2 l' stale := by
  unfold Commonio.commonioAppend
  split
  · exact ⟨l,h⟩
  · obtain ⟨halloc,hunused⟩ := h.allocate ⟨none,some eptr,none,none,true⟩
    exact ⟨_,(halloc.addOneEntry hunused).withFlags true _ _ _⟩

/-- A refusal changes nothing; otherwise the new entry is the last one. -/
theorem commonioAppend_cases (h : Rep db l false) (eptr : α) (memory : Bool) {result : Bool} {db' : Db α}
    (hrun : commonioAppend db eptr memory = (result,db')) :
    (result = false ∧ db' = db) ∨
    (result = true ∧ db'.changed = true ∧ db'.isopen = db.isopen ∧ db'.readonly = db.readonly ∧ db.fresh ∉ l ∧
      Rep db' (l ++ [db.fresh]) false ∧ db'.record = Function.update db.record db.fresh (editedRecord none eptr)) := by
  unfold Commonio.commonioAppend at hrun
  split at hrun
  · cases hrun
    exact .inl ⟨rfl,rfl⟩
  · obtain ⟨halloc,hunused⟩ := h.allocate ⟨none,some eptr,none,none,true⟩
    have hadd := halloc.addOneEntry hunused
    rw [if_neg Bool.false_ne_true] at hadd
    have hflags := setNextAt_shell
      (((db.allocate ⟨none,some eptr,none,none,true⟩).setNext db.fresh none).setPrev db.fresh db.tail) db.tail (some db.fresh)
    cases hrun
    refine .inr ⟨rfl,rfl,?_,?_,hunused.notMem,hadd.withFlags true _ _ _,?_⟩
    · rw [addOneEntry_eq]
      exact hflags.isopen
    · rw [addOneEntry_eq]
      exact hflags.readonly
    · refine Eq.trans (record_addOneEntry _ _) ?_
      exact record_allocate _

/-- The open database refuses, or takes out the only entry of the name. -/
theorem commonioRemove_cases (h : Rep db l stale) (name : Bytes) {result : Bool} {db' : Db α}
    (hrun : commonioRemove ops db name = (result,db')) :
    (result = false ∧ db' = db) ∨
    (result = true ∧ db'.changed = true ∧ ∃ xs p ys, l = xs ++ p :: ys ∧
      (db.record p).name ops = some name ∧ (∀ q ∈ xs ++ ys, (db.record q).name ops ≠ some name) ∧
      Rep db' (xs ++ ys) (stale && !ys.isEmpty) ∧ db'.record = db.record) := by
  unfold commonioRemove at hrun
  split at hrun
  · cases hrun
    exact .inl ⟨rfl,rfl⟩
  · rw [h.findEntryByName] at hrun
    cases hfind : l.find? fun p => (db.record p).name ops == some name with
    | none =>
      simp only [hfind] at hrun
      cases hrun
      exact .inl ⟨rfl,rfl⟩
    | some p =>
      obtain ⟨xs,ys,rfl,hxs,hp⟩ := find?_split hfind
      simp only [hfind] at hrun
      rw [h.toCore.nextEntryByName] at hrun
      split at hrun
      · cases hrun
        exact .inl ⟨rfl,rfl⟩
      · rename_i hlater
        simp only [Bool.not_eq_true,Option.isSome_eq_false_iff,Option.isNone_iff_eq_none,
          List.find?_eq_none] at hlater
        cases hrun
        refine .inr ⟨rfl,by rw [commonioDelEntry_eq],xs,p,ys,rfl,by simpa using hp,fun q hq => ?_,h.delEntry,
          record_commonioDelEntry db p⟩
        rcases List.mem_append.mp hq with hq | hq
        · simpa using hxs q hq
        · simpa using hlater q hq

/-- Looking up only moves the cursor, within the list. -/
theorem Rep.commonioLocate (h : Rep db l stale) (name : Bytes) :
    Rep (commonioLocate ops db name).2 l stale := by
  unfold Commonio.commonioLocate
  split
  · exact h
  · rw [h.findEntryByName]
    cases hfind : l.find? fun p => (db.record p).name ops == some name with
    | none => exact h
    | some p =>
      refine h.withCursor fun q hq => ?_
      cases hq
      exact List.mem_of_find?_eq_some hfind

theorem Rep.commonioRewind (h : Rep db l stale) : Rep (commonioRewind db).2 l stale := by
  unfold Commonio.commonioRewind
  split
  · exact h
  · exact h.withCursor nofun

theorem Rep.commonioNext (h : Rep db l stale) : Rep (commonioNext db).2 l stale := by
  unfold Commonio.commonioNext
  split
  · exact h
  · refine h.withCursor fun q hq => ?_
    have hfrom := List.mem_of_find?_eq_some hq
    cases hcur : db.cursor with
    | none =>
      rw [hcur] at hfrom
      rwa [h.from_head] at hfrom
    | some p =>
      obtain ⟨xs,ys,rfl⟩ := List.append_of_mem (h.cursor p hcur)
      simp only [hcur] at hfrom
      rw [h.toCore.from_next] at hfrom
      exact List.mem_append_right xs (List.mem_cons_of_mem p hfrom)

end UserDb.Commonio
