import UserDb.Commonio.Cursor
import UserDb.Programs.Setup

/-! Loops of a program that go over an open database and store what they make of the entries
they come past. -/
namespace UserDb.Programs
open UserDb.Base UserDb.Commonio

variable {α : Type}

/-- The loop from the cursor on. `change` passes over an entry, or gives a copy of it and
whether the copy is to be stored; the copy and the store need memory. -/
def updateEach (ops : Ops α) (memoryCode updateCode : Nat) (memory : Nat → Bool × Bool) (change : α → Option (α × Bool)) :
    Nat → Db α → Except Exit (Db α)
  | 0, _ => .error .endless
  | fuel + 1, db =>
    match commonioNext db with
    | (none,db) => .ok db
    | (some a,db) =>
      match change a with
      | none => updateEach ops memoryCode updateCode memory change fuel db
      | some (a,changed) =>
        if !(memory fuel).1 then .error (.status memoryCode)
        else if !changed then updateEach ops memoryCode updateCode memory change fuel db
        else
          match commonioUpdate ops db a (memory fuel).2 with
          | (false,_) => .error (.status updateCode)
          | (true,db) => updateEach ops memoryCode updateCode memory change fuel db

/-- What a loop makes of an entry. -/
def changedEntry (change : α → Option (α × Bool)) (a : α) : α :=
  match change a with
  | some (a',true) => a'
  | _ => a

/-- What a loop leaves of a record: only a stored entry is marked, and lines that did not parse stay. -/
def changedRecord (change : α → Option (α × Bool)) (r : Record α) : Record α :=
  match r.eptr.bind change with
  | some (a,true) => editedRecord r.line a
  | _ => r

/-- The entries that parsed, as a program comes past them. -/
def entriesIn (db : Db α) : List α := entriesOf ((db.from db.head).map db.record)

variable {ops : Ops α} {memoryCode updateCode : Nat} {memory : Nat → Bool × Bool} {change : α → Option (α × Bool)}
  {db db' : Db α} {l xs ys : List Nat} {stale : Bool}

theorem entriesIn_chain (hchain : Chain db l) : entriesIn db = entriesOf (l.map db.record) := by
  rw [entriesIn,hchain.from_head]

theorem entriesIn_eq (hrep : Rep db l stale) : entriesIn db = entriesOf (l.map db.record) := entriesIn_chain hrep.chain

/-- What was just opened has its cursor in front of the list. -/
theorem commonioOpen_cursor {db₀ : Db α} {access : AccessMode} {create openMemory : Bool} {file : FileState}
    (h : commonioOpen ops db₀ access create file openMemory = (true,db)) : db.cursor = none := by
  unfold commonioOpen at h
  split at h
  · cases h
  · simp only at h
    split at h
    · cases h
    · cases file with
      | missing =>
        cases create with
        | false => cases h
        | true =>
          cases h
          rfl
      | unavailable => cases h
      | contents bytes readError =>
        simp only at h
        split at h
        · cases h
        · rename_i lines _
          split at h
          · cases h
          · cases h
            have hstart : Rep { db₀ with
                readonly := access == .rdonly
                head := none
                tail := none
                cursor := none
                changed := false } [] false := Rep.of_empty rfl rfl rfl
            obtain ⟨l,hread,_,hcursor⟩ := hstart.addLines ops lines
            change (Db.runOpenHook ops _).cursor = none
            unfold Db.runOpenHook
            split
            · rename_i split _
              have hcore : Core _ ([] ++ l) := hread.toCore
              rw [hread.head]
              obtain ⟨_,_,_,hframe⟩ := hcore.mergeFrom split _ hcursor (fun _ _ => rfl) hread.length_le
              exact hframe.cursor.trans hcursor
            · exact hcursor

/-- What a program finds in a database that it just opened. -/
theorem openFirst_opened {s : Storage α} {access : AccessMode} {create read openMemory : Bool} {file : Option Bytes}
    (h : openFirst s access create file read openMemory = (true,db)) :
    ∃ l stale, Rep db l stale ∧ db.isopen = true ∧ db.cursor = none ∧ l.length < db.fresh + 1 ∧
      readFile s.ops file = some (l.map db.record) := by
  unfold openFirst at h
  have hcursor := commonioOpen_cursor h
  cases read with
  | true =>
    obtain ⟨l,stale,hheld,hread,_⟩ := commonioOpen_held h
    exact ⟨l,stale,hheld.loaded.rep,hheld.isopen,hcursor,Nat.lt_succ_of_le hheld.loaded.rep.length_le,hread⟩
  | false =>
    exfalso
    unfold commonioOpen at h
    simp only [Bool.false_eq_true,if_false] at h
    split at h
    · cases h
    · split at h <;> cases h

private theorem changedRecord_of_none {r : Record α} (h : r.eptr = none) : changedRecord change r = r := by
  rw [changedRecord,h]
  rfl

private theorem changedRecord_eptr (r : Record α) : (changedRecord change r).eptr = r.eptr.map (changedEntry change) := by
  obtain ⟨line,eptr,changed⟩ := r
  cases eptr with
  | none => rfl
  | some a =>
    simp only [changedRecord,changedEntry,Option.bind_some,Option.map_some]
    split
    · rfl
    · rfl

/-- A change that passes over some entries, and stores the others where it made something of them. -/
theorem changedEntry_eq {a a' : α} {passes changed : Bool} (h : change a = if passes then none else some (a',changed))
    (hsame : changed = false → a' = a) : changedEntry change a = if passes then a else a' := by
  unfold changedEntry
  rw [h]
  cases passes with
  | true => rfl
  | false =>
    cases changed with
    | true => rfl
    | false => exact (hsame rfl).symm

theorem entriesOf_changed (rs : List (Record α)) :
    entriesOf (rs.map (changedRecord change)) = (entriesOf rs).map (changedEntry change) := by
  rw [entriesOf,entriesOf,List.filterMap_map,List.map_filterMap]
  apply List.filterMap_congr
  intro r _
  exact changedRecord_eptr r

/-- Storing an entry in the place of one of its name, in any open list that lets it. -/
theorem commonioUpdate_at (hrep : Rep db l stale) {p : Nat} (hp : p ∈ l) {a a' : α} (ha : (db.record p).eptr = some a)
    (hname : ops.getname a' = ops.getname a) {memory : Bool} (hrun : commonioUpdate ops db a' memory = (true,db')) :
    Rep db' l stale ∧ db'.cursor = some p ∧ db'.isopen = true ∧
      db'.record = Function.update db.record p (editedRecord (db.record p).line a') := by
  have hpname : (db.record p).name ops = some (ops.getname a') := by rw [Record.name,ha,Option.map_some,hname]
  have hopen := (edit_flags (edit_of_update hrun)).1
  rcases commonioUpdate_cases hrep a' memory hrun with ⟨hf,_⟩ | ⟨_,_,xs,q,ys,rfl,_,hne,hrep',hrec⟩ | ⟨_,_,hne,_⟩
  · cases hf
  · have hpq : p = q := by
      by_contra hpq
      refine hne p ?_ hpname
      rcases List.mem_append.mp hp with hx | hx
      · exact List.mem_append_left ys hx
      · exact List.mem_append_right xs (List.mem_of_ne_of_mem hpq hx)
    subst hpq
    have hfind : db.findEntryByName ops (ops.getname a') = some p := by
      rw [hrep.findEntryByName,List.find?_append,List.find?_eq_none.mpr,Option.none_or,List.find?_cons,hpname,BEq.rfl]
      intro q hq
      simpa using hne q (List.mem_append_left ys hq)
    exact ⟨hrep',commonioUpdate_cursor hrun hfind,hopen,hrec⟩
  · exact absurd hpname (hne p hp)

/-- The loop from the cursor on comes past every entry that is left once, or ends the program. -/
theorem updateEach_from {fuel : Nat} (hname : ∀ a a' changed, change a = some (a',changed) → ops.getname a' = ops.getname a)
    (hrep : Rep db (xs ++ ys) stale) (hcursor : db.cursor = xs.getLast?) (hopen : db.isopen = true) (hfuel : ys.length < fuel) :
    (∃ code, updateEach ops memoryCode updateCode memory change fuel db = .error (.status code)) ∨
    ∃ db', updateEach ops memoryCode updateCode memory change fuel db = .ok db' ∧ Rep db' (xs ++ ys) stale ∧
      db'.isopen = true ∧ (∀ q ∈ xs, db'.record q = db.record q) ∧
      ∀ q ∈ ys, db'.record q = changedRecord change (db.record q) := by
  induction fuel generalizing db xs ys with
  | zero => omega
  | succ fuel ih =>
    rw [updateEach]
    rcases hrep.chain.next hcursor hopen with ⟨hnone,hnext⟩ | ⟨us,p,vs,a,rfl,hus,ha,hnext⟩
    · rw [hnext]
      refine .inr ⟨_,rfl,hrep.withCursor nofun,hopen,fun _ _ => rfl,?_⟩
      intro q hq
      exact (changedRecord_of_none (hnone q hq)).symm
    · rw [hnext]
      simp only
      have hsplit : xs ++ (us ++ p :: vs) = (xs ++ us ++ [p]) ++ vs := by simp
      have hmem : p ∈ xs ++ (us ++ p :: vs) := by simp
      have hmoved : Rep { db with cursor := some p } (xs ++ (us ++ p :: vs)) stale :=
        hrep.withCursor fun q hq => Option.some.inj hq ▸ hmem
      have hnodup := hrep.toCore.nodup
      have hlength : vs.length < fuel := by
        simp only [List.length_append,List.length_cons] at hfuel
        omega
      -- the rest of the loop, whatever this round did to the entry
      have hrest : ∀ db₁ : Db α, Rep db₁ (xs ++ (us ++ p :: vs)) stale → db₁.cursor = some p → db₁.isopen = true →
          db₁.record = Function.update db.record p (changedRecord change (db.record p)) →
          (∃ code, updateEach ops memoryCode updateCode memory change fuel db₁ = .error (.status code)) ∨
          ∃ db', updateEach ops memoryCode updateCode memory change fuel db₁ = .ok db' ∧
            Rep db' (xs ++ (us ++ p :: vs)) stale ∧ db'.isopen = true ∧ (∀ q ∈ xs, db'.record q = db.record q) ∧
            ∀ q ∈ us ++ p :: vs, db'.record q = changedRecord change (db.record q) := by
        intro db₁ hrep₁ hcursor₁ hopen₁ hrecord₁
        rw [hsplit] at hrep₁ hnodup
        rcases ih hrep₁ (by simp [hcursor₁]) hopen₁ hlength with herror | ⟨db',hrun,hrep',hopen',hfront,hback⟩
        · exact .inl herror
        · have hother : ∀ q, q ≠ p → db₁.record q = db.record q := by
            intro q hq
            rw [hrecord₁,Function.update_of_ne hq]
          have hapart := List.nodup_append.mp hnodup
          have hfronts := List.nodup_append.mp hapart.1
          refine .inr ⟨db',hrun,by rw [hsplit]; exact hrep',hopen',?_,?_⟩
          · intro q hq
            rw [hfront q (by simp [hq]),hother q]
            exact hfronts.2.2 q (List.mem_append_left us hq) p List.mem_cons_self
          · intro q hq
            rcases List.mem_append.mp hq with hq | hq
            · rw [hfront q (by simp [hq]),changedRecord_of_none (hus q hq),hother q]
              exact hfronts.2.2 q (List.mem_append_right xs hq) p List.mem_cons_self
            · rcases List.mem_cons.mp hq with rfl | hq
              · rw [hfront q (by simp),hrecord₁,Function.update_self]
              · rw [hback q hq,hother q]
                intro heq
                exact hapart.2.2 p (by simp) q hq heq.symm
      have hstay : changedRecord change (db.record p) = db.record p →
          ({ db with cursor := some p } : Db α).record = Function.update db.record p (changedRecord change (db.record p)) := by
        intro hsame
        rw [hsame,Function.update_eq_self]
        rfl
      cases hchange : change a with
      | none =>
        refine hrest _ hmoved rfl hopen (hstay ?_)
        rw [changedRecord,ha,Option.bind_some,hchange]
      | some result =>
        obtain ⟨a',changed⟩ := result
        simp only
        split
        · exact .inl ⟨memoryCode,rfl⟩
        · cases changed with
          | false =>
            refine hrest _ hmoved rfl hopen (hstay ?_)
            rw [changedRecord,ha,Option.bind_some,hchange]
          | true =>
            simp only [Bool.not_true,Bool.false_eq_true,if_false]
            rcases hupdate : commonioUpdate ops { db with cursor := some p } a' (memory fuel).2 with ⟨_ | _,db₁⟩
            · exact .inl ⟨updateCode,rfl⟩
            · obtain ⟨hrep₁,hcursor₁,hopen₁,hrecord₁⟩ := commonioUpdate_at hmoved hmem ha (hname a a' true hchange) hupdate
              refine hrest db₁ hrep₁ hcursor₁ hopen₁ ?_
              rw [hrecord₁,changedRecord,ha,Option.bind_some,hchange]
              rfl

/-- A loop over the whole database that came to its end: each record is what the loop makes of it. -/
theorem updateEach_all {fuel : Nat} (hname : ∀ a a' changed, change a = some (a',changed) → ops.getname a' = ops.getname a)
    (hrep : Rep db l stale) (hcursor : db.cursor = none) (hopen : db.isopen = true) (hfuel : l.length < fuel)
    (hrun : updateEach ops memoryCode updateCode memory change fuel db = .ok db') :
    Rep db' l stale ∧ db'.isopen = true ∧ l.map db'.record = (l.map db.record).map (changedRecord change) := by
  have hrep' : Rep db ([] ++ l) stale := hrep
  rcases updateEach_from hname hrep' hcursor hopen hfuel with ⟨code,herror⟩ | ⟨db₁,hok,hrep₁,hopen₁,_,hback⟩
  · rw [hrun] at herror
    cases herror
  · obtain rfl : db₁ = db' := Except.ok.inj (hok.symm.trans hrun)
    refine ⟨hrep₁,hopen₁,?_⟩
    rw [List.map_map]
    exact List.map_congr_left hback

/-- A loop over a database from its start that came to its end. -/
theorem updateEach_rewound {memory : Nat → Bool × Bool}
    (hname : ∀ a a' changed, change a = some (a',changed) → ops.getname a' = ops.getname a) (hrep : Rep db l stale)
    (hopen : db.isopen = true)
    (hrun : updateEach ops memoryCode updateCode memory change (db.fresh + 1) (commonioRewind db).2 = .ok db') :
    Rep db' l stale ∧ db'.isopen = true ∧ entriesOf (l.map db'.record) = (entriesOf (l.map db.record)).map (changedEntry change) := by
  have hrewind : (commonioRewind db).2 = { db with cursor := none } := by
    rw [commonioRewind,hopen]
    rfl
  rw [hrewind] at hrun
  have hstart : Rep { db with cursor := none } l stale := hrep.withCursor (by intros; contradiction)
  have hfuel : l.length < db.fresh + 1 := Nat.lt_succ_of_le hrep.toCore.length_le
  obtain ⟨hrep',hopen',hrecords⟩ := updateEach_all hname hstart rfl hopen hfuel hrun
  refine ⟨hrep',hopen',?_⟩
  rw [hrecords,entriesOf_changed]
  rfl

/-- Looking a name up finds the first entry of that name, and moves the cursor at most. -/
theorem commonioLocate_entries (hrep : Rep db l stale) (hopen : db.isopen = true) (name : Bytes) :
    ∃ cursor, commonioLocate ops db name =
        ((entriesOf (l.map db.record)).find? (fun a => ops.getname a == name),{ db with cursor := cursor }) ∧
      ∀ p, cursor = some p → p ∈ l := by
  have hfind : (entriesOf (l.map db.record)).find? (fun a => ops.getname a == name) =
      (l.find? fun p => (db.record p).name ops == some name).bind fun p => (db.record p).eptr := by
    rw [entriesOf_map,List.find?_filterMap]
    congr 2
    funext p
    rw [Record.name]
    cases (db.record p).eptr with
    | none => rfl
    | some a => simp
  unfold commonioLocate
  rw [if_neg (by simp [hopen]),hrep.findEntryByName,hfind]
  cases hp : l.find? fun p => (db.record p).name ops == some name with
  | none => exact ⟨db.cursor,rfl,hrep.cursor⟩
  | some p =>
    refine ⟨some p,rfl,?_⟩
    intro q hq
    exact Option.some.inj hq ▸ List.mem_of_find?_eq_some hp

/-- A name that was removed was the only one. -/
theorem commonioRemove_entries (hrep : Rep db l stale) {name : Bytes} (hrun : commonioRemove ops db name = (true,db')) :
    ∃ l' stale', Rep db' l' stale' ∧ db'.isopen = true ∧
      entriesOf (l'.map db'.record) = (entriesOf (l.map db.record)).filter fun a => ops.getname a != name := by
  have hopen := (edit_flags (show db.edit ops (.remove name) = (true,db') from hrun)).1
  rcases commonioRemove_cases hrep name hrun with ⟨hf,_⟩ | ⟨_,_,xs,p,ys,rfl,hp,hne,hrep',hrecord⟩
  · cases hf
  · refine ⟨xs ++ ys,_,hrep',hopen,?_⟩
    have hkeep : ∀ qs : List Nat, (∀ q ∈ qs, (db.record q).name ops ≠ some name) →
        (entriesOf (qs.map db.record)).filter (fun a => ops.getname a != name) = entriesOf (qs.map db.record) := by
      intro qs hqs
      apply List.filter_eq_self.mpr
      intro a ha
      rw [entriesOf_map] at ha
      obtain ⟨q,hq,ha⟩ := List.mem_filterMap.mp ha
      have hqname := hqs q hq
      rw [Record.name,ha] at hqname
      simpa using hqname
    have hgone : (entriesOf [db.record p]).filter (fun a => ops.getname a != name) = [] := by
      obtain ⟨a,ha,hname⟩ := Option.map_eq_some_iff.mp hp
      simp [entriesOf,ha,hname]
    have hsplit : ∀ qs rs : List (Record α), entriesOf (qs ++ rs) = entriesOf qs ++ entriesOf rs := fun qs rs => List.filterMap_append
    have hcons : (db.record p) :: ys.map db.record = [db.record p] ++ ys.map db.record := rfl
    rw [hrecord,List.map_append,List.map_append,List.map_cons,hcons,hsplit,hsplit,hsplit,List.filter_append,List.filter_append,
      hgone,List.nil_append,hkeep xs fun q hq => hne q (List.mem_append_left ys hq),
      hkeep ys fun q hq => hne q (List.mem_append_right xs hq)]

/-- One file that was just opened and gone through. -/
theorem updateEach_entries {α : Type} {s : Storage α} {change : α → Option (α × Bool)} {memoryCode updateCode : Nat}
    {memory : Nat → Bool × Bool} {access : AccessMode} {create read openMemory : Bool} {file : Option Bytes} {db db' : Db α}
    (hname : ∀ a a' changed, change a = some (a',changed) → s.ops.getname a' = s.ops.getname a)
    (hopen : openFirst s access create file read openMemory = (true,db))
    (hrun : updateEach s.ops memoryCode updateCode memory change (db.fresh + 1) db = .ok db') :
    entriesIn db' = (entriesIn db).map (changedEntry change) := by
  obtain ⟨l,stale,hrep,hisopen,hcursor,hfuel,_⟩ := openFirst_opened hopen
  obtain ⟨hrep',_,hrecords⟩ := updateEach_all hname hrep hcursor hisopen hfuel hrun
  rw [entriesIn_eq hrep,entriesIn_eq hrep',hrecords,entriesOf_changed]

def openedGroups (text : String) : Db Group := (openFirst plainTools.group .rdwr true (some (ascii text)) true true).2

def openedGshadows (text : String) : Db Sgrp := (openFirst plainTools.gshadow .rdwr true (some (ascii text)) true true).2

/-- What a run leaves in both databases. -/
def memberships (result : Except Exit (Db Group × Db Sgrp)) : Option (List Group × List Sgrp) :=
  result.toOption.map fun out => (entriesIn out.1,entriesIn out.2)

theorem memberships_eq_some {result : Except Exit (Db Group × Db Sgrp)} {groups : List Group} {gshadows : List Sgrp}
    (h : memberships result = some (groups,gshadows)) :
    ∃ db db', result = .ok (db,db') ∧ entriesIn db = groups ∧ entriesIn db' = gshadows := by
  cases result with
  | error exit => cases h
  | ok out =>
    cases h
    exact ⟨out.1,out.2,rfl,rfl,rfl⟩

end UserDb.Programs
