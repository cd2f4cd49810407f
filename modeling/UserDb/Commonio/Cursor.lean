import UserDb.Commonio.Content

/-! Loops over an open database by its cursor: each is a fold over the entries that parsed,
which may end early with a result. -/
namespace UserDb.Commonio
open UserDb.Base

variable {α σ β : Type}

/-- The loop from the cursor on: `body` goes on with a new state or ends the loop with a result. -/
def eachEntry (body : σ → α → Except β σ) : Nat → σ → Db α → Except β σ × Db α
  | 0, s, db => (.ok s,db)
  | fuel + 1, s, db =>
    match commonioNext db with
    | (none,db) => (.ok s,db)
    | (some a,db) =>
      match body s a with
      | .ok s => eachEntry body fuel s db
      | .error b => (.error b,db)

/-- The loop over the whole database: each step goes past one entry of its memory. -/
def forEachEntry (body : σ → α → Except β σ) (s : σ) (db : Db α) : Except β σ × Db α :=
  eachEntry body (db.fresh + 1) s (commonioRewind db).2

/-- What the entries hold that parsed, in order. -/
def entriesOf (rs : List (Record α)) : List α := rs.filterMap Record.eptr

/-- The body of a loop that looks for an entry. -/
def searchBody (test : α → Bool) (_ : Unit) (a : α) : Except α Unit :=
  if test a then .error a else .ok ()

/-- The first entry that passes a test. -/
def searchEntry (test : α → Bool) (db : Db α) : Option α × Db α :=
  match forEachEntry (searchBody test) () db with
  | (.error a,db) => (some a,db)
  | (.ok (),db) => (none,db)

/-- A database but for its cursor, which stays within the list. -/
structure MovedCursor (db db' : Db α) (l : List Nat) : Prop where
  moved : ∃ cursor, db' = { db with cursor := cursor } ∧ ∀ p, cursor = some p → p ∈ l

variable {db db' : Db α} {l xs ys : List Nat} {stale : Bool}

theorem MovedCursor.rep (h : MovedCursor db db' l) (hrep : Rep db l stale) : Rep db' l stale := by
  obtain ⟨cursor,rfl,hmem⟩ := h.moved
  exact hrep.withCursor hmem

theorem Chain.withCursor (h : Chain db l) {c : Option Nat} (hc : ∀ p, c = some p → p ∈ l) : Chain { db with cursor := c } l :=
  ⟨h.head,h.linked,h.nodup,h.bound,hc⟩

theorem MovedCursor.chain (h : MovedCursor db db' l) (hchain : Chain db l) : Chain db' l := by
  obtain ⟨cursor,rfl,hmem⟩ := h.moved
  exact hchain.withCursor hmem

theorem MovedCursor.record (h : MovedCursor db db' l) : db'.record = db.record := by
  obtain ⟨cursor,rfl,_⟩ := h.moved
  rfl

theorem MovedCursor.flags (h : MovedCursor db db' l) :
    db'.isopen = db.isopen ∧ db'.readonly = db.readonly ∧ db'.changed = db.changed ∧ db'.fresh = db.fresh := by
  obtain ⟨cursor,rfl,_⟩ := h.moved
  exact ⟨rfl,rfl,rfl,rfl⟩

theorem MovedCursor.trans {db₁ : Db α} (h : MovedCursor db db₁ l) (h' : MovedCursor db₁ db' l) : MovedCursor db db' l := by
  obtain ⟨_,rfl,_⟩ := h.moved
  obtain ⟨cursor,rfl,hmem⟩ := h'.moved
  exact ⟨cursor,rfl,hmem⟩

theorem entriesOf_map (db : Db α) (l : List Nat) :
    entriesOf (l.map db.record) = l.filterMap fun p => (db.record p).eptr := by
  rw [entriesOf,List.filterMap_map]
  rfl

private theorem entriesOf_of_none (hus : ∀ q ∈ xs, (db.record q).eptr = none) : entriesOf (xs.map db.record) = [] := by
  rw [entriesOf_map,List.filterMap_eq_nil_iff]
  exact hus

/-- The loop from the cursor on folds over what is left. -/
theorem eachEntry_eq (body : σ → α → Except β σ) {fuel : Nat} (s : σ) (hchain : Chain db (xs ++ ys))
    (hcursor : db.cursor = xs.getLast?) (hopen : db.isopen = true) (hfuel : ys.length < fuel) :
    (eachEntry body fuel s db).1 = (entriesOf (ys.map db.record)).foldlM body s ∧
      MovedCursor db (eachEntry body fuel s db).2 (xs ++ ys) := by
  induction fuel generalizing db s xs ys with
  | zero => omega
  | succ fuel ih =>
    rcases hchain.next hcursor hopen with ⟨hnone,hnext⟩ | ⟨us,p,vs,a,rfl,hus,ha,hnext⟩
    · have hentries := entriesOf_of_none hnone
      simp only [eachEntry,hnext,hentries]
      exact ⟨rfl,none,rfl,nofun⟩
    · have hp : p ∈ xs ++ (us ++ p :: vs) := by simp
      have hsplit : xs ++ (us ++ p :: vs) = (xs ++ us ++ [p]) ++ vs := by simp
      have hmem : ∀ q, some p = some q → q ∈ xs ++ (us ++ p :: vs) := fun q hq => Option.some.inj hq ▸ hp
      have hentries : entriesOf ((us ++ p :: vs).map db.record) = a :: entriesOf (vs.map db.record) := by
        rw [List.map_append,entriesOf,List.filterMap_append]
        have hnil : (us.map db.record).filterMap Record.eptr = [] := entriesOf_of_none hus
        rw [hnil,List.nil_append,List.map_cons,List.filterMap_cons,ha]
        rfl
      simp only [eachEntry,hnext,hentries,List.foldlM_cons]
      cases hbody : body s a with
      | error b => exact ⟨rfl,some p,rfl,hmem⟩
      | ok s' =>
        have hchain' := hchain.withCursor hmem
        rw [hsplit] at hchain'
        have hlength : vs.length < fuel := by
          simp only [List.length_append,List.length_cons] at hfuel
          omega
        obtain ⟨hresult,cursor,heq,hcursor'⟩ := ih s' hchain' (by simp) hopen hlength
        refine ⟨hresult,cursor,heq,fun q hq => ?_⟩
        rw [hsplit]
        exact hcursor' q hq

/-- A loop over an open database folds over its entries, and only moves the cursor. -/
theorem Chain.forEachEntry_eq (body : σ → α → Except β σ) (s : σ) (hchain : Chain db l) (hopen : db.isopen = true) :
    (forEachEntry body s db).1 = (entriesOf (l.map db.record)).foldlM body s ∧
      MovedCursor db (forEachEntry body s db).2 l := by
  have hrewind : (commonioRewind db).2 = { db with cursor := none } := by
    unfold commonioRewind
    rw [if_neg (by simp [hopen])]
  have hchain' : Chain { db with cursor := none } ([] ++ l) := hchain.withCursor nofun
  have hlength := hchain.length_le
  unfold forEachEntry
  rw [hrewind]
  obtain ⟨hresult,cursor,heq,hcursor⟩ := eachEntry_eq body s hchain' rfl hopen (Nat.lt_succ_of_le hlength)
  exact ⟨hresult,cursor,heq,hcursor⟩

theorem forEachEntry_eq (body : σ → α → Except β σ) (s : σ) (hrep : Rep db l stale) (hopen : db.isopen = true) :
    (forEachEntry body s db).1 = (entriesOf (l.map db.record)).foldlM body s ∧
      MovedCursor db (forEachEntry body s db).2 l := hrep.chain.forEachEntry_eq body s hopen

private theorem foldlM_searchBody (test : α → Bool) (as : List α) :
    as.foldlM (searchBody test) () = match as.find? test with
      | some a => .error a
      | none => .ok () := by
  induction as with
  | nil => rfl
  | cons a as ih =>
    rw [List.foldlM_cons,searchBody]
    cases htest : test a with
    | true => simp [htest,Bind.bind,Except.bind]
    | false =>
      rw [List.find?_cons_of_neg (by simp [htest]),← ih]
      rfl

/-- A search finds the first entry that passes, and only moves the cursor. -/
theorem Chain.searchEntry_eq (test : α → Bool) (hchain : Chain db l) (hopen : db.isopen = true) :
    (searchEntry test db).1 = (entriesOf (l.map db.record)).find? test ∧ MovedCursor db (searchEntry test db).2 l := by
  obtain ⟨hresult,hmoved⟩ := hchain.forEachEntry_eq (searchBody test) () hopen
  rw [foldlM_searchBody] at hresult
  unfold searchEntry
  rcases hrun : forEachEntry (searchBody test) () db with ⟨result,db'⟩
  rw [hrun] at hresult hmoved
  cases hfind : (entriesOf (l.map db.record)).find? test with
  | some a =>
    rw [hfind] at hresult
    obtain rfl : result = .error a := hresult
    exact ⟨rfl,hmoved⟩
  | none =>
    rw [hfind] at hresult
    obtain rfl : result = .ok () := hresult
    exact ⟨rfl,hmoved⟩

theorem searchEntry_eq (test : α → Bool) (hrep : Rep db l stale) (hopen : db.isopen = true) :
    (searchEntry test db).1 = (entriesOf (l.map db.record)).find? test ∧ MovedCursor db (searchEntry test db).2 l :=
  hrep.chain.searchEntry_eq test hopen

end UserDb.Commonio
