import UserDb.Base.Bytes
import UserDb.Base.LinkedList

/-! The database of the common file layer: entries in a memory, linked both ways from
`head` to `tail`, and the operations that edit the links by hand. -/
namespace UserDb.Commonio
open UserDb.Base UserDb.Base.LinkedList

structure Entry (α : Type) where
  line : Option Bytes
  eptr : Option α
  prev : Option Nat
  next : Option Nat
  changed : Bool

/-- How the open hook recognises the parts of a split entry and puts them together. -/
structure SplitEntries (α : Type) where
  same : α → α → Bool
  merge : α → α → α
  symm : ∀ {a b}, same a b = true → same b a = true
  trans : ∀ {a b c}, same a b = true → same b c = true → same a c = true
  merge_same : ∀ a b c, same (merge a b) c = same a c

/-- The operations of one kind of database. No hook is a hook that does nothing. -/
structure Ops (α : Type) where
  getname : α → Bytes
  parse : Bytes → Option α
  openHook : Option (SplitEntries α)

/-- A database with the memory its entries live in; `fresh` is the next unused address. -/
structure Db (α : Type) where
  entries : Nat → Entry α
  fresh : Nat
  head : Option Nat
  tail : Option Nat
  cursor : Option Nat
  changed : Bool
  isopen : Bool
  readonly : Bool
  locked : Bool

variable {α : Type}

section Memory
variable (db : Db α)

def Db.nextOf (p : Nat) : Option Nat := (db.entries p).next
def Db.prevOf (p : Nat) : Option Nat := (db.entries p).prev

def Db.store (p : Nat) (e : Entry α) : Db α := { db with entries := Function.update db.entries p e }

def Db.setNext (p : Nat) (target : Option Nat) : Db α :=
  db.store p { db.entries p with next := target }

def Db.setPrev (p : Nat) (target : Option Nat) : Db α :=
  db.store p { db.entries p with prev := target }

/-- An assignment through a pointer that may be null, and is then left out. -/
def Db.setNextAt (p : Option Nat) (target : Option Nat) : Db α :=
  p.elim db fun p => db.setNext p target

def Db.setPrevAt (p : Option Nat) (target : Option Nat) : Db α :=
  p.elim db fun p => db.setPrev p target

/-- A new entry at the next unused address. -/
def Db.allocate (e : Entry α) : Db α := { db.store db.fresh e with fresh := db.fresh + 1 }

/-- The entries that a loop from `pos` along the next links visits. -/
def Db.from (pos : Option Nat) : List Nat := reach db.nextOf db.fresh pos

end Memory

def nameIsNis (name : Bytes) : Bool := name.head? == some 43 || name.head? == some 45

def Db.addOneEntry (db : Db α) (p : Nat) : Db α :=
  let db := (db.setNext p none).setPrev p db.tail
  let db := if db.head = none then { db with head := some p } else db
  { db.setNextAt db.tail (some p) with tail := some p }

/-- The name of an entry, or its line where it did not parse. -/
def entryName (ops : Ops α) (e : Entry α) : Bytes :=
  match e.eptr with
  | some a => ops.getname a
  | none => e.line.getD []

def Db.addOneEntryNis (ops : Ops α) (db : Db α) (newp : Nat) : Db α :=
  match (db.from db.head).find? fun p => nameIsNis (entryName ops (db.entries p)) with
  | some p =>
    let before := db.prevOf p
    let db := (db.setNext newp (some p)).setPrev newp before
    let db := if before = none then { db with head := some newp } else db.setNextAt before (some newp)
    db.setPrev p (some newp)
  | none => db.addOneEntry newp

/-- The lines of a text file: each is ended by a newline and holds no null byte. -/
def fileLines (bytes : Bytes) : Option (List Bytes) :=
  let pieces := bytes.splitOn newline
  if pieces.getLast? = some [] && pieces.dropLast.all (fun line => !line.contains 0) then
    some pieces.dropLast
  else none

def lineEntry (ops : Ops α) (line : Bytes) : Entry α :=
  ⟨some line,if nameIsNis line then none else ops.parse line,none,none,false⟩

def Db.addLine (ops : Ops α) (db : Db α) (line : Bytes) : Db α :=
  (db.allocate (lineEntry ops line)).addOneEntry db.fresh

/-- Take `gr2` into `gr1` where both are parts of one entry. -/
def Db.absorb (split : SplitEntries α) (db : Db α) (gr1 gr2 : Nat) : Db α :=
  match (db.entries gr1).eptr, (db.entries gr2).eptr with
  | some g1, some g2 =>
    if split.same g1 g2 then
      let line := (db.entries gr1).line.getD [] ++ [newline] ++ (db.entries gr2).line.getD []
      let db := db.store gr1 { db.entries gr1 with line := some line, eptr := some (split.merge g1 g2) }
      let db := db.setPrevAt (db.nextOf gr2) (db.prevOf gr2)
      db.setNextAt (db.prevOf gr2) (db.nextOf gr2)
    else db
  | _, _ => db

/-- The inner loop of the open hook, over what follows `gr1`. -/
def Db.absorbFrom (split : SplitEntries α) (gr1 : Nat) : Nat → Option Nat → Db α → Db α
  | fuel + 1, some gr2, db =>
    let db := db.absorb split gr1 gr2
    db.absorbFrom split gr1 fuel (db.nextOf gr2)
  | _, _, db => db

/-- The outer loop, over the entries that are left. -/
def Db.mergeFrom (split : SplitEntries α) : Nat → Option Nat → Db α → Db α
  | fuel + 1, some gr1, db =>
    let db := db.absorbFrom split gr1 db.fresh (db.nextOf gr1)
    db.mergeFrom split fuel (db.nextOf gr1)
  | _, _, db => db

def Db.runOpenHook (ops : Ops α) (db : Db α) : Db α :=
  match ops.openHook with
  | some split => db.mergeFrom split db.fresh db.head
  | none => db

inductive AccessMode where
  | rdonly | rdwr | other
  deriving DecidableEq, Repr

/-- What opening the file finds. -/
inductive FileState where
  | missing | unavailable | contents (bytes : Bytes) (readError : Bool)

def Db.freeLinkedList (db : Db α) : Db α := { db with head := none, tail := none }

/-- `memory` tells whether the allocations of the call succeed. -/
def commonioOpen (ops : Ops α) (db : Db α) (access : AccessMode) (create : Bool) (file : FileState)
    (memory : Bool) : Bool × Db α :=
  if db.isopen || access == .other then (false,db)
  else
    let db := { db with readonly := access == .rdonly }
    if !db.readonly && !db.locked then (false,db)
    else
      let db := { db with head := none, tail := none, cursor := none, changed := false }
      match file with
      | .missing => if create then (true,{ db with isopen := true }) else (false,db)
      | .unavailable => (false,db)
      | .contents bytes readError =>
        match fileLines bytes with
        | none => (false,db.freeLinkedList)
        | some lines =>
          if !memory || readError then (false,db.freeLinkedList)
          else (true,{ (lines.foldl (Db.addLine ops) db).runOpenHook ops with isopen := true })

def Db.nextEntryByName (ops : Ops α) (db : Db α) (pos : Option Nat) (name : Bytes) : Option Nat :=
  (db.from pos).find? fun p => (db.entries p).eptr.map ops.getname == some name

def Db.findEntryByName (ops : Ops α) (db : Db α) (name : Bytes) : Option Nat :=
  db.nextEntryByName ops db.head name

def commonioUpdate (ops : Ops α) (db : Db α) (eptr : α) (memory : Bool) : Bool × Db α :=
  if !db.isopen || db.readonly then (false,db)
  else
    match db.findEntryByName ops (ops.getname eptr) with
    | some p =>
      if !memory || (db.nextEntryByName ops (db.nextOf p) (ops.getname eptr)).isSome then (false,db)
      else (true,{ db.store p { db.entries p with eptr := some eptr, changed := true } with
        cursor := some p
        changed := true })
    | none =>
      if !memory then (false,db)
      else (true,{ (db.allocate ⟨none,some eptr,none,none,true⟩).addOneEntryNis ops db.fresh with
        changed := true })

def commonioAppend (db : Db α) (eptr : α) (memory : Bool) : Bool × Db α :=
  if !db.isopen || db.readonly || !memory then (false,db)
  else (true,{ (db.allocate ⟨none,some eptr,none,none,true⟩).addOneEntry db.fresh with changed := true })

def commonioDelEntry (db : Db α) (p : Nat) : Db α :=
  let before := db.prevOf p
  let behind := db.nextOf p
  let db := if some p = db.cursor then { db with cursor := behind } else db
  let db := if before = none then { db with head := behind } else db.setNextAt before behind
  let db := if behind = none then { db with tail := before } else db.setPrevAt behind before
  { db with changed := true }

def commonioRemove (ops : Ops α) (db : Db α) (name : Bytes) : Bool × Db α :=
  if !db.isopen || db.readonly then (false,db)
  else
    match db.findEntryByName ops name with
    | none => (false,db)
    | some p =>
      if (db.nextEntryByName ops (db.nextOf p) name).isSome then (false,db)
      else (true,commonioDelEntry db p)

def commonioLocate (ops : Ops α) (db : Db α) (name : Bytes) : Option α × Db α :=
  if !db.isopen then (none,db)
  else
    match db.findEntryByName ops name with
    | none => (none,db)
    | some p => ((db.entries p).eptr,{ db with cursor := some p })

def commonioRewind (db : Db α) : Bool × Db α :=
  if !db.isopen then (false,db) else (true,{ db with cursor := none })

/-- The cursor goes on to the next entry that parsed, or becomes null. -/
def commonioNext (db : Db α) : Option α × Db α :=
  if !db.isopen then (none,db)
  else
    let start := match db.cursor with
      | none => db.head
      | some p => db.nextOf p
    let cursor := (db.from start).find? fun p => (db.entries p).eptr.isSome
    (cursor.bind fun p => (db.entries p).eptr,{ db with cursor := cursor })

/-- The comparison puts any two entries in an order. -/
structure Orders {β : Type} (cmp : β → β → Int) (l : List β) : Prop where
  total : ∀ a ∈ l, ∀ b ∈ l, cmp a b ≤ 0 ∨ cmp b a ≤ 0
  trans : ∀ a ∈ l, ∀ b ∈ l, ∀ c ∈ l, cmp a b ≤ 0 → cmp b c ≤ 0 → cmp a c ≤ 0

/-- A library sort: it permutes, and it sorts where the comparison is an order. -/
structure Qsort where
  run : {β : Type} → (β → β → Int) → List β → List β
  perm : ∀ {β : Type} (cmp : β → β → Int) (l : List β), (run cmp l).Perm l
  sorted : ∀ {β : Type} (cmp : β → β → Int) (l : List β), l.Nodup → Orders cmp l →
    (run cmp l).Pairwise fun a b => cmp a b ≤ 0

/-- The loop of the sort stops at the first line that starts like a NIS line. -/
def Db.isSortable (db : Db α) (p : Nat) : Bool := !nameIsNis ((db.entries p).line.getD [])

/-- Link the entries of `sorted` in order, in front of `nis`. -/
def Db.relink (db : Db α) (sorted : List Nat) (nis : Option Nat) : Db α :=
  let n := sorted.length - 1
  let db := { db with head := sorted[0]? }
  let db := if nis = none then { db with tail := sorted[n]? } else db
  let db := (db.setPrevAt sorted[0]? none).setNextAt sorted[0]? sorted[1]?
  let db := (db.setPrevAt sorted[n]? sorted[n-1]?).setNextAt sorted[n]? nis
  (List.range' 1 (n-1)).foldl (fun db i =>
    (db.setPrevAt sorted[i]? sorted[i-1]?).setNextAt sorted[i]? sorted[i+1]?) db

/-- The result tells whether the memory for the array of entries was there. -/
def commonioSort (qsort : Qsort) (cmp : Entry α → Entry α → Int) (db : Db α) (memory : Bool) :
    Bool × Db α :=
  let all := db.from db.head
  let regular := all.takeWhile db.isSortable
  let nis := (all.dropWhile db.isSortable).head?
  if regular.length ≤ 1 then (true,db)
  else if !memory then (false,db)
  else
    let sorted := qsort.run (fun p q => cmp (db.entries p) (db.entries q)) regular
    (true,{ db.relink sorted nis with changed := true })

/-- One entry of the other database: the first entry of that name moves to the front of `taken`. -/
def sortWrtStep (ops : Ops α) : Db α × Option Nat → Bytes → Db α × Option Nat
  | (shadow,taken), name =>
    match shadow.findEntryByName ops name with
    | none => (shadow,taken)
    | some p => ((commonioDelEntry shadow p).setNext p taken,some p)

/-- The taken entries go back to the front, the last one taken first. -/
def Db.putBack : Nat → Option Nat → Db α → Db α
  | fuel + 1, some p, shadow =>
    let rest := shadow.nextOf p
    let shadow := (shadow.setPrevAt shadow.head (some p)).setNext p shadow.head
    Db.putBack fuel rest { shadow with head := some p }
  | _, _, shadow => shadow

/-- The names of a database, in order, unparsed entries left out. -/
def Db.names (ops : Ops α) (db : Db α) : List Bytes :=
  (db.from db.head).filterMap fun p => (db.entries p).eptr.map ops.getname

def commonioSortWrt {β : Type} (ops : Ops α) (shadow : Db α) (passwdOps : Ops β) (passwd : Db β) : Db α :=
  if shadow.head = none then shadow
  else
    let (shadow,taken) := (passwd.names passwdOps).foldl (sortWrtStep ops) (shadow,none)
    let shadow := shadow.putBack shadow.fresh taken
    { shadow.setPrevAt shadow.head none with changed := true }

end UserDb.Commonio
