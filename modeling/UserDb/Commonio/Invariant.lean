import UserDb.Commonio.Database

/-! What the links of a database represent, and what each operation does to it. The tail
is kept apart: the open hook may leave it on an entry that is no longer in the list. -/
namespace UserDb.Commonio
open UserDb.Base UserDb.Base.LinkedList

variable {α : Type}

/-- What an entry holds, its links apart. -/
structure Record (α : Type) where
  line : Option Bytes
  eptr : Option α
  changed : Bool

def Entry.record (e : Entry α) : Record α := ⟨e.line,e.eptr,e.changed⟩

def Db.record (db : Db α) (p : Nat) : Record α := (db.entries p).record

section Memory
variable (db : Db α) (p : Nat) (q target : Option Nat)

@[simp] theorem nextOf_setNext : (db.setNext p target).nextOf = Function.update db.nextOf p target := by
  funext x
  by_cases h : x = p
  · subst h; simp [Db.nextOf,Db.setNext,Db.store]
  · simp [Db.nextOf,Db.setNext,Db.store,h]

@[simp] theorem prevOf_setNext : (db.setNext p target).prevOf = db.prevOf := by
  funext x
  by_cases h : x = p
  · subst h; simp [Db.prevOf,Db.setNext,Db.store]
  · simp [Db.prevOf,Db.setNext,Db.store,h]

@[simp] theorem nextOf_setPrev : (db.setPrev p target).nextOf = db.nextOf := by
  funext x
  by_cases h : x = p
  · subst h; simp [Db.nextOf,Db.setPrev,Db.store]
  · simp [Db.nextOf,Db.setPrev,Db.store,h]

@[simp] theorem prevOf_setPrev : (db.setPrev p target).prevOf = Function.update db.prevOf p target := by
  funext x
  by_cases h : x = p
  · subst h; simp [Db.prevOf,Db.setPrev,Db.store]
  · simp [Db.prevOf,Db.setPrev,Db.store,h]

@[simp] theorem record_setNext : (db.setNext p target).record = db.record := by
  funext x
  by_cases h : x = p
  · subst h; simp [Db.record,Entry.record,Db.setNext,Db.store]
  · simp [Db.record,Db.setNext,Db.store,h]

@[simp] theorem record_setPrev : (db.setPrev p target).record = db.record := by
  funext x
  by_cases h : x = p
  · subst h; simp [Db.record,Entry.record,Db.setPrev,Db.store]
  · simp [Db.record,Db.setPrev,Db.store,h]

/-- The part of a database that lies outside its entries. -/
structure Db.SameFrame (db db' : Db α) : Prop where
  head : db'.head = db.head
  tail : db'.tail = db.tail
  cursor : db'.cursor = db.cursor
  fresh : db'.fresh = db.fresh
  isopen : db'.isopen = db.isopen
  readonly : db'.readonly = db.readonly
  locked : db'.locked = db.locked
  changed : db'.changed = db.changed

theorem Db.SameFrame.trans {db₁ db₂ db₃ : Db α} (h : db₁.SameFrame db₂) (h' : db₂.SameFrame db₃) :
    db₁.SameFrame db₃ :=
  ⟨h'.head.trans h.head,h'.tail.trans h.tail,h'.cursor.trans h.cursor,h'.fresh.trans h.fresh,
    h'.isopen.trans h.isopen,h'.readonly.trans h.readonly,h'.locked.trans h.locked,
    h'.changed.trans h.changed⟩

/-- The part of a database that no link update touches. -/
structure Db.SameShell (db db' : Db α) : Prop extends Db.SameFrame db db' where
  record : db'.record = db.record

theorem setNextAt_shell : db.SameShell (db.setNextAt q target) := by
  cases q <;> exact ⟨⟨rfl,rfl,rfl,rfl,rfl,rfl,rfl,rfl⟩,by simp [Db.setNextAt]⟩

theorem setPrevAt_shell : db.SameShell (db.setPrevAt q target) := by
  cases q <;> exact ⟨⟨rfl,rfl,rfl,rfl,rfl,rfl,rfl,rfl⟩,by simp [Db.setPrevAt]⟩

@[simp] theorem prevOf_setNextAt : (db.setNextAt q target).prevOf = db.prevOf := by
  cases q <;> simp [Db.setNextAt]

@[simp] theorem nextOf_setPrevAt : (db.setPrevAt q target).nextOf = db.nextOf := by
  cases q <;> simp [Db.setPrevAt]

theorem nextOf_setNextAt (xs : List Nat) :
    (db.setNextAt xs.getLast? target).nextOf = relinkNext db.nextOf xs target := by
  unfold relinkNext
  cases xs.getLast? <;> simp [Db.setNextAt]

theorem prevOf_setPrevAt (ys : List Nat) :
    (db.setPrevAt ys.head? target).prevOf = relinkPrev db.prevOf ys target := by
  unfold relinkPrev
  cases ys.head? <;> simp [Db.setPrevAt]

end Memory

/-- The list a database holds, as the links from `head` on show it. -/
structure Core (db : Db α) (l : List Nat) : Prop where
  head : db.head = l.head?
  linked : Linked db.nextOf db.prevOf none l none
  nodup : l.Nodup
  bound : ∀ p ∈ l, p < db.fresh
  cursor : ∀ p, db.cursor = some p → p ∈ l

/-- The part of it that a loop along the next links needs. -/
structure Chain (db : Db α) (l : List Nat) : Prop where
  head : db.head = l.head?
  linked : Forward db.nextOf l
  nodup : l.Nodup
  bound : ∀ p ∈ l, p < db.fresh
  cursor : ∀ p, db.cursor = some p → p ∈ l

/-- The tail is the last node, or it is `stale`: an entry that has left a list which is
still not empty. -/
def TailOk (db : Db α) (l : List Nat) (stale : Bool) : Prop :=
  if stale then l ≠ [] ∧ ∃ t, db.tail = some t ∧ t ∉ l ∧ t < db.fresh else db.tail = l.getLast?

structure Rep (db : Db α) (l : List Nat) (stale : Bool) : Prop extends Core db l where
  tail : TailOk db l stale

section Representation
variable {db : Db α} {l xs ys : List Nat} {p : Nat} {stale : Bool}

theorem Chain.length_le (h : Chain db l) : l.length ≤ db.fresh := length_le_of_nodup_lt h.nodup h.bound

theorem Chain.from_suffix (h : Chain db (xs ++ ys)) : db.from ys.head? = ys := by
  refine reach_forward h.linked.suffix ?_
  have := h.length_le
  rw [List.length_append] at this
  omega

theorem Chain.from_head (h : Chain db l) : db.from db.head = l := by
  have h' : Chain db ([] ++ l) := h
  rw [h.head]
  exact h'.from_suffix

theorem Chain.from_next (h : Chain db (xs ++ p :: ys)) : db.from (db.nextOf p) = ys := by
  have h' : Chain db ((xs ++ [p]) ++ ys) := by simpa using h
  rw [h.linked.next_eq]
  exact h'.from_suffix

theorem Core.chain (h : Core db l) : Chain db l := ⟨h.head,h.linked.forward,h.nodup,h.bound,h.cursor⟩

theorem Core.length_le (h : Core db l) : l.length ≤ db.fresh := h.chain.length_le

theorem Core.from_head (h : Core db l) : db.from db.head = l := h.chain.from_head

theorem Core.from_next (h : Core db (xs ++ p :: ys)) : db.from (db.nextOf p) = ys := h.chain.from_next

/-- Two databases with the same links and the same shell hold the same list. -/
theorem Core.congr (h : Core db l) {db' : Db α} (hn : ∀ p ∈ l, db'.nextOf p = db.nextOf p)
    (hp : ∀ p ∈ l, db'.prevOf p = db.prevOf p) (hhead : db'.head = db.head)
    (hcursor : ∀ p, db'.cursor = some p → p ∈ l) (hfresh : db.fresh ≤ db'.fresh) : Core db' l where
  head := hhead.trans h.head
  linked := h.linked.congr fun p hm => ⟨hn p hm,hp p hm⟩
  nodup := h.nodup
  bound p hm := lt_of_lt_of_le (h.bound p hm) hfresh
  cursor := hcursor

/-- The node that a search finds stands between what did not match and the rest. -/
theorem find?_split {test : Nat → Bool} (h : l.find? test = some p) :
    ∃ xs ys, l = xs ++ p :: ys ∧ (∀ q ∈ xs, test q = false) ∧ test p = true := by
  obtain ⟨hp,xs,ys,rfl,hxs⟩ := List.find?_eq_some_iff_append.mp h
  exact ⟨xs,ys,rfl,fun q hq => by simpa using hxs q hq,hp⟩

/-- The name of an entry that parsed. -/
def Record.name (ops : Ops α) (r : Record α) : Option Bytes := r.eptr.map ops.getname

theorem Core.findEntryByName (ops : Ops α) (h : Core db l) (name : Bytes) :
    db.findEntryByName ops name = l.find? fun p => (db.record p).name ops == some name := by
  rw [Db.findEntryByName,Db.nextEntryByName,h.from_head]
  rfl

theorem Core.nextEntryByName (ops : Ops α) (h : Core db (xs ++ p :: ys)) (name : Bytes) :
    db.nextEntryByName ops (db.nextOf p) name = ys.find? fun p => (db.record p).name ops == some name := by
  rw [Db.nextEntryByName,h.from_next]
  rfl

end Representation

section Insertion
variable {db : Db α} {l xs ys : List Nat} {p : Nat} {stale : Bool}

@[simp] theorem nextOf_store {e : Entry α} (h : e.next = db.nextOf p) : (db.store p e).nextOf = db.nextOf := by
  funext x
  by_cases hx : x = p
  · subst hx; simpa [Db.nextOf,Db.store] using h
  · simp [Db.nextOf,Db.store,hx]

@[simp] theorem prevOf_store {e : Entry α} (h : e.prev = db.prevOf p) : (db.store p e).prevOf = db.prevOf := by
  funext x
  by_cases hx : x = p
  · subst hx; simpa [Db.prevOf,Db.store] using h
  · simp [Db.prevOf,Db.store,hx]

@[simp] theorem record_store (e : Entry α) :
    (db.store p e).record = Function.update db.record p e.record := by
  funext x
  by_cases hx : x = p
  · subst hx; simp [Db.record,Db.store]
  · simp [Db.record,Db.store,hx]

/-- What an entry holds does not matter to the links. -/
theorem Rep.store (h : Rep db l stale) {e : Entry α} (hn : e.next = db.nextOf p)
    (hp : e.prev = db.prevOf p) : Rep (db.store p e) l stale where
  toCore := h.toCore.congr (fun x _ => congrFun (nextOf_store hn) x)
    (fun x _ => congrFun (prevOf_store hp) x) rfl h.cursor le_rfl
  tail := h.tail

theorem Rep.withCursor (h : Rep db l stale) {c : Option Nat} (hc : ∀ p, c = some p → p ∈ l) :
    Rep { db with cursor := c } l stale where
  toCore := h.toCore.congr (fun _ _ => rfl) (fun _ _ => rfl) rfl hc le_rfl
  tail := h.tail

/-- A link of an entry outside the list does not matter to it. -/
theorem Rep.setNext_of_notMem (h : Rep db l stale) (hp : p ∉ l) (target : Option Nat) :
    Rep (db.setNext p target) l stale where
  toCore := h.toCore.congr
    (fun x hx => by rw [nextOf_setNext,Function.update_of_ne (ne_of_mem_of_not_mem hx hp)])
    (fun x _ => congrFun (prevOf_setNext db p target) x) rfl h.cursor le_rfl
  tail := h.tail

theorem Rep.withFlags (h : Rep db l stale) (changed isopen readonly locked : Bool) :
    Rep { db with changed := changed, isopen := isopen, readonly := readonly, locked := locked } l stale where
  toCore := h.toCore.congr (fun _ _ => rfl) (fun _ _ => rfl) rfl h.cursor le_rfl
  tail := h.tail

theorem Rep.tail_lt (h : Rep db l stale) {t : Nat} (ht : db.tail = some t) : t < db.fresh := by
  have htail := h.tail
  cases stale with
  | true =>
    obtain ⟨_,t',ht',_,hlt⟩ : l ≠ [] ∧ ∃ t, db.tail = some t ∧ t ∉ l ∧ t < db.fresh := htail
    rw [ht'] at ht
    exact Option.some.inj ht ▸ hlt
  | false =>
    have hlast : db.tail = l.getLast? := htail
    exact h.bound t (List.mem_of_getLast? (hlast.symm.trans ht))

/-- An entry that is free to be linked: not in the list, and not the tail either. -/
structure Db.Unused (db : Db α) (l : List Nat) (p : Nat) : Prop where
  notMem : p ∉ l
  lt : p < db.fresh
  notTail : db.tail ≠ some p

/-- A new entry is at an address that no list had. -/
theorem Rep.allocate (h : Rep db l stale) (e : Entry α) :
    Rep (db.allocate e) l stale ∧ (db.allocate e).Unused l db.fresh := by
  have hfresh : db.fresh ∉ l := fun hm => lt_irrefl _ (h.bound _ hm)
  have hne : ∀ x ∈ l, x ≠ db.fresh := fun x hx => ne_of_mem_of_not_mem hx hfresh
  refine ⟨⟨h.toCore.congr (fun x hx => ?_) (fun x hx => ?_) rfl h.cursor (Nat.le_succ _),?_⟩,
    hfresh,Nat.lt_succ_self _,fun ht => lt_irrefl _ (h.tail_lt ht)⟩
  · simp [Db.allocate,Db.nextOf,Db.store,hne x hx]
  · simp [Db.allocate,Db.prevOf,Db.store,hne x hx]
  · have htail := h.tail
    cases stale with
    | true =>
      obtain ⟨hl,t,ht,hm,hlt⟩ : l ≠ [] ∧ ∃ t, db.tail = some t ∧ t ∉ l ∧ t < db.fresh := htail
      exact ⟨hl,t,ht,hm,Nat.lt_succ_of_lt hlt⟩
    | false => exact htail

theorem record_allocate (e : Entry α) :
    (db.allocate e).record = Function.update db.record db.fresh e.record :=
  record_store e

/-- A new node between two stretches, by what its links and its neighbours' links become. -/
theorem Core.insert (h : Core db (xs ++ ys)) (hp : db.Unused (xs ++ ys) p) {db' : Db α}
    (hhead : db'.head = (xs ++ p :: ys).head?) (hcursor : db'.cursor = db.cursor)
    (hfresh : db'.fresh = db.fresh)
    (hnext : db'.nextOf = relinkNext (Function.update db.nextOf p ys.head?) xs (some p))
    (hprev : db'.prevOf = relinkPrev (Function.update db.prevOf p xs.getLast?) ys (some p)) :
    Core db' (xs ++ p :: ys) where
  head := hhead
  linked := by
    rw [hnext,hprev]
    exact h.linked.insert h.nodup hp.notMem
  nodup := List.nodup_middle.mpr (List.nodup_cons.mpr ⟨hp.notMem,h.nodup⟩)
  bound x hx := by
    rw [hfresh]
    rcases List.mem_cons.mp (List.perm_middle.mem_iff.mp hx) with rfl | hx
    · exact hp.lt
    · exact h.bound x hx
  cursor x hx := by
    have hm := h.cursor x (hcursor.symm.trans hx)
    exact List.perm_middle.mem_iff.mpr (List.mem_cons_of_mem p hm)

/-- The database in which `p` follows the entry that the tail points to. -/
theorem addOneEntry_eq (db : Db α) (p : Nat) :
    db.addOneEntry p =
      { ((db.setNext p none).setPrev p db.tail).setNextAt db.tail (some p) with
        head := db.head.or (some p)
        tail := some p } := by
  have hhead : db.head = none ∨ ∃ a, db.head = some a := by cases db.head <;> simp
  have htail : db.tail = none ∨ ∃ t, db.tail = some t := by cases db.tail <;> simp
  rcases hhead with hh | ⟨a,hh⟩ <;> rcases htail with ht | ⟨t,ht⟩ <;>
    simp [Db.addOneEntry,Db.setNextAt,Db.setNext,Db.setPrev,Db.store,hh,ht]

theorem record_addOneEntry (db : Db α) (p : Nat) : (db.addOneEntry p).record = db.record := by
  have h := (setNextAt_shell ((db.setNext p none).setPrev p db.tail) db.tail (some p)).record
  rw [addOneEntry_eq]
  refine Eq.trans h ?_
  rw [record_setPrev,record_setNext]

/-- Linking an entry at the end: after a stale tail it joins nothing. -/
theorem Rep.addOneEntry (h : Rep db l stale) (hp : db.Unused l p) :
    Rep (db.addOneEntry p) (if stale then l else l ++ [p]) stale := by
  have htail := h.tail
  have hshell := setNextAt_shell ((db.setNext p none).setPrev p db.tail) db.tail (some p)
  rw [addOneEntry_eq]
  cases stale with
  | true =>
    obtain ⟨hl,t,ht,htl,_⟩ : l ≠ [] ∧ ∃ t, db.tail = some t ∧ t ∉ l ∧ t < db.fresh := htail
    rw [if_pos rfl]
    refine ⟨h.toCore.congr (fun x hx => ?_) (fun x hx => ?_) ?_ ?_ ?_,hl,p,rfl,hp.notMem,?_⟩
    · have hxp : x ≠ p := ne_of_mem_of_not_mem hx hp.notMem
      have hxt : x ≠ t := ne_of_mem_of_not_mem hx htl
      simp [Db.nextOf,Db.setNextAt,Db.setNext,Db.setPrev,Db.store,ht,hxp,hxt]
    · have hxp : x ≠ p := ne_of_mem_of_not_mem hx hp.notMem
      have hxt : x ≠ t := ne_of_mem_of_not_mem hx htl
      simp [Db.prevOf,Db.setNextAt,Db.setNext,Db.setPrev,Db.store,ht,hxp,hxt]
    · obtain ⟨a,ha⟩ : ∃ a, db.head = some a := by
        rw [h.head]
        exact Option.ne_none_iff_exists'.mp (by simpa using hl)
      simp [ha]
    · intro x hx
      exact h.cursor x (hshell.cursor.symm.trans hx)
    · exact hshell.fresh.symm.le
    · exact hp.lt.trans_eq hshell.fresh.symm
  | false =>
    have htail : db.tail = l.getLast? := htail
    have hcore : Core db (l ++ []) := (List.append_nil l).symm ▸ h.toCore
    have hp : db.Unused (l ++ []) p := (List.append_nil l).symm ▸ hp
    rw [if_neg Bool.false_ne_true]
    refine ⟨hcore.insert hp ?_ hshell.cursor hshell.fresh ?_ ?_,?_⟩
    · rw [h.head]
      cases l <;> simp
    · rw [htail]
      refine (nextOf_setNextAt _ _ l).trans ?_
      rw [nextOf_setPrev,nextOf_setNext]
      rfl
    · refine (prevOf_setNextAt _ _ _).trans ?_
      rw [prevOf_setPrev,prevOf_setNext,htail]
      rfl
    · show some p = (l ++ [p]).getLast?
      simp

/-- Whether a record counts as a NIS entry: by its name, or by its line where it did not parse. -/
def Record.isNis (ops : Ops α) (r : Record α) : Bool :=
  nameIsNis (match r.eptr with
    | some a => ops.getname a
    | none => r.line.getD [])

theorem isNis_record (ops : Ops α) (db : Db α) (p : Nat) :
    (db.record p).isNis ops = nameIsNis (entryName ops (db.entries p)) := rfl

theorem addOneEntryNis_of_none (ops : Ops α) (h : Core db l)
    (hnis : ∀ q ∈ l, (db.record q).isNis ops = false) : db.addOneEntryNis ops p = db.addOneEntry p := by
  have hfind : (db.from db.head).find? (fun p => nameIsNis (entryName ops (db.entries p))) = none := by
    rw [h.from_head]
    refine List.find?_eq_none.mpr fun q hq => ?_
    rw [← isNis_record,hnis q hq]
    exact Bool.false_ne_true
  rw [Db.addOneEntryNis,hfind]

/-- The database in which `p` stands in front of the first NIS entry. -/
theorem addOneEntryNis_of_some (ops : Ops α) {q : Nat} (h : Core db (xs ++ q :: ys))
    (hxs : ∀ x ∈ xs, (db.record x).isNis ops = false) (hq : (db.record q).isNis ops = true) :
    db.addOneEntryNis ops p =
      { (((db.setNext p (some q)).setPrev p xs.getLast?).setNextAt xs.getLast? (some p)).setPrev q (some p) with
        head := (xs ++ p :: q :: ys).head? } := by
  have hfind : (db.from db.head).find? (fun p => nameIsNis (entryName ops (db.entries p))) = some q := by
    rw [h.from_head]
    refine List.find?_eq_some_iff_append.mpr ⟨hq,xs,ys,rfl,fun x hx => ?_⟩
    rw [← isNis_record,hxs x hx]
    rfl
  have hprev : db.prevOf q = xs.getLast? := by rw [h.linked.prev_eq,Option.or_none]
  have hhead : db.head = (xs ++ q :: ys).head? := h.head
  rw [Db.addOneEntryNis,hfind]
  cases xs with
  | nil => simp [hprev,Db.setNextAt,Db.setPrev,Db.store]
  | cons x xs =>
    obtain ⟨last,hlast⟩ : ∃ last, (x :: xs).getLast? = some last :=
      Option.ne_none_iff_exists'.mp (by simp)
    rw [hlast] at hprev ⊢
    simp [hprev,hhead,Db.setNextAt,Db.setPrev,Db.setNext,Db.store]

theorem record_addOneEntryNis (ops : Ops α) (h : Core db l) :
    (db.addOneEntryNis ops p).record = db.record := by
  by_cases hnis : ∀ q ∈ l, (db.record q).isNis ops = false
  · rw [addOneEntryNis_of_none ops h hnis,record_addOneEntry]
  · have hfind : ∃ q, l.find? (fun q => (db.record q).isNis ops) = some q := by
      rw [← Option.isSome_iff_exists,List.find?_isSome]
      simpa using hnis
    obtain ⟨q,hfind⟩ := hfind
    obtain ⟨xs,ys,rfl,hxs,hq⟩ := find?_split hfind
    rw [addOneEntryNis_of_some ops h hxs hq]
    refine (record_setPrev _ q (some p)).trans ?_
    rw [(setNextAt_shell _ _ _).record,record_setPrev,record_setNext]

/-- Linking an entry in front of the NIS entries. -/
theorem Rep.addOneEntryNis (ops : Ops α) (h : Rep db (xs ++ ys) stale) (hp : db.Unused (xs ++ ys) p)
    (hxs : ∀ x ∈ xs, (db.record x).isNis ops = false)
    (hys : ∀ q ∈ ys.head?, (db.record q).isNis ops = true) :
    Rep (db.addOneEntryNis ops p) (if stale && ys.isEmpty then xs else xs ++ p :: ys) stale := by
  cases ys with
  | nil =>
    rw [List.append_nil] at h hp
    rw [addOneEntryNis_of_none ops h.toCore hxs]
    simpa using h.addOneEntry hp
  | cons q ys =>
    have hshell := setNextAt_shell ((db.setNext p (some q)).setPrev p xs.getLast?) xs.getLast? (some p)
    have htail := h.tail
    rw [addOneEntryNis_of_some ops h.toCore hxs (hys q rfl),show (stale && (q :: ys).isEmpty) = false by simp,
      if_neg Bool.false_ne_true]
    refine ⟨h.toCore.insert hp rfl hshell.cursor hshell.fresh ?_ ?_,?_⟩
    · refine (nextOf_setPrev _ q (some p)).trans ?_
      rw [nextOf_setNextAt,nextOf_setPrev,nextOf_setNext]
      rfl
    · refine (prevOf_setPrev _ q (some p)).trans ?_
      rw [prevOf_setNextAt,prevOf_setPrev,prevOf_setNext]
      rfl
    · cases stale with
      | true =>
        obtain ⟨_,t,ht,htl,hlt⟩ : (xs ++ q :: ys) ≠ [] ∧
          ∃ t, db.tail = some t ∧ t ∉ xs ++ q :: ys ∧ t < db.fresh := htail
        refine ⟨by simp,t,hshell.tail.trans ht,fun hm => ?_,hlt.trans_eq hshell.fresh.symm⟩
        rcases List.mem_cons.mp (List.perm_middle.mem_iff.mp hm) with rfl | hm
        · exact hp.notTail ht
        · exact htl hm
      | false =>
        have htail : db.tail = (xs ++ q :: ys).getLast? := htail
        refine (hshell.tail.trans htail).trans ?_
        simp

end Insertion

section Removal
variable {db : Db α} {xs ys : List Nat} {p : Nat} {stale : Bool}

/-- The assignments of an unlinking, which never touch the unlinked entry itself. -/
theorem commonioDelEntry_eq (db : Db α) (p : Nat) :
    commonioDelEntry db p =
      { (db.setNextAt (db.prevOf p) (db.nextOf p)).setPrevAt (db.nextOf p) (db.prevOf p) with
        head := if db.prevOf p = none then db.nextOf p else db.head
        tail := if db.nextOf p = none then db.prevOf p else db.tail
        cursor := if some p = db.cursor then db.nextOf p else db.cursor
        changed := true } := by
  unfold commonioDelEntry
  generalize db.prevOf p = before
  generalize db.nextOf p = behind
  split <;> cases before <;> cases behind <;> rfl

/-- The links of a removed entry stay as they were, and so do those of entries elsewhere. -/
theorem nextOf_commonioDelEntry (h : Core db (xs ++ p :: ys)) {q : Nat} (hq : q ∉ xs) :
    (commonioDelEntry db p).nextOf q = db.nextOf q := by
  have hprev : db.prevOf p = xs.getLast? := by rw [h.linked.prev_eq,Option.or_none]
  rw [commonioDelEntry_eq,hprev]
  refine Eq.trans (congrFun (nextOf_setPrevAt _ _ _) q) ?_
  rw [nextOf_setNextAt,relinkNext_of_notMem hq]

theorem fresh_commonioDelEntry (db : Db α) (p : Nat) : (commonioDelEntry db p).fresh = db.fresh := by
  rw [commonioDelEntry_eq]
  refine Eq.trans (setPrevAt_shell _ _ _).fresh ?_
  exact (setNextAt_shell _ _ _).fresh

theorem record_commonioDelEntry (db : Db α) (p : Nat) : (commonioDelEntry db p).record = db.record := by
  rw [commonioDelEntry_eq]
  refine Eq.trans (setPrevAt_shell _ _ _).record ?_
  exact (setNextAt_shell _ _ _).record

/-- Removing an entry of the list: a stale tail is mended where the last one goes. -/
theorem Rep.delEntry (h : Rep db (xs ++ p :: ys) stale) :
    Rep (commonioDelEntry db p) (xs ++ ys) (stale && !ys.isEmpty) := by
  have hprev : db.prevOf p = xs.getLast? := by rw [h.linked.prev_eq,Option.or_none]
  have hnext : db.nextOf p = ys.head? := by rw [h.linked.next_eq,Option.or_none]
  have hfresh := fresh_commonioDelEntry db p
  have hsub : ∀ x ∈ xs ++ ys, x ∈ xs ++ p :: ys := fun x hx =>
    List.perm_middle.mem_iff.mpr (List.mem_cons_of_mem p hx)
  have htail := h.tail
  refine ⟨⟨?_,?_,?_,?_,?_⟩,?_⟩
  · have hhead := h.head
    rw [commonioDelEntry_eq,hprev,hnext]
    cases xs with
    | nil => rfl
    | cons x xs =>
      rw [if_neg (by simp)]
      exact hhead
  · have hn : (commonioDelEntry db p).nextOf = relinkNext db.nextOf xs (db.nextOf p) := by
      rw [commonioDelEntry_eq,hprev]
      refine (nextOf_setPrevAt _ _ _).trans ?_
      exact nextOf_setNextAt _ _ xs
    have hp : (commonioDelEntry db p).prevOf = relinkPrev db.prevOf ys (db.prevOf p) := by
      rw [commonioDelEntry_eq,hnext]
      refine (prevOf_setPrevAt _ _ ys).trans ?_
      rw [prevOf_setNextAt]
    rw [hn,hp]
    exact h.linked.remove h.nodup
  · exact h.nodup.sublist ((List.sublist_cons_self p ys).append_left xs)
  · intro x hx
    rw [hfresh]
    exact h.bound x (hsub x hx)
  · intro x hx
    rw [commonioDelEntry_eq] at hx
    have hcur : (if some p = db.cursor then db.nextOf p else db.cursor) = some x := hx
    by_cases hc : some p = db.cursor
    · rw [if_pos hc,hnext] at hcur
      exact List.mem_append_right xs (List.mem_of_head? hcur)
    · rw [if_neg hc] at hcur
      have hm := h.cursor x hcur
      rcases List.mem_cons.mp (List.perm_middle.mem_iff.mp hm) with rfl | hm
      · exact absurd hcur.symm hc
      · exact hm
  · have hdel : (commonioDelEntry db p).tail = if ys = [] then xs.getLast? else db.tail := by
      rw [commonioDelEntry_eq,hprev,hnext]
      cases ys <;> rfl
    cases ys with
    | nil =>
      rw [show (stale && !([] : List Nat).isEmpty) = false by simp]
      simpa [TailOk] using hdel
    | cons y ys =>
      rw [if_neg (List.cons_ne_nil y ys)] at hdel
      cases stale with
      | true =>
        obtain ⟨_,t,ht,htl,hlt⟩ : (xs ++ p :: y :: ys) ≠ [] ∧
          ∃ t, db.tail = some t ∧ t ∉ xs ++ p :: y :: ys ∧ t < db.fresh := htail
        exact ⟨by simp,t,hdel.trans ht,fun hm => htl (hsub t hm),hlt.trans_eq hfresh.symm⟩
      | false =>
        have htail : db.tail = (xs ++ p :: y :: ys).getLast? := htail
        refine hdel.trans (htail.trans ?_)
        simp

end Removal

end UserDb.Commonio
