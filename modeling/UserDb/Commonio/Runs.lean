import UserDb.Commonio.Edits
import UserDb.Commonio.Group

/-! Whole runs on a database, and when its links stay one doubly linked list. -/
namespace UserDb.Commonio
open UserDb.Base UserDb.Base.LinkedList

/-- A call on a database. The entry to delete is given by its place in the list. -/
inductive DbCall (α : Type) : Type 1 where
  | open (access : AccessMode) (create : Bool) (file : FileState) (memory : Bool)
  | update (eptr : α) (memory : Bool)
  | append (eptr : α) (memory : Bool)
  | remove (name : Bytes)
  | delEntry (index : Nat)
  | sort (cmp : Entry α → Entry α → Int) (memory : Bool)
  | sortWrt {β : Type} (passwdOps : Ops β) (passwd : Db β)
  | locate (name : Bytes)
  | rewind
  | next

variable {α : Type} (ops : Ops α) (qsort : Qsort)

def Db.call (db : Db α) : DbCall α → Db α
  | .open access create file memory => (commonioOpen ops db access create file memory).2
  | .update eptr memory => (commonioUpdate ops db eptr memory).2
  | .append eptr memory => (commonioAppend db eptr memory).2
  | .remove name => (commonioRemove ops db name).2
  | .delEntry index => ((db.from db.head)[index]?).elim db (commonioDelEntry db)
  | .sort cmp memory => (commonioSort qsort cmp db memory).2
  | .sortWrt passwdOps passwd => commonioSortWrt ops db passwdOps passwd
  | .locate name => (commonioLocate ops db name).2
  | .rewind => (commonioRewind db).2
  | .next => (commonioNext db).2

/-- A database before its first call, on `memory` that may hold anything. -/
def Db.initial (memory : Nat → Entry α) (fresh : Nat) (locked : Bool) : Db α :=
  ⟨memory,fresh,none,none,none,false,false,false,locked⟩

/-- `head`, `tail` and the links form one finite doubly linked list with the cursor in it. -/
structure Db.WellFormed (db : Db α) (l : List Nat) : Prop where
  nodup : l.Nodup
  head : db.head = l.head?
  tail : db.tail = l.getLast?
  next : ∀ i p, l[i]? = some p → db.nextOf p = l[i+1]?
  prev : ∀ i p, l[i]? = some p → db.prevOf p = if i = 0 then none else l[i-1]?
  cursor : ∀ p, db.cursor = some p → p ∈ l

/-- The condition on a call under which it keeps the list well formed. -/
def CallKeepsList (db : Db α) : DbCall α → Prop
  | .open access _ (.contents bytes false) true =>
    refusesOpen db access = false → ∀ lines, fileLines bytes = some lines → lastAbsorbed ops lines = false
  | .sort cmp true =>
    let all := db.from db.head
    let regular := all.takeWhile db.isSortable
    regular.length ≤ 1 ∨ all.dropWhile db.isSortable = [] ∨
      GreatestLast (fun p q => cmp (db.entries p) (db.entries q)) regular
  | .sortWrt passwdOps passwd => db.head = none ∨ someEntryStays ops db passwdOps passwd
  | _ => True

/-- Every call of a run meets the condition in the state it is made in. -/
def RunKeepsList : Db α → List (DbCall α) → Prop
  | _, [] => True
  | db, c :: calls => CallKeepsList ops db c ∧ RunKeepsList (db.call ops qsort c) calls

section Steps
variable {ops qsort} {db : Db α} {l : List Nat}

theorem Rep.wellFormed (h : Rep db l false) : db.WellFormed l where
  nodup := h.nodup
  head := h.head
  tail := h.tail
  next _ _ hp := by rw [(h.linked.getElem? hp).1,Option.or_none]
  prev _ _ hp := (h.linked.getElem? hp).2
  cursor := h.cursor

theorem Rep.initial (memory : Nat → Entry α) (fresh : Nat) (locked : Bool) :
    Rep (Db.initial memory fresh locked) [] false := Rep.of_empty rfl rfl rfl

/-- A call that meets its condition keeps the list. -/
theorem Rep.call (qsort : Qsort) (h : Rep db l false) {c : DbCall α} (hc : CallKeepsList ops db c) :
    ∃ l', Rep (db.call ops qsort c) l' false := by
  cases c with
  | «open» access create file memory =>
    rcases commonioOpen_cases ops db access create file memory with
      huntouched | ⟨bytes,lines,l',rfl,rfl,hguard,hlines,_,hrep,_⟩
    · exact h.untouched huntouched
    · rw [hc hguard lines hlines] at hrep
      exact ⟨l',hrep⟩
  | update eptr memory =>
    rcases commonioUpdate_cases h eptr memory (Eq.refl (commonioUpdate ops db eptr memory)) with
      ⟨_,hdb⟩ | ⟨_,_,_,_,_,_,_,_,hrep,_⟩ | ⟨_,_,_,_,hrep,_⟩
    · exact ⟨l,(congrArg (Rep · l false) hdb).mpr h⟩
    · exact ⟨l,hrep⟩
    · exact ⟨_,hrep⟩
  | append eptr memory => exact h.commonioAppend eptr memory
  | remove name =>
    rcases commonioRemove_cases h name (Eq.refl (commonioRemove ops db name)) with
      ⟨_,hdb⟩ | ⟨_,_,_,_,_,_,_,_,hrep,_⟩
    · exact ⟨l,(congrArg (Rep · l false) hdb).mpr h⟩
    · exact ⟨_,hrep⟩
  | delEntry index =>
    have hcall : db.call ops qsort (.delEntry index) = (l[index]?).elim db (commonioDelEntry db) := by
      rw [Db.call,h.from_head]
    rw [hcall]
    cases hp : l[index]? with
    | none => exact ⟨l,h⟩
    | some p =>
      obtain ⟨xs,ys,rfl⟩ := List.append_of_mem (List.mem_of_getElem? hp)
      exact ⟨_,h.delEntry⟩
  | sort cmp memory =>
    refine h.commonioSort qsort cmp memory ?_
    cases memory with
    | false => exact .inr (.inl rfl)
    | true =>
      simp only [CallKeepsList,h.from_head] at hc
      rcases hc with hc | hc | hc
      · exact .inl hc
      · exact .inr (.inr (.inl hc))
      · exact .inr (.inr (.inr hc))
  | sortWrt passwdOps passwd => exact h.commonioSortWrt ops passwdOps passwd hc
  | locate name => exact ⟨l,h.commonioLocate name⟩
  | rewind => exact ⟨l,h.commonioRewind⟩
  | next => exact ⟨l,h.commonioNext⟩

theorem Rep.calls (h : Rep db l false) {calls : List (DbCall α)} (hc : RunKeepsList ops qsort db calls) (n : Nat) :
    ∃ l', Rep ((calls.take n).foldl (Db.call ops qsort) db) l' false := by
  induction calls generalizing db l n with
  | nil => exact ⟨l,by simpa using h⟩
  | cons c calls ih =>
    cases n with
    | zero => exact ⟨l,h⟩
    | succ n =>
      obtain ⟨l',h'⟩ := h.call qsort hc.1
      exact ih h' hc.2 n

end Steps

/-- Where every call of a run meets its condition, the links form one list after every call. -/
theorem links_stay_one_list (memory : Nat → Entry α) (fresh : Nat) (locked : Bool) (calls : List (DbCall α))
    (h : RunKeepsList ops qsort (Db.initial memory fresh locked) calls) (n : Nat) :
    ∃ l, ((calls.take n).foldl (Db.call ops qsort) (Db.initial memory fresh locked)).WellFormed l := by
  obtain ⟨l,hrep⟩ := (Rep.initial memory fresh locked).calls h n
  exact ⟨l,hrep.wellFormed⟩

/-! A sort to run with, and a memory that holds nothing. -/

private theorem orderedInsert_pairwise {β : Type} {cmp : β → β → Int} {a : β} {l : List β} (hl : l.Pairwise (cmp · · ≤ 0))
    (ho : Orders cmp (a :: l)) : (l.orderedInsert (cmp · · ≤ 0) a).Pairwise (cmp · · ≤ 0) := by
  induction l with
  | nil => exact List.pairwise_singleton _ _
  | cons b l ih =>
    obtain ⟨hb,hl⟩ := List.pairwise_cons.mp hl
    rw [List.orderedInsert]
    split
    · rename_i hle
      refine List.pairwise_cons.mpr ⟨fun c hc => ?_,List.pairwise_cons.mpr ⟨hb,hl⟩⟩
      rcases List.mem_cons.mp hc with rfl | hc
      · exact hle
      · exact ho.trans a (by simp) b (by simp) c (by simp [hc]) hle (hb c hc)
    · rename_i hle
      have hba : cmp b a ≤ 0 := (ho.total a (by simp) b (by simp)).resolve_left hle
      have hsub : ∀ c ∈ a :: l, c ∈ a :: b :: l := fun c hc => by
        rcases List.mem_cons.mp hc with rfl | hc
        · simp
        · simp [hc]
      refine List.pairwise_cons.mpr ⟨fun c hc => ?_,ih hl
        ⟨fun x hx y hy => ho.total x (hsub x hx) y (hsub y hy),
          fun x hx y hy z hz => ho.trans x (hsub x hx) y (hsub y hy) z (hsub z hz)⟩⟩
      rcases List.mem_cons.mp ((List.perm_orderedInsert _ a l).mem_iff.mp hc) with rfl | hc
      · exact hba
      · exact hb c hc

def insertionSort : Qsort where
  run cmp l := l.insertionSort (cmp · · ≤ 0)
  perm cmp l := List.perm_insertionSort _ l
  sorted cmp l hn ho := by
    induction l with
    | nil => exact List.Pairwise.nil
    | cons a l ih =>
      have hn := (List.nodup_cons.mp hn).2
      have hl : Orders cmp l :=
        ⟨fun x hx y hy => ho.total x (by simp [hx]) y (by simp [hy]),
          fun x hx y hy z hz => ho.trans x (by simp [hx]) y (by simp [hy]) z (by simp [hz])⟩
      have hperm := List.perm_insertionSort (cmp · · ≤ 0) l
      refine orderedInsert_pairwise (ih hn hl) ?_
      have hsub : ∀ x ∈ a :: l.insertionSort (cmp · · ≤ 0), x ∈ a :: l := fun x hx => by
        rcases List.mem_cons.mp hx with rfl | hx
        · simp
        · simp [hperm.mem_iff.mp hx]
      exact ⟨fun x hx y hy => ho.total x (hsub x hx) y (hsub y hy),
        fun x hx y hy z hz => ho.trans x (hsub x hx) y (hsub y hy) z (hsub z hz)⟩

def emptyMemory : Nat → Entry Group := fun _ => ⟨none,none,none,none,false⟩

def splitFile : Bytes := ascii "a:x:5:u\nb:x:6:\na:x:5:v\n"

def editedGroups : List (DbCall Group) :=
  [.open .rdwr false (.contents (ascii "a:x:5:u\na:x:5:v\nb:x:6:\n") false) true,
    .update ⟨ascii "c",ascii "x",4,[]⟩ true,.next,.sort grCmp true,.remove (ascii "b")]

theorem links_stay_one_list_edited :
    ∃ l, ((editedGroups.take 5).foldl (Db.call (groupOps 1) insertionSort)
      (Db.initial emptyMemory 0 true)).WellFormed l := by
  refine links_stay_one_list (groupOps 1) insertionSort emptyMemory 0 true editedGroups ⟨?_,trivial,trivial,?_,trivial,trivial⟩ 5
  · rintro _ lines hlines
    cases hlines
    rfl
  · exact .inr (.inl rfl)

/-- The last line of the file is a part of the first: the tail stays on its entry. -/
theorem absorbed_last_line_keeps_tail :
    ¬ ∀ n, ∃ l, (([.open .rdwr false (.contents splitFile false) true] : List (DbCall Group)).take n |>.foldl
      (Db.call (groupOps 1) insertionSort) (Db.initial emptyMemory 0 true)).WellFormed l := by
  intro h
  obtain ⟨l,hl⟩ := h 1
  have h0 : l[0]? = some 0 := List.head?_eq_getElem?.symm.trans (hl.head.symm.trans rfl)
  have h1 : l[1]? = some 1 := (hl.next 0 0 h0).symm.trans rfl
  have h2 : l[2]? = none := (hl.next 1 1 h1).symm.trans rfl
  have hlast : l.getLast? = some 2 := hl.tail.symm.trans rfl
  obtain ⟨i,hi⟩ := List.mem_iff_getElem?.mp (List.mem_of_getLast? hlast)
  have hlen := List.getElem?_eq_none_iff.mp h2
  have hlt := (List.getElem?_eq_some_iff.mp hi).1
  obtain rfl | rfl : i = 0 ∨ i = 1 := by omega
  · rw [h0] at hi
    cases hi
  · rw [h1] at hi
    cases hi

/-- The sort puts entry 1 before entry 0 and leaves the link back of the NIS line on entry 1. -/
example :
    let db := [.open .rdwr false (.contents (ascii "b:x:9:\na:x:5:\n+:::\n") false) true,.sort grCmp true].foldl
      (Db.call (groupOps 0) insertionSort) (Db.initial emptyMemory 0 true)
    (db.head,db.nextOf 1,db.nextOf 0,db.prevOf 2) = (some 1,some 0,some 2,some 1) := by decide +kernel

/-- Every entry of the database was taken out and put back: the tail stays null. -/
example :
    let db := commonioOpen (groupOps 0) (Db.initial emptyMemory 0 true) .rdwr false
      (.contents (ascii "a:x:5:\n") false) true
    let db := commonioSortWrt (groupOps 0) db.2 (groupOps 0) db.2
    (db.head,db.tail) = (some 0,none) := by decide +kernel

end UserDb.Commonio
