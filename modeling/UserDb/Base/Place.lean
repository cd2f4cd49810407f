import Mathlib.Data.List.Nodup

/-! A place in a list, and how it moves along when elements come and go. -/
namespace UserDb.Base
universe u
variable {α : Type u} {xs ys : List α} {a : α} {place : Option Nat}

/-- The place that the element at `j` has once another one was put in at `i`. -/
def shiftInsert (i j : Nat) : Nat := if j < i then j else j + 1

/-- The place that the element at `j` has once the one at `i` is gone, the next one standing in for it. -/
def shiftErase (i j : Nat) : Nat := if i < j then j - 1 else j

/-- The element at a place. -/
def elementAt (l : List α) (place : Option Nat) : Option α := place.bind (l[·]?)

@[simp] theorem elementAt_none (l : List α) : elementAt l none = none := rfl

@[simp] theorem elementAt_some (l : List α) (i : Nat) : elementAt l (some i) = l[i]? := rfl

theorem elementAt_append_length : elementAt (xs ++ a :: ys) (some xs.length) = some a := by simp

/-- Each element keeps its place when another one is put in. -/
theorem elementAt_insert : elementAt (xs ++ a :: ys) (place.map (shiftInsert xs.length)) = elementAt (xs ++ ys) place := by
  cases place with
  | none => rfl
  | some j =>
    simp only [Option.map_some,elementAt_some,shiftInsert]
    split
    · rename_i hlt
      rw [List.getElem?_append_left hlt,List.getElem?_append_left hlt]
    · rename_i hge
      rw [List.getElem?_append_right (by omega),List.getElem?_append_right (by omega)]
      rw [show j + 1 - xs.length = j - xs.length + 1 by omega,List.getElem?_cons_succ]

private theorem elementAt_filter (l : List α) (place : Option Nat) : elementAt l (place.filter (· < l.length)) = elementAt l place := by
  cases place with
  | none => rfl
  | some j =>
    rw [Option.filter_some]
    split
    · rfl
    · rename_i hge
      have hnone : l[j]? = none := List.getElem?_eq_none (by simpa using hge)
      rw [elementAt_none,elementAt_some,hnone]

/-- Nothing but the element that goes loses its place. -/
theorem elementAt_erase [DecidableEq α] (hnodup : (xs ++ a :: ys).Nodup) {c : Option α} (hc : c = elementAt (xs ++ a :: ys) place) :
    (if some a = c then ys.head? else c) =
      elementAt (xs ++ ys) ((place.map (shiftErase xs.length)).filter (· < (xs ++ ys).length)) := by
  obtain ⟨hnotMem,_⟩ := List.nodup_cons.mp (List.nodup_middle.mp hnodup)
  rw [elementAt_filter]
  cases place with
  | none =>
    rw [hc]
    rfl
  | some j =>
    rw [elementAt_some] at hc
    rw [Option.map_some,elementAt_some,shiftErase]
    rcases Nat.lt_trichotomy j xs.length with hlt | rfl | hgt
    · rw [List.getElem?_append_left hlt] at hc
      rw [if_neg (by omega : ¬xs.length < j),List.getElem?_append_left hlt,← hc]
      refine if_neg fun heq => hnotMem ?_
      exact List.mem_append_left ys (List.mem_of_getElem? (hc.symm.trans heq.symm))
    · rw [List.getElem?_append_right (Nat.le_refl _),Nat.sub_self,List.getElem?_cons_zero] at hc
      rw [if_neg (Nat.lt_irrefl _),List.getElem?_append_right (Nat.le_refl _),Nat.sub_self,if_pos hc.symm,List.head?_eq_getElem?]
    · rw [List.getElem?_append_right (by omega),show j - xs.length = j - 1 - xs.length + 1 by omega,List.getElem?_cons_succ] at hc
      rw [if_pos hgt,List.getElem?_append_right (by omega),← hc]
      refine if_neg fun heq => hnotMem ?_
      exact List.mem_append_right xs (List.mem_of_getElem? (hc.symm.trans heq.symm))

/-- The first place behind a place whose element passes a test. -/
def findAfter (test : α → Bool) (l : List α) (place : Option Nat) : Option Nat :=
  let start := place.elim 0 (· + 1)
  ((l.drop start).findIdx? test).map (· + start)

theorem findAfter_lt {test : α → Bool} {l : List α} {i : Nat} (h : findAfter test l place = some i) : i < l.length := by
  obtain ⟨j,hj,rfl⟩ := Option.map_eq_some_iff.mp h
  obtain ⟨hlt,_⟩ := List.findIdx?_eq_some_iff_getElem.mp hj
  rw [List.length_drop] at hlt
  omega

theorem findAfter_map {β : Type u} (f : β → α) (test : α → Bool) (l : List β) :
    findAfter test (l.map f) place = findAfter (test ∘ f) l place := by
  unfold findAfter
  simp only [← List.map_drop,List.findIdx?_map]

/-- Searching from a place finds the element that searching the rest of the list does. -/
theorem elementAt_findAfter (test : α → Bool) (l : List α) (place : Option Nat) :
    elementAt l (findAfter test l place) = (l.drop (place.elim 0 (· + 1))).find? test := by
  rw [List.find?_eq_bind_findIdx?_getElem?]
  unfold findAfter elementAt
  rw [Option.bind_map]
  refine congrArg _ (funext fun i => ?_)
  rw [Function.comp_apply,List.getElem?_drop,Nat.add_comm]

theorem modify_middle (xs : List α) (a : α) (ys : List α) (f : α → α) : (xs ++ a :: ys).modify xs.length f = xs ++ f a :: ys := by
  induction xs with
  | nil => rfl
  | cons x xs ih => simpa using ih

theorem insertIdx_middle (xs : List α) (a : α) (ys : List α) : (xs ++ ys).insertIdx xs.length a = xs ++ a :: ys := by
  induction xs with
  | nil => rfl
  | cons x xs ih => simpa using ih

theorem eraseIdx_middle (xs : List α) (a : α) (ys : List α) : (xs ++ a :: ys).eraseIdx xs.length = xs ++ ys := by
  induction xs with
  | nil => rfl
  | cons x xs ih => simpa using ih

end UserDb.Base
