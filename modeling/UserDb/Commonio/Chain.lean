import UserDb.Commonio.Cursor
import UserDb.Commonio.Sort

/-! A database that is searched, appended to and sorted. In front of NIS lines a sort can leave a
wrong link back, but the searches go forwards, and a new entry follows the tail. -/
namespace UserDb.Commonio
open UserDb.Base UserDb.Base.LinkedList

variable {α : Type} {db db' : Db α} {l sorted regular rest : List Nat}

/-- The list that the loops go along, with the tail that new entries are put behind. -/
structure Chained (db : Db α) (l : List Nat) : Prop extends Chain db l where
  tail : db.tail = l.getLast?

theorem Rep.chained (h : Rep db l false) : Chained db l := ⟨h.chain,h.tail⟩

theorem MovedCursor.chained (h : MovedCursor db db' l) (hchained : Chained db l) : Chained db' l := by
  refine ⟨h.chain hchained.toChain,?_⟩
  obtain ⟨cursor,rfl,_⟩ := h.moved
  exact hchained.tail

/-- The open database refuses, or links a new entry at the end. -/
theorem Chained.append (h : Chained db l) (eptr : α) (memory : Bool) {result : Bool}
    (hrun : commonioAppend db eptr memory = (result,db')) :
    (result = false ∧ db' = db) ∨
    (result = true ∧ db'.isopen = db.isopen ∧ Chained db' (l ++ [db.fresh]) ∧
      (l ++ [db.fresh]).map db'.record = l.map db.record ++ [editedRecord none eptr]) := by
  unfold commonioAppend at hrun
  split at hrun
  · cases hrun
    exact .inl ⟨rfl,rfl⟩
  · have hfresh : db.fresh ∉ l := fun hm => lt_irrefl _ (h.bound _ hm)
    set added := (db.allocate ⟨none,some eptr,none,none,true⟩).addOneEntry db.fresh with hadded
    have hshell := setNextAt_shell
      (((db.allocate ⟨none,some eptr,none,none,true⟩).setNext db.fresh none).setPrev db.fresh db.tail) db.tail (some db.fresh)
    rw [addOneEntry_eq] at hadded
    have hfields : added.head = db.head.or (some db.fresh) ∧ added.tail = some db.fresh ∧ added.fresh = db.fresh + 1 ∧
        added.cursor = db.cursor ∧ added.isopen = db.isopen := by
      rw [hadded]
      exact ⟨rfl,rfl,hshell.fresh,hshell.cursor,hshell.isopen⟩
    have hnext : added.nextOf = relinkNext (Function.update db.nextOf db.fresh none) l (some db.fresh) := by
      have halloc : (db.allocate ⟨none,some eptr,none,none,true⟩).nextOf = Function.update db.nextOf db.fresh none := by
        funext x
        by_cases hx : x = db.fresh
        · rw [hx]
          simp [Db.allocate,Db.nextOf,Db.store]
        · simp [Db.allocate,Db.nextOf,Db.store,hx]
      have htail : (db.allocate ⟨none,some eptr,none,none,true⟩).tail = l.getLast? := h.tail
      rw [hadded,htail]
      refine (nextOf_setNextAt _ _ l).trans ?_
      rw [nextOf_setPrev,nextOf_setNext,halloc,Function.update_idem]
    have hrecord : added.record = Function.update db.record db.fresh (editedRecord none eptr) :=
      (record_addOneEntry _ _).trans (record_allocate _)
    cases hrun
    refine .inr ⟨rfl,hfields.2.2.2.2,⟨⟨?_,?_,?_,?_,?_⟩,?_⟩,?_⟩
    · refine hfields.1.trans ?_
      rw [h.head]
      cases l <;> rfl
    · show Forward added.nextOf (l ++ [db.fresh])
      rw [hnext]
      exact h.linked.concat h.nodup hfresh
    · exact List.nodup_append.mpr ⟨h.nodup,List.nodup_singleton _,fun p hp q hq he =>
        hfresh (List.mem_singleton.mp hq ▸ he ▸ hp)⟩
    · intro p hp
      show p < added.fresh
      rw [hfields.2.2.1]
      rcases List.mem_append.mp hp with hp | hp
      · exact Nat.lt_succ_of_lt (h.bound p hp)
      · rw [List.mem_singleton.mp hp]
        exact Nat.lt_succ_self _
    · intro p hp
      exact List.mem_append_left _ (h.cursor p (hfields.2.2.2.1.symm.trans hp))
    · refine hfields.2.1.trans ?_
      simp
    · show (l ++ [db.fresh]).map added.record = _
      rw [List.map_append,List.map_singleton,hrecord,Function.update_self]
      refine congrArg (· ++ _) (List.map_congr_left fun q hq => ?_)
      rw [Function.update_of_ne (ne_of_mem_of_not_mem hq hfresh)]

/-- The array linked in order, in front of what the sort left alone. -/
theorem Chained.relink (h : Chained db (regular ++ rest)) (hperm : sorted.Perm regular) (hlen : 1 < regular.length) :
    Chained (db.relink sorted rest.head?) (sorted ++ rest) ∧ (db.relink sorted rest.head?).record = db.record ∧
      (db.relink sorted rest.head?).isopen = db.isopen := by
  have hperm' : (sorted ++ rest).Perm (regular ++ rest) := hperm.append_right rest
  have hn : (sorted ++ rest).Nodup := hperm'.nodup_iff.mpr h.nodup
  have hns : sorted.Nodup := (List.nodup_append.mp hn).1
  set start : Db α := { db with
    head := sorted.head?
    tail := if rest.head? = none then sorted.getLast? else db.tail }
  set order := 0 :: (sorted.length - 1) :: List.range' 1 (sorted.length - 2) with horder
  have heq : db.relink sorted rest.head? = order.foldl (Db.assignLinks sorted rest.head?) start :=
    relink_eq db rest.head? (by rwa [hperm.length_eq])
  have hshell := foldl_assignLinks_shell sorted rest.head? start order
  rw [heq]
  have hsorted : Linked (order.foldl (Db.assignLinks sorted rest.head?) start).nextOf
      (order.foldl (Db.assignLinks sorted rest.head?) start).prevOf none sorted rest.head? := by
    refine linked_of_getElem? fun i p hp => ?_
    have hi : i ∈ order := by
      have hlt := (List.getElem?_eq_some_iff.mp hp).1
      simp only [horder,List.mem_cons,List.mem_range'_1]
      omega
    exact hasLinks_foldl hns rest.head? start (.inl hi) p hp
  have hrest : Forward (order.foldl (Db.assignLinks sorted rest.head?) start).nextOf rest := by
    refine h.linked.suffix.congr fun p hp => ?_
    have hps : p ∉ sorted := fun hm => List.disjoint_of_nodup_append hn hm hp
    exact (foldl_assignLinks_of_notMem hps rest.head? start order).2
  refine ⟨⟨⟨?_,hsorted.forward_append hrest,hn,?_,?_⟩,?_⟩,hshell.record,hshell.isopen⟩
  · refine hshell.head.trans ?_
    cases sorted with
    | nil =>
      rw [← hperm.length_eq] at hlen
      cases hlen
    | cons p sorted => rfl
  · intro p hp
    rw [hshell.fresh]
    exact h.bound p (hperm'.mem_iff.mp hp)
  · intro p hp
    rw [hshell.cursor] at hp
    exact hperm'.mem_iff.mpr (h.cursor p hp)
  · have hold : db.tail = (regular ++ rest).getLast? := h.tail
    have htail : (order.foldl (Db.assignLinks sorted rest.head?) start).tail =
        if rest.head? = none then sorted.getLast? else db.tail := hshell.tail
    refine htail.trans ?_
    cases rest with
    | nil => simp
    | cons q rest =>
      rw [if_neg (by simp),hold]
      simp [List.getLast?_append,List.getLast?_cons]

/-- A sort only changes the order, whether it has its memory or not. -/
theorem Chained.commonioSort (h : Chained db l) (qsort : Qsort) (cmp : Entry α → Entry α → Int) (memory : Bool) :
    ∃ l', Chained (commonioSort qsort cmp db memory).2 l' ∧ l'.Perm l ∧
      (Commonio.commonioSort qsort cmp db memory).2.record = db.record ∧
      (Commonio.commonioSort qsort cmp db memory).2.isopen = db.isopen := by
  unfold Commonio.commonioSort
  simp only [h.from_head]
  by_cases hlen : (l.takeWhile db.isSortable).length ≤ 1
  · rw [if_pos hlen]
    exact ⟨l,h,List.Perm.refl l,rfl,rfl⟩
  · rw [if_neg hlen]
    cases memory with
    | false => exact ⟨l,h,List.Perm.refl l,rfl,rfl⟩
    | true =>
      rw [if_neg (by simp)]
      have hl : Chained db (l.takeWhile db.isSortable ++ l.dropWhile db.isSortable) := by
        rw [List.takeWhile_append_dropWhile]
        exact h
      have hperm := qsort.perm (fun p q => cmp (db.entries p) (db.entries q)) (l.takeWhile db.isSortable)
      obtain ⟨hrelink,hrecord,hisopen⟩ := hl.relink hperm (Nat.lt_of_not_le hlen)
      refine ⟨_,⟨⟨hrelink.head,hrelink.linked,hrelink.nodup,hrelink.bound,hrelink.cursor⟩,hrelink.tail⟩,?_,hrecord,hisopen⟩
      have happend := hperm.append_right (l.dropWhile db.isSortable)
      rwa [List.takeWhile_append_dropWhile] at happend

end UserDb.Commonio
