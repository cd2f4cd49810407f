import UserDb.Commonio.Merge

/-! Sorting a database: by a comparison, where the entries are linked anew from an array,
and in the order of another database, where they are taken out and put back one by one. -/
namespace UserDb.Commonio
open UserDb.Base UserDb.Base.LinkedList

variable {α : Type}

section Relinking
variable {db : Db α} {sorted regular rest l : List Nat} {nis : Option Nat} {stale : Bool}

/-- The two assignments for position `i` of the sorted array. -/
def Db.assignLinks (sorted : List Nat) (nis : Option Nat) (db : Db α) (i : Nat) : Db α :=
  (db.setPrevAt sorted[i]? (if i = 0 then none else sorted[i-1]?)).setNextAt sorted[i]? (sorted[i+1]?.or nis)

/-- The links of position `i` are those of the sorted array. -/
def Db.HasLinks (sorted : List Nat) (nis : Option Nat) (db : Db α) (i : Nat) : Prop :=
  ∀ p, sorted[i]? = some p →
    db.prevOf p = (if i = 0 then none else sorted[i-1]?) ∧ db.nextOf p = sorted[i+1]?.or nis

private theorem assignLinks_shell (sorted : List Nat) (nis : Option Nat) (db : Db α) (i : Nat) :
    db.SameShell (db.assignLinks sorted nis i) := by
  have h := setPrevAt_shell db sorted[i]? (if i = 0 then none else sorted[i-1]?)
  have h' := setNextAt_shell (db.setPrevAt sorted[i]? (if i = 0 then none else sorted[i-1]?)) sorted[i]?
    (sorted[i+1]?.or nis)
  exact ⟨h.toSameFrame.trans h'.toSameFrame,h'.record.trans h.record⟩

theorem assignLinks_some (nis : Option Nat) (db : Db α) {i p : Nat} (h : sorted[i]? = some p) :
    (db.assignLinks sorted nis i).prevOf =
        Function.update db.prevOf p (if i = 0 then none else sorted[i-1]?) ∧
      (db.assignLinks sorted nis i).nextOf = Function.update db.nextOf p (sorted[i+1]?.or nis) := by
  simp [Db.assignLinks,h,Db.setNextAt,Db.setPrevAt]

theorem assignLinks_none {i : Nat} (h : sorted[i]? = none) : db.assignLinks sorted nis i = db := by
  simp [Db.assignLinks,h,Db.setNextAt,Db.setPrevAt]

private theorem hasLinks_assignLinks (hn : sorted.Nodup) {i j : Nat} (h : i = j ∨ db.HasLinks sorted nis i) :
    (db.assignLinks sorted nis j).HasLinks sorted nis i := by
  intro p hp
  cases hj : sorted[j]? with
  | none =>
    rw [assignLinks_none hj]
    rcases h with rfl | h
    · rw [hp] at hj
      cases hj
    · exact h p hp
  | some q =>
    obtain ⟨hprev,hnext⟩ := assignLinks_some nis db hj
    rw [hprev,hnext]
    by_cases hpq : p = q
    · obtain ⟨hi,rfl⟩ := List.getElem?_eq_some_iff.mp hp
      obtain ⟨hj,rfl⟩ := List.getElem?_eq_some_iff.mp hj
      obtain rfl : i = j := (hn.getElem_inj_iff).mp hpq
      simp
    · rw [Function.update_of_ne hpq,Function.update_of_ne hpq]
      rcases h with rfl | h
      · exact absurd (Option.some.inj (hp.symm.trans hj)) hpq
      · exact h p hp

theorem hasLinks_foldl (hn : sorted.Nodup) (nis : Option Nat) (db : Db α) {is : List Nat} {i : Nat}
    (h : i ∈ is ∨ db.HasLinks sorted nis i) :
    (is.foldl (Db.assignLinks sorted nis) db).HasLinks sorted nis i := by
  induction is generalizing db with
  | nil => exact h.resolve_left (List.not_mem_nil)
  | cons j is ih =>
    apply ih
    rcases h with h | h
    · rcases List.mem_cons.mp h with rfl | h
      · exact .inr (hasLinks_assignLinks hn (.inl rfl))
      · exact .inl h
    · exact .inr (hasLinks_assignLinks hn (.inr h))

theorem foldl_assignLinks_shell (sorted : List Nat) (nis : Option Nat) (db : Db α) (is : List Nat) :
    db.SameShell (is.foldl (Db.assignLinks sorted nis) db) := by
  induction is generalizing db with
  | nil => exact ⟨⟨rfl,rfl,rfl,rfl,rfl,rfl,rfl,rfl⟩,rfl⟩
  | cons i is ih =>
    have h := assignLinks_shell sorted nis db i
    have h' := ih (db.assignLinks sorted nis i)
    exact ⟨h.toSameFrame.trans h'.toSameFrame,h'.record.trans h.record⟩

theorem foldl_assignLinks_of_notMem {p : Nat} (hp : p ∉ sorted) (nis : Option Nat) (db : Db α) (is : List Nat) :
    (is.foldl (Db.assignLinks sorted nis) db).prevOf p = db.prevOf p ∧
      (is.foldl (Db.assignLinks sorted nis) db).nextOf p = db.nextOf p := by
  induction is generalizing db with
  | nil => exact ⟨rfl,rfl⟩
  | cons i is ih =>
    obtain ⟨hprev,hnext⟩ := ih (db.assignLinks sorted nis i)
    rw [List.foldl_cons,hprev,hnext]
    cases hi : sorted[i]? with
    | none =>
      rw [assignLinks_none hi]
      exact ⟨rfl,rfl⟩
    | some q =>
      obtain ⟨hprev,hnext⟩ := assignLinks_some nis db hi
      have hpq : p ≠ q := fun h => hp (h ▸ List.mem_of_getElem? hi)
      rw [hprev,hnext,Function.update_of_ne hpq,Function.update_of_ne hpq]
      exact ⟨rfl,rfl⟩

/-- The sort writes the links of the first, of the last and then of the other positions. -/
theorem relink_eq (db : Db α) (nis : Option Nat) (h : 1 < sorted.length) :
    db.relink sorted nis =
      (0 :: (sorted.length - 1) :: List.range' 1 (sorted.length - 2)).foldl (Db.assignLinks sorted nis)
        { db with
          head := sorted.head?
          tail := if nis = none then sorted.getLast? else db.tail } := by
  have hsome : ∀ i < sorted.length, (sorted[i]?).or nis = sorted[i]? := fun i hi => by
    rw [List.getElem?_eq_getElem hi,Option.some_or]
  have hlast : sorted[sorted.length - 1 + 1]? = none := List.getElem?_eq_none (by omega)
  have hother : ∀ (db : Db α), ∀ i ∈ List.range' 1 (sorted.length - 2),
      (db.setPrevAt sorted[i]? sorted[i-1]?).setNextAt sorted[i]? sorted[i+1]? = db.assignLinks sorted nis i := by
    intro db i hi
    obtain ⟨hi,hlt⟩ := List.mem_range'_1.mp hi
    rw [Db.assignLinks,if_neg (by omega),hsome (i+1) (by omega)]
  rw [List.foldl_cons,List.foldl_cons,← List.foldl_ext _ _ _ hother]
  unfold Db.assignLinks
  rw [if_pos rfl,if_neg (show ¬ sorted.length - 1 = 0 by omega),hsome (0+1) (by omega),hlast,
    Option.none_or,List.head?_eq_getElem?,List.getLast?_eq_getElem?]
  cases nis <;> rfl

/-- The array linked in order, in front of what the sort left alone. Nothing is written to
the first entry of `rest`, which is right only where the last regular entry stayed last. -/
theorem Rep.relink (h : Rep db (regular ++ rest) false) (hperm : sorted.Perm regular)
    (hlen : 1 < regular.length) (hlast : rest = [] ∨ sorted.getLast? = regular.getLast?) :
    Rep (db.relink sorted rest.head?) (sorted ++ rest) false := by
  have hperm' : (sorted ++ rest).Perm (regular ++ rest) := hperm.append_right rest
  have hn : (sorted ++ rest).Nodup := hperm'.nodup_iff.mpr h.nodup
  have hns : sorted.Nodup := (List.nodup_append.mp hn).1
  have hrest : Linked db.nextOf db.prevOf (sorted.getLast?.or none) rest none := by
    rcases hlast with rfl | hlast
    · trivial
    · rw [hlast]
      exact (linked_append.mp h.linked).2
  set start : Db α := { db with
    head := sorted.head?
    tail := if rest.head? = none then sorted.getLast? else db.tail }
  set order := 0 :: (sorted.length - 1) :: List.range' 1 (sorted.length - 2) with horder
  have heq : db.relink sorted rest.head? = order.foldl (Db.assignLinks sorted rest.head?) start :=
    relink_eq db rest.head? (by rwa [hperm.length_eq])
  have hshell := foldl_assignLinks_shell sorted rest.head? start order
  rw [heq]
  refine ⟨⟨?_,linked_append.mpr ⟨linked_of_getElem? fun i p hp => ?_,hrest.congr fun p hp => ?_⟩,hn,?_,?_⟩,?_⟩
  · refine hshell.head.trans ?_
    cases sorted with
    | nil =>
      rw [← hperm.length_eq] at hlen
      cases hlen
    | cons p sorted => rfl
  · have hi : i ∈ order := by
      have hlt := (List.getElem?_eq_some_iff.mp hp).1
      simp only [horder,List.mem_cons,List.mem_range'_1]
      omega
    have hlinks := hasLinks_foldl hns rest.head? start (.inl hi) p hp
    simpa using hlinks
  · have hps : p ∉ sorted := fun hm => List.disjoint_of_nodup_append hn hm hp
    exact (foldl_assignLinks_of_notMem hps rest.head? start order).symm
  · intro p hp
    rw [hshell.fresh]
    exact h.bound p (hperm'.mem_iff.mp hp)
  · intro p hp
    rw [hshell.cursor] at hp
    exact hperm'.mem_iff.mpr (h.cursor p hp)
  · have hold : db.tail = (regular ++ rest).getLast? := h.tail
    have htail : (order.foldl (Db.assignLinks sorted rest.head?) start).tail =
        if rest.head? = none then sorted.getLast? else db.tail := hshell.tail
    refine htail.trans ?_
    cases rest with
    | nil => simp
    | cons q rest =>
      rw [if_neg (by simp),hold]
      simp [List.getLast?_append,List.getLast?_cons]

/-- The last of the entries is above all others, so that every sort leaves it last. -/
def GreatestLast {β : Type} (cmp : β → β → Int) (l : List β) : Prop :=
  Orders cmp l ∧ ∀ last ∈ l.getLast?, ∀ a ∈ l.dropLast, 0 < cmp last a

theorem GreatestLast.getLast? {cmp : Nat → Nat → Int} (h : GreatestLast cmp l) (hn : l.Nodup) (qsort : Qsort) :
    (qsort.run cmp l).getLast? = l.getLast? := by
  have hperm := qsort.perm cmp l
  have hsorted := qsort.sorted cmp l hn h.1
  rcases List.eq_nil_or_concat l with rfl | ⟨init,last,rfl⟩
  · rw [List.perm_nil.mp hperm]
  · rw [List.concat_eq_append] at *
    have habove : ∀ a ∈ init, 0 < cmp last a := by
      simpa using h.2 last (by simp)
    obtain ⟨xs,ys,hrun⟩ := List.append_of_mem (hperm.mem_iff.mpr (List.mem_append_right init List.mem_cons_self))
    rw [hrun] at hperm hsorted ⊢
    cases ys with
    | nil => simp
    | cons y ys =>
      -- what stands behind the last entry would have to be below it
      have hle : cmp last y ≤ 0 :=
        (List.pairwise_cons.mp (List.pairwise_append.mp hsorted).2.1).1 y List.mem_cons_self
      have hnrun := hperm.nodup_iff.mpr hn
      have hne : y ≠ last := fun he =>
        (List.nodup_cons.mp (List.nodup_append.mp hnrun).2.1).1 (he ▸ List.mem_cons_self)
      have hy : y ∈ init ++ [last] := hperm.mem_iff.mp (by simp)
      have hinit : y ∈ init := by simpa [hne] using hy
      exact absurd hle (not_le_of_gt (habove y hinit))

/-- A sort keeps the list well formed where it has nothing to do, or no NIS entry follows what
it sorts, or the last regular entry stays the last one. -/
theorem Rep.commonioSort (h : Rep db l false) (qsort : Qsort) (cmp : Entry α → Entry α → Int) (memory : Bool)
    (hok : (l.takeWhile db.isSortable).length ≤ 1 ∨ memory = false ∨ l.dropWhile db.isSortable = [] ∨
      GreatestLast (fun p q => cmp (db.entries p) (db.entries q)) (l.takeWhile db.isSortable)) :
    ∃ l', Rep (commonioSort qsort cmp db memory).2 l' false := by
  unfold Commonio.commonioSort
  simp only [h.from_head]
  by_cases hlen : (l.takeWhile db.isSortable).length ≤ 1
  · rw [if_pos hlen]
    exact ⟨l,h⟩
  · rw [if_neg hlen]
    cases memory with
    | false => exact ⟨l,h⟩
    | true =>
      rw [if_neg (by simp)]
      have hl : Rep db (l.takeWhile db.isSortable ++ l.dropWhile db.isSortable) false := by
        rw [List.takeWhile_append_dropWhile]
        exact h
      have hn : (l.takeWhile db.isSortable).Nodup := h.nodup.sublist (List.takeWhile_sublist _)
      have hlast := ((hok.resolve_left hlen).resolve_left (by simp)).imp_right
        fun hg => hg.getLast? hn qsort
      have hrelink := hl.relink (qsort.perm _ _) (Nat.lt_of_not_le hlen) hlast
      exact ⟨_,hrelink.withFlags true _ _ _⟩

/-- A sort that succeeds, of a list without NIS lines: the array is the new list, and nothing else changes. -/
theorem Rep.commonioSort_all (h : Rep db l false) (qsort : Qsort) (cmp : Entry α → Entry α → Int) {memory : Bool}
    (hall : ∀ p ∈ l, db.isSortable p = true) (hok : (Commonio.commonioSort qsort cmp db memory).1 = true) :
    ∃ l', Rep (Commonio.commonioSort qsort cmp db memory).2 l' false ∧ l'.Perm l ∧
      (l.length ≤ 1 ∨ l' = qsort.run (fun p q => cmp (db.entries p) (db.entries q)) l) ∧
      (Commonio.commonioSort qsort cmp db memory).2.record = db.record ∧
      (Commonio.commonioSort qsort cmp db memory).2.isopen = db.isopen := by
  have htake : l.takeWhile db.isSortable = l := List.takeWhile_eq_self_iff.mpr hall
  have hdrop : l.dropWhile db.isSortable = [] := List.dropWhile_eq_nil_iff.mpr hall
  unfold Commonio.commonioSort at hok ⊢
  simp only [h.from_head,htake,hdrop,List.head?_nil] at hok ⊢
  by_cases hlen : l.length ≤ 1
  · rw [if_pos hlen]
    exact ⟨l,h,List.Perm.refl l,.inl hlen,rfl,rfl⟩
  · rw [if_neg hlen] at hok ⊢
    cases memory with
    | false => cases hok
    | true =>
      rw [if_neg (by simp)]
      have hperm := qsort.perm (fun p q => cmp (db.entries p) (db.entries q)) l
      have hrep : Rep db (l ++ []) false := (List.append_nil l).symm ▸ h
      have hrelink := hrep.relink hperm (Nat.lt_of_not_le hlen) (.inl rfl)
      rw [List.append_nil] at hrelink
      have hsorted : 1 < (qsort.run (fun p q => cmp (db.entries p) (db.entries q)) l).length := by
        rw [hperm.length_eq]
        omega
      have hlinks := relink_eq db none hsorted
      refine ⟨_,hrelink.withFlags true _ _ _,hperm,.inr rfl,?_,?_⟩
      · show (db.relink _ none).record = db.record
        rw [hlinks]
        exact (foldl_assignLinks_shell _ _ _ _).record
      · show (db.relink _ none).isopen = db.isopen
        rw [hlinks]
        exact (foldl_assignLinks_shell _ _ _ _).isopen

end Relinking

section SortWrt
variable (ops : Ops α) {content : Nat → Record α} {shadow : Db α} {start rem tk l : List Nat}
  {taken : Option Nat}

/-- An entry that a search for `name` stops at. -/
def isNamed (content : Nat → Record α) (name : Bytes) (p : Nat) : Bool :=
  (content p).name ops == some name

/-- The state of the loop: the entries that remain are a database, those taken are a chain. -/
structure Taking (content : Nat → Record α) (shadow : Db α) (taken : Option Nat) (rem tk : List Nat) :
    Prop where
  rep : Rep shadow rem false
  nodup : (rem ++ tk).Nodup
  bound : ∀ p ∈ rem ++ tk, p < shadow.fresh
  first : taken = tk.head?
  chain : Forward shadow.nextOf tk
  content : shadow.record = content

/-- One name takes the first entry of that name that remains. -/
theorem Taking.step_find (h : Taking content shadow taken rem tk) (name : Bytes) :
    (rem.find? (isNamed ops content name) = none ∧ sortWrtStep ops (shadow,taken) name = (shadow,taken)) ∨
    ∃ p xs ys, rem.find? (isNamed ops content name) = some p ∧ rem = xs ++ p :: ys ∧
      Taking content (sortWrtStep ops (shadow,taken) name).1 (sortWrtStep ops (shadow,taken) name).2 (xs ++ ys) (p :: tk) := by
  have hfind := h.rep.findEntryByName ops name
  have hrecord : (fun p => (shadow.record p).name ops == some name) = isNamed ops content name := by
    rw [h.content]
    rfl
  rw [hrecord] at hfind
  cases hp : shadow.findEntryByName ops name with
  | none =>
    refine .inl ⟨hfind.symm.trans hp,?_⟩
    simp only [sortWrtStep,hp]
  | some p =>
    obtain ⟨xs,ys,rfl,-,hname⟩ := find?_split (hfind.symm.trans hp)
    have hperm : (xs ++ ys ++ p :: tk).Perm (xs ++ p :: ys ++ tk) := by
      rw [List.append_assoc,List.append_assoc]
      have hmiddle : (ys ++ p :: tk).Perm (p :: (ys ++ tk)) := List.perm_middle
      exact hmiddle.append_left xs
    have hn : (xs ++ ys ++ p :: tk).Nodup := hperm.nodup_iff.mpr h.nodup
    have hout : p ∉ xs ++ ys := fun hm => List.disjoint_of_nodup_append hn hm List.mem_cons_self
    have hsep := List.disjoint_of_nodup_append h.nodup
    refine .inr ⟨p,xs,ys,hfind.symm.trans hp,rfl,?_⟩
    simp only [sortWrtStep,hp]
    refine ⟨(h.rep.delEntry).setNext_of_notMem hout taken,hn,fun q hq => ?_,rfl,⟨?_,?_⟩,?_⟩
    · refine lt_of_lt_of_eq (h.bound q (hperm.mem_iff.mp hq)) ?_
      exact (fresh_commonioDelEntry shadow p).symm
    · rw [nextOf_setNext,Function.update_self,h.first]
    · refine h.chain.congr fun q hq => ?_
      have hqp : q ≠ p := fun he => hsep (List.mem_append_right xs (he ▸ List.mem_cons_self)) hq
      have hqx : q ∉ xs := fun hm => hsep (List.mem_append_left _ hm) hq
      rw [nextOf_setNext,Function.update_of_ne hqp,nextOf_commonioDelEntry h.rep.toCore hqx]
    · rw [record_setNext,record_commonioDelEntry,h.content]

/-- One name takes at most one entry, and one of that name. -/
theorem Taking.step (h : Taking content shadow taken rem tk) (name : Bytes) :
    ∃ rem' tk', Taking content (sortWrtStep ops (shadow,taken) name).1
        (sortWrtStep ops (shadow,taken) name).2 rem' tk' ∧
      (rem' = rem ∨ ∃ p xs ys, rem = xs ++ p :: ys ∧ rem' = xs ++ ys ∧ isNamed ops content name p = true) := by
  rcases h.step_find ops name with ⟨_,heq⟩ | ⟨p,xs,ys,hfind,hrem,htaking⟩
  · rw [heq]
    exact ⟨rem,tk,h,.inl rfl⟩
  · exact ⟨xs ++ ys,p :: tk,htaking,.inr ⟨p,xs,ys,hrem,rfl,List.find?_some hfind⟩⟩

/-- A whole pass over the names: what has no name stays, and a name takes as many entries as
it occurs at most. -/
theorem Taking.run (h : Taking content shadow taken rem tk) (names : List Bytes) :
    ∃ rem' tk', Taking content (names.foldl (sortWrtStep ops) (shadow,taken)).1
        (names.foldl (sortWrtStep ops) (shadow,taken)).2 rem' tk' ∧
      (∀ p ∈ rem, (content p).name ops = none → p ∈ rem') ∧
      ∀ name, rem.countP (isNamed ops content name) ≤
        rem'.countP (isNamed ops content name) + names.count name := by
  induction names generalizing shadow taken rem tk with
  | nil => exact ⟨rem,tk,h,fun _ hp _ => hp,fun name => by simp⟩
  | cons name names ih =>
    obtain ⟨rem₁,tk₁,h₁,hcase⟩ := h.step ops name
    obtain ⟨rem',tk',h',hkeep,hcount⟩ := ih h₁
    refine ⟨rem',tk',h',fun p hp hnone => hkeep p ?_ hnone,fun other => ?_⟩
    · rcases hcase with rfl | ⟨q,xs,ys,rfl,rfl,hq⟩
      · exact hp
      · rcases List.mem_cons.mp (List.perm_middle.mem_iff.mp hp) with rfl | hp
        · simp [isNamed,hnone] at hq
        · exact hp
    · have hc := hcount other
      rw [List.count_cons]
      rcases hcase with rfl | ⟨q,xs,ys,rfl,rfl,hq⟩
      · omega
      · rw [List.countP_append,List.countP_cons]
        rw [List.countP_append] at hc
        by_cases hother : name = other
        · subst hother
          simp only [hq,if_true,beq_self_eq_true]
          omega
        · have hqo : isNamed ops content other q = false := by
            have hqn : (content q).name ops = some name := by simpa [isNamed] using hq
            simp [isNamed,hqn,hother]
          simp only [hqo,Bool.false_eq_true,if_false]
          omega

/-- Putting the taken entries back leaves one stretch, up to the link back from its first. -/
theorem putBack_linked {before : Option Nat} (hl : Linked shadow.nextOf shadow.prevOf before l none)
    (hhead : shadow.head = l.head?) (hn : (l ++ tk).Nodup) (hc : Forward shadow.nextOf tk) {fuel : Nat}
    (hfuel : tk.length ≤ fuel) :
    ∃ before', Linked (shadow.putBack fuel tk.head?).nextOf (shadow.putBack fuel tk.head?).prevOf before'
        (tk.reverse ++ l) none ∧
      (shadow.putBack fuel tk.head?).head = (tk.reverse ++ l).head? ∧
      (shadow.putBack fuel tk.head?).tail = shadow.tail ∧
      (shadow.putBack fuel tk.head?).fresh = shadow.fresh ∧
      (shadow.putBack fuel tk.head?).cursor = shadow.cursor := by
  induction tk generalizing shadow l before fuel with
  | nil =>
    have heq : shadow.putBack fuel none = shadow := by cases fuel <;> rfl
    rw [List.head?_nil,heq]
    exact ⟨before,hl,hhead,rfl,rfl,rfl⟩
  | cons p tk ih =>
    obtain ⟨fuel,rfl⟩ : ∃ n, fuel = n + 1 := ⟨fuel-1,by simp only [List.length_cons] at hfuel; omega⟩
    obtain ⟨hnext,hc⟩ := hc
    have hsep := List.disjoint_of_nodup_append hn
    have hpl : p ∉ l := fun hm => hsep hm List.mem_cons_self
    have hptk : p ∉ tk := (List.nodup_cons.mp (List.nodup_append.mp hn).2.1).1
    set shadow' : Db α := { (shadow.setPrevAt shadow.head (some p)).setNext p shadow.head with head := some p }
      with hshadow'
    have hstep : shadow.putBack (fuel+1) (p :: tk).head? = shadow'.putBack fuel tk.head? := by
      rw [List.head?_cons,Db.putBack,hnext]
    have hnext' : shadow'.nextOf = Function.update shadow.nextOf p l.head? := by
      refine (nextOf_setNext _ p shadow.head).trans ?_
      rw [nextOf_setPrevAt,hhead]
    have hprev' : shadow'.prevOf = relinkPrev shadow.prevOf l (some p) := by
      refine (prevOf_setNext _ p shadow.head).trans ?_
      rw [hhead,prevOf_setPrevAt]
    have hl' : Linked shadow'.nextOf shadow'.prevOf (shadow'.prevOf p) (p :: l) none := by
      refine ⟨rfl,by rw [hnext',Function.update_self,Option.or_none],?_⟩
      rw [hprev']
      refine (hl.relinkPrev (List.nodup_append.mp hn).1 (some p)).congr fun q hq => ⟨?_,rfl⟩
      rw [hnext',Function.update_of_ne (ne_of_mem_of_not_mem hq hpl)]
    have hn' : (p :: l ++ tk).Nodup := List.perm_middle.nodup_iff.mp hn
    have hc' : Forward shadow'.nextOf tk := hc.congr fun q hq => by
      rw [hnext',Function.update_of_ne (ne_of_mem_of_not_mem hq hptk)]
    obtain ⟨before',hl'',hhead',htail',hfresh',hcursor'⟩ := ih hl' rfl hn' hc' (by simpa using hfuel)
    have hshell := setPrevAt_shell shadow shadow.head (some p)
    rw [hstep,List.reverse_cons,List.append_assoc,List.singleton_append]
    exact ⟨before',hl'',hhead',htail'.trans hshell.tail,hfresh'.trans hshell.fresh,
      hcursor'.trans hshell.cursor⟩

/-- The end of the sort: all entries are linked again, those taken in front. The tail is left as it was. -/
theorem Taking.finish (h : Taking content shadow taken rem tk) :
    Core { (shadow.putBack shadow.fresh taken).setPrevAt (shadow.putBack shadow.fresh taken).head none with changed := true }
        (tk.reverse ++ rem) ∧
      ((shadow.putBack shadow.fresh taken).setPrevAt (shadow.putBack shadow.fresh taken).head none).tail = rem.getLast? := by
  have hlen : tk.length ≤ shadow.fresh := by
    have hle := length_le_of_nodup_lt h.nodup h.bound
    rw [List.length_append] at hle
    omega
  obtain ⟨before,hlinked,hhead,htail,hfresh,hcursor⟩ := putBack_linked h.rep.linked h.rep.head h.nodup h.chain hlen
  rw [← h.first] at hlinked hhead htail hfresh hcursor
  set back := shadow.putBack shadow.fresh taken
  have hperm : (tk.reverse ++ rem).Perm (rem ++ tk) :=
    List.perm_append_comm.trans ((List.reverse_perm tk).append_left rem)
  have hn : (tk.reverse ++ rem).Nodup := hperm.nodup_iff.mpr h.nodup
  have hshell := setPrevAt_shell back back.head none
  have hlinked' : Linked (back.setPrevAt back.head none).nextOf (back.setPrevAt back.head none).prevOf none (tk.reverse ++ rem) none := by
    rw [hhead,nextOf_setPrevAt,prevOf_setPrevAt]
    exact hlinked.relinkPrev hn none
  refine ⟨⟨hshell.head.trans hhead,hlinked',hn,fun q hq => ?_,fun q hq => ?_⟩,hshell.tail.trans (htail.trans h.rep.tail)⟩
  · show q < (back.setPrevAt back.head none).fresh
    rw [hshell.fresh,hfresh]
    exact h.bound q (hperm.mem_iff.mp hq)
  · have hq : (back.setPrevAt back.head none).cursor = some q := hq
    rw [hshell.cursor,hcursor] at hq
    exact List.mem_append_right _ (h.rep.cursor q hq)

/-- Some entry keeps its place: it has no name, or its name is too frequent. -/
def someEntryStays {β : Type} (shadow : Db α) (passwdOps : Ops β) (passwd : Db β) : Prop :=
  (∃ p ∈ shadow.from shadow.head, (shadow.record p).name ops = none) ∨
    ∃ name, (passwd.names passwdOps).count name < (shadow.names ops).count name

private theorem count_names (h : Core shadow l) (name : Bytes) :
    (shadow.names ops).count name = l.countP (isNamed ops shadow.record name) := by
  rw [Db.names,h.from_head,List.count,List.countP_filterMap]
  refine List.countP_congr fun p _ => ?_
  have hname : (shadow.entries p).eptr.map ops.getname = (shadow.record p).name ops := rfl
  rw [hname,isNamed]
  cases (shadow.record p).name ops <;> simp

/-- Where some entry keeps its place, the tail is that of the entries that stay. -/
theorem Rep.commonioSortWrt {β : Type} (h : Rep shadow l false) (passwdOps : Ops β) (passwd : Db β)
    (hstay : shadow.head = none ∨ someEntryStays ops shadow passwdOps passwd) :
    ∃ l', Rep (commonioSortWrt ops shadow passwdOps passwd) l' false := by
  unfold Commonio.commonioSortWrt
  by_cases hhead : shadow.head = none
  · rw [if_pos hhead]
    exact ⟨l,h⟩
  · rw [if_neg hhead]
    have htaking : Taking shadow.record shadow none l [] :=
      ⟨h,by simpa using h.nodup,by simpa using h.bound,rfl,trivial,rfl⟩
    obtain ⟨rem,tk,hrun,hkeep,hcount⟩ := htaking.run ops (passwd.names passwdOps)
    have hrem : rem ≠ [] := by
      rintro rfl
      rcases hstay.resolve_left hhead with ⟨p,hp,hnone⟩ | ⟨name,hlt⟩
      · rw [h.from_head] at hp
        cases hkeep p hp hnone
      · have hle := hcount name
        rw [count_names ops h.toCore] at hlt
        rw [List.countP_nil] at hle
        omega
    obtain ⟨hcore,htail⟩ := hrun.finish
    refine ⟨tk.reverse ++ rem,hcore,htail.trans ?_⟩
    rw [List.getLast?_append_of_ne_nil _ hrem]

end SortWrt

end UserDb.Commonio
