import UserDb.Commonio.Invariant

/-! The open hook: later parts of a split entry go into its first part and leave the list. -/
namespace UserDb.Commonio
open UserDb.Base UserDb.Base.LinkedList

variable {α : Type} (split : SplitEntries α)

/-- Whether two records are parts of one entry. -/
def samePart (r₁ r₂ : Record α) : Bool :=
  match r₁.eptr, r₂.eptr with
  | some g₁, some g₂ => split.same g₁ g₂
  | _, _ => false

/-- The first record with the second taken into it, where both are parts of one entry. -/
def absorbRecord (r₁ r₂ : Record α) : Record α :=
  match r₁.eptr, r₂.eptr with
  | some g₁, some g₂ =>
    if split.same g₁ g₂ then
      ⟨some (r₁.line.getD [] ++ [newline] ++ r₂.line.getD []),some (split.merge g₁ g₂),r₁.changed⟩
    else r₁
  | _, _ => r₁

/-- The merged records, each in the place of its first part. -/
def mergeRecords : List (Record α) → List (Record α)
  | [] => []
  | r :: rs => rs.foldl (absorbRecord split) r :: mergeRecords (rs.filter fun r' => !samePart split r r')
  termination_by rs => rs.length
  decreasing_by
    simp only [List.unattach_filter,List.unattach_attach]
    exact Nat.lt_succ_of_le (List.length_filter_le _ _)

/-- The entries that stay in the list: those that are not a part of an earlier one. -/
def firstParts (content : Nat → Record α) (l : List Nat) : List Nat :=
  l.eraseDupsBy fun later earlier => samePart split (content earlier) (content later)

section Parts
variable {split} {r₁ r₂ r₃ : Record α}

theorem samePart_iff : samePart split r₁ r₂ = true ↔
    ∃ g₁ g₂, r₁.eptr = some g₁ ∧ r₂.eptr = some g₂ ∧ split.same g₁ g₂ = true := by
  unfold samePart
  cases r₁.eptr <;> cases r₂.eptr <;> simp

theorem samePart_symm (h : samePart split r₁ r₂ = true) : samePart split r₂ r₁ = true := by
  obtain ⟨g₁,g₂,h₁,h₂,hs⟩ := samePart_iff.mp h
  exact samePart_iff.mpr ⟨g₂,g₁,h₂,h₁,split.symm hs⟩

theorem samePart_trans (h : samePart split r₁ r₂ = true) (h' : samePart split r₂ r₃ = true) :
    samePart split r₁ r₃ = true := by
  obtain ⟨g₁,g₂,h₁,h₂,hs⟩ := samePart_iff.mp h
  obtain ⟨g,g₃,h₂',h₃,hs'⟩ := samePart_iff.mp h'
  obtain rfl : g₂ = g := Option.some.inj (h₂.symm.trans h₂')
  exact samePart_iff.mpr ⟨g₁,g₃,h₁,h₃,split.trans hs hs'⟩

theorem absorbRecord_of_same {g₁ g₂ : α} (h₁ : r₁.eptr = some g₁) (h₂ : r₂.eptr = some g₂)
    (hs : split.same g₁ g₂ = true) :
    absorbRecord split r₁ r₂ =
      ⟨some (r₁.line.getD [] ++ [newline] ++ r₂.line.getD []),some (split.merge g₁ g₂),r₁.changed⟩ := by
  simp only [absorbRecord,h₁,h₂]
  exact if_pos hs

theorem absorbRecord_of_not (h : samePart split r₁ r₂ = false) : absorbRecord split r₁ r₂ = r₁ := by
  unfold samePart at h
  unfold absorbRecord
  cases h₁ : r₁.eptr <;> cases h₂ : r₂.eptr <;> simp only [h₁,h₂] at h ⊢
  exact if_neg (by simp [h])

theorem samePart_absorbRecord : samePart split (absorbRecord split r₁ r₂) r₃ = samePart split r₁ r₃ := by
  cases hs : samePart split r₁ r₂ with
  | false => rw [absorbRecord_of_not hs]
  | true =>
    obtain ⟨g₁,g₂,h₁,h₂,hs⟩ := samePart_iff.mp hs
    rw [absorbRecord_of_same h₁ h₂ hs]
    cases h₃ : r₃.eptr <;> simp [samePart,h₁,h₃,split.merge_same]

theorem firstParts_cons (content : Nat → Record α) (p : Nat) (l : List Nat) :
    firstParts split content (p :: l) =
      p :: firstParts split content (l.filter fun q => !samePart split (content p) (content q)) := by
  rw [firstParts,List.eraseDupsBy_cons,firstParts]
  congr 3
  funext q
  cases samePart split (content p) (content q) <;> rfl

theorem firstParts_sublist (content : Nat → Record α) (l : List Nat) :
    (firstParts split content l).Sublist l := by
  induction hn : l.length using Nat.strong_induction_on generalizing l with
  | _ n ih =>
    cases l with
    | nil => exact List.Sublist.slnil
    | cons p l =>
      rw [firstParts_cons]
      refine List.Sublist.cons_cons p ((ih _ ?_ _ rfl).trans List.filter_sublist)
      rw [← hn]
      exact Nat.lt_succ_of_le (List.length_filter_le _ _)

/-- The last entry stays in the list where no earlier one is a part of the same entry. -/
theorem last_mem_firstParts (content : Nat → Record α) {init : List Nat} {t : Nat} (ht : t ∉ init) :
    t ∈ firstParts split content (init ++ [t]) ↔
      ∀ p ∈ init, samePart split (content p) (content t) = false := by
  induction hn : init.length using Nat.strong_induction_on generalizing init with
  | _ n ih =>
    cases init with
    | nil => simp [firstParts_cons]
    | cons p init =>
      obtain ⟨htp,ht⟩ := not_or.mp (List.mem_cons.not.mp ht)
      rw [List.cons_append,firstParts_cons,List.mem_cons,List.filter_append]
      cases hs : samePart split (content p) (content t) with
      | true =>
        have hout : t ∉ firstParts split content
            (init.filter fun q => !samePart split (content p) (content q)) := fun hm =>
          ht (List.mem_filter.mp ((firstParts_sublist content _).subset hm)).1
        simp [hs,htp,hout]
      | false =>
        have hkeep : [t].filter (fun q => !samePart split (content p) (content q)) = [t] := by simp [hs]
        have hlt : (init.filter fun q => !samePart split (content p) (content q)).length < n := by
          rw [← hn]
          exact Nat.lt_succ_of_le (List.length_filter_le _ _)
        rw [hkeep,ih _ hlt (fun hm => ht (List.mem_filter.mp hm).1) rfl]
        constructor
        · rintro (h | h)
          · exact absurd h htp
          · intro q hq
            rcases List.mem_cons.mp hq with rfl | hq
            · exact hs
            · cases hpq : samePart split (content p) (content q) with
              | false => exact h q (List.mem_filter.mpr ⟨hq,by simp [hpq]⟩)
              | true =>
                -- a part of the same entry as `p` cannot share it with `t`
                refine Bool.eq_false_iff.mpr fun hqt => ?_
                rw [samePart_trans hpq hqt] at hs
                cases hs
        · intro h
          exact .inr fun q hq => h q (List.mem_cons_of_mem p (List.mem_filter.mp hq).1)

end Parts

section Hook
variable {split} {db : Db α} {pre xs ys l : List Nat} {gr1 gr2 : Nat}

private theorem absorb_of_not (h : samePart split (db.record gr1) (db.record gr2) = false) :
    db.absorb split gr1 gr2 = db := by
  have hnot : ∀ g₁ g₂, (db.entries gr1).eptr = some g₁ → (db.entries gr2).eptr = some g₂ →
      split.same g₁ g₂ = false := by
    intro g₁ g₂ h₁ h₂
    refine Bool.eq_false_iff.mpr fun hs => ?_
    rw [samePart_iff.mpr ⟨g₁,g₂,h₁,h₂,hs⟩] at h
    cases h
  unfold Db.absorb
  cases h₁ : (db.entries gr1).eptr <;> cases h₂ : (db.entries gr2).eptr <;> try rfl
  exact if_neg (by simp [hnot _ _ h₁ h₂])

/-- The merge stores a record, and the two links around the second entry then leave it out. -/
theorem absorb_of_samePart (h : samePart split (db.record gr1) (db.record gr2) = true) :
    ∃ e : Entry α, e.record = absorbRecord split (db.record gr1) (db.record gr2) ∧
      e.next = db.nextOf gr1 ∧ e.prev = db.prevOf gr1 ∧
      db.absorb split gr1 gr2 =
        let db := db.store gr1 e
        let db := db.setPrevAt (db.nextOf gr2) (db.prevOf gr2)
        db.setNextAt (db.prevOf gr2) (db.nextOf gr2) := by
  obtain ⟨g₁,g₂,h₁,h₂,hs⟩ := samePart_iff.mp h
  rw [absorbRecord_of_same h₁ h₂ hs]
  refine ⟨{ db.entries gr1 with
    line := some ((db.entries gr1).line.getD [] ++ [newline] ++ (db.entries gr2).line.getD [])
    eptr := some (split.merge g₁ g₂) },rfl,rfl,rfl,?_⟩
  have h₁ : (db.entries gr1).eptr = some g₁ := h₁
  have h₂ : (db.entries gr2).eptr = some g₂ := h₂
  simp only [Db.absorb,h₁,h₂]
  exact if_pos hs

/-- One comparison of the hook: the second entry stays or leaves. -/
theorem Core.absorb (split : SplitEntries α) (h : Core db (xs ++ gr2 :: ys)) (hcur : db.cursor = none) (h1 : gr1 ∈ xs) :
    Core (db.absorb split gr1 gr2)
        (if samePart split (db.record gr1) (db.record gr2) then xs ++ ys else xs ++ gr2 :: ys) ∧
      (db.absorb split gr1 gr2).nextOf gr2 = ys.head? ∧
      (db.absorb split gr1 gr2).record =
        Function.update db.record gr1 (absorbRecord split (db.record gr1) (db.record gr2)) ∧
      db.SameFrame (db.absorb split gr1 gr2) := by
  have hnext : db.nextOf gr2 = ys.head? := by rw [h.linked.next_eq,Option.or_none]
  have hprev : db.prevOf gr2 = xs.getLast? := by rw [h.linked.prev_eq,Option.or_none]
  cases hs : samePart split (db.record gr1) (db.record gr2) with
  | false =>
    rw [absorb_of_not hs,absorbRecord_of_not hs,if_neg Bool.false_ne_true,Function.update_eq_self]
    exact ⟨h,hnext,rfl,⟨rfl,rfl,rfl,rfl,rfl,rfl,rfl,rfl⟩⟩
  | true =>
    obtain ⟨e,hrec,hen,hep,heq⟩ := absorb_of_samePart hs
    obtain ⟨hxs,hys⟩ : gr2 ∉ xs ∧ gr2 ∉ ys := by
      have hn := (List.nodup_cons.mp (List.nodup_middle.mp h.nodup)).1
      exact ⟨fun hm => hn (List.mem_append_left ys hm),fun hm => hn (List.mem_append_right xs hm)⟩
    have hp2 : ((db.store gr1 e).setPrevAt ys.head? xs.getLast?).prevOf gr2 = xs.getLast? := by
      rw [prevOf_setPrevAt,relinkPrev_of_notMem hys,prevOf_store hep,hprev]
    simp only [nextOf_setPrevAt,nextOf_store hen,prevOf_store hep,hnext,hprev,hp2] at heq
    have hs1 := setPrevAt_shell (db.store gr1 e) ys.head? xs.getLast?
    have hs2 := setNextAt_shell ((db.store gr1 e).setPrevAt ys.head? xs.getLast?) xs.getLast? ys.head?
    have hframe : db.SameFrame (db.absorb split gr1 gr2) := by
      rw [heq]
      have h0 : db.SameFrame (db.store gr1 e) := ⟨rfl,rfl,rfl,rfl,rfl,rfl,rfl,rfl⟩
      exact (h0.trans hs1.toSameFrame).trans hs2.toSameFrame
    have hn : (db.absorb split gr1 gr2).nextOf = relinkNext db.nextOf xs (db.nextOf gr2) := by
      rw [heq,nextOf_setNextAt,nextOf_setPrevAt,nextOf_store hen,hnext]
    have hp : (db.absorb split gr1 gr2).prevOf = relinkPrev db.prevOf ys (db.prevOf gr2) := by
      rw [heq,prevOf_setNextAt,prevOf_setPrevAt,prevOf_store hep,hprev]
    rw [if_pos rfl]
    refine ⟨⟨?_,?_,?_,?_,?_⟩,?_,?_,hframe⟩
    · rw [hframe.head,h.head]
      cases xs with
      | nil => cases h1
      | cons x xs => rfl
    · rw [hn,hp]
      exact h.linked.remove h.nodup
    · exact h.nodup.sublist ((List.sublist_cons_self gr2 ys).append_left xs)
    · intro x hx
      rw [hframe.fresh]
      exact h.bound x (List.perm_middle.mem_iff.mpr (List.mem_cons_of_mem gr2 hx))
    · intro x hx
      rw [hframe.cursor,hcur] at hx
      cases hx
    · rw [hn,relinkNext_of_notMem hxs,hnext]
    · rw [heq,hs2.record,hs1.record,record_store,hrec]

/-- The inner loop: of what follows `gr1`, the parts of the same entry go into it. -/
theorem Core.absorbFrom (split : SplitEntries α) (h : Core db (xs ++ ys)) (hcur : db.cursor = none) (h1 : gr1 ∈ xs) {fuel : Nat}
    (hfuel : ys.length ≤ fuel) :
    Core (db.absorbFrom split gr1 fuel ys.head?)
        (xs ++ ys.filter fun q => !samePart split (db.record gr1) (db.record q)) ∧
      (db.absorbFrom split gr1 fuel ys.head?).record =
        Function.update db.record gr1 ((ys.map db.record).foldl (absorbRecord split) (db.record gr1)) ∧
      db.SameFrame (db.absorbFrom split gr1 fuel ys.head?) := by
  induction ys generalizing db xs fuel with
  | nil =>
    have heq : db.absorbFrom split gr1 fuel none = db := by cases fuel <;> rfl
    rw [List.head?_nil,heq,List.map_nil,List.foldl_nil,Function.update_eq_self]
    exact ⟨h,rfl,⟨rfl,rfl,rfl,rfl,rfl,rfl,rfl,rfl⟩⟩
  | cons gr2 ys ih =>
    obtain ⟨fuel,rfl⟩ : ∃ n, fuel = n + 1 := ⟨fuel-1,by simp only [List.length_cons] at hfuel; omega⟩
    obtain ⟨hcore,hnext,hrec,hframe⟩ := h.absorb split hcur h1
    have hsep : ∀ q ∈ gr2 :: ys, q ≠ gr1 := fun q hq =>
      (ne_of_mem_of_not_mem h1 fun hm => List.disjoint_of_nodup_append h.nodup hm hq).symm
    have hcur' := hframe.cursor.trans hcur
    have hg1 : (db.absorb split gr1 gr2).record gr1 = absorbRecord split (db.record gr1) (db.record gr2) := by
      rw [hrec,Function.update_self]
    have hq : ∀ q ∈ ys, (db.absorb split gr1 gr2).record q = db.record q := fun q hq => by
      rw [hrec,Function.update_of_ne (hsep q (List.mem_cons_of_mem gr2 hq))]
    have hmap : ys.map (db.absorb split gr1 gr2).record = ys.map db.record := List.map_congr_left hq
    have hfilter : (ys.filter fun q => !samePart split ((db.absorb split gr1 gr2).record gr1)
        ((db.absorb split gr1 gr2).record q)) =
        ys.filter fun q => !samePart split (db.record gr1) (db.record q) :=
      List.filter_congr fun q hm => by rw [hg1,hq q hm,samePart_absorbRecord]
    have hstep : db.absorbFrom split gr1 (fuel+1) (gr2 :: ys).head? =
        (db.absorb split gr1 gr2).absorbFrom split gr1 fuel ys.head? := by
      rw [List.head?_cons,Db.absorbFrom,hnext]
    have hlen : ys.length ≤ fuel := by simpa using hfuel
    rw [hstep,List.map_cons,List.foldl_cons,← hmap,← hg1,List.filter_cons]
    cases hs : samePart split (db.record gr1) (db.record gr2) with
    | true =>
      rw [hs,if_pos rfl] at hcore
      obtain ⟨hcore',hrec',hframe'⟩ := ih hcore hcur' h1 hlen
      rw [hfilter] at hcore'
      refine ⟨hcore',?_,hframe.trans hframe'⟩
      rw [hrec',hrec,Function.update_idem]
    | false =>
      rw [hs,if_neg Bool.false_ne_true,List.append_cons] at hcore
      obtain ⟨hcore',hrec',hframe'⟩ := ih hcore hcur' (List.mem_append_left _ h1) hlen
      rw [hfilter,← List.append_cons] at hcore'
      refine ⟨hcore',?_,hframe.trans hframe'⟩
      rw [hrec',hrec,Function.update_idem]

/-- The outer loop, for the content that the entries had before it. -/
theorem Core.mergeFrom (split : SplitEntries α) (content : Nat → Record α) (h : Core db (xs ++ ys)) (hcur : db.cursor = none)
    (hc : ∀ q ∈ ys, db.record q = content q) {fuel : Nat} (hfuel : ys.length ≤ fuel) :
    Core (db.mergeFrom split fuel ys.head?) (xs ++ firstParts split content ys) ∧
      (firstParts split content ys).map (db.mergeFrom split fuel ys.head?).record =
        mergeRecords split (ys.map content) ∧
      (∀ q ∉ ys, (db.mergeFrom split fuel ys.head?).record q = db.record q) ∧
      db.SameFrame (db.mergeFrom split fuel ys.head?) := by
  induction fuel generalizing db xs ys with
  | zero =>
    obtain rfl : ys = [] := List.length_eq_zero_iff.mp (Nat.le_zero.mp hfuel)
    exact ⟨h,by simp [firstParts,mergeRecords],fun _ _ => rfl,⟨rfl,rfl,rfl,rfl,rfl,rfl,rfl,rfl⟩⟩
  | succ fuel ih =>
    cases ys with
    | nil => exact ⟨h,by simp [firstParts,mergeRecords],fun _ _ => rfl,⟨rfl,rfl,rfl,rfl,rfl,rfl,rfl,rfl⟩⟩
    | cons gr1 ys =>
      have hnext : db.nextOf gr1 = ys.head? := by rw [h.linked.next_eq,Option.or_none]
      have hg1 : gr1 ∉ ys := (List.nodup_cons.mp (List.nodup_append.mp h.nodup).2.1).1
      have hsplit : Core db ((xs ++ [gr1]) ++ ys) := by simpa using h
      have hlen : ys.length ≤ db.fresh := by
        have := h.length_le
        simp only [List.length_append,List.length_cons] at this
        omega
      obtain ⟨hcore,hrec,hframe⟩ :=
        hsplit.absorbFrom split hcur (List.mem_append_right xs List.mem_cons_self) hlen
      set db' := db.absorbFrom split gr1 db.fresh ys.head? with hdb'
      set rest := ys.filter fun q => !samePart split (content gr1) (content q) with hrest
      have hfilter : (ys.filter fun q => !samePart split (db.record gr1) (db.record q)) = rest :=
        List.filter_congr fun q hm => by rw [hc gr1 List.mem_cons_self,hc q (List.mem_cons_of_mem gr1 hm)]
      rw [hfilter] at hcore
      have hsub : rest ⊆ ys := List.filter_sublist.subset
      have hkeep : ∀ q ≠ gr1, db'.record q = db.record q := fun q hq => by
        rw [hrec,Function.update_of_ne hq]
      have hcontent : ∀ q ∈ rest, db'.record q = content q := fun q hq =>
        (hkeep q (ne_of_mem_of_not_mem (hsub hq) hg1)).trans (hc q (List.mem_cons_of_mem gr1 (hsub hq)))
      have hnext' : db'.nextOf gr1 = rest.head? := by
        have hcore' : Core db' (xs ++ gr1 :: rest) := by simpa using hcore
        rw [hcore'.linked.next_eq,Option.or_none]
      have hstep : db.mergeFrom split (fuel+1) (gr1 :: ys).head? = db'.mergeFrom split fuel rest.head? := by
        rw [List.head?_cons,Db.mergeFrom,hnext,← hdb',hnext']
      obtain ⟨hcore',hmap,hout,hframe'⟩ := ih hcore (hframe.cursor.trans hcur) hcontent
        ((List.length_filter_le _ _).trans (by simpa using hfuel))
      rw [hstep,firstParts_cons,← hrest]
      refine ⟨by simpa using hcore',?_,fun q hq => ?_,hframe.trans hframe'⟩
      · have hmapc : ys.map db.record = ys.map content :=
          List.map_congr_left fun q hq => hc q (List.mem_cons_of_mem gr1 hq)
        rw [List.map_cons,hmap,hout gr1 (fun hm => hg1 (hsub hm)),hrec,Function.update_self,hmapc,
          hc gr1 List.mem_cons_self,List.map_cons,mergeRecords,hrest,List.filter_map]
        rfl
      · obtain ⟨hq1,hq⟩ := not_or.mp (List.mem_cons.not.mp hq)
        rw [hout q (fun hm => hq (hsub hm)),hkeep q hq1]

end Hook

section Opening
variable (ops : Ops α) {db : Db α} {l : List Nat}

def lineRecord (line : Bytes) : Record α := (lineEntry ops line).record

def Ops.merged (records : List (Record α)) : List (Record α) :=
  match ops.openHook with
  | some split => mergeRecords split records
  | none => records

/-- The last line of a file is merged into an earlier one, so that the tail stays behind. -/
def lastAbsorbed (lines : List Bytes) : Bool :=
  match ops.openHook, lines.getLast? with
  | some split, some last =>
    lines.dropLast.any fun line => samePart split (lineRecord ops line) (lineRecord ops last)
  | _, _ => false

/-- One line read from the file. -/
theorem Rep.addLine (h : Rep db l false) (line : Bytes) :
    Rep (db.addLine ops line) (l ++ [db.fresh]) false ∧
      (l ++ [db.fresh]).map (db.addLine ops line).record = l.map db.record ++ [lineRecord ops line] ∧
      (db.addLine ops line).cursor = db.cursor := by
  obtain ⟨hrep,hunused⟩ := h.allocate (lineEntry ops line)
  have hadd := hrep.addOneEntry hunused
  rw [if_neg Bool.false_ne_true] at hadd
  refine ⟨hadd,?_,?_⟩
  · have hrec : (db.addLine ops line).record =
        Function.update db.record db.fresh (lineRecord ops line) := by
      rw [Db.addLine,record_addOneEntry,record_allocate]
      rfl
    have hkeep : l.map (db.addLine ops line).record = l.map db.record :=
      List.map_congr_left fun p hp => by
        rw [hrec,Function.update_of_ne (ne_of_mem_of_not_mem hp hunused.notMem)]
    rw [List.map_append,hkeep,List.map_singleton,hrec,Function.update_self]
  · rw [Db.addLine,addOneEntry_eq]
    exact (setNextAt_shell _ _ _).cursor

/-- The lines read from the file, in order. -/
theorem Rep.addLines (h : Rep db l false) (lines : List Bytes) :
    ∃ l', Rep (lines.foldl (Db.addLine ops) db) l' false ∧
      l'.map (lines.foldl (Db.addLine ops) db).record = l.map db.record ++ lines.map (lineRecord ops) ∧
      (lines.foldl (Db.addLine ops) db).cursor = db.cursor := by
  induction lines generalizing db l with
  | nil => exact ⟨l,h,by simp,rfl⟩
  | cons line lines ih =>
    obtain ⟨hrep,hmap,hcur⟩ := h.addLine ops line
    obtain ⟨l',hrep',hmap',hcur'⟩ := ih hrep
    refine ⟨l',hrep',?_,hcur'.trans hcur⟩
    rw [List.foldl_cons,hmap',hmap,List.map_cons,List.append_assoc]
    rfl

/-- The node that stays last in a sublist. -/
theorem getLast?_of_sublist {l l' : List Nat} {t : Nat} (hsub : l'.Sublist l) (hn : l.Nodup)
    (ht : l.getLast? = some t) (hm : t ∈ l') : l'.getLast? = some t := by
  obtain ⟨init,rfl⟩ := List.getLast?_eq_some_iff.mp ht
  obtain ⟨init',last',rfl,hinit,hlast⟩ := List.sublist_append_iff.mp hsub
  have hnot : t ∉ init' := fun h => List.disjoint_of_nodup_append hn (hinit.subset h) List.mem_cons_self
  have hlast' : last' = [t] := by
    rcases List.sublist_singleton.mp hlast with rfl | rfl
    · rw [List.append_nil] at hm
      exact absurd hm hnot
    · rfl
  rw [hlast']
  simp

/-- The test on the lines is the test on the entries read from them. -/
theorem lastAbsorbed_eq {split : SplitEntries α} (hook : ops.openHook = some split) {init : List Nat} {t : Nat}
    {lines : List Bytes} (hlines : (init ++ [t]).map db.record = lines.map (lineRecord ops)) :
    lastAbsorbed ops lines = init.any fun p => samePart split (db.record p) (db.record t) := by
  rcases List.eq_nil_or_concat lines with rfl | ⟨initLines,last,rfl⟩
  · simp at hlines
  · rw [List.concat_eq_append] at *
    rw [List.map_append,List.map_append] at hlines
    obtain ⟨hinit,hlast⟩ := List.append_inj' hlines rfl
    have hlast : db.record t = lineRecord ops last := by simpa using hlast
    have hany : (init.map db.record).any (fun r => samePart split r (db.record t)) =
        (initLines.map (lineRecord ops)).any fun r => samePart split r (db.record t) := by rw [hinit]
    rw [List.any_map,List.any_map] at hany
    simp only [lastAbsorbed,hook,List.getLast?_concat,List.dropLast_concat,← hlast]
    exact hany.symm

/-- What the open hook leaves: the tail has gone stale where the last entry was taken. -/
theorem Rep.runOpenHook (h : Rep db l false) (hcur : db.cursor = none) {lines : List Bytes}
    (hlines : l.map db.record = lines.map (lineRecord ops)) :
    ∃ l', Rep (db.runOpenHook ops) l' (lastAbsorbed ops lines) ∧
      l'.map (db.runOpenHook ops).record = ops.merged (lines.map (lineRecord ops)) := by
  cases hook : ops.openHook with
  | none =>
    have hrun : db.runOpenHook ops = db := by rw [Db.runOpenHook,hook]
    have hstale : lastAbsorbed ops lines = false := by rw [lastAbsorbed,hook]
    have hmerged : ops.merged (lines.map (lineRecord ops)) = lines.map (lineRecord ops) := by
      rw [Ops.merged,hook]
    rw [hrun,hstale,hmerged]
    exact ⟨l,h,hlines⟩
  | some split =>
    have hrun : db.runOpenHook ops = db.mergeFrom split db.fresh l.head? := by
      rw [Db.runOpenHook,hook,h.head]
    have hmerged : ops.merged (lines.map (lineRecord ops)) = mergeRecords split (lines.map (lineRecord ops)) := by
      rw [Ops.merged,hook]
    have hcore : Core db ([] ++ l) := h.toCore
    obtain ⟨hcore',hmap,_,hframe⟩ :=
      hcore.mergeFrom split db.record hcur (fun _ _ => rfl) h.length_le
    rw [List.nil_append] at hcore'
    rw [hrun,hmerged,← hlines]
    refine ⟨firstParts split db.record l,⟨hcore',?_⟩,hmap⟩
    have htail : db.tail = l.getLast? := h.tail
    have htail' := hframe.tail.trans htail
    rcases List.eq_nil_or_concat l with rfl | ⟨init,t,rfl⟩
    · obtain rfl : lines = [] := by simpa using hlines.symm
      have hstale : lastAbsorbed ops ([] : List Bytes) = false := by simp [lastAbsorbed,hook]
      rw [hstale]
      exact htail'
    · rw [List.concat_eq_append] at *
      have ht : t ∉ init := fun hm => List.disjoint_of_nodup_append h.nodup hm List.mem_cons_self
      rw [lastAbsorbed_eq ops hook hlines]
      cases hany : init.any fun p => samePart split (db.record p) (db.record t) with
      | false =>
        have hm : t ∈ firstParts split db.record (init ++ [t]) :=
          (last_mem_firstParts db.record ht).mpr fun p hp => by
            simpa using List.any_eq_false.mp hany p hp
        refine htail'.trans ?_
        rw [List.getLast?_concat]
        exact (getLast?_of_sublist (firstParts_sublist _ _) h.nodup List.getLast?_concat hm).symm
      | true =>
        obtain ⟨p,hp,hsame⟩ := List.any_eq_true.mp hany
        refine ⟨?_,t,htail'.trans List.getLast?_concat,fun hm => ?_,?_⟩
        · cases init with
          | nil => cases hp
          | cons q init =>
            rw [List.cons_append,firstParts_cons]
            exact List.cons_ne_nil _ _
        · rw [(last_mem_firstParts db.record ht).mp hm p hp] at hsame
          cases hsame
        · rw [hframe.fresh]
          exact h.bound t (List.mem_append_right init List.mem_cons_self)

/-- An opening that leaves what was there, or an empty list. -/
def Untouched (db db' : Db α) : Prop :=
  db' = db ∨ (∃ readonly, db' = { db with readonly := readonly }) ∨
    db'.head = none ∧ db'.tail = none ∧ db'.cursor = none

theorem Rep.of_empty (hhead : db.head = none) (htail : db.tail = none) (hcursor : db.cursor = none) :
    Rep db [] false :=
  ⟨⟨hhead,trivial,List.nodup_nil,nofun,fun p hp => by rw [hcursor] at hp; cases hp⟩,htail⟩

theorem Rep.untouched (h : Rep db l false) {db' : Db α} (h' : Untouched db db') :
    ∃ l', Rep db' l' false := by
  rcases h' with rfl | ⟨readonly,rfl⟩ | ⟨hhead,htail,hcursor⟩
  · exact ⟨l,h⟩
  · exact ⟨l,h.withFlags db.changed db.isopen readonly db.locked⟩
  · exact ⟨[],Rep.of_empty hhead htail hcursor⟩

/-- Whether an opening is refused before the file is looked at. -/
def refusesOpen (db : Db α) (access : AccessMode) : Bool :=
  db.isopen || access == .other || (access != .rdonly && !db.locked)

theorem refusesOpen_eq_false {db : Db α} {access : AccessMode} (h : refusesOpen db access = false) :
    (db.isopen || access == .other) = false ∧ (!(access == .rdonly) && !db.locked) = false := by
  simp only [refusesOpen,Bool.or_eq_false_iff] at h
  refine ⟨by simp [h.1],?_⟩
  cases access <;> simp_all

/-- A file of lines is read, its records merged, and the database is open. -/
theorem commonioOpen_reads {db : Db α} {access : AccessMode} (hguard : refusesOpen db access = false)
    (create : Bool) {bytes : Bytes} {lines : List Bytes} (hlines : fileLines bytes = some lines) :
    ∃ l' db', commonioOpen ops db access create (.contents bytes false) true = (true,db') ∧
      Rep db' l' (lastAbsorbed ops lines) ∧ l'.map db'.record = ops.merged (lines.map (lineRecord ops)) ∧
      db'.isopen = true := by
  obtain ⟨hopen,hlocked⟩ := refusesOpen_eq_false hguard
  set start : Db α := { db with
    readonly := access == .rdonly
    head := none
    tail := none
    cursor := none
    changed := false }
  have hstart : Rep start [] false := Rep.of_empty rfl rfl rfl
  obtain ⟨l,hrep,hmap,hcur⟩ := hstart.addLines ops lines
  obtain ⟨l',hrep',hmap'⟩ := hrep.runOpenHook ops hcur (by simpa using hmap)
  set read := (lines.foldl (Db.addLine ops) start).runOpenHook ops
  refine ⟨l',{ read with isopen := true },?_,hrep'.withFlags read.changed true read.readonly read.locked,hmap',rfl⟩
  unfold commonioOpen
  simp only [hopen,hlocked,hlines,Bool.false_eq_true,if_false,Bool.not_true,Bool.or_self]
  rfl

/-- Opening either reads the lines of the file or touches nothing. -/
theorem commonioOpen_cases (db : Db α) (access : AccessMode) (create : Bool) (file : FileState) (memory : Bool) :
    Untouched db (commonioOpen ops db access create file memory).2 ∨
    ∃ bytes lines l', file = .contents bytes false ∧ memory = true ∧ refusesOpen db access = false ∧
      fileLines bytes = some lines ∧ (commonioOpen ops db access create file memory).1 = true ∧
      Rep (commonioOpen ops db access create file memory).2 l' (lastAbsorbed ops lines) ∧
      l'.map (commonioOpen ops db access create file memory).2.record =
        ops.merged (lines.map (lineRecord ops)) := by
  by_cases hopen : (db.isopen || access == .other) = true
  · refine .inl (.inl ?_)
    rw [commonioOpen,if_pos hopen]
  · by_cases hlocked : (!(access == .rdonly) && !db.locked) = true
    · refine .inl (.inr (.inl ⟨access == .rdonly,?_⟩))
      unfold commonioOpen
      simp only [hopen,hlocked,Bool.false_eq_true,if_false,if_true]
    · by_cases hreads : ∃ bytes lines, file = .contents bytes false ∧ memory = true ∧ fileLines bytes = some lines
      · obtain ⟨bytes,lines,rfl,rfl,hlines⟩ := hreads
        have hguard : refusesOpen db access = false := by
          cases access <;> simp_all [refusesOpen]
        obtain ⟨l',db',hrun,hrep,hmap,_⟩ := commonioOpen_reads ops hguard create hlines
        rw [hrun]
        exact .inr ⟨bytes,lines,l',rfl,rfl,hguard,hlines,rfl,hrep,hmap⟩
      · -- every other way ends with an empty list
        refine .inl (.inr (.inr ?_))
        unfold commonioOpen
        simp only [hopen,hlocked,Bool.false_eq_true,if_false]
        cases file with
        | missing => cases create <;> exact ⟨rfl,rfl,rfl⟩
        | unavailable => exact ⟨rfl,rfl,rfl⟩
        | contents bytes readError =>
          cases hlines : fileLines bytes with
          | none => simp only [hlines]; exact ⟨rfl,rfl,rfl⟩
          | some lines =>
            simp only [hlines]
            by_cases hfail : (!memory || readError) = true
            · simp only [hfail,if_true]
              exact ⟨rfl,rfl,rfl⟩
            · simp only [Bool.or_eq_true,Bool.not_eq_true',not_or,Bool.not_eq_false,Bool.not_eq_true] at hfail
              obtain ⟨rfl,rfl⟩ := hfail
              exact absurd ⟨bytes,lines,rfl,rfl,hlines⟩ hreads

end Opening

end UserDb.Commonio
