import UserDb.Subid.Written

/-! How many ranges hold an id, and what a removal does to that number: also one that stops in the
middle of the list, for want of memory. -/
namespace UserDb.Subid
open UserDb.Base UserDb.Base.LinkedList UserDb.Commonio

def SubordinateRange.holds (id : Nat) (r : SubordinateRange) : Bool :=
  decide (r.start.toNat ≤ id) && decide (id < r.start.toNat + r.count.toNat)

/-- The number of ranges with an id. -/
def holders (id : Nat) (rs : List SubordinateRange) : Nat := rs.countP (SubordinateRange.holds id)

/-- No id is in two of the ranges. -/
def Apart (rs : List SubordinateRange) : Prop := rs.Pairwise fun r r' => Disjoint r.ids r'.ids

variable {accounts : Accounts} {owner : Bytes} {start stop : UInt64} {db db' : Db SubordinateRange} {l xs ys ts : List Nat}
  {r : SubordinateRange} {rs rs' : List SubordinateRange} {id : Nat}
  {record : Record SubordinateRange} {records done rest : List (Record SubordinateRange)}

theorem holds_iff : r.holds id = true ↔ id ∈ r.ids := by
  rw [SubordinateRange.holds,Bool.and_eq_true,decide_eq_true_eq,decide_eq_true_eq]
  rfl

theorem apart_iff_holders : Apart rs ↔ ∀ id, holders id rs ≤ 1 := by
  unfold Apart holders
  induction rs with
  | nil => simp
  | cons r rs ih =>
    rw [List.pairwise_cons,ih]
    constructor
    · rintro ⟨hr,hrs⟩ id
      rw [List.countP_cons]
      split
      · rename_i hid
        have hnone : rs.countP (SubordinateRange.holds id) = 0 := by
          apply List.countP_eq_zero.mpr
          intro r' hr' hid'
          exact Set.disjoint_left.mp (hr r' hr') (holds_iff.mp hid) (holds_iff.mp hid')
        omega
      · exact hrs id
    · intro h
      constructor
      · intro r' hr'
        apply Set.disjoint_left.mpr
        intro id hid hid'
        have hcount := h id
        rw [List.countP_cons,if_pos (holds_iff.mpr hid)] at hcount
        have hpos := List.countP_pos_iff.mpr ⟨r',hr',holds_iff.mpr hid'⟩
        omega
      · intro id
        have hcount := h id
        rw [List.countP_cons] at hcount
        omega

theorem holders_append (id : Nat) (rs rs' : List SubordinateRange) : holders id (rs ++ rs') = holders id rs + holders id rs' :=
  List.countP_append ..

private theorem holders_perm (h : rs.Perm rs') (id : Nat) : holders id rs = holders id rs' := h.countP_eq _

theorem holders_sublist (h : rs.Sublist rs') (id : Nat) : holders id rs ≤ holders id rs' := h.countP_le

/-- A range that meets no other is no second holder of any id. -/
theorem Apart.concat (h : Apart rs) (hfree : ∀ r' ∈ rs, Disjoint r'.ids r.ids) : Apart (rs ++ [r]) := by
  apply List.pairwise_append.mpr
  refine ⟨h,List.pairwise_singleton _ r,fun r' hr' q hq => ?_⟩
  rw [List.mem_singleton.mp hq]
  exact hfree r' hr'

theorem Apart.of_perm (h : Apart rs) (hperm : rs'.Perm rs) : Apart rs' := by
  rw [apart_iff_holders] at h ⊢
  intro id
  rw [holders_perm hperm]
  exact h id

section Removal

/-- The two pieces of a range lie on different sides of the interval. -/
theorem residue_apart (hle : start ≤ stop) (r : SubordinateRange) : Apart (residue start stop r) := by
  have hle := UInt64.le_iff_toNat_le.mp hle
  unfold Apart residue
  by_cases hleft : r.start < start
  · by_cases hright : stop < r.last
    · rw [if_pos hleft,if_pos hright]
      apply List.pairwise_pair.mpr
      apply Set.disjoint_left.mpr
      intro id hid hid'
      have hbelow := (mem_left_ids hleft).mp hid
      have habove := (mem_right_ids hright).mp hid'
      omega
    · rw [if_pos hleft,if_neg hright]
      exact List.pairwise_singleton _ _
  · rw [if_neg hleft]
    split
    · exact List.pairwise_singleton _ _
    · exact List.Pairwise.nil

private theorem leftOver_apart (hle : start ≤ stop) (r : SubordinateRange) : Apart (leftOver start stop r) := by
  unfold leftOver
  split
  · exact List.pairwise_singleton _ _
  · exact residue_apart hle r

private theorem holders_eq_zero : holders id rs = 0 ↔ ∀ r ∈ rs, id ∉ r.ids := by
  unfold holders
  rw [List.countP_eq_zero]
  simp only [holds_iff]

theorem Apart.holders_eq_one (h : Apart rs) (hr : r ∈ rs) (hid : id ∈ r.ids) : holders id rs = 1 := by
  have hle := apart_iff_holders.mp h id
  have hpos : 0 < holders id rs := List.countP_pos_iff.mpr ⟨r,hr,holds_iff.mpr hid⟩
  omega

/-- What is left of a range holds its ids outside of the interval, each once. -/
theorem holders_leftOver (hle : start ≤ stop) (hwrap : r.start.toNat + r.count.toNat ≤ 2^64)
    (hzero : ¬ (r.start = 0 ∧ r.count = 0)) (id : Nat) :
    holders id (leftOver start stop r) = if id ∈ Set.Icc start.toNat stop.toNat then 0 else holders id [r] := by
  have hids : (∃ piece ∈ leftOver start stop r, id ∈ piece.ids) ↔ id ∈ r.ids ∧ id ∉ Set.Icc start.toNat stop.toNat :=
    leftOver_ids hle hwrap hzero
  split
  · rename_i hinside
    apply holders_eq_zero.mpr
    intro piece hpiece hid
    exact (hids.mp ⟨piece,hpiece,hid⟩).2 hinside
  · rename_i houtside
    by_cases hr : id ∈ r.ids
    · obtain ⟨piece,hpiece,hid⟩ := hids.mpr ⟨hr,houtside⟩
      rw [(leftOver_apart hle r).holders_eq_one hpiece hid]
      exact (Apart.holders_eq_one (List.pairwise_singleton _ r) List.mem_cons_self hr).symm
    · have hnone : holders id [r] = 0 := by
        apply holders_eq_zero.mpr
        intro r' hr'
        rwa [List.mem_singleton.mp hr']
      rw [hnone]
      apply holders_eq_zero.mpr
      intro piece hpiece hid
      exact hr (hids.mp ⟨piece,hpiece,hid⟩).1

/-- Nothing that is left is the empty range at zero. -/
theorem leftOver_nonzero (hzero : ¬ (r.start = 0 ∧ r.count = 0)) {piece : SubordinateRange} (h : piece ∈ leftOver start stop r) :
    ¬ (piece.start = 0 ∧ piece.count = 0) := by
  unfold leftOver at h
  split at h
  · rwa [List.mem_singleton.mp h]
  · rcases List.mem_append.mp h with h | h
    · split at h
      · rename_i hleft
        have hcount := toNat_left_count hleft
        have hlt := UInt64.lt_iff_toNat_lt.mp hleft
        rw [List.mem_singleton.mp h]
        rintro ⟨_,hnone⟩
        have hnone : (start - r.start).toNat = 0 := congrArg UInt64.toNat hnone
        omega
      · exact absurd h List.not_mem_nil
    · split at h
      · rename_i hright
        have hnext := (toNat_right_count hright).1
        rw [List.mem_singleton.mp h]
        rintro ⟨hnone,_⟩
        have hnone : (stop + 1).toNat = 0 := congrArg UInt64.toNat hnone
        omega
      · exact absurd h List.not_mem_nil

/-- What becomes of one entry, as ranges. -/
theorem entriesOf_piece (record : Record SubordinateRange) :
    entriesOf ((keepRecord accounts owner start stop record).toList ++ (tailRecord accounts owner start stop record).toList) =
      record.eptr.elim [] fun r => if Owns accounts owner r then leftOver start stop r else [r] := by
  cases heptr : record.eptr with
  | none =>
    have hskip : skips accounts owner start stop record = true := by rw [skips,heptr]
    simp [keepRecord,tailRecord,hskip,heptr,entriesOf]
  | some r =>
    rw [Option.elim_some]
    by_cases hown : Owns accounts owner r
    · have hsame : isSameUser accounts r.owner owner = true := hown
      rw [if_pos hown]
      cases houtside : decide (stop < r.start) || decide (r.last < start) with
      | true =>
        have hskip : skips accounts owner start stop record = true := by simp [skips,heptr,houtside]
        simp [keepRecord,tailRecord,hskip,heptr,leftOver,houtside,entriesOf]
      | false =>
        have hskip : skips accounts owner start stop record = false := by simp [skips,heptr,hsame,houtside]
        rw [leftOver,houtside,if_neg Bool.false_ne_true]
        unfold residue
        by_cases hleft : r.start < start <;> by_cases hright : stop < r.last <;>
          simp [keepRecord,tailRecord,hskip,heptr,residue,hleft,hright,entriesOf,editedRecord]
    · have hsame : isSameUser accounts r.owner owner = false := by simpa [Owns] using hown
      have hskip : skips accounts owner start stop record = true := by simp [skips,heptr,hsame]
      simp [keepRecord,tailRecord,hskip,heptr,hown,entriesOf]

theorem entriesOf_append (rs rs' : List (Record SubordinateRange)) : entriesOf (rs ++ rs') = entriesOf rs ++ entriesOf rs' :=
  List.filterMap_append

/-- No range of the user is the empty one at zero, which the loop takes for the whole word. -/
def NoneAtZero (accounts : Accounts) (owner : Bytes) (rs : List SubordinateRange) : Prop :=
  ∀ r ∈ rs, Owns accounts owner r → ¬ (r.start = 0 ∧ r.count = 0)

/-- A removal takes no id to more ranges than before. -/
theorem holders_removed (hle : start ≤ stop) (hwrap : NoneWraps (entriesOf records))
    (hzero : NoneAtZero accounts owner (entriesOf records)) (id : Nat) :
    holders id (entriesOf (removedRecords accounts owner start stop records)) ≤ holders id (entriesOf records) := by
  unfold removedRecords
  rw [entriesOf_append,holders_append]
  induction records with
  | nil => exact Nat.zero_le _
  | cons record records ih =>
    have hsplit : record :: records = [record] ++ records := rfl
    rw [hsplit,entriesOf_append] at hwrap hzero ⊢
    have hrest := ih (fun r hr => hwrap r (List.mem_append_right _ hr)) (fun r hr => hzero r (List.mem_append_right _ hr))
    have hpiece := congrArg (holders id) (@entriesOf_piece accounts owner start stop record)
    rw [entriesOf_append,holders_append] at hpiece
    have hone : holders id (record.eptr.elim [] fun r => if Owns accounts owner r then leftOver start stop r else [r]) ≤
        holders id (entriesOf [record]) := by
      cases heptr : record.eptr with
      | none => exact Nat.zero_le _
      | some r =>
        have hr : r ∈ entriesOf [record] ++ entriesOf records := by simp [entriesOf,heptr]
        have hentries : entriesOf [record] = [r] := by simp [entriesOf,heptr]
        rw [Option.elim_some,hentries]
        split
        · rename_i hown
          rw [holders_leftOver hle (hwrap r hr) (hzero r hr hown)]
          split
          · exact Nat.zero_le _
          · exact le_rfl
        · exact le_rfl
    rw [holders_append,List.filterMap_append,List.filterMap_append,entriesOf_append,entriesOf_append,holders_append,holders_append]
    have hkeep : [record].filterMap (keepRecord accounts owner start stop) = (keepRecord accounts owner start stop record).toList := by
      cases hk : keepRecord accounts owner start stop record <;> simp [hk]
    have htail : [record].filterMap (tailRecord accounts owner start stop) = (tailRecord accounts owner start stop record).toList := by
      cases hk : tailRecord accounts owner start stop record <;> simp [hk]
    rw [hkeep,htail]
    omega

end Removal

section Stopping
variable {memory : Nat → Bool} {p : Nat}

/-- A round that finds no memory has done nothing. -/
theorem removeFromEntry_stopped {enough : Bool} (h : removeFromEntry accounts owner start stop enough p db = (false,db')) :
    db' = db := by
  unfold removeFromEntry at h
  split at h
  · cases h
  · rename_i range _
    simp only at h
    split at h
    · cases h
    · split at h
      · cases h
      · split at h
        · split at h
          · cases h
          · cases h
        · split at h
          · cases h
          · rcases happend : commonioAppend db ⟨range.owner,stop + 1,range.last - (stop + 1) + 1⟩ enough with ⟨_ | _,db₁⟩
            · rw [happend] at h
              cases h
              unfold commonioAppend at happend
              split at happend
              · cases happend
                rfl
              · cases happend
            · rw [happend] at h
              cases h

/-- Where the loop stops, the entries in front are as after the loop, and the others as before. -/
theorem removeRangeFrom_stopped {fuel : Nat} (h : Rep db (xs ++ (ys ++ ts)) false)
    (hts : ∀ q ∈ ts, skips accounts owner start stop (db.record q) = true)
    (hrun : removeRangeFrom accounts owner start stop memory fuel (ys ++ ts).head? db = some (false,db')) :
    ∃ l' done rest, ys.map db.record = done ++ rest ∧ Rep db' l' false ∧
      l'.map db'.record = xs.map db.record ++ done.filterMap (keepRecord accounts owner start stop) ++ rest ++
        ts.map db.record ++ done.filterMap (tailRecord accounts owner start stop) ∧
      (db'.changed = true ∨ db' = db ∧ l' = xs ++ (ys ++ ts)) := by
  induction fuel generalizing db xs ys ts with
  | zero => cases hrun
  | succ fuel ih =>
    cases ys with
    | nil =>
      cases ts with
      | nil => cases hrun
      | cons p ts =>
        obtain ⟨hp,hts⟩ := List.forall_mem_cons.mp hts
        have hnext : db.nextOf p = ts.head? := by rw [h.linked.next_eq,Option.or_none]
        have h' : Rep db ((xs ++ [p]) ++ ([] ++ ts)) false := by simpa using h
        simp only [List.nil_append,List.head?_cons,removeRangeFrom,removeFromEntry_skip (memory p) hp,hnext] at hrun
        obtain ⟨l',done,rest,hnil,hrep,hmap,hchanged⟩ := ih h' hts hrun
        obtain ⟨rfl,rfl⟩ := List.append_eq_nil_iff.mp hnil.symm
        exact ⟨l',[],[],rfl,hrep,by simpa using hmap,by simpa using hchanged⟩
    | cons p ys =>
      have h' : Rep db (xs ++ p :: (ys ++ ts)) false := h
      rcases hstep : removeFromEntry accounts owner start stop (memory p) p db with ⟨ok,db₁⟩
      cases ok with
      | false =>
        obtain rfl := removeFromEntry_stopped hstep
        simp only [List.cons_append,List.head?_cons,removeRangeFrom,hstep] at hrun
        cases hrun
        exact ⟨_,[],(p :: ys).map db'.record,rfl,h,by simp,.inr ⟨rfl,rfl⟩⟩
      | true =>
        obtain ⟨ps,tail,hremoved⟩ := removeFromEntry_spec h' (memory p) hstep rfl
        have hothers := hremoved.others
        have hxs : xs.map db₁.record = xs.map db.record :=
          List.map_congr_left fun q hq => hothers q (List.mem_append_left _ hq)
        have hys : ys.map db₁.record = ys.map db.record :=
          List.map_congr_left fun q hq => hothers q (List.mem_append_right _ (List.mem_append_left _ hq))
        have htsmap : ts.map db₁.record = ts.map db.record :=
          List.map_congr_left fun q hq => hothers q (List.mem_append_right _ (List.mem_append_right _ hq))
        have hrep₁ : Rep db₁ ((xs ++ ps) ++ (ys ++ (ts ++ tail))) false := by simpa using hremoved.rep
        have htail : ∀ q ∈ ts ++ tail, skips accounts owner start stop (db₁.record q) = true := by
          intro q hq
          rcases List.mem_append.mp hq with hq | hq
          · rw [hothers q (List.mem_append_right _ (List.mem_append_right _ hq))]
            exact hts q hq
          · have hm := List.mem_map_of_mem (f := db₁.record) hq
            rw [hremoved.appended,Option.mem_toList] at hm
            exact tailRecord_skips hm
        simp only [List.cons_append,List.head?_cons,removeRangeFrom,hstep,hremoved.next] at hrun
        rw [List.append_assoc] at hrun
        obtain ⟨l',done,rest,hsplit,hrep,hmap,hchanged⟩ := ih hrep₁ htail hrun
        refine ⟨l',db.record p :: done,rest,?_,hrep,?_,?_⟩
        · rw [List.map_cons,← hys,hsplit,List.cons_append]
        · rw [hmap,List.map_append,List.map_append,hxs,htsmap,hremoved.kept,hremoved.appended,List.filterMap_cons,
            List.filterMap_cons]
          cases keepRecord accounts owner start stop (db.record p) <;>
            cases tailRecord accounts owner start stop (db.record p) <;> simp
        · rcases hchanged with hchanged | ⟨rfl,rfl⟩
          · exact .inl hchanged
          · rcases hremoved.changed with hchanged | ⟨rfl,rfl,rfl⟩
            · exact .inl hchanged
            · exact .inr ⟨rfl,by simp⟩

/-- What a removal leaves, whether it came to its end or not: in a part of the entries in front the
interval is removed. -/
structure Thinned (accounts : Accounts) (owner : Bytes) (start stop : UInt64) (ok : Bool)
    (before after : List (Record SubordinateRange)) (done rest : List (Record SubordinateRange)) : Prop where
  before : before = done ++ rest
  after : after = done.filterMap (keepRecord accounts owner start stop) ++ rest ++
    done.filterMap (tailRecord accounts owner start stop)
  whole : ok = true → rest = []

theorem removeRange_thins (accounts : Accounts) (memory : Nat → Bool) (h : Rep db l false) (owner : Bytes)
    (start : UInt64) {count : UInt64} (hcount : count ≠ 0) :
    ∃ ok db' l' done rest, removeRange accounts memory db owner start count = some (ok,db') ∧ Rep db' l' false ∧
      Thinned accounts owner start (start + count - 1) ok (l.map db.record) (l'.map db'.record) done rest ∧
      (db'.changed = true ∨ db' = db ∧ l' = l) := by
  obtain ⟨ok,db',hrun,hspec⟩ := removeRange_spec accounts memory h owner start hcount
  cases ok with
  | true =>
    obtain ⟨l',hrep,hmap,_,hchanged⟩ := hspec rfl
    refine ⟨true,db',l',l.map db.record,[],hrun,hrep,⟨by simp,?_,fun _ => rfl⟩,hchanged⟩
    rw [hmap,removedRecords,List.append_nil]
  | false =>
    have hrun' := hrun
    rw [removeRange,if_neg hcount,h.head] at hrun'
    have h' : Rep db ([] ++ (l ++ [])) false := by simpa using h
    have hhead : l.head? = (l ++ []).head? := by rw [List.append_nil]
    rw [hhead] at hrun'
    obtain ⟨l',done,rest,hsplit,hrep,hmap,hchanged⟩ :=
      removeRangeFrom_stopped h' (fun q hq => absurd hq List.not_mem_nil) hrun'
    exact ⟨false,db',l',done,rest,hrun,hrep,⟨hsplit,by simpa using hmap,fun hok => by cases hok⟩,by simpa using hchanged⟩

end Stopping

section Files
variable {ok : Bool} {before after : List (Record SubordinateRange)}

theorem Thinned.holders_le (h : Thinned accounts owner start stop ok before after done rest) (hle : start ≤ stop)
    (hwrap : NoneWraps (entriesOf before)) (hzero : NoneAtZero accounts owner (entriesOf before)) (id : Nat) :
    holders id (entriesOf after) ≤ holders id (entriesOf before) := by
  rw [h.before,entriesOf_append] at hwrap hzero
  have hdone : holders id (entriesOf (removedRecords accounts owner start stop done)) ≤ holders id (entriesOf done) :=
    holders_removed hle (fun r hr => hwrap r (List.mem_append_left _ hr)) (fun r hr => hzero r (List.mem_append_left _ hr)) id
  unfold removedRecords at hdone
  rw [entriesOf_append,holders_append] at hdone
  rw [h.before,h.after,entriesOf_append,entriesOf_append,entriesOf_append,holders_append,holders_append,holders_append]
  omega

/-- A record afterwards is one from before, or holds a piece of a range of the user. -/
theorem Thinned.cases (h : Thinned accounts owner start stop ok before after done rest) (hrecord : record ∈ after) :
    record ∈ before ∨ ∃ r ∈ entriesOf before, Owns accounts owner r ∧ record.changed = true ∧
      ∃ piece ∈ leftOver start stop r, record.eptr = some piece := by
  rw [h.after,List.mem_append,List.mem_append] at hrecord
  have hremoved : record ∈ removedRecords accounts owner start stop done ∨ record ∈ rest := by
    rcases hrecord with (hrecord | hrecord) | hrecord
    · exact .inl (List.mem_append_left _ hrecord)
    · exact .inr hrecord
    · exact .inl (List.mem_append_right _ hrecord)
  rw [h.before]
  rcases hremoved with hremoved | hremoved
  · rcases removed_cases hremoved with hold | ⟨r,hr,hpiece⟩
    · exact .inl (List.mem_append_left _ hold)
    · refine .inr ⟨r,?_,hpiece⟩
      rw [entriesOf_append]
      exact List.mem_append_left _ hr
  · exact .inl (List.mem_append_right _ hremoved)

theorem Thinned.others (h : Thinned accounts owner start stop ok before after done rest) :
    after.filter (fun record => !isOwn accounts owner record) = before.filter fun record => !isOwn accounts owner record := by
  have hdone := @removedRecords_others accounts owner start stop done
  unfold removedRecords at hdone
  have htails : (done.filterMap (tailRecord accounts owner start stop)).filter (fun record => !isOwn accounts owner record) = [] := by
    apply List.filter_eq_nil_iff.mpr
    intro tail htail
    obtain ⟨record,_,hrecord⟩ := List.mem_filterMap.mp htail
    cases hown : isOwn accounts owner record with
    | true => simp [isOwn_of_removed hown (.inr hrecord)]
    | false =>
      rw [(keepRecord_of_not_own hown).2] at hrecord
      cases hrecord
  rw [List.filter_append,htails,List.append_nil] at hdone
  rw [h.before,h.after,List.filter_append,List.filter_append,List.filter_append,htails,hdone,List.append_nil]

/-- The ranges of other users are those of the records that are not the user's. -/
theorem filter_entriesOf (accounts : Accounts) (owner : Bytes) (records : List (Record SubordinateRange)) :
    (entriesOf records).filter (fun r => !isSameUser accounts r.owner owner) =
      entriesOf (records.filter fun record => !isOwn accounts owner record) := by
  induction records with
  | nil => rfl
  | cons record records ih =>
    cases heptr : record.eptr with
    | none =>
      have hown : isOwn accounts owner record = false := by rw [isOwn,heptr]; rfl
      simp only [entriesOf,List.filterMap_cons,heptr,List.filter_cons,hown,Bool.not_false,if_true]
      exact ih
    | some r =>
      have hown : isOwn accounts owner record = isSameUser accounts r.owner owner := by rw [isOwn,heptr]; rfl
      simp only [entriesOf,List.filterMap_cons,heptr,List.filter_cons,hown] at ih ⊢
      cases hsame : isSameUser accounts r.owner owner with
      | true =>
        simp only [Bool.not_true,Bool.false_eq_true,if_false]
        exact ih
      | false =>
        simp only [Bool.not_false,if_true,List.filterMap_cons,heptr]
        exact congrArg (r :: ·) ih

/-- Records that were read from a file. -/
def WereRead (records : List (Record SubordinateRange)) : Prop :=
  ∀ record ∈ records, ∃ line, IsLine line ∧ record = lineRecord subordinateOps line

theorem WereRead.again (h : WereRead records) : records.map subidStorage.again = records := by
  refine (List.map_congr_left ?_).trans (List.map_id _)
  intro record hrecord
  obtain ⟨line,_,rfl⟩ := h record hrecord
  rfl

theorem WereRead.text (h : WereRead records) (hr : r ∈ entriesOf records) : r.Text := by
  obtain ⟨record,hrecord,heptr⟩ := List.mem_filterMap.mp hr
  obtain ⟨line,hline,rfl⟩ := h record hrecord
  obtain ⟨hnis,hparse⟩ := lineRecord_eptr heptr
  exact SubordinateRange.Text.of_line hline hnis hparse

theorem SubordinateRange.Text.owner_line (h : r.Text) : IsLine r.owner := ⟨h.owner_newline,h.owner_zero⟩

theorem Thinned.lined (h : Thinned accounts owner start stop ok before after done rest) (hread : WereRead before) :
    ∀ record ∈ after, Lined record := by
  intro record hrecord
  rcases h.cases hrecord with hold | ⟨r,hr,_,hchanged,piece,hpiece,heptr⟩
  · exact .inl (hread record hold)
  · refine .inr ⟨piece,hchanged,heptr,?_⟩
    rw [leftOver_owner hpiece]
    exact (hread.text hr).owner_line

/-- Reading again loses ranges at most. -/
theorem entriesOf_again_sublist (h : ∀ record ∈ records, Lined record) :
    (entriesOf (records.map subidStorage.again)).Sublist (entriesOf records) := by
  induction records with
  | nil => exact List.Sublist.slnil
  | cons record records ih =>
    obtain ⟨hrecord,hrecords⟩ := List.forall_mem_cons.mp h
    unfold entriesOf at ih ⊢
    rw [List.map_cons]
    cases hagain : (subidStorage.again record).eptr with
    | none =>
      rw [List.filterMap_cons_none hagain]
      cases heptr : record.eptr with
      | none =>
        rw [List.filterMap_cons_none heptr]
        exact ih hrecords
      | some r =>
        rw [List.filterMap_cons_some heptr]
        exact (ih hrecords).cons r
    | some r =>
      rw [List.filterMap_cons_some hagain,List.filterMap_cons_some (hrecord.again_eptr hagain)]
      exact (ih hrecords).cons_cons r

/-- The ranges of the other users are read again as they were. -/
theorem Thinned.others_again (h : Thinned accounts owner start stop ok before after done rest) (hread : WereRead before) :
    (entriesOf (after.map subidStorage.again)).filter (fun r => !isSameUser accounts r.owner owner) =
      (entriesOf before).filter fun r => !isSameUser accounts r.owner owner := by
  rw [filter_entriesOf,filter_entriesOf,← h.others]
  have hsame : ∀ record ∈ after, isOwn accounts owner record = false → subidStorage.again record = record := by
    intro record hrecord hown
    rcases h.cases hrecord with hold | ⟨r,_,hr,_,piece,hpiece,heptr⟩
    · obtain ⟨line,_,rfl⟩ := hread record hold
      rfl
    · rw [isOwn,heptr,Option.any_some,leftOver_owner hpiece] at hown
      have hr : isSameUser accounts r.owner owner = true := hr
      rw [hr] at hown
      cases hown
  have hlined := h.lined hread
  clear h
  induction after with
  | nil => rfl
  | cons record after ih =>
    obtain ⟨hrecord,hafter⟩ := List.forall_mem_cons.mp hsame
    obtain ⟨hline,hlines⟩ := List.forall_mem_cons.mp hlined
    have ih := ih hafter hlines
    unfold entriesOf at ih ⊢
    cases hown : isOwn accounts owner record with
    | false =>
      simp only [List.map_cons,List.filter_cons,hown,Bool.not_false,if_true,hrecord hown]
      rw [List.filterMap_cons,List.filterMap_cons,ih]
    | true =>
      cases hagain : (subidStorage.again record).eptr with
      | none =>
        have hnot : isOwn accounts owner (subidStorage.again record) = false := by rw [isOwn,hagain]; rfl
        simp only [List.map_cons,List.filter_cons,hown,hnot,Bool.not_true,Bool.not_false,if_true,Bool.false_eq_true,if_false]
        rw [List.filterMap_cons_none hagain]
        exact ih
      | some r =>
        have hagain' : isOwn accounts owner (subidStorage.again record) = true := by
          rw [isOwn,hagain,Option.any_some]
          rwa [isOwn,hline.again_eptr hagain,Option.any_some] at hown
        simp only [List.map_cons,List.filter_cons,hown,hagain',Bool.not_true,Bool.false_eq_true,if_false]
        exact ih

end Files

end UserDb.Subid
