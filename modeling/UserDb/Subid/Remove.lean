import UserDb.Subid.Deterministic

/-! Removing an interval of ids from the ranges of a user: the loop over the list that it deletes
from and appends to, and what it makes of each entry. -/
namespace UserDb.Subid
open UserDb.Base UserDb.Base.LinkedList UserDb.Commonio

/-- The range of an entry is set, and the entry will be written. -/
def editEntry (db : Db SubordinateRange) (p : Nat) (r : SubordinateRange) : Db SubordinateRange :=
  { db.store p { db.entries p with eptr := some r, changed := true } with changed := true }

section Program
variable (accounts : Accounts) (owner : Bytes) (start stop : UInt64)

/-- One round of the loop. `memory` tells whether there is memory for a new entry. -/
def removeFromEntry (memory : Bool) (p : Nat) (db : Db SubordinateRange) : Bool × Db SubordinateRange :=
  match (db.entries p).eptr with
  | none => (true,db)
  | some range =>
    let first := range.start
    let last := range.last
    if !isSameUser accounts range.owner owner then (true,db)
    else if stop < first || last < start then (true,db)
    else if start ≤ first then
      if last ≤ stop then (true,commonioDelEntry db p)
      else (true,editEntry db p { range with start := stop + 1, count := last - (stop + 1) + 1 })
    else if last ≤ stop then (true,editEntry db p { range with count := start - first })
    else
      match commonioAppend db ⟨range.owner,stop + 1,last - (stop + 1) + 1⟩ memory with
      | (false,db) => (false,db)
      | (true,db) => (true,editEntry db p { range with count := start - first })

/-- The loop over the entries, those it appends included. -/
def removeRangeFrom (memory : Nat → Bool) : Nat → Option Nat → Db SubordinateRange → Option (Bool × Db SubordinateRange)
  | 0, _, _ => none
  | _ + 1, none, db => some (true,db)
  | fuel + 1, some p, db =>
    match removeFromEntry accounts owner start stop (memory p) p db with
    | (false,db) => some (false,db)
    | (true,db) => removeRangeFrom memory fuel (db.nextOf p) db

end Program

/-- Each entry is visited once, and makes one new entry at most. -/
def removeRange (accounts : Accounts) (memory : Nat → Bool) (db : Db SubordinateRange) (owner : Bytes)
    (start count : UInt64) : Option (Bool × Db SubordinateRange) :=
  if count = 0 then some (true,db)
  else removeRangeFrom accounts owner start (start + count - 1) memory (2 * db.fresh + 1) db.head db

/-- `nss` tells whether a module of the name service handles these ids. -/
def subUidRemove (accounts : Accounts) (nss : Bool) (memory : Nat → Bool) (db : Db SubordinateRange) (owner : Bytes)
    (start : UInt32) (count : UInt64) : Option (Bool × Db SubordinateRange) :=
  if nss then some (false,db) else removeRange accounts memory db owner start.toUInt64 count

def subGidRemove (accounts : Accounts) (nss : Bool) (memory : Nat → Bool) (db : Db SubordinateRange) (owner : Bytes)
    (start : UInt32) (count : UInt64) : Option (Bool × Db SubordinateRange) :=
  if nss then some (false,db) else removeRange accounts memory db owner start.toUInt64 count

variable {accounts : Accounts} {owner : Bytes} {start stop : UInt64} {db db' : Db SubordinateRange}
  {l xs ys zs ts : List Nat} {p : Nat} {r : SubordinateRange} {rs : List (Record SubordinateRange)}

section Records
variable (accounts owner start stop)

/-- The loop leaves an entry alone that did not parse, is not the user's, or does not meet the interval. -/
def skips (record : Record SubordinateRange) : Bool :=
  match record.eptr with
  | none => true
  | some r => !isSameUser accounts r.owner owner || (stop < r.start || r.last < start)

/-- What is left of a range on both sides of the interval. -/
def residue (r : SubordinateRange) : List SubordinateRange :=
  (if r.start < start then [{ r with count := start - r.start }] else []) ++
    (if stop < r.last then [{ r with start := stop + 1, count := r.last - (stop + 1) + 1 }] else [])

/-- What stays in the place of an entry, and what is appended for it. -/
def keepRecord (record : Record SubordinateRange) : Option (Record SubordinateRange) :=
  if skips accounts owner start stop record then some record
  else record.eptr.bind fun r => (residue start stop r).head?.map (editedRecord record.line)

def tailRecord (record : Record SubordinateRange) : Option (Record SubordinateRange) :=
  if skips accounts owner start stop record then none
  else record.eptr.bind fun r => (residue start stop r)[1]?.map (editedRecord none)

end Records

private theorem record_editEntry (db : Db SubordinateRange) (p : Nat) (r : SubordinateRange) :
    (editEntry db p r).record = Function.update db.record p (editedRecord (db.record p).line r) :=
  record_store _

private theorem rep_editEntry (h : Rep db l false) (p : Nat) (r : SubordinateRange) : Rep (editEntry db p r) l false := by
  have hstore := h.store (p := p) (e := { db.entries p with eptr := some r, changed := true }) rfl rfl
  exact hstore.withFlags true db.isopen db.readonly db.locked

private theorem nextOf_editEntry (db : Db SubordinateRange) (p : Nat) (r : SubordinateRange) : (editEntry db p r).nextOf = db.nextOf :=
  nextOf_store rfl

/-- What one round does to the list: the entry stays, changes or goes, and a tail may be appended. -/
structure Removed (accounts : Accounts) (owner : Bytes) (start stop : UInt64) (xs zs : List Nat) (p : Nat)
    (db db' : Db SubordinateRange) (ps ts : List Nat) : Prop where
  rep : Rep db' (xs ++ ps ++ (zs ++ ts)) false
  kept : ps.map db'.record = (keepRecord accounts owner start stop (db.record p)).toList
  appended : ts.map db'.record = (tailRecord accounts owner start stop (db.record p)).toList
  others : ∀ q ∈ xs ++ zs, db'.record q = db.record q
  next : db'.nextOf p = (zs ++ ts).head?
  flags : db'.isopen = db.isopen ∧ db'.readonly = db.readonly
  changed : db'.changed = true ∨ db' = db ∧ ps = [p] ∧ ts = []

theorem removeFromEntry_skip (memory : Bool) (h : skips accounts owner start stop (db.record p) = true) :
    removeFromEntry accounts owner start stop memory p db = (true,db) := by
  unfold removeFromEntry
  have heptr : (db.entries p).eptr = (db.record p).eptr := rfl
  rw [heptr]
  unfold skips at h
  cases hr : (db.record p).eptr with
  | none => rfl
  | some r =>
    rw [hr] at h
    rcases Bool.or_eq_true_iff.mp h with hother | houtside
    · simp only [hother,if_true]
    · simp only [houtside,if_true,ite_self]

theorem Removed.of_skip (h : Rep db (xs ++ p :: zs) false) (hskip : skips accounts owner start stop (db.record p) = true) :
    Removed accounts owner start stop xs zs p db db [p] [] where
  rep := by simpa using h
  kept := by rw [keepRecord,if_pos hskip]; rfl
  appended := by rw [tailRecord,if_pos hskip]; rfl
  others _ _ := rfl
  next := by rw [h.linked.next_eq,Option.or_none,List.append_nil]
  flags := ⟨rfl,rfl⟩
  changed := .inr ⟨rfl,rfl,rfl⟩

/-- One round either fails, for want of memory, or does to the list what it should. -/
theorem removeFromEntry_spec (h : Rep db (xs ++ p :: zs) false) (memory : Bool) {ok : Bool}
    (hrun : removeFromEntry accounts owner start stop memory p db = (ok,db')) (hok : ok = true) :
    ∃ ps ts, Removed accounts owner start stop xs zs p db db' ps ts := by
  subst hok
  cases hskip : skips accounts owner start stop (db.record p) with
  | true =>
    rw [removeFromEntry_skip memory hskip] at hrun
    cases hrun
    exact ⟨[p],[],Removed.of_skip h hskip⟩
  | false =>
    have hp : p ∉ xs ++ zs := (List.nodup_cons.mp (List.nodup_middle.mp h.nodup)).1
    have hother : ∀ (record : Record SubordinateRange), ∀ q ∈ xs ++ zs,
        Function.update db.record p record q = db.record q := fun record q hq => by
      rw [Function.update_of_ne (ne_of_mem_of_not_mem hq hp)]
    have hnext : db.nextOf p = zs.head? := by rw [h.linked.next_eq,Option.or_none]
    have hkeep : keepRecord accounts owner start stop (db.record p) = (db.record p).eptr.bind fun r =>
        (residue start stop r).head?.map (editedRecord (db.record p).line) := by rw [keepRecord,hskip]; rfl
    have htail : tailRecord accounts owner start stop (db.record p) = (db.record p).eptr.bind fun r =>
        (residue start stop r)[1]?.map (editedRecord none) := by rw [tailRecord,hskip]; rfl
    obtain ⟨r,hr⟩ : ∃ r, (db.record p).eptr = some r := by
      cases hr : (db.record p).eptr with
      | none => simp [skips,hr] at hskip
      | some r => exact ⟨r,rfl⟩
    have hentry : (db.entries p).eptr = some r := hr
    simp only [skips,hr,Bool.or_eq_false_iff,Bool.not_eq_false',decide_eq_false_iff_not] at hskip
    obtain ⟨hsame,hstop,hstart⟩ := hskip
    rw [hr,Option.bind_some] at hkeep htail
    unfold removeFromEntry at hrun
    simp only [hentry,hsame,hstop,hstart,decide_false,Bool.not_true,Bool.or_self,Bool.false_eq_true,if_false] at hrun
    by_cases hfirst : start ≤ r.start
    · have hleft : ¬ r.start < start := UInt64.not_lt.mpr hfirst
      rw [if_pos hfirst] at hrun
      by_cases hlast : r.last ≤ stop
      · have hright : ¬ stop < r.last := UInt64.not_lt.mpr hlast
        rw [if_pos hlast] at hrun
        cases hrun
        have hflags := commonioDelEntry_flags db p
        refine ⟨[],[],?_,?_,?_,fun q _ => ?_,?_,hflags,.inl (by rw [commonioDelEntry_eq])⟩
        · simpa using h.delEntry
        · simp [hkeep,residue,hleft,hright]
        · simp [htail,residue,hleft,hright]
        · rw [record_commonioDelEntry]
        · have hpxs : p ∉ xs := fun hm => hp (List.mem_append_left zs hm)
          rw [nextOf_commonioDelEntry h.toCore hpxs,hnext,List.append_nil]
      · have hright : stop < r.last := UInt64.not_le.mp hlast
        rw [if_neg hlast] at hrun
        cases hrun
        refine ⟨[p],[],?_,?_,?_,fun q hq => ?_,?_,⟨rfl,rfl⟩,.inl rfl⟩
        · simpa using rep_editEntry h p _
        · simp [hkeep,residue,hleft,hright,record_editEntry]
        · simp [htail,residue,hleft,hright]
        · rw [record_editEntry,hother _ q hq]
        · rw [nextOf_editEntry,hnext,List.append_nil]
    · have hleft : r.start < start := UInt64.not_le.mp hfirst
      rw [if_neg hfirst] at hrun
      by_cases hlast : r.last ≤ stop
      · have hright : ¬ stop < r.last := UInt64.not_lt.mpr hlast
        rw [if_pos hlast] at hrun
        cases hrun
        refine ⟨[p],[],?_,?_,?_,fun q hq => ?_,?_,⟨rfl,rfl⟩,.inl rfl⟩
        · simpa using rep_editEntry h p _
        · simp [hkeep,residue,hleft,hright,record_editEntry]
        · simp [htail,residue,hleft,hright]
        · rw [record_editEntry,hother _ q hq]
        · rw [nextOf_editEntry,hnext,List.append_nil]
      · have hright : stop < r.last := UInt64.not_le.mp hlast
        rw [if_neg hlast] at hrun
        rcases happend : commonioAppend db ⟨r.owner,stop + 1,r.last - (stop + 1) + 1⟩ memory with ⟨ok,db₁⟩
        rw [happend] at hrun
        rcases commonioAppend_cases h _ memory happend with ⟨rfl,rfl⟩ | ⟨rfl,_,hisopen,hreadonly,hfresh,hrep,hrecord⟩
        · cases hrun
        · cases hrun
          have hpf : p ≠ db.fresh := fun heq => hfresh (by simp [← heq])
          have hrep₁ : Rep db₁ (xs ++ p :: (zs ++ [db.fresh])) false := by simpa using hrep
          have hpold : db₁.record p = db.record p := by rw [hrecord,Function.update_of_ne hpf]
          refine ⟨[p],[db.fresh],?_,?_,?_,fun q hq => ?_,?_,?_,.inl rfl⟩
          · simpa using rep_editEntry hrep₁ p _
          · simp [hkeep,residue,hleft,hright,record_editEntry,hpold]
          · simp [htail,residue,hleft,hright,record_editEntry,hpf.symm,hrecord]
          · have hqf : q ≠ db.fresh := fun heq => hfresh (by
              rw [← heq]
              exact List.perm_middle.mem_iff.mpr (List.mem_cons_of_mem p hq))
            have hqp : q ≠ p := ne_of_mem_of_not_mem hq hp
            rw [record_editEntry,Function.update_of_ne hqp,hrecord,Function.update_of_ne hqf]
          · rw [nextOf_editEntry,hrep₁.linked.next_eq,Option.or_none]
          · exact ⟨hisopen,hreadonly⟩

section Records
variable (accounts owner start stop)

/-- The list after the loop: what stays of each entry, then what was appended. -/
def removedRecords (rs : List (Record SubordinateRange)) : List (Record SubordinateRange) :=
  rs.filterMap (keepRecord accounts owner start stop) ++ rs.filterMap (tailRecord accounts owner start stop)

end Records

/-- What the loop appends is behind the interval. -/
theorem tailRecord_skips {record tail : Record SubordinateRange}
    (h : tailRecord accounts owner start stop record = some tail) : skips accounts owner start stop tail = true := by
  unfold tailRecord at h
  split at h
  · cases h
  · obtain ⟨r,_,hr⟩ := Option.bind_eq_some_iff.mp h
    obtain ⟨piece,hpiece,rfl⟩ := Option.map_eq_some_iff.mp hr
    unfold residue at hpiece
    by_cases hright : stop < r.last
    · have hstop : stop < stop + 1 := by
        have hlt := UInt64.lt_iff_toNat_lt.mp hright
        have hword := r.last.toNat_lt
        rw [UInt64.lt_iff_toNat_lt,UInt64.toNat_add,show (1 : UInt64).toNat = 1 from rfl]
        omega
      have heq : piece = { r with start := stop + 1, count := r.last - (stop + 1) + 1 } := by
        by_cases hleft : r.start < start
        · simpa [hleft,hright] using hpiece.symm
        · simp [hleft,hright] at hpiece
      subst heq
      simp [skips,editedRecord,hstop]
    · by_cases hleft : r.start < start <;> simp [hleft,hright] at hpiece

/-- The loop over the rest `ys` of the list and the tails `ts` that it appended so far. -/
theorem removeRangeFrom_spec (accounts : Accounts) (owner : Bytes) (start stop : UInt64) (memory : Nat → Bool) {fuel : Nat}
    (h : Rep db (xs ++ (ys ++ ts)) false)
    (hts : ∀ q ∈ ts, skips accounts owner start stop (db.record q) = true) (hfuel : 2 * ys.length + ts.length < fuel) :
    ∃ ok db', removeRangeFrom accounts owner start stop memory fuel (ys ++ ts).head? db = some (ok,db') ∧
      (ok = true → ∃ l', Rep db' l' false ∧
        l'.map db'.record = xs.map db.record ++ (ys.map db.record).filterMap (keepRecord accounts owner start stop) ++
          ts.map db.record ++ (ys.map db.record).filterMap (tailRecord accounts owner start stop) ∧
        (db'.isopen = db.isopen ∧ db'.readonly = db.readonly) ∧
        (db'.changed = true ∨ db' = db ∧ l' = xs ++ (ys ++ ts))) := by
  induction fuel generalizing db xs ys ts with
  | zero => omega
  | succ fuel ih =>
    cases ys with
    | nil =>
      cases ts with
      | nil =>
        refine ⟨true,db,rfl,fun _ => ⟨xs,by simpa using h,by simp,⟨rfl,rfl⟩,.inr ⟨rfl,by simp⟩⟩⟩
      | cons p ts =>
        obtain ⟨hp,hts⟩ := List.forall_mem_cons.mp hts
        have hnext : db.nextOf p = ts.head? := by
          rw [h.linked.next_eq,Option.or_none]
        have h' : Rep db ((xs ++ [p]) ++ ([] ++ ts)) false := by simpa using h
        obtain ⟨ok,db',hrun,hspec⟩ := ih h' hts (by simp at hfuel ⊢; omega)
        refine ⟨ok,db',?_,fun hok => ?_⟩
        · simp only [List.nil_append,List.head?_cons,removeRangeFrom,removeFromEntry_skip (memory p) hp,hnext]
          exact hrun
        · obtain ⟨l',hrep,hmap,hflags,hchanged⟩ := hspec hok
          exact ⟨l',hrep,by simpa using hmap,hflags,by simpa using hchanged⟩
    | cons p ys =>
      have h' : Rep db (xs ++ p :: (ys ++ ts)) false := h
      rcases hstep : removeFromEntry accounts owner start stop (memory p) p db with ⟨ok,db₁⟩
      cases ok with
      | false => exact ⟨false,db₁,by simp only [List.cons_append,List.head?_cons,removeRangeFrom,hstep],nofun⟩
      | true =>
        obtain ⟨ps,tail,hremoved⟩ := removeFromEntry_spec h' (memory p) hstep rfl
        have hothers := hremoved.others
        have hxs : xs.map db₁.record = xs.map db.record :=
          List.map_congr_left fun q hq => hothers q (List.mem_append_left _ hq)
        have hys : ys.map db₁.record = ys.map db.record :=
          List.map_congr_left fun q hq => hothers q (List.mem_append_right _ (List.mem_append_left _ hq))
        have htsmap : ts.map db₁.record = ts.map db.record :=
          List.map_congr_left fun q hq => hothers q (List.mem_append_right _ (List.mem_append_right _ hq))
        have hrep₁ : Rep db₁ ((xs ++ ps) ++ (ys ++ (ts ++ tail))) false := by simpa using hremoved.rep
        have hlength : tail.length ≤ 1 := by
          rw [← List.length_map (f := db₁.record),hremoved.appended]
          exact Option.length_toList_le
        have htail : ∀ q ∈ ts ++ tail, skips accounts owner start stop (db₁.record q) = true := fun q hq => by
          rcases List.mem_append.mp hq with hq | hq
          · rw [hothers q (List.mem_append_right _ (List.mem_append_right _ hq))]
            exact hts q hq
          · have hm := List.mem_map_of_mem (f := db₁.record) hq
            rw [hremoved.appended,Option.mem_toList] at hm
            exact tailRecord_skips hm
        obtain ⟨ok,db',hrun,hspec⟩ := ih hrep₁ htail (by
          simp only [List.length_cons,List.length_append] at hfuel ⊢
          omega)
        refine ⟨ok,db',?_,fun hok => ?_⟩
        · simp only [List.cons_append,List.head?_cons,removeRangeFrom,hstep,hremoved.next]
          rw [List.append_assoc]
          exact hrun
        · obtain ⟨l',hrep,hmap,hflags,hchanged⟩ := hspec hok
          refine ⟨l',hrep,?_,⟨hflags.1.trans hremoved.flags.1,hflags.2.trans hremoved.flags.2⟩,?_⟩
          · rw [hmap,hys,List.map_append,List.map_append,hxs,htsmap,hremoved.kept,hremoved.appended,List.map_cons,
              List.filterMap_cons,List.filterMap_cons]
            cases keepRecord accounts owner start stop (db.record p) <;>
              cases tailRecord accounts owner start stop (db.record p) <;> simp
          · rcases hchanged with hchanged | ⟨rfl,rfl⟩
            · exact .inl hchanged
            · rcases hremoved.changed with hchanged | ⟨rfl,rfl,rfl⟩
              · exact .inl hchanged
              · exact .inr ⟨rfl,by simp⟩

/-- The call returns, and where it succeeds it leaves of each entry what it should. -/
theorem removeRange_spec (accounts : Accounts) (memory : Nat → Bool) (h : Rep db l false) (owner : Bytes)
    (start : UInt64) {count : UInt64} (hcount : count ≠ 0) :
    ∃ ok db', removeRange accounts memory db owner start count = some (ok,db') ∧
      (ok = true → ∃ l', Rep db' l' false ∧
        l'.map db'.record = removedRecords accounts owner start (start + count - 1) (l.map db.record) ∧
        (db'.isopen = db.isopen ∧ db'.readonly = db.readonly) ∧ (db'.changed = true ∨ db' = db ∧ l' = l)) := by
  have h' : Rep db ([] ++ (l ++ [])) false := by simpa using h
  have hfuel : 2 * l.length + ([] : List Nat).length < 2 * db.fresh + 1 := by
    have hlength := h.toCore.length_le
    simp only [List.length_nil]
    omega
  obtain ⟨ok,db',hrun,hspec⟩ := removeRangeFrom_spec accounts owner start (start + count - 1) memory h' nofun hfuel
  refine ⟨ok,db',?_,fun hok => ?_⟩
  · rw [removeRange,if_neg hcount,h.head]
    simpa using hrun
  · obtain ⟨l',hrep,hmap,hflags,hchanged⟩ := hspec hok
    exact ⟨l',hrep,by simpa [removedRecords] using hmap,hflags,by simpa using hchanged⟩

section Ids
variable (accounts : Accounts) (owner : Bytes)

/-- A range of the user, under any spelling of its owner. -/
def Owns (r : SubordinateRange) : Prop := isSameUser accounts r.owner owner = true

instance (r : SubordinateRange) : Decidable (Owns accounts owner r) :=
  inferInstanceAs (Decidable (_ = true))

def isOwn (record : Record SubordinateRange) : Bool := record.eptr.any fun r => isSameUser accounts r.owner owner

/-- What is left of a range that may not meet the interval. -/
def leftOver (start stop : UInt64) (r : SubordinateRange) : List SubordinateRange :=
  if stop < r.start || r.last < start then [r] else residue start stop r

/-- The removal takes the ids of the interval from the user and nothing else, and what it writes
is read back. -/
structure RemovesExactly (start count : Nat) (before after : List (Record SubordinateRange)) : Prop where
  ids : idsOf (Owns accounts owner) (entriesOf after) =
    idsOf (Owns accounts owner) (entriesOf before) \ Set.Ico start (start + count)
  others : after.filter (fun record => !isOwn accounts owner record) = before.filter fun record => !isOwn accounts owner record
  written : ∀ record ∈ after, record.changed = true → ∃ r, record.eptr = some r ∧ subordinateParse (rangeLine r) = some r

/-- No range of the user is the empty one at zero, and what is left of each fits the buffer of the parser. -/
def LeavesReadable (start count : UInt64) (records : List (Record SubordinateRange)) : Prop :=
  count = 0 ∨ ∀ r ∈ entriesOf records, Owns accounts owner r → ¬ (r.start = 0 ∧ r.count = 0) ∧
    ∀ piece ∈ leftOver start (start + count - 1) r, (rangeLine piece).length < 1024

instance (start count : UInt64) (records : List (Record SubordinateRange)) :
    Decidable (LeavesReadable accounts owner start count records) := inferInstanceAs (Decidable (_ ∨ _))

end Ids

private theorem residue_owner {piece : SubordinateRange} (h : piece ∈ residue start stop r) : piece.owner = r.owner := by
  simp only [residue,List.mem_append] at h
  rcases h with h | h <;> split at h <;> simp at h <;> rw [h]

theorem leftOver_owner {piece : SubordinateRange} (h : piece ∈ leftOver start stop r) : piece.owner = r.owner := by
  unfold leftOver at h
  split at h
  · rw [List.mem_singleton.mp h]
  · exact residue_owner h

theorem mem_residue {piece : SubordinateRange} :
    piece ∈ residue start stop r ↔ (residue start stop r).head? = some piece ∨ (residue start stop r)[1]? = some piece := by
  unfold residue
  by_cases hleft : r.start < start <;> by_cases hright : stop < r.last <;> simp [hleft,hright,eq_comm]

/-- What becomes of one entry. -/
theorem removed_entry {record : Record SubordinateRange} {piece : SubordinateRange} :
    (∃ after, (keepRecord accounts owner start stop record = some after ∨
        tailRecord accounts owner start stop record = some after) ∧ after.eptr = some piece) ↔
      ∃ r, record.eptr = some r ∧ if Owns accounts owner r then piece ∈ leftOver start stop r else piece = r := by
  cases heptr : record.eptr with
  | none =>
    have hskip : skips accounts owner start stop record = true := by rw [skips,heptr]
    simp [keepRecord,tailRecord,hskip,heptr]
  | some r =>
    simp only [Option.some.injEq,exists_eq_left']
    by_cases hown : Owns accounts owner r
    · have hsame : isSameUser accounts r.owner owner = true := hown
      rw [if_pos hown]
      cases houtside : decide (stop < r.start) || decide (r.last < start) with
      | true =>
        have hskip : skips accounts owner start stop record = true := by simp [skips,heptr,houtside]
        simp [keepRecord,tailRecord,hskip,heptr,leftOver,houtside,eq_comm]
      | false =>
        have hskip : skips accounts owner start stop record = false := by simp [skips,heptr,hsame,houtside]
        rw [leftOver,houtside,if_neg Bool.false_ne_true,mem_residue]
        simp only [keepRecord,tailRecord,hskip,heptr,Bool.false_eq_true,if_false,Option.bind_some,Option.map_eq_some_iff]
        constructor
        · rintro ⟨after,⟨piece',hpiece,rfl⟩ | ⟨piece',hpiece,rfl⟩,heq⟩
          · cases heq
            exact .inl hpiece
          · cases heq
            exact .inr hpiece
        · rintro (hpiece | hpiece)
          · exact ⟨_,.inl ⟨piece,hpiece,rfl⟩,rfl⟩
          · exact ⟨_,.inr ⟨piece,hpiece,rfl⟩,rfl⟩
    · have hsame : isSameUser accounts r.owner owner = false := Bool.eq_false_iff.mpr hown
      have hskip : skips accounts owner start stop record = true := by simp [skips,heptr,hsame]
      simp [keepRecord,tailRecord,hskip,heptr,hown,eq_comm]

theorem mem_removedRecords {after : Record SubordinateRange} :
    after ∈ removedRecords accounts owner start stop rs ↔
      ∃ record ∈ rs, keepRecord accounts owner start stop record = some after ∨
        tailRecord accounts owner start stop record = some after := by
  simp only [removedRecords,List.mem_append,List.mem_filterMap]
  constructor
  · rintro (⟨record,hm,h⟩ | ⟨record,hm,h⟩)
    · exact ⟨record,hm,.inl h⟩
    · exact ⟨record,hm,.inr h⟩
  · rintro ⟨record,hm,h | h⟩
    · exact .inl ⟨record,hm,h⟩
    · exact .inr ⟨record,hm,h⟩

/-- The ranges after the loop are what is left of those of the user, and the others. -/
theorem mem_entriesOf_removed {piece : SubordinateRange} :
    piece ∈ entriesOf (removedRecords accounts owner start stop rs) ↔
      ∃ r ∈ entriesOf rs, if Owns accounts owner r then piece ∈ leftOver start stop r else piece = r := by
  simp only [entriesOf,List.mem_filterMap,mem_removedRecords]
  constructor
  · rintro ⟨after,⟨record,hm,h⟩,heptr⟩
    obtain ⟨r,hr,hpiece⟩ := removed_entry.mp ⟨after,h,heptr⟩
    exact ⟨r,⟨record,hm,hr⟩,hpiece⟩
  · rintro ⟨r,⟨record,hm,hr⟩,hpiece⟩
    obtain ⟨after,h,heptr⟩ := removed_entry.mpr ⟨r,hr,hpiece⟩
    exact ⟨after,⟨record,hm,h⟩,heptr⟩

/-- The counts of the two sides, in the arithmetic of the word. -/
theorem toNat_left_count (hleft : r.start < start) : (start - r.start).toNat = start.toNat - r.start.toNat := by
  have hlt := UInt64.lt_iff_toNat_lt.mp hleft
  have hword := start.toNat_lt
  rw [UInt64.toNat_sub]
  omega

theorem toNat_right_count (hright : stop < r.last) :
    (stop + 1).toNat = stop.toNat + 1 ∧ (r.last - (stop + 1) + 1).toNat = r.last.toNat - stop.toNat := by
  have hlt := UInt64.lt_iff_toNat_lt.mp hright
  have hword := r.last.toNat_lt
  have hone : (1 : UInt64).toNat = 1 := rfl
  have hnext : (stop + 1).toNat = stop.toNat + 1 := by
    rw [UInt64.toNat_add,hone]
    omega
  refine ⟨hnext,?_⟩
  rw [UInt64.toNat_add,UInt64.toNat_sub,hnext,hone]
  omega

theorem mem_left_ids (hleft : r.start < start) {id : Nat} :
    id ∈ SubordinateRange.ids { r with count := start - r.start } ↔ r.start.toNat ≤ id ∧ id < start.toNat := by
  have hlt := UInt64.lt_iff_toNat_lt.mp hleft
  have hcount := toNat_left_count hleft
  show r.start.toNat ≤ id ∧ id < r.start.toNat + (start - r.start).toNat ↔ _
  omega

theorem mem_right_ids (hright : stop < r.last) {id : Nat} :
    id ∈ SubordinateRange.ids { r with start := stop + 1, count := r.last - (stop + 1) + 1 } ↔
      stop.toNat < id ∧ id ≤ r.last.toNat := by
  have hlt := UInt64.lt_iff_toNat_lt.mp hright
  obtain ⟨hnext,hcount⟩ := toNat_right_count hright
  show (stop + 1).toNat ≤ id ∧ id < (stop + 1).toNat + (r.last - (stop + 1) + 1).toNat ↔ _
  omega

/-- What is left of a range are its ids outside the interval. -/
theorem leftOver_ids (hle : start ≤ stop) (hwrap : r.start.toNat + r.count.toNat ≤ 2^64) (hzero : ¬ (r.start = 0 ∧ r.count = 0))
    {id : Nat} : (∃ piece ∈ leftOver start stop r, id ∈ piece.ids) ↔ id ∈ r.ids ∧ id ∉ Set.Icc start.toNat stop.toNat := by
  have hle := UInt64.le_iff_toNat_le.mp hle
  have hlast := r.last_toNat
  have hempty : r.count.toNat = 0 → r.start.toNat ≠ 0 := fun hcount hstart =>
    hzero ⟨UInt64.toNat_inj.mp (by simpa using hstart),UInt64.toNat_inj.mp (by simpa using hcount)⟩
  unfold leftOver
  split
  · rename_i houtside
    simp only [Bool.or_eq_true,decide_eq_true_eq,UInt64.lt_iff_toNat_lt] at houtside
    simp only [List.mem_singleton,exists_eq_left,SubordinateRange.ids,Set.mem_Ico,Set.mem_Icc]
    omega
  · rename_i houtside
    simp only [Bool.or_eq_true,decide_eq_true_eq,UInt64.lt_iff_toNat_lt,not_or] at houtside
    have hids : id ∈ r.ids ↔ r.start.toNat ≤ id ∧ id < r.start.toNat + r.count.toNat := Iff.rfl
    rw [hids,Set.mem_Icc]
    unfold residue
    by_cases hleft : r.start < start
    · have hleft' := UInt64.lt_iff_toNat_lt.mp hleft
      by_cases hright : stop < r.last
      · have hright' := UInt64.lt_iff_toNat_lt.mp hright
        simp only [hleft,hright,if_true,List.singleton_append,List.mem_cons,List.not_mem_nil,or_false,exists_eq_or_imp,
          exists_eq_left,mem_left_ids,mem_right_ids]
        omega
      · have hright' := UInt64.lt_iff_toNat_lt.not.mp hright
        simp only [hleft,hright,if_true,if_false,List.append_nil,List.mem_singleton,exists_eq_left,mem_left_ids]
        omega
    · have hleft' := UInt64.lt_iff_toNat_lt.not.mp hleft
      by_cases hright : stop < r.last
      · have hright' := UInt64.lt_iff_toNat_lt.mp hright
        simp only [hleft,hright,if_true,if_false,List.nil_append,List.mem_singleton,exists_eq_left,mem_right_ids]
        omega
      · have hright' := UInt64.lt_iff_toNat_lt.not.mp hright
        simp only [hleft,hright,if_false,List.append_nil,List.not_mem_nil,false_and,exists_false,false_iff]
        omega

/-- What is left of a range of ids fits the parser, but for the length of its line. -/
theorem leftOver_rereads (hr : r.Rereads) (hzero : ¬ (r.start = 0 ∧ r.count = 0)) {piece : SubordinateRange}
    (h : piece ∈ leftOver start stop r) (hlength : (rangeLine piece).length < 1024) : piece.Rereads := by
  have howner := leftOver_owner h
  have hlast := r.last_toNat
  have hstart := hr.start_lt
  have hcount := hr.count_lt
  have hstop := hr.stop_le
  have hempty : r.count.toNat = 0 → r.start.toNat ≠ 0 := fun hcount hstart =>
    hzero ⟨UInt64.toNat_inj.mp (by simpa using hstart),UInt64.toNat_inj.mp (by simpa using hcount)⟩
  have hfits : piece.Fits := by
    unfold leftOver at h
    split at h
    · rw [List.mem_singleton.mp h]
      exact hr.toFits
    · rename_i houtside
      simp only [Bool.or_eq_true,decide_eq_true_eq,UInt64.lt_iff_toNat_lt,not_or] at houtside
      rcases List.mem_append.mp h with h | h
      · split at h
        · rename_i hleft
          have hdiff := toNat_left_count hleft
          have hleft := UInt64.lt_iff_toNat_lt.mp hleft
          rw [List.mem_singleton.mp h]
          refine ⟨?_,?_,hstart⟩
          · show (start - r.start).toNat < 2^32
            omega
          · show r.start.toNat + (start - r.start).toNat ≤ 2^32
            omega
        · exact absurd h List.not_mem_nil
      · split at h
        · rename_i hright
          obtain ⟨hnext,hdiff⟩ := toNat_right_count hright
          have hright := UInt64.lt_iff_toNat_lt.mp hright
          rw [List.mem_singleton.mp h]
          refine ⟨?_,?_,?_⟩
          · show (r.last - (stop + 1) + 1).toNat < 2^32
            omega
          · show (stop + 1).toNat + (r.last - (stop + 1) + 1).toNat ≤ 2^32
            omega
          · show (stop + 1).toNat < 2^32
            omega
        · exact absurd h List.not_mem_nil
  exact ⟨hfits,howner ▸ hr.owner_ne,howner ▸ hr.owner_colon,hlength⟩

theorem keepRecord_of_not_own {record : Record SubordinateRange} (h : isOwn accounts owner record = false) :
    keepRecord accounts owner start stop record = some record ∧ tailRecord accounts owner start stop record = none := by
  have hskip : skips accounts owner start stop record = true := by
    unfold skips
    unfold isOwn at h
    cases heptr : record.eptr with
    | none => rfl
    | some r =>
      have hother : isSameUser accounts r.owner owner = false := by simpa [heptr] using h
      simp [hother]
  exact ⟨if_pos hskip,if_pos hskip⟩

/-- An entry that is not left alone becomes pieces of its range. -/
theorem removed_piece {record after : Record SubordinateRange} (hskip : skips accounts owner start stop record = false)
    (hafter : keepRecord accounts owner start stop record = some after ∨
      tailRecord accounts owner start stop record = some after) :
    ∃ r piece, record.eptr = some r ∧ Owns accounts owner r ∧ piece ∈ leftOver start stop r ∧
      after.eptr = some piece ∧ after.changed = true := by
  simp only [keepRecord,tailRecord,hskip,Bool.false_eq_true,if_false,Option.bind_eq_some_iff,Option.map_eq_some_iff] at hafter
  have hpiece : ∃ r piece, record.eptr = some r ∧ piece ∈ residue start stop r ∧ after.eptr = some piece ∧
      after.changed = true := by
    rcases hafter with ⟨r,hr,piece,hpiece,rfl⟩ | ⟨r,hr,piece,hpiece,rfl⟩
    · exact ⟨r,piece,hr,mem_residue.mpr (.inl hpiece),rfl,rfl⟩
    · exact ⟨r,piece,hr,mem_residue.mpr (.inr hpiece),rfl,rfl⟩
  obtain ⟨r,piece,hr,hpiece,heptr,hchanged⟩ := hpiece
  simp only [skips,hr,Bool.or_eq_false_iff,Bool.not_eq_false'] at hskip
  refine ⟨r,piece,hr,hskip.1,?_,heptr,hchanged⟩
  rw [leftOver,hskip.2.1,hskip.2.2]
  exact hpiece

/-- What comes of an entry is one of the same user. -/
theorem isOwn_of_removed {record after : Record SubordinateRange} (h : isOwn accounts owner record = true)
    (hafter : keepRecord accounts owner start stop record = some after ∨
      tailRecord accounts owner start stop record = some after) : isOwn accounts owner after = true := by
  cases hskip : skips accounts owner start stop record with
  | true =>
    simp only [keepRecord,tailRecord,hskip,if_true,Option.some.injEq,reduceCtorEq,or_false] at hafter
    exact hafter ▸ h
  | false =>
    obtain ⟨r,piece,_,hown,hpiece,heptr,_⟩ := removed_piece hskip hafter
    rw [isOwn,heptr,Option.any_some,leftOver_owner hpiece]
    exact hown

/-- What the loop appends or edits is a piece of a range of the user. -/
theorem removed_cases {after : Record SubordinateRange} (h : after ∈ removedRecords accounts owner start stop rs) :
    after ∈ rs ∨ ∃ r ∈ entriesOf rs, Owns accounts owner r ∧ after.changed = true ∧
      ∃ piece ∈ leftOver start stop r, after.eptr = some piece := by
  obtain ⟨record,hm,hafter⟩ := mem_removedRecords.mp h
  cases hskip : skips accounts owner start stop record with
  | true =>
    simp only [keepRecord,tailRecord,hskip,if_true,Option.some.injEq,reduceCtorEq,or_false] at hafter
    exact .inl (hafter ▸ hm)
  | false =>
    obtain ⟨r,piece,hr,hown,hpiece,heptr,hchanged⟩ := removed_piece hskip hafter
    exact .inr ⟨r,List.mem_filterMap.mpr ⟨record,hm,hr⟩,hown,hchanged,piece,hpiece,heptr⟩

/-- Each piece of a range of the user that meets the interval will be written. -/
theorem exists_removed (hr : r ∈ entriesOf rs) (hown : Owns accounts owner r)
    (hmeets : (stop < r.start || r.last < start) = false) {piece : SubordinateRange} (hpiece : piece ∈ residue start stop r) :
    ∃ after ∈ removedRecords accounts owner start stop rs, after.changed = true ∧ after.eptr = some piece := by
  obtain ⟨record,hm,heptr⟩ := List.mem_filterMap.mp hr
  have hskip : skips accounts owner start stop record = false := by
    have hsame : isSameUser accounts r.owner owner = true := hown
    simp only [skips,heptr,hsame,hmeets,Bool.not_true,Bool.or_self]
  rcases mem_residue.mp hpiece with h | h
  · refine ⟨editedRecord record.line piece,mem_removedRecords.mpr ⟨record,hm,.inl ?_⟩,rfl,rfl⟩
    simp [keepRecord,hskip,heptr,h]
  · refine ⟨editedRecord none piece,mem_removedRecords.mpr ⟨record,hm,.inr ?_⟩,rfl,rfl⟩
    simp [tailRecord,hskip,heptr,h]

/-- The entries of the others stay, in order. -/
theorem removedRecords_others :
    (removedRecords accounts owner start stop rs).filter (fun record => !isOwn accounts owner record) =
      rs.filter fun record => !isOwn accounts owner record := by
  have htails : (rs.filterMap (tailRecord accounts owner start stop)).filter (fun record => !isOwn accounts owner record) = [] := by
    refine List.filter_eq_nil_iff.mpr fun after hafter => ?_
    obtain ⟨record,_,htail⟩ := List.mem_filterMap.mp hafter
    cases hown : isOwn accounts owner record with
    | true => simp [isOwn_of_removed hown (.inr htail)]
    | false =>
      rw [(keepRecord_of_not_own hown).2] at htail
      cases htail
  rw [removedRecords,List.filter_append,htails,List.append_nil]
  clear htails
  induction rs with
  | nil => rfl
  | cons record rs ih =>
    cases hown : isOwn accounts owner record with
    | false =>
      rw [List.filterMap_cons_some (keepRecord_of_not_own hown).1,List.filter_cons_of_pos (by simp [hown]),
        List.filter_cons_of_pos (by simp [hown]),ih]
    | true =>
      rw [List.filter_cons_of_neg (by simp [hown]),← ih]
      cases hkeep : keepRecord accounts owner start stop record with
      | none => rw [List.filterMap_cons_none hkeep]
      | some after =>
        rw [List.filterMap_cons_some hkeep,List.filter_cons_of_neg (by simp [isOwn_of_removed hown (.inl hkeep)])]

/-- The ids that are left to the user are those outside the interval. -/
theorem removedRecords_ids (hle : start ≤ stop)
    (hranges : ∀ r ∈ entriesOf rs, Owns accounts owner r → r.start.toNat + r.count.toNat ≤ 2^64 ∧ ¬ (r.start = 0 ∧ r.count = 0)) :
    idsOf (Owns accounts owner) (entriesOf (removedRecords accounts owner start stop rs)) =
      idsOf (Owns accounts owner) (entriesOf rs) \ Set.Icc start.toNat stop.toNat := by
  ext id
  constructor
  · rintro ⟨piece,hpiece,hown,hid⟩
    obtain ⟨r,hr,h⟩ := mem_entriesOf_removed.mp hpiece
    split at h
    · rename_i hownr
      obtain ⟨hwrap,hzero⟩ := hranges r hr hownr
      obtain ⟨hmem,hout⟩ := (leftOver_ids hle hwrap hzero).mp ⟨piece,h,hid⟩
      exact ⟨⟨r,hr,hownr,hmem⟩,hout⟩
    · rename_i hnot
      exact absurd (h ▸ hown) hnot
  · rintro ⟨⟨r,hr,hown,hid⟩,hout⟩
    obtain ⟨hwrap,hzero⟩ := hranges r hr hown
    obtain ⟨piece,hpiece,hmem⟩ := (leftOver_ids hle hwrap hzero).mpr ⟨hid,hout⟩
    refine ⟨piece,mem_entriesOf_removed.mpr ⟨r,hr,by rwa [if_pos hown]⟩,?_,hmem⟩
    show isSameUser accounts piece.owner owner = true
    rw [leftOver_owner hpiece]
    exact hown

/-- The empty range at zero counts as the whole word: what is left of it behind the interval is no range of ids. -/
theorem zero_range_residue (hzero : r.start = 0 ∧ r.count = 0) (hstop : stop.toNat < 2^64 - 1) :
    (stop < r.start || r.last < start) = false ∧ ∃ piece ∈ residue start stop r, ¬ piece.Rereads := by
  obtain ⟨hstart,hcount⟩ := hzero
  have hstart : r.start.toNat = 0 := by rw [hstart]; rfl
  have hcount : r.count.toNat = 0 := by rw [hcount]; rfl
  have hlast := r.last_toNat
  have hword := start.toNat_lt
  have hright : stop < r.last := by
    rw [UInt64.lt_iff_toNat_lt]
    omega
  obtain ⟨hnext,hleft⟩ := toNat_right_count hright
  constructor
  · simp only [Bool.or_eq_false_iff,decide_eq_false_iff_not,UInt64.lt_iff_toNat_lt]
    omega
  · refine ⟨{ r with start := stop + 1, count := r.last - (stop + 1) + 1 },by simp [residue,hright],fun hrereads => ?_⟩
    have hend : (stop + 1).toNat + (r.last - (stop + 1) + 1).toNat ≤ 2^32 := hrereads.stop_le
    omega

/-- The records of an interval that is removed, from entries that were read or will be read back. -/
theorem removesExactly_iff (hread : ∀ r ∈ entriesOf rs, r.Rereads)
    (hchanged : ∀ record ∈ rs, record.changed = true → record.eptr.isSome) {count : UInt64} (hcount : count ≠ 0)
    (hdomain : start.toNat + count.toNat < 2^64) :
    RemovesExactly accounts owner start.toNat count.toNat rs (removedRecords accounts owner start (start + count - 1) rs) ↔
      LeavesReadable accounts owner start count rs := by
  have hpos : 0 < count.toNat := by
    by_contra h
    exact hcount (UInt64.toNat_inj.mp (by simpa using h))
  have hlast : (start + count - 1).toNat = start.toNat + count.toNat - 1 :=
    SubordinateRange.last_of_pos (r := ⟨owner,start,count⟩) hpos (show start.toNat + count.toNat ≤ 2^64 by omega)
  have hle : start ≤ start + count - 1 := by
    rw [UInt64.le_iff_toNat_le]
    omega
  have hinterval : Set.Ico start.toNat (start.toNat + count.toNat) = Set.Icc start.toNat (start + count - 1).toNat := by
    ext id
    rw [Set.mem_Ico,Set.mem_Icc,hlast]
    omega
  constructor
  · intro h
    have hpieces : ∀ r ∈ entriesOf rs, Owns accounts owner r → (start + count - 1 < r.start || r.last < start) = false →
        ∀ piece ∈ residue start (start + count - 1) r, piece.Rereads := fun r hr hown hmeets piece hpiece => by
      obtain ⟨after,hafter,hch,heptr⟩ := exists_removed hr hown hmeets hpiece
      obtain ⟨r',hr',hparse⟩ := h.written after hafter hch
      cases heptr.symm.trans hr'
      exact subordinateParse_rangeLine.mp hparse
    refine .inr fun r hr hown => ⟨fun hzero => ?_,fun piece hpiece => ?_⟩
    · obtain ⟨hmeets,piece,hpiece,hnot⟩ : (start + count - 1 < r.start || r.last < start) = false ∧
          ∃ piece ∈ residue start (start + count - 1) r, ¬ piece.Rereads :=
        zero_range_residue hzero (show _ < 2^64 - 1 by rw [hlast]; omega)
      exact hnot (hpieces r hr hown hmeets piece hpiece)
    · cases hmeets : decide (start + count - 1 < r.start) || decide (r.last < start) with
      | true =>
        rw [leftOver,hmeets,if_pos rfl] at hpiece
        rw [List.mem_singleton.mp hpiece]
        exact (hread r hr).length_lt
      | false =>
        rw [leftOver,hmeets,if_neg Bool.false_ne_true] at hpiece
        exact (hpieces r hr hown hmeets piece hpiece).length_lt
  · intro h
    have hranges := h.resolve_left hcount
    refine ⟨?_,removedRecords_others,fun record hrecord hch => ?_⟩
    · rw [hinterval]
      refine removedRecords_ids hle fun r hr hown => ⟨?_,(hranges r hr hown).1⟩
      have hstop := (hread r hr).stop_le
      omega
    · rcases removed_cases hrecord with hrecord | ⟨r,hr,hown,_,piece,hpiece,heptr⟩
      · obtain ⟨r,hr⟩ := Option.isSome_iff_exists.mp (hchanged record hrecord hch)
        exact ⟨r,hr,subordinateParse_rangeLine.mpr (hread r (List.mem_filterMap.mpr ⟨record,hrecord,hr⟩))⟩
      · obtain ⟨hzero,hlengths⟩ := hranges r hr hown
        exact ⟨piece,heptr,subordinateParse_rangeLine.mpr (leftOver_rereads (hread r hr) hzero hpiece (hlengths piece hpiece))⟩

/-- Removing nothing changes nothing. -/
theorem removesExactly_zero (hchanged : ∀ record ∈ rs, record.changed = false) (n : Nat) :
    RemovesExactly accounts owner n 0 rs rs := by
  refine ⟨by simp,rfl,fun record hrecord hch => ?_⟩
  rw [hchanged record hrecord] at hch
  cases hch

/-- On an opened file, for the intervals that the programs pass, a removal that succeeds takes exactly
the ids of the interval from the user where none of the user's ranges is the empty one at zero and
what is left of each still fits the parser, and only there. -/
theorem subUidRemove_exact_iff (accounts : Accounts) (nss : Bool) (memory : Nat → Bool) {db₀ : Db SubordinateRange}
    {access : AccessMode} {create opened : Bool} {file : Option Bytes}
    (hopen : commonioOpen subordinateOps db₀ access create (fileState file) opened = (true,db)) (owner : Bytes)
    (start : UInt32) (count : UInt64)
    (hcount : start.toNat + count.toNat ≤ 2^32 ∨ start = 0 ∧ count = 18446744073709551615) :
    ∃ records ok db', readFile subordinateOps file = some records ∧
      subUidRemove accounts nss memory db owner start count = some (ok,db') ∧
      (ok = true → ∃ after, db'.Holds after ∧
        (RemovesExactly accounts owner start.toNat count.toNat records after ↔
          LeavesReadable accounts owner start.toUInt64 count records)) := by
  obtain ⟨l,stale,hread,hloaded,hisopen,hstale⟩ := commonioOpen_loaded (namesParts_of_no_hook rfl) hopen
  obtain rfl := hstale rfl
  have hrep := hloaded.rep
  have hisread := readFile_isRead (namesParts_of_no_hook rfl) hread
  have hunchanged : ∀ record ∈ l.map db.record, record.changed = false := fun record hm => (hisread record hm).2
  have hranges : ∀ r ∈ entriesOf (l.map db.record), r.Rereads := fun r hr => by
    have hfile : fileRanges file = some (entriesOf (l.map db.record)) := by rw [fileRanges,hread]; rfl
    exact (fileRanges_text hfile r hr).toRereads
  have hdomain : start.toNat + count.toNat < 2^64 := by
    rcases hcount with hcount | ⟨rfl,rfl⟩
    · omega
    · decide
  unfold subUidRemove
  cases nss with
  | true => exact ⟨_,false,db,hread,rfl,(by intros; contradiction)⟩
  | false =>
    rw [if_neg Bool.false_ne_true]
    by_cases hzero : count = 0
    · subst hzero
      refine ⟨_,true,db,hread,if_pos rfl,fun _ => ⟨_,⟨l,false,hrep,rfl⟩,fun _ => .inl rfl,fun _ => ?_⟩⟩
      exact removesExactly_zero hunchanged start.toNat
    · obtain ⟨ok,db',hrun,hspec⟩ := removeRange_spec accounts memory hrep owner start.toUInt64 hzero
      refine ⟨_,ok,db',hread,hrun,fun hok => ?_⟩
      obtain ⟨l',hrep',hmap,_⟩ := hspec hok
      refine ⟨_,⟨l',false,hrep',rfl⟩,?_⟩
      have hstart : start.toUInt64.toNat = start.toNat := UInt32.toNat_toUInt64 start
      rw [hmap,← hstart]
      refine removesExactly_iff hranges (fun record hm hch => ?_) hzero (by rwa [hstart])
      rw [hunchanged record hm] at hch
      cases hch

def openedForRemoval (file : Bytes) : Db SubordinateRange :=
  (commonioOpen subordinateOps { closedRanges with locked := true } .rdwr false (fileState (some file)) true).2

/-- The ranges of a database, unparsed entries apart, as its links show them. -/
def Db.ranges (db : Db SubordinateRange) : List SubordinateRange := (db.from db.head).filterMap fun p => (db.entries p).eptr

theorem entriesOf_of_holds (h : db.Holds rs) : entriesOf rs = Db.ranges db := by
  obtain ⟨l,stale,hrep,rfl⟩ := h
  rw [Db.ranges,hrep.from_head]
  exact entriesOf_map db l

/-- The middle of a range that another name of the user owns: a new entry is appended. -/
theorem subUidRemove_exact_middle : ∃ after db', db'.Holds after ∧
    subUidRemove twoNames false (fun _ => true) (openedForRemoval (ascii "v:100:50\nw:100:9\n")) (ascii "u") 110 10 =
      some (true,db') ∧
    entriesOf after = [⟨ascii "v",100,10⟩,⟨ascii "w",100,9⟩,⟨ascii "v",120,30⟩] ∧
    RemovesExactly twoNames (ascii "u") 110 10
      [⟨some (ascii "v:100:50"),some ⟨ascii "v",100,50⟩,false⟩,⟨some (ascii "w:100:9"),some ⟨ascii "w",100,9⟩,false⟩] after := by
  have hopen : commonioOpen subordinateOps { closedRanges with locked := true } .rdwr false
      (fileState (some (ascii "v:100:50\nw:100:9\n"))) true = (true,openedForRemoval (ascii "v:100:50\nw:100:9\n")) := rfl
  obtain ⟨records,ok,db',hread,hrun,hspec⟩ :=
    subUidRemove_exact_iff twoNames false (fun _ => true) hopen (ascii "u") 110 10 (.inl (by decide))
  have hrecords : (readFile subordinateOps (some (ascii "v:100:50\nw:100:9\n"))) = some
      [⟨some (ascii "v:100:50"),some ⟨ascii "v",100,50⟩,false⟩,⟨some (ascii "w:100:9"),some ⟨ascii "w",100,9⟩,false⟩] := rfl
  obtain rfl := Option.some.inj (hread.symm.trans hrecords)
  have hresult : (subUidRemove twoNames false (fun _ => true) (openedForRemoval (ascii "v:100:50\nw:100:9\n")) (ascii "u")
      110 10).map (fun result => (result.1,Db.ranges result.2)) =
        some (true,[⟨ascii "v",100,10⟩,⟨ascii "w",100,9⟩,⟨ascii "v",120,30⟩]) := by decide +kernel
  rw [hrun,Option.map_some,Option.some.injEq,Prod.mk.injEq] at hresult
  obtain ⟨rfl,hranges⟩ := hresult
  obtain ⟨after,hholds,hiff⟩ := hspec rfl
  exact ⟨after,db',hholds,hrun,(entriesOf_of_holds hholds).trans hranges,hiff.mpr (by decide +kernel)⟩

/-- The empty range at zero of a user from whom the id zero is removed: the rest of the word is
the user's, in a line that is not read back. -/
theorem zero_range_becomes_huge : ∃ after db', db'.Holds after ∧
    subUidRemove twoNames false (fun _ => true) (openedForRemoval (ascii "u:0:0\n")) (ascii "u") 0 1 = some (true,db') ∧
    ¬ RemovesExactly twoNames (ascii "u") 0 1 [⟨some (ascii "u:0:0"),some ⟨ascii "u",0,0⟩,false⟩] after := by
  have hopen : commonioOpen subordinateOps { closedRanges with locked := true } .rdwr false
      (fileState (some (ascii "u:0:0\n"))) true = (true,openedForRemoval (ascii "u:0:0\n")) := rfl
  obtain ⟨l,hrep,_,_⟩ := commonioOpen_ranges hopen
  obtain ⟨ok,db',hrun,hspec⟩ := removeRange_spec twoNames (fun _ => true) hrep (ascii "u") 0 (show (1 : UInt64) ≠ 0 by decide)
  have hrun : subUidRemove twoNames false (fun _ => true) (openedForRemoval (ascii "u:0:0\n")) (ascii "u") 0 1 =
      some (ok,db') := hrun
  have hresult : (subUidRemove twoNames false (fun _ => true) (openedForRemoval (ascii "u:0:0\n")) (ascii "u") 0 1).map
      (fun result => (result.1,Db.ranges result.2)) = some (true,[⟨ascii "u",1,18446744073709551615⟩]) := by decide +kernel
  rw [hrun,Option.map_some,Option.some.injEq,Prod.mk.injEq] at hresult
  obtain ⟨rfl,hranges⟩ := hresult
  obtain ⟨l',hrep',_⟩ := hspec rfl
  have hholds : db'.Holds (l'.map db'.record) := ⟨l',false,hrep',rfl⟩
  refine ⟨_,db',hholds,hrun,fun h => ?_⟩
  have hone : 1 ∈ idsOf (Owns twoNames (ascii "u")) (entriesOf (l'.map db'.record)) := by
    rw [entriesOf_of_holds hholds,hranges]
    exact ⟨_,List.mem_singleton_self _,by decide +kernel,show 1 ≤ 1 ∧ 1 < 1 + 18446744073709551615 by omega⟩
  rw [h.ids] at hone
  obtain ⟨⟨r,hr,_,hid⟩,_⟩ := hone
  rw [List.mem_singleton.mp hr] at hid
  exact absurd hid (show ¬ (0 ≤ 1 ∧ 1 < 0 + 0) by omega)

end UserDb.Subid
