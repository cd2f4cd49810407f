import UserDb.Subid.Lookup
import UserDb.Commonio.Order

/-! The search for a free block of ids: the ranges are sorted, and one pass over them keeps the end
of the highest range so far. -/
namespace UserDb.Subid
open UserDb.Base UserDb.Commonio

/-- The order of the library for strings, byte by byte. -/
def strcmp : Bytes → Bytes → Int
  | [], [] => 0
  | [], _ :: _ => -1
  | _ :: _, [] => 1
  | a :: s, b :: t => if a < b then -1 else if b < a then 1 else strcmp s t

/-- An entry that did not parse is above every other one. -/
def subordinateRangeCmp (e₁ e₂ : Entry SubordinateRange) : Int :=
  match e₁.eptr with
  | none => 1
  | some r₁ =>
    match e₂.eptr with
    | none => -1
    | some r₂ =>
      if r₁.start < r₂.start then -1
      else if r₂.start < r₁.start then 1
      else if r₁.count < r₂.count then -1
      else if r₂.count < r₁.count then 1
      else strcmp r₁.owner r₂.owner

/-- The id that stands for none. -/
def noId : UInt32 := 4294967295

/-- An unsigned word that is stored in a signed one. -/
def signed (n : UInt64) : Int := if n.toNat < 2^63 then n.toNat else n.toNat - 2^64

/-- One range of the scan: `low` is the end of what is taken so far. -/
def scanRange (max : UInt32) (n low : Int) (r : SubordinateRange) : Except UInt32 Int :=
  if r.count = 0 then .ok low
  else
    let first := signed r.start
    let last := signed (r.start - 1 + r.count)
    let high : Int := if first > max.toNat + 1 then max.toNat + 1 else first
    if high > low ∧ high - low ≥ n then .error (UInt32.ofInt low)
    else
      let low := if low < last + 1 then last + 1 else low
      if low > max.toNat then .error noId else .ok low

/-- The lowest free block of an open database. It does not ask whether the sort had its memory. -/
def findFreeRange (qsort : Qsort) (db : Db SubordinateRange) (min max : UInt32) (count : UInt64) (memory : Bool) :
    UInt32 × Db SubordinateRange :=
  let n := signed count
  if n = 0 ∨ max < min ∨ n > (max - min).toNat + 1 then (noId,db)
  else
    let db := (commonioSort qsort subordinateRangeCmp db memory).2
    match forEachEntry (scanRange max n) (min.toNat : Int) db with
    | (.error id,db) => (id,db)
    | (.ok low,db) => (if max.toNat - low ≥ n - 1 then UInt32.ofInt low else noId,db)

/-- A block of ids within the bounds that no range meets. -/
structure IsFreeBlock (rs : List SubordinateRange) (min max n block : Nat) : Prop where
  min_le : min ≤ block
  le_max : block + n - 1 ≤ max
  free : ∀ r ∈ rs, Disjoint r.ids (Set.Ico block (block + n))

theorem signed_of_lt {n : UInt64} (h : n.toNat < 2^63) : signed n = n.toNat := if_pos h

variable {rs done : List SubordinateRange} {r : SubordinateRange} {min max : UInt32} {n : Nat} {low : Int}

theorem IsFreeBlock.of_append {lo hi block : Nat} (h : IsFreeBlock (done ++ rs) lo hi n block) :
    IsFreeBlock done lo hi n block :=
  ⟨h.min_le,h.le_max,fun r hr => h.free r (List.mem_append_left rs hr)⟩

/-- The scan after the ranges `done`: they end below `low`, and no block starts below it. -/
structure Scanned (min max : UInt32) (n : Nat) (done : List SubordinateRange) (low : Int) : Prop where
  min_le : (min.toNat : Int) ≤ low
  le_max : low ≤ max.toNat
  below : ∀ r ∈ done, ∀ id ∈ r.ids, (id : Int) < low
  tight : ∀ block : Nat, block < low → ¬ IsFreeBlock done min.toNat max.toNat n block

/-- The lowest free block of all ranges, or none. -/
def IsLowest (rs : List SubordinateRange) (min max : UInt32) (n : Nat) (result : UInt32) : Prop :=
  (result = noId ∧ ∀ block, ¬ IsFreeBlock rs min.toNat max.toNat n block) ∨
    (IsFreeBlock rs min.toNat max.toNat n result.toNat ∧
      ∀ block < result.toNat, ¬ IsFreeBlock rs min.toNat max.toNat n block)

private theorem ofInt_low (hmin : 0 ≤ low) (hmax : low ≤ max.toNat) : ((UInt32.ofInt low).toNat : Int) = low := by
  have hlt := max.toNat_lt
  rw [UInt32.ofInt,UInt32.toNat_ofNat']
  omega

/-- A block at the end of what was scanned, which the ranges to come do not reach. -/
theorem Scanned.isLowest (h : Scanned min max n done low) (hstop : low + n - 1 ≤ max.toNat)
    (hrest : ∀ r ∈ rs, ∀ id ∈ r.ids, low + n ≤ id) : IsLowest (done ++ rs) min max n (UInt32.ofInt low) := by
  have hlow := ofInt_low (le_trans (Int.natCast_nonneg _) h.min_le) h.le_max
  have hmin := h.min_le
  refine .inr ⟨⟨by omega,by omega,fun r hr => Set.disjoint_left.mpr fun id hid hblock => ?_⟩,fun block hblock hfree => ?_⟩
  · obtain ⟨hge,hlt⟩ := Set.mem_Ico.mp hblock
    rcases List.mem_append.mp hr with hr | hr
    · have hbelow := h.below r hr id hid
      omega
    · have habove := hrest r hr id hid
      omega
  · exact h.tight block (by omega) hfree.of_append

/-- No block is left where the next one would end above the bound. -/
theorem Scanned.isLowest_none (h : Scanned min max n done low) (hstop : max.toNat < low + n - 1) :
    IsLowest done min max n noId := by
  refine .inl ⟨rfl,fun block hfree => ?_⟩
  have hle := hfree.le_max
  exact h.tight block (by omega) hfree

theorem Scanned.skip (h : Scanned min max n done low) (hcount : r.count.toNat = 0) : Scanned min max n (done ++ [r]) low := by
  refine ⟨h.min_le,h.le_max,fun r' hr id hid => ?_,fun block hblock hfree => h.tight block hblock hfree.of_append⟩
  rcases List.mem_append.mp hr with hr | hr
  · exact h.below r' hr id hid
  · rw [List.mem_singleton.mp hr,SubordinateRange.ids_of_count_zero hcount] at hid
    exact absurd hid (Set.notMem_empty _)

/-- A block that starts in front of the end of a range meets it, or the hole is large enough. -/
theorem tight_step (h : Scanned min max n done low) (hn : 0 < n) (hcount : 0 < r.count.toNat) {block : Nat}
    (hhole : ¬ (low + n ≤ r.start.toNat ∧ low + n ≤ max.toNat + 1)) (hblock : (block : Int) < r.start.toNat + r.count.toNat) :
    ¬ IsFreeBlock (done ++ [r]) min.toNat max.toNat n block := by
  intro hfree
  have hle := hfree.le_max
  by_cases hlow : (block : Int) < low
  · exact h.tight block hlow hfree.of_append
  · have hmeets := Set.disjoint_left.mp (hfree.free r (by simp))
    rcases Nat.lt_or_ge block r.start.toNat with hlt | hge
    · exact @hmeets r.start.toNat ⟨le_rfl,by omega⟩ ⟨by omega,by omega⟩
    · exact @hmeets block ⟨hge,by omega⟩ ⟨le_rfl,by omega⟩

/-- One range of the scan, in front of the ranges that start no lower. -/
theorem scanRange_spec (h : Scanned min max n done low) (hn : 0 < n) (hfits : r.Fits)
    (hrest : ∀ r' ∈ rs, r.start ≤ r'.start) :
    (∃ low', scanRange max n low r = .ok low' ∧ Scanned min max n (done ++ [r]) low') ∨
      ∃ result, scanRange max n low r = .error result ∧ IsLowest (done ++ r :: rs) min max n result := by
  unfold scanRange
  by_cases hzero : r.count = 0
  · rw [if_pos hzero]
    exact .inl ⟨low,rfl,h.skip (by rw [hzero]; rfl)⟩
  · rw [if_neg hzero]
    have hpos : 0 < r.count.toNat := by
      by_contra hcount
      exact hzero (UInt64.toNat_inj.mp (by simpa using hcount))
    have hmin := h.min_le
    have hmax := h.le_max
    have hstop := hfits.stop_le
    have hword := max.toNat_lt
    have hfirst : signed r.start = r.start.toNat := signed_of_lt (by have := hfits.start_lt; omega)
    have hend : (r.start - 1 + r.count).toNat = r.start.toNat + r.count.toNat - 1 := by
      rw [UInt64.toNat_add,UInt64.toNat_sub,show (1 : UInt64).toNat = 1 from rfl]
      omega
    have hlast : signed (r.start - 1 + r.count) = r.start.toNat + r.count.toNat - 1 := by
      rw [signed_of_lt (by omega),hend]
      omega
    simp only [hfirst,hlast]
    by_cases hhole : low + n ≤ r.start.toNat ∧ low + n ≤ max.toNat + 1
    · right
      rw [if_pos (by split <;> omega)]
      refine ⟨_,rfl,h.isLowest (by omega) fun r' hr id hid => ?_⟩
      have hge : r'.start.toNat ≤ id := hid.1
      rcases List.mem_cons.mp hr with rfl | hr
      · omega
      · have hstart := UInt64.le_iff_toNat_le.mp (hrest r' hr)
        omega
    · rw [if_neg (by split <;> omega)]
      have hlow : (if low < (r.start.toNat + r.count.toNat - 1 + 1 : Int) then (r.start.toNat + r.count.toNat - 1 + 1 : Int)
          else low) = Max.max low (r.start.toNat + r.count.toNat) := by
        split <;> omega
      rw [hlow]
      have htight : ∀ block : Nat, block < Max.max low (r.start.toNat + r.count.toNat : Int) →
          ¬ IsFreeBlock (done ++ [r]) min.toNat max.toNat n block := by
        intro block hblock
        rcases lt_max_iff.mp hblock with hblock | hblock
        · exact fun hfree => h.tight block hblock hfree.of_append
        · exact tight_step h hn hpos hhole hblock
      by_cases hfull : Max.max low (r.start.toNat + r.count.toNat : Int) > max.toNat
      · right
        rw [if_pos hfull]
        refine ⟨noId,rfl,.inl ⟨rfl,fun block hfree => ?_⟩⟩
        have hle := hfree.le_max
        have hsub : done ++ r :: rs = (done ++ [r]) ++ rs := by simp
        rw [hsub] at hfree
        exact htight block (by omega) hfree.of_append
      · left
        rw [if_neg hfull]
        refine ⟨_,rfl,by omega,by omega,fun r' hr id hid => ?_,htight⟩
        rcases List.mem_append.mp hr with hr | hr
        · have hbelow := h.below r' hr id hid
          omega
        · rw [List.mem_singleton.mp hr] at hid
          have hlt : id < r.start.toNat + r.count.toNat := hid.2
          omega

/-- The scan of sorted ranges finds the lowest free block. -/
theorem scan_spec (h : Scanned min max n done low) (hn : 0 < n) (hfits : ∀ r ∈ rs, r.Fits)
    (hsorted : rs.Pairwise fun r r' => r.start ≤ r'.start) :
    (∃ low', rs.foldlM (scanRange max n) low = .ok low' ∧ Scanned min max n (done ++ rs) low') ∨
      ∃ result, rs.foldlM (scanRange max n) low = .error result ∧ IsLowest (done ++ rs) min max n result := by
  induction rs generalizing done low with
  | nil =>
    rw [List.append_nil]
    exact .inl ⟨low,rfl,h⟩
  | cons r rs ih =>
    obtain ⟨hr,hrs⟩ := List.pairwise_cons.mp hsorted
    obtain ⟨hfit,hfits⟩ := List.forall_mem_cons.mp hfits
    rw [List.foldlM_cons]
    rcases scanRange_spec h hn hfit hr with ⟨low',heq,h'⟩ | ⟨result,heq,hlowest⟩
    · rw [heq]
      have hsub : done ++ r :: rs = (done ++ [r]) ++ rs := by simp
      rw [hsub]
      exact ih h' hfits hrs
    · rw [heq]
      exact .inr ⟨result,rfl,hlowest⟩

/-- What a library sort leaves: nothing stands in front of an entry that the comparison, which is
no order of unparsed entries, puts below it. -/
def SortedBy {β : Type} (cmp : β → β → Int) (l : List β) : Prop := l.Pairwise fun a b => cmp a b ≤ 0 ∨ 0 < cmp b a

instance {β : Type} (cmp : β → β → Int) (l : List β) : Decidable (SortedBy cmp l) :=
  inferInstanceAs (Decidable (l.Pairwise _))

private theorem start_le_of_cmp {e₁ e₂ : Entry SubordinateRange} {r₁ r₂ : SubordinateRange} (h₁ : e₁.eptr = some r₁)
    (h₂ : e₂.eptr = some r₂) (h : subordinateRangeCmp e₁ e₂ ≤ 0 ∨ 0 < subordinateRangeCmp e₂ e₁) : r₁.start ≤ r₂.start := by
  by_contra hlt
  have hlt := UInt64.not_le.mp hlt
  have hnot := UInt64.lt_asymm hlt
  rcases h with h | h
  · simp [subordinateRangeCmp,h₁,h₂,hlt,hnot] at h
  · simp [subordinateRangeCmp,h₁,h₂,hlt] at h

/-- Sorted entries have sorted ranges, wherever the unparsed ones stand. -/
theorem entriesOf_sorted {db : Db SubordinateRange} {l : List Nat}
    (h : SortedBy (fun p q => subordinateRangeCmp (db.entries p) (db.entries q)) l) :
    (entriesOf (l.map db.record)).Pairwise fun r r' => r.start ≤ r'.start := by
  rw [entriesOf_map,List.pairwise_filterMap]
  exact h.imp fun {p q} hcmp r hr r' hr' => start_le_of_cmp hr hr' hcmp

/-- On entries whose lines are not NIS lines, with a sort that succeeds, the result is the lowest
free block, and there is none where the result is no id. -/
theorem findFreeRange_lowest (qsort : Qsort) {db : Db SubordinateRange} {l : List Nat} (hrep : Rep db l false)
    (hopen : db.isopen = true) (hlines : ∀ p ∈ l, db.isSortable p = true)
    (hfits : ∀ r ∈ entriesOf (l.map db.record), r.Fits) (min max : UInt32) {count : UInt64} (hpos : 0 < count.toNat)
    (hcount : count.toNat < 2^63) {memory : Bool} (hsort : (commonioSort qsort subordinateRangeCmp db memory).1 = true)
    (hsorted : SortedBy (fun p q => subordinateRangeCmp (db.entries p) (db.entries q))
      (qsort.run (fun p q => subordinateRangeCmp (db.entries p) (db.entries q)) l)) :
    ((findFreeRange qsort db min max count memory).1 ≠ noId →
      IsFreeBlock (entriesOf (l.map db.record)) min.toNat max.toNat count.toNat
        (findFreeRange qsort db min max count memory).1.toNat ∧
      ∀ block < (findFreeRange qsort db min max count memory).1.toNat,
        ¬ IsFreeBlock (entriesOf (l.map db.record)) min.toNat max.toNat count.toNat block) ∧
    ((findFreeRange qsort db min max count memory).1 = noId →
      ∀ block < 2^32 - 1, ¬ IsFreeBlock (entriesOf (l.map db.record)) min.toNat max.toNat count.toNat block) := by
  have hlowest : IsLowest (entriesOf (l.map db.record)) min max count.toNat
      (findFreeRange qsort db min max count memory).1 := by
    have hn : signed count = count.toNat := signed_of_lt hcount
    have hword := max.toNat_lt
    unfold findFreeRange
    simp only [hn]
    by_cases hguard : (count.toNat : Int) = 0 ∨ max < min ∨ (count.toNat : Int) > (max - min).toNat + 1
    · rw [if_pos hguard]
      refine .inl ⟨rfl,fun block hfree => ?_⟩
      have hmin := hfree.min_le
      have hmax := hfree.le_max
      rw [UInt32.lt_iff_toNat_lt,UInt32.toNat_sub] at hguard
      have hminword := min.toNat_lt
      omega
    · rw [if_neg hguard]
      obtain ⟨l',hrep',hperm,hrun,hrecord,hisopen⟩ := hrep.commonioSort_all qsort subordinateRangeCmp hlines hsort
      have hsorted' : (entriesOf (l'.map db.record)).Pairwise fun r r' => r.start ≤ r'.start := by
        rcases hrun with hlen | rfl
        · have hshort : (entriesOf (l'.map db.record)).length ≤ 1 := by
            refine (List.length_filterMap_le _ _).trans ?_
            rw [List.length_map,hperm.length_eq]
            exact hlen
          rcases hcases : entriesOf (l'.map db.record) with _ | ⟨r,_ | ⟨r',rs⟩⟩
          · exact List.Pairwise.nil
          · exact List.pairwise_singleton _ r
          · rw [hcases] at hshort
            simp at hshort
        · exact entriesOf_sorted hsorted
      have hentries : (entriesOf (l'.map db.record)).Perm (entriesOf (l.map db.record)) := (hperm.map _).filterMap _
      obtain ⟨hloop,_⟩ := forEachEntry_eq (scanRange max count.toNat) (min.toNat : Int) hrep' (hisopen.trans hopen)
      rw [hrecord] at hloop
      have hfits' : ∀ r ∈ entriesOf (l'.map db.record), r.Fits := fun r hr => hfits r (hentries.mem_iff.mp hr)
      have hfree : ∀ block, IsFreeBlock (entriesOf (l'.map db.record)) min.toNat max.toNat count.toNat block ↔
          IsFreeBlock (entriesOf (l.map db.record)) min.toNat max.toNat count.toNat block := fun block =>
        ⟨fun h => ⟨h.min_le,h.le_max,fun r hr => h.free r (hentries.mem_iff.mpr hr)⟩,
          fun h => ⟨h.min_le,h.le_max,fun r hr => h.free r (hentries.mem_iff.mp hr)⟩⟩
      have hlowest : ∀ result, IsLowest (entriesOf (l'.map db.record)) min max count.toNat result →
          IsLowest (entriesOf (l.map db.record)) min max count.toNat result := fun result h => by
        simpa only [IsLowest,hfree] using h
      have hstart : Scanned min max count.toNat [] min.toNat := by
        rw [UInt32.lt_iff_toNat_lt] at hguard
        exact ⟨le_rfl,by omega,nofun,fun block hblock hfree => by have := hfree.min_le; omega⟩
      rcases hres : forEachEntry (scanRange max count.toNat) (min.toNat : Int)
        (commonioSort qsort subordinateRangeCmp db memory).2 with ⟨result,db'⟩
      rw [hres] at hloop
      obtain rfl : result = _ := hloop
      rcases scan_spec hstart hpos hfits' hsorted' with ⟨low,heq,hscanned⟩ | ⟨result,heq,hresult⟩
      · rw [List.nil_append] at hscanned
        simp only [heq]
        by_cases hroom : (max.toNat : Int) - low ≥ count.toNat - 1
        · rw [if_pos hroom]
          have hnil := hscanned.isLowest (by omega)
            (nofun : ∀ r ∈ ([] : List SubordinateRange), ∀ id ∈ r.ids, low + count.toNat ≤ id)
          rw [List.append_nil] at hnil
          exact hlowest _ hnil
        · rw [if_neg hroom]
          exact hlowest _ (hscanned.isLowest_none (by omega))
      · rw [List.nil_append] at hresult
        simp only [heq]
        exact hlowest _ hresult
  rcases hlowest with ⟨heq,hnone⟩ | ⟨hfree,hleast⟩
  · exact ⟨fun hne => absurd heq hne,fun _ block _ => hnone block⟩
  · refine ⟨fun _ => ⟨hfree,hleast⟩,fun heq block hblock => hleast block ?_⟩
    rw [heq]
    exact hblock

def scatteredFile : Bytes := ascii "a:200:100\nbad\nb:120:0\nc:150:100\n"

def scatteredRanges : Db SubordinateRange :=
  (commonioOpen subordinateOps closedRanges .rdonly false (fileState (some scatteredFile)) true).2

theorem findFreeRange_lowest_scattered :
    (findFreeRange insertionSort scatteredRanges 100 400 60 true).1 = 300 ∧
      ∀ block < 300, ¬ IsFreeBlock [⟨ascii "a",200,100⟩,⟨ascii "b",120,0⟩,⟨ascii "c",150,100⟩] 100 400 60 block := by
  have hresult : (findFreeRange insertionSort scatteredRanges 100 400 60 true).1 = 300 := by decide +kernel
  have hopened : commonioOpen subordinateOps closedRanges .rdonly false (fileState (some scatteredFile)) true =
      (true,scatteredRanges) := rfl
  obtain ⟨l,hrep,hopen,hranges⟩ := commonioOpen_ranges hopened
  have hl : l = [0,1,2,3] := by
    rw [← hrep.from_head]
    decide +kernel
  subst hl
  have hentries : entriesOf ([0,1,2,3].map scatteredRanges.record) =
      [⟨ascii "a",200,100⟩,⟨ascii "b",120,0⟩,⟨ascii "c",150,100⟩] := by decide +kernel
  have hfits : ∀ r ∈ entriesOf ([0,1,2,3].map scatteredRanges.record), r.Fits := fun r hr =>
    (fileRanges_text hranges r hr).toFits
  have hsort : (commonioSort insertionSort subordinateRangeCmp scatteredRanges true).1 = true := by decide +kernel
  obtain ⟨hfound,_⟩ := findFreeRange_lowest insertionSort hrep hopen (by decide +kernel) hfits 100 400
    (show 0 < (60 : UInt64).toNat by decide) (by decide) hsort (by decide +kernel)
  rw [hresult,hentries] at hfound
  exact ⟨hresult,(hfound (by decide)).2⟩

section Sorting

private theorem strcmp_cons (a b : UInt8) (s t : Bytes) :
    strcmp (a :: s) (b :: t) = if a.toNat < b.toNat then -1 else if b.toNat < a.toNat then 1 else strcmp s t := by
  simp only [strcmp,UInt8.lt_iff_toNat_lt]

private theorem strcmp_comparison : Comparison strcmp where
  opposite s := by
    induction s with
    | nil => intro t; cases t <;> simp [strcmp]
    | cons a s ih =>
      intro t
      cases t with
      | nil => simp [strcmp]
      | cons b t =>
        rw [strcmp_cons,strcmp_cons]
        rcases lt_trichotomy a.toNat b.toNat with hlt | heq | hlt
        · simp [hlt,not_lt_of_gt hlt]
        · simpa [heq] using ih t
        · simp [hlt,not_lt_of_gt hlt]
  trans s := by
    induction s with
    | nil => intro t u _ _; cases u <;> simp [strcmp]
    | cons a s ih =>
      intro t u hst htu
      cases t with
      | nil => simp [strcmp] at hst
      | cons b t =>
        cases u with
        | nil => simp [strcmp] at htu
        | cons d u =>
          rw [strcmp_cons] at hst htu ⊢
          rcases lt_trichotomy a.toNat b.toNat with hab | hab | hab
          · rcases lt_trichotomy b.toNat d.toNat with hbd | hbd | hbd
            · simp [hab.trans hbd]
            · simp [hbd ▸ hab]
            · simp [hbd,not_lt_of_gt hbd] at htu
          · rw [hab] at hst ⊢
            rcases lt_trichotomy b.toNat d.toNat with hbd | hbd | hbd
            · simp [hbd]
            · rw [hbd] at hst htu ⊢
              simp only [lt_irrefl,if_false] at hst htu ⊢
              exact ih t u hst htu
            · simp [hbd,not_lt_of_gt hbd] at htu
          · simp [hab,not_lt_of_gt hab] at hst

/-- By the first id, then by the number of ids and then by the owner. -/
def compareRanges : SubordinateRange → SubordinateRange → Int :=
  thenBy (byKey fun r => r.start.toNat) (thenBy (byKey fun r => r.count.toNat) fun r₁ r₂ => strcmp r₁.owner r₂.owner)

theorem compareRanges_comparison : Comparison compareRanges :=
  (Comparison.byKey _).thenBy ((Comparison.byKey _).thenBy (strcmp_comparison.onImage _))

theorem subordinateRangeCmp_eq : subordinateRangeCmp = nullLast compareRanges := by
  funext e₁ e₂
  unfold subordinateRangeCmp nullLast
  cases e₁.eptr with
  | none => rfl
  | some r₁ =>
    cases e₂.eptr with
    | none => rfl
    | some r₂ =>
      simp only [compareRanges,thenBy,byKey,UInt64.lt_iff_toNat_lt]
      split
      · simp
      · split
        · simp
        · split
          · simp
          · split <;> simp

end Sorting

end UserDb.Subid
