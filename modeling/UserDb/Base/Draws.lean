import Mathlib

/-! Independent uniform draws, the law of the first accepted one, and how many numbers a reduction accepts for a value. -/
namespace UserDb.Base
open MeasureTheory ProbabilityTheory Finset
open scoped ENNReal

section Stream
variable {α β : Type} {draws : ℕ → α} {accept : α → Option β} {y : β}

/-- The first `k` draws of a stream. -/
def drawn (draws : ℕ → α) (k : ℕ) : List α := (List.range k).map draws

private theorem drawn_succ (draws : ℕ → α) (k : ℕ) : drawn draws (k + 1) = drawn draws k ++ [draws k] := by
  simp [drawn,List.range_succ]

theorem findSome?_drawn_none {k : ℕ} : (drawn draws k).findSome? accept = none ↔ ∀ j < k, accept (draws j) = none := by
  simp [drawn]

/-- What a search in the first draws returns is accepted at a draw, and everything before it is rejected. -/
theorem findSome?_drawn_some {k : ℕ} : (drawn draws k).findSome? accept = some y ↔
    ∃ i < k, (∀ j < i, accept (draws j) = none) ∧ accept (draws i) = some y := by
  induction k with
  | zero => simp [drawn]
  | succ k ih =>
    rw [drawn_succ,List.findSome?_append,Option.or_eq_some_iff,ih,findSome?_drawn_none]
    constructor
    · rintro (⟨i,hi,hbefore,hy⟩ | ⟨hbefore,hy⟩)
      · exact ⟨i,by omega,hbefore,hy⟩
      · exact ⟨k,by omega,hbefore,by simpa using hy⟩
    · rintro ⟨i,hi,hbefore,hy⟩
      rcases Nat.lt_succ_iff_lt_or_eq.mp hi with hlt | rfl
      · exact .inl ⟨i,hlt,hbefore,hy⟩
      · exact .inr ⟨hbefore,by simpa using hy⟩

/-- The streams from which a function of the first draws returns `y` at last. -/
def returned (f : List α → Option β) (y : β) : Set (ℕ → α) := {draws | ∃ k, f (drawn draws k) = some y}

/-- The streams in which `y` is the first accepted value. -/
def acceptedFirst (accept : α → Option β) : β → Set (ℕ → α) := returned (List.findSome? accept)

/-- The streams in which `y` is accepted at draw `i`, and nothing before. -/
def acceptedAt (accept : α → Option β) (y : β) (i : ℕ) : Set (ℕ → α) :=
  Set.pi (range (i + 1)) fun j => if j < i then {a | accept a = none} else {a | accept a = some y}

theorem mem_acceptedAt {i : ℕ} :
    draws ∈ acceptedAt accept y i ↔ (∀ j < i, accept (draws j) = none) ∧ accept (draws i) = some y := by
  unfold acceptedAt
  rw [Set.mem_pi]
  constructor
  · intro h
    constructor
    · intro j hj
      have hj' := h j (by simp; omega)
      rwa [if_pos hj] at hj'
    · have hi := h i (by simp)
      rwa [if_neg (Nat.lt_irrefl i)] at hi
  · rintro ⟨hbefore,hy⟩ j hj
    split
    · rename_i hlt
      exact hbefore j hlt
    · rename_i hlt
      have hij : j = i := by
        simp at hj
        omega
      rw [hij]
      exact hy

private theorem acceptedFirst_eq (accept : α → Option β) (y : β) : acceptedFirst accept y = ⋃ i, acceptedAt accept y i := by
  ext draws
  simp only [acceptedFirst,returned,Set.mem_ofPred_eq,findSome?_drawn_some,Set.mem_iUnion,mem_acceptedAt]
  constructor
  · rintro ⟨_,i,_,h⟩
    exact ⟨i,h⟩
  · rintro ⟨i,h⟩
    exact ⟨i + 1,i,Nat.lt_succ_self i,h⟩

private theorem acceptedAt_disjoint (accept : α → Option β) (y : β) : Pairwise (Function.onFun Disjoint (acceptedAt accept y)) := by
  intro i j hij
  rw [Function.onFun,Set.disjoint_left]
  intro draws hi hj
  rw [mem_acceptedAt] at hi hj
  rcases Nat.lt_or_gt_of_ne hij with h | h
  · rw [hj.1 i h] at hi
    cases hi.2
  · rw [hi.1 j h] at hj
    cases hj.2

end Stream

section Law
variable {α β : Type} [Fintype α] [Nonempty α] [MeasurableSpace α] [DiscreteMeasurableSpace α] {accept : α → Option β} {y : β}

/-- A stream of independent draws, each uniform. -/
noncomputable def independentDraws (α : Type) [MeasurableSpace α] : Measure (ℕ → α) :=
  Measure.infinitePi fun _ => uniformOn (Set.univ : Set α)

omit [Nonempty α] in
private theorem uniform_apply (p : α → Prop) [DecidablePred p] :
    uniformOn (Set.univ : Set α) {a | p a} = #{a | p a} / Fintype.card α := by
  rw [uniformOn_univ,← coe_filter_univ,Measure.count_apply_finset]

private theorem acceptedAt_measure (accept : α → Option β) (y : β) (i : ℕ) :
    independentDraws α (acceptedAt accept y i) =
      uniformOn Set.univ {a | accept a = none} ^ i * uniformOn Set.univ {a | accept a = some y} := by
  unfold independentDraws acceptedAt
  rw [Measure.infinitePi_pi _ fun _ _ => MeasurableSet.of_discrete,prod_range_succ,if_neg (Nat.lt_irrefl i)]
  congr 1
  calc ∏ j ∈ range i,uniformOn Set.univ (if j < i then {a | accept a = none} else {a | accept a = some y})
      = ∏ _j ∈ range i,uniformOn Set.univ {a | accept a = none} := by
        apply prod_congr rfl
        intro j hj
        rw [if_pos (mem_range.mp hj)]
    _ = _ := by rw [prod_const,card_range]

/-- The first accepted value is `y` as often as `y` is accepted among what is accepted. -/
theorem acceptedFirst_measure [DecidableEq β] (accept : α → Option β) (y : β) :
    independentDraws α (acceptedFirst accept y) = #{a | accept a = some y} / #{a | (accept a).isSome} := by
  have hcard : ((Fintype.card α : ℕ) : ℝ≥0∞) ≠ 0 := by exact_mod_cast Fintype.card_ne_zero
  have htop : ((Fintype.card α : ℕ) : ℝ≥0∞) ≠ ⊤ := ENNReal.natCast_ne_top _
  have hparts : #{a | (accept a).isSome} + #{a | accept a = none} = Fintype.card α := by
    have hnone : #{a | accept a = none} = #{a | ¬(accept a).isSome} := by
      apply congrArg card
      apply filter_congr
      intro a _
      rw [Option.not_isSome_iff_eq_none]
    rw [hnone]
    exact card_filter_add_card_filter_not fun a => (accept a).isSome
  have hreject : 1 - (#{a | accept a = none} : ℝ≥0∞) / Fintype.card α = #{a | (accept a).isSome} / Fintype.card α := by
    apply ENNReal.sub_eq_of_eq_add
    · exact (ENNReal.div_lt_top (ENNReal.natCast_ne_top _) hcard).ne
    · rw [← ENNReal.add_div,← Nat.cast_add,hparts,ENNReal.div_self hcard htop]
  rw [acceptedFirst_eq,measure_iUnion (acceptedAt_disjoint accept y)]
  · simp only [acceptedAt_measure]
    rw [ENNReal.tsum_mul_right,ENNReal.tsum_geometric,uniform_apply,uniform_apply,hreject,← ENNReal.div_eq_inv_mul]
    exact ENNReal.mul_div_mul_right _ _ (ENNReal.inv_ne_zero.mpr htop) (ENNReal.inv_ne_top.mpr hcard)
  · intro i
    exact MeasurableSet.pi (range (i + 1)).countable_toSet fun _ _ => .of_discrete

/-- Where each of some values is accepted equally often, each is the first accepted value with equal probability. -/
theorem acceptedFirst_uniform [DecidableEq β] (values : Finset β) (count : ℕ) (hcount : 0 < count)
    (hequal : ∀ y ∈ values, #{a | accept a = some y} = count) (hothers : ∀ a y, accept a = some y → y ∈ values) (y : β) :
    independentDraws α (acceptedFirst accept y) = if y ∈ values then (values.card : ℝ≥0∞)⁻¹ else 0 := by
  classical
  have htotal : #{a | (accept a).isSome} = values.card * count := by
    have hunion : ({a | (accept a).isSome} : Finset α) = values.biUnion fun y => {a | accept a = some y} := by
      ext a
      simp only [mem_filter,mem_univ,true_and,mem_biUnion]
      constructor
      · intro ha
        obtain ⟨y,hy⟩ := Option.isSome_iff_exists.mp ha
        exact ⟨y,hothers a y hy,hy⟩
      · rintro ⟨y,_,hy⟩
        rw [hy]
        rfl
    rw [hunion,card_biUnion]
    · rw [sum_congr rfl hequal,sum_const,smul_eq_mul]
    · intro y _ z _ hyz
      rw [Function.onFun,disjoint_left]
      intro a ha hb
      rw [mem_filter] at ha hb
      exact hyz (Option.some.inj (ha.2.symm.trans hb.2))
  have hone : (count : ℝ≥0∞) ≠ 0 := by exact_mod_cast hcount.ne'
  rw [acceptedFirst_measure accept y]
  split
  · rename_i hy
    rw [htotal,hequal y hy,Nat.cast_mul]
    calc (count : ℝ≥0∞) / (values.card * count) = 1 * count / (values.card * count) := by rw [one_mul]
      _ = 1 / values.card := ENNReal.mul_div_mul_right _ _ hone (ENNReal.natCast_ne_top _)
      _ = _ := one_div _
  · rename_i hy
    have hnever : ({a | accept a = some y} : Finset α) = ∅ := by
      rw [filter_eq_empty_iff]
      intro a _ ha
      exact hy (hothers a y ha)
    rw [hnever,card_empty,Nat.cast_zero,ENNReal.zero_div]

end Law

section Count
variable {n v M : ℕ}

/-- The multiples of `n` from `a` on, `k` of them. -/
theorem card_multiples (hn : 0 < n) (a k : ℕ) (hM : a + k * n ≤ M * n) :
    #{r ∈ range M | a ≤ r * n ∧ r * n < a + k * n} = k := by
  have hIco : {r ∈ range M | a ≤ r * n ∧ r * n < a + k * n} = Ico (a ⌈/⌉ n) (a ⌈/⌉ n + k) := by
    ext r
    have hbegin (r : ℕ) : a ⌈/⌉ n ≤ r ↔ a ≤ r * n := by
      rw [ceilDiv_le_iff_le_mul hn,Nat.mul_comm]
    have hend : r < a ⌈/⌉ n + k ↔ r * n < a + k * n := by
      rcases Nat.lt_or_ge r k with hk | hk
      · have hlt := Nat.mul_lt_mul_of_pos_right hk hn
        constructor <;> intro <;> omega
      · obtain ⟨s,rfl⟩ := Nat.exists_eq_add_of_le' hk
        have hs := hbegin s
        rw [Nat.add_mul]
        omega
    rw [mem_filter,mem_range,mem_Ico,hbegin,hend]
    constructor
    · exact And.right
    · intro h
      exact ⟨Nat.lt_of_mul_lt_mul_right (h.2.trans_le hM),h⟩
  rw [hIco,Nat.card_Ico,Nat.add_sub_cancel_left]

/-- The product with `n` has the high part `v` and a low part that is not too small. -/
def Reduces (n M v r : ℕ) : Prop := r * n / M = v ∧ M % n ≤ r * n % M

instance (n M v : ℕ) : DecidablePred (Reduces n M v) := fun _ => inferInstanceAs (Decidable (_ ∧ _))

/-- Of the numbers below `M`, `M / n` are reduced to `v`. -/
theorem card_reduces (hn : 0 < n) (hv : v < n) : #{r ∈ range M | Reduces n M v r} = M / n := by
  rcases Nat.eq_zero_or_pos M with rfl | hM
  · simp
  have hblocks : M % n + M / n * n = M := Nat.mod_add_div' M n
  have hfilter : ∀ r, Reduces n M v r ↔ v * M + M % n ≤ r * n ∧ r * n < v * M + M % n + M / n * n := by
    intro r
    unfold Reduces
    have hdiv := Nat.div_add_mod (r * n) M
    constructor
    · rintro ⟨rfl,hlow⟩
      have hlt := Nat.mod_lt (r * n) hM
      rw [Nat.mul_comm] at hdiv
      omega
    · rintro ⟨hle,hlt⟩
      have hhigh : r * n / M = v := by
        apply Nat.div_eq_of_lt_le
        · omega
        · rw [Nat.succ_mul]
          omega
      rw [hhigh,Nat.mul_comm] at hdiv
      exact ⟨hhigh,by omega⟩
  have hend : v * M + M % n + M / n * n ≤ M * n := by
    calc v * M + M % n + M / n * n = (v + 1) * M := by rw [Nat.succ_mul,Nat.add_assoc,hblocks]
      _ ≤ n * M := Nat.mul_le_mul_right M hv
      _ = M * n := Nat.mul_comm n M
  rw [filter_congr fun r _ => hfilter r]
  exact card_multiples hn _ _ hend

/-- The numbers below a multiple of `m`, by their remainders. -/
theorem card_mod (p : ℕ → Prop) [DecidablePred p] (m k : ℕ) :
    #{r ∈ range (k * m) | p (r % m)} = k * #{r ∈ range m | p r} := by
  induction k with
  | zero => simp
  | succ k ih =>
    have hblock : Nat.count (fun r => p ((k * m + r) % m)) m = #{r ∈ range m | p r} := by
      rw [Nat.count_eq_card_filter_range]
      apply congrArg card
      apply filter_congr
      intro r hr
      rw [Nat.mul_add_mod_of_lt (mem_range.mp hr)]
    rw [← Nat.count_eq_card_filter_range] at ih ⊢
    rw [Nat.succ_mul,Nat.count_add,ih,hblock,Nat.succ_mul]

/-- A set of numbers below `M`, counted in a type with `M` values. -/
theorem card_equiv {α : Type} [Fintype α] (e : α ≃ Fin M) (p : ℕ → Prop) [DecidablePred p] :
    #{a | p (e a)} = #{r ∈ range M | p r} := by
  apply card_nbij fun a => (e a).val
  · intro a ha
    simpa using ha
  · intro a _ b _ h
    exact e.injective (Fin.ext h)
  · intro r hr
    rw [coe_filter,Set.mem_ofPred_eq,mem_range] at hr
    exact ⟨e.symm ⟨r,hr.1⟩,by simp [hr.2],by simp⟩

end Count

end UserDb.Base
