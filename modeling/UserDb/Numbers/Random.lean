import UserDb.Base.Draws

/-! Random numbers below a bound and in an interval, from the words that `csrand` returns. -/
namespace UserDb.Numbers
open UserDb.Base Finset
open scoped ENNReal

def UINT32_MAX : UInt64 := 0xFFFFFFFF
def ULONG_MAX : UInt64 := 0xFFFFFFFFFFFFFFFF

/-- `leading_zerosul`; the builtin counts the bits above the highest one. -/
def leadingZerosul (x : UInt64) : Nat := if x = 0 then 64 else 63 - x.toNat.log2

def bitCeilul (x : UInt64) : UInt64 := 1 + (ULONG_MAX >>> UInt64.ofNat (leadingZerosul x))

def bitCeilWrapul (x : UInt64) : UInt64 := if x = 0 then 0 else bitCeilul x

def csrand32 (draw : UInt64) : UInt32 := draw.toUInt32

/-- A round of the loop of `csrand_uniform32`, with a value where the loop ends. -/
def uniform32Round (n r : UInt32) : Option UInt32 :=
  let bound := -n % n
  let mult := r.toUInt64 * n.toUInt64
  let rem := mult.toUInt32
  if rem < bound then none else some (mult >>> 32).toUInt32

/-- There is no result as long as every draw is rejected. -/
def csrandUniform32 (n : UInt32) (draws : List UInt64) : Option UInt32 :=
  if n = 0 then draws.head?.map csrand32 else draws.findSome? fun draw => uniform32Round n (csrand32 draw)

def uniformMask (n : UInt64) : UInt64 := bitCeilWrapul n - 1

/-- What the loop of `csrand_uniform_slow` does with a masked value. -/
def uniformSlowRound (n r : UInt64) : Option UInt64 :=
  let max := n - 1
  if r > max then none else some r

def csrandUniformSlow (n : UInt64) (draws : List UInt64) : Option UInt64 :=
  draws.findSome? fun draw => uniformSlowRound n (draw &&& uniformMask n)

def csrandUniform (n : UInt64) (draws : List UInt64) : Option UInt64 :=
  if n = 0 ∨ UINT32_MAX < n then csrandUniformSlow n draws else (csrandUniform32 n.toUInt32 draws).map UInt32.toUInt64

def csrandInterval (min max : UInt64) (draws : List UInt64) : Option UInt64 :=
  (csrandUniform (max - min + 1) draws).map (· + min)

section Words

def word32 : UInt32 ≃ Fin (2^32) := ⟨UInt32.toFin,UInt32.ofFin,fun _ => rfl,fun _ => rfl⟩
def word64 : UInt64 ≃ Fin (2^64) := ⟨UInt64.toFin,UInt64.ofFin,fun _ => rfl,fun _ => rfl⟩

instance fintypeWord32 : Fintype UInt32 := Fintype.ofEquiv _ word32.symm
instance fintypeWord64 : Fintype UInt64 := Fintype.ofEquiv _ word64.symm
instance measurableWord64 : MeasurableSpace UInt64 := ⊤
instance discreteWord64 : DiscreteMeasurableSpace UInt64 := ⟨fun _ => trivial⟩

private theorem card_word32 (p : ℕ → Prop) [DecidablePred p] : #{r : UInt32 | p r.toNat} = #{r ∈ range (2^32) | p r} :=
  card_equiv word32 p

theorem card_word64 (p : ℕ → Prop) [DecidablePred p] : #{r : UInt64 | p r.toNat} = #{r ∈ range (2^64) | p r} :=
  card_equiv word64 p

/-- The number that a bound stands for; zero stands for all the words. -/
def sizeUl (n : UInt64) : Nat := if n = 0 then 2^64 else n.toNat

end Words

section Fast
variable {n r v : UInt32}

private theorem bound32_toNat (hn : n ≠ 0) : (-n % n).toNat = 2^32 % n.toNat := by
  have hpos : 0 < n.toNat := Nat.pos_of_ne_zero fun h => hn (UInt32.toNat_inj.mp h)
  have hlt : n.toNat < 2^32 := n.toNat_lt
  have hneg : (-n).toNat = 2^32 - n.toNat := by
    rw [UInt32.toNat_neg]
    exact Nat.mod_eq_of_lt (Nat.sub_lt (Nat.two_pow_pos 32) hpos)
  rw [UInt32.toNat_mod,hneg]
  exact (Nat.mod_eq_sub_mod hlt.le).symm

/-- What a round returns, in numbers. -/
theorem uniform32Round_iff (hn : n ≠ 0) : uniform32Round n r = some v ↔ Reduces n.toNat (2^32) v.toNat r.toNat := by
  have hproduct : (r.toUInt64 * n.toUInt64).toNat = r.toNat * n.toNat := by
    rw [UInt64.toNat_mul,UInt32.toNat_toUInt64,UInt32.toNat_toUInt64]
    apply Nat.mod_eq_of_lt
    calc r.toNat * n.toNat < 2^32 * 2^32 := Nat.mul_lt_mul'' r.toNat_lt n.toNat_lt
      _ = 2^64 := by norm_num
  have hlow : (r.toUInt64 * n.toUInt64).toUInt32.toNat = r.toNat * n.toNat % 2^32 := by
    rw [UInt64.toNat_toUInt32,hproduct]
  have hhigh : ((r.toUInt64 * n.toUInt64) >>> 32).toUInt32.toNat = r.toNat * n.toNat / 2^32 := by
    rw [UInt64.toNat_toUInt32,UInt64.toNat_shiftRight,hproduct]
    have hlt : r.toNat * n.toNat / 2^32 < 2^32 := by
      apply Nat.div_lt_of_lt_mul
      exact Nat.mul_lt_mul'' r.toNat_lt n.toNat_lt
    calc (r.toNat * n.toNat) >>> 32 % 2^32 = r.toNat * n.toNat / 2^32 % 2^32 := by rw [Nat.shiftRight_eq_div_pow]
      _ = _ := Nat.mod_eq_of_lt hlt
  unfold uniform32Round Reduces
  simp only [UInt32.lt_iff_toNat_lt,hlow,bound32_toNat hn]
  split
  · simp only [reduceCtorEq,false_iff]
    omega
  · rw [Option.some_inj,← UInt32.toNat_inj,hhigh]
    constructor
    · intro h
      exact ⟨h,by omega⟩
    · exact And.left

theorem uniform32Round_lt (hn : n ≠ 0) (h : uniform32Round n r = some v) : v < n := by
  rw [UInt32.lt_iff_toNat_lt,← ((uniform32Round_iff hn).mp h).1]
  apply Nat.div_lt_of_lt_mul
  apply Nat.mul_lt_mul_of_pos_right r.toNat_lt
  exact Nat.pos_of_ne_zero fun h => hn (UInt32.toNat_inj.mp h)

/-- Of the words, as many are accepted for a value as the bound goes into all of them. -/
theorem card_uniform32Round (hv : v < n) : #{r | uniform32Round n r = some v} = 2^32 / n.toNat := by
  have hn : n ≠ 0 := by
    rintro rfl
    exact UInt32.not_lt_zero hv
  have hlt := UInt32.lt_iff_toNat_lt.mp hv
  rw [filter_congr fun r _ => uniform32Round_iff hn,card_word32 (Reduces n.toNat (2^32) v.toNat)]
  exact card_reduces (Nat.zero_lt_of_lt hlt) hlt

/-- As many of the long words, for each word that they are cut to. -/
theorem card_uniform32Draw (hv : v < n) :
    #{draw | uniform32Round n (csrand32 draw) = some v} = 2^32 * (2^32 / n.toNat) := by
  have hn : n ≠ 0 := by
    rintro rfl
    exact UInt32.not_lt_zero hv
  have hdraw : ∀ draw : UInt64, uniform32Round n (csrand32 draw) = some v ↔
      Reduces n.toNat (2^32) v.toNat (draw.toNat % 2^32) := by
    intro draw
    rw [uniform32Round_iff hn,csrand32,UInt64.toNat_toUInt32]
  have hlt := UInt32.lt_iff_toNat_lt.mp hv
  have hwords : 2^64 = 2^32 * 2^32 := by norm_num
  rw [filter_congr fun draw _ => hdraw draw,card_word64 fun draw => Reduces n.toNat (2^32) v.toNat (draw % 2^32),hwords,
    card_mod (Reduces n.toNat (2^32) v.toNat),card_reduces (Nat.zero_lt_of_lt hlt) hlt]

end Fast

section Slow
variable {n r v : UInt64}

theorem sizeUl_pos (n : UInt64) : 0 < sizeUl n := by
  unfold sizeUl
  split
  · exact Nat.two_pow_pos 64
  · rename_i hn
    exact Nat.pos_of_ne_zero fun h => hn (UInt64.toNat_inj.mp h)

theorem sub_one_toNat (n : UInt64) : (n - 1).toNat + 1 = sizeUl n := by
  have hpos := sizeUl_pos n
  have hlt : n.toNat < 2^64 := n.toNat_lt
  have hsub : (n - 1).toNat = (2^64 - 1 + n.toNat) % 2^64 := UInt64.toNat_sub n 1
  unfold sizeUl at hpos ⊢
  split at hpos
  · rename_i hn
    rw [if_pos hn,hn]
    rfl
  · rename_i hn
    rw [if_neg hn,hsub]
    omega

theorem uniformSlowRound_iff : uniformSlowRound n r = some v ↔ r = v ∧ v.toNat < sizeUl n := by
  have hmax := sub_one_toNat n
  unfold uniformSlowRound
  simp only [gt_iff_lt,UInt64.lt_iff_toNat_lt]
  split
  · simp only [reduceCtorEq,false_iff]
    rintro ⟨rfl,hlt⟩
    omega
  · rw [Option.some_inj]
    constructor
    · rintro rfl
      exact ⟨rfl,by omega⟩
    · exact And.left

/-- The exponent of the power of two that the mask is one below. -/
def maskWidth (n : UInt64) : ℕ := if n = 0 then 64 else n.toNat.log2 + 1

private theorem maskWidth_le (n : UInt64) : maskWidth n ≤ 64 := by
  unfold maskWidth
  split
  · exact Nat.le_refl 64
  · rename_i hn
    exact (Nat.log2_lt fun h => hn (UInt64.toNat_inj.mp h)).mpr n.toNat_lt

/-- The mask has all the bits up to the highest one of the bound. -/
theorem uniformMask_toNat (n : UInt64) : (uniformMask n).toNat = 2^maskWidth n - 1 := by
  unfold uniformMask bitCeilWrapul maskWidth
  split
  · rfl
  · rename_i hn
    have hlog : n.toNat.log2 < 64 := (Nat.log2_lt fun h => hn (UInt64.toNat_inj.mp h)).mpr n.toNat_lt
    have hones : 1 + (ULONG_MAX >>> UInt64.ofNat (63 - n.toNat.log2)) - 1 = ULONG_MAX >>> UInt64.ofNat (63 - n.toNat.log2) := by
      rw [UInt64.add_comm,UInt64.add_sub_cancel]
    have hshift : (UInt64.ofNat (63 - n.toNat.log2)).toNat % 64 = 63 - n.toNat.log2 := by
      rw [UInt64.toNat_ofNat']
      omega
    have hall : 2^64 - 1 = 2^(63 - n.toNat.log2) * 2^(n.toNat.log2 + 1) - (0 + 1) := by
      rw [← Nat.pow_add]
      congr 2
      omega
    rw [bitCeilul,leadingZerosul,if_neg hn,hones,UInt64.toNat_shiftRight,hshift,Nat.shiftRight_eq_div_pow]
    calc (2^64 - 1) / 2^(63 - n.toNat.log2)
        = (2^(63 - n.toNat.log2) * 2^(n.toNat.log2 + 1) - (0 + 1)) / 2^(63 - n.toNat.log2) := by rw [hall]
      _ = 2^(n.toNat.log2 + 1) - (0 / 2^(63 - n.toNat.log2) + 1) := Nat.mul_sub_div _ _ _ (by positivity)
      _ = _ := by rw [Nat.zero_div]

theorem sizeUl_le_mask (n : UInt64) : sizeUl n ≤ 2^maskWidth n := by
  unfold sizeUl maskWidth
  split
  · exact Nat.le_refl _
  · exact Nat.lt_log2_self.le

theorem masked_toNat (n draw : UInt64) : (draw &&& uniformMask n).toNat = draw.toNat % 2^maskWidth n := by
  rw [UInt64.toNat_and,uniformMask_toNat,Nat.and_two_pow_sub_one_eq_mod]

/-- Each value is what is left of equally many draws. -/
theorem card_uniformSlowRound (hv : v.toNat < sizeUl n) :
    #{draw | uniformSlowRound n (draw &&& uniformMask n) = some v} = 2^(64 - maskWidth n) := by
  have hdraw : ∀ draw : UInt64, uniformSlowRound n (draw &&& uniformMask n) = some v ↔ draw.toNat % 2^maskWidth n = v.toNat := by
    intro draw
    rw [uniformSlowRound_iff,← UInt64.toNat_inj,masked_toNat]
    exact and_iff_left hv
  have hwords : 2^64 = 2^(64 - maskWidth n) * 2^maskWidth n := by
    rw [← Nat.pow_add,Nat.sub_add_cancel (maskWidth_le n)]
  have hone : #{r ∈ range (2^maskWidth n) | r = v.toNat} = 1 := by
    rw [filter_eq',if_pos (mem_range.mpr (hv.trans_le (sizeUl_le_mask n))),card_singleton]
  rw [filter_congr fun draw _ => hdraw draw,card_word64 fun draw => draw % 2^maskWidth n = v.toNat,hwords]
  rw [card_mod fun r => r = v.toNat,hone,Nat.mul_one]

end Slow

section Uniform
variable {min max n r v x draw : UInt64} {draws : List UInt64}

/-- A round of whichever loop the bound is for. -/
def uniformRound (n draw : UInt64) : Option UInt64 :=
  if n = 0 ∨ UINT32_MAX < n then uniformSlowRound n (draw &&& uniformMask n)
  else (uniform32Round n.toUInt32 (csrand32 draw)).map UInt32.toUInt64

/-- How many draws a value has. -/
def uniformCount (n : UInt64) : ℕ := if n = 0 ∨ UINT32_MAX < n then 2^(64 - maskWidth n) else 2^32 * (2^32 / n.toNat)

theorem fits32 (hn : ¬(n = 0 ∨ UINT32_MAX < n)) : n.toUInt32.toNat = n.toNat ∧ n.toUInt32 ≠ 0 ∧ n.toNat = sizeUl n := by
  rw [not_or,UInt64.not_lt,UInt64.le_iff_toNat_le] at hn
  have hle : n.toNat ≤ 2^32 - 1 := hn.2
  have hword : n.toUInt32.toNat = n.toNat := by
    rw [UInt64.toNat_toUInt32]
    omega
  refine ⟨hword,?_,(if_neg hn.1).symm⟩
  intro hzero
  apply hn.1
  rw [← UInt64.toNat_inj,← hword,hzero]
  rfl

private theorem csrandUniform_eq (n : UInt64) (draws : List UInt64) : csrandUniform n draws = draws.findSome? (uniformRound n) := by
  unfold csrandUniform uniformRound
  split
  · rfl
  · rename_i hn
    rw [csrandUniform32,if_neg (fits32 hn).2.1,List.map_findSome?]
    rfl

private theorem uniformRound_lt (h : uniformRound n draw = some v) : v.toNat < sizeUl n := by
  unfold uniformRound at h
  split at h
  · exact (uniformSlowRound_iff.mp h).2
  · rename_i hn
    obtain ⟨hword,hzero,hsize⟩ := fits32 hn
    obtain ⟨w,hw,rfl⟩ := Option.map_eq_some_iff.mp h
    have hlt := UInt32.lt_iff_toNat_lt.mp (uniform32Round_lt hzero hw)
    rw [UInt32.toNat_toUInt64,← hsize,← hword]
    exact hlt

private theorem card_uniformRound (hv : v.toNat < sizeUl n) : #{draw | uniformRound n draw = some v} = uniformCount n := by
  unfold uniformRound uniformCount
  split
  · exact card_uniformSlowRound hv
  · rename_i hn
    obtain ⟨hword,_,hsize⟩ := fits32 hn
    have hv32 : v.toUInt32.toNat = v.toNat := by
      rw [UInt64.toNat_toUInt32]
      have hlt := n.toUInt32.toNat_lt
      omega
    have hwide : v.toUInt32.toUInt64 = v := by
      rw [← UInt64.toNat_inj,UInt32.toNat_toUInt64,hv32]
    have hlt : v.toUInt32 < n.toUInt32 := by
      rw [UInt32.lt_iff_toNat_lt]
      omega
    have hmap : ∀ draw : UInt64, (uniform32Round n.toUInt32 (csrand32 draw)).map UInt32.toUInt64 = some v ↔
        uniform32Round n.toUInt32 (csrand32 draw) = some v.toUInt32 := by
      intro draw
      rw [Option.map_eq_some_iff]
      constructor
      · rintro ⟨w,hw,rfl⟩
        rw [hw,UInt32.toUInt32_toUInt64]
      · intro hw
        exact ⟨_,hw,hwide⟩
    rw [filter_congr fun draw _ => hmap draw,card_uniform32Draw hlt,hword]

private theorem uniformCount_pos (n : UInt64) : 0 < uniformCount n := by
  unfold uniformCount
  split
  · positivity
  · rename_i hn
    obtain ⟨hword,_,hsize⟩ := fits32 hn
    have hlt : n.toNat < 2^32 := hword ▸ n.toUInt32.toNat_lt
    exact Nat.mul_pos (by norm_num) (Nat.div_pos hlt.le (hsize ▸ sizeUl_pos n))

theorem sizeUl_interval (h : min ≤ max) : sizeUl (max - min + 1) = max.toNat - min.toNat + 1 := by
  have hsub := sub_one_toNat (max - min + 1)
  have hle := UInt64.le_iff_toNat_le.mp h
  rw [UInt64.add_sub_cancel,UInt64.toNat_sub_of_le _ _ h] at hsub
  exact hsub.symm

/-- A value of the interval is what lies so far above its begin. -/
theorem add_min_iff (h : min ≤ max) (hv : v.toNat < sizeUl (max - min + 1)) :
    v + min = x ↔ v = x - min ∧ min ≤ x ∧ x ≤ max := by
  rw [sizeUl_interval h] at hv
  have hle := UInt64.le_iff_toNat_le.mp h
  have hlt : max.toNat < 2^64 := max.toNat_lt
  have hsum : (v + min).toNat = v.toNat + min.toNat := by
    rw [UInt64.toNat_add]
    exact Nat.mod_eq_of_lt (by omega)
  constructor
  · rintro rfl
    refine ⟨(UInt64.add_sub_cancel v min).symm,?_,?_⟩
    · rw [UInt64.le_iff_toNat_le,hsum]
      exact Nat.le_add_left _ _
    · rw [UInt64.le_iff_toNat_le,hsum]
      omega
  · rintro ⟨rfl,_⟩
    exact UInt64.sub_add_cancel x min

theorem csrandInterval_eq (min max : UInt64) (draws : List UInt64) :
    csrandInterval min max draws = draws.findSome? fun draw => (uniformRound (max - min + 1) draw).map (· + min) := by
  rw [csrandInterval,csrandUniform_eq,List.map_findSome?]
  rfl

/-- A round for an interval returns a value of it. -/
theorem intervalRound_iff (h : min ≤ max) : (uniformRound (max - min + 1) draw).map (· + min) = some x ↔
    uniformRound (max - min + 1) draw = some (x - min) ∧ min ≤ x ∧ x ≤ max := by
  rw [Option.map_eq_some_iff]
  constructor
  · rintro ⟨v,hv,hx⟩
    obtain ⟨rfl,hmem⟩ := (add_min_iff h (uniformRound_lt hv)).mp hx
    exact ⟨hv,hmem⟩
  · rintro ⟨hv,hmem⟩
    exact ⟨_,hv,(add_min_iff h (uniformRound_lt hv)).mpr ⟨rfl,hmem⟩⟩

theorem csrandInterval_mem (h : min ≤ max) (hx : csrandInterval min max draws = some x) : min ≤ x ∧ x ≤ max := by
  rw [csrandInterval_eq] at hx
  obtain ⟨draw,_,hdraw⟩ := List.exists_of_findSome?_eq_some hx
  exact ((intervalRound_iff h).mp hdraw).2

private theorem card_interval (h : min ≤ max) : #{x | min ≤ x ∧ x ≤ max} = max.toNat - min.toNat + 1 := by
  have hle := UInt64.le_iff_toNat_le.mp h
  have hlt : max.toNat < 2^64 := max.toNat_lt
  have hwords : ∀ x : UInt64, (min ≤ x ∧ x ≤ max) ↔ (min.toNat ≤ x.toNat ∧ x.toNat ≤ max.toNat) := by
    intro x
    rw [UInt64.le_iff_toNat_le,UInt64.le_iff_toNat_le]
  have hIcc : {r ∈ range (2^64) | min.toNat ≤ r ∧ r ≤ max.toNat} = Icc min.toNat max.toNat := by
    ext r
    rw [mem_filter,mem_range,mem_Icc]
    constructor
    · exact And.right
    · intro hr
      exact ⟨by omega,hr⟩
  rw [filter_congr fun x _ => hwords x,card_word64 fun x => min.toNat ≤ x ∧ x ≤ max.toNat,hIcc,Nat.card_Icc]
  omega

/-- Every value of the interval has the same probability. -/
theorem csrandInterval_law (h : min ≤ max) (x : UInt64) : independentDraws UInt64 (returned (csrandInterval min max) x) =
    if min ≤ x ∧ x ≤ max then ((max.toNat - min.toNat + 1 : ℕ) : ℝ≥0∞)⁻¹ else 0 := by
  have hrounds : csrandInterval min max = List.findSome? fun draw => (uniformRound (max - min + 1) draw).map (· + min) := by
    funext draws
    exact csrandInterval_eq min max draws
  rw [hrounds]
  change independentDraws UInt64 (acceptedFirst _ x) = _
  rw [acceptedFirst_uniform {x | min ≤ x ∧ x ≤ max} (uniformCount (max - min + 1)) (uniformCount_pos _),card_interval h]
  · simp only [mem_filter,mem_univ,true_and]
  · intro y hy
    have hy' := (mem_filter.mp hy).2
    have hlt : (y - min).toNat < sizeUl (max - min + 1) := by
      rw [sizeUl_interval h,UInt64.toNat_sub_of_le _ _ hy'.1]
      have := UInt64.le_iff_toNat_le.mp hy'.2
      omega
    rw [filter_congr fun draw _ => (intervalRound_iff h).trans (and_iff_left hy')]
    exact card_uniformRound hlt
  · intro draw y hy
    rw [mem_filter]
    exact ⟨mem_univ y,((intervalRound_iff h).mp hy).2⟩

end Uniform

section Claims
variable {n : UInt64}

/-- Each value is one masked value, and fewer than half of the masked values are rejected. -/
structure MaskSound (n : UInt64) : Prop where
  one : ∀ v : UInt64, v.toNat < sizeUl n → ∃! r, (∃ draw, draw &&& uniformMask n = r) ∧ uniformSlowRound n r = some v
  fits : (uniformMask n).toNat + 1 < 2 * sizeUl n

/-- Whatever the mask is, it leaves every value below the bound as it is. -/
theorem masked_one (n v : UInt64) (hv : v.toNat < sizeUl n) :
    ∃! r, (∃ draw, draw &&& uniformMask n = r) ∧ uniformSlowRound n r = some v := by
  have hmasked : v &&& uniformMask n = v := by
    rw [← UInt64.toNat_inj,masked_toNat]
    exact Nat.mod_eq_of_lt (hv.trans_le (sizeUl_le_mask n))
  refine ⟨v,⟨⟨v,hmasked⟩,uniformSlowRound_iff.mpr ⟨rfl,hv⟩⟩,?_⟩
  rintro r ⟨_,hr⟩
  exact (uniformSlowRound_iff.mp hr).1

private theorem mask_fits_iff (n : UInt64) : (uniformMask n).toNat + 1 < 2 * sizeUl n ↔ ¬n.toNat.isPowerOfTwo := by
  rw [uniformMask_toNat,Nat.sub_add_cancel Nat.one_le_two_pow]
  by_cases hn : n = 0
  · rw [hn]
    exact iff_of_true (by decide) Nat.not_isPowerOfTwo_zero
  · have hne : n.toNat ≠ 0 := fun h => hn (UInt64.toNat_inj.mp h)
    rw [maskWidth,sizeUl,if_neg hn,if_neg hn,Nat.pow_succ]
    constructor
    · rintro hlt ⟨k,hk⟩
      rw [hk,Nat.log2_two_pow] at hlt
      omega
    · intro hpower
      have hle := Nat.log2_self_le hne
      have hself : n.toNat ≠ 2^n.toNat.log2 := fun h => hpower ⟨_,h⟩
      omega

theorem maskSound_iff (n : UInt64) : MaskSound n ↔ ¬n.toNat.isPowerOfTwo :=
  ⟨fun h => (mask_fits_iff n).mp h.fits,fun h => ⟨masked_one n,(mask_fits_iff n).mpr h⟩⟩

/-- The reductions are uniform; the mask is too wide for a power of two and fits every other bound. -/
theorem csrand_uniform_iff (n : UInt64) :
    (∀ m : UInt32, m ≠ 0 → (∀ v < m, #{r | uniform32Round m r = some v} = 2^32 / m.toNat) ∧
      ∀ r v, uniform32Round m r = some v → v < m) ∧
    (∀ min max : UInt64, min ≤ max → (∀ draws x, csrandInterval min max draws = some x → min ≤ x ∧ x ≤ max) ∧
      ∀ x, independentDraws UInt64 (returned (csrandInterval min max) x) =
        if min ≤ x ∧ x ≤ max then ((max.toNat - min.toNat + 1 : ℕ) : ℝ≥0∞)⁻¹ else 0) ∧
    (MaskSound n ↔ ¬n.toNat.isPowerOfTwo) := by
  refine ⟨?_,?_,maskSound_iff n⟩
  · intro m hm
    exact ⟨fun v => card_uniform32Round,fun r v => uniform32Round_lt hm⟩
  · intro min max h
    exact ⟨fun draws x => csrandInterval_mem h,csrandInterval_law h⟩

/-- For an interval with all the values of 32 bits the mask has 33. -/
theorem maskSound_fails : ¬MaskSound 4294967296 := by
  rw [maskSound_iff,not_not]
  exact ⟨32,rfl⟩

end Claims

end UserDb.Numbers
