import Mathlib.Data.List.Induction

/-! Writes under keys, one after the other: what is seen under a key is what the last write there left. -/
namespace UserDb.Base
universe u v w x
variable {σ : Type u} {κ : Type v} {ν : Type w} {ο : Type x} [DecidableEq κ]

/-- The value of the last write under a key. -/
def lastWrite (k : κ) (writes : List (κ × ν)) : Option ν := ((writes.filter fun write => write.1 = k).getLast?).map Prod.snd

private theorem lastWrite_concat (k : κ) (writes : List (κ × ν)) (write : κ × ν) :
    lastWrite k (writes ++ [write]) = if write.1 = k then some write.2 else lastWrite k writes := by
  unfold lastWrite
  rw [List.filter_append]
  by_cases hk : write.1 = k
  · rw [if_pos hk,List.filter_cons_of_pos (by simpa using hk),List.filter_nil,List.getLast?_concat,Option.map_some]
  · rw [if_neg hk,List.filter_cons_of_neg (by simpa using hk),List.filter_nil,List.append_nil]

/-- Where each write is seen under its key, and nowhere else, a key shows its last write. -/
theorem foldl_lastWrite (shows : σ → κ → Option ν → Prop) {step : σ → κ × ν → σ} {Sound : σ → Prop} {s : σ}
    (hsound : ∀ s write, Sound s → Sound (step s write)) (hself : ∀ s k v, Sound s → shows (step s (k,v)) k (some v))
    (hother : ∀ s k v k' o, k' ≠ k → shows s k' o → shows (step s (k,v)) k' o) (hs : Sound s) (hnone : ∀ k, shows s k none)
    (writes : List (κ × ν)) : Sound (writes.foldl step s) ∧ ∀ k, shows (writes.foldl step s) k (lastWrite k writes) := by
  induction writes using List.reverseRecOn with
  | nil => exact ⟨hs,hnone⟩
  | append_singleton writes write ih =>
    rw [List.foldl_append]
    refine ⟨hsound _ write ih.1,fun k => ?_⟩
    rw [lastWrite_concat]
    split
    · rename_i hk
      exact hk ▸ hself _ write.1 write.2 ih.1
    · rename_i hk
      exact hother _ write.1 write.2 k _ (Ne.symm hk) (ih.2 k)

end UserDb.Base
