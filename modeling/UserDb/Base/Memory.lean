import UserDb.Base.Bytes

/-! Numbers in memory, the lowest byte first. -/
namespace UserDb.Base.Memory

def storeBytes (width n : Nat) : Bytes := (List.range width).map fun i => (n / 256^i).toUInt8

def loadBytes (memory : Bytes) : Nat := memory.foldr (fun b n => b.toNat + 256 * n) 0

/-- The number that a word of some bits stands for where the highest bit is a sign. -/
def signed (bits n : Nat) : Int := if n < 2^(bits - 1) then n else n - 2^bits

/-- The number modulo the word, as a conversion to an unsigned type gives it. -/
def unsigned (bits : Nat) (n : Int) : Nat := (n % 2^bits).toNat

private theorem storeBytes_succ (width n : Nat) : storeBytes (width + 1) n = n.toUInt8 :: storeBytes width (n / 256) := by
  unfold storeBytes
  rw [List.range_succ_eq_map,List.map_cons,List.map_map]
  congr 1
  · simp
  · apply List.map_congr_left
    intro i _
    simp only [Function.comp_apply,Nat.succ_eq_add_one]
    rw [Nat.div_div_eq_div_mul,Nat.pow_succ,Nat.mul_comm]

private theorem loadBytes_storeBytes (width n : Nat) : loadBytes (storeBytes width n) = n % 256^width := by
  induction width generalizing n with
  | zero => simp [storeBytes,loadBytes,Nat.mod_one]
  | succ width ih =>
    have hbyte : n.toUInt8.toNat = n % 256 := by simp
    calc loadBytes (storeBytes (width + 1) n) = n.toUInt8.toNat + 256 * loadBytes (storeBytes width (n / 256)) := by
          rw [storeBytes_succ]
          rfl
      _ = n % 256 + 256 * (n / 256 % 256^width) := by rw [ih,hbyte]
      _ = n % 256^(width + 1) := by rw [Nat.pow_succ',Nat.mod_mul]

/-- The first bytes of a number are what is left of it in fewer bytes. -/
theorem take_storeBytes {k width : Nat} (h : k ≤ width) (n : Nat) : (storeBytes width n).take k = storeBytes k n := by
  unfold storeBytes
  rw [← List.map_take,List.take_range,Nat.min_eq_left h]

theorem loadBytes_take {k width : Nat} (h : k ≤ width) (n : Nat) : loadBytes ((storeBytes width n).take k) = n % 256^k := by
  rw [take_storeBytes h,loadBytes_storeBytes]

end UserDb.Base.Memory
