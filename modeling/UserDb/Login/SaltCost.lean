import UserDb.Login.Salt

/-! What a setting says about its cost, and which cost is chosen. -/
namespace UserDb.Login.Salt
open UserDb.Base UserDb.Base.Memory UserDb.Atoi UserDb.Numbers

/-- The characters ./0-9A-Za-z. -/
def isSaltChar (b : UInt8) : Bool := b == 46 || b == 47 || isDigit b || (65 ≤ b && b ≤ 90) || (97 ≤ b && b ≤ 122)

namespace CryptMethod

def minCost : CryptMethod → Nat
  | .sha256 | .sha512 => 1000
  | .bcrypt => 4
  | .yescrypt => 1

def maxCost : CryptMethod → Nat
  | .sha256 | .sha512 => 999999999
  | .bcrypt => 19
  | .yescrypt => 11

def dfltCost : CryptMethod → Nat
  | .sha256 | .sha512 => 5000
  | .bcrypt => 13
  | .yescrypt => 5

def clamped (method : CryptMethod) (cost : Nat) : Nat := max method.minCost (min method.maxCost cost)

/-- The cost that is asked for by a number. -/
def askedCost (method : CryptMethod) (r : Nat) : Nat := if r = 0 then method.dfltCost else method.clamped r

/-- The text of a cost. -/
def field (method : CryptMethod) (cost : Nat) : Bytes :=
  match method with
  | .sha256 | .sha512 => if cost = 5000 then [] else ascii "rounds=" ++ numeral cost ++ [dollar]
  | .bcrypt => twoDigits cost ++ [dollar]
  | .yescrypt =>
    [106,((if cost < 3 then 0x36 else if cost < 6 then 0x34 else 0x3b) + cost).toUInt8,if 3 ≤ cost then 84 else 53,dollar]

end CryptMethod

/-- A setting that fits its buffer: prefix, cost and as many salt characters as the method has. -/
structure Encodes (method : CryptMethod) (cost : Nat) (setting : Bytes) : Prop where
  fits : setting.length < GENSALT_SETTING_SIZE
  parts : ∃ salt, setting = method.magic ++ method.field cost ++ salt ∧ salt.length = method.saltSize ∧ ∀ b ∈ salt, isSaltChar b = true

section Fields
variable {method : CryptMethod} {a b cost : Nat} {setting : Bytes}

theorem clamped_bounds (method : CryptMethod) (cost : Nat) :
    method.minCost ≤ method.clamped cost ∧ method.clamped cost ≤ method.maxCost := by
  unfold CryptMethod.clamped
  cases method <;> simp only [CryptMethod.minCost,CryptMethod.maxCost] <;> omega

theorem askedCost_bounds (method : CryptMethod) (r : Nat) :
    method.minCost ≤ method.askedCost r ∧ method.askedCost r ≤ method.maxCost := by
  unfold CryptMethod.askedCost
  split
  · cases method <;> decide
  · exact clamped_bounds method r

private theorem decimalValue_twoDigits (n : Nat) : decimalValue (twoDigits n) = n := by
  unfold twoDigits
  split
  · exact decimalValue_numeral n
  · exact decimalValue_numeral n

/-- Two costs with the same text are the same. -/
theorem field_inj (ha : method.minCost ≤ a ∧ a ≤ method.maxCost) (hb : method.minCost ≤ b ∧ b ≤ method.maxCost)
    (h : method.field a = method.field b) : a = b := by
  have hsha : ∀ {a b : Nat}, CryptMethod.sha256.field a = CryptMethod.sha256.field b → a = b := by
    intro a b h
    unfold CryptMethod.field at h
    simp only at h
    split at h <;> split at h <;> rename_i ha hb
    · exact ha.trans hb.symm
    · cases h
    · cases h
    · have hnumerals : numeral a = numeral b := List.append_cancel_left (List.append_cancel_right h)
      rw [← decimalValue_numeral a,hnumerals,decimalValue_numeral]
  cases method with
  | sha256 => exact hsha h
  | sha512 => exact hsha h
  | bcrypt =>
    have hdigits : twoDigits a = twoDigits b := List.append_cancel_right h
    rw [← decimalValue_twoDigits a,hdigits,decimalValue_twoDigits]
  | yescrypt =>
    have htable : ∀ a ∈ List.range 12,∀ b ∈ List.range 12,1 ≤ a → 1 ≤ b →
        CryptMethod.yescrypt.field a = CryptMethod.yescrypt.field b → a = b := by decide +kernel
    exact htable a (List.mem_range.mpr (Nat.lt_succ_of_le ha.2)) b (List.mem_range.mpr (Nat.lt_succ_of_le hb.2)) ha.1 hb.1 h

/-- A setting says one cost only. -/
theorem encodes_unique (ha : method.minCost ≤ a ∧ a ≤ method.maxCost) (hb : method.minCost ≤ b ∧ b ≤ method.maxCost)
    (hsa : Encodes method a setting) (hsb : Encodes method b setting) : a = b := by
  obtain ⟨salt,hsalt,hlength,_⟩ := hsa.parts
  obtain ⟨salt',hsalt',hlength',_⟩ := hsb.parts
  have hboth : method.magic ++ method.field a ++ salt = method.magic ++ method.field b ++ salt' := hsalt ▸ hsalt'
  have hfields := (List.append_inj' hboth (hlength.trans hlength'.symm)).1
  exact field_inj ha hb (List.append_cancel_left hfields)

end Fields

section Cost
variable {method : CryptMethod}

/-- The cost that is put in the setting. -/
def chosenCost (defs : Defs) (draws : List UInt64) (arg : Option Bytes) : CryptMethod → Option UInt64
  | .sha256 | .sha512 => shaGetSaltRounds defs draws arg
  | .bcrypt => bcryptGetSaltRounds defs draws arg
  | .yescrypt => some (yescryptGetSaltCost defs arg)

theorem clampCost_toNat {min max : UInt64} (h : min ≤ max) (cost : UInt64) :
    (clampCost min max cost).toNat = Max.max min.toNat (Min.min max.toNat cost.toNat) := by
  have hle := UInt64.le_iff_toNat_le.mp h
  unfold clampCost
  simp only [UInt64.lt_iff_toNat_lt]
  split_ifs <;> omega

/-- The int that is read is the low half of the long. -/
theorem readInt_longMemory {r : Nat} (hr : r < 2^63) : readInt (longMemory r) = signed 32 (r % 2^32) := by
  have hword : unsigned 64 (r : Int) = r := by
    unfold unsigned
    omega
  rw [readInt,longMemory,hword,loadBytes_take (by norm_num)]
  norm_num

/-- As an unsigned number a negative one is larger than every bound. -/
theorem toUlong_signed {w : Nat} (hw : w < 2^32) :
    (toUlong (signed 32 w)).toNat = w ∨ (2^31 ≤ w ∧ 2^31 ≤ (toUlong (signed 32 w)).toNat) := by
  have hvalue : (toUlong (signed 32 w)).toNat = unsigned 64 (signed 32 w) := by
    rw [toUlong,UInt64.toNat_ofNat']
    unfold unsigned
    omega
  rw [hvalue]
  unfold signed unsigned
  split <;> omega

private theorem signed_eq_zero {w : Nat} (hw : w < 2^32) : signed 32 w = 0 ↔ w = 0 := by
  unfold signed
  split <;> omega

/-- The int that was read, or the default for zero, within the bounds. -/
theorem clampCost_asked {min max dflt : UInt64} (hle : min ≤ max) (hdflt : min ≤ dflt ∧ dflt ≤ max) (hmax : max.toNat ≤ 2^31) {w : Nat}
    (hw : w < 2^32) : (clampCost min max (if signed 32 w = 0 then dflt else toUlong (signed 32 w))).toNat =
      if w = 0 then dflt.toNat else Max.max min.toNat (Min.min max.toNat w) := by
  rw [clampCost_toNat hle]
  simp only [signed_eq_zero hw]
  rw [UInt64.le_iff_toNat_le] at hle
  simp only [UInt64.le_iff_toNat_le] at hdflt
  split
  · omega
  · rcases toUlong_signed hw with h | ⟨hlarge,h⟩
    · rw [h]
    · omega

theorem chosenCost_asked (defs : Defs) (draws : List UInt64) (method : CryptMethod) {r : Nat} (hr : r < 2^63) :
    ∃ cost, chosenCost defs draws (some (longMemory r)) method = some cost ∧ cost.toNat = method.askedCost (r % 2^32) := by
  have hread := readInt_longMemory hr
  have hw : r % 2^32 < 2^32 := Nat.mod_lt r (by norm_num)
  have hrounds : ∀ rounds : Rounds, getSaltRounds rounds defs draws (some (longMemory r)) =
      some (clampCost rounds.min rounds.max (if signed 32 (r % 2^32) = 0 then rounds.dflt else toUlong (signed 32 (r % 2^32)))) := by
    intro rounds
    rw [← hread]
    rfl
  cases method with
  | sha256 => exact ⟨_,hrounds shaRounds,clampCost_asked (by decide) (by decide) (by decide) hw⟩
  | sha512 => exact ⟨_,hrounds shaRounds,clampCost_asked (by decide) (by decide) (by decide) hw⟩
  | bcrypt => exact ⟨_,hrounds bcryptRounds,clampCost_asked (by decide) (by decide) (by decide) hw⟩
  | yescrypt =>
    refine ⟨_,rfl,?_⟩
    have hcost : yescryptGetSaltCost defs (some (longMemory r)) = clampCost Y_COST_MIN Y_COST_MAX
        (if signed 32 (r % 2^32) = 0 then toUlong Y_COST_DEFAULT else toUlong (signed 32 (r % 2^32))) := by
      rw [yescryptGetSaltCost,hread,apply_ite toUlong]
    rw [hcost]
    exact clampCost_asked (by decide) (by decide) (by decide) hw

/-- The low half asks for the same cost, or the number is too large and its low half is not. -/
theorem askedCost_low_iff (method : CryptMethod) (r : Nat) :
    method.askedCost (r % 2^32) = method.askedCost r ↔ r < 2^32 ∨ method.maxCost ≤ r % 2^32 := by
  have hw : r % 2^32 < 2^32 := Nat.mod_lt r (by norm_num)
  by_cases hsmall : r < 2^32
  · rw [Nat.mod_eq_of_lt hsmall]
    exact iff_of_true rfl (.inl hsmall)
  · have hpos : r ≠ 0 := by omega
    unfold CryptMethod.askedCost CryptMethod.clamped
    rw [if_neg hpos]
    cases method <;> simp only [CryptMethod.minCost,CryptMethod.maxCost,CryptMethod.dfltCost] <;> split <;> omega

end Cost

section Setting
variable {method : CryptMethod} {build : DefsBuild} {defs : Defs} {costDraws saltDraws : List UInt64} {arg : Option Bytes} {cost : UInt64}
  {l64a : UInt64 → Bytes} {buf text : Bytes} {room : Nat}

theorem putText_eq (hroom : buf.length + room < GENSALT_SETTING_SIZE) (htext : text.length ≤ room) :
    putText buf room text = some (buf ++ text) := by
  rw [putText,if_neg (Nat.not_le.mpr hroom),List.take_of_length_le htext]

theorem shaField_length {n : Nat} (hn : n ≤ 999999999) : (ascii "rounds=" ++ numeral n ++ [dollar]).length ≤ 17 := by
  have hdigits := numeral_length_le (k := 9) (by norm_num) (show n < 10^9 by omega)
  have hword : (ascii "rounds=").length = 7 := rfl
  rw [List.length_append,List.length_append,List.length_singleton,hword]
  omega

theorem bcryptField_length {n : Nat} (hn : n ≤ 19) : (twoDigits n ++ [dollar]).length ≤ 3 := by
  unfold twoDigits
  split
  · have hdigits := numeral_length_le (k := 1) (by norm_num) (show n < 10^1 by omega)
    rw [List.length_append,List.length_cons,List.length_singleton]
    omega
  · have hdigits := numeral_length_le (k := 2) (by norm_num) (show n < 10^2 by omega)
    rw [List.length_append,List.length_singleton]
    omega

private theorem magic_field_length {n : Nat} (hn : n ≤ method.maxCost) : (method.magic ++ method.field n).length ≤ 20 := by
  have hsha : (if n = 5000 then [] else ascii "rounds=" ++ numeral n ++ [dollar] : Bytes).length ≤ 17 ∨ 999999999 < n := by
    split
    · exact .inl (Nat.zero_le _)
    · by_cases hle : n ≤ 999999999
      · exact .inl (shaField_length hle)
      · exact .inr (Nat.not_le.mp hle)
  rw [List.length_append]
  cases method with
  | sha256 =>
    have hmagic : CryptMethod.sha256.magic.length = 3 := rfl
    have hfield : (CryptMethod.sha256.field n).length ≤ 17 := hsha.resolve_right (Nat.not_lt.mpr hn)
    omega
  | sha512 =>
    have hmagic : CryptMethod.sha512.magic.length = 3 := rfl
    have hfield : (CryptMethod.sha512.field n).length ≤ 17 := hsha.resolve_right (Nat.not_lt.mpr hn)
    omega
  | bcrypt =>
    have hmagic : CryptMethod.bcrypt.magic.length = 4 := rfl
    have hfield : (CryptMethod.bcrypt.field n).length ≤ 3 := bcryptField_length hn
    omega
  | yescrypt =>
    have hmagic : CryptMethod.yescrypt.magic.length = 3 := rfl
    have hfield : (CryptMethod.yescrypt.field n).length = 4 := rfl
    omega

private theorem shaSaltRoundsToBuf_eq (hbuf : buf.length = 3) (hcost : cost.toNat ≤ 999999999) :
    shaSaltRoundsToBuf buf cost = some (buf ++ CryptMethod.sha512.field cost.toNat) := by
  have hdflt : cost = SHA_ROUNDS_DEFAULT ↔ cost.toNat = 5000 := UInt64.toNat_inj.symm
  unfold shaSaltRoundsToBuf CryptMethod.field
  simp only [hdflt]
  split
  · rw [List.append_nil]
  · apply putText_eq
    · rw [hbuf]
      decide
    · exact shaField_length hcost

/-- The prefix and the text of the chosen cost. -/
theorem settingPrefix_eq (hchosen : chosenCost defs costDraws arg method = some cost) (hcost : cost.toNat ≤ method.maxCost) :
    settingPrefix defs costDraws arg method = some (method.magic ++ method.field cost.toNat) := by
  cases method with
  | sha256 =>
    have hbind : settingPrefix defs costDraws arg .sha256 =
        (chosenCost defs costDraws arg .sha256).bind (shaSaltRoundsToBuf CryptMethod.sha256.magic) := rfl
    rw [hbind,hchosen,Option.bind_some,shaSaltRoundsToBuf_eq rfl hcost]
    rfl
  | sha512 =>
    have hbind : settingPrefix defs costDraws arg .sha512 =
        (chosenCost defs costDraws arg .sha512).bind (shaSaltRoundsToBuf CryptMethod.sha512.magic) := rfl
    rw [hbind,hchosen,Option.bind_some,shaSaltRoundsToBuf_eq rfl hcost]
  | bcrypt =>
    have hbind : settingPrefix defs costDraws arg .bcrypt =
        (chosenCost defs costDraws arg .bcrypt).bind (bcryptSaltRoundsToBuf CryptMethod.bcrypt.magic) := rfl
    rw [hbind,hchosen,Option.bind_some]
    exact putText_eq (by decide) (bcryptField_length hcost)
  | yescrypt =>
    have hcost' : yescryptGetSaltCost defs arg = cost := Option.some.inj hchosen
    have h3 : cost < 3 ↔ cost.toNat < 3 := UInt64.lt_iff_toNat_lt
    have h6 : cost < 6 ↔ cost.toNat < 6 := UInt64.lt_iff_toNat_lt
    have h3' : 3 ≤ cost ↔ 3 ≤ cost.toNat := UInt64.le_iff_toNat_le
    rw [settingPrefix,hcost',yescryptSaltCostToBuf]
    simp only [h3,h6,h3']
    exact putText_eq (by decide) (Nat.le_refl 4)

/-- What is assumed of the library: at most six of the characters. -/
def SaltText (l64a : UInt64 → Bytes) : Prop := ∀ n, (l64a n).length ≤ 6 ∧ ∀ b ∈ l64a n, isSaltChar b = true

def saltAlphabet : Bytes := ascii "./0123456789ABCDEFGHIJKLMNOPQRSTUVWXYZabcdefghijklmnopqrstuvwxyz"

def base64Digits : Nat → Nat → Bytes
  | 0, _ => []
  | count + 1, n => if n = 0 then [] else saltAlphabet.getD (n % 64) 46 :: base64Digits count (n / 64)

/-- What the library does: the low 32 bits, six at a time, the lowest first. -/
def standardL64a (n : UInt64) : Bytes := base64Digits 6 (n.toNat % 2^32)

private theorem base64Digits_text (count n : Nat) :
    (base64Digits count n).length ≤ count ∧ ∀ b ∈ base64Digits count n, isSaltChar b = true := by
  have halphabet : ∀ b ∈ saltAlphabet, isSaltChar b = true := by decide +kernel
  have hdigit : ∀ i, isSaltChar (saltAlphabet.getD i 46) = true := by
    intro i
    rw [List.getD_eq_getElem?_getD]
    cases h : saltAlphabet[i]? with
    | none => rfl
    | some b => exact halphabet b (List.mem_of_getElem? h)
  induction count generalizing n with
  | zero => exact ⟨Nat.le_refl 0,fun _ hb => absurd hb List.not_mem_nil⟩
  | succ count ih =>
    obtain ⟨hlength,hchars⟩ := ih (n / 64)
    rw [base64Digits]
    split
    · exact ⟨Nat.zero_le _,fun _ hb => absurd hb List.not_mem_nil⟩
    · refine ⟨Nat.succ_le_succ hlength,?_⟩
      intro b hb
      rcases List.mem_cons.mp hb with rfl | hb
      · exact hdigit _
      · exact hchars b hb

theorem standardL64a_text : SaltText standardL64a := fun _ => base64Digits_text 6 _

theorem strcatSalt_eq {salt s : Bytes} (h : salt.length + s.length + 1 ≤ MAX_SALT_SIZE + 6) :
    strcatSalt salt s = some (salt ++ s) := if_pos h

/-- Draws that make enough characters end the loop, and the buffer has room for what it puts there. -/
theorem gensaltLoop_spec (hl64a : SaltText l64a) {saltSize : Nat} (hsize : saltSize ≤ MAX_SALT_SIZE) {salt : Bytes}
    (hsalt : salt.length < saltSize) (hchars : ∀ b ∈ salt, isSaltChar b = true) {draws : List UInt64}
    (hends : saltSize ≤ salt.length + (draws.flatMap l64a).length) :
    ∃ result, gensaltLoop l64a saltSize draws salt = some result ∧ saltSize ≤ result.length ∧ ∀ b ∈ result, isSaltChar b = true := by
  induction draws generalizing salt with
  | nil =>
    rw [List.flatMap_nil,List.length_nil] at hends
    omega
  | cons draw draws ih =>
    obtain ⟨hlength,hdraw⟩ := hl64a draw
    have hchars' : ∀ b ∈ salt ++ l64a draw, isSaltChar b = true := by
      intro b hb
      rcases List.mem_append.mp hb with hb | hb
      · exact hchars b hb
      · exact hdraw b hb
    rw [gensaltLoop,strcatSalt_eq (by omega),Option.bind_some]
    split
    · rename_i hshort
      apply ih hshort hchars'
      rw [List.flatMap_cons,List.length_append] at hends
      rw [List.length_append]
      omega
    · rename_i hlong
      exact ⟨_,rfl,Nat.not_lt.mp hlong,hchars'⟩

private theorem gensalt_spec (hl64a : SaltText l64a) {saltSize : Nat} (hsize : MIN_SALT_SIZE ≤ saltSize ∧ saltSize ≤ MAX_SALT_SIZE)
    (hends : saltSize ≤ (saltDraws.flatMap l64a).length) :
    ∃ salt, gensalt l64a saltSize saltDraws = some salt ∧ salt.length = saltSize ∧ ∀ b ∈ salt, isSaltChar b = true := by
  have hmin : 8 ≤ saltSize := hsize.1
  cases saltDraws with
  | nil =>
    rw [List.flatMap_nil,List.length_nil] at hends
    omega
  | cons draw draws =>
    obtain ⟨hlength,hdraw⟩ := hl64a draw
    rw [List.flatMap_cons,List.length_append] at hends
    obtain ⟨salt,hsalt,hlong,hchars⟩ := gensaltLoop_spec hl64a hsize.2 (by omega) hdraw hends
    refine ⟨salt.take saltSize,?_,?_,?_⟩
    · rw [gensalt,if_neg (by omega)]
      rw [strcatSalt_eq (by rw [List.length_nil]; unfold MAX_SALT_SIZE; omega),Option.bind_some,List.nil_append,hsalt]
      rfl
    · rw [List.length_take]
      omega
    · intro b hb
      exact hchars b (List.mem_of_mem_take hb)

private theorem methodNamed_name (h : method.isIn build = true) : methodNamed build method.name = method := by
  have hnames : ascii "SHA512" ≠ ascii "SHA256" ∧ ascii "SHA512" ≠ ascii "BCRYPT" ∧ ascii "SHA512" ≠ ascii "YESCRYPT" ∧
      ascii "BCRYPT" ≠ ascii "SHA256" ∧ ascii "YESCRYPT" ≠ ascii "SHA256" ∧ ascii "YESCRYPT" ≠ ascii "BCRYPT" := by decide +kernel
  obtain ⟨h₁,h₂,h₃,h₄,h₅,h₆⟩ := hnames
  unfold methodNamed
  cases method with
  | sha256 => exact if_pos rfl
  | sha512 => simp only [CryptMethod.name,h₁,h₂,h₃,and_false,if_false]
  | bcrypt =>
    have hbuild : build.useBcrypt = true := h
    simp only [CryptMethod.name,h₄,hbuild,and_self,if_true,if_false]
  | yescrypt =>
    have hbuild : build.useYescrypt = true := h
    simp only [CryptMethod.name,h₅,h₆,hbuild,and_false,and_self,if_true,if_false]

/-- The setting for a method says the cost that was chosen. -/
theorem cryptMakeSalt_spec (hl64a : SaltText l64a) (hbuild : method.isIn build = true)
    (hends : method.saltSize ≤ (saltDraws.flatMap l64a).length) (hchosen : chosenCost defs costDraws arg method = some cost)
    (hcost : cost.toNat ≤ method.maxCost) :
    ∃ setting, cryptMakeSalt build l64a defs costDraws saltDraws (some method.name) arg = some setting ∧
      Encodes method cost.toNat setting := by
  have hsize : MIN_SALT_SIZE ≤ method.saltSize ∧ method.saltSize ≤ 24 := by cases method <;> decide
  have hlength := magic_field_length hcost
  obtain ⟨salt,hsalt,hexact,hchars⟩ := gensalt_spec hl64a ⟨hsize.1,hsize.2.trans (by decide)⟩ hends
  have htake : salt.take (GENSALT_SETTING_SIZE - (method.magic ++ method.field cost.toNat).length - 1) = salt := by
    apply List.take_of_length_le
    unfold GENSALT_SETTING_SIZE
    omega
  refine ⟨method.magic ++ method.field cost.toNat ++ salt,?_,?_,salt,rfl,hexact,hchars⟩
  · unfold cryptMakeSalt
    simp only [Option.some_or,Option.getD_some,methodNamed_name hbuild]
    rw [settingPrefix_eq hchosen hcost,Option.bind_some,if_neg (by unfold GENSALT_SETTING_SIZE; omega),hsalt,Option.map_some,htake]
  · rw [List.length_append,hexact]
    unfold GENSALT_SETTING_SIZE
    omega

end Setting

section Configured
variable {build : DefsBuild} {l64a : UInt64 → Bytes} {defs : Defs} {costDraws saltDraws : List UInt64}

theorem strtoi_le {s : Bytes} {base : Nat} {min max n : Int} {status : Status} (hle : min ≤ max)
    (h : strtoi s base min max = (n,status)) : n ≤ max := by
  have hn : n = (strtoi s base min max).1 := by rw [h]
  rw [hn]
  unfold strtoi
  split
  · exact max_le hle (min_le_left max 0)
  · split
    · exact max_le hle (min_le_left max 0)
    · exact max_le hle (min_le_left max _)

private theorem getdefLong_lt (defs : Defs) (item : Bytes) : getdefLong defs item (-1) < 2^63 := by
  unfold getdefLong getdefSigned
  cases getdefStr defs item with
  | none => decide
  | some value =>
    simp only
    split
    · rename_i n hn
      exact Int.lt_of_le_sub_one (strtoi_le (by norm_num) hn)
    · decide

private theorem toUlong_toNat {n : Int} (hpos : 0 ≤ n) (hn : n < 2^63) : ((toUlong n).toNat : Int) = n := by
  rw [toUlong,UInt64.toNat_ofNat']
  unfold unsigned
  omega

/-- With both bounds configured the rounds are drawn between them. -/
theorem chosenCost_configured (costDraws : List UInt64) {method : CryptMethod} (hsha : method = .sha256 ∨ method = .sha512)
    (hmin : 0 ≤ getdefLong defs shaRounds.minItem (-1)) (hmax : 0 ≤ getdefLong defs shaRounds.maxItem (-1)) :
    chosenCost defs costDraws none method =
      (csrandInterval (toUlong (getdefLong defs shaRounds.minItem (-1)))
        (toUlong (max (getdefLong defs shaRounds.minItem (-1)) (getdefLong defs shaRounds.maxItem (-1)))) costDraws).map
          (clampCost shaRounds.min shaRounds.max) := by
  have hchosen : chosenCost defs costDraws none method =
      (configuredRounds shaRounds defs costDraws).map (clampCost shaRounds.min shaRounds.max) := by
    rcases hsha with rfl | rfl <;> rfl
  have hconfigured : configuredRounds shaRounds defs costDraws =
      csrandInterval (toUlong (getdefLong defs shaRounds.minItem (-1)))
        (toUlong (max (getdefLong defs shaRounds.minItem (-1)) (getdefLong defs shaRounds.maxItem (-1)))) costDraws := by
    unfold configuredRounds
    generalize getdefLong defs shaRounds.minItem (-1) = lo at hmin
    generalize getdefLong defs shaRounds.maxItem (-1) = hi at hmax
    have hlo : lo ≠ -1 := by omega
    have hhi : hi ≠ -1 := by omega
    simp only [hlo,hhi,and_self,if_false]
    rw [max_comm,max_def_lt]
  rw [hchosen,hconfigured]

/-- Without a number from the user the cost is one of the configured ones, within the bounds of the method. -/
def ConfiguredCost (build : DefsBuild) (l64a : UInt64 → Bytes) : Prop :=
  ∀ (method : CryptMethod) (defs : Defs) (costDraws saltDraws : List UInt64) (lo hi : Int), method = .sha256 ∨ method = .sha512 →
    lo = getdefLong defs (ascii "SHA_CRYPT_MIN_ROUNDS") (-1) → hi = getdefLong defs (ascii "SHA_CRYPT_MAX_ROUNDS") (-1) →
    0 ≤ lo → 0 ≤ hi → csrandInterval (toUlong lo) (toUlong (max lo hi)) costDraws ≠ none →
    method.saltSize ≤ (saltDraws.flatMap l64a).length →
    ∃ (rounds : Nat) (setting : Bytes), cryptMakeSalt build l64a defs costDraws saltDraws (some method.name) none = some setting ∧
      lo ≤ rounds ∧ (rounds : Int) ≤ max lo hi ∧ Encodes method (method.clamped rounds) setting

theorem configuredCost (build : DefsBuild) (hl64a : SaltText l64a) : ConfiguredCost build l64a := by
  rintro method defs costDraws saltDraws lo hi hsha rfl rfl hlo hhi hends hsalt
  obtain ⟨rounds,hrounds⟩ := Option.ne_none_iff_exists'.mp hends
  have hlt := getdefLong_lt defs (ascii "SHA_CRYPT_MIN_ROUNDS")
  have hlt' := getdefLong_lt defs (ascii "SHA_CRYPT_MAX_ROUNDS")
  have hbegin := toUlong_toNat hlo hlt
  have hend := toUlong_toNat (n := max _ _) (le_max_of_le_left hlo) (max_lt hlt hlt')
  have hchosen := chosenCost_configured costDraws hsha hlo hhi
  have hbuild : method.isIn build = true := by rcases hsha with rfl | rfl <;> rfl
  have hordered : toUlong (getdefLong defs (ascii "SHA_CRYPT_MIN_ROUNDS") (-1)) ≤
      toUlong (max (getdefLong defs (ascii "SHA_CRYPT_MIN_ROUNDS") (-1)) (getdefLong defs (ascii "SHA_CRYPT_MAX_ROUNDS") (-1))) := by
    rw [UInt64.le_iff_toNat_le]
    omega
  obtain ⟨hmin,hmax⟩ := csrandInterval_mem hordered hrounds
  rw [UInt64.le_iff_toNat_le] at hmin hmax
  have hcost : (clampCost shaRounds.min shaRounds.max rounds).toNat = method.clamped rounds.toNat := by
    rw [clampCost_toNat (by decide)]
    rcases hsha with rfl | rfl <;> rfl
  change chosenCost defs costDraws none method = (csrandInterval (toUlong (getdefLong defs (ascii "SHA_CRYPT_MIN_ROUNDS") (-1)))
    (toUlong (max (getdefLong defs (ascii "SHA_CRYPT_MIN_ROUNDS") (-1)) (getdefLong defs (ascii "SHA_CRYPT_MAX_ROUNDS") (-1))))
      costDraws).map _ at hchosen
  rw [hrounds,Option.map_some] at hchosen
  obtain ⟨setting,hsetting,hencodes⟩ := cryptMakeSalt_spec hl64a hbuild hsalt hchosen (hcost ▸ (clamped_bounds method rounds.toNat).2)
  rw [hcost] at hencodes
  exact ⟨rounds.toNat,setting,hsetting,by omega,by omega,hencodes⟩

end Configured

end UserDb.Login.Salt
