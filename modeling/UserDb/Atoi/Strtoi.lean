import UserDb.Base.Bytes

/-! Reading numbers from text: the library conversions with their ranges, and what the
callers make of them. -/
namespace UserDb.Atoi
open UserDb.Base

/-- What a conversion reports, under the names of the error numbers. -/
inductive Status where
  | success | einval | ecanceled | erange | enotsup
  deriving DecidableEq, Repr

def isSpace (b : UInt8) : Bool := b == 32 || (9 ≤ b && b ≤ 13)

/-- The digit that a letter or a decimal digit stands for. -/
def alnumValue (b : UInt8) : Option Nat :=
  if isDigit b then some (digitValue b)
  else if 97 ≤ b && b ≤ 122 then some (b.toNat - 87)
  else if 65 ≤ b && b ≤ 90 then some (b.toNat - 55)
  else none

def isDigitIn (base : Nat) (b : UInt8) : Bool := (alnumValue b).any (· < base)

def valueIn (base : Nat) (digits : Bytes) : Nat :=
  digits.foldl (fun n b => n * base + (alnumValue b).getD 0) 0

/-- A hexadecimal prefix counts where a digit follows it. -/
def hasHexPrefix : Bytes → Bool
  | 48 :: x :: d :: _ => (x == 120 || x == 88) && isDigitIn 16 d
  | _ => false

/-- The base that is read in, and the text after a prefix of it. -/
def radix (base : Nat) (s : Bytes) : Nat × Bytes :=
  if (base == 0 || base == 16) && hasHexPrefix s then (16,s.drop 2)
  else if base == 0 then (if s.head? == some 48 then 8 else 10,s)
  else (base,s)

/-- The number at the start of a text: its sign, its size and what comes after it. -/
structure Scanned where
  negative : Bool
  magnitude : Nat
  rest : Bytes

def scan (s : Bytes) (base : Nat) : Option Scanned :=
  let s := s.dropWhile isSpace
  let negative := s.head? == some 45
  let s := if negative || s.head? == some 43 then s.tail else s
  let (base,s) := radix base s
  let digits := s.takeWhile (isDigitIn base)
  if digits.isEmpty then none else some ⟨negative,valueIn base digits,s.dropWhile (isDigitIn base)⟩

/-- The signed value, and whether it was out of range. -/
def strtoimax (scanned : Scanned) : Int × Bool :=
  let n : Int := if scanned.negative then -scanned.magnitude else scanned.magnitude
  if n < -(2^63) then (-(2^63),true) else if 2^63 - 1 < n then (2^63 - 1,true) else (n,false)

/-- The unsigned value, where a sign negates it modulo the word, and whether it was out of range. -/
def strtoumax (scanned : Scanned) : Nat × Bool :=
  if 2^64 - 1 < scanned.magnitude then (2^64 - 1,true)
  else if scanned.negative then ((2^64 - scanned.magnitude) % 2^64,false)
  else (scanned.magnitude,false)

def isBase (base : Nat) : Bool := base == 0 || (2 ≤ base && base ≤ 36)

def strtoi (s : Bytes) (base : Nat) (min max : Int) : Int × Status :=
  if !isBase base then (Max.max min (Min.min max 0),.einval)
  else
    match scan s base with
    | none => (Max.max min (Min.min max 0),.ecanceled)
    | some scanned =>
      let (n,range) := strtoimax scanned
      (Max.max min (Min.min max n),
        if range || n < min || max < n then .erange
        else if scanned.rest.isEmpty then .success else .enotsup)

def strtou (s : Bytes) (base : Nat) (min max : Nat) : Nat × Status :=
  if !isBase base then (Max.max min 0,.einval)
  else
    match scan s base with
    | none => (Max.max min (Min.min max 0),.ecanceled)
    | some scanned =>
      let (n,range) := strtoumax scanned
      (Max.max min (Min.min max n),
        if range || n < min || max < n then .erange
        else if scanned.rest.isEmpty then .success else .enotsup)

/-- A negative number is refused before it is read as an unsigned one. -/
def strtouNoneg (s : Bytes) (base : Nat) (min max : Nat) : Nat × Status :=
  if strtoi s base 0 1 = (0,.erange) then (min,.erange) else strtou s base min max

/-- A number of an unsigned type, within bounds, as the whole of a text. -/
def a2i (s : Bytes) (base : Nat) (min max : Nat) : Option Nat :=
  match strtouNoneg s base min max with
  | (n,.success) => some n
  | _ => none

def getUid (s : Bytes) : Option Nat := a2i s 10 0 (2^32 - 1)

def getGid (s : Bytes) : Option Nat := a2i s 10 0 (2^32 - 1)

/-- A process number is of a signed type, for which the signed conversion is used. -/
def getPid (s : Bytes) : Option Nat :=
  match strtoi s 10 1 (2^31 - 1) with
  | (n,.success) => some n.toNat
  | _ => none

/-- An accepted number is within the bounds it was read with. -/
theorem a2i_bounds {s : Bytes} {base min max n : Nat} (h : a2i s base min max = some n) :
    min ≤ n ∧ n ≤ max := by
  have hstrtou : strtou s base min max = (n,.success) := by
    unfold a2i strtouNoneg at h
    split at h
    · rename_i heq
      split at heq
      · cases heq
      · rwa [Option.some.inj h] at heq
    · cases h
  unfold strtou at hstrtou
  split at hstrtou
  · cases hstrtou
  · cases hscan : scan s base with
    | none =>
      rw [hscan] at hstrtou
      cases hstrtou
    | some scanned =>
      simp only [hscan,Prod.mk.injEq] at hstrtou
      obtain ⟨hn,hstatus⟩ := hstrtou
      split at hstatus
      · cases hstatus
      · rename_i hrange
        simp only [Bool.or_eq_true,decide_eq_true_eq,not_or] at hrange
        omega

/-! Decimal numerals. -/

theorem alnumValue_of_isDigit {b : UInt8} (h : isDigit b = true) : alnumValue b = some (digitValue b) :=
  if_pos h

theorem isDigitIn_of_isDigit {b : UInt8} (h : isDigit b = true) : isDigitIn 10 b = true := by
  have hb := isDigit_iff.mp h
  rw [isDigitIn,alnumValue_of_isDigit h,Option.any_some,digitValue]
  exact decide_eq_true (by omega)

private theorem valueIn_numeral (n : Nat) : valueIn 10 (numeral n) = n := by
  have hvalue : valueIn 10 (numeral n) = decimalValue (numeral n) := by
    apply List.foldl_ext
    intro m b hb
    rw [alnumValue_of_isDigit (numeral_digits hb),Option.getD_some]
  rw [hvalue,decimalValue_numeral]

private theorem numeral_head_ne_zero {n : Nat} (h : n ≠ 0) : (numeral n).head? ≠ some 48 := by
  induction n using Nat.strong_induction_on with
  | _ n ih =>
    rcases Nat.lt_or_ge n 10 with hlt | hge
    · rw [numeral_lt hlt,List.head?_cons]
      intro h0
      have h48 := congrArg UInt8.toNat (Option.some.inj h0)
      rw [digit_toNat hlt] at h48
      have : UInt8.toNat 48 = 48 := rfl
      omega
    · rw [numeral_step hge,List.head?_append_of_ne_nil _ (numeral_ne_nil _)]
      exact ih (n/10) (by omega) (by omega)

/-- A numeral has no prefix: without a base it is decimal, or the octal zero. -/
theorem radix_numeral {base : Nat} (hbase : base = 0 ∨ base = 10) (n : Nat) :
    ∃ b, radix base (numeral n) = (b,numeral n) ∧ (b = 10 ∨ b = 8 ∧ n = 0) := by
  rcases hbase with rfl | rfl
  · rcases Nat.eq_zero_or_pos n with rfl | hpos
    · exact ⟨8,by decide,.inr ⟨rfl,rfl⟩⟩
    · have hhead := numeral_head_ne_zero (Nat.ne_of_gt hpos)
      have hhex : hasHexPrefix (numeral n) = false := by
        unfold hasHexPrefix
        split
        · rename_i heq
          rw [heq] at hhead
          exact absurd rfl hhead
        · rfl
      exact ⟨10,by simp [radix,hhex,hhead],.inl rfl⟩
  · exact ⟨10,rfl,.inl rfl⟩

/-- A text of digits is scanned whole. -/
theorem scan_of_digits {s : Bytes} {base radix' : Nat} (hne : s ≠ []) (hd : ∀ b ∈ s, isDigit b = true)
    (hradix : radix base s = (radix',s)) (hall : ∀ b ∈ s, isDigitIn radix' b = true) :
    scan s base = some ⟨false,valueIn radix' s,[]⟩ := by
  obtain ⟨b,rest,hb⟩ := List.exists_cons_of_ne_nil hne
  have hdigit := isDigit_iff.mp (hd b (hb ▸ List.mem_cons_self))
  have hspace : isSpace b = false := by
    have h32 : UInt8.toNat 32 = 32 := rfl
    have h13 : UInt8.toNat 13 = 13 := rfl
    simp only [isSpace,Bool.or_eq_false_iff,beq_eq_false_iff_ne,ne_eq,Bool.and_eq_false_iff,
      decide_eq_false_iff_not,UInt8.le_iff_toNat_le,← UInt8.toNat_inj,h32,h13]
    omega
  have hdrop : s.dropWhile isSpace = s := by rw [hb,List.dropWhile_cons,hspace]; rfl
  have hminus : s.head? ≠ some 45 := by
    rw [hb]
    rintro h
    rw [Option.some.inj h] at hdigit
    exact absurd hdigit.1 (by decide)
  have hplus : s.head? ≠ some 43 := by
    rw [hb]
    rintro h
    rw [Option.some.inj h] at hdigit
    exact absurd hdigit.1 (by decide)
  have htake : s.takeWhile (isDigitIn radix') = s := List.takeWhile_eq_self_iff.mpr hall
  have hrest : s.dropWhile (isDigitIn radix') = [] := List.dropWhile_eq_nil_iff.mpr hall
  have hempty : s.isEmpty = false := by rw [hb]; rfl
  simp [scan,hradix,hdrop,hminus,hplus,htake,hrest,hempty]

theorem scan_numeral {base : Nat} (hbase : base = 0 ∨ base = 10) (n : Nat) :
    scan (numeral n) base = some ⟨false,n,[]⟩ := by
  obtain ⟨radix',hradix,hcase⟩ := radix_numeral hbase n
  have hzero : numeral 0 = [48] := rfl
  have hall : ∀ b ∈ numeral n, isDigitIn radix' b = true := by
    rcases hcase with rfl | ⟨rfl,rfl⟩
    · exact fun b hb => isDigitIn_of_isDigit (numeral_digits hb)
    · intro b hb
      rw [hzero] at hb
      rw [List.mem_singleton.mp hb]
      rfl
  have hvalue : valueIn radix' (numeral n) = n := by
    rcases hcase with rfl | ⟨rfl,rfl⟩
    · exact valueIn_numeral n
    · rw [hzero]
      rfl
  rw [scan_of_digits (numeral_ne_nil n) (fun _ => numeral_digits) hradix hall,hvalue]

/-- Decimal digits are scanned whole, also with zeros in front. -/
theorem scan_digits {s : Bytes} (hne : s ≠ []) (hd : ∀ b ∈ s, isDigit b = true) :
    scan s 10 = some ⟨false,valueIn 10 s,[]⟩ :=
  scan_of_digits hne hd rfl fun b hb => isDigitIn_of_isDigit (hd b hb)

private theorem strtoimax_small {n : Nat} (h : n < 2^63) : strtoimax ⟨false,n,[]⟩ = ((n : Int),false) := by
  simp only [strtoimax,Bool.false_eq_true,if_false]
  rw [if_neg (by omega),if_neg (by omega)]

theorem strtoi_numeral {base n : Nat} {min max : Int} (hbase : base = 0 ∨ base = 10) (hmin : min ≤ n) (hmax : n ≤ max)
    (hword : n < 2^63) : strtoi (numeral n) base min max = ((n : Int),.success) := by
  have hisBase : isBase base = true := by rcases hbase with rfl | rfl <;> rfl
  simp only [strtoi,hisBase,scan_numeral hbase,strtoimax_small hword]
  simp [show ¬ (n : Int) < min by omega,show ¬ max < (n : Int) by omega]
  omega

/-- A text that is scanned whole is read as its number. -/
theorem a2i_of_scan {s : Bytes} {base n max : Nat} (hbase : isBase base = true) (hscan : scan s base = some ⟨false,n,[]⟩)
    (hn : n ≤ max) (hmax : max < 2^64) : a2i s base 0 max = some n := by
  have hneg : strtoi s base 0 1 ≠ (0,.erange) := by
    have hsigned : 0 ≤ (strtoimax ⟨false,n,[]⟩).1 ∧ ((strtoimax ⟨false,n,[]⟩).2 = true → 1 ≤ (strtoimax ⟨false,n,[]⟩).1) := by
      simp only [strtoimax,Bool.false_eq_true,if_false]
      split
      · omega
      · split <;> simp
    simp only [strtoi,hbase,hscan]
    rcases hs : strtoimax ⟨false,n,[]⟩ with ⟨m,range⟩
    rw [hs] at hsigned
    simp only [Bool.not_true,Bool.false_eq_true,if_false,ne_eq,Prod.mk.injEq,not_and]
    intro hzero
    rcases hrange : range with _ | _
    · simp [show ¬ m < 0 by omega,show ¬ 1 < m by omega]
    · have hone := hsigned.2 hrange
      omega
  have hunsigned : strtoumax ⟨false,n,[]⟩ = (n,false) := by
    simp only [strtoumax,Bool.false_eq_true,if_false]
    rw [if_neg (by omega)]
  have hstrtou : strtou s base 0 max = (n,.success) := by
    simp only [strtou,hbase,hscan,hunsigned]
    simp [show ¬ max < n by omega,hn]
  rw [a2i,strtouNoneg,if_neg hneg,hstrtou]

/-- A numeral is read back as the number it was written from. -/
theorem a2i_numeral {base n max : Nat} (hbase : base = 0 ∨ base = 10) (hn : n ≤ max) (hmax : max < 2^64) :
    a2i (numeral n) base 0 max = some n := by
  have hisBase : isBase base = true := by rcases hbase with rfl | rfl <;> rfl
  exact a2i_of_scan hisBase (scan_numeral hbase n) hn hmax

theorem getUid_digits {s : Bytes} (hne : s ≠ []) (hd : ∀ b ∈ s, isDigit b = true) (h : valueIn 10 s < 2^32) :
    getUid s = some (valueIn 10 s) :=
  a2i_of_scan rfl (scan_digits hne hd) (by omega) (by omega)

theorem getUid_numeral {n : Nat} (h : n < 2^32) : getUid (numeral n) = some n :=
  a2i_numeral (.inr rfl) (by omega) (by omega)

theorem getGid_numeral {n : Nat} (h : n < 2^32) : getGid (numeral n) = some n :=
  a2i_numeral (.inr rfl) (by omega) (by omega)

theorem getPid_numeral {n : Nat} (hpos : 0 < n) (h : n < 2^31) : getPid (numeral n) = some n := by
  rw [getPid,strtoi_numeral (.inr rfl) (by omega) (by omega) (by omega)]
  rfl

/-! Numbers read without a base. -/

private theorem valueIn_lt {base : Nat} {digits : Bytes} (hbase : 0 < base) (h : ∀ b ∈ digits, isDigitIn base b = true) :
    valueIn base digits < base^digits.length := by
  induction digits using List.reverseRecOn with
  | nil => simp [valueIn]
  | append_singleton digits b ih =>
    have ih := ih fun x hx => h x (List.mem_append_left _ hx)
    have hb := h b (by simp)
    have hvalue : (alnumValue b).getD 0 < base := by
      rw [isDigitIn] at hb
      cases halnum : alnumValue b with
      | none => simpa using hbase
      | some d => simpa [halnum] using hb
    have hstep : valueIn base (digits ++ [b]) = valueIn base digits * base + (alnumValue b).getD 0 := by
      simp [valueIn,List.foldl_append]
    rw [hstep,List.length_append,List.length_singleton,pow_succ]
    nlinarith

/-- The digits that are scanned without a base: behind a prefix of two letters they are hexadecimal. -/
theorem scan_eq_some {s : Bytes} {scanned : Scanned} (h : scan s 0 = some scanned) :
    ∃ base digits skipped, scanned.magnitude = valueIn base digits ∧ digits ≠ [] ∧
      (∀ b ∈ digits, isDigitIn base b = true) ∧ skipped + digits.length ≤ s.length ∧
      (base = 16 ∧ skipped = 2 ∨ base = 8 ∧ skipped = 0 ∨ base = 10 ∧ skipped = 0) := by
  unfold scan at h
  dsimp only at h
  have hradix : ∀ t : Bytes, ∃ base skipped, radix 0 t = (base,t.drop skipped) ∧ skipped ≤ t.length ∧
      (base = 16 ∧ skipped = 2 ∨ base = 8 ∧ skipped = 0 ∨ base = 10 ∧ skipped = 0) := by
    intro t
    unfold radix
    by_cases hhex : hasHexPrefix t = true
    · refine ⟨16,2,by simp [hhex],?_,.inl ⟨rfl,rfl⟩⟩
      unfold hasHexPrefix at hhex
      split at hhex
      · simp
      · cases hhex
    · by_cases hzero : t.head? = some 48
      · exact ⟨8,0,by simp [hhex,hzero],by simp,.inr (.inl ⟨rfl,rfl⟩)⟩
      · exact ⟨10,0,by simp [hhex,hzero],by simp,.inr (.inr ⟨rfl,rfl⟩)⟩
  have hsub : ∀ (signed : Bool) (t : Bytes), (if signed then t.tail else t).length ≤ t.length := by
    intro signed t
    cases signed <;> simp
  have hspace := (List.dropWhile_suffix (p := isSpace) (l := s)).length_le
  generalize s.dropWhile isSpace = t at h hspace
  have htail := hsub ((t.head? == some 45) || t.head? == some 43) t
  generalize (if ((t.head? == some 45) || t.head? == some 43) = true then t.tail else t) = u at h htail
  obtain ⟨base,skipped,hu,hskipped,hbase⟩ := hradix u
  simp only [hu] at h
  split at h
  · cases h
  · rename_i hdigits
    cases h
    refine ⟨base,_,skipped,rfl,by simpa using hdigits,fun b hb => List.mem_takeWhile_imp hb,?_,hbase⟩
    have htake := (List.takeWhile_prefix (p := isDigitIn base) (l := u.drop skipped)).length_le
    rw [List.length_drop] at htake
    omega

/-- A signed conversion to a range without negative numbers refuses them. -/
theorem strtoi_negative {s rest : Bytes} {magnitude : Nat} (hscan : scan s 0 = some ⟨true,magnitude,rest⟩)
    (hpos : 0 < magnitude) : strtoi s 0 0 1 = (0,.erange) := by
  have hbase : isBase 0 = true := rfl
  have hvalue : (strtoimax ⟨true,magnitude,rest⟩).1 < 0 := by
    simp only [strtoimax,if_true]
    split_ifs <;> omega
  simp only [strtoi,hbase,hscan,Bool.not_true,Bool.false_eq_true,if_false,hvalue,decide_true,Bool.or_true,
    Bool.true_or,if_true,Prod.mk.injEq,and_true]
  omega

/-- The number that an argument is as a whole; zero may have a sign. -/
def Denotes (arg : Bytes) (n : Nat) : Prop :=
  ∃ scanned, scan arg 0 = some scanned ∧ scanned.rest = [] ∧ scanned.magnitude = n ∧ (scanned.negative = true → n = 0)

/-- What is accepted is the number of the whole text. -/
theorem Denotes.of_a2i {arg : Bytes} {min max n : Nat} (h : a2i arg 0 min max = some n) (hmax : max < 2^64 - 1) :
    Denotes arg n := by
  unfold a2i strtouNoneg at h
  split at h
  · rename_i m heq
    obtain rfl := Option.some.inj h
    split at heq
    · cases heq
    · rename_i hneg
      have hbase : isBase 0 = true := rfl
      simp only [strtou,hbase,Bool.not_true,Bool.false_eq_true,if_false] at heq
      cases hscan : scan arg 0 with
      | none =>
        rw [hscan] at heq
        cases heq
      | some scanned =>
        simp only [hscan,Prod.mk.injEq] at heq
        obtain ⟨hvalue,hstatus⟩ := heq
        split at hstatus
        · cases hstatus
        · rename_i hrange
          split at hstatus
          · rename_i hrest
            simp only [Bool.or_eq_true,decide_eq_true_eq,not_or,Bool.not_eq_true] at hrange
            refine ⟨scanned,hscan,List.isEmpty_iff.mp hrest,?_⟩
            rcases scanned with ⟨_ | _,magnitude,rest⟩
            · simp only [strtoumax,Bool.false_eq_true,if_false] at hvalue hrange
              split_ifs at hvalue hrange
              · cases hrange.1.1
              · exact ⟨by dsimp only; omega,fun hsign => by cases hsign⟩
            · -- the sign is accepted in front of a zero only
              rcases Nat.eq_zero_or_pos magnitude with rfl | hpos
              · simp only [strtoumax,if_true] at hvalue hrange
                have hzero : m = 0 := by
                  rw [if_neg (by omega)] at hvalue hrange
                  simp only at hvalue hrange
                  omega
                exact ⟨hzero.symm,fun _ => hzero⟩
              · exact absurd (strtoi_negative hscan hpos) hneg
          · cases hstatus
  · cases h

theorem eq_of_a2i_numeral {min max n m : Nat} (h : a2i (numeral n) 0 min max = some m) (hmax : max < 2^64 - 1) : m = n := by
  obtain ⟨scanned,hscan,_,rfl,_⟩ := Denotes.of_a2i h hmax
  rw [scan_numeral (.inl rfl)] at hscan
  cases hscan
  rfl

/-- A number read without a base is printed in no more places than it was written in. -/
theorem numeral_length_of_a2i {s : Bytes} {max n : Nat} (h : a2i s 0 0 max = some n) (hmax : max < 2^32) :
    (numeral n).length ≤ s.length := by
  have hle := (a2i_bounds h).2
  obtain ⟨scanned,hscan,_,rfl,_⟩ := Denotes.of_a2i h (by omega)
  obtain ⟨base,digits,skipped,hvalue,hne,hdigits,hlength,hbase⟩ := scan_eq_some hscan
  have hpos : 0 < digits.length := List.length_pos_iff.mpr hne
  have hlt : scanned.magnitude < base^digits.length := by
    rw [hvalue]
    exact valueIn_lt (by omega) hdigits
  have hbound : ∀ k, 0 < k → scanned.magnitude < 10^k → k ≤ s.length →
      (numeral scanned.magnitude).length ≤ s.length := fun k hk hnk hks => (numeral_length_le hk hnk).trans hks
  rcases hbase with ⟨rfl,rfl⟩ | ⟨rfl,rfl⟩ | ⟨rfl,rfl⟩
  · rcases Nat.lt_or_ge digits.length 8 with hshort | hlong
    · refine hbound (2 + digits.length) (by omega) (lt_of_lt_of_le hlt ?_) hlength
      have hcases : ∀ k < 8, 16^k ≤ 10^(2 + k) := by decide
      exact hcases _ hshort
    · exact hbound 10 (by omega) (by omega) (by omega)
  · exact hbound _ hpos (lt_of_lt_of_le hlt (Nat.pow_le_pow_left (by omega) _)) (by omega)
  · exact hbound _ hpos hlt (by omega)

end UserDb.Atoi
