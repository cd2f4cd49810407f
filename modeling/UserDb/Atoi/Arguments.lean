import UserDb.Atoi.Strtoi

/-! Numbers with text behind them: what a conversion makes of a whole string whose start is an argument. -/
namespace UserDb.Atoi
open UserDb.Base

/-- Digits, with a minus sign or without one, or the sign alone. -/
def IsArgument (arg : Bytes) : Prop := ∃ digits, (∀ b ∈ digits, isDigit b = true) ∧ (arg = 45 :: digits ∨ arg = digits ∧ digits ≠ [])

/-- Text that goes on with no digit, and with no letter of a prefix. -/
def Ends (rest : Bytes) : Prop := ∀ b, rest.head? = some b → isDigit b = false ∧ b ≠ 120 ∧ b ≠ 88

variable {arg digits rest : Bytes} {base : Nat}

private theorem isSpace_of_isDigit {b : UInt8} (h : isDigit b = true) : isSpace b = false := by
  have hdigit := isDigit_iff.mp h
  have h32 : UInt8.toNat 32 = 32 := rfl
  have h13 : UInt8.toNat 13 = 13 := rfl
  simp only [isSpace,Bool.or_eq_false_iff,beq_eq_false_iff_ne,ne_eq,Bool.and_eq_false_iff,decide_eq_false_iff_not,
    UInt8.le_iff_toNat_le,← UInt8.toNat_inj,h32,h13]
  omega

private theorem hasHexPrefix_digits (hdigits : ∀ b ∈ digits, isDigit b = true) (hrest : Ends rest) :
    hasHexPrefix (digits ++ rest) = false := by
  unfold hasHexPrefix
  split
  · rename_i x d tail heq
    have hx : x ≠ 120 ∧ x ≠ 88 := by
      cases digits with
      | nil =>
        have hzero := (hrest 48 (by rw [List.nil_append] at heq; rw [heq]; rfl)).1
        exact absurd hzero (by decide)
      | cons first digits =>
        cases digits with
        | nil =>
          have hhead : rest.head? = some x := by
            injection heq with _ htail
            have htail : rest = x :: d :: tail := htail
            rw [htail]
            rfl
          exact (hrest x hhead).2
        | cons second digits =>
          injection heq with _ htail
          injection htail with hsecond _
          have hdigit := isDigit_iff.mp (hdigits second (by simp))
          rw [hsecond] at hdigit
          constructor
          · rintro rfl
            exact absurd hdigit.2 (by decide)
          · rintro rfl
            exact absurd hdigit.2 (by decide)
    simp [hx.1,hx.2]
  · rfl

/-- The base is decided by the digits, and is ten at most. -/
theorem radix_digits (hbase : base = 0 ∨ base = 10) (hdigits : ∀ b ∈ digits, isDigit b = true) :
    ∃ b ≤ 10, ∀ rest, Ends rest → radix base (digits ++ rest) = (b,digits ++ rest) := by
  rcases hbase with rfl | rfl
  · refine ⟨if digits.head? = some 48 then 8 else 10,by split <;> omega,?_⟩
    intro rest hrest
    have hhead : ((digits ++ rest).head? == some 48) = (digits.head? == some 48) := by
      cases digits with
      | nil =>
        rw [List.nil_append]
        cases hfirst : rest.head? with
        | none => rfl
        | some b =>
          have hb := (hrest b hfirst).1
          have hne : b ≠ 48 := by
            rintro rfl
            exact absurd hb (by decide)
          simp [hne]
      | cons first digits => rfl
    rw [radix,hasHexPrefix_digits hdigits hrest,hhead]
    simp
  · exact ⟨10,le_rfl,fun rest _ => rfl⟩

private theorem isDigitIn_of_not_digit {b : UInt8} (hbase : base ≤ 10) (h : isDigit b = false) : isDigitIn base b = false := by
  unfold isDigitIn alnumValue
  rw [h]
  simp only [Bool.false_eq_true,if_false]
  split
  · rename_i hlower
    simp only [Bool.and_eq_true,decide_eq_true_eq,UInt8.le_iff_toNat_le] at hlower
    have h97 : UInt8.toNat 97 = 97 := rfl
    simp only [Option.any_some,decide_eq_false_iff_not]
    omega
  · split
    · rename_i hupper
      simp only [Bool.and_eq_true,decide_eq_true_eq,UInt8.le_iff_toNat_le] at hupper
      have h65 : UInt8.toNat 65 = 65 := rfl
      simp only [Option.any_some,decide_eq_false_iff_not]
      omega
    · rfl

/-- The digits of a number end where its text does, whatever comes behind. -/
theorem scanned_digits (digits : Bytes) (hbase : base ≤ 10) (hrest : Ends rest) :
    (digits ++ rest).takeWhile (isDigitIn base) = digits.takeWhile (isDigitIn base) ∧
      (digits ++ rest).dropWhile (isDigitIn base) = digits.dropWhile (isDigitIn base) ++ rest := by
  have hstop : rest.takeWhile (isDigitIn base) = [] ∧ rest.dropWhile (isDigitIn base) = rest := by
    cases rest with
    | nil => exact ⟨rfl,rfl⟩
    | cons b rest =>
      have hb := isDigitIn_of_not_digit hbase (hrest b rfl).1
      simp [hb]
  induction digits with
  | nil => simpa using hstop
  | cons first digits ih =>
    rw [List.cons_append,List.takeWhile_cons,List.dropWhile_cons,List.takeWhile_cons,List.dropWhile_cons,ih.1,ih.2]
    cases isDigitIn base first with
    | true => exact ⟨rfl,rfl⟩
    | false => exact ⟨rfl,rfl⟩

/-- A number is scanned as if nothing stood behind it. -/
theorem scan_append (hbase : base = 0 ∨ base = 10) (harg : IsArgument arg) (hrest : Ends rest) :
    scan (arg ++ rest) base = (scan arg base).map fun scanned => { scanned with rest := scanned.rest ++ rest } := by
  obtain ⟨digits,hdigits,harg⟩ := harg
  obtain ⟨b,hb,hradix⟩ := radix_digits hbase hdigits
  have hnil : Ends [] := nofun
  have hself : radix base digits = (b,digits) := by simpa using hradix [] hnil
  obtain ⟨htake,hdrop⟩ := scanned_digits digits hb hrest
  -- behind the sign both texts are scanned alike
  have hbody : ∀ (negative : Bool) (s : Bytes), s = digits ++ rest →
      (if (s.takeWhile (isDigitIn b)).isEmpty then none
        else some ⟨negative,valueIn b (s.takeWhile (isDigitIn b)),s.dropWhile (isDigitIn b)⟩) =
      (if (digits.takeWhile (isDigitIn b)).isEmpty then none
        else some ⟨negative,valueIn b (digits.takeWhile (isDigitIn b)),digits.dropWhile (isDigitIn b)⟩ : Option Scanned).map
          fun scanned => { scanned with rest := scanned.rest ++ rest } := by
    rintro negative s rfl
    rw [htake,hdrop]
    split <;> rfl
  rcases harg with rfl | ⟨rfl,hne⟩
  · have hspace : isSpace 45 = false := rfl
    unfold scan
    simp only [List.cons_append,List.dropWhile_cons,hspace,Bool.false_eq_true,if_false,List.head?_cons,beq_self_eq_true,
      Bool.true_or,if_true,List.tail_cons,hradix rest hrest,hself]
    exact hbody true _ rfl
  · obtain ⟨first,tail,rfl⟩ := List.exists_cons_of_ne_nil hne
    have hfirst := hdigits first List.mem_cons_self
    have hspace := isSpace_of_isDigit hfirst
    have hsign : ∀ sign : UInt8, isDigit sign = false → (some first == some sign) = false := by
      intro sign hsign
      have hne : first ≠ sign := by
        rintro rfl
        rw [hfirst] at hsign
        cases hsign
      simp [hne]
    have hplus := hsign 43 rfl
    have hminus := hsign 45 rfl
    have hradix := hradix rest hrest
    rw [List.cons_append] at hradix
    have hfront : ∀ s, (first :: s).dropWhile isSpace = first :: s := by
      intro s
      rw [List.dropWhile_cons,hspace]
      rfl
    unfold scan
    simp only [List.cons_append,hfront,Bool.false_eq_true,if_false,List.head?_cons,hminus,hplus,Bool.false_or,hradix,hself]
    exact hbody false (first :: (tail ++ rest)) rfl

/-- What is reported of a number with text behind it. -/
def Status.behind (rest : Bytes) : Status → Status
  | .success => if rest.isEmpty then .success else .enotsup
  | status => status

theorem strtoi_append {min max : Int} (hbase : base = 0 ∨ base = 10) (harg : IsArgument arg) (hrest : Ends rest) :
    strtoi (arg ++ rest) base min max = ((strtoi arg base min max).1,(strtoi arg base min max).2.behind rest) := by
  have hisBase : isBase base = true := by rcases hbase with rfl | rfl <;> rfl
  unfold strtoi
  rw [hisBase,scan_append hbase harg hrest]
  cases scan arg base with
  | none => rfl
  | some scanned =>
    have hvalue : strtoimax { scanned with rest := scanned.rest ++ rest } = strtoimax scanned := rfl
    simp only [Bool.not_true,Bool.false_eq_true,if_false,Option.map_some,hvalue,Prod.mk.injEq,true_and]
    split
    · rfl
    · by_cases hend : scanned.rest.isEmpty = true
      · rw [List.isEmpty_iff.mp hend]
        rfl
      · have hlong : ¬ (scanned.rest ++ rest).isEmpty = true := by
          rw [List.isEmpty_iff] at hend ⊢
          simp [hend]
        rw [if_neg hend,if_neg hlong]
        rfl

private theorem strtou_append {min max : Nat} (hbase : base = 0 ∨ base = 10) (harg : IsArgument arg) (hrest : Ends rest) :
    strtou (arg ++ rest) base min max = ((strtou arg base min max).1,(strtou arg base min max).2.behind rest) := by
  have hisBase : isBase base = true := by rcases hbase with rfl | rfl <;> rfl
  unfold strtou
  rw [hisBase,scan_append hbase harg hrest]
  cases scan arg base with
  | none => rfl
  | some scanned =>
    have hvalue : strtoumax { scanned with rest := scanned.rest ++ rest } = strtoumax scanned := rfl
    simp only [Bool.not_true,Bool.false_eq_true,if_false,Option.map_some,hvalue,Prod.mk.injEq,true_and]
    split
    · rfl
    · by_cases hend : scanned.rest.isEmpty = true
      · rw [List.isEmpty_iff.mp hend]
        rfl
      · have hlong : ¬ (scanned.rest ++ rest).isEmpty = true := by
          rw [List.isEmpty_iff] at hend ⊢
          simp [hend]
        rw [if_neg hend,if_neg hlong]
        rfl

/-- So it is for numbers that are not to be negative. -/
theorem strtouNoneg_append {min max : Nat} (hbase : base = 0 ∨ base = 10) (harg : IsArgument arg) (hrest : Ends rest) :
    strtouNoneg (arg ++ rest) base min max = ((strtouNoneg arg base min max).1,(strtouNoneg arg base min max).2.behind rest) := by
  have hrange : strtoi (arg ++ rest) base 0 1 = (0,.erange) ↔ strtoi arg base 0 1 = (0,.erange) := by
    rw [strtoi_append hbase harg hrest]
    rcases strtoi arg base 0 1 with ⟨n,status⟩
    cases status with
    | success =>
      unfold Status.behind
      cases rest.isEmpty <;> simp
    | einval => simp [Status.behind]
    | ecanceled => simp [Status.behind]
    | erange => simp [Status.behind]
    | enotsup => simp [Status.behind]
  unfold strtouNoneg
  by_cases hneg : strtoi arg base 0 1 = (0,.erange)
  · rw [if_pos (hrange.mpr hneg),if_pos hneg]
    rfl
  · rw [if_neg (mt hrange.mp hneg),if_neg hneg]
    exact strtou_append hbase harg hrest

end UserDb.Atoi
