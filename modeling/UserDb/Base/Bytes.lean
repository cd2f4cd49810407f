import Mathlib

/-! Byte strings and decimal numerals, as the record formats of both halves of
the repository use them. -/
namespace UserDb.Base

abbrev Bytes := List UInt8

instance lawfulBytes : LawfulBEq Bytes := inferInstance

/-- The bytes of an ASCII literal. -/
def ascii (s : String) : Bytes := s.toList.map (fun c => c.toNat.toUInt8)

def newline : UInt8 := 10
def colon : UInt8 := 58
def comma : UInt8 := 44

def isDigit (b : UInt8) : Bool := 48 ≤ b && b ≤ 57
def digitValue (b : UInt8) : Nat := b.toNat - 48
def digit (d : Nat) : UInt8 := (48 + d).toUInt8

/-- The number a digit string denotes, most significant digit first. -/
def decimalValue (bs : Bytes) : Nat := bs.foldl (fun n b => n * 10 + digitValue b) 0

/-- The shortest decimal numeral of a number. -/
def numeral (n : Nat) : Bytes :=
  if n = 0 then [digit 0] else (Nat.digits 10 n).reverse.map digit

theorem digit_toNat {d : Nat} (h : d < 10) : (digit d).toNat = 48 + d := by
  simp only [digit,UInt8.toNat_ofNat',Nat.toUInt8]
  omega

theorem isDigit_iff {b : UInt8} : isDigit b = true ↔ 48 ≤ b.toNat ∧ b.toNat ≤ 57 := by
  simp [isDigit,UInt8.le_iff_toNat_le]

private theorem isDigit_digit {d : Nat} (h : d < 10) : isDigit (digit d) = true := by
  rw [isDigit_iff,digit_toNat h]
  omega

private theorem digitValue_digit {d : Nat} (h : d < 10) : digitValue (digit d) = d := by
  rw [digitValue,digit_toNat h]
  omega

theorem numeral_ne_nil (n : Nat) : numeral n ≠ [] := by
  unfold numeral
  split
  · simp
  · simpa [Nat.digits_eq_nil_iff_eq_zero]

theorem numeral_lt {n : Nat} (h : n < 10) : numeral n = [digit n] := by
  rcases Nat.eq_zero_or_pos n with rfl | hp
  · rfl
  · rw [numeral,if_neg (by omega),Nat.digits_of_lt 10 n (by omega) h]
    rfl

/-- The last digit stands after the numeral of the rest. -/
theorem numeral_step {n : Nat} (h : 10 ≤ n) : numeral n = numeral (n/10) ++ [digit (n%10)] := by
  rw [numeral,numeral,if_neg (by omega),if_neg (by omega),
    Nat.digits_eq_cons_digits_div (by decide) (by omega),List.reverse_cons,List.map_append]
  rfl

theorem numeral_digits {n : Nat} {b : UInt8} (h : b ∈ numeral n) : isDigit b = true := by
  unfold numeral at h
  split at h
  · rw [List.mem_singleton.mp h]
    exact isDigit_digit (by decide)
  · obtain ⟨d,hd,rfl⟩ := List.mem_map.mp h
    exact isDigit_digit (Nat.digits_lt_base (by decide) (List.mem_reverse.mp hd))

private theorem decimalValue_map_digit (ds : List Nat) (h : ∀ d ∈ ds, d < 10) :
    decimalValue (ds.reverse.map digit) = Nat.ofDigits 10 ds := by
  induction ds with
  | nil => rfl
  | cons d ds ih =>
    have ih := ih (fun x hx => h x (List.mem_cons_of_mem _ hx))
    simp only [decimalValue] at ih ⊢
    rw [List.reverse_cons,List.map_append,List.foldl_append,ih,Nat.ofDigits_cons]
    simp only [List.map_cons,List.map_nil,List.foldl_cons,List.foldl_nil]
    rw [digitValue_digit (h d List.mem_cons_self)]
    ring

/-- Reading a numeral back gives the number it was written from. -/
@[simp] theorem decimalValue_numeral (n : Nat) : decimalValue (numeral n) = n := by
  unfold numeral
  split
  · rename_i h
    rw [h]; decide
  · rw [decimalValue_map_digit _ (fun d hd => Nat.digits_lt_base (by decide) hd),
      Nat.ofDigits_digits]

theorem decimalValue_concat (bs : Bytes) (b : UInt8) :
    decimalValue (bs ++ [b]) = decimalValue bs * 10 + digitValue b := by
  simp [decimalValue,List.foldl_append]

/-- A string of digits is its shortest numeral behind some zeros. -/
theorem eq_zeros_append_numeral {bs : Bytes} (hd : ∀ b ∈ bs, isDigit b = true) (hne : bs ≠ []) :
    ∃ k, bs = List.replicate k (digit 0) ++ numeral (decimalValue bs) := by
  induction bs using List.reverseRecOn with
  | nil => exact absurd rfl hne
  | append_singleton bs b ih =>
    have hb := isDigit_iff.mp (hd b (by simp))
    have hvalue : digitValue b < 10 := by
      unfold digitValue
      omega
    have hdigit : digit (digitValue b) = b := by
      rw [← UInt8.toNat_inj,digit_toNat hvalue]
      unfold digitValue
      omega
    rw [decimalValue_concat]
    by_cases hnil : bs = []
    · subst hnil
      refine ⟨0,?_⟩
      have hzero : decimalValue [] = 0 := rfl
      rw [hzero,Nat.zero_mul,Nat.zero_add,numeral_lt hvalue,hdigit]
      rfl
    · obtain ⟨k,hk⟩ := ih (fun x hx => hd x (List.mem_append_left _ hx)) hnil
      rcases Nat.eq_zero_or_pos (decimalValue bs) with hzero | hpos
      · -- zeros so far: the one that stood for the number joins them
        refine ⟨k + 1,?_⟩
        have hnumeral : numeral 0 = [digit 0] := rfl
        rw [hzero,hnumeral] at hk
        rw [hzero,Nat.zero_mul,Nat.zero_add,numeral_lt hvalue,hdigit,List.replicate_succ',← hk]
      · refine ⟨k,?_⟩
        have hdiv : (decimalValue bs * 10 + digitValue b) / 10 = decimalValue bs := by omega
        have hmod : (decimalValue bs * 10 + digitValue b) % 10 = digitValue b := by omega
        rw [numeral_step (by omega),hdiv,hmod,hdigit,← List.append_assoc,← hk]

/-- No numeral of a number is shorter than the shortest, and none other is as short. -/
theorem numeral_length_le_iff {bs : Bytes} (hd : ∀ b ∈ bs, isDigit b = true) (hne : bs ≠ []) :
    (numeral (decimalValue bs)).length ≤ bs.length ∧
      ((numeral (decimalValue bs)).length = bs.length ↔ bs = numeral (decimalValue bs)) := by
  obtain ⟨k,hk⟩ := eq_zeros_append_numeral hd hne
  have hlen : bs.length = k + (numeral (decimalValue bs)).length := by
    have hlength := congrArg List.length hk
    rwa [List.length_append,List.length_replicate] at hlength
  refine ⟨by omega,fun heq => ?_,fun heq => (congrArg List.length heq).symm⟩
  have hzero : k = 0 := by omega
  subst hzero
  simpa using hk

/-- A numeral has no more digits than a power of ten above it. -/
theorem numeral_length_le {n k : Nat} (hk : 0 < k) (h : n < 10^k) : (numeral n).length ≤ k := by
  unfold numeral
  split
  · exact hk
  · rw [List.length_map,List.length_reverse]
    exact (Nat.digits_length_le_iff (by decide) n).mpr h

theorem mem_intercalate {sep : UInt8} {parts : List Bytes} {b : UInt8}
    (h : b ∈ [sep].intercalate parts) : b = sep ∨ ∃ part ∈ parts, b ∈ part := by
  induction parts with
  | nil => simp at h
  | cons part parts ih =>
    cases parts with
    | nil => exact Or.inr ⟨part,by simp,by simpa using h⟩
    | cons next parts =>
      rw [List.intercalate_cons_cons,List.mem_append,List.mem_append,List.mem_singleton] at h
      rcases h with (h | h) | h
      · exact Or.inr ⟨part,by simp,h⟩
      · exact Or.inl h
      · exact (ih h).imp_right fun ⟨p,hp,hb⟩ => ⟨p,List.mem_cons_of_mem _ hp,hb⟩

/-- Fields without separators, joined by colons, are one line, and are found in it again. -/
theorem fieldsLine_spec {fields : List Bytes} (h : ∀ field ∈ fields, ∀ b ∈ field, b ≠ colon ∧ b ≠ newline)
    (hne : fields ≠ []) :
    newline ∉ [colon].intercalate fields ∧ ([colon].intercalate fields).splitOn colon = fields ∧
      ([colon].intercalate fields).takeWhile (· != newline) = [colon].intercalate fields := by
  have hline : newline ∉ [colon].intercalate fields := fun hn => by
    rcases mem_intercalate hn with hc | ⟨field,hf,hb⟩
    · exact absurd hc (by decide)
    · exact (h field hf newline hb).2 rfl
  refine ⟨hline,List.splitOn_intercalate colon (fun field hf hc => (h field hf colon hc).1 rfl) hne,?_⟩
  exact List.takeWhile_eq_self_iff.mpr fun b hb => by
    simpa using ne_of_mem_of_not_mem hb hline

theorem numeral_ne_sep {n : Nat} {b : UInt8} (h : b ∈ numeral n) : b ≠ colon ∧ b ≠ newline := by
  have hd := isDigit_iff.mp (numeral_digits h)
  refine ⟨?_,?_⟩ <;> rintro rfl
  · exact absurd hd.2 (by decide)
  · exact absurd hd.1 (by decide)

/-- Lines that are each ended by a separator are found again. -/
theorem splitOn_lines {sep : UInt8} {lines : List Bytes} (h : ∀ line ∈ lines, sep ∉ line) :
    (lines.flatMap (· ++ [sep])).splitOn sep = lines ++ [[]] := by
  induction lines with
  | nil => rfl
  | cons line lines ih =>
    rw [List.flatMap_cons,List.append_assoc,List.singleton_append,
      List.splitOn_append_cons_self_of_not_mem (h line List.mem_cons_self),
      ih fun x hx => h x (List.mem_cons_of_mem _ hx)]
    rfl

theorem notMem_of_mem_splitOn {sep : UInt8} {text piece : Bytes} (h : piece ∈ text.splitOn sep) : sep ∉ piece := by
  induction text generalizing piece with
  | nil =>
    rw [List.splitOn_nil,List.mem_singleton] at h
    rw [h]
    exact List.not_mem_nil
  | cons b text ih =>
    rw [List.splitOn_cons_eq_if_modifyHead] at h
    split at h
    · rcases List.mem_cons.mp h with rfl | h
      · exact List.not_mem_nil
      · exact ih h
    · rename_i hb
      cases hsplit : text.splitOn sep with
      | nil => exact absurd hsplit (List.splitOn_ne_nil sep text)
      | cons first rest =>
        rw [hsplit,List.modifyHead_cons] at h
        rw [hsplit] at ih
        rcases List.mem_cons.mp h with rfl | h
        · have hne : b ≠ sep := by simpa using hb
          simpa [hne.symm] using ih List.mem_cons_self
        · exact ih (List.mem_cons_of_mem first h)

/-- Pieces that are each ended by a separator, as one text with the separator between them. -/
theorem flatMap_separated {sep : UInt8} {pieces : List Bytes} (h : pieces ≠ []) :
    pieces.flatMap (· ++ [sep]) = [sep].intercalate pieces ++ [sep] := by
  induction pieces with
  | nil => exact absurd rfl h
  | cons piece pieces ih =>
    cases pieces with
    | nil => simp
    | cons next pieces =>
      rw [List.flatMap_cons,ih (List.cons_ne_nil _ _),List.intercalate_cons_cons]
      simp

/-- A text ended by the separator is that of its pieces. -/
theorem splitOn_separated (sep : UInt8) (text : Bytes) : (text.splitOn sep).flatMap (· ++ [sep]) = text ++ [sep] := by
  rw [flatMap_separated (List.splitOn_ne_nil sep text),List.intercalate_splitOn]

theorem mem_of_mem_splitOn {sep b : UInt8} {text piece : Bytes} (h : piece ∈ text.splitOn sep) (hb : b ∈ piece) :
    b ∈ text := by
  have hm : b ∈ text ++ [sep] := by
    rw [← splitOn_separated sep text]
    exact List.mem_flatMap.mpr ⟨piece,h,List.mem_append_left _ hb⟩
  rcases List.mem_append.mp hm with hm | hm
  · exact hm
  · rw [List.mem_singleton.mp hm] at hb
    exact absurd hb (notMem_of_mem_splitOn h)

end UserDb.Base
