import UserDb.Atoi.Strtoi
import UserDb.Base.Outcomes
import UserDb.Base.Text

/-! The id maps of a user namespace: the ranges that arguments ask for, and the text that is
written for them. -/
namespace UserDb.Subid
open UserDb.Base UserDb.Atoi

structure MapRange where
  upper : UInt64
  lower : UInt64
  count : UInt64
  deriving DecidableEq

/-- The loop over the arguments, three for each range. -/
def gatherRanges : List Bytes → Option (List MapRange)
  | upper :: lower :: count :: args =>
    (a2i upper 0 0 (2^32 - 2)).bind fun upper =>
    (a2i lower 0 0 (2^32 - 2)).bind fun lower =>
    (a2i count 0 1 (2^32 - 1 - max lower upper)).bind fun count =>
    (gatherRanges args).map fun mappings => ⟨.ofNat upper,.ofNat lower,.ofNat count⟩ :: mappings
  | _ => some []

/-- `memory` tells whether the array can be had. -/
def getMapRanges (ranges : Nat) (args : List Bytes) (memory : Bool) : Option (List MapRange) :=
  if ranges * 3 != args.length then none
  else if memory then gatherRanges args
  else none

def space : UInt8 := 32

/-- The line `%lu %lu %lu` of a range. -/
def mapLine (m : MapRange) : Bytes :=
  numeral m.upper.toNat ++ space :: (numeral m.lower.toNat ++ space :: numeral m.count.toNat)

/-- An estimate for the digits of a long: three for each ten bits. -/
def ulongDigits : Nat := (64 + 9)/10*3

/-- A text in a buffer, with another one behind it; nothing where the two do not fit. A text that
fits leaves the place of its zero, so that there is always some room. -/
def seprintf (bufsize : Nat) (pos : Option Bytes) (s : Bytes) : Option Bytes :=
  pos.bind fun text => if text.length + s.length < bufsize then some (text ++ s) else none

/-- The buffer with the mapping command. -/
def mappingText (mappings : List MapRange) : Option Bytes :=
  mappings.foldl (fun pos m => seprintf ((ulongDigits + 1) * 3 * mappings.length + 1) pos (mapLine m ++ [newline])) (some [])

/-- Arguments that ask for some triples, each of an upper id, a lower id and a count. -/
def Requests : List Bytes → List (Nat × Nat × Nat) → Prop
  | [], triples => triples = []
  | upper :: lower :: count :: args, (u,l,n) :: triples => Denotes upper u ∧ Denotes lower l ∧ Denotes count n ∧ Requests args triples
  | _, _ => False

def MapRange.triple (m : MapRange) : Nat × Nat × Nat := (m.upper.toNat,m.lower.toNat,m.count.toNat)

def readNumber (s : Bytes) : Option Nat := if s.isEmpty || !s.all isDigit then none else some (decimalValue s)

def readTriple (line : Bytes) : Option (Nat × Nat × Nat) :=
  match line.splitOn space with
  | [upper,lower,count] =>
    (readNumber upper).bind fun upper =>
    (readNumber lower).bind fun lower =>
    (readNumber count).map fun count => (upper,lower,count)
  | _ => none

/-- A text as lines of three decimal numbers, each ended by a newline. -/
def readMapping (text : Bytes) : Option (List (Nat × Nat × Nat)) :=
  let pieces := text.splitOn newline
  if pieces.getLast? = some [] then pieces.dropLast.mapM readTriple else none

section Ranges
variable {args : List Bytes} {ms mappings : List MapRange}

/-- A range of the map: it is not empty, and none of its ends leaves the ids. -/
structure MapRange.Fits (m : MapRange) : Prop where
  count_pos : 0 < m.count.toNat
  lower_stop : m.lower.toNat + m.count.toNat ≤ 2^32 - 1
  upper_stop : m.upper.toNat + m.count.toNat ≤ 2^32 - 1

private theorem gatherRanges_spec (hlength : 3 ∣ args.length) (h : gatherRanges args = some ms) :
    Requests args (ms.map MapRange.triple) ∧ ∀ m ∈ ms, m.Fits := by
  induction args using gatherRanges.induct generalizing ms with
  | case1 upper lower count args ih =>
    simp only [gatherRanges,Option.bind_eq_some_iff,Option.map_eq_some_iff] at h
    obtain ⟨u,hu,l,hl,n,hn,ms,hms,rfl⟩ := h
    have hupper := (a2i_bounds hu).2
    have hlower := (a2i_bounds hl).2
    obtain ⟨hpos,hcount⟩ := a2i_bounds hn
    have hargs : 3 ∣ args.length := by
      simp only [List.length_cons] at hlength
      omega
    obtain ⟨hrest,hfits⟩ := ih hargs hms
    have hword : ∀ k, k < 2^32 → (UInt64.ofNat k).toNat = k := fun k hk => UInt64.toNat_ofNat_of_lt' (by simp [UInt64.size]; omega)
    have htriple : MapRange.triple ⟨.ofNat u,.ofNat l,.ofNat n⟩ = (u,l,n) := by
      simp only [MapRange.triple,hword u (by omega),hword l (by omega),hword n (by omega)]
    constructor
    · rw [List.map_cons,htriple]
      exact ⟨.of_a2i hu (by omega),.of_a2i hl (by omega),.of_a2i hn (by omega),hrest⟩
    · intro m hm
      rcases List.mem_cons.mp hm with rfl | hm
      · constructor
        · simp only [hword n (by omega)]
          omega
        · simp only [hword l (by omega),hword n (by omega)]
          omega
        · simp only [hword u (by omega),hword n (by omega)]
          omega
      · exact hfits m hm
  | case2 args hargs =>
    have hnil : args = [] := by
      rcases args with _ | ⟨a,_ | ⟨b,_ | ⟨c,args⟩⟩⟩
      · rfl
      · simp at hlength
      · simp at hlength
      · exact absurd rfl (hargs a b c args)
    subst hnil
    obtain rfl := Option.some.inj h
    exact ⟨rfl,fun m hm => absurd hm List.not_mem_nil⟩

/-- The ranges that are gathered are those that were asked for. -/
theorem getMapRanges_spec {ranges : Nat} {memory : Bool} (h : getMapRanges ranges args memory = some ms) :
    Requests args (ms.map MapRange.triple) ∧ ∀ m ∈ ms, m.Fits := by
  unfold getMapRanges at h
  split at h
  · cases h
  · rename_i hcount
    have hlength : ranges * 3 = args.length := by simpa using hcount
    split at h
    · exact gatherRanges_spec ⟨ranges,by omega⟩ h
    · cases h

end Ranges

section Text
variable {m : MapRange} {mappings : List MapRange}

private theorem numeral_length_uint64 (n : UInt64) : (numeral n.toNat).length ≤ 20 :=
  numeral_length_le (by decide) (lt_trans n.toNat_lt (by decide))

/-- The estimate of the digits is enough for a line. -/
theorem mapLine_length (m : MapRange) : (mapLine m ++ [newline]).length ≤ (ulongDigits + 1) * 3 := by
  have hupper := numeral_length_uint64 m.upper
  have hlower := numeral_length_uint64 m.lower
  have hcount := numeral_length_uint64 m.count
  have hdigits : ulongDigits = 21 := rfl
  rw [hdigits]
  simp only [mapLine,List.length_append,List.length_cons,List.length_nil]
  omega

private theorem foldl_seprintf {bufsize : Nat} {text : Bytes} (hroom : text.length + (ulongDigits + 1) * 3 * mappings.length < bufsize) :
    mappings.foldl (fun pos m => seprintf bufsize pos (mapLine m ++ [newline])) (some text) =
      some (text ++ (mappings.map mapLine).flatMap (· ++ [newline])) := by
  induction mappings generalizing text with
  | nil => simp
  | cons m mappings ih =>
    have hline := mapLine_length m
    rw [List.length_cons,Nat.mul_add,Nat.mul_one] at hroom
    have hstep : seprintf bufsize (some text) (mapLine m ++ [newline]) = some (text ++ (mapLine m ++ [newline])) := by
      rw [seprintf,Option.bind_some,if_pos (by omega)]
    have hrest : (text ++ (mapLine m ++ [newline])).length + (ulongDigits + 1) * 3 * mappings.length < bufsize := by
      rw [List.length_append]
      omega
    rw [List.foldl_cons,hstep,ih hrest,List.map_cons,List.flatMap_cons]
    simp only [List.append_assoc]

/-- The buffer has room for every line. -/
theorem mappingText_eq (mappings : List MapRange) : mappingText mappings = some ((mappings.map mapLine).flatMap (· ++ [newline])) := by
  have hroom : ([] : Bytes).length + (ulongDigits + 1) * 3 * mappings.length < (ulongDigits + 1) * 3 * mappings.length + 1 := by
    rw [List.length_nil]
    omega
  rw [mappingText,foldl_seprintf hroom,List.nil_append]

private theorem readNumber_numeral (n : Nat) : readNumber (numeral n) = some n := by
  have hdigits : (numeral n).all isDigit = true := List.all_eq_true.mpr fun b hb => numeral_digits hb
  rw [readNumber,hdigits,decimalValue_numeral,List.isEmpty_eq_false_iff.mpr (numeral_ne_nil n)]
  rfl

private theorem readTriple_mapLine (m : MapRange) : readTriple (mapLine m) = some m.triple := by
  have hspace : ∀ n, space ∉ numeral n := fun n hmem => by
    have hdigit := numeral_digits hmem
    exact absurd hdigit (by decide)
  rw [readTriple,mapLine,splitOn_three (hspace _) (hspace _) (hspace _)]
  simp only [readNumber_numeral,Option.bind_some,Option.map_some]
  rfl

private theorem mapLine_newline (m : MapRange) : newline ∉ mapLine m := by
  have hdigit : ∀ n, newline ∉ numeral n := fun n hmem => absurd (numeral_digits hmem) (by decide)
  have hspace : newline ≠ space := by decide
  simp only [mapLine,List.mem_append,List.mem_cons,not_or]
  exact ⟨hdigit _,hspace,hdigit _,hspace,hdigit _⟩

/-- What is written is read back as the triples of the ranges. -/
theorem readMapping_text (mappings : List MapRange) :
    readMapping ((mappings.map mapLine).flatMap (· ++ [newline])) = some (mappings.map MapRange.triple) := by
  have hlines : ∀ line ∈ mappings.map mapLine, newline ∉ line := fun line hline => by
    obtain ⟨m,_,rfl⟩ := List.mem_map.mp hline
    exact mapLine_newline m
  have hread : (mappings.map mapLine).mapM readTriple = some (mappings.map MapRange.triple) := by
    induction mappings with
    | nil => rfl
    | cons m mappings ih =>
      rw [List.map_cons,List.mapM_cons,readTriple_mapLine,ih fun line hline => hlines line (List.mem_cons_of_mem _ hline)]
      rfl
  rw [readMapping,splitOn_lines hlines]
  simp only [List.getLast?_append,List.getLast?_singleton,Option.some_or,if_true,List.dropLast_concat,hread]

end Text

end UserDb.Subid
