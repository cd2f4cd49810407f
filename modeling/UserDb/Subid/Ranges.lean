import UserDb.Commonio.Kept

/-! Ranges of subordinate ids: the lines of their files, the ids that a range stands for, and
the files as storage with one line for each range. -/
namespace UserDb.Subid
open UserDb.Base UserDb.Atoi UserDb.Commonio

structure SubordinateRange where
  owner : Bytes
  start : UInt64
  count : UInt64
  deriving DecidableEq, Repr

def subordinateParse (line : Bytes) : Option SubordinateRange :=
  if 1024 ≤ line.length then none
  else
    match line.splitOn colon with
    | [owner,start,count] =>
      if owner.isEmpty || start.isEmpty || count.isEmpty then none
      else
        match a2i start 0 0 (2^32 - 1) with
        | none => none
        | some first =>
          match a2i count 0 0 (min (2^32 - first) (2^32 - 1)) with
          | none => none
          | some n => some ⟨owner,.ofNat first,.ofNat n⟩
    | _ => none

/-- The fields of a range, as they are printed. -/
def rangeFields (r : SubordinateRange) : List Bytes := [r.owner,numeral r.start.toNat,numeral r.count.toNat]

def rangeLine (r : SubordinateRange) : Bytes := [colon].intercalate (rangeFields r)

def subordinatePut (r : SubordinateRange) : Option Bytes := some (rangeLine r ++ [newline])

/-- The entries of these files have no name that anything asks for. -/
def subordinateOps : Ops SubordinateRange where
  getname := SubordinateRange.owner
  parse := subordinateParse
  openHook := none

def subuidFile : Bytes := ascii "/etc/subuid"
def subgidFile : Bytes := ascii "/etc/subgid"

namespace SubordinateRange
variable {r r' : SubordinateRange}

/-- The last id of a range, in the arithmetic of the word: that of an empty range is in front of it. -/
def last (r : SubordinateRange) : UInt64 := r.start + r.count - 1

def ids (r : SubordinateRange) : Set Nat := Set.Ico r.start.toNat (r.start.toNat + r.count.toNat)

/-- What the bounds of the parser leave of a range. -/
structure Fits (r : SubordinateRange) : Prop where
  count_lt : r.count.toNat < 2^32
  stop_le : r.start.toNat + r.count.toNat ≤ 2^32
  start_lt : r.start.toNat < 2^32

/-- A range that the parser reads back from the line it is printed as. -/
structure Rereads (r : SubordinateRange) : Prop extends Fits r where
  owner_ne : r.owner ≠ []
  owner_colon : colon ∉ r.owner
  length_lt : (rangeLine r).length < 1024

theorem last_toNat (r : SubordinateRange) :
    r.last.toNat = (r.start.toNat + r.count.toNat + (2^64 - 1)) % 2^64 := by
  rw [last,UInt64.toNat_sub,UInt64.toNat_add]
  have hone : (1 : UInt64).toNat = 1 := rfl
  omega

theorem last_of_pos (hcount : 0 < r.count.toNat) (hstop : r.start.toNat + r.count.toNat ≤ 2^64) :
    r.last.toNat = r.start.toNat + r.count.toNat - 1 := by
  rw [last_toNat]
  omega

/-- The ids of a range are those between its ends, where it is not empty. -/
theorem mem_ids_iff (hcount : 0 < r.count.toNat) (hstop : r.start.toNat + r.count.toNat ≤ 2^64) {id : Nat} :
    id ∈ r.ids ↔ r.start.toNat ≤ id ∧ id ≤ r.last.toNat := by
  rw [ids,Set.mem_Ico,last_of_pos hcount hstop]
  omega

theorem ids_of_count_zero (h : r.count.toNat = 0) : r.ids = ∅ := by
  rw [ids,h,Nat.add_zero,Set.Ico_self]

end SubordinateRange

open SubordinateRange

variable {r : SubordinateRange} {line : Bytes}

/-- What an accepted line says of its range. -/
theorem subordinateParse_eq_some (h : subordinateParse line = some r) :
    line.length < 1024 ∧ r.owner ≠ [] ∧ r.Fits ∧ ∃ start count, line.splitOn colon = [r.owner,start,count] ∧
      (numeral r.start.toNat).length ≤ start.length ∧ (numeral r.count.toNat).length ≤ count.length := by
  unfold subordinateParse at h
  split at h
  · cases h
  · rename_i hlength
    split at h
    · rename_i owner start count hsplit
      split at h
      · cases h
      · rename_i hempty
        simp only [Bool.or_eq_true,List.isEmpty_iff,not_or] at hempty
        split at h
        · cases h
        · rename_i first hfirst
          split at h
          · cases h
          · rename_i n hn
            have hplaces := numeral_length_of_a2i hfirst (by omega)
            have hplaces' := numeral_length_of_a2i hn (by omega)
            have hfirst := (a2i_bounds hfirst).2
            have hn := (a2i_bounds hn).2
            cases h
            have hstart : (UInt64.ofNat first).toNat = first := UInt64.toNat_ofNat_of_lt' (by simp [UInt64.size]; omega)
            have hcount : (UInt64.ofNat n).toNat = n := UInt64.toNat_ofNat_of_lt' (by simp [UInt64.size]; omega)
            refine ⟨by omega,hempty.1.1,⟨?_,?_,?_⟩,start,count,hsplit,by rwa [hstart],by rwa [hcount]⟩
            · show (UInt64.ofNat n).toNat < 2^32
              omega
            · show (UInt64.ofNat first).toNat + (UInt64.ofNat n).toNat ≤ 2^32
              omega
            · show (UInt64.ofNat first).toNat < 2^32
              omega
    · cases h

theorem rangeLine_fields (howner : colon ∉ r.owner) : (rangeLine r).splitOn colon = rangeFields r := by
  refine List.splitOn_intercalate colon (fun field hf hc => ?_) (List.cons_ne_nil _ _)
  simp only [rangeFields,List.mem_cons,List.not_mem_nil,or_false] at hf
  rcases hf with rfl | rfl | rfl
  · exact howner hc
  · exact (numeral_ne_sep hc).1 rfl
  · exact (numeral_ne_sep hc).1 rfl

private theorem rangeLine_length (r : SubordinateRange) :
    (rangeLine r).length = r.owner.length + (numeral r.start.toNat).length + (numeral r.count.toNat).length + 2 := by
  simp [rangeLine,rangeFields,List.intercalate_cons_cons]
  omega

/-- A printed range is read back exactly where it keeps the bounds of the parser. -/
theorem subordinateParse_rangeLine : subordinateParse (rangeLine r) = some r ↔ r.Rereads := by
  constructor
  · intro h
    obtain ⟨hlength,howner,hfits,⟨start,count,hsplit,_⟩⟩ := subordinateParse_eq_some h
    have hcolon : colon ∉ r.owner := by
      refine notMem_of_mem_splitOn (hsplit ▸ ?_ : r.owner ∈ (rangeLine r).splitOn colon)
      exact List.mem_cons_self
    exact ⟨hfits,howner,hcolon,hlength⟩
  · intro h
    have hempty : (r.owner.isEmpty || (numeral r.start.toNat).isEmpty || (numeral r.count.toNat).isEmpty) = false := by
      simp [h.owner_ne,numeral_ne_nil]
    have hstart : a2i (numeral r.start.toNat) 0 0 (2^32 - 1) = some r.start.toNat :=
      a2i_numeral (.inl rfl) (by have := h.start_lt; omega) (by omega)
    have hcount : a2i (numeral r.count.toNat) 0 0 (min (2^32 - r.start.toNat) (2^32 - 1)) = some r.count.toNat :=
      a2i_numeral (.inl rfl) (by have := h.count_lt; have := h.stop_le; omega) (by omega)
    rw [subordinateParse,if_neg (by have := h.length_lt; omega),rangeLine_fields h.owner_colon,rangeFields]
    simp only [hempty,hstart,hcount,Bool.false_eq_true,if_false,UInt64.ofNat_toNat]

/-- A range that was read is printed in no more places than it was written in, and is read back. -/
theorem Rereads.of_parse (h : subordinateParse line = some r) : r.Rereads := by
  obtain ⟨hlength,howner,hfits,start,count,hsplit,hstart,hcount⟩ := subordinateParse_eq_some h
  have hcolon : colon ∉ r.owner := by
    refine notMem_of_mem_splitOn (hsplit ▸ ?_ : r.owner ∈ line.splitOn colon)
    exact List.mem_cons_self
  refine ⟨hfits,howner,hcolon,?_⟩
  have hline : [colon].intercalate (line.splitOn colon) = line := List.intercalate_splitOn colon
  rw [hsplit] at hline
  have hplaces := congrArg List.length hline
  simp only [List.intercalate_cons_cons,List.intercalate_singleton,List.length_append,List.length_singleton] at hplaces
  rw [rangeLine_length]
  omega

/-- A range whose line is no NIS line, and one line of a text file. -/
structure SubordinateRange.Text (r : SubordinateRange) : Prop extends Rereads r where
  notNis : nameIsNis r.owner = false
  owner_newline : newline ∉ r.owner
  owner_zero : (0 : UInt8) ∉ r.owner

theorem SubordinateRange.Text.of_line (hline : IsLine line) (hnis : nameIsNis line = false)
    (h : subordinateParse line = some r) : r.Text := by
  obtain ⟨_,_,_,start,count,hsplit,_⟩ := subordinateParse_eq_some h
  have hmem : r.owner ∈ line.splitOn colon := by
    rw [hsplit]
    exact List.mem_cons_self
  exact ⟨Rereads.of_parse h,firstField_notNis hnis hsplit,fun hn => hline.1 (mem_of_mem_splitOn hmem hn),
    fun hz => hline.2 (mem_of_mem_splitOn hmem hz)⟩

theorem SubordinateRange.Text.isLine (h : r.Text) : IsLine (rangeLine r) := by
  refine ⟨fun hn => ?_,zero_notMem_fieldsLine fun field hf hz => ?_⟩
  · rcases mem_intercalate hn with hc | ⟨field,hf,hn⟩
    · exact absurd hc (by decide)
    · simp only [rangeFields,List.mem_cons,List.not_mem_nil,or_false] at hf
      rcases hf with rfl | rfl | rfl
      · exact h.owner_newline hn
      · exact (numeral_ne_sep hn).2 rfl
      · exact (numeral_ne_sep hn).2 rfl
  · simp only [rangeFields,List.mem_cons,List.not_mem_nil,or_false] at hf
    rcases hf with rfl | rfl | rfl
    · exact h.owner_zero hz
    · exact numeral_ne_zero hz
    · exact numeral_ne_zero hz

/-- A subordinate id file: one line for each range, and what is written is read back as it was. -/
def subidStorage : LineStorage SubordinateRange where
  ops := subordinateOps
  closeOps := plainCloseOps subordinatePut
  Text := SubordinateRange.Text
  Same r r' := r' = r
  entryLines r := [rangeLine r]
  parts := namesParts_of_no_hook rfl
  refl _ := rfl
  read _ hr _ ha := hr.entry (fun _ _ hline hnis hparse => SubordinateRange.Text.of_line hline hnis hparse)
    (fun _ hook => nomatch hook) ha
  writes := plainCloseOps_writesLines fun r bytes htext hput => by
    cases hput
    have hnis : nameIsNis (rangeLine r) = false := (fieldsLine_notNis _ _ _).trans htext.notNis
    exact ⟨rfl,htext.isLine,rereadsAs_single rfl hnis (subordinateParse_rangeLine.mpr htext.toRereads) rfl rfl⟩
  lineOf := rangeLine
  hook := rfl
  single := rfl

end UserDb.Subid
