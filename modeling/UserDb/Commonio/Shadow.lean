import UserDb.Commonio.Content
import UserDb.Commonio.Group

/-! The shadow and the gshadow file: how their lines are read and written. -/
namespace UserDb.Commonio
open UserDb.Base UserDb.Atoi

section Shadow

structure Spwd where
  name : Bytes
  pwdp : Bytes
  lstchg : Int
  min : Int
  max : Int
  warn : Int
  inact : Int
  expire : Int
  flag : Nat
  deriving DecidableEq, Repr

def flagUnset : Nat := 2^64 - 1

/-- A number field: an empty one says that there is no number. -/
def spwdNumber (field : Bytes) : Option Int :=
  if field.isEmpty then some (-1)
  else
    match strtoi field 0 0 (2^63 - 1) with
    | (n,.success) => some n
    | _ => none

def spwdFlag (field : Bytes) : Option Nat :=
  if field.isEmpty then some flagUnset else a2i field 0 0 (2^64 - 1)

/-- The last of nine fields may be left out, and older files have five. -/
def sgetspent (s : Bytes) : Option Spwd := do
  let fields := (s.takeWhile (· != newline)).splitOn colon
  match if fields.length = 8 then fields ++ [[]] else fields with
  | [name,pwdp,lstchg,_,max] =>
    let lstchg ← spwdNumber lstchg
    let max ← spwdNumber max
    some ⟨name,pwdp,lstchg,-1,max,-1,-1,-1,flagUnset⟩
  | [name,pwdp,lstchg,_,max,warn,inact,expire,flag] =>
    let lstchg ← spwdNumber lstchg
    let max ← spwdNumber max
    let warn ← spwdNumber warn
    let inact ← spwdNumber inact
    let expire ← spwdNumber expire
    let flag ← spwdFlag flag
    some ⟨name,pwdp,lstchg,-1,max,warn,inact,expire,flag⟩
  | _ => none

def numberField (n : Int) : Bytes :=
  if n = -1 then [] else if n < 0 then 45 :: numeral n.natAbs else numeral n.toNat

def flagField (flag : Nat) : Bytes := if flag = flagUnset then [] else numeral flag

/-- The text of a shadow entry, as its line in the file. -/
def spwdLine (sp : Spwd) : Bytes :=
  [colon].intercalate [sp.name,sp.pwdp,numberField sp.lstchg,numberField sp.min,numberField sp.max,numberField sp.warn,
    numberField sp.inact,numberField sp.expire,flagField sp.flag]

/-- The library function that writes a shadow entry: where it succeeds, it writes its line. -/
structure Putspent where
  run : Spwd → Option Bytes
  writes : ∀ sp bytes, run sp = some bytes → bytes = spwdLine sp ++ [newline]

def shadowPut (putspent : Putspent) (sp : Spwd) : Option Bytes :=
  if validField sp.name [colon,newline] == -1 || validField sp.pwdp [colon,newline] == -1 ||
      sp.name.length + sp.pwdp.length + 1000 > 32768 then none
  else putspent.run sp

def shadowOps : Ops Spwd where
  getname := Spwd.name
  parse := sgetspent
  openHook := none

variable {sp : Spwd}

/-- The numbers of an entry that was read: unset, or of a signed word. -/
structure Spwd.InRange (sp : Spwd) : Prop where
  lstchg : -1 ≤ sp.lstchg ∧ sp.lstchg < 2^63
  min : -1 ≤ sp.min ∧ sp.min < 2^63
  max : -1 ≤ sp.max ∧ sp.max < 2^63
  warn : -1 ≤ sp.warn ∧ sp.warn < 2^63
  inact : -1 ≤ sp.inact ∧ sp.inact < 2^63
  expire : -1 ≤ sp.expire ∧ sp.expire < 2^63
  flag : sp.flag < 2^64

private theorem spwdNumber_range {field : Bytes} {n : Int} (h : spwdNumber field = some n) : -1 ≤ n ∧ n < 2^63 := by
  unfold spwdNumber at h
  split at h
  · cases h
    decide
  · split at h
    · rename_i heq
      cases h
      unfold strtoi at heq
      split at heq
      · cases heq
      · split at heq
        · cases heq
        · simp only [Prod.mk.injEq] at heq
          omega
    · cases h

private theorem spwdFlag_range {field : Bytes} {n : Nat} (h : spwdFlag field = some n) : n < 2^64 := by
  unfold spwdFlag at h
  split at h
  · cases h
    decide
  · exact Nat.lt_of_le_of_lt (a2i_bounds h).2 (by decide)

private theorem fields_of_padded {fields rest : List Bytes} {first second : Bytes}
    (h : (if fields.length = 8 then fields ++ [[]] else fields) = first :: second :: rest) :
    ∃ rest', fields = first :: second :: rest' := by
  split at h
  · rename_i hlen
    cases fields with
    | nil => cases hlen
    | cons x fields =>
      cases fields with
      | nil => cases hlen
      | cons y fields =>
        simp only [List.cons_append,List.cons.injEq] at h
        exact ⟨fields,by rw [h.1,h.2.1]⟩
  · exact ⟨rest,h⟩

/-- What is read has its numbers in range, and its texts are the first fields of the line. -/
theorem sgetspent_eq_some {s : Bytes} (h : sgetspent s = some sp) :
    sp.InRange ∧ ∃ rest, (s.takeWhile (· != newline)).splitOn colon = sp.name :: sp.pwdp :: rest := by
  have hunset : -1 ≤ (-1 : Int) ∧ (-1 : Int) < 2^63 := by decide
  unfold sgetspent at h
  simp only [Option.bind_eq_bind] at h
  split at h
  · rename_i hfields
    simp only [Option.bind_eq_some_iff,Option.some.injEq] at h
    obtain ⟨lstchg,hlstchg,max,hmax,rfl⟩ := h
    exact ⟨⟨spwdNumber_range hlstchg,hunset,spwdNumber_range hmax,hunset,hunset,hunset,
      show flagUnset < 2^64 by decide⟩,fields_of_padded hfields⟩
  · rename_i hfields
    simp only [Option.bind_eq_some_iff,Option.some.injEq] at h
    obtain ⟨lstchg,hlstchg,max,hmax,warn,hwarn,inact,hinact,expire,hexpire,flag,hflag,rfl⟩ := h
    exact ⟨⟨spwdNumber_range hlstchg,hunset,spwdNumber_range hmax,spwdNumber_range hwarn,spwdNumber_range hinact,
      spwdNumber_range hexpire,spwdFlag_range hflag⟩,fields_of_padded hfields⟩
  · cases h

private theorem spwdNumber_numberField {n : Int} (h : -1 ≤ n ∧ n < 2^63) : spwdNumber (numberField n) = some n := by
  unfold numberField
  split
  · rename_i heq
    rw [heq]
    rfl
  · rename_i hne
    obtain ⟨m,rfl⟩ := Int.eq_ofNat_of_zero_le (show 0 ≤ n by omega)
    have hempty : (numeral m).isEmpty = false := by simpa using numeral_ne_nil m
    rw [if_neg (by omega),Int.toNat_natCast,spwdNumber,hempty,if_neg Bool.false_ne_true,
      strtoi_numeral (.inl rfl) (by omega) (by omega) (by omega)]

private theorem spwdFlag_flagField {n : Nat} (h : n < 2^64) : spwdFlag (flagField n) = some n := by
  unfold flagField
  split
  · rename_i heq
    rw [heq]
    rfl
  · have hempty : (numeral n).isEmpty = false := by simpa using numeral_ne_nil n
    rw [spwdFlag,hempty,if_neg Bool.false_ne_true]
    exact a2i_numeral (.inl rfl) (by omega) (by decide)

private theorem numberField_ne_sep {n : Int} {b : UInt8} (h : b ∈ numberField n) : b ≠ colon ∧ b ≠ newline := by
  unfold numberField at h
  split at h
  · cases h
  · split at h
    · rcases List.mem_cons.mp h with rfl | h
      · decide
      · exact numeral_ne_sep h
    · exact numeral_ne_sep h

/-- An entry that is written is read back, its minimum age apart, which is not read. -/
theorem sgetspent_spwdLine (hname : ∀ b ∈ sp.name, b ≠ colon ∧ b ≠ newline) (hpwdp : ∀ b ∈ sp.pwdp, b ≠ colon ∧ b ≠ newline)
    (h : sp.InRange) : newline ∉ spwdLine sp ∧ sgetspent (spwdLine sp) = some { sp with min := -1 } := by
  have hflag : ∀ b ∈ flagField sp.flag, b ≠ colon ∧ b ≠ newline := fun b hb => by
    unfold flagField at hb
    split at hb
    · cases hb
    · exact numeral_ne_sep hb
  have hfields : ∀ field ∈ [sp.name,sp.pwdp,numberField sp.lstchg,numberField sp.min,numberField sp.max,numberField sp.warn,
      numberField sp.inact,numberField sp.expire,flagField sp.flag], ∀ b ∈ field, b ≠ colon ∧ b ≠ newline := by
    simp only [List.forall_mem_cons]
    exact ⟨hname,hpwdp,fun _ => numberField_ne_sep,fun _ => numberField_ne_sep,fun _ => numberField_ne_sep,
      fun _ => numberField_ne_sep,fun _ => numberField_ne_sep,fun _ => numberField_ne_sep,hflag,nofun⟩
  obtain ⟨hline,hsplit,htake⟩ := fieldsLine_spec hfields (List.cons_ne_nil _ _)
  refine ⟨hline,?_⟩
  rw [sgetspent,spwdLine,htake,hsplit]
  simp [spwdNumber_numberField h.lstchg,spwdNumber_numberField h.max,spwdNumber_numberField h.warn,
    spwdNumber_numberField h.inact,spwdNumber_numberField h.expire,spwdFlag_flagField h.flag]

end Shadow

section Gshadow

structure Sgrp where
  name : Bytes
  passwd : Bytes
  adm : List Bytes
  mem : List Bytes
  deriving DecidableEq, Repr

def sgetsgent (s : Bytes) : Option Sgrp :=
  match (s.takeWhile (· != newline)).splitOn colon with
  | [name,passwd,adm,mem] => some ⟨name,passwd,memberList adm,memberList mem⟩
  | _ => none

/-- The text of a gshadow entry, as its line in the file. -/
def sgrpLine (sg : Sgrp) : Bytes :=
  [colon].intercalate [sg.name,sg.passwd,[comma].intercalate sg.adm,[comma].intercalate sg.mem]

/-- `memory` tells whether the buffer is there and the text is taken. -/
def putsgent (memory : Bool) (sg : Sgrp) : Option Bytes :=
  if memory then some (sgrpLine sg ++ [newline]) else none

def gshadowPut (memory : Bool) (sg : Sgrp) : Option Bytes :=
  if validField sg.name [colon,newline] == -1 || validField sg.passwd [colon,newline] == -1 then none
  else if sg.adm.any fun name => validField name [comma,colon,newline] == -1 then none
  else if sg.mem.any fun name => validField name [comma,colon,newline] == -1 then none
  else putsgent memory sg

def gshadowOps : Ops Sgrp where
  getname := Sgrp.name
  parse := sgetsgent
  openHook := none

end Gshadow

end UserDb.Commonio
