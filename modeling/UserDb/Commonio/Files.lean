import UserDb.Commonio.Tables

/-! The passwd, shadow, group and gshadow file as kinds of storage: what is read from each, and
what an entry is read back as once it was written. -/
namespace UserDb.Commonio
open UserDb.Base UserDb.Atoi

variable {α : Type}

theorem numeral_ne_zero {n : Nat} : (0 : UInt8) ∉ numeral n := fun hz =>
  absurd (isDigit_iff.mp (numeral_digits hz)).1 (by decide)

private theorem zero_notMem_members {members : List Bytes} (h : ∀ member ∈ members, (0 : UInt8) ∉ member) :
    (0 : UInt8) ∉ [comma].intercalate members := by
  intro hz
  rcases mem_intercalate hz with hc | ⟨member,hm,hz⟩
  · exact absurd hc (by decide)
  · exact h member hm hz

/-- The fields of a line hold no null byte. -/
theorem zero_notMem_field {line : Bytes} {fields : List Bytes} (hline : IsLine line)
    (hsplit : (line.takeWhile (· != newline)).splitOn colon = fields) : ∀ field ∈ fields, (0 : UInt8) ∉ field := by
  intro field hf hz
  rw [takeWhile_line hline] at hsplit
  exact hline.2 (mem_of_mem_splitOn (hsplit ▸ hf) hz)

/-- An entry of one line that is read back. -/
theorem rereadsAs_single {ops : Ops α} {R : α → α → Prop} {lineOf : α → Bytes} {a b : α} (hook : ops.openHook = none)
    (hnis : nameIsNis (lineOf a) = false) (hparse : ops.parse (lineOf a) = some b) (hname : ops.getname b = ops.getname a)
    (hR : R a b) : RereadsAs ops R (fun a => [lineOf a]) a := by
  have hrecord : lineRecord ops (lineOf a) = ⟨some (lineOf a),some b,false⟩ := by
    rw [lineRecord,lineEntry,if_neg (by simp [hnis]),hparse]
    rfl
  refine ⟨fun line hline => ?_,⟨some (lineOf a),some b,false⟩,b,?_,rfl,hR⟩
  · rw [List.mem_singleton.mp hline,lineName,hrecord,← hname]
    rfl
  · rw [List.map_singleton,hrecord,Ops.merged,hook]

section Passwd
variable {pw : Passwd}

/-- An account of texts without null bytes, whose name does not make its line a NIS line. -/
structure Passwd.Text (pw : Passwd) : Prop where
  notNis : nameIsNis pw.name = false
  fields : ∀ field ∈ passwdFields pw, (0 : UInt8) ∉ field

theorem Passwd.Text.of_line {line : Bytes} (hline : IsLine line) (hnis : nameIsNis line = false)
    (h : sgetpwent line = some pw) : pw.Text := by
  unfold sgetpwent at h
  split at h
  · rename_i name passwd uid gid gecos dir shell hsplit
    have hzero := zero_notMem_field hline hsplit
    rw [takeWhile_line hline] at hsplit
    have hname := firstField_notNis hnis hsplit
    simp only [List.forall_mem_cons] at hzero
    obtain ⟨h₁,h₂,_,_,h₅,h₆,h₇,_⟩ := hzero
    split at h
    · cases h
    · split at h
      · cases h
        refine ⟨hname,?_⟩
        simp only [passwdFields,List.forall_mem_cons]
        exact ⟨h₁,h₂,numeral_ne_zero,numeral_ne_zero,h₅,h₆,h₇,(by intros; contradiction)⟩
      · cases h
  · cases h

theorem Passwd.Text.withPasswd (h : pw.Text) {passwd : Bytes} (hp : (0 : UInt8) ∉ passwd) :
    Passwd.Text { pw with passwd := passwd } := by
  have hfields := h.fields
  simp only [passwdFields,List.forall_mem_cons] at hfields
  obtain ⟨h₁,_,h₃⟩ := hfields
  refine ⟨h.notNis,?_⟩
  simp only [passwdFields,List.forall_mem_cons]
  exact ⟨h₁,hp,h₃⟩

theorem Passwd.Text.withGid (h : pw.Text) (gid : UInt32) : Passwd.Text { pw with gid := gid } := by
  have hfields := h.fields
  simp only [passwdFields,List.forall_mem_cons] at hfields
  obtain ⟨hname,hpasswd,huid,_,hrest⟩ := hfields
  refine ⟨h.notNis,?_⟩
  simp only [passwdFields,List.forall_mem_cons]
  exact ⟨hname,hpasswd,huid,numeral_ne_zero,hrest⟩

theorem Passwd.Text.passwd (h : pw.Text) : (0 : UInt8) ∉ pw.passwd := h.fields _ (by simp [passwdFields])

theorem Passwd.Text.name (h : pw.Text) : (0 : UInt8) ∉ pw.name := h.fields _ (by simp [passwdFields])

def passwdStorage (putpwent : Putpwent) : Storage Passwd where
  ops := passwdOps
  closeOps := plainCloseOps (passwdPut putpwent)
  Text := Passwd.Text
  Same pw pw' := pw' = pw
  entryLines pw := [passwdText pw]
  parts := namesParts_of_no_hook rfl
  refl _ := rfl
  read _ hr pw hpw := hr.entry (fun _ _ hline hnis hparse => Passwd.Text.of_line hline hnis hparse)
    (fun _ hook => nomatch hook) hpw
  writes := plainCloseOps_writesLines fun pw bytes htext hput => by
    obtain ⟨hwritable,rfl⟩ := passwdPut_eq_some hput
    have hnis : nameIsNis (passwdText pw) = false := (passwdText_notNis pw).trans htext.notNis
    have hparse : sgetpwent (passwdText pw) = some pw := by
      rw [passwdText,htext.notNis,if_neg Bool.false_ne_true]
      exact sgetpwent_passwdLine hwritable
    exact ⟨rfl,passwdText_isLine hwritable htext.fields,rereadsAs_single rfl hnis hparse rfl rfl⟩

end Passwd

section Shadow
variable {sp : Spwd}

/-- A shadow entry as one that is read. -/
structure Spwd.Text (sp : Spwd) : Prop where
  notNis : nameIsNis sp.name = false
  name : (0 : UInt8) ∉ sp.name
  pwdp : (0 : UInt8) ∉ sp.pwdp
  range : sp.InRange

/-- The same entry; the minimum age is not read. -/
def SameSpwd (sp sp' : Spwd) : Prop := { sp' with min := sp.min } = sp

theorem SameSpwd.name {sp' : Spwd} (h : SameSpwd sp sp') : sp'.name = sp.name := by
  have hfield := congrArg Spwd.name h
  exact hfield

theorem SameSpwd.pwdp {sp' : Spwd} (h : SameSpwd sp sp') : sp'.pwdp = sp.pwdp := by
  have hfield := congrArg Spwd.pwdp h
  exact hfield

theorem Spwd.Text.of_line {line : Bytes} (hline : IsLine line) (hnis : nameIsNis line = false)
    (h : sgetspent line = some sp) : sp.Text := by
  obtain ⟨hrange,rest,hsplit⟩ := sgetspent_eq_some h
  have hzero := zero_notMem_field hline hsplit
  rw [takeWhile_line hline] at hsplit
  simp only [List.forall_mem_cons] at hzero
  exact ⟨firstField_notNis hnis hsplit,hzero.1,hzero.2.1,hrange⟩

private theorem zero_notMem_numberField {n : Int} : (0 : UInt8) ∉ numberField n := by
  unfold numberField
  split
  · exact List.not_mem_nil
  · split
    · simp [numeral_ne_zero]
    · exact numeral_ne_zero

theorem Spwd.Text.zero_notMem (h : sp.Text) : (0 : UInt8) ∉ spwdLine sp := by
  refine zero_notMem_fieldsLine ?_
  have hflag : (0 : UInt8) ∉ flagField sp.flag := by
    unfold flagField
    split
    · exact List.not_mem_nil
    · exact numeral_ne_zero
  simp only [List.forall_mem_cons]
  exact ⟨h.name,h.pwdp,zero_notMem_numberField,zero_notMem_numberField,zero_notMem_numberField,zero_notMem_numberField,
    zero_notMem_numberField,zero_notMem_numberField,hflag,nofun⟩

private theorem shadowPut_eq_some {putspent : Putspent} {bytes : Bytes} (h : shadowPut putspent sp = some bytes) :
    (∀ b ∈ sp.name, b ≠ colon ∧ b ≠ newline) ∧ (∀ b ∈ sp.pwdp, b ≠ colon ∧ b ≠ newline) ∧
      bytes = spwdLine sp ++ [newline] := by
  unfold shadowPut at h
  split at h
  · cases h
  · rename_i hfields
    simp only [Bool.or_eq_true,not_or,Bool.not_eq_true] at hfields
    refine ⟨fun b hb => ?_,fun b hb => ?_,putspent.writes sp bytes h⟩
    · simpa using validField_ne hfields.1.1 b hb
    · simpa using validField_ne hfields.1.2 b hb

def shadowStorage (putspent : Putspent) : Storage Spwd where
  ops := shadowOps
  closeOps := plainCloseOps (shadowPut putspent)
  Text := Spwd.Text
  Same := SameSpwd
  entryLines sp := [spwdLine sp]
  parts := namesParts_of_no_hook rfl
  refl _ := rfl
  read _ hr sp hsp := hr.entry (fun _ _ hline hnis hparse => Spwd.Text.of_line hline hnis hparse)
    (fun _ hook => nomatch hook) hsp
  writes := plainCloseOps_writesLines fun sp bytes htext hput => by
    obtain ⟨hname,hpwdp,rfl⟩ := shadowPut_eq_some hput
    obtain ⟨hline,hread⟩ := sgetspent_spwdLine hname hpwdp htext.range
    have hnis : nameIsNis (spwdLine sp) = false := (fieldsLine_notNis _ _ _).trans htext.notNis
    exact ⟨rfl,⟨hline,htext.zero_notMem⟩,rereadsAs_single rfl hnis hread rfl rfl⟩

end Shadow

section Group

def groupStorage (maxMembers : Nat) (putgrent : Putgrent) (memory : Bool) : Storage Group where
  ops := groupOps maxMembers
  closeOps := groupCloseOps maxMembers putgrent memory
  Text := Group.Text
  Same := SameGroup
  entryLines := groupLines maxMembers
  parts := groupOps_namesParts maxMembers
  refl := SameGroup.refl
  read _ hr _ hgr := IsRead.groupText hr hgr
  writes := groupCloseOps_writesLines maxMembers putgrent memory

end Group

section Gshadow
variable {sg : Sgrp}

/-- A gshadow entry of texts without null bytes, whose name does not make its line a NIS line. -/
structure Sgrp.Text (sg : Sgrp) : Prop where
  notNis : nameIsNis sg.name = false
  name : (0 : UInt8) ∉ sg.name
  passwd : (0 : UInt8) ∉ sg.passwd
  adm : ∀ user ∈ sg.adm, (0 : UInt8) ∉ user
  mem : ∀ user ∈ sg.mem, (0 : UInt8) ∉ user

/-- The same entry with the same users in its lists. -/
structure SameSgrp (sg sg' : Sgrp) : Prop where
  name : sg'.name = sg.name
  passwd : sg'.passwd = sg.passwd
  adm : ∀ user, user ≠ [] → (user ∈ sg'.adm ↔ user ∈ sg.adm)
  mem : ∀ user, user ≠ [] → (user ∈ sg'.mem ↔ user ∈ sg.mem)

theorem Sgrp.Text.of_line {line : Bytes} (hline : IsLine line) (hnis : nameIsNis line = false)
    (h : sgetsgent line = some sg) : sg.Text := by
  unfold sgetsgent at h
  split at h
  · rename_i name passwd adm mem hsplit
    have hzero := zero_notMem_field hline hsplit
    rw [takeWhile_line hline] at hsplit
    simp only [List.forall_mem_cons] at hzero
    obtain ⟨hname,hpasswd,hadm,hmem,_⟩ := hzero
    cases h
    exact ⟨firstField_notNis hnis hsplit,hname,hpasswd,
      fun user hu hz => hadm (mem_of_mem_splitOn (mem_splitOn_of_mem_memberList hu) hz),
      fun user hu hz => hmem (mem_of_mem_splitOn (mem_splitOn_of_mem_memberList hu) hz)⟩
  · cases h

/-- An entry that is written has no separators in its fields. -/
theorem gshadowPut_clean {memory : Bool} {bytes : Bytes} (h : gshadowPut memory sg = some bytes) :
    bytes = sgrpLine sg ++ [newline] ∧
      (∀ field ∈ [sg.name,sg.passwd,[comma].intercalate sg.adm,[comma].intercalate sg.mem], ∀ b ∈ field, b ≠ colon ∧ b ≠ newline) ∧
      (∀ user ∈ sg.adm, comma ∉ user) ∧ ∀ user ∈ sg.mem, comma ∉ user := by
  unfold gshadowPut at h
  split at h
  · cases h
  · rename_i hfields
    split at h
    · cases h
    · rename_i hadm
      split at h
      · cases h
      · rename_i hmem
        simp only [Bool.or_eq_true,not_or,Bool.not_eq_true] at hfields
        simp only [List.any_eq_true,not_exists,not_and,Bool.not_eq_true] at hadm hmem
        have hbytes : bytes = sgrpLine sg ++ [newline] := by
          unfold putsgent at h
          split at h
          · exact (Option.some.inj h).symm
          · cases h
        have husers : ∀ users : List Bytes, (∀ user ∈ users, (validField user [comma,colon,newline] == -1) = false) →
            (∀ user ∈ users, comma ∉ user) ∧ ∀ b ∈ [comma].intercalate users, b ≠ colon ∧ b ≠ newline := by
          intro users hvalid
          have hclean : ∀ user ∈ users, ∀ b ∈ user, b ≠ comma ∧ b ≠ colon ∧ b ≠ newline := fun user hu b hb => by
            simpa using validField_ne (hvalid user hu) b hb
          refine ⟨fun user hu hc => (hclean user hu comma hc).1 rfl,fun b hb => ?_⟩
          rcases mem_intercalate hb with rfl | ⟨user,hu,hb⟩
          · decide
          · exact (hclean user hu b hb).2
        obtain ⟨hadmComma,hadmLine⟩ := husers sg.adm hadm
        obtain ⟨hmemComma,hmemLine⟩ := husers sg.mem hmem
        refine ⟨hbytes,?_,hadmComma,hmemComma⟩
        simp only [List.forall_mem_cons]
        refine ⟨fun b hb => ?_,fun b hb => ?_,hadmLine,hmemLine,nofun⟩
        · simpa using validField_ne hfields.1 b hb
        · simpa using validField_ne hfields.2 b hb

/-- What is written is read back with the same users. -/
theorem sgetsgent_of_put {memory : Bool} {bytes : Bytes} (h : gshadowPut memory sg = some bytes) :
    bytes = sgrpLine sg ++ [newline] ∧ newline ∉ sgrpLine sg ∧
      ∃ sg', sgetsgent (sgrpLine sg) = some sg' ∧ SameSgrp sg sg' ∧ sg'.adm ⊆ sg.adm ∧ sg'.mem ⊆ sg.mem := by
  obtain ⟨hbytes,hsep,hadmComma,hmemComma⟩ := gshadowPut_clean h
  obtain ⟨hline,hsplit,htake⟩ := fieldsLine_spec hsep (List.cons_ne_nil _ _)
  refine ⟨hbytes,hline,⟨sg.name,sg.passwd,memberList ([comma].intercalate sg.adm),memberList ([comma].intercalate sg.mem)⟩,?_,
    ⟨rfl,rfl,fun _ hu => mem_memberList hadmComma hu,fun _ hu => mem_memberList hmemComma hu⟩,
    fun _ hu => mem_of_mem_memberList hadmComma hu,fun _ hu => mem_of_mem_memberList hmemComma hu⟩
  rw [sgetsgent,sgrpLine,htake,hsplit]

theorem Sgrp.Text.zero_notMem (h : sg.Text) : (0 : UInt8) ∉ sgrpLine sg := by
  refine zero_notMem_fieldsLine ?_
  simp only [List.forall_mem_cons]
  exact ⟨h.name,h.passwd,zero_notMem_members h.adm,zero_notMem_members h.mem,nofun⟩

theorem Sgrp.Text.withMem (h : sg.Text) {mem : List Bytes} (hmem : ∀ user ∈ mem, (0 : UInt8) ∉ user) :
    Sgrp.Text { sg with mem := mem } := ⟨h.notNis,h.name,h.passwd,h.adm,hmem⟩

theorem gshadow_parts : gshadowOps.NamesParts := namesParts_of_no_hook rfl

def gshadowStorage (memory : Bool) : Storage Sgrp where
  ops := gshadowOps
  closeOps := plainCloseOps (gshadowPut memory)
  Text := Sgrp.Text
  Same := SameSgrp
  entryLines sg := [sgrpLine sg]
  parts := gshadow_parts
  refl _ := ⟨rfl,rfl,fun _ _ => Iff.rfl,fun _ _ => Iff.rfl⟩
  read _ hr sg hsg := hr.entry (fun _ _ hline hnis hparse => Sgrp.Text.of_line hline hnis hparse)
    (fun _ hook => nomatch hook) hsg
  writes := plainCloseOps_writesLines fun sg bytes htext hput => by
    obtain ⟨rfl,hline,sg',hread,hsame,_⟩ := sgetsgent_of_put hput
    have hnis : nameIsNis (sgrpLine sg) = false := (fieldsLine_notNis _ _ _).trans htext.notNis
    exact ⟨rfl,⟨hline,htext.zero_notMem⟩,rereadsAs_single rfl hnis hread hsame.name hsame⟩

end Gshadow

end UserDb.Commonio
