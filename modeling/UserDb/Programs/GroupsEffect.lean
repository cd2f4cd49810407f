import UserDb.Base.Outcomes
import UserDb.Base.References
import UserDb.Ids.Specified
import UserDb.Programs.Groups
import UserDb.Programs.UsermodGroups

/-! What the group programs make of the tables of their files: a group is added, is gone, or has its new
gid, name, password and members, with its shadow and with the users whose primary group it is. -/
namespace UserDb.Programs
open UserDb.Base UserDb.Base.Outcomes UserDb.Atoi UserDb.Commonio UserDb.Ids

/-- The entries of the files under their names. -/
structure GroupTables where
  passwd : Bytes → Option Passwd
  group : Bytes → Option Group
  gshadow : Bytes → Option Sgrp

def GroupFiles.tables (tools : Tools) (files : GroupFiles) : GroupTables :=
  ⟨fileEntry tools.passwd.ops files.passwd.file,fileEntry tools.group.ops files.group.file,fileEntry tools.gshadow.ops files.gshadow.file⟩

/-- The last line of the file is no part of an entry further up. -/
def TailLinked {α : Type} (ops : Ops α) (file : Option Bytes) : Prop :=
  ∀ lines, diskLines file = some lines → lastAbsorbed ops lines = false

/-- Files in which each name stands once. -/
structure GroupFiles.Unique (tools : Tools) (files : GroupFiles) : Prop where
  passwd : UniqueFile tools.passwd.ops files.passwd.file
  group : UniqueFile tools.group.ops files.group.file
  gshadow : UniqueFile tools.gshadow.ops files.gshadow.file

/-- An open database with the entries of a table, all of them in reach of new ones. -/
def Holding {α : Type} (s : Storage α) (file : Option Bytes) (db : Db α) (t : Bytes → Option α) : Prop := ∃ l, Table s file db l false t

/-- An open database with the entries of a table. New ones may be out of reach. -/
def Listing {α : Type} (s : Storage α) (file : Option Bytes) (db : Db α) (t : Bytes → Option α) : Prop :=
  ∃ l stale, Table s file db l stale t

/-- A file that is not open keeps its entries. -/
def HoldingUsed {α : Type} (s : Storage α) (file : Option Bytes) : Option (Db α) → (Bytes → Option α) → Prop
  | none, t => t = fileEntry s.ops file
  | some db, t => Holding s file db t

/-- Open files with the entries of tables. -/
structure GroupDbs.Hold (tools : Tools) (files : GroupFiles) (dbs : GroupDbs) (t : GroupTables) : Prop where
  group : Holding tools.group files.group.file dbs.group t.group
  gshadow : HoldingUsed tools.gshadow files.gshadow.file dbs.gshadow t.gshadow
  passwd : HoldingUsed tools.passwd files.passwd.file dbs.passwd t.passwd

/-- A file with the entries of a table, or such that they are read as. -/
def Keeps {α : Type} (s : Storage α) (t : Bytes → Option α) (file : Option Bytes) : Prop :=
  UniqueFile s.ops file ∧ ∀ name, Option.Rel s.Same (t name) (fileEntry s.ops file name)

/-- The tables in the files, in the order in which these are written: a file is as it was, or has its
table where those before it have theirs. -/
structure Committed (tools : Tools) (files : GroupFiles) (t : GroupTables) (exit : Exit) (files' : GroupFiles) : Prop where
  group : files'.group.file = files.group.file ∨ Keeps tools.group t.group files'.group.file
  gshadow : files'.gshadow.file = files.gshadow.file ∨
    Keeps tools.group t.group files'.group.file ∧ Keeps tools.gshadow t.gshadow files'.gshadow.file
  passwd : files'.passwd.file = files.passwd.file ∨ Keeps tools.group t.group files'.group.file ∧
    Keeps tools.gshadow t.gshadow files'.gshadow.file ∧ Keeps tools.passwd t.passwd files'.passwd.file
  all : exit = Groups.success → Keeps tools.group t.group files'.group.file ∧ Keeps tools.gshadow t.gshadow files'.gshadow.file ∧
    Keeps tools.passwd t.passwd files'.passwd.file

section Databases
variable {α : Type} {s : Storage α} {file : Option Bytes} {db db' : Db α} {t : Bytes → Option α} {name : Bytes} {a : α}

private theorem openFirst_linked {access : AccessMode} {create read memory : Bool} (hunique : UniqueFile s.ops file)
    (hlinked : TailLinked s.ops file) (h : openFirst s access create file read memory = (true,db)) :
    Holding s file db (fileEntry s.ops file) := by
  obtain ⟨l,stale,htable,_⟩ := openFirst_table hunique h
  cases read with
  | false => cases create <;> cases access <;> cases h
  | true =>
    have hopen : commonioOpen s.ops _ access create (fileState file) memory = (true,db) := h
    obtain ⟨lines,l',hlines,hrep,_⟩ := commonioOpen_rep hopen
    rw [hlinked lines hlines] at hrep
    have hsame : l' = l := hrep.from_head.symm.trans htable.loaded.rep.from_head
    subst hsame
    exact ⟨l',⟨⟨⟨hrep,htable.loaded.read,htable.loaded.stored⟩,htable.isopen,htable.text,htable.unchanged,htable.writable⟩,
      htable.unique,htable.table⟩⟩

theorem tailLinked_of_no_hook {ops : Ops α} (hook : ops.openHook = none) (file : Option Bytes) : TailLinked ops file := by
  intro lines _
  rw [lastAbsorbed,hook]

theorem Holding.listing (h : Holding s file db t) : Listing s file db t := by
  obtain ⟨l,htable⟩ := h
  exact ⟨l,false,htable⟩

theorem Listing.locate (h : Listing s file db t) (name : Bytes) :
    (commonioLocate s.ops db name).1 = t name ∧ Listing s file (commonioLocate s.ops db name).2 t := by
  obtain ⟨l,stale,htable⟩ := h
  obtain ⟨hfound,hlocated⟩ := htable.located name
  exact ⟨hfound,l,stale,hlocated⟩

theorem Listing.found (h : Listing s file db t) (ha : t name = some a) : s.ops.getname a = name ∧ s.Text a := by
  obtain ⟨l,stale,htable⟩ := h
  exact htable.found ha

/-- An entry of a name that is there takes the place of the one of that name. -/
theorem Listing.replace (h : Listing s file db t) (ha : t name = some a) {a' : α} {memory : Bool} (hname : s.ops.getname a' = name)
    (htext : s.Text a') (hrun : commonioUpdate s.ops db a' memory = (true,db')) :
    Listing s file db' (Function.update t name (some a')) := by
  obtain ⟨l,stale,htable⟩ := h
  have hfound : lookup s.ops (l.map db.record) name = some a := (congrFun htable.table name).trans ha
  obtain ⟨r,hr,hra,hkey⟩ := lookup_eq_some hfound
  obtain ⟨p,hp,rfl⟩ := List.mem_map.mp hr
  obtain ⟨hstored,_⟩ := htable.update_at hp hra (hname.trans hkey.symm) htext hrun
  rw [hkey] at hstored
  exact ⟨l,stale,hstored⟩

theorem Holding.locate (h : Holding s file db t) (name : Bytes) :
    (commonioLocate s.ops db name).1 = t name ∧ Holding s file (commonioLocate s.ops db name).2 t := by
  obtain ⟨l,htable⟩ := h
  obtain ⟨hfound,hlocated⟩ := htable.located name
  exact ⟨hfound,l,hlocated⟩

theorem Holding.found (h : Holding s file db t) (ha : t name = some a) : s.ops.getname a = name ∧ s.Text a := h.listing.found ha

theorem Holding.update (h : Holding s file db t) {memory : Bool} (hrun : commonioUpdate s.ops db a memory = (true,db'))
    (htext : s.Text a) : Holding s file db' (Function.update t (s.ops.getname a) (some a)) := by
  obtain ⟨l,htable⟩ := h
  exact htable.update hrun htext

theorem Holding.remove (h : Holding s file db t) (hrun : commonioRemove s.ops db name = (true,db')) :
    Holding s file db' (Function.update t name none) := by
  obtain ⟨l,htable⟩ := h
  obtain ⟨l',htable',_⟩ := htable.remove hrun
  exact ⟨l',htable'⟩

private theorem keeps_of_stores (h : Stores s t file) : Keeps s t file := by
  refine ⟨fun rs hrs => ?_,h.entry⟩
  obtain ⟨rs',hread,hunique,_⟩ := h
  rw [hrs] at hread
  cases hread
  exact hunique

theorem Keeps.same (h : UniqueFile s.ops file) : Keeps s (fileEntry s.ops file) file := ⟨h,fun _ => s.rel_refl _⟩

end Databases

/-- Without a shadow file there are no shadow entries. -/
theorem GroupFiles.tables_gshadow {files : GroupFiles} {tools : Tools} (h : files.isShadowGrp = false) (name : Bytes) :
    (files.tables tools).gshadow name = none := by
  have hfile : files.gshadow.file = none := Option.not_isSome_iff_eq_none.mp (Bool.eq_false_iff.mp h)
  have hentry : fileEntry tools.gshadow.ops files.gshadow.file name = none := by rw [hfile,fileEntry_none]
  exact hentry

section Opening
variable {e : GroupEnv} {files : GroupFiles} {dbs : GroupDbs}

private theorem openLocked_ok {α : Type} {s : Storage α} {calls : FileCalls} {file : Option Bytes} {db : Db α}
    (h : Groups.openLocked s calls file = .ok db) : openFirst s .rdwr true file calls.read calls.openMemory = (true,db) := by
  unfold Groups.openLocked at h
  split at h
  · cases h
  · rename_i hopen
    cases h
    exact hopen

theorem openLocked_holding {α : Type} {s : Storage α} {calls : FileCalls} {file : Option Bytes} {db : Db α}
    (hunique : UniqueFile s.ops file) (hlinked : TailLinked s.ops file) (h : Groups.openLocked s calls file = .ok db) :
    Holding s file db (fileEntry s.ops file) := openFirst_linked hunique hlinked (openLocked_ok h)

theorem openLocked_listing {α : Type} {s : Storage α} {calls : FileCalls} {file : Option Bytes} {db : Db α}
    (hunique : UniqueFile s.ops file) (h : Groups.openLocked s calls file = .ok db) : Listing s file db (fileEntry s.ops file) := by
  obtain ⟨l,stale,htable,_⟩ := openFirst_table hunique (openLocked_ok h)
  exact ⟨l,stale,htable⟩

theorem openUsed_holding {α : Type} {s : Storage α} {used : Bool} {calls : FileCalls} {file : Option Bytes} {db : Option (Db α)}
    (hunique : UniqueFile s.ops file) (hlinked : TailLinked s.ops file) (h : Groups.openUsed s used calls file = .ok db) :
    HoldingUsed s file db (fileEntry s.ops file) ∧ db.isSome = used := by
  unfold Groups.openUsed at h
  split at h
  · rename_i hused
    cases hopen : Groups.openLocked s calls file with
    | error exit =>
      rw [hopen] at h
      cases h
    | ok db =>
      rw [hopen] at h
      cases h
      exact ⟨openLocked_holding hunique hlinked hopen,hused.symm⟩
  · rename_i hused
    cases h
    exact ⟨rfl,(Bool.not_eq_true _ ▸ hused).symm⟩

/-- The files are open with their entries. -/
theorem openFiles_hold {shadow passwd : Bool} (hunique : files.Unique e.tools) (hlinked : TailLinked e.tools.group.ops files.group.file)
    (h : Groups.openFiles e shadow passwd files = .ok dbs) :
    dbs.Hold e.tools files (files.tables e.tools) ∧ dbs.gshadow.isSome = shadow ∧ dbs.passwd.isSome = passwd := by
  unfold Groups.openFiles at h
  split at h
  · cases h
  · simp only [except_bind_eq_ok] at h
    obtain ⟨groups,hgroups,gshadows,hgshadows,passwds,hpasswds,hdone⟩ := h
    cases hdone
    have hg := openUsed_holding hunique.gshadow (tailLinked_of_no_hook rfl _) hgshadows
    have hp := openUsed_holding hunique.passwd (tailLinked_of_no_hook rfl _) hpasswds
    exact ⟨⟨openLocked_holding hunique.group hlinked hgroups,hg.1,hp.1⟩,hg.2,hp.2⟩

end Opening

section Closing
variable {e : GroupEnv} {files files' : GroupFiles} {dbs : GroupDbs} {t : GroupTables} {exit : Exit}

theorem closeFile_cases {α : Type} {s : Storage α} {calls : FileCalls} {db : Db α} {disk disk' : Disk} {t : Bytes → Option α} {ok : Bool}
    (h : Listing s disk.file db t) (hclose : Groups.closeFile e s calls db disk = (ok,disk')) :
    ok = false ∧ disk'.file = disk.file ∨ Keeps s t disk'.file := by
  obtain ⟨l,stale,htable⟩ := h
  cases hclose
  rcases htable.close with hfailed | hstored
  · exact .inl hfailed
  · exact .inr (keeps_of_stores hstored)

theorem closeUsed_cases {α : Type} {s : Storage α} {calls : FileCalls} {db : Option (Db α)} {disk disk' : Disk} {t : Bytes → Option α}
    {ok : Bool} (hunique : UniqueFile s.ops disk.file) (h : HoldingUsed s disk.file db t)
    (hclose : Groups.closeUsed e s calls db disk = (ok,disk')) :
    ok = false ∧ disk'.file = disk.file ∨ Keeps s t disk'.file := by
  cases db with
  | none =>
    cases hclose
    rw [show t = _ from h]
    exact .inr (Keeps.same hunique)
  | some db => exact closeFile_cases (Holding.listing h) hclose

/-- The files are written one after the other, each one after those before it are. -/
theorem closeFiles_committed (hunique : files.Unique e.tools) (h : dbs.Hold e.tools files t)
    (hclose : Groups.closeFiles e dbs files = (exit,files')) :
    Committed e.tools files t exit files' := by
  have hfailed : Groups.grpUpdateFailed ≠ Groups.success := by decide
  unfold Groups.closeFiles at hclose
  rcases hgroup : Groups.closeFile e e.tools.group e.group dbs.group files.group with ⟨ok,group⟩
  have hg := closeFile_cases h.group.listing hgroup
  simp only [hgroup] at hclose
  cases ok with
  | false =>
    cases hclose
    exact ⟨hg.imp_left And.right,.inl rfl,.inl rfl,fun hexit => absurd hexit hfailed⟩
  | true =>
    have hg := hg.resolve_left fun hf => Bool.false_ne_true hf.1.symm
    rcases hgshadow : Groups.closeUsed e e.tools.gshadow e.gshadow dbs.gshadow files.gshadow with ⟨ok,gshadow⟩
    have hs := closeUsed_cases hunique.gshadow h.gshadow hgshadow
    simp only [hgshadow] at hclose
    cases ok with
    | false =>
      cases hclose
      exact ⟨.inr hg,hs.imp And.right (And.intro hg),.inl rfl,fun hexit => absurd hexit hfailed⟩
    | true =>
      have hs := hs.resolve_left fun hf => Bool.false_ne_true hf.1.symm
      rcases hpasswd : Groups.closeUsed e e.tools.passwd e.passwd dbs.passwd files.passwd with ⟨ok,passwd⟩
      have hp := closeUsed_cases hunique.passwd h.passwd hpasswd
      simp only [hpasswd] at hclose
      cases hclose
      refine ⟨.inr hg,.inr ⟨hg,hs⟩,hp.imp And.right fun hp => ⟨hg,hs,hp⟩,fun hexit => ⟨hg,hs,?_⟩⟩
      cases ok with
      | false => exact absurd hexit hfailed
      | true => exact hp.resolve_left fun hf => Bool.false_ne_true hf.1.symm

end Closing

end UserDb.Programs
