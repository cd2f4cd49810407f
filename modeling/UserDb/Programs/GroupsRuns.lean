import UserDb.Base.Simulation
import UserDb.Programs.GroupsWork

/-! Runs of `groupadd`, `groupdel` and `groupmod`, one after the other: gids stay apart, and no user is left with
a primary group that is not there. -/
namespace UserDb.Programs
open UserDb.Base UserDb.Base.Outcomes UserDb.Atoi UserDb.Commonio UserDb.Ids

inductive GroupProgram where
  | groupadd (o : Groupadd) | groupdel (o : Groupdel) | groupmod (o : Groupmod)

namespace GroupProgram

def run (p : GroupProgram) (e : GroupEnv) (files : GroupFiles) : Exit × GroupFiles :=
  match p with
  | .groupadd o => o.run e files
  | .groupdel o => o.run e files
  | .groupmod o => o.run e files

/-- The texts of the command line have no null bytes. -/
def Text : GroupProgram → Prop
  | .groupadd o => o.Text
  | .groupdel _ => True
  | .groupmod o => o.Text

/-- `-o` is not given. -/
def KeepsUnique : GroupProgram → Prop
  | .groupadd o => o.nonUnique = false
  | .groupdel _ => True
  | .groupmod o => o.nonUnique = false

/-- `-f` is not given where a group is to be deleted. -/
def KeepsPrimary : GroupProgram → Prop
  | .groupdel o => o.force = false
  | _ => True

/-- A group that is there already is enough for `groupadd -f`. -/
def Idle (e : GroupEnv) : GroupProgram → Prop
  | .groupadd o => o.force = true ∧ (e.service.getgrnam o.name).isSome = true
  | _ => False

/-- The tables that a program is to make of those of the files. -/
inductive Makes (e : GroupEnv) (files : GroupFiles) : GroupProgram → GroupTables → Prop
  | groupadd {o : Groupadd} {gid : UInt32} {users : List Bytes} (new : e.service.getgrnam o.name = none) (takes : o.Takes e gid)
      (lists : Groups.listedUsers e (o.users.getD []) = .ok users) :
      Makes e files (.groupadd o) (o.effect files.isShadowGrp gid users (files.tables e.tools))
  | groupdel {o : Groupdel} {grp : Group} (known : e.service.getgrnam o.name = some grp)
      (unused : o.force = false → ∀ pwd ∈ e.service.getpwent, pwd.gid ≠ grp.gid) :
      Makes e files (.groupdel o) (o.effect files.isShadowGrp (files.tables e.tools))
  | groupmod {o : Groupmod} {change : GroupChange} {ogrp : Group} {users : Option (List Bytes)} (leaves : o.Leaves e change)
      (found : (files.tables e.tools).group o.name = some ogrp) (name : ogrp.name = o.name) (lists : o.Lists e users) :
      Makes e files (.groupmod o)
        (o.effect e.service files.isShadowGrp (o.usesShadow change files) change ogrp users (files.tables e.tools))

end GroupProgram

section Refinement
variable {e : GroupEnv} {files files' : GroupFiles} {exit : Exit}

private theorem commit_cases {work : Except Exit GroupDbs} {t : GroupTables → Prop} (hunique : files.Unique e.tools)
    (hwork : ∀ dbs, work = .ok dbs → ∃ t', t t' ∧ dbs.Hold e.tools files t') (h : Groups.commit e work files = (exit,files')) :
    (work = .error exit ∧ files' = files) ∨ ∃ t', t t' ∧ Committed e.tools files t' exit files' := by
  cases hresult : work with
  | error exit' =>
    rw [hresult] at h
    cases h
    exact .inl ⟨rfl,rfl⟩
  | ok dbs =>
    rw [hresult] at h
    obtain ⟨t',ht,hdbs⟩ := hwork dbs hresult
    exact .inr ⟨t',ht,closeFiles_committed hunique hdbs h⟩

/-- An end other than success. -/
def Failure (exit : Exit) : Prop := exit ≠ Groups.success

instance : DecidablePred Failure := fun exit => inferInstanceAs (Decidable (exit ≠ Groups.success))

theorem parseGids_refuses (arg : Option Bytes) : RefusesWith Failure (Groups.parseGids arg) := by
  have hbad : Failure Groups.badArg := by decide
  cases arg with
  | none => exact refusesWith_ok none
  | some arg =>
    refine RefusesWith.map ?_ some
    unfold Groups.parseGid
    split
    · exact refusesWith_error hbad
    · split
      · exact refusesWith_error hbad
      · exact refusesWith_ok _

theorem openFiles_refuses (shadow passwd : Bool) : RefusesWith Failure (Groups.openFiles e shadow passwd files) := by
  have hfailed : Failure Groups.grpUpdateFailed := by decide
  have hlocked : ∀ {α : Type} (s : Storage α) (calls : FileCalls) (file : Option Bytes),
      RefusesWith Failure (Groups.openLocked s calls file) := by
    intro α s calls file
    unfold Groups.openLocked
    split
    · exact refusesWith_error hfailed
    · exact refusesWith_ok _
  have hused : ∀ {α : Type} (s : Storage α) (used : Bool) (calls : FileCalls) (file : Option Bytes),
      RefusesWith Failure (Groups.openUsed s used calls file) := by
    intro α s used calls file
    unfold Groups.openUsed
    split
    · exact (hlocked s calls file).map some
    · exact refusesWith_ok none
  unfold Groups.openFiles
  split
  · exact refusesWith_error hfailed
  · refine (hlocked _ _ _).bind fun _ _ => (hused _ _ _ _).bind fun _ _ => (hused _ _ _ _).bind fun _ _ => refusesWith_ok _

theorem listedUsers_refuses (list : Bytes) : RefusesWith Failure (Groups.listedUsers e list) := by
  unfold Groups.listedUsers
  split
  · exact refusesWith_ok _
  · simp only
    split
    · exact refusesWith_ok _
    · exact refusesWith_error (by decide)

section Calls
variable {n : Nat} {name : Bytes}

theorem storeGroup_refuses (db : Db Group) (grp : Group) : RefusesWith Failure (Groups.storeGroup e n db grp) := by
  unfold Groups.storeGroup
  split
  · exact refusesWith_error (by decide)
  · exact refusesWith_ok _

theorem removeGroup_refuses (db : Db Group) : RefusesWith Failure (Groups.removeGroup e db name) := by
  unfold Groups.removeGroup
  split
  · exact refusesWith_error (by decide)
  · exact refusesWith_ok _

theorem storeGshadow_refuses (db : Db Sgrp) (sgrp : Sgrp) : RefusesWith Failure (Groups.storeGshadow e n db sgrp) := by
  unfold Groups.storeGshadow
  split
  · exact refusesWith_error (by decide)
  · exact refusesWith_ok _

theorem removeGshadow_refuses (db : Db Sgrp) : RefusesWith Failure (Groups.removeGshadow e db name) := by
  unfold Groups.removeGshadow
  split
  · exact refusesWith_error (by decide)
  · exact refusesWith_ok _

end Calls

/-- Before it writes, `groupadd` ends with success only for a group that is there already. -/
theorem Groupadd.work_refuses (o : Groupadd) :
    RefusesWith (fun exit => exit = Groups.success → GroupProgram.Idle e (.groupadd o)) (o.work e files) := by
  have hfailure : ∀ {α : Type} {x : Except Exit α}, RefusesWith Failure x →
      RefusesWith (fun exit => exit = Groups.success → GroupProgram.Idle e (.groupadd o)) x :=
    fun hx exit hexit hsuccess => absurd hsuccess (hx exit hexit)
  refine (hfailure (parseGids_refuses _)).bind fun asked _ => RefusesWith.bind ?_ fun use _ =>
    (hfailure (openFiles_refuses _ _)).bind fun opened _ => RefusesWith.bind (hfailure ?_) fun taken _ => hfailure ?_
  · unfold checkFlags
    split
    · exact refusesWith_error fun h => absurd h (by decide)
    · split
      · exact refusesWith_error fun h => absurd h (by decide)
      · split
        · rename_i hknown
          refine refusesWith_error fun h => ⟨?_,hknown⟩
          by_contra hforce
          rw [if_neg hforce] at h
          exact absurd h (by decide)
        · split
          · exact refusesWith_ok _
          · split
            · split
              · exact refusesWith_ok _
              · split
                · exact refusesWith_ok _
                · exact refusesWith_error fun h => absurd h (by decide)
            · exact refusesWith_ok _
  · cases use with
    | some id => exact refusesWith_ok _
    | none =>
      unfold groupId
      rcases findNewGid e.defs (fun id => (e.service.getgrgid id).isSome) e.idMemory e.fuel o.system none opened.group with ⟨found,groups⟩
      cases found with
      | outOfBounds => exact refusesWith_error (by decide)
      | running => exact refusesWith_error (by decide)
      | returned found =>
        cases found with
        | none => exact refusesWith_error (by decide)
        | some id => exact refusesWith_ok _
  · unfold grpUpdate
    refine (listedUsers_refuses _).bind fun users _ => (storeGroup_refuses _ _).bind fun groups _ => ?_
    split
    · exact refusesWith_ok _
    · exact (storeGshadow_refuses _ _).bind fun _ _ => refusesWith_ok _

theorem Groupdel.work_refuses (o : Groupdel) : RefusesWith Failure (o.work e files) := by
  unfold work
  split
  · exact refusesWith_error (by decide)
  · refine RefusesWith.bind ?_ fun _ _ => (openFiles_refuses _ _).bind fun opened _ => ?_
    · unfold checkBusy
      split
      · exact refusesWith_error (by decide)
      · exact refusesWith_ok _
    · unfold grpUpdate
      refine (removeGroup_refuses _).bind fun groups _ => ?_
      split
      · exact refusesWith_ok _
      · split
        · exact refusesWith_ok _
        · exact (removeGshadow_refuses _).bind fun _ _ => refusesWith_ok _

theorem Groupmod.processFlags_refuses (o : Groupmod) : RefusesWith Failure (o.processFlags e) := by
  refine (parseGids_refuses _).bind fun asked _ => ?_
  split
  · exact refusesWith_error (by decide)
  · split
    · exact refusesWith_error (by decide)
    · refine RefusesWith.bind ?_ fun gid _ => RefusesWith.bind ?_ fun name _ => refusesWith_ok _
      · unfold checkNewGid
        split
        · exact refusesWith_ok _
        · split
          · exact refusesWith_ok _
          · split
            · exact refusesWith_ok _
            · exact refusesWith_error (by decide)
      · unfold checkNewName
        split
        · exact refusesWith_ok _
        · split
          · exact refusesWith_ok _
          · split
            · exact refusesWith_error (by decide)
            · split
              · exact refusesWith_error (by decide)
              · exact refusesWith_ok _

theorem Groupmod.updatePrimaryGroups_refuses {ogid ngid : UInt32} (pwds : List Passwd) {n : Nat} {db : Db Passwd} :
    RefusesWith Failure (updatePrimaryGroups e ogid ngid pwds n db) := by
  induction pwds generalizing n db with
  | nil => exact refusesWith_ok _
  | cons pwd pwds ih =>
    unfold updatePrimaryGroups
    split
    · split
      · exact refusesWith_error (by decide)
      · split
        · exact refusesWith_error (by decide)
        · exact ih
    · exact ih

theorem Groupmod.work_refuses (o : Groupmod) : RefusesWith Failure (o.work e files) := by
  refine (Groupmod.processFlags_refuses o).bind fun change _ => (openFiles_refuses _ _).bind fun opened _ => ?_
  unfold grpUpdate
  split
  · exact refusesWith_error (by decide)
  · rename_i ogrp groups _
    have hpasswds : RefusesWith Failure (updatePasswds e change ogrp.gid opened.passwd) := by
      unfold updatePasswds
      split
      · exact (Groupmod.updatePrimaryGroups_refuses _).map some
      · exact refusesWith_ok _
    have hgroup : ∀ db grp, RefusesWith Failure (o.replaceGroup e change db grp) := fun db grp =>
      (storeGroup_refuses db grp).bind fun db' _ => by
        split
        · exact removeGroup_refuses db'
        · exact refusesWith_ok _
    have hgshadow : ∀ db sgrp, RefusesWith Failure (o.replaceGshadow e change db sgrp) := fun db sgrp =>
      (storeGshadow_refuses db sgrp).bind fun db' _ => by
        split
        · exact removeGshadow_refuses db'
        · exact refusesWith_ok _
    have hgshadows : ∀ grp users db, RefusesWith Failure (o.updateGshadows e change grp users db) := by
      intro grp users db
      unfold updateGshadows
      split
      · exact refusesWith_ok _
      · simp only
        split
        · exact refusesWith_ok _
        · exact (hgshadow _ _).map some
    refine hpasswds.bind fun passwds _ => ?_
    have hrest : ∀ users, RefusesWith Failure (do
        let groups ← o.replaceGroup e change groups { o.newGrent files.isShadowGrp change ogrp with
          members := o.newMembers users (o.newGrent files.isShadowGrp change ogrp).members }
        let gshadows ← o.updateGshadows e change (o.newGrent files.isShadowGrp change ogrp) users opened.gshadow
        return (⟨groups,gshadows,passwds⟩ : GroupDbs)) := fun users =>
      (hgroup _ _).bind fun _ _ => (hgshadows _ _ _).bind fun _ _ => refusesWith_ok _
    cases o.users with
    | none => exact hrest none
    | some list => exact ((listedUsers_refuses list).map some).bind fun users _ => hrest users

/-- A run leaves the files where it refuses, and else has made its tables and brought them to the files. -/
theorem group_programs_cases (p : GroupProgram) (hunique : files.Unique e.tools) (hlinked : TailLinked e.tools.group.ops files.group.file)
    (htext : p.Text) (h : p.run e files = (exit,files')) :
    (files' = files ∧ (exit = Groups.success → p.Idle e)) ∨
      ∃ t, p.Makes e files t ∧ Committed e.tools files t exit files' := by
  cases p with
  | groupadd o =>
    have hwork : ∀ dbs, o.work e files = .ok dbs → ∃ t, (GroupProgram.groupadd o).Makes e files t ∧ dbs.Hold e.tools files t := by
      intro dbs hdbs
      obtain ⟨hnew,gid,users,htakes,hlists,hhold⟩ := Groupadd.work_hold hunique hlinked htext hdbs
      exact ⟨_,.groupadd hnew htakes hlists,hhold⟩
    rcases commit_cases hunique hwork h with ⟨herror,hfiles⟩ | hdone
    · exact .inl ⟨hfiles,Groupadd.work_refuses o exit herror⟩
    · exact .inr hdone
  | groupdel o =>
    have hwork : ∀ dbs, o.work e files = .ok dbs → ∃ t, (GroupProgram.groupdel o).Makes e files t ∧ dbs.Hold e.tools files t := by
      intro dbs hdbs
      obtain ⟨grp,hknown,hunused,hhold⟩ := Groupdel.work_hold hunique hlinked hdbs
      exact ⟨_,.groupdel hknown hunused,hhold⟩
    rcases commit_cases hunique hwork h with ⟨herror,hfiles⟩ | hdone
    · exact .inl ⟨hfiles,fun hexit => absurd hexit (Groupdel.work_refuses o exit herror)⟩
    · exact .inr hdone
  | groupmod o =>
    have hwork : ∀ dbs, o.work e files = .ok dbs → ∃ t, (GroupProgram.groupmod o).Makes e files t ∧ dbs.Hold e.tools files t := by
      intro dbs hdbs
      obtain ⟨change,ogrp,users,hleaves,hfound,hname,hlists,hhold⟩ := Groupmod.work_hold hunique hlinked htext hdbs
      exact ⟨_,.groupmod hleaves hfound hname hlists,hhold⟩
    rcases commit_cases hunique hwork h with ⟨herror,hfiles⟩ | hdone
    · exact .inl ⟨hfiles,fun hexit => absurd hexit (Groupmod.work_refuses o exit herror)⟩
    · exact .inr hdone

/-- The group programs do as they are to: a run that ends with success has its tables in all files, unless its group is there
already; any other one has them in those that it came to, in their order. -/
theorem group_programs_refine (p : GroupProgram) (hunique : files.Unique e.tools) (hlinked : TailLinked e.tools.group.ops files.group.file)
    (htext : p.Text) (h : p.run e files = (exit,files')) :
    (exit = Groups.success → (p.Idle e ∧ files' = files) ∨ ∃ t, p.Makes e files t ∧ Keeps e.tools.group t.group files'.group.file ∧
      Keeps e.tools.gshadow t.gshadow files'.gshadow.file ∧ Keeps e.tools.passwd t.passwd files'.passwd.file) ∧
    (exit ≠ Groups.success → files' = files ∨ ∃ t, p.Makes e files t ∧ Committed e.tools files t exit files') := by
  rcases group_programs_cases p hunique hlinked htext h with ⟨hfiles,hidle⟩ | ⟨t,hmakes,hcommitted⟩
  · exact ⟨fun hexit => .inl ⟨hidle hexit,hfiles⟩,fun _ => .inl hfiles⟩
  · exact ⟨fun hexit => .inr ⟨t,hmakes,hcommitted.all hexit⟩,fun _ => .inr ⟨t,hmakes,hcommitted⟩⟩

end Refinement

def plainCalls : FileCalls := ⟨true,true,true,fun _ => true,allSteps⟩

def knownAccounts (pwds : List Passwd) (groups : List Group) : NameService where
  getgrnam name := groups.find? fun g => g.name == name
  getgrgid gid := groups.find? fun g => g.gid == gid
  hostGetgrgid gid := groups.find? fun g => g.gid == gid
  getpwnam name := pwds.find? fun pwd => pwd.name == name
  getpwent := pwds

def plainGroupEnv (service : NameService) : GroupEnv := ⟨plainTools,noDefs,service,false,32,plainCalls,plainCalls,plainCalls,true,2^32⟩

def groupFiles (passwd group gshadow : String) : GroupFiles :=
  ⟨⟨some (ascii passwd),none⟩,⟨some (ascii group),none⟩,⟨some (ascii gshadow),none⟩⟩

/-- One user with a group, before and after it is moved. -/
def oneMember : GroupFiles := groupFiles "u:x:1:5::/:/bin/sh\n" "g:x:5:\n" "g:!::\n"
def oneMoved : GroupFiles := ⟨⟨some (ascii "u:x:1:7::/:/bin/sh\n"),oneMember.passwd.file⟩,⟨some (ascii "k:x:7:\n"),oneMember.group.file⟩,
  ⟨some (ascii "k:!::\n"),oneMember.gshadow.file⟩⟩

def accountIn (gid : UInt32) : Passwd := ⟨ascii "u",ascii "x",1,gid,[],ascii "/",ascii "/bin/sh"⟩
def groupWith (name : String) (gid : UInt32) : Group := ⟨ascii name,ascii "x",gid,[]⟩

/-- The group `g` gets the name `k` and the gid 7. -/
def moveGroup : GroupProgram := .groupmod ⟨ascii "g",some (ascii "7"),some (ascii "k"),false,false,none,none⟩

def beforeMove : GroupEnv := plainGroupEnv (knownAccounts [accountIn 5] [groupWith "g" 5])

theorem oneMember_unique : oneMember.Unique plainTools :=
  ⟨uniqueFile_of_names rfl (by decide +kernel),uniqueFile_of_names rfl (by decide +kernel),uniqueFile_of_names rfl (by decide +kernel)⟩

theorem moveGroup_text : moveGroup.Text := by
  refine ⟨fun name hname => ?_,fun _ h => ?_,fun _ h => ?_⟩
  · cases hname
    decide +kernel
  · cases h
  · cases h

theorem group_programs_refine_moved : (moveGroup.run beforeMove oneMember).1 = Groups.success ∧
    ∃ t, moveGroup.Makes beforeMove oneMember t ∧ Keeps plainTools.passwd t.passwd (moveGroup.run beforeMove oneMember).2.passwd.file := by
  have hexit : (moveGroup.run beforeMove oneMember).1 = Groups.success := by decide +kernel
  have hlinked : TailLinked beforeMove.tools.group.ops oneMember.group.file := tailLinked_of_no_hook rfl _
  rcases (group_programs_refine (e := beforeMove) moveGroup oneMember_unique hlinked moveGroup_text rfl).1 hexit with
    ⟨hidle,_⟩ | ⟨t,hmakes,_,_,hpasswd⟩
  · exact absurd hidle not_false
  · exact ⟨hexit,t,hmakes,hpasswd⟩

/-- The service knows what stands in the files, and perhaps more. -/
structure NameService.Covers (service : NameService) (t : GroupTables) : Prop where
  name : ∀ name g, t.group name = some g → ∃ g', service.getgrnam name = some g' ∧ g'.gid = g.gid
  gid : ∀ name g, t.group name = some g → service.getgrgid g.gid ≠ none ∧ service.hostGetgrgid g.gid ≠ none
  users : ∀ name pw, t.passwd name = some pw → ∃ pwd ∈ service.getpwent, pwd.name = name ∧ pwd.gid = pw.gid

/-- No two groups share a gid, each primary group is there, and each shadow entry has its group. -/
structure GroupTables.Consistent (t : GroupTables) : Prop where
  gids : DistinctBy Group.gid t.group
  primary : Refers Passwd.gid Group.gid t.passwd t.group
  shadow : ∀ name, t.group name = none → t.gshadow name = none

section Steps
variable {e : GroupEnv} {files files' : GroupFiles} {p : GroupProgram} {t t' : GroupTables}

theorem NameService.Covers.unknown {service : NameService} (h : service.Covers t) {name : Bytes} (hname : service.getgrnam name = none) :
    t.group name = none := by
  by_contra hsome
  obtain ⟨g,hg⟩ := Option.ne_none_iff_exists'.mp hsome
  obtain ⟨g',hg',_⟩ := h.name name g hg
  cases hname.symm.trans hg'

/-- The gid of a changed group is that of no other one. -/
theorem Groupmod.Leaves.apart {o : Groupmod} {change : GroupChange} {ogrp : Group} (h : o.Leaves e change)
    (hkeeps : o.nonUnique = false) (hcovers : e.service.Covers t) (hfound : t.group o.name = some ogrp)
    (hgids : DistinctBy Group.gid t.group) :
    ∀ name g, t.group name = some g → g.gid = change.gid.getD ogrp.gid → name = o.name := by
  intro name g hg hsame
  cases hgid : change.gid with
  | none =>
    rw [hgid] at hsame
    exact hgids name o.name g ogrp hg hfound hsame
  | some ngid =>
    rw [hgid] at hsame
    have hfree := (h.free ngid hgid).resolve_right (Bool.not_eq_true _ ▸ hkeeps)
    exact absurd (hsame ▸ hfree) (hcovers.gid name g hg).2

/-- Gids stay apart, whatever the program is. -/
theorem GroupProgram.Makes.gids (h : p.Makes e files t) (hkeeps : p.KeepsUnique) (hcovers : e.service.Covers (files.tables e.tools))
    (hgids : DistinctBy Group.gid (files.tables e.tools).group) : DistinctBy Group.gid t.group := by
  cases h with
  | @groupadd o gid users new takes lists =>
    refine hgids.store fun name g hg hsame => ?_
    have hsame : g.gid = gid := hsame
    have hfree := takes.free.resolve_right (Bool.not_eq_true _ ▸ hkeeps)
    exact absurd (hsame ▸ hfree) (hcovers.gid name g hg).1
  | groupdel known unused => exact hgids.erase
  | @groupmod o change ogrp users leaves found name lists => exact hgids.rekey (leaves.apart hkeeps hcovers found hgids)

section Change
variable {o : Groupmod} {service : NameService} {isShadowGrp used : Bool} {change : GroupChange} {ogrp g : Group}
  {users : Option (List Bytes)} {name : Bytes}

theorem Groupmod.effect_group : (o.effect service isShadowGrp used change ogrp users t).group =
    rekey t.group o.name (o.newGrent isShadowGrp change ogrp).name
      { o.newGrent isShadowGrp change ogrp with members := o.newMembers users ogrp.members } := rfl

theorem Groupmod.effect_gshadow : (o.effect service isShadowGrp used change ogrp users t).gshadow =
    match (if used then o.shadowEntry change (o.newGrent isShadowGrp change ogrp) (t.gshadow o.name) else none) with
    | none => t.gshadow
    | some sgrp => rekey t.gshadow o.name (o.newGrent isShadowGrp change ogrp).name { sgrp with mem := o.newMembers users sgrp.mem } := rfl

/-- A group other than the changed one stays as it is. -/
theorem Groupmod.effect_other (hnew : ∀ new, change.name = some new → t.group new = none)
    (hname : ogrp.name = o.name) (hg : t.group name = some g) (hne : name ≠ o.name) :
    (o.effect service isShadowGrp used change ogrp users t).group name = some g := by
  have hother : name ≠ (o.newGrent isShadowGrp change ogrp).name := by
    intro heq
    cases hc : change.name with
    | none => exact hne (by rw [heq,newGrent,hc,← hname]; rfl)
    | some new =>
      have hnew' : name = new := by rw [heq,newGrent,hc]; rfl
      cases (hnew new hc).symm.trans (hnew' ▸ hg)
  rw [Groupmod.effect_group,rekey_apply,if_neg hother,if_neg hne]
  exact hg

theorem Groupmod.effect_self :
    ∃ g, (o.effect service isShadowGrp used change ogrp users t).group (o.newGrent isShadowGrp change ogrp).name = some g ∧
      g.gid = change.gid.getD ogrp.gid := by
  rw [Groupmod.effect_group,rekey_apply,if_pos rfl]
  exact ⟨_,rfl,rfl⟩

/-- Every user is where the group went, or was not in it. -/
theorem Groupmod.effect_primary (hcovers : service.Covers t) (hconsistent : t.Consistent) (hfound : t.group o.name = some ogrp)
    (hname : ogrp.name = o.name) (hnew : ∀ new, change.name = some new → t.group new = none) :
    Refers Passwd.gid Group.gid (o.effect service isShadowGrp used change ogrp users t).passwd
      (o.effect service isShadowGrp used change ogrp users t).group := by
  have hstays : ∀ pw : Passwd, pw.gid ≠ ogrp.gid → (∃ k c, t.group k = some c ∧ c.gid = pw.gid) →
      ∃ k c, (o.effect service isShadowGrp used change ogrp users t).group k = some c ∧ c.gid = pw.gid := by
    rintro pw hne ⟨k,c,hc,hgid⟩
    refine ⟨k,c,Groupmod.effect_other hnew hname hc ?_,hgid⟩
    rintro rfl
    rw [hfound] at hc
    cases hc
    exact hne hgid.symm
  obtain ⟨g,hg,hgid⟩ := @Groupmod.effect_self t o service isShadowGrp used change ogrp users
  intro name pw hpw
  cases hc : change.gid with
  | none =>
    have hold : t.passwd name = some pw := by
      unfold effect at hpw
      simpa [hc] using hpw
    rw [hc] at hgid
    by_cases hsame : pw.gid = ogrp.gid
    · exact ⟨_,g,hg,hgid.trans hsame.symm⟩
    · exact hstays pw hsame (hconsistent.primary name pw hold)
  | some ngid =>
    have hmoved : movePrimary service.getpwent ogrp.gid ngid t.passwd name = some pw := by
      unfold effect at hpw
      simpa [hc] using hpw
    rw [hc] at hgid
    obtain ⟨pw₀,hpw₀,heq⟩ := Option.map_eq_some_iff.mp hmoved
    split at heq
    · cases heq
      exact ⟨_,g,hg,hgid⟩
    · rename_i hnotMoved
      cases heq
      refine hstays pw (fun hsame => hnotMoved ?_) (hconsistent.primary name pw hpw₀)
      obtain ⟨pwd,hpwd,hpwdName,hpwdGid⟩ := hcovers.users name pw hpw₀
      exact List.any_eq_true.mpr ⟨pwd,hpwd,by simp [hpwdName,hpwdGid,hsame]⟩

/-- No shadow entry is left without its group. -/
theorem Groupmod.effect_shadow (hshadow : ∀ name, t.group name = none → t.gshadow name = none)
    (hfile : isShadowGrp = false → ∀ name, t.gshadow name = none) (hopen : change.name.isSome = true → isShadowGrp = true → used = true)
    (hname : ogrp.name = o.name) (h : (o.effect service isShadowGrp used change ogrp users t).group name = none) :
    (o.effect service isShadowGrp used change ogrp users t).gshadow name = none := by
  rw [Groupmod.effect_group,rekey_apply] at h
  have hnew : name ≠ (o.newGrent isShadowGrp change ogrp).name := by
    intro heq
    rw [if_pos heq] at h
    cases h
  rw [if_neg hnew] at h
  have hgone : name ≠ o.name → t.gshadow name = none := by
    intro hne
    rw [if_neg hne] at h
    exact hshadow name h
  rw [Groupmod.effect_gshadow]
  cases hentry : (if used then o.shadowEntry change (o.newGrent isShadowGrp change ogrp) (t.gshadow o.name) else none) with
  | none =>
    by_cases hold : name = o.name
    · subst hold
      have hrenamed : change.name.isSome = true := by
        cases hc : change.name with
        | none => exact absurd (by rw [newGrent,hc]; exact hname.symm) hnew
        | some new => rfl
      cases isShadowGrp with
      | false => exact hfile rfl o.name
      | true =>
        rw [if_pos (hopen hrenamed rfl)] at hentry
        cases hs : t.gshadow o.name with
        | none => exact hs
        | some sgrp =>
          rw [hs] at hentry
          cases hentry
    · exact hgone hold
  | some sgrp =>
    simp only
    rw [rekey_apply,if_neg hnew]
    split
    · rfl
    · rename_i hne
      exact hgone hne

end Change

/-- A program that is not forced leaves consistent tables. -/
theorem GroupProgram.Makes.consistent (h : p.Makes e files t) (hunique : p.KeepsUnique) (hprimary : p.KeepsPrimary)
    (hcovers : e.service.Covers (files.tables e.tools)) (hconsistent : (files.tables e.tools).Consistent) : t.Consistent := by
  refine ⟨h.gids hunique hcovers hconsistent.gids,?_,?_⟩
  · cases h with
    | @groupadd o gid users new takes lists =>
      refine hconsistent.primary.mono fun name g hg => ⟨name,g,?_,rfl⟩
      have hne : name ≠ o.name := by
        rintro rfl
        cases (hcovers.unknown new).symm.trans hg
      exact (Function.update_of_ne hne _ _).trans hg
    | @groupdel o grp known unused =>
      intro name pw hpw
      obtain ⟨k,g,hg,hgid⟩ := hconsistent.primary name pw hpw
      have hne : k ≠ o.name := by
        rintro rfl
        obtain ⟨g',hg',hgid'⟩ := hcovers.name _ g hg
        cases known.symm.trans hg'
        obtain ⟨pwd,hpwd,_,hpwdGid⟩ := hcovers.users name pw hpw
        exact unused hprimary pwd hpwd (hpwdGid.trans (hgid.symm.trans hgid'.symm))
      exact ⟨k,g,(Function.update_of_ne hne _ _).trans hg,hgid⟩
    | @groupmod o change ogrp users leaves found name lists =>
      exact Groupmod.effect_primary hcovers hconsistent found name fun new hnew => hcovers.unknown (leaves.new new hnew).2
  · cases h with
    | @groupadd o gid users new takes lists =>
      intro name hname
      have hne : name ≠ o.name := by
        rintro rfl
        cases (Function.update_self _ _ _).symm.trans hname
      have hold := hconsistent.shadow name ((Function.update_of_ne hne _ _).symm.trans hname)
      unfold Groupadd.effect
      split
      · exact (Function.update_of_ne hne _ _).trans hold
      · exact hold
    | @groupdel o grp known unused =>
      intro name hname
      unfold Groupdel.effect
      simp only
      by_cases hne : name = o.name
      · split
        · rw [hne,Function.update_self]
        · rename_i hs
          exact GroupFiles.tables_gshadow (Bool.eq_false_iff.mpr hs) name
      · have hold := hconsistent.shadow name ((Function.update_of_ne hne _ _).symm.trans hname)
        split
        · exact (Function.update_of_ne hne _ _).trans hold
        · exact hold
    | @groupmod o change ogrp users leaves found name lists =>
      intro group hgroup
      refine Groupmod.effect_shadow hconsistent.shadow (fun hs => GroupFiles.tables_gshadow hs) (fun hrenamed hs => ?_) name hgroup
      rw [Groupmod.usesShadow,hs,hrenamed,Bool.true_and,Bool.or_true,Bool.true_or]

/-- The tables of a file that was written. -/
theorem Keeps.entry {α : Type} {s : Storage α} {t : Bytes → Option α} {file : Option Bytes} (h : Keeps s t file) {name : Bytes} {a : α}
    (ha : fileEntry s.ops file name = some a) : ∃ b, t name = some b ∧ s.Same b a := by
  have hrel := h.2 name
  rw [ha] at hrel
  cases ht : t name with
  | none =>
    rw [ht] at hrel
    cases hrel
  | some b =>
    rw [ht] at hrel
    cases hrel with
    | some hsame => exact ⟨b,rfl,hsame⟩

theorem Keeps.back {α : Type} {s : Storage α} {t : Bytes → Option α} {file : Option Bytes} (h : Keeps s t file) {name : Bytes} {a : α}
    (ha : t name = some a) : ∃ b, fileEntry s.ops file name = some b ∧ s.Same a b := by
  have hrel := h.2 name
  rw [ha] at hrel
  cases ht : fileEntry s.ops file name with
  | none =>
    rw [ht] at hrel
    cases hrel
  | some b =>
    rw [ht] at hrel
    cases hrel with
    | some hsame => exact ⟨b,rfl,hsame⟩

theorem Committed.unique {exit : Exit} (h : Committed e.tools files t exit files') (hunique : files.Unique e.tools) :
    files'.Unique e.tools := by
  refine ⟨?_,?_,?_⟩
  · rcases h.passwd with hsame | ⟨_,_,hkeeps⟩
    · exact hsame ▸ hunique.passwd
    · exact hkeeps.1
  · rcases h.group with hsame | hkeeps
    · exact hsame ▸ hunique.group
    · exact hkeeps.1
  · rcases h.gshadow with hsame | ⟨_,hkeeps⟩
    · exact hsame ▸ hunique.gshadow
    · exact hkeeps.1

theorem Committed.gids {exit : Exit} (h : Committed e.tools files t exit files') (hold : DistinctBy Group.gid (files.tables e.tools).group)
    (hnew : DistinctBy Group.gid t.group) : DistinctBy Group.gid (files'.tables e.tools).group := by
  rcases h.group with hsame | hkeeps
  · have htables : (files'.tables e.tools).group = (files.tables e.tools).group := congrArg (fileEntry e.tools.group.ops) hsame
    exact htables ▸ hold
  · refine hnew.of_le fun name g hg => ?_
    obtain ⟨g₀,hg₀,hsame⟩ := hkeeps.entry hg
    exact ⟨g₀,hg₀,(SameGroup.gid hsame).symm⟩

/-- Consistent tables in all files. -/
theorem Committed.consistent (h : Committed e.tools files t Groups.success files') (hnew : t.Consistent) :
    (files'.tables e.tools).Consistent := by
  obtain ⟨hgroup,hgshadow,hpasswd⟩ := h.all rfl
  refine ⟨hnew.gids.of_le fun name g hg => ?_,?_,fun name hname => ?_⟩
  · obtain ⟨g₀,hg₀,hsame⟩ := hgroup.entry hg
    exact ⟨g₀,hg₀,(SameGroup.gid hsame).symm⟩
  · have hmoved : Refers Passwd.gid Group.gid t.passwd (files'.tables e.tools).group := hnew.primary.mono fun name g hg => by
      obtain ⟨g',hg',hsame⟩ := hgroup.back hg
      exact ⟨name,g',hg',SameGroup.gid hsame⟩
    refine hmoved.of_le fun name pw hpw => ?_
    obtain ⟨pw₀,hpw₀,hsame⟩ := hpasswd.entry hpw
    exact ⟨pw₀,hpw₀,congrArg Passwd.gid (show pw = pw₀ from hsame).symm⟩
  · cases hs : (files'.tables e.tools).gshadow name with
    | none => rfl
    | some sgrp =>
      obtain ⟨sgrp₀,hsgrp₀,_⟩ := hgshadow.entry hs
      cases hg : t.group name with
      | none => cases (hnew.shadow name hg).symm.trans hsgrp₀
      | some g =>
        obtain ⟨g',hg',_⟩ := hgroup.back hg
        cases hname.symm.trans hg'

end Steps

/-- A run of one of the programs, where the service covers the files. -/
structure GroupStep (tools : Tools) (i : GroupProgram × GroupEnv × Exit) (files files' : GroupFiles) : Prop where
  built : i.2.1.tools = tools
  linked : TailLinked tools.group.ops files.group.file
  covers : i.2.1.service.Covers (files.tables tools)
  text : i.1.Text
  unique : i.1.KeepsUnique
  run : i.1.run i.2.1 files = (i.2.2,files')

/-- A run that comes to its end or leaves the files, and is not to delete the primary group of a user. -/
structure SettledStep (tools : Tools) (i : GroupProgram × GroupEnv × Exit) (files files' : GroupFiles) : Prop extends
    GroupStep tools i files files' where
  settled : i.2.2 = Groups.success ∨ files' = files
  primary : i.1.KeepsPrimary

theorem GroupStep.keeps {tools : Tools} {i : GroupProgram × GroupEnv × Exit} {files files' : GroupFiles}
    (h : GroupStep tools i files files') (hfiles : files.Unique tools ∧ DistinctBy Group.gid (files.tables tools).group) :
    files'.Unique tools ∧ DistinctBy Group.gid (files'.tables tools).group := by
  obtain ⟨rfl,hlinked,hcovers,htext,hkeeps,hrun⟩ := h
  rcases group_programs_cases i.1 hfiles.1 hlinked htext hrun with ⟨hsame,_⟩ | ⟨t,hmakes,hcommitted⟩
  · exact hsame ▸ hfiles
  · exact ⟨hcommitted.unique hfiles.1,hcommitted.gids hfiles.2 (hmakes.gids hkeeps hcovers hfiles.2)⟩

theorem SettledStep.keeps {tools : Tools} {i : GroupProgram × GroupEnv × Exit} {files files' : GroupFiles}
    (h : SettledStep tools i files files') (hfiles : files.Unique tools ∧ (files.tables tools).Consistent) :
    files'.Unique tools ∧ (files'.tables tools).Consistent := by
  obtain ⟨⟨rfl,hlinked,hcovers,htext,hkeeps,hrun⟩,hsettled,hprimary⟩ := h
  rcases group_programs_cases i.1 hfiles.1 hlinked htext hrun with ⟨hsame,_⟩ | ⟨t,hmakes,hcommitted⟩
  · exact hsame ▸ hfiles
  · refine ⟨hcommitted.unique hfiles.1,?_⟩
    rcases hsettled with hexit | hsame
    · exact (hexit ▸ hcommitted).consistent (hmakes.consistent hkeeps hprimary hcovers hfiles.2)
    · exact hsame ▸ hfiles.2

/-- In no run of the programs, whatever fails in it, do two groups get one gid; and where each of them comes to its
end, every user has a primary group and every shadow entry its group. -/
theorem group_runs_keep_ids {tools : Tools} {is : List (GroupProgram × GroupEnv × Exit)} {files files' : GroupFiles}
    (hunique : files.Unique tools) :
    (DistinctBy Group.gid (files.tables tools).group → Base.Run (GroupStep tools) is files files' →
      files'.Unique tools ∧ DistinctBy Group.gid (files'.tables tools).group) ∧
    ((files.tables tools).Consistent → Base.Run (SettledStep tools) is files files' → (files'.tables tools).Consistent) := by
  refine ⟨fun hgids hrun => ?_,fun hconsistent hrun => ?_⟩
  · exact hrun.preserves (P := fun files => files.Unique tools ∧ DistinctBy Group.gid (files.tables tools).group)
      (fun hfiles hstep => hstep.keeps hfiles) ⟨hunique,hgids⟩
  · exact (hrun.preserves (P := fun files => files.Unique tools ∧ (files.tables tools).Consistent)
      (fun hfiles hstep => hstep.keeps hfiles) ⟨hunique,hconsistent⟩).2

/-- The one entry of a file. -/
theorem fileEntry_single {α : Type} {ops : Ops α} {file line : Option Bytes} {changed : Bool} {name : Bytes} {a b : α}
    (hread : readFile ops file = some [⟨line,some b,changed⟩]) (ha : fileEntry ops file name = some a) : name = ops.getname b ∧ a = b := by
  rw [fileEntry,hread] at ha
  obtain ⟨r,hr,hra,rfl⟩ := lookup_eq_some ha
  rw [List.mem_singleton.mp hr] at hra
  cases hra
  exact ⟨rfl,rfl⟩

theorem knownAccounts_covers {files : GroupFiles} {name : String} {gid : UInt32} {line line' : Option Bytes} {changed changed' : Bool}
    (hgroup : readFile plainTools.group.ops files.group.file = some [⟨line,some (groupWith name gid),changed⟩])
    (hpasswd : readFile plainTools.passwd.ops files.passwd.file = some [⟨line',some (accountIn gid),changed'⟩]) :
    (knownAccounts [accountIn gid] [groupWith name gid]).Covers (files.tables plainTools) := by
  refine ⟨fun n g h => ?_,fun n g h => ?_,fun n pw h => ⟨accountIn gid,List.mem_singleton.mpr rfl,?_⟩⟩
  · obtain ⟨rfl,rfl⟩ := fileEntry_single hgroup h
    exact ⟨groupWith name gid,by simp [knownAccounts,groupWith,plainTools,Tools.group,groupStorage,groupOps],rfl⟩
  · obtain ⟨rfl,rfl⟩ := fileEntry_single hgroup h
    simp [knownAccounts,groupWith]
  · obtain ⟨rfl,rfl⟩ := fileEntry_single hpasswd h
    exact ⟨rfl,rfl⟩

def deleteGroup : GroupProgram := .groupdel ⟨ascii "k",false⟩

def afterMove : GroupEnv := plainGroupEnv (knownAccounts [accountIn 7] [groupWith "k" 7])

/-- A group is moved, and is then not deleted. -/
theorem group_runs_keep_ids_moved :
    Base.Run (SettledStep plainTools) [(moveGroup,beforeMove,Groups.success),(deleteGroup,afterMove,Groups.groupBusy)]
      oneMember oneMoved ∧ (oneMoved.tables plainTools).Consistent := by
  have hgroup : readFile plainTools.group.ops oneMember.group.file = some [⟨some (ascii "g:x:5:"),some (groupWith "g" 5),false⟩] := rfl
  have hcovers : beforeMove.service.Covers (oneMember.tables plainTools) := knownAccounts_covers hgroup rfl
  have hcovers' : afterMove.service.Covers (oneMoved.tables plainTools) := knownAccounts_covers rfl rfl
  have hrun : Base.Run (SettledStep plainTools) [(moveGroup,beforeMove,Groups.success),(deleteGroup,afterMove,Groups.groupBusy)]
      oneMember oneMoved :=
    .cons ⟨⟨rfl,tailLinked_of_no_hook rfl _,hcovers,moveGroup_text,rfl,rfl⟩,.inl rfl,trivial⟩
      (.cons ⟨⟨rfl,tailLinked_of_no_hook rfl _,hcovers',trivial,trivial,rfl⟩,.inr rfl,rfl⟩ (.nil _))
  refine ⟨hrun,(group_runs_keep_ids oneMember_unique).2 ⟨fun n n' g g' h h' _ => ?_,fun n pw h => ?_,fun n hn => ?_⟩ hrun⟩
  · rw [(fileEntry_single hgroup h).1,(fileEntry_single hgroup h').1]
  · obtain ⟨pwd,hpwd,_,hgid⟩ := hcovers.users n pw h
    rw [List.mem_singleton.mp hpwd] at hgid
    exact ⟨ascii "g",groupWith "g" 5,rfl,hgid⟩
  · cases hs : (oneMember.tables plainTools).gshadow n with
    | none => rfl
    | some sgrp =>
      have hgshadow : readFile plainTools.gshadow.ops oneMember.gshadow.file =
        some [⟨some (ascii "g:!::"),some ⟨ascii "g",ascii "!",[],[]⟩,false⟩] := rfl
      obtain ⟨rfl,rfl⟩ := fileEntry_single hgshadow hs
      cases hn

end UserDb.Programs
