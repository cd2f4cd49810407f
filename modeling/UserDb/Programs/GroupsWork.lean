import UserDb.Programs.GroupsEffect

/-! The three group programs up to the point where the files are written: the tables that the open
files then have. -/
namespace UserDb.Programs
open UserDb.Base UserDb.Base.Outcomes UserDb.Atoi UserDb.Commonio UserDb.Ids

/-- The tables with a new group. -/
def Groupadd.effect (o : Groupadd) (isShadowGrp : Bool) (gid : UInt32) (users : List Bytes) (t : GroupTables) : GroupTables :=
  { t with
    group := Function.update t.group o.name (some (o.newGrent isShadowGrp gid users))
    gshadow := if isShadowGrp then Function.update t.gshadow o.name (some (o.newSgent users)) else t.gshadow }

/-- The tables without a group. -/
def Groupdel.effect (o : Groupdel) (isShadowGrp : Bool) (t : GroupTables) : GroupTables :=
  { t with
    group := Function.update t.group o.name none
    gshadow := if isShadowGrp then Function.update t.gshadow o.name none else t.gshadow }

/-- Users whose gid the service knows as the old one, with the new one. -/
def movePrimary (pwds : List Passwd) (ogid ngid : UInt32) (t : Bytes → Option Passwd) (name : Bytes) : Option Passwd :=
  (t name).map fun pw => if pwds.any fun pwd => pwd.name == name && pwd.gid == ogid then { pw with gid := ngid } else pw

/-- The tables with a changed group, where `-U` listed `users`. -/
def Groupmod.effect (o : Groupmod) (service : NameService) (isShadowGrp used : Bool) (change : GroupChange) (ogrp : Group)
    (users : Option (List Bytes)) (t : GroupTables) : GroupTables :=
  let grp := o.newGrent isShadowGrp change ogrp
  { passwd := match change.gid with
      | none => t.passwd
      | some ngid => movePrimary service.getpwent ogrp.gid ngid t.passwd
    group := rekey t.group o.name grp.name { grp with members := o.newMembers users grp.members }
    gshadow := match (if used then o.shadowEntry change grp (t.gshadow o.name) else none) with
      | none => t.gshadow
      | some sgrp => rekey t.gshadow o.name grp.name { sgrp with mem := o.newMembers users sgrp.mem } }

/-- The texts of a command line, which have no null bytes. -/
structure Groupadd.Text (o : Groupadd) : Prop where
  name : (0 : UInt8) ∉ o.name
  password : ∀ password, o.password = some password → (0 : UInt8) ∉ password
  users : ∀ users, o.users = some users → (0 : UInt8) ∉ users

structure Groupmod.Text (o : Groupmod) : Prop where
  newName : ∀ name, o.newName = some name → (0 : UInt8) ∉ name
  password : ∀ password, o.password = some password → (0 : UInt8) ∉ password
  users : ∀ users, o.users = some users → (0 : UInt8) ∉ users

/-- The gid of a new group: the one that was asked for where it may be used, else one that the service does not know. -/
structure Groupadd.Takes (o : Groupadd) (e : GroupEnv) (gid : UInt32) : Prop where
  free : e.service.getgrgid gid = none ∨ o.nonUnique = true
  asked : ∀ id, Groups.parseGids o.gid = .ok (some id) → e.service.getgrgid id = none ∨ o.nonUnique = true → gid = id

/-- What a command line leaves to change: the gid and the name where they are not those of before. -/
structure Groupmod.Leaves (o : Groupmod) (e : GroupEnv) (change : GroupChange) : Prop where
  gid : ∃ grp asked, e.service.getgrnam o.name = some grp ∧ Groups.parseGids o.gid = .ok asked ∧ change.gid = asked.filter (· != grp.gid)
  free : ∀ gid, change.gid = some gid → e.service.hostGetgrgid gid = none ∨ o.nonUnique = true
  name : change.name = o.newName.filter (· != o.name)
  new : ∀ name, change.name = some name → nameIsNis name = false ∧ e.service.getgrnam name = none

/-- The users that a command line lists. -/
def Groupmod.Lists (o : Groupmod) (e : GroupEnv) (users : Option (List Bytes)) : Prop :=
  match o.users with
  | none => users = none
  | some list => ∃ us, Groups.listedUsers e list = .ok us ∧ users = some us

section Texts
variable {e : GroupEnv} {users list : List Bytes} {member name : Bytes} {arg : Bytes}

theorem isValidGroupName_notNis (h : Groups.isValidGroupName e name = true) : nameIsNis name = false := by
  unfold Groups.isValidGroupName at h
  split at h
  · cases h
  · apply @isValidUserName_notNis (name.length + 1) name
    rwa [isValidUserName,if_neg (Nat.not_succ_le_self _)]

theorem mem_foldl_addList : member ∈ users.foldl addList list ↔ member ∈ list ∨ member ∈ users := by
  induction users generalizing list with
  | nil => simp
  | cons user users ih =>
    rw [List.foldl_cons,ih,mem_addList,List.mem_cons,or_assoc]

/-- The users of a list have no null bytes where it has none. -/
theorem listedUsers_text (hlist : (0 : UInt8) ∉ arg) (h : Groups.listedUsers e arg = .ok users) : ∀ user ∈ users, (0 : UInt8) ∉ user := by
  intro user huser hzero
  cases arg with
  | nil =>
    cases h
    cases huser
  | cons b rest =>
    unfold Groups.listedUsers at h
    simp only at h
    split at h
    · cases h
      exact hlist (mem_of_mem_splitOn huser hzero)
    · cases h

end Texts

section Calls
variable {e : GroupEnv} {file : Option Bytes} {n : Nat} {name : Bytes}

theorem storeGroup_holding {db db' : Db Group} {t : Bytes → Option Group} {grp : Group} (h : Holding e.tools.group file db t)
    (htext : grp.Text) (hrun : Groups.storeGroup e n db grp = .ok db') :
    Holding e.tools.group file db' (Function.update t grp.name (some grp)) := by
  unfold Groups.storeGroup at hrun
  split at hrun
  · cases hrun
  · rename_i hupdate
    cases hrun
    exact h.update hupdate htext

theorem removeGroup_holding {db db' : Db Group} {t : Bytes → Option Group} (h : Holding e.tools.group file db t)
    (hrun : Groups.removeGroup e db name = .ok db') : Holding e.tools.group file db' (Function.update t name none) := by
  unfold Groups.removeGroup at hrun
  split at hrun
  · cases hrun
  · rename_i hremove
    cases hrun
    exact h.remove hremove

theorem storeGshadow_holding {db db' : Db Sgrp} {t : Bytes → Option Sgrp} {sgrp : Sgrp} (h : Holding e.tools.gshadow file db t)
    (htext : sgrp.Text) (hrun : Groups.storeGshadow e n db sgrp = .ok db') :
    Holding e.tools.gshadow file db' (Function.update t sgrp.name (some sgrp)) := by
  unfold Groups.storeGshadow at hrun
  split at hrun
  · cases hrun
  · rename_i hupdate
    cases hrun
    exact h.update hupdate htext

theorem removeGshadow_holding {db db' : Db Sgrp} {t : Bytes → Option Sgrp} (h : Holding e.tools.gshadow file db t)
    (hrun : Groups.removeGshadow e db name = .ok db') : Holding e.tools.gshadow file db' (Function.update t name none) := by
  unfold Groups.removeGshadow at hrun
  split at hrun
  · cases hrun
  · rename_i hremove
    cases hrun
    exact h.remove hremove

end Calls

section Add
variable {o : Groupadd} {e : GroupEnv} {files : GroupFiles} {dbs : GroupDbs} {gid : UInt32} {users : List Bytes}

theorem Groupadd.newGrent_text (htext : o.Text) (hnis : nameIsNis o.name = false) (husers : ∀ user ∈ users, (0 : UInt8) ∉ user)
    (isShadowGrp : Bool) : (o.newGrent isShadowGrp gid users).Text := by
  have hdefault : (0 : UInt8) ∉ ([120] : Bytes) := by decide
  refine ⟨hnis,htext.name,?_,fun member hm => ?_⟩
  · unfold newGrent
    split
    · exact hdefault
    · cases hp : o.password with
      | none => exact hdefault
      | some password => exact htext.password password hp
  · rcases mem_foldl_addList.mp hm with hm | hm
    · cases hm
    · exact husers member hm

theorem Groupadd.newSgent_text (htext : o.Text) (hnis : nameIsNis o.name = false) (husers : ∀ user ∈ users, (0 : UInt8) ∉ user) :
    (o.newSgent users).Text := by
  refine ⟨hnis,htext.name,?_,List.forall_mem_nil _,fun member hm => ?_⟩
  · unfold newSgent
    cases hp : o.password with
    | none => exact show (0 : UInt8) ∉ ([33] : Bytes) by decide
    | some password => exact htext.password password hp
  · rcases mem_foldl_addList.mp hm with hm | hm
    · cases hm
    · exact husers member hm

/-- What the checks let through. -/
theorem Groupadd.checkFlags_ok {asked use : Option UInt32} (h : o.checkFlags e asked = .ok use) :
    nameIsNis o.name = false ∧ e.service.getgrnam o.name = none ∧
      (∀ id, use = some id → asked = some id ∧ (e.service.getgrgid id = none ∨ o.nonUnique = true)) ∧
      ∀ id, asked = some id → e.service.getgrgid id = none ∨ o.nonUnique = true → use = some id := by
  unfold checkFlags at h
  split at h
  · cases h
  · split at h
    · cases h
    · rename_i hvalid
      split at h
      · cases h
      · rename_i hnew
        have hnis : nameIsNis o.name = false := isValidGroupName_notNis (by simpa using hvalid)
        refine ⟨hnis,Option.not_isSome_iff_eq_none.mp hnew,?_⟩
        cases asked with
        | none =>
          cases h
          exact ⟨fun _ hid => absurd hid (Option.some_ne_none _).symm,fun _ hid => absurd hid (Option.some_ne_none _).symm⟩
        | some id =>
          simp only at h
          split at h
          · rename_i hknown
            have hsome : e.service.getgrgid id ≠ none := Option.isSome_iff_ne_none.mp hknown
            split at h
            · rename_i hunique
              cases h
              refine ⟨fun _ hid => ⟨hid,.inr hunique⟩,fun _ hid _ => hid⟩
            · rename_i hunique
              split at h
              · cases h
                refine ⟨fun _ hid => absurd hid (Option.some_ne_none _).symm,fun _ hid hfree => ?_⟩
                cases hid
                rcases hfree with hfree | hfree
                · exact absurd hfree hsome
                · exact absurd hfree hunique
              · cases h
          · rename_i hknown
            cases h
            refine ⟨fun _ hid => ?_,fun _ hid _ => hid⟩
            cases hid
            exact ⟨rfl,.inl (Option.not_isSome_iff_eq_none.mp hknown)⟩

theorem Groupadd.groupId_ok {use : Option UInt32} {db db' : Db Group} {t : Bytes → Option Group}
    (h : Holding e.tools.group files.group.file db t) (hrun : o.groupId e use db = .ok (gid,db')) :
    Holding e.tools.group files.group.file db' t ∧ (use = some gid ∨ use = none ∧ e.service.getgrgid gid = none) := by
  cases use with
  | some id =>
    cases hrun
    exact ⟨h,.inl rfl⟩
  | none =>
    rcases hfound : findNewGid e.defs (fun id => (e.service.getgrgid id).isSome) e.idMemory e.fuel o.system none db with ⟨found,groups⟩
    unfold groupId at hrun
    rw [hfound] at hrun
    cases found with
    | outOfBounds => cases hrun
    | running => cases hrun
    | returned found =>
      cases found with
      | none => cases hrun
      | some id =>
        cases hrun
        obtain ⟨l,htable⟩ := h
        obtain ⟨hnew,cursor,hdb,hc⟩ := findNewId_new htable.loaded.rep htable.isopen hfound
        refine ⟨⟨l,?_⟩,.inr ⟨rfl,Option.not_isSome_iff_eq_none.mp (Bool.eq_false_iff.mp hnew)⟩⟩
        rw [hdb]
        exact htable.withCursor hc

/-- A new group is entered into the open files. -/
theorem Groupadd.grpUpdate_hold {t : GroupTables} {dbs' : GroupDbs} (htext : o.Text) (hnis : nameIsNis o.name = false)
    (h : dbs.Hold e.tools files t) (hrun : o.grpUpdate e gid dbs = .ok dbs') :
    ∃ users, Groups.listedUsers e (o.users.getD []) = .ok users ∧ dbs'.Hold e.tools files (o.effect dbs.gshadow.isSome gid users t) := by
  unfold grpUpdate at hrun
  simp only [except_bind_eq_ok] at hrun
  obtain ⟨users,husers,groups,hgroups,hrun⟩ := hrun
  have huserText : ∀ user ∈ users, (0 : UInt8) ∉ user := by
    refine listedUsers_text ?_ husers
    cases hu : o.users with
    | none => exact List.not_mem_nil
    | some list => exact htext.users list hu
  have hg := storeGroup_holding h.group (Groupadd.newGrent_text htext hnis huserText _) hgroups
  refine ⟨users,husers,?_⟩
  have hgshadow := h.gshadow
  cases hdb : dbs.gshadow with
  | none =>
    rw [hdb] at hrun hg hgshadow
    cases hrun
    exact ⟨hg,hgshadow,h.passwd⟩
  | some gshadows =>
    rw [hdb] at hrun hg hgshadow
    simp only [except_bind_eq_ok] at hrun
    obtain ⟨gshadows',hstore,hrun⟩ := hrun
    cases hrun
    exact ⟨hg,storeGshadow_holding hgshadow (Groupadd.newSgent_text htext hnis huserText) hstore,h.passwd⟩

theorem Groupadd.work_hold (hunique : files.Unique e.tools) (hlinked : TailLinked e.tools.group.ops files.group.file) (htext : o.Text)
    (h : o.work e files = .ok dbs) :
    e.service.getgrnam o.name = none ∧ ∃ gid users, o.Takes e gid ∧ Groups.listedUsers e (o.users.getD []) = .ok users ∧
      dbs.Hold e.tools files (o.effect files.isShadowGrp gid users (files.tables e.tools)) := by
  unfold work at h
  simp only [except_bind_eq_ok] at h
  obtain ⟨asked,hasked,use,huse,opened,hopen,⟨gid,groups⟩,hgid,hupdate⟩ := h
  obtain ⟨hnis,hnew,hused,hfree⟩ := Groupadd.checkFlags_ok huse
  obtain ⟨hopened,hgshadow,_⟩ := openFiles_hold hunique hlinked hopen
  obtain ⟨hgroup,htaken⟩ := Groupadd.groupId_ok hopened.group hgid
  have hdbs : GroupDbs.Hold e.tools files { opened with group := groups } (files.tables e.tools) := ⟨hgroup,hopened.gshadow,hopened.passwd⟩
  obtain ⟨users,husers,hdone⟩ := Groupadd.grpUpdate_hold htext hnis hdbs hupdate
  refine ⟨hnew,gid,users,⟨?_,fun id hid hok => ?_⟩,husers,hgshadow ▸ hdone⟩
  · rcases htaken with htaken | htaken
    · exact (hused gid htaken).2
    · exact .inl htaken.2
  · rw [hasked] at hid
    cases hid
    have hsame := hfree id rfl hok
    rcases htaken with htaken | htaken
    · exact Option.some.inj (htaken.symm.trans hsame)
    · cases htaken.1.symm.trans hsame

end Add

section Del
variable {o : Groupdel} {e : GroupEnv} {files : GroupFiles} {dbs : GroupDbs}

theorem Groupdel.grpUpdate_hold {t : GroupTables} {dbs' : GroupDbs} (h : dbs.Hold e.tools files t) (hrun : o.grpUpdate e dbs = .ok dbs') :
    dbs'.Hold e.tools files (o.effect dbs.gshadow.isSome t) := by
  unfold grpUpdate at hrun
  simp only [except_bind_eq_ok] at hrun
  obtain ⟨groups,hgroups,hrun⟩ := hrun
  have hg := removeGroup_holding h.group hgroups
  have hgshadow := h.gshadow
  cases hdb : dbs.gshadow with
  | none =>
    rw [hdb] at hrun hgshadow
    cases hrun
    exact ⟨hg,hgshadow,h.passwd⟩
  | some gshadows =>
    rw [hdb] at hrun hgshadow
    obtain ⟨hfound,hlocated⟩ := Holding.locate hgshadow o.name
    rcases hlocate : commonioLocate e.tools.gshadow.ops gshadows o.name with ⟨_ | sgrp,gshadows'⟩
    · rw [hlocate] at hfound hlocated
      simp only [hlocate] at hrun
      cases hrun
      refine ⟨hg,?_,h.passwd⟩
      have hsame : Function.update t.gshadow o.name none = t.gshadow := Function.update_eq_self_iff.mpr hfound
      exact show Holding _ _ _ (Function.update t.gshadow o.name none) from hsame.symm ▸ hlocated
    · rw [hlocate] at hlocated
      simp only [hlocate,except_bind_eq_ok] at hrun
      obtain ⟨gshadows,hremove,hrun⟩ := hrun
      cases hrun
      exact ⟨hg,removeGshadow_holding hlocated hremove,h.passwd⟩

theorem Groupdel.work_hold (hunique : files.Unique e.tools) (hlinked : TailLinked e.tools.group.ops files.group.file)
    (h : o.work e files = .ok dbs) :
    ∃ grp, e.service.getgrnam o.name = some grp ∧ (o.force = false → ∀ pwd ∈ e.service.getpwent, pwd.gid ≠ grp.gid) ∧
      dbs.Hold e.tools files (o.effect files.isShadowGrp (files.tables e.tools)) := by
  unfold work at h
  cases hgrp : e.service.getgrnam o.name with
  | none =>
    rw [hgrp] at h
    cases h
  | some grp =>
    rw [hgrp] at h
    simp only [except_bind_eq_ok] at h
    obtain ⟨_,hbusy,opened,hopen,hupdate⟩ := h
    obtain ⟨hopened,hgshadow,_⟩ := openFiles_hold hunique hlinked hopen
    refine ⟨grp,rfl,fun hforce pwd hpwd hgid => ?_,hgshadow ▸ Groupdel.grpUpdate_hold hopened hupdate⟩
    have hany : (e.service.getpwent.any fun pwd => pwd.gid == grp.gid) = true := List.any_eq_true.mpr ⟨pwd,hpwd,beq_iff_eq.mpr hgid⟩
    unfold checkBusy at hbusy
    rw [hforce,Bool.not_false,Bool.true_and,hany,if_pos rfl] at hbusy
    cases hbusy

end Del

section Mod
variable {o : Groupmod} {e : GroupEnv} {files : GroupFiles} {dbs : GroupDbs} {change : GroupChange} {users : Option (List Bytes)}

/-- One more user with the new gid. -/
theorem movePrimary_cons {pwd lpwd : Passwd} {pwds : List Passwd} {ogid ngid : UInt32} {t : Bytes → Option Passwd}
    (hfound : t pwd.name = some lpwd) (hgid : pwd.gid = ogid) :
    movePrimary pwds ogid ngid (Function.update t pwd.name (some { lpwd with gid := ngid })) = movePrimary (pwd :: pwds) ogid ngid t := by
  funext name
  unfold movePrimary
  by_cases hname : name = pwd.name
  · subst hname
    rw [Function.update_self,hfound,Option.map_some,Option.map_some,List.any_cons,beq_self_eq_true,hgid,beq_self_eq_true,
      Bool.true_and,Bool.true_or,if_pos rfl]
    split <;> rfl
  · rw [Function.update_of_ne hname,List.any_cons,beq_false_of_ne (Ne.symm hname),Bool.false_and,Bool.false_or]

private theorem movePrimary_skip {pwd : Passwd} {pwds : List Passwd} {ogid ngid : UInt32} {t : Bytes → Option Passwd}
    (hgid : pwd.gid ≠ ogid) : movePrimary (pwd :: pwds) ogid ngid t = movePrimary pwds ogid ngid t := by
  funext name
  unfold movePrimary
  rw [List.any_cons,beq_false_of_ne hgid,Bool.and_false,Bool.false_or]

/-- The loop over all users: each one whose primary group it was is in the file, and moves. -/
theorem updatePrimaryGroups_holding {file : Option Bytes} {ogid ngid : UInt32} {pwds : List Passwd} {n : Nat} {db db' : Db Passwd}
    {t : Bytes → Option Passwd} (h : Holding e.tools.passwd file db t)
    (hrun : Groupmod.updatePrimaryGroups e ogid ngid pwds n db = .ok db') :
    Holding e.tools.passwd file db' (movePrimary pwds ogid ngid t) := by
  induction pwds generalizing n db t with
  | nil =>
    cases hrun
    have hsame : movePrimary [] ogid ngid t = t := by
      funext name
      exact Option.map_id_apply
    rwa [hsame]
  | cons pwd pwds ih =>
    unfold Groupmod.updatePrimaryGroups at hrun
    split at hrun
    · rename_i hgid
      obtain ⟨hfound,hlocated⟩ := h.locate pwd.name
      rcases hlocate : commonioLocate e.tools.passwd.ops db pwd.name with ⟨_ | lpwd,db₁⟩
      · rw [hlocate] at hrun
        cases hrun
      · rw [hlocate] at hrun hfound hlocated
        obtain ⟨hname,htext⟩ := h.found hfound.symm
        simp only at hrun
        split at hrun
        · cases hrun
        · rename_i db₂ hupdate
          have hstored := hlocated.update hupdate (htext.withGid ngid)
          have hkey : e.tools.passwd.ops.getname { lpwd with gid := ngid } = pwd.name := hname
          rw [hkey] at hstored
          rw [← movePrimary_cons hfound.symm (eq_of_beq hgid)]
          exact ih hstored hrun
    · rename_i hgid
      rw [movePrimary_skip fun heq => hgid (beq_iff_eq.mpr heq)]
      exact ih h hrun

theorem Groupmod.newGrent_text (isShadowGrp : Bool) (htext : o.Text) {grp : Group} (hgrp : grp.Text)
    (hname : ∀ name, change.name = some name → nameIsNis name = false ∧ (0 : UInt8) ∉ name) :
    (o.newGrent isShadowGrp change grp).Text := by
  refine ⟨?_,?_,?_,hgrp.members⟩
  · unfold newGrent
    cases hn : change.name with
    | none => exact hgrp.notNis
    | some name => exact (hname name hn).1
  · unfold newGrent
    cases hn : change.name with
    | none => exact hgrp.name
    | some name => exact (hname name hn).2
  · unfold newGrent
    simp only
    split
    · cases hp : o.password with
      | none => exact hgrp.passwd
      | some password => exact htext.password password hp
    · exact hgrp.passwd

theorem Groupmod.newMembers_text {members : List Bytes} (hmembers : ∀ member ∈ members, (0 : UInt8) ∉ member)
    (husers : ∀ list, users = some list → ∀ user ∈ list, (0 : UInt8) ∉ user) :
    ∀ member ∈ o.newMembers users members, (0 : UInt8) ∉ member := by
  intro member hm
  unfold newMembers at hm
  cases users with
  | none => exact hmembers member hm
  | some list =>
    rcases mem_foldl_addList.mp hm with hm | hm
    · split at hm
      · exact hmembers member hm
      · cases hm
    · exact husers list rfl member hm

theorem Groupmod.checkNewGid_ok {groupId : UInt32} {asked gid : Option UInt32} (h : o.checkNewGid e groupId asked = .ok gid) :
    gid = asked.filter (· != groupId) ∧ ∀ id, gid = some id → e.service.hostGetgrgid id = none ∨ o.nonUnique = true := by
  cases asked with
  | none =>
    cases h
    exact ⟨rfl,fun _ hid => absurd hid (Option.some_ne_none _).symm⟩
  | some newid =>
    unfold checkNewGid at h
    simp only at h
    split at h
    · rename_i hsame
      cases h
      refine ⟨?_,fun _ hid => absurd hid (Option.some_ne_none _).symm⟩
      rw [hsame,Option.filter_some_neg (by simp)]
    · rename_i hdiffers
      split at h
      · rename_i hfree
        cases h
        refine ⟨?_,fun id hid => ?_⟩
        · have hne : (newid != groupId) = true := bne_iff_ne.mpr (Ne.symm hdiffers)
          exact (if_pos hne).symm
        · cases hid
          rw [Bool.or_eq_true,Option.isNone_iff_eq_none] at hfree
          exact hfree.symm
      · cases h

theorem Groupmod.checkNewName_ok {name : Option Bytes} (h : o.checkNewName e = .ok name) :
    name = o.newName.filter (· != o.name) ∧ ∀ new, name = some new → nameIsNis new = false ∧ e.service.getgrnam new = none := by
  unfold checkNewName at h
  split at h
  · rename_i hnone
    cases h
    rw [hnone]
    exact ⟨rfl,fun _ hid => absurd hid (Option.some_ne_none _).symm⟩
  · rename_i newName hnew
    rw [hnew]
    split at h
    · rename_i hsame
      cases h
      refine ⟨?_,fun _ hid => absurd hid (Option.some_ne_none _).symm⟩
      rw [hsame,Option.filter_some_neg (by simp)]
    · rename_i hdiffers
      split at h
      · cases h
      · rename_i hvalid
        split at h
        · cases h
        · rename_i hfree
          cases h
          refine ⟨?_,fun new heq => ?_⟩
          · have hne : (newName != o.name) = true := bne_iff_ne.mpr (Ne.symm hdiffers)
            exact (if_pos hne).symm
          · cases heq
            exact ⟨isValidGroupName_notNis (by simpa using hvalid),Option.not_isSome_iff_eq_none.mp hfree⟩

theorem Groupmod.processFlags_ok (h : o.processFlags e = .ok change) : o.Leaves e change := by
  unfold processFlags at h
  simp only [except_bind_eq_ok] at h
  obtain ⟨asked,hasked,h⟩ := h
  split at h
  · cases h
  · cases hgrp : e.service.getgrnam o.name with
    | none =>
      rw [hgrp] at h
      cases h
    | some grp =>
      rw [hgrp] at h
      simp only [except_bind_eq_ok] at h
      obtain ⟨gid,hgid,name,hname,h⟩ := h
      cases h
      obtain ⟨hgid,hfree⟩ := Groupmod.checkNewGid_ok hgid
      obtain ⟨hname,hnew⟩ := Groupmod.checkNewName_ok hname
      exact ⟨⟨grp,asked,hgrp,hasked,hgid⟩,hfree,hname,hnew⟩

/-- Storing an entry under its new name and removing the one under the old name. -/
theorem Groupmod.replaceGroup_holding {file : Option Bytes} {db db' : Db Group} {t : Bytes → Option Group} {grp : Group}
    (h : Holding e.tools.group file db t) (htext : grp.Text) (hname : grp.name = change.name.getD o.name)
    (hnew : ∀ name, change.name = some name → name ≠ o.name) (hrun : o.replaceGroup e change db grp = .ok db') :
    Holding e.tools.group file db' (rekey t o.name grp.name grp) := by
  unfold replaceGroup at hrun
  simp only [except_bind_eq_ok] at hrun
  obtain ⟨db₁,hstore,hrun⟩ := hrun
  have hstored := storeGroup_holding h htext hstore
  cases hn : change.name with
  | none =>
    rw [hn] at hrun hname
    cases hrun
    rw [hname] at hstored ⊢
    exact (rekey_same t o.name grp).symm ▸ hstored
  | some name =>
    rw [hn] at hrun hname
    rw [hname] at hstored ⊢
    exact rekey_of_ne t (hnew name hn).symm grp ▸ removeGroup_holding hstored hrun

theorem Groupmod.replaceGshadow_holding {file : Option Bytes} {db db' : Db Sgrp} {t : Bytes → Option Sgrp} {sgrp : Sgrp}
    (h : Holding e.tools.gshadow file db t) (htext : sgrp.Text) (hname : sgrp.name = change.name.getD o.name)
    (hnew : ∀ name, change.name = some name → name ≠ o.name) (hrun : o.replaceGshadow e change db sgrp = .ok db') :
    Holding e.tools.gshadow file db' (rekey t o.name sgrp.name sgrp) := by
  unfold replaceGshadow at hrun
  simp only [except_bind_eq_ok] at hrun
  obtain ⟨db₁,hstore,hrun⟩ := hrun
  have hstored := storeGshadow_holding h htext hstore
  cases hn : change.name with
  | none =>
    rw [hn] at hrun hname
    cases hrun
    rw [hname] at hstored ⊢
    exact (rekey_same t o.name sgrp).symm ▸ hstored
  | some name =>
    rw [hn] at hrun hname
    rw [hname] at hstored ⊢
    exact rekey_of_ne t (hnew name hn).symm sgrp ▸ removeGshadow_holding hstored hrun

theorem Groupmod.Leaves.renames (h : o.Leaves e change) {name : Bytes} (hname : change.name = some name) :
    name ≠ o.name ∧ o.newName = some name := by
  rw [h.name,Option.filter_eq_some_iff] at hname
  exact ⟨bne_iff_ne.mp hname.2,hname.1⟩

/-- The new or changed shadow entry has the name of the group. -/
theorem Groupmod.shadowEntry_spec (htext : o.Text) {grp : Group} {osgrp : Option Sgrp} {sgrp : Sgrp} (hgrp : grp.Text)
    (hname : grp.name = change.name.getD o.name) (hnew : ∀ name, change.name = some name → nameIsNis name = false ∧ (0 : UInt8) ∉ name)
    (hold : ∀ osgrp', osgrp = some osgrp' → osgrp'.name = o.name ∧ osgrp'.Text) (h : o.shadowEntry change grp osgrp = some sgrp) :
    sgrp.name = grp.name ∧ sgrp.Text := by
  have hnewSgent : ∀ sg : Sgrp, sg.Text → (sg.name = o.name ∨ sg.name = grp.name) →
      (o.newSgent change sg).name = grp.name ∧ (o.newSgent change sg).Text := by
    intro sg hsg hsgname
    refine ⟨?_,?_,?_,?_,hsg.adm,hsg.mem⟩
    · unfold newSgent
      rw [hname] at hsgname ⊢
      cases hn : change.name with
      | none =>
        rw [hn] at hsgname
        exact hsgname.elim id id
      | some name => rfl
    · unfold newSgent
      cases hn : change.name with
      | none => exact hsg.notNis
      | some name => exact (hnew name hn).1
    · unfold newSgent
      cases hn : change.name with
      | none => exact hsg.name
      | some name => exact (hnew name hn).2
    · unfold newSgent
      cases hp : o.password with
      | none => exact hsg.passwd
      | some password => exact htext.password password hp
  cases osgrp with
  | some osgrp =>
    cases h
    exact hnewSgent osgrp (hold osgrp rfl).2 (.inl (hold osgrp rfl).1)
  | none =>
    unfold shadowEntry at h
    simp only at h
    split at h
    · cases h
      exact hnewSgent _ ⟨hgrp.notNis,hgrp.name,hgrp.passwd,List.forall_mem_nil _,hgrp.members⟩ (.inr rfl)
    · cases h

/-- The shadow of the changed group. -/
theorem Groupmod.updateGshadows_holding {file : Option Bytes} {db db' : Option (Db Sgrp)} {t : Bytes → Option Sgrp} {grp : Group}
    (htext : o.Text) (hgrp : grp.Text) (hname : grp.name = change.name.getD o.name)
    (hnew : ∀ name, change.name = some name → name ≠ o.name ∧ nameIsNis name = false ∧ (0 : UInt8) ∉ name)
    (husers : ∀ list, users = some list → ∀ user ∈ list, (0 : UInt8) ∉ user)
    (h : HoldingUsed e.tools.gshadow file db t) (hrun : o.updateGshadows e change grp users db = .ok db') :
    HoldingUsed e.tools.gshadow file db' (match (if db.isSome then o.shadowEntry change grp (t o.name) else none) with
      | none => t
      | some sgrp => rekey t o.name grp.name { sgrp with mem := o.newMembers users sgrp.mem }) := by
  cases db with
  | none =>
    cases hrun
    exact h
  | some gshadows =>
    obtain ⟨hfound,hlocated⟩ := Holding.locate h o.name
    rcases hlocate : commonioLocate e.tools.gshadow.ops gshadows o.name with ⟨osgrp,gshadows'⟩
    rw [hlocate] at hfound hlocated
    unfold updateGshadows at hrun
    simp only [hlocate] at hrun
    have hfound : osgrp = t o.name := hfound
    rw [Option.isSome_some,if_pos rfl,← hfound]
    cases hentry : o.shadowEntry change grp osgrp with
    | none =>
      rw [hentry] at hrun
      cases hrun
      exact hlocated
    | some sgrp =>
      rw [hentry] at hrun
      simp only at hrun
      have hold : ∀ osgrp', osgrp = some osgrp' → osgrp'.name = o.name ∧ osgrp'.Text := fun osgrp' hsome =>
        Holding.found hlocated (hfound.symm.trans hsome)
      obtain ⟨hsname,hstext⟩ := Groupmod.shadowEntry_spec htext hgrp hname (fun name hn => (hnew name hn).2) hold hentry
      cases hreplace : o.replaceGshadow e change gshadows' { sgrp with mem := o.newMembers users sgrp.mem } with
      | error exit =>
        rw [hreplace] at hrun
        cases hrun
      | ok gshadows'' =>
        rw [hreplace] at hrun
        cases hrun
        have hmem := Groupmod.newMembers_text (o := o) hstext.mem husers
        have hreplaced := Groupmod.replaceGshadow_holding hlocated (hstext.withMem hmem) (hsname.trans hname)
          (fun name hn => (hnew name hn).1) hreplace
        rw [← hsname]
        exact hreplaced

theorem Groupmod.updatePasswds_holding {file : Option Bytes} {db db' : Option (Db Passwd)} {t : Bytes → Option Passwd} {ogid : UInt32}
    (hopen : db.isSome = change.gid.isSome) (h : HoldingUsed e.tools.passwd file db t)
    (hrun : Groupmod.updatePasswds e change ogid db = .ok db') :
    HoldingUsed e.tools.passwd file db' (match change.gid with
      | none => t
      | some ngid => movePrimary e.service.getpwent ogid ngid t) := by
  unfold updatePasswds at hrun
  cases hgid : change.gid with
  | none =>
    rw [hgid] at hrun
    cases hrun
    exact h
  | some ngid =>
    rw [hgid] at hopen hrun
    obtain ⟨passwds,rfl⟩ := Option.isSome_iff_exists.mp hopen
    simp only at hrun
    cases hupdate : updatePrimaryGroups e ogid ngid e.service.getpwent 0 passwds with
    | error exit =>
      rw [hupdate] at hrun
      cases hrun
    | ok passwds' =>
      rw [hupdate] at hrun
      cases hrun
      exact updatePrimaryGroups_holding h hupdate

/-- The steps of a change that succeeds. -/
theorem Groupmod.grpUpdate_ok {dbs' : GroupDbs} {isShadowGrp : Bool} (hrun : o.grpUpdate e isShadowGrp change dbs = .ok dbs') :
    ∃ ogrp groups users, commonioLocate e.tools.group.ops dbs.group o.name = (some ogrp,groups) ∧ o.Lists e users ∧
      Groupmod.updatePasswds e change ogrp.gid dbs.passwd = .ok dbs'.passwd ∧
      o.replaceGroup e change groups { o.newGrent isShadowGrp change ogrp with members := o.newMembers users ogrp.members } =
        .ok dbs'.group ∧
      o.updateGshadows e change (o.newGrent isShadowGrp change ogrp) users dbs.gshadow = .ok dbs'.gshadow := by
  unfold grpUpdate at hrun
  unfold Lists
  rcases hlocate : commonioLocate e.tools.group.ops dbs.group o.name with ⟨_ | ogrp,groups⟩
  · rw [hlocate] at hrun
    cases hrun
  · rw [hlocate] at hrun
    simp only [except_bind_eq_ok] at hrun
    obtain ⟨passwds,hpasswds,hrun⟩ := hrun
    cases hu : o.users with
    | none =>
      rw [hu] at hrun
      simp only [except_bind_eq_ok] at hrun
      obtain ⟨users,husers,groups',hreplace,gshadows,hgshadows,hdone⟩ := hrun
      cases husers
      cases hdone
      exact ⟨ogrp,groups,none,rfl,rfl,hpasswds,hreplace,hgshadows⟩
    | some list =>
      rw [hu] at hrun
      simp only [except_bind_eq_ok] at hrun
      obtain ⟨users,husers,groups',hreplace,gshadows,hgshadows,hdone⟩ := hrun
      cases hdone
      cases hl : Groups.listedUsers e list with
      | error exit =>
        rw [hl] at husers
        cases husers
      | ok us =>
        rw [hl] at husers
        cases husers
        exact ⟨ogrp,groups,some us,rfl,⟨us,hl,rfl⟩,hpasswds,hreplace,hgshadows⟩

theorem Groupmod.lists_text (htext : o.Text) (h : o.Lists e users) : ∀ list, users = some list → ∀ user ∈ list, (0 : UInt8) ∉ user := by
  unfold Lists at h
  rintro list rfl
  split at h
  · cases h
  · rename_i arg harg
    obtain ⟨us,hus,heq⟩ := h
    cases heq
    exact listedUsers_text (htext.users arg harg) hus

/-- A changed group in the open files. -/
theorem Groupmod.grpUpdate_hold {t : GroupTables} {dbs' : GroupDbs} {isShadowGrp : Bool} (htext : o.Text) (hleaves : o.Leaves e change)
    (hopen : dbs.passwd.isSome = change.gid.isSome) (h : dbs.Hold e.tools files t)
    (hrun : o.grpUpdate e isShadowGrp change dbs = .ok dbs') :
    ∃ ogrp users, t.group o.name = some ogrp ∧ ogrp.name = o.name ∧ o.Lists e users ∧
      dbs'.Hold e.tools files (o.effect e.service isShadowGrp dbs.gshadow.isSome change ogrp users t) := by
  obtain ⟨ogrp,groups,users,hlocate,hlists,hpasswds,hreplace,hgshadows⟩ := Groupmod.grpUpdate_ok hrun
  obtain ⟨hfound,hlocated⟩ := h.group.locate o.name
  rw [hlocate] at hfound hlocated
  obtain ⟨hogrpName,hogrp⟩ := h.group.found hfound.symm
  have hogrpName : ogrp.name = o.name := hogrpName
  have husers := Groupmod.lists_text htext hlists
  have hnew : ∀ name, change.name = some name → name ≠ o.name ∧ nameIsNis name = false ∧ (0 : UInt8) ∉ name := fun name hn =>
    ⟨(hleaves.renames hn).1,(hleaves.new name hn).1,htext.newName name (hleaves.renames hn).2⟩
  have hgrp := Groupmod.newGrent_text isShadowGrp htext hogrp fun name hn => (hnew name hn).2
  have hname : (o.newGrent isShadowGrp change ogrp).name = change.name.getD o.name := congrArg change.name.getD hogrpName
  have hmembers := hgrp.withMembers (Groupmod.newMembers_text (o := o) hgrp.members husers)
  exact ⟨ogrp,users,hfound.symm,hogrpName,hlists,
    Groupmod.replaceGroup_holding hlocated hmembers hname (fun name hn => (hnew name hn).1) hreplace,
    Groupmod.updateGshadows_holding htext hgrp hname hnew husers h.gshadow hgshadows,
    Groupmod.updatePasswds_holding hopen h.passwd hpasswds⟩

theorem Groupmod.work_hold (hunique : files.Unique e.tools) (hlinked : TailLinked e.tools.group.ops files.group.file) (htext : o.Text)
    (h : o.work e files = .ok dbs) :
    ∃ change ogrp users, o.Leaves e change ∧ (files.tables e.tools).group o.name = some ogrp ∧ ogrp.name = o.name ∧ o.Lists e users ∧
      dbs.Hold e.tools files
        (o.effect e.service files.isShadowGrp (o.usesShadow change files) change ogrp users (files.tables e.tools)) := by
  unfold work at h
  simp only [except_bind_eq_ok] at h
  obtain ⟨change,hchange,opened,hopen,hupdate⟩ := h
  have hleaves := Groupmod.processFlags_ok hchange
  obtain ⟨hopened,hgshadow,hpasswd⟩ := openFiles_hold hunique hlinked hopen
  obtain ⟨ogrp,users,hogrp,hname,hlists,hdone⟩ := Groupmod.grpUpdate_hold htext hleaves hpasswd hopened hupdate
  exact ⟨change,ogrp,users,hleaves,hogrp,hname,hlists,hgshadow ▸ hdone⟩

end Mod

end UserDb.Programs
