import UserDb.Programs.Gpasswd
import UserDb.Programs.Walk

/-! The groups of a deleted user: the user leaves every list, and the group of the user goes
where nobody else needs it. -/
namespace UserDb.Programs
open UserDb.Base UserDb.Commonio

/-- What `userdel` knows when it comes to the groups, with the entries that `getpwent` gives. -/
structure Userdel where
  userName : Bytes
  userGid : UInt32
  usergroupsEnab : Bool
  fflg : Bool
  passwds : List Passwd

namespace Userdel
variable (o : Userdel) (maxMembers : Nat)

/-- One round over the group file: the user leaves the list. -/
def leaveGroup (grp : Group) : Option (Group × Bool) :=
  if !decide (o.userName ∈ grp.members) then none
  else some ({ grp with members := delList grp.members o.userName },true)

/-- One round over the shadow: the user leaves both lists. -/
def leaveGshadow (sgrp : Sgrp) : Option (Sgrp × Bool) :=
  let wasMember := decide (o.userName ∈ sgrp.mem)
  let wasAdmin := decide (o.userName ∈ sgrp.adm)
  if !wasMember && !wasAdmin then none
  else some ({ sgrp with
    adm := if wasAdmin then delList sgrp.adm o.userName else sgrp.adm
    mem := if wasMember then delList sgrp.mem o.userName else sgrp.mem },true)

/-- Whether the group is the primary group of another user. -/
def isPrimary (gid : UInt32) : Bool := o.passwds.any fun pw => pw.name != o.userName && pw.gid == gid

def removeUsergroup (groups : Db Group) (gshadows : Db Sgrp) : Except Exit (Db Group × Db Sgrp) :=
  match commonioLocate (groupOps maxMembers) groups o.userName with
  | (none,groups) => .ok (groups,gshadows)
  | (some grp,groups) =>
    if grp.gid != o.userGid then .ok (groups,gshadows)
    else if !grp.members.isEmpty then .ok (groups,gshadows)
    else if !o.fflg && o.isPrimary grp.gid then .ok (groups,gshadows)
    else
      match commonioRemove (groupOps maxMembers) groups o.userName with
      | (false,_) => .error (.status 10)
      | (true,groups) =>
        -- a database that is not open has no entry
        match commonioLocate gshadowOps gshadows o.userName with
        | (none,gshadows) => .ok (groups,gshadows)
        | (some _,gshadows) =>
          match commonioRemove gshadowOps gshadows o.userName with
          | (false,_) => .error (.status 10)
          | (true,gshadows) => .ok (groups,gshadows)

def removeEnabled (groups : Db Group) (gshadows : Db Sgrp) : Except Exit (Db Group × Db Sgrp) :=
  if o.usergroupsEnab then o.removeUsergroup maxMembers groups gshadows else .ok (groups,gshadows)

def updateGroups (isShadowGrp : Bool) (groupMemory gshadowMemory : Nat → Bool × Bool) (groups : Db Group) (gshadows : Db Sgrp) :
    Except Exit (Db Group × Db Sgrp) := do
  let groups ← updateEach (groupOps maxMembers) 13 10 groupMemory o.leaveGroup (groups.fresh + 1) (commonioRewind groups).2
  let (groups,gshadows) ← o.removeEnabled maxMembers groups gshadows
  if !isShadowGrp then return (groups,gshadows)
  let gshadows ← updateEach gshadowOps 13 10 gshadowMemory o.leaveGshadow (gshadows.fresh + 1) (commonioRewind gshadows).2
  return (groups,gshadows)

/-- The group that goes with the user. -/
def goes (grp : Group) : Bool :=
  o.usergroupsEnab && grp.name == o.userName && grp.gid == o.userGid && grp.members.all (· == o.userName) &&
    (o.fflg || o.passwds.all fun pw => pw.name == o.userName || pw.gid != o.userGid)

/-- An entry without the user. -/
def withoutUser (grp : Group) : Group := { grp with members := grp.members.filter (· != o.userName) }

def withoutUserShadow (sgrp : Sgrp) : Sgrp :=
  { sgrp with adm := sgrp.adm.filter (· != o.userName), mem := sgrp.mem.filter (· != o.userName) }

end Userdel

namespace Userdel
variable {o : Userdel} {maxMembers : Nat} {groups groups' : Db Group} {gshadows gshadows' : Db Sgrp} {l : List Nat} {stale : Bool}

/-- What `remove_usergroup` looks for, once the user has left every list. -/
def isUsergroup (o : Userdel) (grp : Group) : Bool :=
  grp.name == o.userName && grp.gid == o.userGid && grp.members.isEmpty && (o.fflg || !o.isPrimary grp.gid)

theorem delList_of_notMem {list : List Bytes} {member : Bytes} (h : member ∉ list) : delList list member = list := by
  apply List.filter_eq_self.mpr
  intro a ha
  exact bne_iff_ne.mpr (ne_of_mem_of_not_mem ha h)

private theorem changedEntry_leaveGroup (grp : Group) : changedEntry o.leaveGroup grp = o.withoutUser grp := by
  have heq : o.leaveGroup grp = if !decide (o.userName ∈ grp.members) then none else
      some ({ grp with members := delList grp.members o.userName },true) := rfl
  rw [changedEntry_eq heq nofun]
  split
  · rename_i hout
    have hnot : o.userName ∉ grp.members := by simpa using hout
    exact congrArg (fun members => ({ grp with members := members } : Group)) (delList_of_notMem hnot).symm
  · rfl

private theorem changedEntry_leaveGshadow (sgrp : Sgrp) : changedEntry o.leaveGshadow sgrp = o.withoutUserShadow sgrp := by
  have heq : o.leaveGshadow sgrp =
      if !decide (o.userName ∈ sgrp.mem) && !decide (o.userName ∈ sgrp.adm) then none else
        some ({ sgrp with
          adm := if decide (o.userName ∈ sgrp.adm) then delList sgrp.adm o.userName else sgrp.adm
          mem := if decide (o.userName ∈ sgrp.mem) then delList sgrp.mem o.userName else sgrp.mem },true) := rfl
  have hlist : ∀ list : List Bytes, (if decide (o.userName ∈ list) then delList list o.userName else list) =
      delList list o.userName := by
    intro list
    split
    · rfl
    · rename_i hout
      exact (delList_of_notMem (by simpa using hout)).symm
  rw [changedEntry_eq heq nofun,hlist,hlist]
  split
  · rename_i hout
    simp only [Bool.and_eq_true,Bool.not_eq_true',decide_eq_false_iff_not] at hout
    have hadm : sgrp.adm.filter (· != o.userName) = sgrp.adm := delList_of_notMem hout.2
    have hmem : sgrp.mem.filter (· != o.userName) = sgrp.mem := delList_of_notMem hout.1
    rw [withoutUserShadow,hadm,hmem]
  · rfl

private theorem leaveGroup_name (grp grp' : Group) (changed : Bool) (h : o.leaveGroup grp = some (grp',changed)) :
    (groupOps maxMembers).getname grp' = (groupOps maxMembers).getname grp := by
  unfold leaveGroup at h
  split at h
  · cases h
  · cases h
    rfl

private theorem leaveGshadow_name (sgrp sgrp' : Sgrp) (changed : Bool) (h : o.leaveGshadow sgrp = some (sgrp',changed)) :
    gshadowOps.getname sgrp' = gshadowOps.getname sgrp := by
  unfold leaveGshadow at h
  simp only at h
  split at h
  · cases h
  · cases h
    rfl

private theorem goes_eq (grp : Group) : o.goes grp = (o.usergroupsEnab && o.isUsergroup (o.withoutUser grp)) := by
  have hempty : (grp.members.filter (· != o.userName)).isEmpty = grp.members.all (· == o.userName) := by
    rw [Bool.eq_iff_iff,List.isEmpty_iff,List.filter_eq_nil_iff,List.all_eq_true]
    simp
  have hothers : (!o.isPrimary grp.gid) = o.passwds.all fun pw => pw.name == o.userName || pw.gid != grp.gid := by
    rw [isPrimary,List.not_any_eq_all_not]
    apply congrArg (List.all o.passwds)
    funext pw
    rw [Bool.not_and,bne,Bool.not_not]
    rfl
  unfold goes isUsergroup withoutUser
  simp only [hempty,hothers]
  by_cases hgid : grp.gid = o.userGid
  · rw [hgid]
    cases o.usergroupsEnab with
    | false => rfl
    | true => rfl
  · have hfalse : (grp.gid == o.userGid) = false := by simpa using hgid
    simp only [hfalse,Bool.and_false,Bool.false_and]

/-- The shadow entry goes with the group, where there is one. -/
def shadowGone (o : Userdel) (gone : Bool) (sgs : List Sgrp) : List Sgrp :=
  if gone then sgs.filter fun sg => sg.name != o.userName else sgs

/-- The branches of `remove_usergroup`, for a group of the user's name. -/
theorem removes_iff {γ : Type} {grp : Group} (hname : grp.name = o.userName) (stays goes : γ) :
    (if (grp.gid != o.userGid) = true then stays
      else if (!grp.members.isEmpty) = true then stays
      else if (!o.fflg && o.isPrimary grp.gid) = true then stays
      else goes) = if o.isUsergroup grp = true then goes else stays := by
  have heq : o.isUsergroup grp = (!(grp.gid != o.userGid) && !(!grp.members.isEmpty) && !(!o.fflg && o.isPrimary grp.gid)) := by
    rw [isUsergroup,hname,BEq.rfl,Bool.true_and,bne,Bool.not_not,Bool.not_not,Bool.not_and,Bool.not_not]
  rw [heq]
  split
  · simp_all
  · split
    · simp_all
    · split
      · simp_all
      · simp_all

private theorem locateShadow (hrep : Rep gshadows l stale) (hopen : gshadows.isopen = true) (name : Bytes) :
    ∃ cursor, commonioLocate gshadowOps gshadows name =
        ((entriesOf (l.map gshadows.record)).find? (fun sg => gshadowOps.getname sg == name),{ gshadows with cursor := cursor }) ∧
      ∀ p, cursor = some p → p ∈ l := commonioLocate_entries hrep hopen name

/-- The shadow entry of a group that is gone. -/
theorem removeShadow_spec
    (hrun : (match commonioLocate gshadowOps gshadows o.userName with
      | (none,gshadows) => (.ok (groups,gshadows) : Except Exit (Db Group × Db Sgrp))
      | (some _,gshadows) =>
        match commonioRemove gshadowOps gshadows o.userName with
        | (false,_) => .error (.status 10)
        | (true,gshadows) => .ok (groups,gshadows)) = .ok (groups',gshadows')) :
    groups' = groups ∧ ∀ sl sstale, Rep gshadows sl sstale → gshadows.isopen = true → ∃ sl' sstale', Rep gshadows' sl' sstale' ∧
      gshadows'.isopen = true ∧ entriesOf (sl'.map gshadows'.record) = o.shadowGone true (entriesOf (sl.map gshadows.record)) := by
  rcases hlocate : commonioLocate gshadowOps gshadows o.userName with ⟨_ | sg,gshadows₁⟩
  · rw [hlocate] at hrun
    cases hrun
    refine ⟨rfl,?_⟩
    intro sl sstale hrep hopen
    obtain ⟨cursor,hfind,hcursor⟩ := locateShadow hrep hopen o.userName
    rw [hlocate] at hfind
    obtain ⟨hnone,rfl⟩ := Prod.mk.inj hfind
    refine ⟨sl,sstale,hrep.withCursor hcursor,hopen,?_⟩
    refine (List.filter_eq_self.mpr ?_).symm
    intro sg hsg
    have hne : ¬ (sg.name == o.userName) = true := List.find?_eq_none.mp hnone.symm sg hsg
    simpa using hne
  · rw [hlocate] at hrun
    simp only at hrun
    rcases hremove : commonioRemove gshadowOps gshadows₁ o.userName with ⟨_ | _,gshadows₂⟩
    · rw [hremove] at hrun
      cases hrun
    · rw [hremove] at hrun
      cases hrun
      refine ⟨rfl,?_⟩
      intro sl sstale hrep hopen
      obtain ⟨cursor,hfind,hcursor⟩ := locateShadow hrep hopen o.userName
      rw [hlocate] at hfind
      obtain ⟨_,rfl⟩ := Prod.mk.inj hfind
      exact commonioRemove_entries (hrep.withCursor hcursor) hremove

/-- The user's group is removed where it is one that goes, and nothing else. -/
theorem removeUsergroup_spec (hrep : Rep groups l stale) (hopen : groups.isopen = true)
    (hunique : ((entriesOf (l.map groups.record)).map Group.name).Nodup)
    (hrun : o.removeUsergroup maxMembers groups gshadows = .ok (groups',gshadows')) :
    (∃ l' stale', Rep groups' l' stale' ∧
      entriesOf (l'.map groups'.record) = (entriesOf (l.map groups.record)).filter fun grp => !o.isUsergroup grp) ∧
    ∀ sl sstale, Rep gshadows sl sstale → gshadows.isopen = true → ∃ sl' sstale', Rep gshadows' sl' sstale' ∧
      gshadows'.isopen = true ∧ entriesOf (sl'.map gshadows'.record) =
        o.shadowGone ((entriesOf (l.map groups.record)).any o.isUsergroup) (entriesOf (sl.map gshadows.record)) := by
  set entries := entriesOf (l.map groups.record) with hentries
  obtain ⟨cursor,hlocate,hcursor⟩ := commonioLocate_entries hrep hopen o.userName
  unfold removeUsergroup at hrun
  rw [hlocate] at hrun
  -- where no group goes, only the cursor moved
  have hstay : (∀ grp ∈ entries, o.isUsergroup grp = false) → ∀ cursor', (∀ p, cursor' = some p → p ∈ l) →
      groups' = { groups with cursor := cursor' } → gshadows' = gshadows →
      (∃ l' stale', Rep groups' l' stale' ∧ entriesOf (l'.map groups'.record) = entries.filter fun grp => !o.isUsergroup grp) ∧
      ∀ sl sstale, Rep gshadows sl sstale → gshadows.isopen = true → ∃ sl' sstale', Rep gshadows' sl' sstale' ∧
        gshadows'.isopen = true ∧ entriesOf (sl'.map gshadows'.record) =
          o.shadowGone (entries.any o.isUsergroup) (entriesOf (sl.map gshadows.record)) := by
    rintro hnone cursor' hcursor' rfl rfl
    refine ⟨⟨l,stale,hrep.withCursor hcursor',?_⟩,?_⟩
    · refine Eq.trans hentries.symm (List.filter_eq_self.mpr ?_).symm
      intro grp hgrp
      rw [hnone grp hgrp]
      rfl
    · intro sl sstale hsrep hsopen
      have hany : entries.any o.isUsergroup = false := by
        rw [List.any_eq_false]
        intro grp hgrp
        rw [hnone grp hgrp]
        exact Bool.false_ne_true
      rw [hany]
      exact ⟨sl,sstale,hsrep,hsopen,rfl⟩
  cases hfind : entries.find? fun grp => grp.name == o.userName with
  | none =>
    have hfound : entries.find? (fun grp => (groupOps maxMembers).getname grp == o.userName) = none := hfind
    rw [hfound] at hrun
    cases hrun
    refine hstay ?_ cursor hcursor rfl rfl
    intro grp hgrp
    have hname : (grp.name == o.userName) = false := by simpa using List.find?_eq_none.mp hfind grp hgrp
    rw [isUsergroup,hname]
    rfl
  | some grp =>
    have hfound : entries.find? (fun grp => (groupOps maxMembers).getname grp == o.userName) = some grp := hfind
    have hname : grp.name = o.userName := by simpa using List.find?_some hfind
    have hmem : grp ∈ entries := List.mem_of_find?_eq_some hfind
    have honly : ∀ other ∈ entries, other.name = o.userName → other = grp := by
      intro other hother hsame
      exact List.inj_on_of_nodup_map hunique hother hmem (hsame.trans hname.symm)
    have hother : ∀ other ∈ entries, o.isUsergroup other = (o.isUsergroup grp && other.name == o.userName) := by
      intro other hother
      by_cases hsame : other.name = o.userName
      · rw [honly other hother hsame,hname,BEq.rfl,Bool.and_true]
      · have hfalse : (other.name == o.userName) = false := by simpa using hsame
        rw [isUsergroup,hfalse,Bool.false_and,Bool.false_and,Bool.false_and,Bool.and_false]
    rw [hfound] at hrun
    simp only [removes_iff hname] at hrun
    cases hgoes : o.isUsergroup grp with
    | false =>
      rw [hgoes,if_neg Bool.false_ne_true] at hrun
      cases hrun
      refine hstay ?_ cursor hcursor rfl rfl
      intro other hmem'
      rw [hother other hmem',hgoes,Bool.false_and]
    | true =>
      rw [hgoes,if_pos rfl] at hrun
      rcases hremove : commonioRemove (groupOps maxMembers) { groups with cursor := cursor } o.userName with ⟨_ | _,groups₁⟩
      · rw [hremove] at hrun
        cases hrun
      · rw [hremove] at hrun
        obtain ⟨l',stale',hrep',_,hleft⟩ := commonioRemove_entries (hrep.withCursor hcursor) hremove
        have hgroups : entriesOf (l'.map groups₁.record) = entries.filter fun grp => !o.isUsergroup grp := by
          refine hleft.trans (List.filter_congr ?_)
          intro other hmem'
          rw [hother other hmem',hgoes,Bool.true_and]
          rfl
        have hany : entries.any o.isUsergroup = true := List.any_eq_true.mpr ⟨grp,hmem,hgoes⟩
        obtain ⟨hsame,hshadow⟩ := removeShadow_spec hrun
        subst hsame
        refine ⟨⟨l',stale',hrep',hgroups⟩,?_⟩
        intro sl sstale hsrep hsopen
        rw [hany]
        exact hshadow sl sstale hsrep hsopen

private theorem userName_notMem (grp : Group) : o.userName ∉ (o.withoutUser grp).members := fun h => by
  simpa using (List.mem_filter.mp h).2

private theorem userName_notMem_shadow (sgrp : Sgrp) :
    o.userName ∉ (o.withoutUserShadow sgrp).mem ∧ o.userName ∉ (o.withoutUserShadow sgrp).adm :=
  ⟨fun h => by simpa using (List.mem_filter.mp h).2,fun h => by simpa using (List.mem_filter.mp h).2⟩

/-- The shadow entries that stay, with the user out of their lists. -/
theorem shadowGone_map (gone : Bool) (sgs : List Sgrp) :
    (o.shadowGone gone sgs).map o.withoutUserShadow =
      (sgs.filter fun sg => !(sg.name == o.userName && gone)).map o.withoutUserShadow := by
  unfold shadowGone
  cases gone with
  | true => simp only [if_true,Bool.and_true,bne]
  | false => simp

end Userdel

/-- The user is gone from every list, the group of the user where it goes, and nothing else. -/
theorem userdel_update_groups (tools : Tools) (o : Userdel) (isShadowGrp : Bool) (groupMemory gshadowMemory : Nat → Bool × Bool)
    (group gshadow : Option Bytes) (groupRead groupOpen gshadowRead gshadowOpen : Bool) (groups groups' : Db Group)
    (gshadows gshadows' : Db Sgrp) (hgroups : openFirst tools.group .rdwr true group groupRead groupOpen = (true,groups))
    (hgshadows : isShadowGrp = true → openFirst tools.gshadow .rdwr true gshadow gshadowRead gshadowOpen = (true,gshadows))
    (hunique : ((entriesIn groups).map Group.name).Nodup)
    (hrun : o.updateGroups tools.maxMembers isShadowGrp groupMemory gshadowMemory groups gshadows = .ok (groups',gshadows')) :
    entriesIn groups' = ((entriesIn groups).filter fun grp => !o.goes grp).map o.withoutUser ∧
    (isShadowGrp = true → entriesIn gshadows' = ((entriesIn gshadows).filter fun sgrp =>
      !(sgrp.name == o.userName && (entriesIn groups).any o.goes)).map o.withoutUserShadow) ∧
    (∀ grp ∈ entriesIn groups', o.userName ∉ grp.members) ∧
    (isShadowGrp = true → ∀ sgrp ∈ entriesIn gshadows', o.userName ∉ sgrp.mem ∧ o.userName ∉ sgrp.adm) := by
  -- the lists themselves; that the user is in none of them follows
  suffices hlists : entriesIn groups' = ((entriesIn groups).filter fun grp => !o.goes grp).map o.withoutUser ∧
      (isShadowGrp = true → entriesIn gshadows' = ((entriesIn gshadows).filter fun sgrp =>
        !(sgrp.name == o.userName && (entriesIn groups).any o.goes)).map o.withoutUserShadow) by
    obtain ⟨hgroup,hgshadow⟩ := hlists
    refine ⟨hgroup,hgshadow,?_,?_⟩
    · intro grp hgrp
      rw [hgroup] at hgrp
      obtain ⟨old,_,rfl⟩ := List.mem_map.mp hgrp
      exact Userdel.userName_notMem old
    · intro hshadow sgrp hsgrp
      rw [hgshadow hshadow] at hsgrp
      obtain ⟨old,_,rfl⟩ := List.mem_map.mp hsgrp
      exact Userdel.userName_notMem_shadow old
  obtain ⟨l,stale,hrep,hopen,_⟩ := openFirst_opened hgroups
  rw [entriesIn_eq hrep] at hunique ⊢
  unfold Userdel.updateGroups at hrun
  -- the group file
  rcases hleave : updateEach (groupOps tools.maxMembers) 13 10 groupMemory o.leaveGroup (groups.fresh + 1) (commonioRewind groups).2
    with _ | groups₁
  · rw [hleave] at hrun
    cases hrun
  rw [hleave] at hrun
  obtain ⟨hrep₁,hopen₁,hentries₁⟩ := updateEach_rewound Userdel.leaveGroup_name hrep hopen hleave
  rw [funext Userdel.changedEntry_leaveGroup] at hentries₁
  have hunique₁ : ((entriesOf (l.map groups₁.record)).map Group.name).Nodup := by
    rw [hentries₁,List.map_map]
    exact hunique
  -- the group of the user
  have hgone : (entriesOf (l.map groups₁.record)).filter (fun grp => !(o.usergroupsEnab && o.isUsergroup grp)) =
      ((entriesOf (l.map groups.record)).filter fun grp => !o.goes grp).map o.withoutUser := by
    rw [hentries₁,List.filter_map]
    congr 1
    apply List.filter_congr
    intro grp _
    rw [Userdel.goes_eq]
    rfl
  have hany : (entriesOf (l.map groups₁.record)).any (fun grp => o.usergroupsEnab && o.isUsergroup grp) =
      (entriesOf (l.map groups.record)).any o.goes := by
    rw [hentries₁,List.any_map]
    congr 1
    funext grp
    rw [Userdel.goes_eq]
    rfl
  rcases hremove : o.removeEnabled tools.maxMembers groups₁ gshadows with _ | ⟨groups₂,gshadows₂⟩
  · simp only [Bind.bind,Except.bind,hremove] at hrun
    cases hrun
  simp only [Bind.bind,Except.bind,hremove] at hrun
  unfold Userdel.removeEnabled at hremove
  have hremoved : (∃ l' stale', Rep groups₂ l' stale' ∧ entriesOf (l'.map groups₂.record) =
        (entriesOf (l.map groups₁.record)).filter fun grp => !(o.usergroupsEnab && o.isUsergroup grp)) ∧
      ∀ sl sstale, Rep gshadows sl sstale → gshadows.isopen = true → ∃ sl' sstale', Rep gshadows₂ sl' sstale' ∧
        gshadows₂.isopen = true ∧ entriesOf (sl'.map gshadows₂.record) =
          o.shadowGone ((entriesOf (l.map groups₁.record)).any fun grp => o.usergroupsEnab && o.isUsergroup grp)
            (entriesOf (sl.map gshadows.record)) := by
    cases henab : o.usergroupsEnab with
    | true =>
      rw [henab,if_pos rfl] at hremove
      simp only [Bool.true_and]
      exact Userdel.removeUsergroup_spec hrep₁ hopen₁ hunique₁ hremove
    | false =>
      rw [henab,if_neg Bool.false_ne_true] at hremove
      cases hremove
      have hnobody : (entriesOf (l.map groups₁.record)).any (fun _ => false) = false := by simp
      simp only [Bool.false_and,Bool.not_false,List.filter_true,hnobody]
      exact ⟨⟨l,stale,hrep₁,rfl⟩,fun sl sstale hsrep hsopen => ⟨sl,sstale,hsrep,hsopen,rfl⟩⟩
  rw [hgone,hany] at hremoved
  obtain ⟨⟨l',stale',hrep₂,hentries₂⟩,hshadow₂⟩ := hremoved
  -- the shadow
  cases isShadowGrp with
  | false =>
    cases hrun
    exact ⟨by rw [entriesIn_eq hrep₂,hentries₂],nofun⟩
  | true =>
    obtain ⟨sl,sstale,hsrep,hsopen,_⟩ := openFirst_opened (hgshadows rfl)
    obtain ⟨sl',sstale',hsrep₂,hsopen₂,hsentries₂⟩ := hshadow₂ sl sstale hsrep hsopen
    rcases hleaves : updateEach gshadowOps 13 10 gshadowMemory o.leaveGshadow (gshadows₂.fresh + 1) (commonioRewind gshadows₂).2
      with _ | gshadows₃
    · simp only [Bool.not_true,Bool.false_eq_true,if_false,hleaves] at hrun
      cases hrun
    · simp only [Bool.not_true,Bool.false_eq_true,if_false,hleaves] at hrun
      cases hrun
      obtain ⟨hsrep₃,_,hsentries₃⟩ := updateEach_rewound Userdel.leaveGshadow_name hsrep₂ hsopen₂ hleaves
      rw [funext Userdel.changedEntry_leaveGshadow] at hsentries₃
      refine ⟨by rw [entriesIn_eq hrep₂,hentries₂],fun _ => ?_⟩
      rw [entriesIn_eq hsrep₃,entriesIn_eq hsrep,hsentries₃,hsentries₂,Userdel.shadowGone_map]

def usergroupDeletion : Userdel :=
  ⟨ascii "u",100,true,false,[⟨ascii "u",ascii "x",1000,100,[],[],[]⟩,⟨ascii "w",ascii "x",1001,5,[],[],[]⟩]⟩

/-- The group of the user goes, and another one keeps its other member. -/
theorem userdel_update_groups_usergroup :
    ∃ groups gshadows, usergroupDeletion.updateGroups 0 true (fun _ => (true,true)) (fun _ => (true,true))
        (openedGroups "u:x:100:u\ng:x:5:u,w\n") (openedGshadows "u:!::u\ng:!:u:u,w\n") = .ok (groups,gshadows) ∧
      entriesIn groups = [⟨ascii "g",ascii "x",5,[ascii "w"]⟩] ∧
      entriesIn gshadows = [⟨ascii "g",ascii "!",[],[ascii "w"]⟩] := by
  obtain ⟨groups,gshadows,hrun,_,_⟩ := memberships_eq_some (show
    memberships (usergroupDeletion.updateGroups 0 true (fun _ => (true,true)) (fun _ => (true,true))
        (openedGroups "u:x:100:u\ng:x:5:u,w\n") (openedGshadows "u:!::u\ng:!:u:u,w\n")) =
      some ([⟨ascii "g",ascii "x",5,[ascii "w"]⟩],[⟨ascii "g",ascii "!",[],[ascii "w"]⟩]) by decide +kernel)
  obtain ⟨hgroups,hgshadows,_⟩ := userdel_update_groups plainTools usergroupDeletion true (fun _ => (true,true)) (fun _ => (true,true))
    (some (ascii "u:x:100:u\ng:x:5:u,w\n")) (some (ascii "u:!::u\ng:!:u:u,w\n")) true true true true
    (openedGroups "u:x:100:u\ng:x:5:u,w\n") groups (openedGshadows "u:!::u\ng:!:u:u,w\n") gshadows
    (Prod.ext (by decide +kernel) rfl) (fun _ => Prod.ext (by decide +kernel) rfl) (by decide +kernel) hrun
  refine ⟨groups,gshadows,hrun,hgroups.trans (by decide +kernel),(hgshadows rfl).trans (by decide +kernel)⟩

end UserDb.Programs
