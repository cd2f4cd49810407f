import UserDb.Programs.Gpasswd
import UserDb.Programs.Walk

/-! The groups of a user under `usermod -l` and `usermod -G`, with `-a` and `-r`: the same table
of cases for the group file and for its shadow. -/
namespace UserDb.Programs
open UserDb.Base UserDb.Commonio

/-- What the command line says about names and groups; the groups of `-G` were looked up. -/
structure GroupCommand where
  userName : Bytes
  login : Option Bytes
  groups : Option (List Bytes)
  append : Bool
  remove : Bool

/-- The flags that `process_flags` accepted. -/
structure GroupOptions where
  userName : Bytes
  userNewname : Bytes
  userGroups : List Bytes
  Gflg : Bool
  lflg : Bool
  aflg : Bool
  rflg : Bool

/-- The part of `process_flags` about these options. -/
def processFlags (cmd : GroupCommand) : Except Exit GroupOptions :=
  let Gflg := cmd.groups.isSome
  let userNewname := cmd.login.getD cmd.userName
  if cmd.append && !Gflg then .error (.status 2)
  else if cmd.remove && !Gflg then .error (.status 2)
  else if cmd.remove && cmd.append then .error (.status 2)
  else .ok {
    userName := cmd.userName
    userNewname := userNewname
    userGroups := cmd.groups.getD []
    Gflg := Gflg
    lflg := cmd.login.isSome && userNewname != cmd.userName
    aflg := cmd.append
    rflg := cmd.remove }

namespace GroupOptions
variable (o : GroupOptions)

/-- The member list of an entry, and whether it changes. -/
def changeMembers (wasMember isMember : Bool) (members : List Bytes) : List Bytes × Bool :=
  if wasMember then
    if !o.Gflg || isMember then
      if o.lflg then (addList (delList members o.userName) o.userNewname,true) else (members,false)
    else (delList members o.userName,true)
  else if isMember then (addList members o.userNewname,true)
  else (members,false)

def updateGroup (grp : Group) : Option (Group × Bool) :=
  let wasMember := decide (o.userName ∈ grp.members)
  let isMember := o.Gflg && ((wasMember && o.aflg) || decide (grp.name ∈ o.userGroups))
  if !wasMember && !isMember then none
  else
    let isMember := if o.Gflg && o.rflg then !isMember else isMember
    let (members,changed) := o.changeMembers wasMember isMember grp.members
    some ({ grp with members := members },changed)

def updateGshadow (sgrp : Sgrp) : Option (Sgrp × Bool) :=
  let wasMember := decide (o.userName ∈ sgrp.mem)
  let wasAdmin := decide (o.userName ∈ sgrp.adm)
  let isMember := o.Gflg && ((wasMember && o.aflg) || decide (sgrp.name ∈ o.userGroups))
  if !wasMember && !wasAdmin && !isMember then none
  else
    let isMember := if o.Gflg && o.rflg then !isMember else isMember
    let adm := if wasAdmin && o.lflg then addList (delList sgrp.adm o.userName) o.userNewname else sgrp.adm
    let (mem,changed) := o.changeMembers wasMember isMember sgrp.mem
    some ({ sgrp with adm := adm, mem := mem },wasAdmin && o.lflg || changed)

/-- Both files are gone through from where their cursors stand; none was moved since they were opened. -/
def grpUpdate (maxMembers : Nat) (isShadowGrp : Bool) (groupMemory gshadowMemory : Nat → Bool × Bool) (groups : Db Group)
    (gshadows : Db Sgrp) : Except Exit (Db Group × Db Sgrp) := do
  let groups' ← updateEach (groupOps maxMembers) 10 10 groupMemory o.updateGroup (groups.fresh + 1) groups
  if isShadowGrp then
    let gshadows' ← updateEach gshadowOps 10 10 gshadowMemory o.updateGshadow (gshadows.fresh + 1) gshadows
    return (groups',gshadows')
  else return (groups',gshadows)

/-- Whether the user is to be a member of a group. -/
def Belongs (was : Prop) (group : Bytes) : Prop :=
  if o.Gflg then
    if o.aflg then was ∨ group ∈ o.userGroups
    else if o.rflg then was ∧ group ∉ o.userGroups
    else group ∈ o.userGroups
  else was

end GroupOptions

/-- A list of names before and after: the user `u` gave way to `v`, who is there as wanted, and
nobody else moved. -/
structure MembersLaw (u v : Bytes) (wanted : Prop) (before after : List Bytes) : Prop where
  new : v ∈ after ↔ wanted
  old : u ≠ v → u ∉ after
  others : after.filter (fun name => name != u && name != v) = before.filter fun name => name != u && name != v

/-- What is to hold of a group entry, and of a shadow entry. -/
structure GroupOptions.GroupLaw (o : GroupOptions) (before after : Group) : Prop where
  same : after = { before with members := after.members }
  members : MembersLaw o.userName o.userNewname (o.Belongs (o.userName ∈ before.members) before.name) before.members after.members

structure GroupOptions.GshadowLaw (o : GroupOptions) (before after : Sgrp) : Prop where
  same : after = { before with adm := after.adm, mem := after.mem }
  mem : MembersLaw o.userName o.userNewname (o.Belongs (o.userName ∈ before.mem) before.name) before.mem after.mem
  adm : MembersLaw o.userName o.userNewname (o.userName ∈ before.adm) before.adm after.adm

/-- An administrator of a group who is no member of it, and is to lose another group: this is
where the inverted flag makes a member. -/
def GroupOptions.MakesMember (o : GroupOptions) (sgrp : Sgrp) : Prop :=
  o.rflg = true ∧ o.userName ∈ sgrp.adm ∧ o.userName ∉ sgrp.mem ∧ sgrp.name ∉ o.userGroups

theorem mem_addList {list : List Bytes} {a b : Bytes} : a ∈ addList list b ↔ a ∈ list ∨ a = b := by
  unfold addList
  split
  · rename_i hb
    constructor
    · exact .inl
    · rintro (ha | rfl)
      · exact ha
      · exact hb
  · rw [List.mem_append,List.mem_singleton]

theorem mem_delList {list : List Bytes} {a b : Bytes} : a ∈ delList list b ↔ a ∈ list ∧ a ≠ b := by
  rw [delList,List.mem_filter,bne_iff_ne]

theorem filter_addList {list : List Bytes} {b : Bytes} {test : Bytes → Bool} (h : test b = false) :
    (addList list b).filter test = list.filter test := by
  unfold addList
  split
  · rfl
  · rw [List.filter_append,List.filter_cons_of_neg (by simp [h]),List.filter_nil,List.append_nil]

theorem filter_delList {list : List Bytes} {b : Bytes} {test : Bytes → Bool} (h : test b = false) :
    (delList list b).filter test = list.filter test := by
  rw [delList,List.filter_filter]
  apply List.filter_congr
  intro a _
  by_cases hab : a = b
  · simp [hab,h]
  · simp [hab]

section Lists
variable {u v : Bytes} {list : List Bytes}

/-- A renamed user. -/
theorem membersLaw_rename (hne : u ≠ v) : MembersLaw u v True list (addList (delList list u) v) where
  new := iff_true_intro (mem_addList.mpr (.inr rfl))
  old _ := by
    intro hu
    rcases mem_addList.mp hu with hu | hu
    · exact (mem_delList.mp hu).2 rfl
    · exact hne hu
  others := by rw [filter_addList (by simp),filter_delList (by simp)]

private theorem membersLaw_remove (hnew : u ≠ v → v ∉ list) : MembersLaw u v False list (delList list u) where
  new := iff_false_intro fun hv => hnew (mem_delList.mp hv).2.symm (mem_delList.mp hv).1
  old _ := fun hu => (mem_delList.mp hu).2 rfl
  others := filter_delList (by simp)

private theorem membersLaw_add (hold : u ∉ list) : MembersLaw u v True list (addList list v) where
  new := iff_true_intro (mem_addList.mpr (.inr rfl))
  old hne := by
    intro hu
    rcases mem_addList.mp hu with hu | hu
    · exact hold hu
    · exact hne hu
  others := filter_addList (by simp)

theorem MembersLaw.congr {wanted wanted' : Prop} {after : List Bytes} (h : MembersLaw u v wanted list after)
    (hwanted : wanted ↔ wanted') : MembersLaw u v wanted' list after :=
  ⟨h.new.trans hwanted,h.old,h.others⟩

/-- A list that stays: the user keeps the name, or is not in it. -/
theorem membersLaw_stay (hnew : u ≠ v → u ∉ list ∧ v ∉ list) : MembersLaw u v (u ∈ list) list list where
  new := by
    by_cases hne : u = v
    · rw [hne]
    · exact iff_of_false (hnew hne).2 (hnew hne).1
  old hne := (hnew hne).1
  others := rfl

end Lists

namespace GroupOptions
variable {o : GroupOptions}

/-- What `process_flags` leaves of the flags. -/
structure Accepted (o : GroupOptions) : Prop where
  renamed : o.lflg = true ↔ o.userName ≠ o.userNewname
  append : o.aflg = true → o.Gflg = true
  remove : o.rflg = true → o.Gflg = true
  exclusive : o.rflg = true → o.aflg = false

private theorem accepted_of_processFlags {cmd : GroupCommand} (h : processFlags cmd = .ok o) : o.Accepted := by
  unfold processFlags at h
  simp only at h
  split at h
  · cases h
  · rename_i happend
    split at h
    · cases h
    · rename_i hremove
      split at h
      · cases h
      · rename_i hboth
        cases h
        have hgiven : ∀ flag : Bool, ¬(flag && !cmd.groups.isSome) = true → flag = true → cmd.groups.isSome = true := by
          intro flag hflag hset
          rw [hset,Bool.true_and,Bool.not_eq_true,Bool.not_eq_false'] at hflag
          exact hflag
        refine ⟨?_,hgiven _ happend,hgiven _ hremove,?_⟩
        · cases cmd.login with
          | none => exact iff_of_false Bool.false_ne_true (not_not_intro rfl)
          | some login => rw [Option.isSome_some,Bool.true_and,bne_iff_ne,ne_comm]
        · intro hr
          have hr : cmd.remove = true := hr
          rw [hr] at hboth
          simpa using hboth

/-- The flag of an entry as it stands after it may have been inverted. -/
def flag (o : GroupOptions) (wasMember listed : Bool) : Bool :=
  let isMember := o.Gflg && ((wasMember && o.aflg) || listed)
  if o.Gflg && o.rflg then !isMember else isMember

theorem Accepted.belongs_member (h : o.Accepted) {was : Prop} (hwas : was) (group : Bytes) :
    o.Belongs was group ↔ (!o.Gflg || o.flag true (decide (group ∈ o.userGroups))) = true := by
  have hexclusive := h.exclusive
  unfold Belongs flag
  cases hG : o.Gflg with
  | false => simp [hwas]
  | true =>
    cases hr : o.rflg with
    | true => simp [hexclusive hr,hwas]
    | false =>
      cases o.aflg with
      | false => simp
      | true => simp [hwas]

/-- A user who was no member is one where the flag is set; without `-r` or where the group is listed. -/
theorem Accepted.belongs_other (h : o.Accepted) {was : Prop} (hwas : ¬ was) {group : Bytes}
    (hlisted : o.rflg = true → group ∈ o.userGroups) :
    o.Belongs was group ↔ o.flag false (decide (group ∈ o.userGroups)) = true := by
  have hexclusive := h.exclusive
  unfold Belongs flag
  cases hG : o.Gflg with
  | false => simp [hwas]
  | true =>
    cases hr : o.rflg with
    | true => simp [hexclusive hr,hwas,hlisted hr]
    | false =>
      cases o.aflg with
      | false => simp
      | true => simp [hwas]

theorem Accepted.not_belongs_other (h : o.Accepted) {was : Prop} (hwas : ¬ was) {group : Bytes}
    (hout : (o.Gflg && decide (group ∈ o.userGroups)) = false) : ¬ o.Belongs was group := by
  have hexclusive := h.exclusive
  unfold Belongs
  cases hG : o.Gflg with
  | false => simpa using hwas
  | true =>
    have hnot : group ∉ o.userGroups := by simpa [hG] using hout
    cases o.aflg with
    | true => simp [hwas,hnot]
    | false =>
      cases o.rflg with
      | true => simp [hwas]
      | false => simpa using hnot

theorem changeMembers_same {wasMember isMember : Bool} {members : List Bytes}
    (h : (o.changeMembers wasMember isMember members).2 = false) : (o.changeMembers wasMember isMember members).1 = members := by
  revert h
  unfold changeMembers
  split
  · split
    · split
      · exact nofun
      · exact fun _ => rfl
    · exact nofun
  · split
    · exact nofun
    · exact fun _ => rfl

/-- The list of an entry follows the law where the flag says who is wanted. -/
theorem changeMembers_law (h : o.Accepted) {members : List Bytes} (hnew : o.userName ≠ o.userNewname → o.userNewname ∉ members)
    {isMember : Bool} {wanted : Prop} (hmember : o.userName ∈ members → (wanted ↔ (!o.Gflg || isMember) = true))
    (hother : o.userName ∉ members → (wanted ↔ isMember = true)) :
    MembersLaw o.userName o.userNewname wanted members
      (o.changeMembers (decide (o.userName ∈ members)) isMember members).1 := by
  unfold changeMembers
  by_cases hwas : o.userName ∈ members
  · rw [if_pos (by simpa using hwas)]
    have hwanted := hmember hwas
    split
    · rename_i hstays
      have hyes : wanted := hwanted.mpr hstays
      split
      · rename_i hl
        exact (membersLaw_rename (h.renamed.mp hl)).congr (iff_of_true trivial hyes)
      · rename_i hl
        have hsame : o.userName = o.userNewname := by
          by_contra hne
          exact hl (h.renamed.mpr hne)
        exact (membersLaw_stay fun hne => absurd hsame hne).congr (iff_of_true hwas hyes)
    · rename_i hleaves
      exact (membersLaw_remove hnew).congr (iff_of_false id (hwanted.not.mpr hleaves))
  · rw [if_neg (by simpa using hwas)]
    have hwanted := hother hwas
    split
    · rename_i hjoins
      exact (membersLaw_add hwas).congr (iff_of_true trivial (hwanted.mpr hjoins))
    · rename_i hstays
      exact (membersLaw_stay fun hne => ⟨hwas,hnew hne⟩).congr (iff_of_false hwas (hwanted.not.mpr hstays))

/-- Whether an entry is passed over. -/
def passes (o : GroupOptions) (wasMember listed : Bool) : Bool :=
  !wasMember && !(o.Gflg && ((wasMember && o.aflg) || listed))

theorem updateGroup_eq (grp : Group) :
    o.updateGroup grp = if o.passes (decide (o.userName ∈ grp.members)) (decide (grp.name ∈ o.userGroups)) then none
      else
        let change := o.changeMembers (decide (o.userName ∈ grp.members))
          (o.flag (decide (o.userName ∈ grp.members)) (decide (grp.name ∈ o.userGroups))) grp.members
        some ({ grp with members := change.1 },change.2) := rfl

/-- The group file follows the law. -/
theorem updateGroup_law (h : o.Accepted) (grp : Group) (hnew : o.userName ≠ o.userNewname → o.userNewname ∉ grp.members) :
    o.GroupLaw grp (changedEntry o.updateGroup grp) := by
  rw [changedEntry_eq (updateGroup_eq grp) fun hsame => by rw [changeMembers_same hsame]]
  split
  · rename_i hpasses
    simp only [passes,Bool.and_eq_true,Bool.not_eq_true',decide_eq_false_iff_not] at hpasses
    obtain ⟨hwas,hout⟩ := hpasses
    rw [decide_eq_false hwas,Bool.false_and,Bool.false_or] at hout
    have hno := h.not_belongs_other hwas hout
    exact ⟨rfl,(membersLaw_stay fun hne => ⟨hwas,hnew hne⟩).congr (iff_of_false hwas hno)⟩
  · rename_i hpasses
    refine ⟨rfl,changeMembers_law h hnew ?_ ?_⟩
    · intro hwas
      rw [decide_eq_true hwas]
      exact h.belongs_member hwas grp.name
    · intro hwas
      rw [decide_eq_false hwas]
      refine h.belongs_other hwas fun _ => ?_
      rw [decide_eq_false hwas] at hpasses
      have hlisted : o.Gflg = true ∧ grp.name ∈ o.userGroups := by simpa [passes] using hpasses
      exact hlisted.2

theorem updateGshadow_eq (sgrp : Sgrp) :
    o.updateGshadow sgrp = if !decide (o.userName ∈ sgrp.mem) && !decide (o.userName ∈ sgrp.adm) &&
        !(o.Gflg && ((decide (o.userName ∈ sgrp.mem) && o.aflg) || decide (sgrp.name ∈ o.userGroups))) then none
      else
        let change := o.changeMembers (decide (o.userName ∈ sgrp.mem))
          (o.flag (decide (o.userName ∈ sgrp.mem)) (decide (sgrp.name ∈ o.userGroups))) sgrp.mem
        some ({ sgrp with
          adm := if decide (o.userName ∈ sgrp.adm) && o.lflg then addList (delList sgrp.adm o.userName) o.userNewname else sgrp.adm
          mem := change.1 },decide (o.userName ∈ sgrp.adm) && o.lflg || change.2) := rfl

private theorem changeAdmins_law (h : o.Accepted) {adm : List Bytes} (hnew : o.userName ≠ o.userNewname → o.userNewname ∉ adm) :
    MembersLaw o.userName o.userNewname (o.userName ∈ adm) adm
      (if decide (o.userName ∈ adm) && o.lflg then addList (delList adm o.userName) o.userNewname else adm) := by
  by_cases hne : o.userName = o.userNewname
  · rw [if_neg]
    · exact membersLaw_stay fun hne' => absurd hne hne'
    · intro hl
      exact h.renamed.mp (Bool.and_eq_true_iff.mp hl).2 hne
  · rw [h.renamed.mpr hne,Bool.and_true]
    split
    · rename_i hadm
      exact (membersLaw_rename hne).congr (iff_of_true trivial (of_decide_eq_true hadm))
    · rename_i hadm
      exact membersLaw_stay fun hne => ⟨by simpa using hadm,hnew hne⟩

/-- The shadow of the group file follows the law but where it makes a member. -/
theorem updateGshadow_law_iff (h : o.Accepted) (sgrp : Sgrp)
    (hnew : o.userName ≠ o.userNewname → o.userNewname ∉ sgrp.mem ∧ o.userNewname ∉ sgrp.adm) :
    o.GshadowLaw sgrp (changedEntry o.updateGshadow sgrp) ↔ ¬ o.MakesMember sgrp := by
  have hsame : (decide (o.userName ∈ sgrp.adm) && o.lflg || (o.changeMembers (decide (o.userName ∈ sgrp.mem))
      (o.flag (decide (o.userName ∈ sgrp.mem)) (decide (sgrp.name ∈ o.userGroups))) sgrp.mem).2) = false →
      ({ sgrp with
        adm := if decide (o.userName ∈ sgrp.adm) && o.lflg then addList (delList sgrp.adm o.userName) o.userNewname else sgrp.adm
        mem := (o.changeMembers (decide (o.userName ∈ sgrp.mem))
          (o.flag (decide (o.userName ∈ sgrp.mem)) (decide (sgrp.name ∈ o.userGroups))) sgrp.mem).1 } : Sgrp) = sgrp := by
    intro hchanged
    obtain ⟨hadm,hmem⟩ := Bool.or_eq_false_iff.mp hchanged
    rw [hadm,if_neg Bool.false_ne_true,changeMembers_same hmem]
  rw [changedEntry_eq (updateGshadow_eq sgrp) hsame]
  by_cases hmakes : o.MakesMember sgrp
  · -- the flag is inverted although the user is no member
    refine iff_of_false ?_ (not_not_intro hmakes)
    intro hlaw
    obtain ⟨hr,hadm,hmem,hlisted⟩ := hmakes
    have hG := h.remove hr
    rw [if_neg (by simp [hadm])] at hlaw
    have hjoins := hlaw.mem.new.mp (by simp [changeMembers,flag,hmem,hlisted,hG,hr,mem_addList])
    exact h.not_belongs_other hmem (by simp [hlisted]) hjoins
  · refine iff_of_true ?_ hmakes
    split
    · rename_i hpasses
      simp only [Bool.and_eq_true,Bool.not_eq_true',decide_eq_false_iff_not] at hpasses
      obtain ⟨⟨hmem,hadm⟩,hout⟩ := hpasses
      rw [decide_eq_false hmem,Bool.false_and,Bool.false_or] at hout
      have hno := h.not_belongs_other hmem hout
      refine ⟨rfl,?_,membersLaw_stay fun hne => ⟨hadm,(hnew hne).2⟩⟩
      exact (membersLaw_stay fun hne => ⟨hmem,(hnew hne).1⟩).congr (iff_of_false hmem hno)
    · rename_i hpasses
      refine ⟨rfl,changeMembers_law h (fun hne => (hnew hne).1) ?_ ?_,changeAdmins_law h fun hne => (hnew hne).2⟩
      · intro hmem
        rw [decide_eq_true hmem]
        exact h.belongs_member hmem sgrp.name
      · intro hmem
        rw [decide_eq_false hmem]
        refine h.belongs_other hmem fun hr => ?_
        by_contra hlisted
        refine hmakes ⟨hr,?_,hmem,hlisted⟩
        simpa [hmem,hlisted] using hpasses

end GroupOptions

/-- The entries of both files after `grp_update`, in the order in which they stood. -/
theorem GroupOptions.grpUpdate_entries {o : GroupOptions} {tools : Tools} {isShadowGrp : Bool}
    {groupMemory gshadowMemory : Nat → Bool × Bool} {group gshadow : Option Bytes}
    {groupRead groupOpen gshadowRead gshadowOpen : Bool} {groups groups' : Db Group}
    {gshadows gshadows' : Db Sgrp} (hgroups : openFirst tools.group .rdwr true group groupRead groupOpen = (true,groups))
    (hgshadows : isShadowGrp = true → openFirst tools.gshadow .rdwr true gshadow gshadowRead gshadowOpen = (true,gshadows))
    (hrun : o.grpUpdate tools.maxMembers isShadowGrp groupMemory gshadowMemory groups gshadows = .ok (groups',gshadows')) :
    entriesIn groups' = (entriesIn groups).map (changedEntry o.updateGroup) ∧
      (isShadowGrp = true → entriesIn gshadows' = (entriesIn gshadows).map (changedEntry o.updateGshadow)) := by
  have hgroupName : ∀ a a' changed, o.updateGroup a = some (a',changed) → tools.group.ops.getname a' = tools.group.ops.getname a := by
    intro a a' changed h
    rw [updateGroup_eq] at h
    split at h
    · cases h
    · cases h
      rfl
  have hgshadowName : ∀ a a' changed, o.updateGshadow a = some (a',changed) →
      tools.gshadow.ops.getname a' = tools.gshadow.ops.getname a := by
    intro a a' changed h
    rw [updateGshadow_eq] at h
    split at h
    · cases h
    · cases h
      rfl
  unfold grpUpdate at hrun
  rcases hgroup : updateEach (groupOps tools.maxMembers) 10 10 groupMemory o.updateGroup (groups.fresh + 1) groups with _ | groups₁
  · rw [hgroup] at hrun
    cases hrun
  · rw [hgroup] at hrun
    have hentries := updateEach_entries hgroupName hgroups hgroup
    cases isShadowGrp with
    | false =>
      cases hrun
      exact ⟨hentries,nofun⟩
    | true =>
      rcases hshadow : updateEach gshadowOps 10 10 gshadowMemory o.updateGshadow (gshadows.fresh + 1) gshadows with _ | gshadows₁
      · simp only [if_true,hshadow] at hrun
        cases hrun
      · simp only [if_true,hshadow] at hrun
        cases hrun
        exact ⟨hentries,fun _ => updateEach_entries hgshadowName (hgshadows rfl) hshadow⟩

/-- The law holds in the group file, and in its shadow exactly where the inverted flag makes no member. -/
theorem usermod_membership_law_iff (tools : Tools) (cmd : GroupCommand) (o : GroupOptions) (hflags : processFlags cmd = .ok o)
    (isShadowGrp : Bool) (groupMemory gshadowMemory : Nat → Bool × Bool) (group gshadow : Option Bytes)
    (groupRead groupOpen gshadowRead gshadowOpen : Bool) (groups groups' : Db Group) (gshadows gshadows' : Db Sgrp)
    (hgroups : openFirst tools.group .rdwr true group groupRead groupOpen = (true,groups))
    (hgshadows : isShadowGrp = true → openFirst tools.gshadow .rdwr true gshadow gshadowRead gshadowOpen = (true,gshadows))
    (hnew : o.userName ≠ o.userNewname → (∀ gr ∈ entriesIn groups, o.userNewname ∉ gr.members) ∧
      (isShadowGrp = true → ∀ sg ∈ entriesIn gshadows, o.userNewname ∉ sg.mem ∧ o.userNewname ∉ sg.adm))
    (hrun : o.grpUpdate tools.maxMembers isShadowGrp groupMemory gshadowMemory groups gshadows = .ok (groups',gshadows')) :
    (List.Forall₂ o.GroupLaw (entriesIn groups) (entriesIn groups') ∧
      (isShadowGrp = true → List.Forall₂ o.GshadowLaw (entriesIn gshadows) (entriesIn gshadows'))) ↔
    ¬ (isShadowGrp = true ∧ ∃ sg ∈ entriesIn gshadows, o.MakesMember sg) := by
  have haccepted := GroupOptions.accepted_of_processFlags hflags
  obtain ⟨hgroup,hgshadow⟩ := GroupOptions.grpUpdate_entries hgroups hgshadows hrun
  have hlaw : List.Forall₂ o.GroupLaw (entriesIn groups) (entriesIn groups') := by
    rw [hgroup,List.forall₂_map_right_iff,List.forall₂_same]
    intro gr hgr
    exact GroupOptions.updateGroup_law haccepted gr fun hne => (hnew hne).1 gr hgr
  rw [and_iff_right hlaw,not_and]
  refine imp_congr_right fun hshadow => ?_
  rw [hgshadow hshadow,List.forall₂_map_right_iff,List.forall₂_same,not_exists]
  refine forall_congr' fun sg => ?_
  rw [not_and]
  refine imp_congr_right fun hsg => ?_
  exact GroupOptions.updateGshadow_law_iff haccepted sg fun hne => (hnew hne).2 hshadow sg hsg

def renameOptions : GroupOptions := ⟨ascii "u",ascii "v",[ascii "h"],true,true,true,false⟩

/-- `usermod -l v -aG h u`, where `u` is a member and an administrator of another group. -/
theorem usermod_membership_law_rename :
    ∃ groups gshadows, renameOptions.grpUpdate 0 true (fun _ => (true,true)) (fun _ => (true,true)) (openedGroups "g:x:5:u,w\nh:x:6:\n")
        (openedGshadows "g:!:u:u,w\nh:!::\n") = .ok (groups,gshadows) ∧
      entriesIn groups = [⟨ascii "g",ascii "x",5,[ascii "w",ascii "v"]⟩,⟨ascii "h",ascii "x",6,[ascii "v"]⟩] ∧
      List.Forall₂ renameOptions.GroupLaw (entriesIn (openedGroups "g:x:5:u,w\nh:x:6:\n")) (entriesIn groups) ∧
      List.Forall₂ renameOptions.GshadowLaw (entriesIn (openedGshadows "g:!:u:u,w\nh:!::\n")) (entriesIn gshadows) := by
  obtain ⟨groups,gshadows,hrun,hgroups,_⟩ := memberships_eq_some (show
    memberships (renameOptions.grpUpdate 0 true (fun _ => (true,true)) (fun _ => (true,true)) (openedGroups "g:x:5:u,w\nh:x:6:\n")
        (openedGshadows "g:!:u:u,w\nh:!::\n")) =
      some ([⟨ascii "g",ascii "x",5,[ascii "w",ascii "v"]⟩,⟨ascii "h",ascii "x",6,[ascii "v"]⟩],
        [⟨ascii "g",ascii "!",[ascii "v"],[ascii "w",ascii "v"]⟩,⟨ascii "h",ascii "!",[],[ascii "v"]⟩]) by decide +kernel)
  have hlaw := (usermod_membership_law_iff plainTools ⟨ascii "u",some (ascii "v"),some [ascii "h"],true,false⟩ renameOptions rfl true
    (fun _ => (true,true)) (fun _ => (true,true)) (some (ascii "g:x:5:u,w\nh:x:6:\n")) (some (ascii "g:!:u:u,w\nh:!::\n"))
    true true true true (openedGroups "g:x:5:u,w\nh:x:6:\n") groups (openedGshadows "g:!:u:u,w\nh:!::\n") gshadows
    (Prod.ext (by decide +kernel) rfl) (fun _ => Prod.ext (by decide +kernel) rfl)
    (fun _ => ⟨by decide +kernel,fun _ => by decide +kernel⟩) hrun).mpr (fun h => by
      obtain ⟨_,sg,_,hr,_⟩ := h
      cases hr)
  exact ⟨groups,gshadows,hrun,hgroups,hlaw.1,hlaw.2 rfl⟩

def removeOptions : GroupOptions := ⟨ascii "u",ascii "u",[ascii "g"],true,false,false,true⟩

/-- `usermod -r -G g u` makes a member of `u` in a group that `u` administers, in the shadow alone. -/
theorem removal_makes_a_member :
    processFlags ⟨ascii "u",none,some [ascii "g"],false,true⟩ = .ok removeOptions ∧
    ∃ groups gshadows, removeOptions.grpUpdate 0 true (fun _ => (true,true)) (fun _ => (true,true)) (openedGroups "g:x:5:u\nh:x:6:\n")
        (openedGshadows "g:!::u\nh:!:u:\n") = .ok (groups,gshadows) ∧
      entriesIn groups = [⟨ascii "g",ascii "x",5,[]⟩,⟨ascii "h",ascii "x",6,[]⟩] ∧
      entriesIn gshadows = [⟨ascii "g",ascii "!",[],[]⟩,⟨ascii "h",ascii "!",[ascii "u"],[ascii "u"]⟩] ∧
      ¬ List.Forall₂ removeOptions.GshadowLaw (entriesIn (openedGshadows "g:!::u\nh:!:u:\n")) (entriesIn gshadows) := by
  refine ⟨rfl,?_⟩
  obtain ⟨groups,gshadows,hrun,hgroups,hgshadows⟩ := memberships_eq_some (show
    memberships (removeOptions.grpUpdate 0 true (fun _ => (true,true)) (fun _ => (true,true)) (openedGroups "g:x:5:u\nh:x:6:\n")
        (openedGshadows "g:!::u\nh:!:u:\n")) =
      some ([⟨ascii "g",ascii "x",5,[]⟩,⟨ascii "h",ascii "x",6,[]⟩],
        [⟨ascii "g",ascii "!",[],[]⟩,⟨ascii "h",ascii "!",[ascii "u"],[ascii "u"]⟩]) by decide +kernel)
  refine ⟨groups,gshadows,hrun,hgroups,hgshadows,?_⟩
  have hbefore : entriesIn (openedGshadows "g:!::u\nh:!:u:\n") =
      [⟨ascii "g",ascii "!",[],[ascii "u"]⟩,⟨ascii "h",ascii "!",[ascii "u"],[]⟩] := by decide +kernel
  rw [hbefore,hgshadows]
  intro hlaw
  have hsecond := (List.forall₂_cons.mp (List.forall₂_cons.mp hlaw).2).1
  have hbelongs := hsecond.mem.new.mp List.mem_cons_self
  simp [GroupOptions.Belongs,removeOptions] at hbelongs

end UserDb.Programs
