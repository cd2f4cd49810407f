import UserDb.Base.Keyed
import UserDb.Norx.Membership
import UserDb.Norx.Creation

/-! What the account store is about: users and groups under their ids, and who is in which group. -/
namespace UserDb.Norx
open UserDb.Base UserDb.Base.Outcomes

/-- Users and groups under their ids, with their members. No two have one name, and nobody's primary
group and no membership is of something that does not exist. -/
structure Directory where
  user : UInt32 → Option Account
  group : UInt32 → Option Text
  member : UInt32 → Set UInt32
  own : ∀ {uid account}, user uid = some account → account.entry.uid = uid
  userNames : ∀ {uid uid' account account'}, user uid = some account → user uid' = some account' →
    account.entry.name = account'.entry.name → uid = uid'
  groupNames : ∀ {gid gid' name}, group gid = some name → group gid' = some name → gid = gid'
  primary : ∀ {uid account}, user uid = some account → group account.entry.gid ≠ none
  members : ∀ {gid uid}, uid ∈ member gid → group gid ≠ none ∧ user uid ≠ none

namespace Directory

theorem eq_of_data {D D' : Directory} (huser : D'.user = D.user) (hgroup : D'.group = D.group) (hmember : D'.member = D.member) :
    D' = D := by
  cases D
  cases D'
  cases huser
  cases hgroup
  cases hmember
  rfl

variable (D : Directory)

/-- The users of some names. -/
def named (names : List Text) : Set UInt32 := {uid | ∃ account, D.user uid = some account ∧ account.entry.name ∈ names}

/-- The groups of some names. -/
def groupsNamed (names : List Text) : Set UInt32 := {gid | ∃ name ∈ names, D.group gid = some name}

/-- A list of users, each of them once. -/
structure ListsUsers (names : List Text) : Prop where
  once : names.Nodup
  known : ∀ name ∈ names, ∃ uid account, D.user uid = some account ∧ account.entry.name = name

structure ListsGroups (names : List Text) : Prop where
  once : names.Nodup
  known : ∀ name ∈ names, ∃ gid, D.group gid = some name

end Directory

/-- An id that was asked for, or the lowest free one of those that are handed out. -/
structure Chosen (requested : Option UInt32) (free : UInt32 → Prop) (id : UInt32) : Prop where
  available : free id
  asked : ∀ asked, requested = some asked → id = asked
  lowest : requested = none → firstDynamicId ≤ id ∧ ∀ lower, firstDynamicId ≤ lower → lower < id → ¬ free lower

section Ids
variable {values : List UInt32} {candidate id : UInt32} {fuel : Nat}

private theorem nextIdFrom_used (hmem : candidate ∈ values) :
    nextIdFrom values (fuel + 1) candidate = nextIdFrom values fuel (candidate + 1) := by
  rw [nextIdFrom]
  simp [hmem]

private theorem nextIdFrom_unused (hmem : candidate ∉ values) : nextIdFrom values fuel candidate = some candidate := by
  unfold nextIdFrom
  simp [hmem]

private theorem nextIdFrom_last (hmem : candidate ∈ values) : nextIdFrom values 0 candidate = none := by
  unfold nextIdFrom
  simp [hmem]

private theorem unused_lowest (hmem : candidate ∉ values) :
    some candidate = some id ↔ id ∉ values ∧ candidate ≤ id ∧ ∀ lower, candidate ≤ lower → lower < id → lower ∈ values := by
  rw [Option.some.injEq]
  constructor
  · rintro rfl
    exact ⟨hmem,UInt32.le_refl _,fun lower hle hlt => absurd hlt (UInt32.not_lt.mpr hle)⟩
  · rintro ⟨_,hle,hlower⟩
    by_contra hne
    exact hmem (hlower candidate (UInt32.le_refl _) (UInt32.lt_of_le_of_ne hle hne))

private theorem nextIdFrom_eq_some (hfuel : candidate.toNat + fuel + 1 = UInt32.size) :
    nextIdFrom values fuel candidate = some id ↔
      id ∉ values ∧ candidate ≤ id ∧ ∀ lower, candidate ≤ lower → lower < id → lower ∈ values := by
  induction fuel generalizing candidate with
  | zero =>
    by_cases hmem : candidate ∈ values
    · have hlast : candidate ≤ id → id = candidate := by
        intro h
        have hlt := id.toNat_lt
        have hle := UInt32.le_iff_toNat_le.mp h
        simp only [UInt32.size] at hfuel
        exact UInt32.toNat_inj.mp (by omega)
      rw [nextIdFrom_last hmem]
      refine iff_of_false (fun h => by cases h) ?_
      rintro ⟨hid,hle,_⟩
      exact hid (hlast hle ▸ hmem)
    · rw [nextIdFrom_unused hmem]
      exact unused_lowest hmem
  | succ fuel ih =>
    by_cases hmem : candidate ∈ values
    · have hnext : (candidate + 1).toNat = candidate.toNat + 1 := by
        rw [UInt32.toNat_add,show (1 : UInt32).toNat = 1 from rfl]
        exact Nat.mod_eq_of_lt (by simp only [UInt32.size] at hfuel; omega)
      have hstep : ∀ {id : UInt32}, candidate + 1 ≤ id ↔ candidate ≤ id ∧ id ≠ candidate := by
        intro id
        rw [UInt32.le_iff_toNat_le,UInt32.le_iff_toNat_le,hnext,ne_eq,← UInt32.toNat_inj]
        omega
      rw [nextIdFrom_used hmem,ih (by omega)]
      constructor
      · rintro ⟨hid,hle,hlower⟩
        refine ⟨hid,(hstep.mp hle).1,fun lower hle' hlt => ?_⟩
        by_cases heq : lower = candidate
        · rwa [heq]
        · exact hlower lower (hstep.mpr ⟨hle',heq⟩) hlt
      · rintro ⟨hid,hle,hlower⟩
        refine ⟨hid,hstep.mpr ⟨hle,fun heq => hid (heq ▸ hmem)⟩,fun lower hle' hlt => ?_⟩
        exact hlower lower (hstep.mp hle').1 hlt
    · rw [nextIdFrom_unused hmem]
      exact unused_lowest hmem

private theorem nextId_eq_some : nextId values = some id ↔
    id ∉ values ∧ firstDynamicId ≤ id ∧ ∀ lower, firstDynamicId ≤ lower → lower < id → lower ∈ values :=
  nextIdFrom_eq_some (by decide)

/-- What the two ways of giving an id come to. -/
theorem chosen_iff {requested : Option UInt32} :
    (requested.orElse fun _ => nextId values) = some id ∧ id ∉ values ↔ Chosen requested (· ∉ values) id := by
  cases requested with
  | some asked =>
    simp only [Option.orElse_some,Option.some.injEq]
    constructor
    · rintro ⟨rfl,hfree⟩
      exact ⟨hfree,fun _ h => Option.some.inj h,fun h => (by cases h)⟩
    · rintro ⟨hfree,hasked,_⟩
      exact ⟨(hasked asked rfl).symm,hfree⟩
  | none =>
    simp only [Option.orElse_none,nextId_eq_some]
    constructor
    · rintro ⟨⟨hfree,hle,hlower⟩,_⟩
      exact ⟨hfree,fun _ h => (by cases h),fun _ => ⟨hle,fun lower h hlt => not_not.mpr (hlower lower h hlt)⟩⟩
    · rintro ⟨hfree,_,hlowest⟩
      obtain ⟨hle,hlower⟩ := hlowest rfl
      exact ⟨⟨hfree,hle,fun lower h hlt => not_not.mp (hlower lower h hlt)⟩,hfree⟩

theorem Chosen.congr {requested : Option UInt32} {free free' : UInt32 → Prop} (h : ∀ id, free id ↔ free' id) :
    Chosen requested free id ↔ Chosen requested free' id := by
  obtain rfl : free = free' := funext fun id => propext (h id)
  rfl

theorem Chosen.unique {requested : Option UInt32} {free : UInt32 → Prop} {id' : UInt32} (h : Chosen requested free id)
    (h' : Chosen requested free id') : id = id' := by
  cases requested with
  | some asked => rw [h.asked asked rfl,h'.asked asked rfl]
  | none =>
    obtain ⟨hle,hlower⟩ := h.lowest rfl
    obtain ⟨hle',hlower'⟩ := h'.lowest rfl
    by_contra hne
    rcases UInt32.lt_or_lt_of_ne hne with hlt | hlt
    · exact hlower' id hle hlt h.available
    · exact hlower id' hle' hlt h'.available

end Ids

section Abstraction
variable {d : Database}

def Database.groupOf (self : Database) (gid : UInt32) : Option GroupEntry := keyed (·.gid) self.groups gid

theorem accountOf_mem {uid : UInt32} {account : Account} (h : d.accountOf uid = some account) : account ∈ d.accounts :=
  List.mem_of_find?_eq_some h

theorem accountOf_uid {uid : UInt32} {account : Account} (h : d.accountOf uid = some account) : account.entry.uid = uid :=
  @keyed_key Account UInt32 _ (·.entry.uid) d.accounts account uid h

theorem groupOf_mem {gid : UInt32} {group : GroupEntry} (h : d.groupOf gid = some group) : group ∈ d.groups :=
  List.mem_of_find?_eq_some h

theorem groupOf_gid {gid : UInt32} {group : GroupEntry} (h : d.groupOf gid = some group) : group.gid = gid :=
  @keyed_key GroupEntry UInt32 _ (·.gid) d.groups group gid h

theorem Database.Storable.accountOf_eq_some (hd : d.Storable) {uid : UInt32} {account : Account} :
    d.accountOf uid = some account ↔ account ∈ d.accounts ∧ account.entry.uid = uid :=
  keyed_eq_some hd.uids

theorem Database.Storable.groupOf_eq_some (hd : d.Storable) {gid : UInt32} {group : GroupEntry} :
    d.groupOf gid = some group ↔ group ∈ d.groups ∧ group.gid = gid :=
  keyed_eq_some hd.gids

theorem Database.Storable.accountOf_self (hd : d.Storable) {account : Account} (h : account ∈ d.accounts) :
    d.accountOf account.entry.uid = some account := hd.accountOf_eq_some.mpr ⟨h,rfl⟩

theorem Database.Storable.groupOf_self (hd : d.Storable) {group : GroupEntry} (h : group ∈ d.groups) :
    d.groupOf group.gid = some group := hd.groupOf_eq_some.mpr ⟨h,rfl⟩

/-- The directory that a well-formed database stores. -/
def Database.WellFormed.directory (hd : d.WellFormed) : Directory where
  user := d.accountOf
  group gid := (d.groupOf gid).map (·.name)
  member gid := {uid | ∃ group account, d.groupOf gid = some group ∧ d.accountOf uid = some account ∧
    account.entry.name ∈ group.members}
  own h := accountOf_uid h
  userNames h h' hname := by
    have hsame := List.inj_on_of_nodup_map hd.names (accountOf_mem h) (accountOf_mem h') hname
    rw [← accountOf_uid h,← accountOf_uid h',hsame]
  groupNames h h' := by
    obtain ⟨group,hgroup,rfl⟩ := Option.map_eq_some_iff.mp h
    obtain ⟨group',hgroup',hname⟩ := Option.map_eq_some_iff.mp h'
    have hsame := List.inj_on_of_nodup_map hd.groupNames (groupOf_mem hgroup) (groupOf_mem hgroup') hname.symm
    rw [← groupOf_gid hgroup,← groupOf_gid hgroup',hsame]
  primary h := by
    obtain ⟨group,hgroup,hgid⟩ := hd.primary _ (accountOf_mem h)
    rw [← hgid,hd.groupOf_self hgroup]
    exact Option.some_ne_none _
  members h := by
    obtain ⟨group,account,hgroup,haccount,_⟩ := h
    rw [hgroup,haccount]
    exact ⟨Option.some_ne_none _,Option.some_ne_none _⟩

variable (hd : d.WellFormed)

theorem directory_group {gid : UInt32} {name : Text} :
    hd.directory.group gid = some name ↔ ∃ group ∈ d.groups, group.gid = gid ∧ group.name = name := by
  refine Option.map_eq_some_iff.trans (exists_congr fun group => ?_)
  rw [hd.groupOf_eq_some,and_assoc]

theorem directory_free {uid : UInt32} : hd.directory.user uid = none ↔ uid ∉ d.accounts.map (·.entry.uid) := by
  refine (@keyed_eq_none _ _ _ _ d.accounts uid).trans ?_
  simp only [List.mem_map,not_exists,not_and]

theorem directory_groupFree {gid : UInt32} : hd.directory.group gid = none ↔ gid ∉ d.groups.map (·.gid) := by
  refine Option.map_eq_none_iff.trans ((@keyed_eq_none _ _ _ _ d.groups gid).trans ?_)
  simp only [List.mem_map,not_exists,not_and]

theorem directory_listsUsers {names : List Text} : hd.directory.ListsUsers names ↔ d.AcceptsMembers names := by
  constructor
  · rintro ⟨honce,hknown⟩
    have hfound : ∀ name ∈ names, ∃ account ∈ d.accounts, account.entry.name = name := by
      intro name hname
      obtain ⟨uid,account,haccount,heq⟩ := hknown name hname
      exact ⟨account,accountOf_mem haccount,heq⟩
    refine ⟨?_,fun name hname => ?_,honce⟩
    · have hsub : names ⊆ d.accounts.map (·.entry.name) := fun name hname => List.mem_map.mpr (hfound name hname)
      have hlength := (List.subperm_of_subset honce hsub).length_le
      rw [List.length_map] at hlength
      exact hlength.trans hd.accountLimit
    · obtain ⟨account,haccount,rfl⟩ := hfound name hname
      exact ⟨(hd.accounts account haccount).name,account,haccount,rfl⟩
  · rintro ⟨_,hknown,honce⟩
    refine ⟨honce,fun name hname => ?_⟩
    obtain ⟨_,account,haccount,heq⟩ := hknown name hname
    exact ⟨account.entry.uid,account,hd.accountOf_self haccount,heq⟩

theorem directory_listsGroups {names : List Text} : hd.directory.ListsGroups names ↔ d.AcceptsGroupNames names := by
  constructor
  · rintro ⟨honce,hknown⟩
    have hfound : ∀ name ∈ names, ∃ group ∈ d.groups, group.name = name := by
      intro name hname
      obtain ⟨gid,hgroup⟩ := hknown name hname
      obtain ⟨group,hmem,_,heq⟩ := (directory_group hd).mp hgroup
      exact ⟨group,hmem,heq⟩
    refine ⟨?_,fun name hname => ?_,honce⟩
    · have hsub : names ⊆ d.groups.map (·.name) := fun name hname => List.mem_map.mpr (hfound name hname)
      have hlength := (List.subperm_of_subset honce hsub).length_le
      rw [List.length_map] at hlength
      exact hlength.trans hd.groupLimit
    · obtain ⟨group,hgroup,rfl⟩ := hfound name hname
      exact ⟨(hd.groups group hgroup).name,group,hgroup,rfl⟩
  · rintro ⟨_,hknown,honce⟩
    refine ⟨honce,fun name hname => ?_⟩
    obtain ⟨_,group,hgroup,heq⟩ := hknown name hname
    exact ⟨group.gid,(directory_group hd).mpr ⟨group,hgroup,rfl,heq⟩⟩

theorem directory_users_ncard : {uid | hd.directory.user uid ≠ none}.ncard = d.accounts.length := ncard_keyed hd.uids

theorem directory_groups_ncard : {gid | hd.directory.group gid ≠ none}.ncard = d.groups.length := by
  rw [← ncard_keyed hd.gids]
  congr 1
  ext gid
  exact not_congr Option.map_eq_none_iff

theorem directory_unusedName {name : Text} :
    (∀ uid account, hd.directory.user uid = some account → account.entry.name ≠ name) ↔
      ∀ account ∈ d.accounts, account.entry.name ≠ name := by
  constructor
  · intro h account haccount
    exact h account.entry.uid account (hd.accountOf_self haccount)
  · intro h uid account haccount
    exact h account (accountOf_mem haccount)

theorem directory_unusedGroup {name : Text} :
    (∀ gid, hd.directory.group gid ≠ some name) ↔ ∀ group ∈ d.groups, group.name ≠ name := by
  constructor
  · intro h group hgroup heq
    exact h group.gid ((directory_group hd).mpr ⟨group,hgroup,rfl,heq⟩)
  · intro h gid hgroup
    obtain ⟨group,hmem,_,heq⟩ := (directory_group hd).mp hgroup
    exact h group hmem heq

end Abstraction

end UserDb.Norx
