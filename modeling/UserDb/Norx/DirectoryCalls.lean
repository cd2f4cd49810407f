import UserDb.Base.Simulation
import UserDb.Norx.Directory

/-! The calls as operations on the directory: the account store accepts a call exactly where the
directory allows it, and then stores the directory after it. -/
namespace UserDb.Norx
open UserDb.Base UserDb.Base.Outcomes

/-- A user who can be created under an id. -/
structure Directory.Welcomes (D : Directory) (spec : UserSpec) (entry : UserEntry) : Prop where
  room : {uid | D.user uid ≠ none}.ncard ≠ maxUsers
  name : entry.name = spec.name ∧ entry.name.ValidName
  flags : entry.flags = spec.flags ∧ ValidFlags entry.flags
  capabilities : entry.capabilities = spec.capabilities ∧ ValidCapabilities entry.capabilities
  home : spec.home = some entry.home ∧ entry.home.ValidPath
  shell : spec.shell = some entry.shell ∧ entry.shell.ValidPath
  unused : ∀ uid account, D.user uid = some account → account.entry.name ≠ entry.name
  chosen : Chosen spec.uid (D.user · = none) entry.uid
  primary : spec.primaryGid = some entry.gid ∧ D.group entry.gid ≠ none
  groups : D.ListsGroups spec.supplementaryGroups

/-- The directory with a new user. -/
structure Directory.Adds (D : Directory) (account : Account) (groups : List Text) (D' : Directory) : Prop where
  user : D'.user = Function.update D.user account.entry.uid (some account)
  group : D'.group = D.group
  member : D'.member = fun gid => {uid | uid ∈ D.member gid ∨ uid = account.entry.uid ∧ gid ∈ D.groupsNamed groups}

/-- The directory with another account for one of its users. -/
structure Directory.Rewrites (D : Directory) (account : Account) (D' : Directory) : Prop where
  user : D'.user = Function.update D.user account.entry.uid (some account)
  group : D'.group = D.group
  member : D'.member = D.member

/-- What each call does to the directory, where it is allowed. -/
inductive Directory.Performs (D D' : Directory) : Call → Prop
  | createGroup {actor : SessionCredentials} {name : Text} {requested : Option UInt32} {names : List Text} (gid : UInt32)
      (admin : actor.hasCapability capAccountAdmin = true) (valid : name.ValidName) (unused : ∀ gid, D.group gid ≠ some name)
      (members : D.ListsUsers names) (chosen : Chosen requested (D.group · = none) gid)
      (room : {gid | D.group gid ≠ none}.ncard ≠ maxGroups) (sameUsers : D'.user = D.user)
      (group : D'.group = Function.update D.group gid (some name)) (member : D'.member = Function.update D.member gid (D.named names)) :
      Performs D D' (.createGroup actor name requested names)
  | modifyGroup {actor : SessionCredentials} {gid : UInt32} {update : GroupUpdate} (name : Text)
      (admin : actor.hasCapability capAccountAdmin = true) (current : D.group gid = some name)
      (valid : (update.name.getD name).ValidName) (unused : ∀ other, other ≠ gid → D.group other ≠ some (update.name.getD name))
      (members : ∀ names, update.members = some names → D.ListsUsers names) (sameUsers : D'.user = D.user)
      (group : D'.group = Function.update D.group gid (some (update.name.getD name)))
      (member : D'.member = Function.update D.member gid ((update.members.map D.named).getD (D.member gid))) :
      Performs D D' (.modifyGroup actor gid update)
  | deleteGroup {actor : SessionCredentials} {gid : UInt32} (admin : actor.hasCapability capAccountAdmin = true)
      (current : D.group gid ≠ none) (unused : ∀ uid account, D.user uid = some account → account.entry.gid ≠ gid)
      (empty : D.member gid = ∅) (sameUsers : D'.user = D.user) (group : D'.group = Function.update D.group gid none)
      (member : D'.member = D.member) : Performs D D' (.deleteGroup actor gid)
  | createUser {actor : SessionCredentials} {spec : UserSpec} {password : Bytes} {hasher : PasswordHasher} (account : Account)
      (admin : actor.hasCapability capAccountAdmin = true) (welcome : D.Welcomes spec account.entry)
      (root : account.entry.uid = 0 → account.entry.capabilities &&& capAccountAdmin ≠ 0)
      (hash : hasher password = some account.passwordHash ∧ account.passwordHash.ValidHash)
      (added : D.Adds account spec.supplementaryGroups D') : Performs D D' (.createUser actor spec password hasher)
  | createLockedUser {actor : SessionCredentials} {spec : UserSpec} (account : Account)
      (admin : actor.hasCapability capAccountAdmin = true)
      (welcome : D.Welcomes { spec with flags := spec.flags ||| flagLocked } account.entry)
      (hash : account.passwordHash = lockedPasswordHash) (added : D.Adds account spec.supplementaryGroups D') :
      Performs D D' (.createLockedUser actor spec)
  | modifyUser {actor : SessionCredentials} {uid : UInt32} {update : UserUpdate} (account : Account)
      (admin : actor.hasCapability capAccountAdmin = true) (current : D.user uid = some account)
      (valid : (update.applyTo account.entry).name.ValidName ∧ ValidFlags (update.applyTo account.entry).flags ∧
        ValidCapabilities (update.applyTo account.entry).capabilities ∧ (update.applyTo account.entry).home.ValidPath ∧
        (update.applyTo account.entry).shell.ValidPath)
      (unused : ∀ other another, other ≠ uid → D.user other = some another → another.entry.name ≠ (update.applyTo account.entry).name)
      (primary : ∀ gid, update.primaryGid = some gid → D.group gid ≠ none)
      (groups : ∀ names, update.supplementaryGroups = some names → D.ListsGroups names)
      (user : D'.user = Function.update D.user uid (some { account with entry := update.applyTo account.entry }))
      (group : D'.group = D.group)
      (member : D'.member = fun gid => {other | other ≠ uid ∧ other ∈ D.member gid ∨
        other = uid ∧ (update.supplementaryGroups.map fun names => gid ∈ D.groupsNamed names).getD (uid ∈ D.member gid)}) :
      Performs D D' (.modifyUser actor uid update)
  | deleteUser {actor : SessionCredentials} {uid : UInt32} (admin : actor.hasCapability capAccountAdmin = true)
      (current : D.user uid ≠ none) (other : uid ≠ actor.effectiveUid) (notRoot : uid ≠ 0)
      (user : D'.user = Function.update D.user uid none) (group : D'.group = D.group)
      (member : D'.member = fun gid => D.member gid \ {uid}) : Performs D D' (.deleteUser actor uid)
  | changePassword {actor : SessionCredentials} {uid : UInt32} {old : Option Bytes} {new confirmation : Bytes}
      {policy : PasswordPolicy} {verifier : PasswordVerifier} {hasher : PasswordHasher} (account : Account) (encoded : Text)
      (current : D.user uid = some account)
      (allowed : actor.hasCapability capAccountAdmin = true ∨ actor.effectiveUid = uid ∧
        account.entry.flags &&& (flagDisabled ||| flagLocked) = 0 ∧
        ∃ password, old = some password ∧ verifier password account.passwordHash.bytes = true)
      (fits : policy.validate new confirmation = .ok ()) (fresh : verifier new account.passwordHash.bytes = false)
      (hash : hasher new = some encoded ∧ encoded.ValidHash) (changed : D.Rewrites { account with passwordHash := encoded } D') :
      Performs D D' (.changePassword actor uid old new confirmation policy verifier hasher)
  | setLocked {actor : SessionCredentials} {uid : UInt32} {locked : Bool} (account : Account)
      (admin : actor.hasCapability capAccountAdmin = true) (current : D.user uid = some account)
      (changed : D.Rewrites (account.withLock locked) D') : Performs D D' (.setLocked actor uid locked)

/-- A call has one outcome. -/
theorem Directory.Performs.unique {D D₁ D₂ : Directory} {c : Call} (h₁ : D.Performs D₁ c) (h₂ : D.Performs D₂ c) : D₁ = D₂ := by
  have hadds : ∀ {account account' : Account} {groups : List Text}, account = account' → D.Adds account groups D₁ →
      D.Adds account' groups D₂ → D₁ = D₂ := by
    rintro account _ groups rfl ha ha'
    exact eq_of_data (ha.user.trans ha'.user.symm) (ha.group.trans ha'.group.symm) (ha.member.trans ha'.member.symm)
  have hrewrites : ∀ {account account' : Account}, account = account' → D.Rewrites account D₁ → D.Rewrites account' D₂ → D₁ = D₂ := by
    rintro account _ rfl ha ha'
    exact eq_of_data (ha.user.trans ha'.user.symm) (ha.group.trans ha'.group.symm) (ha.member.trans ha'.member.symm)
  have hwelcomes : ∀ {spec : UserSpec} {entry entry' : UserEntry}, D.Welcomes spec entry → D.Welcomes spec entry' → entry = entry' := by
    intro spec entry entry' h h'
    have hhome := Option.some.inj (h.home.1.symm.trans h'.home.1)
    have hshell := Option.some.inj (h.shell.1.symm.trans h'.shell.1)
    have hgid := Option.some.inj (h.primary.1.symm.trans h'.primary.1)
    have huid := h.chosen.unique h'.chosen
    have hname := h.name.1.trans h'.name.1.symm
    have hflags := h.flags.1.trans h'.flags.1.symm
    have hcaps := h.capabilities.1.trans h'.capabilities.1.symm
    cases entry
    cases entry'
    cases hhome
    cases hshell
    cases hgid
    cases huid
    cases hname
    cases hflags
    cases hcaps
    rfl
  cases h₁ with
  | createGroup gid _ _ _ _ hchosen _ huser hgroup hmember =>
    cases h₂ with
    | createGroup gid' _ _ _ _ hchosen' _ huser' hgroup' hmember' =>
      obtain rfl := hchosen.unique hchosen'
      exact eq_of_data (huser.trans huser'.symm) (hgroup.trans hgroup'.symm) (hmember.trans hmember'.symm)
  | modifyGroup name _ hcurrent _ _ _ huser hgroup hmember =>
    cases h₂ with
    | modifyGroup name' _ hcurrent' _ _ _ huser' hgroup' hmember' =>
      obtain rfl := Option.some.inj (hcurrent.symm.trans hcurrent')
      exact eq_of_data (huser.trans huser'.symm) (hgroup.trans hgroup'.symm) (hmember.trans hmember'.symm)
  | deleteGroup _ _ _ _ huser hgroup hmember =>
    cases h₂ with
    | deleteGroup _ _ _ _ huser' hgroup' hmember' =>
      exact eq_of_data (huser.trans huser'.symm) (hgroup.trans hgroup'.symm) (hmember.trans hmember'.symm)
  | createUser account _ hwelcome _ hhash hadded =>
    cases h₂ with
    | createUser account' _ hwelcome' _ hhash' hadded' =>
      have hentry := hwelcomes hwelcome hwelcome'
      have hsame := Option.some.inj (hhash.1.symm.trans hhash'.1)
      refine hadds ?_ hadded hadded'
      cases account
      cases account'
      exact congr (congrArg Account.mk hentry) hsame
  | createLockedUser account _ hwelcome hhash hadded =>
    cases h₂ with
    | createLockedUser account' _ hwelcome' hhash' hadded' =>
      have hentry := hwelcomes hwelcome hwelcome'
      have hsame := hhash.trans hhash'.symm
      refine hadds ?_ hadded hadded'
      cases account
      cases account'
      exact congr (congrArg Account.mk hentry) hsame
  | modifyUser account _ hcurrent _ _ _ _ huser hgroup hmember =>
    cases h₂ with
    | modifyUser account' _ hcurrent' _ _ _ _ huser' hgroup' hmember' =>
      obtain rfl := Option.some.inj (hcurrent.symm.trans hcurrent')
      exact eq_of_data (huser.trans huser'.symm) (hgroup.trans hgroup'.symm) (hmember.trans hmember'.symm)
  | deleteUser _ _ _ _ huser hgroup hmember =>
    cases h₂ with
    | deleteUser _ _ _ _ huser' hgroup' hmember' =>
      exact eq_of_data (huser.trans huser'.symm) (hgroup.trans hgroup'.symm) (hmember.trans hmember'.symm)
  | changePassword account encoded hcurrent _ _ _ hhash hchanged =>
    cases h₂ with
    | changePassword account' encoded' hcurrent' _ _ _ hhash' hchanged' =>
      obtain rfl := Option.some.inj (hcurrent.symm.trans hcurrent')
      obtain rfl := Option.some.inj (hhash.1.symm.trans hhash'.1)
      exact hrewrites rfl hchanged hchanged'
  | setLocked account _ hcurrent hchanged =>
    cases h₂ with
    | setLocked account' _ hcurrent' hchanged' =>
      obtain rfl := Option.some.inj (hcurrent.symm.trans hcurrent')
      exact hrewrites rfl hchanged hchanged'

section Places
variable {d d' : Database}

/-- A look-up goes by the place of the account. -/
theorem accountOf_index {uid : UInt32} {account : Account} : d.accountOf uid = some account ↔
    ∃ index, d.accounts.findIdx? (fun account => account.entry.uid == uid) = some index ∧ d.accounts[index]? = some account := by
  rw [Database.accountOf,List.find?_eq_bind_findIdx?_getElem?]
  exact Option.bind_eq_some_iff

theorem groupOf_index {gid : UInt32} {group : GroupEntry} : d.groupOf gid = some group ↔
    ∃ index, d.groups.findIdx? (fun group => group.gid == gid) = some index ∧ d.groups[index]? = some group := by
  rw [Database.groupOf,keyed,List.find?_eq_bind_findIdx?_getElem?]
  exact Option.bind_eq_some_iff

theorem Database.Storable.accountOf_place (hd : d.Storable) {index : Nat} {account : Account} (h : d.accounts[index]? = some account) :
    d.accountOf account.entry.uid = some account := hd.accountOf_self (List.mem_of_getElem? h)

end Places

section Groups
variable {actor : SessionCredentials} {d d' : Database} {name : Text} {requested : Option UInt32} {names : List Text} {gid : UInt32}
  {update : GroupUpdate}

theorem createGroup_eq_ok : Database.createGroup actor name requested names d = .ok gid d' ↔
    actor.hasCapability capAccountAdmin = true ∧ name.ValidName ∧ (∀ group ∈ d.groups, group.name ≠ name) ∧
      d.AcceptsMembers names ∧ ((requested.orElse fun _ => nextId (d.groups.map (·.gid))) = some gid ∧
        gid ∉ d.groups.map (·.gid)) ∧ d.groups.length ≠ maxGroups ∧
      d' = { d with groups := d.groups ++ [⟨name,gid,names⟩] } := by
  simp only [Database.createGroup,lift_bind_eq_ok,get_bind_eq_ok,refuse_bind_eq_ok,
    orRefuse_bind_eq_ok,set_bind_eq_ok,pure_eq_ok,requireAdmin_eq_ok,validateNameString_eq_ok,
    validateGroupMembers_eq_ok,List.any_eq_false,beq_iff_eq,beq_eq_false_iff_ne,List.mem_map,not_exists,not_and]
  constructor
  · rintro ⟨_,hadmin,_,hname,hunused,_,hmembers,_,hchosen,hfree,hroom,rfl,rfl⟩
    exact ⟨hadmin,hname,hunused,hmembers,⟨hchosen,hfree⟩,hroom,rfl⟩
  · rintro ⟨hadmin,hname,hunused,hmembers,⟨hchosen,hfree⟩,hroom,rfl⟩
    exact ⟨(),hadmin,(),hname,hunused,(),hmembers,gid,hchosen,hfree,hroom,rfl,rfl⟩

variable (hd : d.WellFormed) (hd' : d'.WellFormed)

private theorem createGroup_performs (h : Database.createGroup actor name requested names d = .ok gid d') :
    hd.directory.Performs hd'.directory (.createGroup actor name requested names) := by
  obtain ⟨hadmin,hname,hunused,hmembers,hchosen,hroom,rfl⟩ := createGroup_eq_ok.mp h
  have hfresh : ∀ group ∈ d.groups, group.gid ≠ gid := fun group hgroup heq => hchosen.2 (List.mem_map.mpr ⟨group,hgroup,heq⟩)
  have hgroups : ∀ other, (Database.mk d.accounts (d.groups ++ [⟨name,gid,names⟩])).groupOf other =
      Function.update d.groupOf gid (some ⟨name,gid,names⟩) other := fun other =>
    congrFun (@keyed_append GroupEntry UInt32 _ (·.gid) d.groups ⟨name,gid,names⟩ hfresh) other
  refine .createGroup gid hadmin hname ((directory_unusedGroup hd).mpr hunused) ((directory_listsUsers hd).mpr hmembers) ?_ ?_ rfl ?_ ?_
  · exact (Chosen.congr fun _ => directory_groupFree hd).mpr (chosen_iff.mp hchosen)
  · rw [directory_groups_ncard]
    exact hroom
  · funext other
    show (Database.groupOf _ other).map _ = _
    rw [hgroups,Function.update_apply,Function.update_apply]
    split <;> rfl
  · funext other
    ext uid
    show (∃ group account, Database.groupOf _ other = some group ∧ d.accountOf uid = some account ∧ account.entry.name ∈ group.members) ↔ _
    rw [hgroups,Function.update_apply,Function.update_apply]
    by_cases hother : other = gid
    · rw [if_pos hother,if_pos hother]
      constructor
      · rintro ⟨_,account,hgroup,haccount,hmem⟩
        cases hgroup
        exact ⟨account,haccount,hmem⟩
      · rintro ⟨account,haccount,hmem⟩
        exact ⟨_,account,rfl,haccount,hmem⟩
    · rw [if_neg hother,if_neg hother]
      rfl

private theorem performs_createGroup {D' : Directory} (h : hd.directory.Performs D' (.createGroup actor name requested names)) :
    ∃ gid d', Database.createGroup actor name requested names d = .ok gid d' := by
  cases h with
  | createGroup gid hadmin hname hunused hmembers hchosen hroom =>
    rw [directory_groups_ncard] at hroom
    refine ⟨gid,_,createGroup_eq_ok.mpr ⟨hadmin,hname,(directory_unusedGroup hd).mp hunused,(directory_listsUsers hd).mp hmembers,?_,
      hroom,rfl⟩⟩
    exact chosen_iff.mpr ((Chosen.congr fun _ => directory_groupFree hd).mp hchosen)

theorem modifyGroup_eq_ok {u : Unit} : Database.modifyGroup actor gid update d = .ok u d' ↔
    actor.hasCapability capAccountAdmin = true ∧ ∃ index current,
      d.groups.findIdx? (fun group => group.gid == gid) = some index ∧ d.groups[index]? = some current ∧
      (update.name.getD current.name).ValidName ∧
      (∀ group ∈ d.groups.eraseIdx index, group.name ≠ update.name.getD current.name) ∧
      d.AcceptsMembers (update.members.getD current.members) ∧
      d' = { d with groups := d.groups.set index (update.applyTo current) } := by
  simp only [Database.modifyGroup,lift_bind_eq_ok,get_bind_eq_ok,refuse_bind_eq_ok,orRefuse_bind_eq_ok,set_eq_ok,
    requireAdmin_eq_ok,validateNameString_eq_ok,validateGroupMembers_eq_ok,List.any_eq_false,beq_iff_eq]
  constructor
  · rintro ⟨_,hadmin,index,hindex,current,hcurrent,_,hname,hunused,_,hmembers,rfl⟩
    exact ⟨hadmin,index,current,hindex,hcurrent,hname,hunused,hmembers,rfl⟩
  · rintro ⟨hadmin,index,current,hindex,hcurrent,hname,hunused,hmembers,rfl⟩
    exact ⟨(),hadmin,index,hindex,current,hcurrent,(),hname,hunused,(),hmembers,rfl⟩

/-- The other groups, by place and by id. -/
theorem directory_otherGroups {index : Nat} {current : GroupEntry} (hindex : d.groups[index]? = some current) :
    (∀ group ∈ d.groups.eraseIdx index, group.name ≠ name) ↔
      ∀ other, other ≠ current.gid → hd.directory.group other ≠ some name := by
  constructor
  · intro h other hother hgroup
    obtain ⟨group,hmem,rfl,heq⟩ := (directory_group hd).mp hgroup
    exact h group ((mem_eraseIdx_keyed hd.gids hindex).mpr ⟨hmem,hother⟩) heq
  · intro h group hgroup heq
    obtain ⟨hmem,hne⟩ := (mem_eraseIdx_keyed hd.gids hindex).mp hgroup
    exact h group.gid hne ((directory_group hd).mpr ⟨group,hmem,rfl,heq⟩)

private theorem modifyGroup_performs {u : Unit} (h : Database.modifyGroup actor gid update d = .ok u d') :
    hd.directory.Performs hd'.directory (.modifyGroup actor gid update) := by
  obtain ⟨hadmin,index,current,hindex,hplace,hname,hunused,hmembers,rfl⟩ := modifyGroup_eq_ok.mp h
  have hcurrent := groupOf_index.mpr ⟨index,hindex,hplace⟩
  obtain rfl := groupOf_gid hcurrent
  have hgroups : ∀ other, (Database.mk d.accounts (d.groups.set index (update.applyTo current))).groupOf other =
      Function.update d.groupOf current.gid (some (update.applyTo current)) other := fun other =>
    congrFun (@keyed_set GroupEntry UInt32 _ (·.gid) d.groups current (update.applyTo current) index hd.gids hplace rfl) other
  refine .modifyGroup current.name hadmin (by show (d.groupOf _).map _ = _; rw [hcurrent]; rfl) hname
    ((directory_otherGroups hd hplace).mp hunused) ?_ rfl ?_ ?_
  · intro names hnames
    rw [hnames] at hmembers
    exact (directory_listsUsers hd).mpr hmembers
  · funext other
    show (Database.groupOf _ other).map _ = _
    rw [hgroups,Function.update_apply,Function.update_apply]
    split <;> rfl
  · funext other
    ext uid
    show (∃ group account, Database.groupOf _ other = some group ∧ d.accountOf uid = some account ∧ account.entry.name ∈ group.members) ↔ _
    rw [hgroups,Function.update_apply,Function.update_apply]
    by_cases hother : other = current.gid
    · rw [if_pos hother,if_pos hother]
      cases hnames : update.members with
      | some names =>
        have happlied : (update.applyTo current).members = names := by
          rw [GroupUpdate.applyTo,hnames]
          rfl
        constructor
        · rintro ⟨_,account,hgroup,haccount,hmem⟩
          cases hgroup
          exact ⟨account,haccount,happlied ▸ hmem⟩
        · rintro ⟨account,haccount,hmem⟩
          exact ⟨_,account,rfl,haccount,happlied.symm ▸ hmem⟩
      | none =>
        have happlied : (update.applyTo current).members = current.members := by
          rw [GroupUpdate.applyTo,hnames]
          rfl
        constructor
        · rintro ⟨_,account,hgroup,haccount,hmem⟩
          cases hgroup
          exact ⟨current,account,hcurrent,haccount,happlied ▸ hmem⟩
        · rintro ⟨group,account,hgroup,haccount,hmem⟩
          cases hcurrent.symm.trans hgroup
          exact ⟨_,account,rfl,haccount,happlied.symm ▸ hmem⟩
    · rw [if_neg hother,if_neg hother]
      rfl

/-- The members that a well-formed database has pass the check again. -/
theorem Database.WellFormed.accepts (hd : d.WellFormed) {group : GroupEntry} (hmem : group ∈ d.groups) :
    d.AcceptsMembers group.members := by
  refine ⟨(hd.groups group hmem).length,fun member hmember => ?_,hd.membersOnce group hmem⟩
  exact ⟨(hd.groups group hmem).members member hmember,hd.members group hmem member hmember⟩

private theorem performs_modifyGroup {D' : Directory} (h : hd.directory.Performs D' (.modifyGroup actor gid update)) :
    ∃ d', Database.modifyGroup actor gid update d = .ok () d' := by
  cases h with
  | modifyGroup name hadmin hcurrent hname hunused hmembers =>
    obtain ⟨current,hgroup,rfl⟩ := Option.map_eq_some_iff.mp hcurrent
    obtain ⟨index,hindex,hplace⟩ := groupOf_index.mp hgroup
    obtain rfl := groupOf_gid hgroup
    refine ⟨_,modifyGroup_eq_ok.mpr ⟨hadmin,index,current,hindex,hplace,hname,(directory_otherGroups hd hplace).mpr hunused,?_,rfl⟩⟩
    cases hnames : update.members with
    | none => exact hd.accepts (groupOf_mem hgroup)
    | some names => exact (directory_listsUsers hd).mp (hmembers names hnames)

theorem deleteGroup_eq_ok {u : Unit} : Database.deleteGroup actor gid d = .ok u d' ↔
    actor.hasCapability capAccountAdmin = true ∧ (∀ account ∈ d.accounts, account.entry.gid ≠ gid) ∧ ∃ index current,
      d.groups.findIdx? (fun group => group.gid == gid) = some index ∧ d.groups[index]? = some current ∧
      current.members = [] ∧ d' = { d with groups := d.groups.eraseIdx index } := by
  simp only [Database.deleteGroup,lift_bind_eq_ok,get_bind_eq_ok,refuse_bind_eq_ok,orRefuse_bind_eq_ok,set_eq_ok,
    requireAdmin_eq_ok,List.any_eq_false,beq_iff_eq,Bool.not_eq_eq_eq_not,Bool.not_false,List.isEmpty_iff]
  constructor
  · rintro ⟨_,hadmin,hunused,index,hindex,current,hcurrent,hempty,rfl⟩
    exact ⟨hadmin,hunused,index,current,hindex,hcurrent,hempty,rfl⟩
  · rintro ⟨hadmin,hunused,index,current,hindex,hcurrent,hempty,rfl⟩
    exact ⟨(),hadmin,hunused,index,hindex,current,hcurrent,hempty,rfl⟩

/-- A group has no members where its list is empty. -/
theorem directory_member_empty {group : GroupEntry} (hgroup : d.groupOf gid = some group) :
    hd.directory.member gid = ∅ ↔ group.members = [] := by
  constructor
  · intro hempty
    by_contra hne
    obtain ⟨member,hmember⟩ := List.exists_mem_of_ne_nil _ hne
    obtain ⟨account,haccount,hname⟩ := hd.members group (groupOf_mem hgroup) member hmember
    have hmem : account.entry.uid ∈ hd.directory.member gid :=
      ⟨group,account,hgroup,hd.accountOf_self haccount,hname.symm ▸ hmember⟩
    rw [hempty] at hmem
    exact hmem
  · intro hempty
    apply Set.eq_empty_of_forall_notMem
    rintro uid ⟨group',account,hgroup',_,hmember⟩
    cases hgroup.symm.trans hgroup'
    rw [hempty] at hmember
    cases hmember

theorem directory_primary : (∀ uid account, hd.directory.user uid = some account → account.entry.gid ≠ gid) ↔
    ∀ account ∈ d.accounts, account.entry.gid ≠ gid := by
  constructor
  · intro h account haccount
    exact h account.entry.uid account (hd.accountOf_self haccount)
  · intro h uid account haccount
    exact h account (accountOf_mem haccount)

private theorem deleteGroup_performs {u : Unit} (h : Database.deleteGroup actor gid d = .ok u d') :
    hd.directory.Performs hd'.directory (.deleteGroup actor gid) := by
  obtain ⟨hadmin,hunused,index,current,hindex,hplace,hempty,rfl⟩ := deleteGroup_eq_ok.mp h
  have hcurrent := groupOf_index.mpr ⟨index,hindex,hplace⟩
  obtain rfl := groupOf_gid hcurrent
  have hgroups : ∀ other, (Database.mk d.accounts (d.groups.eraseIdx index)).groupOf other =
      Function.update d.groupOf current.gid none other := fun other =>
    congrFun (@keyed_eraseIdx GroupEntry UInt32 _ (·.gid) d.groups current index hd.gids hplace) other
  have hnone := (directory_member_empty hd hcurrent).mpr hempty
  refine .deleteGroup hadmin ?_ ((directory_primary hd).mpr hunused) hnone rfl ?_ ?_
  · show (d.groupOf _).map _ ≠ _
    rw [hcurrent]
    exact Option.some_ne_none _
  · funext other
    show (Database.groupOf _ other).map _ = _
    rw [hgroups,Function.update_apply,Function.update_apply]
    split <;> rfl
  · funext other
    ext uid
    show (∃ group account, Database.groupOf _ other = some group ∧ d.accountOf uid = some account ∧ account.entry.name ∈ group.members) ↔ _
    rw [hgroups,Function.update_apply]
    by_cases hother : other = current.gid
    · subst hother
      rw [if_pos rfl,hnone]
      refine iff_of_false ?_ (Set.notMem_empty uid)
      rintro ⟨_,_,hgroup,_⟩
      cases hgroup
    · rw [if_neg hother]
      rfl

private theorem performs_deleteGroup {D' : Directory} (h : hd.directory.Performs D' (.deleteGroup actor gid)) :
    ∃ d', Database.deleteGroup actor gid d = .ok () d' := by
  cases h with
  | deleteGroup hadmin hcurrent hunused hempty =>
    obtain ⟨name,hname⟩ := Option.ne_none_iff_exists'.mp hcurrent
    obtain ⟨current,hgroup,rfl⟩ := Option.map_eq_some_iff.mp hname
    obtain ⟨index,hindex,hplace⟩ := groupOf_index.mp hgroup
    exact ⟨_,deleteGroup_eq_ok.mpr ⟨hadmin,(directory_primary hd).mp hunused,index,current,hindex,hplace,
      (directory_member_empty hd hgroup).mp hempty,rfl⟩⟩

end Groups

section Users
variable {actor : SessionCredentials} {d d' : Database} {spec : UserSpec} {update : UserUpdate} {uid : UInt32} {encoded : Text}
  {index : Nat} {account : Account}

/-- What both ways of creating a user check, and what they leave. -/
def Database.Creates (d : Database) (spec : UserSpec) (encoded : Text) (uid : UInt32) (d' : Database) : Prop :=
  d.accounts.length ≠ maxUsers ∧ (spec.name.ValidName ∧ ValidFlags spec.flags ∧ ValidCapabilities spec.capabilities ∧
    (∃ home, spec.home = some home ∧ home.ValidPath) ∧ ∃ shell, spec.shell = some shell ∧ shell.ValidPath) ∧
  (∀ account ∈ d.accounts, account.entry.name ≠ spec.name) ∧
  ((spec.uid.orElse fun _ => nextId (d.accounts.map (·.entry.uid))) = some uid ∧ uid ∉ d.accounts.map (·.entry.uid)) ∧
  ∃ gid, spec.primaryGid = some gid ∧ (∃ group ∈ d.groups, group.gid = gid) ∧ d.AcceptsGroupNames spec.supplementaryGroups ∧
    encoded.ValidHash ∧ (∀ group ∈ d.groups, group.name ∈ spec.supplementaryGroups → spec.name ∉ group.members →
      group.members.length ≠ maxUsers) ∧
    ∃ home shell, spec.home = some home ∧ spec.shell = some shell ∧
      d' = ⟨d.accounts ++ [⟨⟨spec.name,uid,gid,spec.flags,spec.capabilities,home,shell⟩,encoded⟩],
        d.groups.map (withMembership spec.name spec.supplementaryGroups)⟩

theorem createUser_eq_ok {password : Bytes} {hasher : PasswordHasher} :
    Database.createUser actor spec password hasher d = .ok uid d' ↔
      actor.hasCapability capAccountAdmin = true ∧ refuseBareRoot uid spec.capabilities = .ok () ∧
        ∃ encoded, hasher password = some encoded ∧ d.Creates spec encoded uid d' := by
  simp only [Database.createUser,Database.Creates,lift_bind_eq_ok,get_bind_eq_ok,refuse_bind_eq_ok,
    orRefuse_bind_eq_ok,set_bind_eq_ok,pure_eq_ok,validateUserFields_eq_ok,encodePassword_eq_ok,requireAdmin_eq_ok,
    setMembership_eq_ok,validateGroupNames_eq_ok,List.any_eq_false,beq_iff_eq,beq_eq_false_iff_ne,
    Bool.not_eq_eq_eq_not,Bool.not_false,List.any_eq_true,List.mem_map,not_exists,not_and]
  constructor
  · rintro ⟨_,hadmin,hroom,_,hvalid,hunused,uid',hchosen,hfree,_,hroot,gid,hgid,hprimary,_,hgroups,_,_,encoded,
      ⟨hhash,hvalidHash⟩,_,⟨rfl,hfull⟩,home,hhome,shell,hshell,rfl,rfl⟩
    exact ⟨hadmin,hroot,encoded,hhash,hroom,hvalid,hunused,⟨hchosen,hfree⟩,gid,hgid,hprimary,hgroups,hvalidHash,hfull,
      home,shell,hhome,hshell,rfl⟩
  · rintro ⟨hadmin,hroot,encoded,hhash,hroom,hvalid,hunused,⟨hchosen,hfree⟩,gid,hgid,hprimary,hgroups,hvalidHash,hfull,
      home,shell,hhome,hshell,rfl⟩
    exact ⟨(),hadmin,hroom,(),hvalid,hunused,uid,hchosen,hfree,(),hroot,gid,hgid,hprimary,(),hgroups,(),hroot,encoded,
      ⟨hhash,hvalidHash⟩,_,⟨rfl,hfull⟩,home,hhome,shell,hshell,rfl,rfl⟩

private theorem createUserWithHash_eq_ok :
    Database.createUserWithHash actor spec encoded d = .ok uid d' ↔
      actor.hasCapability capAccountAdmin = true ∧ d.Creates spec encoded uid d' := by
  simp only [Database.createUserWithHash,Database.Creates,lift_bind_eq_ok,get_bind_eq_ok,refuse_bind_eq_ok,
    orRefuse_bind_eq_ok,set_bind_eq_ok,pure_eq_ok,validateUserFields_eq_ok,checkHash_eq_ok,requireAdmin_eq_ok,
    setMembership_eq_ok,validateGroupNames_eq_ok,List.any_eq_false,beq_iff_eq,beq_eq_false_iff_ne,
    Bool.not_eq_eq_eq_not,Bool.not_false,List.any_eq_true,List.mem_map,not_exists,not_and]
  constructor
  · rintro ⟨_,hadmin,hroom,_,hvalid,hunused,uid',hchosen,hfree,gid,hgid,hprimary,_,hgroups,_,
      ⟨rfl,hvalidHash⟩,_,⟨rfl,hfull⟩,home,hhome,shell,hshell,rfl,rfl⟩
    exact ⟨hadmin,hroom,hvalid,hunused,⟨hchosen,hfree⟩,gid,hgid,hprimary,hgroups,hvalidHash,hfull,home,shell,hhome,hshell,rfl⟩
  · rintro ⟨hadmin,hroom,hvalid,hunused,⟨hchosen,hfree⟩,gid,hgid,hprimary,hgroups,hvalidHash,hfull,home,shell,hhome,hshell,rfl⟩
    exact ⟨(),hadmin,hroom,(),hvalid,hunused,uid,hchosen,hfree,gid,hgid,hprimary,(),hgroups,encoded,
      ⟨rfl,hvalidHash⟩,_,⟨rfl,hfull⟩,home,hhome,shell,hshell,rfl,rfl⟩

theorem createLockedUser_eq_ok :
    Database.createLockedUser actor spec d = .ok uid d' ↔ actor.hasCapability capAccountAdmin = true ∧
      d.Creates { spec with flags := spec.flags ||| flagLocked } lockedPasswordHash uid d' := by
  unfold Database.createLockedUser
  rw [lift_bind_eq_ok]
  simp only [requireAdmin_eq_ok,createUserWithHash_eq_ok]
  constructor
  · rintro ⟨_,hadmin,_,hcreates⟩
    exact ⟨hadmin,hcreates⟩
  · rintro ⟨hadmin,hcreates⟩
    exact ⟨(),hadmin,hadmin,hcreates⟩

variable (hd : d.WellFormed) (hd' : d'.WellFormed)

theorem directory_groupNamed {names : List Text} {gid : UInt32} :
    gid ∈ hd.directory.groupsNamed names ↔ ∃ group, d.groupOf gid = some group ∧ group.name ∈ names := by
  constructor
  · rintro ⟨_,hname,hgroup⟩
    obtain ⟨group,hfound,rfl⟩ := Option.map_eq_some_iff.mp hgroup
    exact ⟨group,hfound,hname⟩
  · rintro ⟨group,hgroup,hname⟩
    exact ⟨group.name,hname,Option.map_eq_some_iff.mpr ⟨group,hgroup,rfl⟩⟩

/-- A created user, in terms of the directory. -/
theorem creates_welcomes (h : d.Creates spec encoded uid d') :
    ∃ account, account.entry.uid = uid ∧ account.passwordHash = encoded ∧ encoded.ValidHash ∧
      hd.directory.Welcomes spec account.entry ∧ hd.directory.Adds account spec.supplementaryGroups hd'.directory := by
  obtain ⟨hroom,⟨hname,hflags,hcapabilities,⟨home',hhome',hvalidHome⟩,shell',hshell',hvalidShell⟩,hunused,hchosen,gid,hgid,
    ⟨group,hgroup,rfl⟩,hgroups,hhash,_,home,shell,hhome,hshell,rfl⟩ := h
  obtain rfl := Option.some.inj (hhome'.symm.trans hhome)
  obtain rfl := Option.some.inj (hshell'.symm.trans hshell)
  have hfresh : ∀ account ∈ d.accounts, account.entry.uid ≠ uid := fun account haccount heq =>
    hchosen.2 (List.mem_map.mpr ⟨account,haccount,heq⟩)
  have hnone : d.accountOf uid = none := (directory_free hd).mpr hchosen.2
  have huser := @keyed_append Account UInt32 _ (·.entry.uid) d.accounts
    ⟨⟨spec.name,uid,group.gid,spec.flags,spec.capabilities,home',shell'⟩,encoded⟩ hfresh
  have hmap : ∀ gid, Database.groupOf
      (Database.mk (d.accounts ++ [⟨⟨spec.name,uid,group.gid,spec.flags,spec.capabilities,home',shell'⟩,encoded⟩])
        (d.groups.map (withMembership spec.name spec.supplementaryGroups))) gid =
      (d.groupOf gid).map (withMembership spec.name spec.supplementaryGroups) := fun gid =>
    @keyed_map GroupEntry UInt32 _ (·.gid) (withMembership spec.name spec.supplementaryGroups) (fun _ => rfl) d.groups gid
  refine ⟨⟨⟨spec.name,uid,group.gid,spec.flags,spec.capabilities,home',shell'⟩,encoded⟩,rfl,rfl,hhash,?_,?_⟩
  · refine ⟨?_,⟨rfl,hname⟩,⟨rfl,hflags⟩,⟨rfl,hcapabilities⟩,⟨hhome',hvalidHome⟩,⟨hshell',hvalidShell⟩,
      (directory_unusedName hd).mpr hunused,?_,⟨hgid,?_⟩,(directory_listsGroups hd).mpr hgroups⟩
    · rw [directory_users_ncard]
      exact hroom
    · exact (Chosen.congr fun _ => directory_free hd).mpr (chosen_iff.mp hchosen)
    · rw [(directory_group hd).mpr ⟨group,hgroup,rfl,rfl⟩]
      exact Option.some_ne_none _
  · refine ⟨huser,?_,?_⟩
    · funext gid
      show (Database.groupOf _ gid).map _ = (d.groupOf gid).map _
      rw [hmap,Option.map_map]
      rfl
    · funext gid
      ext other
      show (∃ after account, Database.groupOf _ gid = some after ∧ Database.accountOf _ other = some account ∧
        account.entry.name ∈ after.members) ↔ other ∈ hd.directory.member gid ∨ other = uid ∧ gid ∈ hd.directory.groupsNamed _
      have haccount : ∀ other, Database.accountOf (Database.mk (d.accounts ++
          [⟨⟨spec.name,uid,group.gid,spec.flags,spec.capabilities,home',shell'⟩,encoded⟩])
          (d.groups.map (withMembership spec.name spec.supplementaryGroups))) other =
          Function.update d.accountOf uid (some ⟨⟨spec.name,uid,group.gid,spec.flags,spec.capabilities,home',shell'⟩,encoded⟩) other :=
        fun other => congrFun huser other
      rw [hmap,haccount,directory_groupNamed,Function.update_apply]
      by_cases hother : other = uid
      · subst hother
        have hnot : ¬ other ∈ hd.directory.member gid := fun hmem => (hd.directory.members hmem).2 hnone
        rw [if_pos rfl,or_iff_right hnot,and_iff_right rfl]
        constructor
        · rintro ⟨_,_,hafter,haccount,hmem⟩
          obtain ⟨before,hbefore,rfl⟩ := Option.map_eq_some_iff.mp hafter
          cases haccount
          rcases mem_withMembership.mp hmem with ⟨_,hne⟩ | ⟨_,hlisted⟩
          · exact absurd rfl hne
          · exact ⟨before,hbefore,hlisted⟩
        · rintro ⟨before,hbefore,hlisted⟩
          rw [hbefore]
          exact ⟨_,_,rfl,rfl,mem_withMembership.mpr (.inr ⟨rfl,hlisted⟩)⟩
      · rw [if_neg hother,or_iff_left fun h => hother h.1]
        constructor
        · rintro ⟨_,account,hafter,haccount,hmem⟩
          obtain ⟨before,hbefore,rfl⟩ := Option.map_eq_some_iff.mp hafter
          have hne := hunused account (accountOf_mem haccount)
          rcases mem_withMembership.mp hmem with ⟨hmem,_⟩ | ⟨heq,_⟩
          · exact ⟨before,account,hbefore,haccount,hmem⟩
          · exact absurd heq hne
        · rintro ⟨before,account,hbefore,haccount,hmem⟩
          rw [hbefore]
          exact ⟨_,account,rfl,haccount,mem_withMembership.mpr (.inl ⟨hmem,hunused account (accountOf_mem haccount)⟩)⟩

/-- No list is full while there is room for a user: it holds each user at most once. -/
theorem Database.WellFormed.members_length (hd : d.WellFormed) {group : GroupEntry} (hgroup : group ∈ d.groups) :
    group.members.length ≤ d.accounts.length := by
  have hsub : group.members ⊆ d.accounts.map (·.entry.name) := fun member hmember =>
    List.mem_map.mpr (hd.members group hgroup member hmember)
  have hlength := (List.subperm_of_subset (hd.membersOnce group hgroup) hsub).length_le
  rwa [List.length_map] at hlength

theorem welcomes_creates {entry : UserEntry} (h : hd.directory.Welcomes spec entry) (hhash : encoded.ValidHash) :
    ∃ d', d.Creates spec encoded entry.uid d' := by
  obtain ⟨hroom,⟨hname,hvalidName⟩,⟨hflags,hvalidFlags⟩,⟨hcaps,hvalidCaps⟩,⟨hhome,hvalidHome⟩,⟨hshell,hvalidShell⟩,hunused,
    hchosen,⟨hgid,hprimary⟩,hgroups⟩ := h
  rw [directory_users_ncard] at hroom
  obtain ⟨name,hgroup⟩ := Option.ne_none_iff_exists'.mp hprimary
  obtain ⟨group,hmem,heq,_⟩ := (directory_group hd).mp hgroup
  refine ⟨_,hroom,⟨hname ▸ hvalidName,hflags ▸ hvalidFlags,hcaps ▸ hvalidCaps,⟨_,hhome,hvalidHome⟩,_,hshell,hvalidShell⟩,?_,?_,
    entry.gid,hgid,⟨group,hmem,heq⟩,(directory_listsGroups hd).mp hgroups,hhash,?_,_,_,hhome,hshell,rfl⟩
  · rw [← hname]
    exact (directory_unusedName hd).mp hunused
  · exact chosen_iff.mpr ((Chosen.congr fun _ => directory_free hd).mp hchosen)
  · intro group hgroup _ _
    have hlength := hd.members_length hgroup
    have hlimit := hd.accountLimit
    omega

private theorem createUser_performs {password : Bytes} {hasher : PasswordHasher}
    (h : Database.createUser actor spec password hasher d = .ok uid d') :
    hd.directory.Performs hd'.directory (.createUser actor spec password hasher) := by
  obtain ⟨hadmin,hroot,encoded,hhash,hcreates⟩ := createUser_eq_ok.mp h
  obtain ⟨account,rfl,rfl,hvalid,hwelcome,hadds⟩ := creates_welcomes hd hd' hcreates
  refine .createUser account hadmin hwelcome (fun hzero hbare => ?_) ⟨hhash,hvalid⟩ hadds
  rw [hwelcome.capabilities.1] at hbare
  rw [refuseBareRoot,hzero,hbare] at hroot
  cases hroot

private theorem performs_createUser {password : Bytes} {hasher : PasswordHasher} {D' : Directory}
    (h : hd.directory.Performs D' (.createUser actor spec password hasher)) :
    ∃ uid d', Database.createUser actor spec password hasher d = .ok uid d' := by
  cases h with
  | createUser account hadmin hwelcome hroot hhash =>
    obtain ⟨d',hcreates⟩ := welcomes_creates hd hwelcome hhash.2
    refine ⟨_,d',createUser_eq_ok.mpr ⟨hadmin,?_,_,hhash.1,hcreates⟩⟩
    rw [refuseBareRoot,reject_eq_ok,← hwelcome.capabilities.1]
    by_cases hzero : account.entry.uid = 0
    · have hne := hroot hzero
      simp [hne]
    · simp [hzero]

private theorem createLockedUser_performs (h : Database.createLockedUser actor spec d = .ok uid d') :
    hd.directory.Performs hd'.directory (.createLockedUser actor spec) := by
  obtain ⟨hadmin,hcreates⟩ := createLockedUser_eq_ok.mp h
  obtain ⟨account,_,hhash,_,hwelcome,hadds⟩ := creates_welcomes hd hd' hcreates
  exact .createLockedUser account hadmin hwelcome hhash hadds

private theorem performs_createLockedUser {D' : Directory} (h : hd.directory.Performs D' (.createLockedUser actor spec)) :
    ∃ uid d', Database.createLockedUser actor spec d = .ok uid d' := by
  cases h with
  | createLockedUser account hadmin hwelcome hhash =>
    have hvalid : lockedPasswordHash.ValidHash := (checkHash_eq_ok.mp checkHash_locked).2
    obtain ⟨d',hcreates⟩ := welcomes_creates hd hwelcome hvalid
    exact ⟨_,d',createLockedUser_eq_ok.mpr ⟨hadmin,hcreates⟩⟩

theorem modifyUser_eq_ok {u : Unit} : Database.modifyUser actor uid update d = .ok u d' ↔
    actor.hasCapability capAccountAdmin = true ∧ ∃ index account groups,
      d.accounts.findIdx? (fun account => account.entry.uid == uid) = some index ∧ d.accounts[index]? = some account ∧
      ((update.applyTo account.entry).name.ValidName ∧ ValidFlags (update.applyTo account.entry).flags ∧
        ValidCapabilities (update.applyTo account.entry).capabilities ∧ (update.applyTo account.entry).home.ValidPath ∧
        (update.applyTo account.entry).shell.ValidPath) ∧
      (∀ other ∈ d.accounts.eraseIdx index, other.entry.name ≠ (update.applyTo account.entry).name) ∧
      (∀ gid, update.primaryGid = some gid → ∃ group ∈ d.groups, group.gid = gid) ∧
      (∀ names, update.supplementaryGroups = some names → d.AcceptsGroupNames names) ∧
      regroup d.groups account.entry.name (update.applyTo account.entry).name update.supplementaryGroups = .ok groups ∧
      d' = ⟨d.accounts.set index { account with entry := update.applyTo account.entry },groups⟩ := by
  simp only [Database.modifyUser,lift_bind_eq_ok,get_bind_eq_ok,refuse_bind_eq_ok,orRefuse_bind_eq_ok,set_eq_ok,
    requireAdmin_eq_ok,validateUserFields_eq_ok,List.any_eq_false,beq_iff_eq,Option.some.injEq]
  constructor
  · rintro ⟨_,hadmin,index,hindex,account,hplace,_,⟨hname,hflags,hcaps,⟨_,rfl,hhome⟩,_,rfl,hshell⟩,hunused,_,hgid,_,hnames,
      groups,hregroup,rfl⟩
    refine ⟨hadmin,index,account,groups,hindex,hplace,⟨hname,hflags,hcaps,hhome,hshell⟩,hunused,fun gid hprimary => ?_,
      fun names hlisted => ?_,hregroup,rfl⟩
    · rw [hprimary] at hgid
      simpa using hgid
    · rw [hlisted] at hnames
      exact validateGroupNames_eq_ok.mp hnames
  · rintro ⟨hadmin,index,account,groups,hindex,hplace,⟨hname,hflags,hcaps,hhome,hshell⟩,hunused,hgid,hnames,hregroup,rfl⟩
    refine ⟨(),hadmin,index,hindex,account,hplace,(),⟨hname,hflags,hcaps,⟨_,rfl,hhome⟩,_,rfl,hshell⟩,hunused,(),?_,(),
      ?_,groups,hregroup,rfl⟩
    · cases hprimary : update.primaryGid with
      | none => rfl
      | some gid => simpa using hgid gid hprimary
    · cases hlisted : update.supplementaryGroups with
      | none => rfl
      | some names => exact validateGroupNames_eq_ok.mpr (hnames names hlisted)

/-- The other users, by place and by id. -/
theorem directory_otherUsers (hplace : d.accounts[index]? = some account) {name : Text} :
    (∀ other ∈ d.accounts.eraseIdx index, other.entry.name ≠ name) ↔
      ∀ other another, other ≠ account.entry.uid → hd.directory.user other = some another → another.entry.name ≠ name := by
  constructor
  · intro h other another hother hanother
    refine h another ((mem_eraseIdx_keyed hd.uids hplace).mpr ⟨accountOf_mem hanother,?_⟩)
    rwa [accountOf_uid hanother]
  · intro h other hmem
    obtain ⟨hmem,hne⟩ := (mem_eraseIdx_keyed hd.uids hplace).mp hmem
    exact h other.entry.uid other hne (hd.accountOf_self hmem)

/-- Who is in a group after a regrouping. Nobody else has the new name, so no list shows it. -/
theorem regroup_members (hd : d.WellFormed) {oldName newName : Text} {supplementary : Option (List Text)} {groups : List GroupEntry}
    (hold : oldName.ValidName) (hnew : newName.ValidName) (hplace : d.accounts[index]? = some account)
    (hname : account.entry.name = oldName) (hunused : ∀ other ∈ d.accounts.eraseIdx index, other.entry.name ≠ newName)
    (h : regroup d.groups oldName newName supplementary = .ok groups) :
    ∃ f : GroupEntry → GroupEntry, groups = d.groups.map f ∧ (∀ group, (f group).name = group.name ∧ (f group).gid = group.gid) ∧
      ∀ group ∈ d.groups,
        (newName ∈ (f group).members ↔ (supplementary.map fun names => group.name ∈ names).getD (oldName ∈ group.members)) ∧
        ∀ member, member ≠ oldName → member ≠ newName → (member ∈ (f group).members ↔ member ∈ group.members) := by
  obtain ⟨f,rfl,hkeep,_⟩ := regroup_ok hold hnew hd.groups h
  have hfresh : supplementary = none → ∀ group ∈ d.groups, newName ∈ group.members → oldName ∈ group.members := by
    intro _ group hgroup hmember
    obtain ⟨other,hother,heq⟩ := hd.members group hgroup newName hmember
    rcases mem_eraseIdx_or_eq hplace hother with rfl | hother
    · rwa [← hname,heq]
    · exact absurd heq (hunused other hother)
  have hlawful := (@regroup_lawful_iff _ _ ⟨oldName,newName,supplementary⟩ h).mpr hfresh
  rw [List.forall₂_map_right_iff,List.forall₂_same] at hlawful
  refine ⟨f,rfl,hkeep,fun group hgroup => ⟨?_,fun member hold hnew => ?_⟩⟩
  · rw [(hlawful group hgroup).granted]
    cases supplementary <;> rfl
  · have hothers := (hlawful group hgroup).others
    have hiff : ∀ l : List Text, member ∈ MembershipRequest.others ⟨oldName,newName,supplementary⟩ l ↔ member ∈ l := by
      intro l
      simp [MembershipRequest.others,hold,hnew]
    rw [← hiff,hothers,hiff]

private theorem modifyUser_performs {u : Unit} (h : Database.modifyUser actor uid update d = .ok u d') :
    hd.directory.Performs hd'.directory (.modifyUser actor uid update) := by
  obtain ⟨hadmin,index,account,groups,hindex,hplace,hvalid,hunused,hgid,hnames,hregroup,rfl⟩ := modifyUser_eq_ok.mp h
  have hcurrent := accountOf_index.mpr ⟨index,hindex,hplace⟩
  obtain rfl := accountOf_uid hcurrent
  have hold := (hd.accounts account (accountOf_mem hcurrent)).name
  obtain ⟨f,rfl,hkeep,hmembers⟩ := regroup_members hd hold hvalid.1 hplace rfl hunused hregroup
  have huser := @keyed_set Account UInt32 _ (·.entry.uid) d.accounts account { account with entry := update.applyTo account.entry }
    index hd.uids hplace rfl
  have hmap : ∀ gid, Database.groupOf (Database.mk (d.accounts.set index { account with entry := update.applyTo account.entry })
      (d.groups.map f)) gid = (d.groupOf gid).map f := fun gid =>
    @keyed_map GroupEntry UInt32 _ (·.gid) f (fun group => (hkeep group).2) d.groups gid
  refine .modifyUser account hadmin hcurrent hvalid ((directory_otherUsers hd hplace).mp hunused) ?_ ?_ huser ?_ ?_
  · intro gid hprimary
    obtain ⟨group,hgroup,rfl⟩ := hgid gid hprimary
    rw [(directory_group hd).mpr ⟨group,hgroup,rfl,rfl⟩]
    exact Option.some_ne_none _
  · intro names hlisted
    exact (directory_listsGroups hd).mpr (hnames names hlisted)
  · funext gid
    show (Database.groupOf _ gid).map _ = (d.groupOf gid).map _
    rw [hmap,Option.map_map]
    exact congrArg (fun name => Option.map name (d.groupOf gid)) (funext fun group => (hkeep group).1)
  · funext gid
    ext other
    show (∃ after another, Database.groupOf _ gid = some after ∧ Database.accountOf _ other = some another ∧
      another.entry.name ∈ after.members) ↔ other ≠ account.entry.uid ∧ other ∈ hd.directory.member gid ∨
        other = account.entry.uid ∧ (update.supplementaryGroups.map fun names => gid ∈ hd.directory.groupsNamed names).getD
          (account.entry.uid ∈ hd.directory.member gid)
    have haccount : ∀ other, Database.accountOf (Database.mk (d.accounts.set index { account with entry := update.applyTo account.entry })
        (d.groups.map f)) other = Function.update d.accountOf account.entry.uid
          (some { account with entry := update.applyTo account.entry }) other := fun other => congrFun huser other
    rw [hmap,haccount,Function.update_apply]
    by_cases hother : other = account.entry.uid
    · rw [if_pos hother,or_iff_right fun h => h.1 hother,and_iff_right hother]
      have hgranted : ∀ group, d.groupOf gid = some group →
          ((update.applyTo account.entry).name ∈ (f group).members ↔
            (update.supplementaryGroups.map fun names => gid ∈ hd.directory.groupsNamed names).getD
              (account.entry.uid ∈ hd.directory.member gid)) := by
        intro group hgroup
        rw [(hmembers group (groupOf_mem hgroup)).1]
        cases hsupplementary : update.supplementaryGroups with
        | some names =>
          show group.name ∈ names ↔ gid ∈ hd.directory.groupsNamed names
          rw [directory_groupNamed,hgroup]
          exact ⟨fun h => ⟨group,rfl,h⟩,fun ⟨_,heq,h⟩ => Option.some.inj heq ▸ h⟩
        | none =>
          show account.entry.name ∈ group.members ↔ account.entry.uid ∈ hd.directory.member gid
          constructor
          · intro hmember
            exact ⟨group,account,hgroup,hcurrent,hmember⟩
          · rintro ⟨_,_,hgroup',hcurrent',hmember⟩
            cases hgroup.symm.trans hgroup'
            cases hcurrent.symm.trans hcurrent'
            exact hmember
      have hsome : (update.supplementaryGroups.map fun names => gid ∈ hd.directory.groupsNamed names).getD
          (account.entry.uid ∈ hd.directory.member gid) → ∃ group, d.groupOf gid = some group := by
        cases update.supplementaryGroups with
        | some names =>
          intro hmem
          obtain ⟨group,hgroup,_⟩ := (directory_groupNamed hd).mp hmem
          exact ⟨group,hgroup⟩
        | none =>
          rintro ⟨group,_,hgroup,_⟩
          exact ⟨group,hgroup⟩
      constructor
      · rintro ⟨_,_,hafter,heq,hmember⟩
        obtain ⟨group,hgroup,rfl⟩ := Option.map_eq_some_iff.mp hafter
        cases heq
        exact (hgranted group hgroup).mp hmember
      · intro hmem
        obtain ⟨group,hgroup⟩ := hsome hmem
        rw [hgroup]
        exact ⟨_,_,rfl,rfl,(hgranted group hgroup).mpr hmem⟩
    · rw [if_neg hother,or_iff_left fun h => hother h.1,and_iff_right hother]
      have hsame : ∀ group another, d.groupOf gid = some group → d.accountOf other = some another →
          (another.entry.name ∈ (f group).members ↔ another.entry.name ∈ group.members) := by
        intro group another hgroup hanother
        refine (hmembers group (groupOf_mem hgroup)).2 _ (fun heq => hother ?_) ?_
        · exact hd.directory.userNames hanother hcurrent heq
        · exact (directory_otherUsers hd hplace).mp hunused other another hother hanother
      constructor
      · rintro ⟨_,another,hafter,hanother,hmember⟩
        obtain ⟨group,hgroup,rfl⟩ := Option.map_eq_some_iff.mp hafter
        exact ⟨group,another,hgroup,hanother,(hsame group another hgroup hanother).mp hmember⟩
      · rintro ⟨group,another,hgroup,hanother,hmember⟩
        rw [hgroup]
        exact ⟨_,another,rfl,hanother,(hsame group another hgroup hanother).mpr hmember⟩

/-- A list without the user has room for him: it holds each of the others at most once. -/
theorem setMembership_room (hd : d.WellFormed) (hplace : d.accounts[index]? = some account) {groups : List GroupEntry}
    {user : Text} {names : List Text} (hgroups : ∀ group ∈ groups, group.members.Nodup ∧
      ∀ member ∈ group.members, ∃ other ∈ d.accounts.eraseIdx index, other.entry.name = member) :
    setMembership groups user names = .ok (groups.map (withMembership user names)) := by
  refine setMembership_eq_ok.mpr ⟨rfl,fun group hgroup _ _ hfull => ?_⟩
  obtain ⟨honce,hothers⟩ := hgroups group hgroup
  have hsub : group.members ⊆ (d.accounts.eraseIdx index).map (·.entry.name) := fun member hmember =>
    List.mem_map.mpr (hothers member hmember)
  have hlength := (List.subperm_of_subset honce hsub).length_le
  obtain ⟨hlt,_⟩ := List.getElem?_eq_some_iff.mp hplace
  have hlimit := hd.accountLimit
  rw [List.length_map,List.length_eraseIdx_of_lt hlt] at hlength
  omega

/-- A regrouping of a user is never refused. -/
theorem regroup_accepts (hd : d.WellFormed) (hplace : d.accounts[index]? = some account) {newName : Text}
    (supplementary : Option (List Text)) :
    ∃ groups, regroup d.groups account.entry.name newName supplementary = .ok groups := by
  cases supplementary with
  | none => exact ⟨_,rfl⟩
  | some names =>
    have hcleared : setMembership d.groups account.entry.name [] = .ok (d.groups.map (withMembership account.entry.name [])) :=
      setMembership_eq_ok.mpr ⟨rfl,fun _ _ h => by cases h⟩
    refine ⟨_,except_bind_eq_ok.mpr ⟨_,hcleared,setMembership_room hd hplace ?_⟩⟩
    intro group hgroup
    obtain ⟨before,hbefore,rfl⟩ := List.mem_map.mp hgroup
    refine ⟨withMembership_nodup (hd.membersOnce before hbefore),fun member hmember => ?_⟩
    rcases mem_withMembership.mp hmember with ⟨hmember,hne⟩ | ⟨_,hlisted⟩
    · obtain ⟨other,hother,rfl⟩ := hd.members before hbefore member hmember
      rcases mem_eraseIdx_or_eq hplace hother with rfl | hother
      · exact absurd rfl hne
      · exact ⟨other,hother,rfl⟩
    · cases hlisted

private theorem performs_modifyUser {D' : Directory} (h : hd.directory.Performs D' (.modifyUser actor uid update)) :
    ∃ d', Database.modifyUser actor uid update d = .ok () d' := by
  cases h with
  | modifyUser account hadmin hcurrent hvalid hunused hprimary hnames =>
    obtain ⟨index,hindex,hplace⟩ := accountOf_index.mp hcurrent
    obtain rfl := accountOf_uid hcurrent
    obtain ⟨groups,hregroup⟩ := @regroup_accepts d index account hd hplace (update.applyTo account.entry).name update.supplementaryGroups
    refine ⟨_,modifyUser_eq_ok.mpr ⟨hadmin,index,account,groups,hindex,hplace,hvalid,(directory_otherUsers hd hplace).mpr hunused,
      ?_,fun names hlisted => (directory_listsGroups hd).mp (hnames names hlisted),hregroup,rfl⟩⟩
    intro gid hgid
    obtain ⟨name,hgroup⟩ := Option.ne_none_iff_exists'.mp (hprimary gid hgid)
    obtain ⟨group,hmem,heq,_⟩ := (directory_group hd).mp hgroup
    exact ⟨group,hmem,heq⟩

theorem deleteUser_eq_ok {u : Unit} : Database.deleteUser actor uid d = .ok u d' ↔
    actor.hasCapability capAccountAdmin = true ∧ uid ≠ actor.effectiveUid ∧ uid ≠ 0 ∧ ∃ index account,
      d.accounts.findIdx? (fun account => account.entry.uid == uid) = some index ∧ d.accounts[index]? = some account ∧
      d' = ⟨d.accounts.eraseIdx index,d.groups.map fun group =>
        { group with members := group.members.filter fun member => member != account.entry.name }⟩ := by
  simp only [Database.deleteUser,lift_bind_eq_ok,get_bind_eq_ok,refuse_bind_eq_ok,orRefuse_bind_eq_ok,set_eq_ok,
    requireAdmin_eq_ok,Bool.or_eq_false_iff,beq_eq_false_iff_ne]
  constructor
  · rintro ⟨_,hadmin,index,hindex,⟨hother,hroot⟩,account,hplace,rfl⟩
    exact ⟨hadmin,hother,hroot,index,account,hindex,hplace,rfl⟩
  · rintro ⟨hadmin,hother,hroot,index,account,hindex,hplace,rfl⟩
    exact ⟨(),hadmin,index,hindex,⟨hother,hroot⟩,account,hplace,rfl⟩

private theorem deleteUser_performs {u : Unit} (h : Database.deleteUser actor uid d = .ok u d') :
    hd.directory.Performs hd'.directory (.deleteUser actor uid) := by
  obtain ⟨hadmin,hother,hroot,index,account,hindex,hplace,rfl⟩ := deleteUser_eq_ok.mp h
  have hcurrent := accountOf_index.mpr ⟨index,hindex,hplace⟩
  obtain rfl := accountOf_uid hcurrent
  have huser := @keyed_eraseIdx Account UInt32 _ (·.entry.uid) d.accounts account index hd.uids hplace
  have hmap : ∀ gid, Database.groupOf (Database.mk (d.accounts.eraseIdx index) (d.groups.map fun group =>
      { group with members := group.members.filter fun member => member != account.entry.name })) gid =
      (d.groupOf gid).map fun group => { group with members := group.members.filter fun member => member != account.entry.name } :=
    fun gid => @keyed_map GroupEntry UInt32 _ (·.gid) (fun group =>
      { group with members := group.members.filter fun member => member != account.entry.name }) (fun _ => rfl) d.groups gid
  refine .deleteUser hadmin ?_ hother hroot huser ?_ ?_
  · show d.accountOf _ ≠ none
    rw [hcurrent]
    exact Option.some_ne_none _
  · funext gid
    show (Database.groupOf _ gid).map _ = (d.groupOf gid).map _
    rw [hmap,Option.map_map]
    rfl
  · funext gid
    ext other
    show (∃ after another, Database.groupOf _ gid = some after ∧ Database.accountOf _ other = some another ∧
      another.entry.name ∈ after.members) ↔ other ∈ hd.directory.member gid ∧ other ≠ account.entry.uid
    have haccount : ∀ other, Database.accountOf (Database.mk (d.accounts.eraseIdx index) (d.groups.map fun group =>
        { group with members := group.members.filter fun member => member != account.entry.name })) other =
        Function.update d.accountOf account.entry.uid none other := fun other => congrFun huser other
    rw [hmap,haccount,Function.update_apply]
    by_cases hsame : other = account.entry.uid
    · rw [if_pos hsame]
      refine iff_of_false ?_ fun h => h.2 hsame
      rintro ⟨_,_,_,hnone,_⟩
      cases hnone
    · rw [if_neg hsame,and_iff_left hsame]
      constructor
      · rintro ⟨_,another,hafter,hanother,hmember⟩
        obtain ⟨group,hgroup,rfl⟩ := Option.map_eq_some_iff.mp hafter
        exact ⟨group,another,hgroup,hanother,(List.mem_filter.mp hmember).1⟩
      · rintro ⟨group,another,hgroup,hanother,hmember⟩
        rw [hgroup]
        refine ⟨_,another,rfl,hanother,List.mem_filter.mpr ⟨hmember,bne_iff_ne.mpr fun heq => hsame ?_⟩⟩
        exact hd.directory.userNames hanother hcurrent heq

private theorem performs_deleteUser {D' : Directory} (h : hd.directory.Performs D' (.deleteUser actor uid)) :
    ∃ d', Database.deleteUser actor uid d = .ok () d' := by
  cases h with
  | deleteUser hadmin hcurrent hother hroot =>
    obtain ⟨account,haccount⟩ := Option.ne_none_iff_exists'.mp hcurrent
    obtain ⟨index,hindex,hplace⟩ := accountOf_index.mp haccount
    exact ⟨_,deleteUser_eq_ok.mpr ⟨hadmin,hother,hroot,index,account,hindex,hplace,rfl⟩⟩

/-- Another account in the same place, under the same id and name. -/
theorem rewrites_place (hplace : d.accounts[index]? = some account) (account' : Account) (huid : account'.entry.uid = account.entry.uid)
    (hname : account'.entry.name = account.entry.name) (hd' : (Database.mk (d.accounts.set index account') d.groups).WellFormed) :
    hd.directory.Rewrites account' hd'.directory := by
  have huser := @keyed_set Account UInt32 _ (·.entry.uid) d.accounts account account' index hd.uids hplace huid
  refine ⟨?_,rfl,?_⟩
  · rw [huid]
    exact huser
  · funext gid
    ext other
    show (∃ group another, d.groupOf gid = some group ∧ Database.accountOf _ other = some another ∧
      another.entry.name ∈ group.members) ↔ ∃ group another, d.groupOf gid = some group ∧ d.accountOf other = some another ∧
      another.entry.name ∈ group.members
    have haccount : ∀ other, Database.accountOf (Database.mk (d.accounts.set index account') d.groups) other =
        Function.update d.accountOf account.entry.uid (some account') other := fun other => congrFun huser other
    rw [haccount,Function.update_apply]
    by_cases hother : other = account.entry.uid
    · rw [if_pos hother,hother,hd.accountOf_place hplace]
      constructor
      · rintro ⟨group,_,hgroup,heq,hmember⟩
        cases heq
        exact ⟨group,account,hgroup,rfl,hname ▸ hmember⟩
      · rintro ⟨group,_,hgroup,heq,hmember⟩
        cases heq
        exact ⟨group,account',hgroup,rfl,hname.symm ▸ hmember⟩
    · rw [if_neg hother]

variable {oldPassword : Option Bytes} {newPassword confirmation : Bytes} {policy : PasswordPolicy} {verifier : PasswordVerifier}
  {hasher : PasswordHasher}

private theorem checkOldPassword_eq_ok {u : Unit} : checkOldPassword verifier account oldPassword = .ok u ↔
    account.entry.flags &&& (flagDisabled ||| flagLocked) = 0 ∧
      ∃ password, oldPassword = some password ∧ verifier password account.passwordHash.bytes = true := by
  simp only [checkOldPassword,except_bind_eq_ok,reject_eq_ok,needed_eq_ok,bne_eq_false_iff_eq,Bool.not_eq_false']
  constructor
  · rintro ⟨_,hflags,password,hpassword,hverify⟩
    exact ⟨hflags,password,hpassword,hverify⟩
  · rintro ⟨hflags,password,hpassword,hverify⟩
    exact ⟨(),hflags,password,hpassword,hverify⟩

theorem changePassword_eq_ok {u : Unit} :
    Database.changePassword actor uid oldPassword newPassword confirmation policy verifier hasher d = .ok u d' ↔
      ∃ index account encoded, d.accounts.findIdx? (fun account => account.entry.uid == uid) = some index ∧
        d.accounts[index]? = some account ∧
        (actor.hasCapability capAccountAdmin = true ∨ actor.effectiveUid = uid ∧
          account.entry.flags &&& (flagDisabled ||| flagLocked) = 0 ∧
          ∃ password, oldPassword = some password ∧ verifier password account.passwordHash.bytes = true) ∧
        policy.validate newPassword confirmation = .ok () ∧ verifier newPassword account.passwordHash.bytes = false ∧
        (hasher newPassword = some encoded ∧ encoded.ValidHash) ∧
        d' = { d with accounts := d.accounts.set index { account with passwordHash := encoded } } := by
  simp only [Database.changePassword,lift_bind_eq_ok,get_bind_eq_ok,refuse_bind_eq_ok,
    orRefuse_bind_eq_ok,set_eq_ok,mapError_eq_ok,authorizeMutation_eq_ok,true_and]
  have hold : ∀ {account : Account} {u : Unit}, (if (!actor.hasCapability capAccountAdmin) = true then
      checkOldPassword verifier account oldPassword else .ok ()) = .ok u ↔ actor.hasCapability capAccountAdmin = true ∨
        account.entry.flags &&& (flagDisabled ||| flagLocked) = 0 ∧
          ∃ password, oldPassword = some password ∧ verifier password account.passwordHash.bytes = true := by
    intro account u
    cases actor.hasCapability capAccountAdmin with
    | true => simp
    | false => simp [checkOldPassword_eq_ok]
  simp only [hold]
  constructor
  · rintro ⟨_,hauth,index,hindex,account,hplace,_,hallowed,_,hpolicy,hfresh,encoded,hhash,_,hvalid,rfl⟩
    refine ⟨index,account,encoded,hindex,hplace,?_,hpolicy,hfresh,⟨hhash,hvalid⟩,rfl⟩
    rcases hauth with hadmin | hself
    · exact .inl hadmin
    · exact hallowed.imp_right fun h => ⟨hself,h⟩
  · rintro ⟨index,account,encoded,hindex,hplace,hallowed,hpolicy,hfresh,⟨hhash,hvalid⟩,rfl⟩
    exact ⟨(),hallowed.imp_right And.left,index,hindex,account,hplace,(),hallowed.imp_right And.right,(),hpolicy,hfresh,encoded,
      hhash,(),hvalid,rfl⟩

private theorem changePassword_performs {u : Unit}
    (h : Database.changePassword actor uid oldPassword newPassword confirmation policy verifier hasher d = .ok u d') :
    hd.directory.Performs hd'.directory (.changePassword actor uid oldPassword newPassword confirmation policy verifier hasher) := by
  obtain ⟨index,account,encoded,hindex,hplace,hallowed,hpolicy,hfresh,hhash,rfl⟩ := changePassword_eq_ok.mp h
  have hcurrent := accountOf_index.mpr ⟨index,hindex,hplace⟩
  exact .changePassword account encoded hcurrent hallowed hpolicy hfresh hhash
    (rewrites_place hd hplace { account with passwordHash := encoded } rfl rfl hd')

private theorem performs_changePassword {D' : Directory}
    (h : hd.directory.Performs D' (.changePassword actor uid oldPassword newPassword confirmation policy verifier hasher)) :
    ∃ d', Database.changePassword actor uid oldPassword newPassword confirmation policy verifier hasher d = .ok () d' := by
  cases h with
  | changePassword account encoded hcurrent hallowed hpolicy hfresh hhash =>
    obtain ⟨index,hindex,hplace⟩ := accountOf_index.mp hcurrent
    exact ⟨_,changePassword_eq_ok.mpr ⟨index,account,encoded,hindex,hplace,hallowed,hpolicy,hfresh,hhash,rfl⟩⟩

theorem setLocked_eq_ok {locked : Bool} {u : Unit} : Database.setLocked actor uid locked d = .ok u d' ↔
    actor.hasCapability capAccountAdmin = true ∧ ∃ index account,
      d.accounts.findIdx? (fun account => account.entry.uid == uid) = some index ∧ d.accounts[index]? = some account ∧
      d' = { d with accounts := d.accounts.set index (account.withLock locked) } := by
  simp only [Database.setLocked,lift_bind_eq_ok,get_bind_eq_ok,orRefuse_bind_eq_ok,set_eq_ok,authorizeMutation_eq_ok]
  constructor
  · rintro ⟨_,hauth,index,hindex,account,hplace,rfl⟩
    refine ⟨hauth.resolve_right ?_,index,account,hindex,hplace,rfl⟩
    rintro ⟨hother,_⟩
    cases hother
  · rintro ⟨hadmin,index,account,hindex,hplace,rfl⟩
    exact ⟨(),.inl hadmin,index,hindex,account,hplace,rfl⟩

private theorem setLocked_performs {locked : Bool} {u : Unit} (h : Database.setLocked actor uid locked d = .ok u d') :
    hd.directory.Performs hd'.directory (.setLocked actor uid locked) := by
  obtain ⟨hadmin,index,account,hindex,hplace,rfl⟩ := setLocked_eq_ok.mp h
  have hcurrent := accountOf_index.mpr ⟨index,hindex,hplace⟩
  exact .setLocked account hadmin hcurrent (rewrites_place hd hplace (account.withLock locked) rfl rfl hd')

private theorem performs_setLocked {locked : Bool} {D' : Directory} (h : hd.directory.Performs D' (.setLocked actor uid locked)) :
    ∃ d', Database.setLocked actor uid locked d = .ok () d' := by
  cases h with
  | setLocked account hadmin hcurrent =>
    obtain ⟨index,hindex,hplace⟩ := accountOf_index.mp hcurrent
    exact ⟨_,setLocked_eq_ok.mpr ⟨hadmin,index,account,hindex,hplace,rfl⟩⟩

end Users

section Refinement
variable {d d' : Database} {c : Call}

theorem Call.run_performs (hd : d.WellFormed) (hd' : d'.WellFormed) (h : c.run d = .ok () d') :
    hd.directory.Performs hd'.directory c := by
  cases c with
  | createGroup =>
    obtain ⟨_,h⟩ := relabel_eq_ok.mp h
    exact createGroup_performs hd hd' h
  | modifyGroup =>
    obtain ⟨_,h⟩ := relabel_eq_ok.mp h
    exact modifyGroup_performs hd hd' h
  | deleteGroup =>
    obtain ⟨_,h⟩ := relabel_eq_ok.mp h
    exact deleteGroup_performs hd hd' h
  | createUser =>
    obtain ⟨_,h⟩ := relabel_eq_ok.mp h
    exact createUser_performs hd hd' h
  | createLockedUser =>
    obtain ⟨_,h⟩ := relabel_eq_ok.mp h
    exact createLockedUser_performs hd hd' h
  | modifyUser =>
    obtain ⟨_,h⟩ := relabel_eq_ok.mp h
    exact modifyUser_performs hd hd' h
  | deleteUser =>
    obtain ⟨_,h⟩ := relabel_eq_ok.mp h
    exact deleteUser_performs hd hd' h
  | changePassword =>
    obtain ⟨_,h⟩ := relabel_eq_ok.mp h
    exact changePassword_performs hd hd' h
  | setLocked =>
    obtain ⟨_,h⟩ := relabel_eq_ok.mp h
    exact setLocked_performs hd hd' h

/-- The store accepts every call that its directory allows. -/
theorem Call.performs_run (hd : d.WellFormed) {D' : Directory} (h : hd.directory.Performs D' c) : ∃ d', c.run d = .ok () d' := by
  cases c with
  | createGroup =>
    obtain ⟨gid,d',hrun⟩ := performs_createGroup hd h
    exact ⟨d',relabel_eq_ok.mpr ⟨gid,hrun⟩⟩
  | modifyGroup =>
    obtain ⟨d',hrun⟩ := performs_modifyGroup hd h
    exact ⟨d',relabel_eq_ok.mpr ⟨(),hrun⟩⟩
  | deleteGroup =>
    obtain ⟨d',hrun⟩ := performs_deleteGroup hd h
    exact ⟨d',relabel_eq_ok.mpr ⟨(),hrun⟩⟩
  | createUser =>
    obtain ⟨uid,d',hrun⟩ := performs_createUser hd h
    exact ⟨d',relabel_eq_ok.mpr ⟨uid,hrun⟩⟩
  | createLockedUser =>
    obtain ⟨uid,d',hrun⟩ := performs_createLockedUser hd h
    exact ⟨d',relabel_eq_ok.mpr ⟨uid,hrun⟩⟩
  | modifyUser =>
    obtain ⟨d',hrun⟩ := performs_modifyUser hd h
    exact ⟨d',relabel_eq_ok.mpr ⟨(),hrun⟩⟩
  | deleteUser =>
    obtain ⟨d',hrun⟩ := performs_deleteUser hd h
    exact ⟨d',relabel_eq_ok.mpr ⟨(),hrun⟩⟩
  | changePassword =>
    obtain ⟨d',hrun⟩ := performs_changePassword hd h
    exact ⟨d',relabel_eq_ok.mpr ⟨(),hrun⟩⟩
  | setLocked =>
    obtain ⟨d',hrun⟩ := performs_setLocked hd h
    exact ⟨d',relabel_eq_ok.mpr ⟨(),hrun⟩⟩

end Refinement

end UserDb.Norx
