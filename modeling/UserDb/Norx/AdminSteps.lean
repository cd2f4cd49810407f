import UserDb.Norx.Admin

/-! What each mutating call of the account store did when it succeeded, and that
a call which refuses has written nothing. -/
namespace UserDb.Norx
open UserDb.Base UserDb.Base.Outcomes

/-- The checks every member list given to the store has passed. -/
def Database.AcceptsMembers (self : Database) (members : List Text) : Prop :=
  members.length ≤ maxUsers ∧
    (∀ member ∈ members, member.ValidName ∧ ∃ account ∈ self.accounts, account.entry.name = member) ∧
    members.Nodup

/-- The checks every list of supplementary groups has passed. -/
def Database.AcceptsGroupNames (self : Database) (groups : List Text) : Prop :=
  groups.length ≤ maxGroups ∧
    (∀ name ∈ groups, name.ValidName ∧ ∃ group ∈ self.groups, group.name = name) ∧ groups.Nodup

theorem hasRepetition_eq_false {α : Type} [BEq α] [LawfulBEq α] {l : List α} :
    hasRepetition l = false ↔ l.Nodup := by
  induction l with
  | nil => simp [hasRepetition]
  | cons a rest ih =>
    simp only [hasRepetition,Bool.or_eq_false_iff,ih,List.nodup_cons,List.any_eq_false,beq_iff_eq]
    exact and_congr_left fun _ => ⟨fun h hm => h a hm rfl,fun h x hx he => h (he ▸ hx)⟩

private theorem isOk_validateNameString {name : Text} :
    (validateNameString name).isOk = true ↔ name.ValidName := by
  cases h : validateNameString name with
  | ok u => simpa [Except.isOk,Except.toBool] using validateNameString_eq_ok.mp h
  | error e =>
    have hn : ¬ name.ValidName := fun hv => by
      rw [(validateNameString_eq_ok (u := ())).mpr hv] at h; cases h
    simpa [Except.isOk,Except.toBool] using hn

theorem validateGroupMembers_eq_ok {d : Database} {members : List Text} {u : Unit} :
    validateGroupMembers d members = .ok u ↔ d.AcceptsMembers members := by
  simp [validateGroupMembers,Database.AcceptsMembers,hasRepetition_eq_false,
    isOk_validateNameString,and_assoc]

theorem validateGroupNames_eq_ok {d : Database} {groups : List Text} {u : Unit} :
    validateGroupNames d groups = .ok u ↔ d.AcceptsGroupNames groups := by
  simp [validateGroupNames,Database.AcceptsGroupNames,hasRepetition_eq_false,
    isOk_validateNameString,and_assoc]

theorem checkHash_eq_ok {encoded t : Text} :
    encodePassword.checkHash encoded = .ok t ↔ encoded = t ∧ t.ValidHash := by
  unfold encodePassword.checkHash
  cases h : validatePasswordHash encoded.bytes with
  | ok u => simpa [Text.ValidHash] using fun he => he ▸ h
  | error e => simpa using fun he hv => by rw [he,hv] at h; cases h

theorem encodePassword_eq_ok {hasher : PasswordHasher} {password : Bytes} {t : Text} :
    encodePassword hasher password = .ok t ↔ hasher password = some t ∧ t.ValidHash := by
  simp [encodePassword,except_bind_eq_ok,checkHash_eq_ok]

/-- A successful membership rewrite treats every group alike, and no list outgrows
the limit because a full list without the user is refused. -/
theorem setMembership_eq_ok {groups result : List GroupEntry} {user : Text}
    {supplementary : List Text} :
    setMembership groups user supplementary = .ok result ↔
      result = groups.map (withMembership user supplementary) ∧
        ∀ group ∈ groups, group.name ∈ supplementary → user ∉ group.members →
          group.members.length ≠ maxUsers := by
  have hany : (groups.any (fun group => supplementary.any (fun name => name == group.name) &&
      group.members.length == maxUsers && !group.members.any (fun member => member == user))) = true ↔
      ¬ ∀ group ∈ groups, group.name ∈ supplementary → user ∉ group.members →
          group.members.length ≠ maxUsers := by
    simp only [List.any_eq_true,Bool.and_eq_true,beq_iff_eq,exists_eq_right,Bool.not_eq_true',
      List.any_eq_false]
    push Not
    refine exists_congr fun g => and_congr_right fun _ => ?_
    constructor
    · rintro ⟨⟨hs,hl⟩,hm⟩
      exact ⟨hs,fun hu => hm user hu rfl,hl⟩
    · rintro ⟨hs,hm,hl⟩
      exact ⟨⟨hs,hl⟩,fun x hx he => hm (he ▸ hx)⟩
  unfold setMembership
  split
  · rename_i h
    simp [hany.mp h]
  · rename_i h
    have h := not_not.mp (mt hany.mpr h)
    simp only [Except.ok.injEq,eq_comm (a := result),iff_self_and]
    exact fun _ => h

theorem requireAdmin_eq_ok {actor : SessionCredentials} {u : Unit} :
    requireAdmin actor = .ok u ↔ actor.hasCapability capAccountAdmin = true := by
  unfold requireAdmin
  split <;> simp_all

theorem authorizeMutation_eq_ok {actor : SessionCredentials} {uid : UInt32} {m : Mutation} {u : Unit} :
    authorizeMutation actor uid m = .ok u ↔
      actor.hasCapability capAccountAdmin = true ∨ m = .changeOwnPassword ∧ actor.effectiveUid = uid := by
  unfold authorizeMutation
  split
  · simp_all
  split <;> simp_all

section Inversion
variable {actor : SessionCredentials} {d d' : Database}

theorem createGroup_ok {name : Text} {gid : Option UInt32} {members : List Text} {g : UInt32}
    (h : Database.createGroup actor name gid members d = .ok g d') :
    actor.hasCapability capAccountAdmin = true ∧ name.ValidName ∧
      (∀ group ∈ d.groups, group.name ≠ name) ∧ d.AcceptsMembers members ∧
      (∀ group ∈ d.groups, group.gid ≠ g) ∧ d.groups.length ≠ maxGroups ∧
      d' = { d with groups := d.groups ++ [⟨name,g,members⟩] } := by
  simp only [Database.createGroup,lift_bind_eq_ok,get_bind_eq_ok,refuse_bind_eq_ok,
    orRefuse_bind_eq_ok,set_bind_eq_ok,pure_eq_ok,requireAdmin_eq_ok,validateNameString_eq_ok,
    validateGroupMembers_eq_ok,List.any_eq_false,beq_iff_eq,beq_eq_false_iff_ne] at h
  obtain ⟨_,ha,_,hn,hd,_,hm,g',_,hg,hl,rfl,rfl⟩ := h
  exact ⟨ha,hn,hd,hm,hg,hl,rfl⟩

/-- The group a modification writes over the current one. -/
def GroupUpdate.applyTo (update : GroupUpdate) (current : GroupEntry) : GroupEntry :=
  { current with
    name := update.name.getD current.name
    members := update.members.getD current.members }

theorem modifyGroup_ok {gid : UInt32} {update : GroupUpdate} {u : Unit}
    (h : Database.modifyGroup actor gid update d = .ok u d') :
    ∃ index current, d.groups[index]? = some current ∧
      (update.applyTo current).name.ValidName ∧
      (∀ group ∈ d.groups.eraseIdx index, group.name ≠ (update.applyTo current).name) ∧
      d.AcceptsMembers (update.applyTo current).members ∧
      d' = { d with groups := d.groups.set index (update.applyTo current) } := by
  simp only [Database.modifyGroup,lift_bind_eq_ok,get_bind_eq_ok,refuse_bind_eq_ok,
    orRefuse_bind_eq_ok,set_eq_ok,validateNameString_eq_ok,validateGroupMembers_eq_ok,
    List.any_eq_false,beq_iff_eq] at h
  obtain ⟨_,_,index,_,current,hc,_,hn,hd,_,hm,rfl⟩ := h
  exact ⟨index,current,hc,hn,hd,hm,rfl⟩

theorem deleteGroup_ok {gid : UInt32} {u : Unit}
    (h : Database.deleteGroup actor gid d = .ok u d') :
    ∃ index current, d.groups[index]? = some current ∧ current.gid = gid ∧
      (∀ account ∈ d.accounts, account.entry.gid ≠ gid) ∧ current.members = [] ∧
      d' = { d with groups := d.groups.eraseIdx index } := by
  simp only [Database.deleteGroup,lift_bind_eq_ok,get_bind_eq_ok,refuse_bind_eq_ok,
    orRefuse_bind_eq_ok,set_eq_ok,List.any_eq_false,beq_iff_eq,Bool.not_eq_eq_eq_not,
    Bool.not_false,List.isEmpty_iff] at h
  obtain ⟨_,_,ha,index,hi,current,hc,hm,rfl⟩ := h
  obtain ⟨hlt,hg,_⟩ := List.findIdx?_eq_some_iff_getElem.mp hi
  rw [List.getElem?_eq_getElem hlt,Option.some.injEq] at hc
  exact ⟨index,current,by rw [List.getElem?_eq_getElem hlt,hc],by simpa [hc] using hg,ha,hm,rfl⟩

/-- The account both creation calls append, and the groups they leave. -/
def Database.Created (d : Database) (spec : UserSpec) (encoded : Text) (uid : UInt32)
    (d' : Database) : Prop :=
  ∃ gid home shell, spec.primaryGid = some gid ∧ spec.home = some home ∧ spec.shell = some shell ∧
    d.accounts.length ≠ maxUsers ∧ spec.name.ValidName ∧ ValidFlags spec.flags ∧
    ValidCapabilities spec.capabilities ∧ home.ValidPath ∧ shell.ValidPath ∧ encoded.ValidHash ∧
    (∀ account ∈ d.accounts, account.entry.name ≠ spec.name) ∧
    (∀ account ∈ d.accounts, account.entry.uid ≠ uid) ∧
    (∃ group ∈ d.groups, group.gid = gid) ∧
    (∀ group ∈ d.groups, group.name ∈ spec.supplementaryGroups → spec.name ∉ group.members →
      group.members.length ≠ maxUsers) ∧
    d' = ⟨d.accounts ++
        [⟨⟨spec.name,uid,gid,spec.flags,spec.capabilities,home,shell⟩,encoded⟩],
      d.groups.map (withMembership spec.name spec.supplementaryGroups)⟩

theorem createUser_ok {spec : UserSpec} {password : Bytes} {hasher : PasswordHasher} {uid : UInt32}
    (h : Database.createUser actor spec password hasher d = .ok uid d') :
    ∃ encoded, d.Created spec encoded uid d' := by
  simp only [Database.createUser,lift_bind_eq_ok,get_bind_eq_ok,refuse_bind_eq_ok,
    orRefuse_bind_eq_ok,set_bind_eq_ok,pure_eq_ok,validateUserFields_eq_ok,encodePassword_eq_ok,
    setMembership_eq_ok,List.any_eq_false,beq_iff_eq,beq_eq_false_iff_ne,
    Bool.not_eq_eq_eq_not,Bool.not_false,List.any_eq_true] at h
  obtain ⟨_,_,hl,_,⟨hn,hf,hc,⟨home,hh,hhv⟩,shell,hs,hsv⟩,hd,uid',_,hu,_,_,gid,hg,hge,_,_,_,_,
    encoded,⟨_,hev⟩,_,⟨rfl,hfull⟩,_,hh',_,hs',rfl,rfl⟩ := h
  cases hh.symm.trans hh'
  cases hs.symm.trans hs'
  exact ⟨encoded,gid,home,shell,hg,hh,hs,hl,hn,hf,hc,hhv,hsv,hev,hd,hu,hge,hfull,rfl⟩

private theorem createUserWithHash_ok {spec : UserSpec} {encoded : Text} {uid : UInt32}
    (h : Database.createUserWithHash actor spec encoded d = .ok uid d') :
    d.Created spec encoded uid d' := by
  simp only [Database.createUserWithHash,lift_bind_eq_ok,get_bind_eq_ok,refuse_bind_eq_ok,
    orRefuse_bind_eq_ok,set_bind_eq_ok,pure_eq_ok,validateUserFields_eq_ok,checkHash_eq_ok,
    setMembership_eq_ok,List.any_eq_false,beq_iff_eq,beq_eq_false_iff_ne,
    Bool.not_eq_eq_eq_not,Bool.not_false,List.any_eq_true] at h
  obtain ⟨_,_,hl,_,⟨hn,hf,hc,⟨home,hh,hhv⟩,shell,hs,hsv⟩,hd,uid',_,hu,gid,hg,hge,_,_,
    _,⟨rfl,hev⟩,_,⟨rfl,hfull⟩,_,hh',_,hs',rfl,rfl⟩ := h
  cases hh.symm.trans hh'
  cases hs.symm.trans hs'
  exact ⟨gid,home,shell,hg,hh,hs,hl,hn,hf,hc,hhv,hsv,hev,hd,hu,hge,hfull,rfl⟩

theorem createLockedUser_ok {spec : UserSpec} {uid : UInt32}
    (h : Database.createLockedUser actor spec d = .ok uid d') :
    d.Created { spec with flags := spec.flags ||| flagLocked } lockedPasswordHash uid d' := by
  obtain ⟨_,_,h⟩ := lift_bind_eq_ok.mp h
  exact createUserWithHash_ok h

/-- The entry a modification writes over the current one. -/
def UserUpdate.applyTo (update : UserUpdate) (current : UserEntry) : UserEntry :=
  { current with
    name := update.name.getD current.name
    gid := update.primaryGid.getD current.gid
    home := update.home.getD current.home
    shell := update.shell.getD current.shell
    flags := update.flags.getD current.flags
    capabilities := update.capabilities.getD current.capabilities }

theorem modifyUser_ok {targetUid : UInt32} {update : UserUpdate} {u : Unit}
    (h : Database.modifyUser actor targetUid update d = .ok u d') :
    ∃ index account groups, d.accounts[index]? = some account ∧
      (update.applyTo account.entry).name.ValidName ∧
      ValidFlags (update.applyTo account.entry).flags ∧
      ValidCapabilities (update.applyTo account.entry).capabilities ∧
      (update.applyTo account.entry).home.ValidPath ∧
      (update.applyTo account.entry).shell.ValidPath ∧
      (∀ other ∈ d.accounts.eraseIdx index,
        other.entry.name ≠ (update.applyTo account.entry).name) ∧
      (∀ gid, update.primaryGid = some gid → ∃ group ∈ d.groups, group.gid = gid) ∧
      regroup d.groups account.entry.name (update.applyTo account.entry).name
        update.supplementaryGroups = .ok groups ∧
      d' = ⟨d.accounts.set index { account with entry := update.applyTo account.entry },groups⟩ := by
  simp only [Database.modifyUser,lift_bind_eq_ok,get_bind_eq_ok,refuse_bind_eq_ok,
    orRefuse_bind_eq_ok,set_eq_ok,validateUserFields_eq_ok,List.any_eq_false,beq_iff_eq,
    Option.some.injEq] at h
  obtain ⟨_,_,index,_,account,hc,_,⟨hn,hf,hcap,⟨_,rfl,hh⟩,_,rfl,hs⟩,hd,_,hg,_,_,groups,hr,rfl⟩ := h
  refine ⟨index,account,groups,hc,hn,hf,hcap,hh,hs,hd,?_,hr,rfl⟩
  intro gid hgid
  rw [hgid] at hg
  simpa using hg

theorem deleteUser_ok {targetUid : UInt32} {u : Unit}
    (h : Database.deleteUser actor targetUid d = .ok u d') :
    ∃ index account, d.accounts[index]? = some account ∧
      d' = ⟨d.accounts.eraseIdx index,d.groups.map fun group =>
        { group with members := group.members.filter fun member => member != account.entry.name }⟩ := by
  simp only [Database.deleteUser,lift_bind_eq_ok,get_bind_eq_ok,refuse_bind_eq_ok,
    orRefuse_bind_eq_ok,set_eq_ok] at h
  obtain ⟨_,_,index,_,_,account,hc,rfl⟩ := h
  exact ⟨index,account,hc,rfl⟩

theorem changePassword_ok {targetUid : UInt32} {oldPassword : Option Bytes}
    {newPassword confirmation : Bytes} {policy : PasswordPolicy} {verifier : PasswordVerifier}
    {hasher : PasswordHasher} {u : Unit}
    (h : Database.changePassword actor targetUid oldPassword newPassword confirmation policy
      verifier hasher d = .ok u d') :
    ∃ index account encoded, d.accounts[index]? = some account ∧
      account.entry.uid = targetUid ∧ encoded.ValidHash ∧
      (actor.hasCapability capAccountAdmin = true ∨ actor.effectiveUid = targetUid ∧
        account.entry.flags &&& (flagDisabled ||| flagLocked) = 0 ∧
        ∃ old, oldPassword = some old ∧ verifier old account.passwordHash.bytes = true) ∧
      d' = { d with accounts := d.accounts.set index { account with passwordHash := encoded } } := by
  simp only [Database.changePassword,lift_bind_eq_ok,get_bind_eq_ok,refuse_bind_eq_ok,
    orRefuse_bind_eq_ok,set_eq_ok,mapError_eq_ok,authorizeMutation_eq_ok,true_and] at h
  obtain ⟨_,hauth,index,hi,account,hc,_,hold,_,_,_,encoded,_,_,hv,rfl⟩ := h
  obtain ⟨hlt,hg,_⟩ := List.findIdx?_eq_some_iff_getElem.mp hi
  have hacc : d.accounts[index] = account := by simpa [List.getElem?_eq_getElem hlt] using hc
  refine ⟨index,account,encoded,hc,by simpa [hacc] using hg,hv,?_,rfl⟩
  rcases Bool.eq_false_or_eq_true (actor.hasCapability capAccountAdmin) with hadm | hadm
  · exact Or.inl hadm
  · have huid := hauth.resolve_left (by simp [hadm])
    have hchk : checkOldPassword verifier account oldPassword = .ok () := by simpa [hadm] using hold
    simp only [checkOldPassword,except_bind_eq_ok,reject_eq_ok,needed_eq_ok,bne_eq_false_iff_eq,
      Bool.not_eq_false'] at hchk
    obtain ⟨_,hflags,old,hsome,hver⟩ := hchk
    exact Or.inr ⟨huid,hflags,old,hsome,hver⟩

/-- An account once its lock flag is set or cleared. -/
def Account.withLock (account : Account) (locked : Bool) : Account :=
  let flags := if locked then account.entry.flags ||| flagLocked
    else account.entry.flags &&& ~~~flagLocked
  { account with entry := { account.entry with flags := flags } }

theorem setLocked_ok {targetUid : UInt32} {locked : Bool} {u : Unit}
    (h : Database.setLocked actor targetUid locked d = .ok u d') :
    actor.hasCapability capAccountAdmin = true ∧
    ∃ index account, d.accounts[index]? = some account ∧
      d' = { d with accounts := d.accounts.set index (account.withLock locked) } := by
  simp only [Database.setLocked,lift_bind_eq_ok,get_bind_eq_ok,orRefuse_bind_eq_ok,set_eq_ok,
    authorizeMutation_eq_ok] at h
  obtain ⟨_,hauth,index,_,account,hc,rfl⟩ := h
  exact ⟨hauth.resolve_right (by rintro ⟨h,_⟩; cases h),index,account,hc,rfl⟩

end Inversion

section Refusal
variable (actor : SessionCredentials)

theorem createGroup_conservative (name : Text) (gid : Option UInt32) (members : List Text) :
    Conservative (Database.createGroup actor name gid members) :=
  .bind (readOnly_lift _) fun _ => .bind (readOnly_lift _) fun _ => .bind readOnly_get fun _ =>
    .bind (readOnly_refuse _ _) fun _ => .bind (readOnly_lift _) fun _ =>
    .bind (readOnly_orRefuse _ _) fun _ => .bind (readOnly_refuse _ _) fun _ =>
    .bind (readOnly_refuse _ _) fun _ => conservative_set_pure _ _

theorem modifyGroup_conservative (gid : UInt32) (update : GroupUpdate) :
    Conservative (Database.modifyGroup actor gid update) :=
  .bind (readOnly_lift _) fun _ => .bind readOnly_get fun _ => .bind (readOnly_orRefuse _ _) fun _ =>
    .bind (readOnly_orRefuse _ _) fun _ => .bind (readOnly_lift _) fun _ =>
    .bind (readOnly_refuse _ _) fun _ => .bind (readOnly_lift _) fun _ => conservative_set _

theorem deleteGroup_conservative (gid : UInt32) :
    Conservative (Database.deleteGroup actor gid) :=
  .bind (readOnly_lift _) fun _ => .bind readOnly_get fun _ => .bind (readOnly_refuse _ _) fun _ =>
    .bind (readOnly_orRefuse _ _) fun _ => .bind (readOnly_orRefuse _ _) fun _ =>
    .bind (readOnly_refuse _ _) fun _ => conservative_set _

theorem createUser_conservative (spec : UserSpec) (password : Bytes) (hasher : PasswordHasher) :
    Conservative (Database.createUser actor spec password hasher) :=
  .bind (readOnly_lift _) fun _ => .bind readOnly_get fun _ => .bind (readOnly_refuse _ _) fun _ =>
    .bind (readOnly_lift _) fun _ => .bind (readOnly_refuse _ _) fun _ =>
    .bind (readOnly_orRefuse _ _) fun _ => .bind (readOnly_refuse _ _) fun _ =>
    .bind (readOnly_lift _) fun _ => .bind (readOnly_orRefuse _ _) fun _ =>
    .bind (readOnly_refuse _ _) fun _ => .bind (readOnly_lift _) fun _ =>
    .bind (readOnly_lift _) fun _ => .bind (readOnly_lift _) fun _ =>
    .bind (readOnly_lift _) fun _ => .bind (readOnly_orRefuse _ _) fun _ =>
    .bind (readOnly_orRefuse _ _) fun _ => conservative_set_pure _ _

private theorem createUserWithHash_conservative (spec : UserSpec) (encoded : Text) :
    Conservative (Database.createUserWithHash actor spec encoded) :=
  .bind (readOnly_lift _) fun _ => .bind readOnly_get fun _ => .bind (readOnly_refuse _ _) fun _ =>
    .bind (readOnly_lift _) fun _ => .bind (readOnly_refuse _ _) fun _ =>
    .bind (readOnly_orRefuse _ _) fun _ => .bind (readOnly_refuse _ _) fun _ =>
    .bind (readOnly_orRefuse _ _) fun _ => .bind (readOnly_refuse _ _) fun _ =>
    .bind (readOnly_lift _) fun _ => .bind (readOnly_lift _) fun _ =>
    .bind (readOnly_lift _) fun _ => .bind (readOnly_orRefuse _ _) fun _ =>
    .bind (readOnly_orRefuse _ _) fun _ => conservative_set_pure _ _

theorem createLockedUser_conservative (spec : UserSpec) :
    Conservative (Database.createLockedUser actor spec) :=
  .bind (readOnly_lift _) fun _ => createUserWithHash_conservative actor _ _

theorem modifyUser_conservative (targetUid : UInt32) (update : UserUpdate) :
    Conservative (Database.modifyUser actor targetUid update) :=
  .bind (readOnly_lift _) fun _ => .bind readOnly_get fun _ => .bind (readOnly_orRefuse _ _) fun _ =>
    .bind (readOnly_orRefuse _ _) fun _ => .bind (readOnly_lift _) fun _ =>
    .bind (readOnly_refuse _ _) fun _ => .bind (readOnly_lift _) fun _ =>
    .bind (readOnly_lift _) fun _ => .bind (readOnly_lift _) fun _ => conservative_set _

theorem deleteUser_conservative (targetUid : UInt32) :
    Conservative (Database.deleteUser actor targetUid) :=
  .bind (readOnly_lift _) fun _ => .bind readOnly_get fun _ => .bind (readOnly_orRefuse _ _) fun _ =>
    .bind (readOnly_refuse _ _) fun _ => .bind (readOnly_orRefuse _ _) fun _ => conservative_set _

theorem changePassword_conservative (targetUid : UInt32) (oldPassword : Option Bytes)
    (newPassword confirmation : Bytes) (policy : PasswordPolicy) (verifier : PasswordVerifier)
    (hasher : PasswordHasher) :
    Conservative (Database.changePassword actor targetUid oldPassword newPassword confirmation
      policy verifier hasher) :=
  .bind (readOnly_lift _) fun _ => .bind readOnly_get fun _ => .bind (readOnly_orRefuse _ _) fun _ =>
    .bind (readOnly_orRefuse _ _) fun _ => .bind (readOnly_lift _) fun _ =>
    .bind (readOnly_lift _) fun _ => .bind (readOnly_refuse _ _) fun _ =>
    .bind (readOnly_orRefuse _ _) fun _ => .bind (readOnly_lift _) fun _ => conservative_set _

theorem setLocked_conservative (targetUid : UInt32) (locked : Bool) :
    Conservative (Database.setLocked actor targetUid locked) :=
  .bind (readOnly_lift _) fun _ => .bind readOnly_get fun _ => .bind (readOnly_orRefuse _ _) fun _ =>
    .bind (readOnly_orRefuse _ _) fun _ => conservative_set _

end Refusal
end UserDb.Norx
