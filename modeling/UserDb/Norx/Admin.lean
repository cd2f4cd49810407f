import UserDb.Norx.Validate

/-! The mutating calls of the account store. A call keeps whatever state it has
reached when it refuses, as a method on a mutable reference does. -/
namespace UserDb.Norx
open UserDb.Base UserDb.Base.Outcomes

/-- A call on a mutable database that answers with an `α` or refuses with an `ε`. -/
abbrev DatabaseCall (ε α : Type) := EStateM ε Database α

def requireAdmin (actor : SessionCredentials) : Except AdminError Unit :=
  if actor.hasCapability capAccountAdmin then .ok () else .error .permissionDenied

def authorizeMutation (actor : SessionCredentials) (targetUid : UInt32) (mutation : Mutation) :
    Except AuthError Unit :=
  if actor.hasCapability capAccountAdmin then .ok ()
  else if mutation == .changeOwnPassword && actor.effectiveUid == targetUid then .ok ()
  else .error .denied

/-- Some element equals one that stands before it. -/
def hasRepetition {α : Type} [BEq α] : List α → Bool
  | [] => false
  | a :: rest => rest.any (· == a) || hasRepetition rest

def validateGroupMembers (database : Database) (members : List Text) : Except AdminError Unit :=
  reject (members.length > maxUsers ||
    members.any (fun member => !(validateNameString member).isOk ||
      !database.accounts.any (fun account => account.entry.name == member)) ||
    hasRepetition members) .invalidInput

def validateGroupNames (database : Database) (groups : List Text) : Except AdminError Unit :=
  reject (groups.length > maxGroups ||
    groups.any (fun name => !(validateNameString name).isOk ||
      !database.groups.any (fun group => group.name == name)) ||
    hasRepetition groups) .invalidInput

/-- The candidate counts up from `candidate`; the fuel is its distance to the last id. -/
def nextIdFrom (values : List UInt32) : Nat → UInt32 → Option UInt32
  | fuel, candidate =>
    if !values.any (· == candidate) then some candidate
    else
      match fuel with
      | 0 => none
      | fuel + 1 => nextIdFrom values fuel (candidate + 1)

def nextId (values : List UInt32) : Option UInt32 :=
  nextIdFrom values (UInt32.size - 1 - firstDynamicId.toNat) firstDynamicId

/-- A group's member list once `user` is taken out and, where asked, put at its end. -/
def withMembership (user : Text) (supplementary : List Text) (group : GroupEntry) : GroupEntry :=
  let kept := group.members.filter (fun member => member != user)
  { group with members :=
      if supplementary.any (fun name => name == group.name) then kept ++ [user] else kept }

def setMembership (groups : List GroupEntry) (user : Text) (supplementary : List Text) :
    Except AdminError (List GroupEntry) :=
  if groups.any (fun group => supplementary.any (fun name => name == group.name) &&
      group.members.length == maxUsers && !group.members.any (fun member => member == user)) then
    .error .limit
  else .ok (groups.map (withMembership user supplementary))

def Database.createGroup (actor : SessionCredentials) (name : Text) (gid : Option UInt32)
    (members : List Text) : DatabaseCall AdminError UInt32 := do
  lift (requireAdmin actor)
  lift (validateNameString name)
  let self ← get
  refuse (self.groups.any (fun group => group.name == name)) .duplicate
  lift (validateGroupMembers self members)
  let gid ← orRefuse (gid.orElse fun _ => nextId (self.groups.map (·.gid))) .limit
  refuse (self.groups.any (fun group => group.gid == gid)) .duplicate
  refuse (self.groups.length == maxGroups) .limit
  set { self with groups := self.groups ++ [GroupEntry.mk name gid members] }
  pure gid

def Database.modifyGroup (actor : SessionCredentials) (gid : UInt32) (update : GroupUpdate) :
    DatabaseCall AdminError Unit := do
  lift (requireAdmin actor)
  let self ← get
  let index ← orRefuse (self.groups.findIdx? (fun group => group.gid == gid)) .notFound
  let current ← orRefuse self.groups[index]? .notFound
  let name := update.name.getD current.name
  lift (validateNameString name)
  refuse ((self.groups.eraseIdx index).any (fun group => group.name == name)) .duplicate
  let members := update.members.getD current.members
  lift (validateGroupMembers self members)
  set { self with groups := self.groups.set index { current with name := name, members := members } }

def Database.deleteGroup (actor : SessionCredentials) (gid : UInt32) :
    DatabaseCall AdminError Unit := do
  lift (requireAdmin actor)
  let self ← get
  refuse (self.accounts.any (fun account => account.entry.gid == gid)) .permissionDenied
  let index ← orRefuse (self.groups.findIdx? (fun group => group.gid == gid)) .notFound
  let current ← orRefuse self.groups[index]? .notFound
  refuse (!current.members.isEmpty) .permissionDenied
  set { self with groups := self.groups.eraseIdx index }

/-- The refusal of a superuser id that does not carry the account capability. -/
def refuseBareRoot (uid : UInt32) (capabilities : UInt64) : Except AdminError Unit :=
  reject (uid == 0 && capabilities &&& capAccountAdmin == 0) .invalidInput

def encodePassword (hasher : PasswordHasher) (password : Bytes) : Except AdminError Text := do
  let encoded ← needed (hasher password) .invalidHash
  checkHash encoded
where
  checkHash (encoded : Text) : Except AdminError Text :=
    match validatePasswordHash encoded.bytes with
    | .ok () => .ok encoded
    | .error _ => .error .invalidHash

def Database.createUser (actor : SessionCredentials) (spec : UserSpec) (password : Bytes)
    (hasher : PasswordHasher) : DatabaseCall AdminError UInt32 := do
  lift (requireAdmin actor)
  let self ← get
  refuse (self.accounts.length == maxUsers) .limit
  lift (validateUserFields spec.name spec.flags spec.capabilities spec.home spec.shell)
  refuse (self.accounts.any (fun account => account.entry.name == spec.name)) .duplicate
  let uid ← orRefuse (spec.uid.orElse fun _ => nextId (self.accounts.map (·.entry.uid))) .limit
  refuse (self.accounts.any (fun account => account.entry.uid == uid)) .duplicate
  lift (refuseBareRoot uid spec.capabilities)
  let gid ← orRefuse spec.primaryGid .invalidInput
  refuse (!self.groups.any (fun group => group.gid == gid)) .invalidId
  lift (validateGroupNames self spec.supplementaryGroups)
  lift (refuseBareRoot uid spec.capabilities)
  let encoded ← lift (encodePassword hasher password)
  let candidateGroups ← lift (setMembership self.groups spec.name spec.supplementaryGroups)
  let home ← orRefuse spec.home .invalidInput
  let shell ← orRefuse spec.shell .invalidInput
  let entry := UserEntry.mk spec.name uid gid spec.flags spec.capabilities home shell
  set (Database.mk (self.accounts ++ [⟨entry,encoded⟩]) candidateGroups)
  pure uid

def Database.createUserWithHash (actor : SessionCredentials) (spec : UserSpec) (encoded : Text) :
    DatabaseCall AdminError UInt32 := do
  lift (requireAdmin actor)
  let self ← get
  refuse (self.accounts.length == maxUsers) .limit
  lift (validateUserFields spec.name spec.flags spec.capabilities spec.home spec.shell)
  refuse (self.accounts.any (fun account => account.entry.name == spec.name)) .duplicate
  let uid ← orRefuse (spec.uid.orElse fun _ => nextId (self.accounts.map (·.entry.uid))) .limit
  refuse (self.accounts.any (fun account => account.entry.uid == uid)) .duplicate
  let gid ← orRefuse spec.primaryGid .invalidInput
  refuse (!self.groups.any (fun group => group.gid == gid)) .invalidId
  lift (validateGroupNames self spec.supplementaryGroups)
  let encoded ← lift (encodePassword.checkHash encoded)
  let candidateGroups ← lift (setMembership self.groups spec.name spec.supplementaryGroups)
  let home ← orRefuse spec.home .invalidInput
  let shell ← orRefuse spec.shell .invalidInput
  let entry := UserEntry.mk spec.name uid gid spec.flags spec.capabilities home shell
  set (Database.mk (self.accounts ++ [⟨entry,encoded⟩]) candidateGroups)
  pure uid

def Database.createLockedUser (actor : SessionCredentials) (spec : UserSpec) :
    DatabaseCall AdminError UInt32 := do
  lift (requireAdmin actor)
  Database.createUserWithHash actor { spec with flags := spec.flags ||| flagLocked } lockedPasswordHash

/-- Every occurrence of the old name in a member list becomes the new one. -/
def renameMember (oldName newName : Text) (group : GroupEntry) : GroupEntry :=
  { group with members := group.members.map fun member => if member == oldName then newName else member }

/-- The groups of a database once an account is renamed or its memberships are replaced. -/
def regroup (groups : List GroupEntry) (oldName newName : Text) :
    Option (List Text) → Except AdminError (List GroupEntry)
  | some supplementary => do
    let groups ← setMembership groups oldName []
    setMembership groups newName supplementary
  | none => .ok (if oldName != newName then groups.map (renameMember oldName newName) else groups)

def Database.modifyUser (actor : SessionCredentials) (targetUid : UInt32) (update : UserUpdate) :
    DatabaseCall AdminError Unit := do
  lift (requireAdmin actor)
  let self ← get
  let index ← orRefuse (self.accounts.findIdx? (fun account => account.entry.uid == targetUid)) .notFound
  let account ← orRefuse self.accounts[index]? .notFound
  let current := account.entry
  let name := update.name.getD current.name
  let home := update.home.getD current.home
  let shell := update.shell.getD current.shell
  lift (validateUserFields name (update.flags.getD current.flags)
    (update.capabilities.getD current.capabilities) (some home) (some shell))
  refuse ((self.accounts.eraseIdx index).any (fun account => account.entry.name == name)) .duplicate
  lift (match update.primaryGid with
    | some gid => reject (!self.groups.any (fun group => group.gid == gid)) .invalidId
    | none => .ok ())
  lift (match update.supplementaryGroups with
    | some groups => validateGroupNames self groups
    | none => .ok ())
  let candidateGroups ← lift (regroup self.groups current.name name update.supplementaryGroups)
  let entry : UserEntry :=
    { current with
      name := name
      gid := update.primaryGid.getD current.gid
      home := home
      shell := shell
      flags := update.flags.getD current.flags
      capabilities := update.capabilities.getD current.capabilities }
  set (Database.mk (self.accounts.set index { account with entry := entry }) candidateGroups)

def Database.deleteUser (actor : SessionCredentials) (targetUid : UInt32) :
    DatabaseCall AdminError Unit := do
  lift (requireAdmin actor)
  let self ← get
  let index ← orRefuse (self.accounts.findIdx? (fun account => account.entry.uid == targetUid)) .notFound
  refuse (targetUid == actor.effectiveUid || targetUid == 0) .permissionDenied
  let account ← orRefuse self.accounts[index]? .notFound
  set (Database.mk (self.accounts.eraseIdx index) (self.groups.map fun group =>
    { group with members := group.members.filter fun member => member != account.entry.name }))

/-- What a caller without the account capability must show before a password change. -/
def checkOldPassword (verifier : PasswordVerifier) (account : Account) (oldPassword : Option Bytes) :
    Except PasswordChangeError Unit := do
  reject (account.entry.flags &&& (flagDisabled ||| flagLocked) != 0) .denied
  let oldPassword ← needed oldPassword .oldPasswordRejected
  reject (!verifier oldPassword account.passwordHash.bytes) .oldPasswordRejected

def Database.changePassword (actor : SessionCredentials) (targetUid : UInt32)
    (oldPassword : Option Bytes) (newPassword confirmation : Bytes) (policy : PasswordPolicy)
    (verifier : PasswordVerifier) (hasher : PasswordHasher) :
    DatabaseCall PasswordChangeError Unit := do
  lift ((authorizeMutation actor targetUid .changeOwnPassword).mapError fun _ => .denied)
  let self ← get
  let index ← orRefuse (self.accounts.findIdx? (fun account => account.entry.uid == targetUid)) .notFound
  let account ← orRefuse self.accounts[index]? .notFound
  let administrator := actor.hasCapability capAccountAdmin
  lift (if !administrator then checkOldPassword verifier account oldPassword else .ok ())
  lift (policy.validate newPassword confirmation)
  refuse (verifier newPassword account.passwordHash.bytes) .passwordReuse
  let encoded ← orRefuse (hasher newPassword) .hashFailed
  lift ((validatePasswordHash encoded.bytes).mapError fun _ => .invalidHash)
  set { self with accounts := self.accounts.set index { account with passwordHash := encoded } }

def Database.setLocked (actor : SessionCredentials) (targetUid : UInt32) (locked : Bool) :
    DatabaseCall AuthError Unit := do
  lift (authorizeMutation actor targetUid .modifyAccount)
  let self ← get
  let index ← orRefuse (self.accounts.findIdx? (fun account => account.entry.uid == targetUid)) .denied
  let account ← orRefuse self.accounts[index]? .denied
  let flags := if locked then account.entry.flags ||| flagLocked
    else account.entry.flags &&& ~~~flagLocked
  set { self with accounts :=
    self.accounts.set index { account with entry := { account.entry with flags := flags } } }

end UserDb.Norx
