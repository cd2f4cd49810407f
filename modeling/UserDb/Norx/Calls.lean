import UserDb.Norx.Integrity

/-! The nine mutating calls as one type of commands, and what every command keeps. -/
namespace UserDb.Norx
open UserDb.Base UserDb.Base.Outcomes

inductive Call where
  | createGroup (actor : SessionCredentials) (name : Text) (gid : Option UInt32) (members : List Text)
  | modifyGroup (actor : SessionCredentials) (gid : UInt32) (update : GroupUpdate)
  | deleteGroup (actor : SessionCredentials) (gid : UInt32)
  | createUser (actor : SessionCredentials) (spec : UserSpec) (password : Bytes) (hasher : PasswordHasher)
  | createLockedUser (actor : SessionCredentials) (spec : UserSpec)
  | modifyUser (actor : SessionCredentials) (targetUid : UInt32) (update : UserUpdate)
  | deleteUser (actor : SessionCredentials) (targetUid : UInt32)
  | changePassword (actor : SessionCredentials) (targetUid : UInt32) (oldPassword : Option Bytes)
      (newPassword confirmation : Bytes) (policy : PasswordPolicy) (verifier : PasswordVerifier)
      (hasher : PasswordHasher)
  | setLocked (actor : SessionCredentials) (targetUid : UInt32) (locked : Bool)

inductive CallError where
  | admin (e : AdminError)
  | password (e : PasswordChangeError)
  | auth (e : AuthError)
  deriving DecidableEq, Repr

def Call.run : Call → DatabaseCall CallError Unit
  | .createGroup actor name gid members => relabel .admin (Database.createGroup actor name gid members)
  | .modifyGroup actor gid update => relabel .admin (Database.modifyGroup actor gid update)
  | .deleteGroup actor gid => relabel .admin (Database.deleteGroup actor gid)
  | .createUser actor spec password hasher =>
    relabel .admin (Database.createUser actor spec password hasher)
  | .createLockedUser actor spec => relabel .admin (Database.createLockedUser actor spec)
  | .modifyUser actor targetUid update => relabel .admin (Database.modifyUser actor targetUid update)
  | .deleteUser actor targetUid => relabel .admin (Database.deleteUser actor targetUid)
  | .changePassword actor targetUid oldPassword newPassword confirmation policy verifier hasher =>
    relabel .password (Database.changePassword actor targetUid oldPassword newPassword confirmation
      policy verifier hasher)
  | .setLocked actor targetUid locked => relabel .auth (Database.setLocked actor targetUid locked)

/-- A refused command has written nothing. -/
theorem Call.run_conservative (c : Call) : Conservative c.run := by
  cases c with
  | createGroup actor name gid members =>
    exact (createGroup_conservative actor name gid members).relabel _
  | modifyGroup actor gid update => exact (modifyGroup_conservative actor gid update).relabel _
  | deleteGroup actor gid => exact (deleteGroup_conservative actor gid).relabel _
  | createUser actor spec password hasher =>
    exact (createUser_conservative actor spec password hasher).relabel _
  | createLockedUser actor spec => exact (createLockedUser_conservative actor spec).relabel _
  | modifyUser actor uid update => exact (modifyUser_conservative actor uid update).relabel _
  | deleteUser actor uid => exact (deleteUser_conservative actor uid).relabel _
  | changePassword actor uid old new confirmation policy verifier hasher =>
    exact (changePassword_conservative actor uid old new confirmation policy verifier hasher).relabel _
  | setLocked actor uid locked => exact (setLocked_conservative actor uid locked).relabel _

theorem Call.run_storable {c : Call} {d d' : Database} {u : Unit} (h : c.run d = .ok u d')
    (hd : d.Storable) : d'.Storable := by
  cases c with
  | createGroup actor name gid members =>
    obtain ⟨_,h⟩ := relabel_eq_ok.mp h
    exact createGroup_storable h hd
  | modifyGroup actor gid update =>
    obtain ⟨_,h⟩ := relabel_eq_ok.mp h
    exact modifyGroup_storable h hd
  | deleteGroup actor gid =>
    obtain ⟨_,h⟩ := relabel_eq_ok.mp h
    exact deleteGroup_storable h hd
  | createUser actor spec password hasher =>
    obtain ⟨_,h⟩ := relabel_eq_ok.mp h
    obtain ⟨_,h⟩ := createUser_ok h
    exact h.storable hd
  | createLockedUser actor spec =>
    obtain ⟨_,h⟩ := relabel_eq_ok.mp h
    exact (createLockedUser_ok h).storable hd
  | modifyUser actor uid update =>
    obtain ⟨_,h⟩ := relabel_eq_ok.mp h
    exact modifyUser_storable h hd
  | deleteUser actor uid =>
    obtain ⟨_,h⟩ := relabel_eq_ok.mp h
    exact deleteUser_storable h hd
  | changePassword actor uid old new confirmation policy verifier hasher =>
    obtain ⟨_,h⟩ := relabel_eq_ok.mp h
    obtain ⟨index,account,encoded,hc,_,hv,_,rfl⟩ := changePassword_ok h
    exact hd.replace hc rfl rfl ((hd.accounts account (List.mem_of_getElem? hc)).withHash hv)
  | setLocked actor uid locked =>
    obtain ⟨_,h⟩ := relabel_eq_ok.mp h
    obtain ⟨_,index,account,hc,rfl⟩ := setLocked_ok h
    exact hd.replace hc rfl rfl ((hd.accounts account (List.mem_of_getElem? hc)).withLock locked)

theorem Call.run_wellFormed {c : Call} {d d' : Database} {u : Unit} (h : c.run d = .ok u d')
    (hd : d.WellFormed) : d'.WellFormed := by
  cases c with
  | createGroup actor name gid members =>
    obtain ⟨_,h⟩ := relabel_eq_ok.mp h
    exact createGroup_wellFormed h hd
  | modifyGroup actor gid update =>
    obtain ⟨_,h⟩ := relabel_eq_ok.mp h
    exact modifyGroup_wellFormed h hd
  | deleteGroup actor gid =>
    obtain ⟨_,h⟩ := relabel_eq_ok.mp h
    exact deleteGroup_wellFormed h hd
  | createUser actor spec password hasher =>
    obtain ⟨_,h⟩ := relabel_eq_ok.mp h
    obtain ⟨_,h⟩ := createUser_ok h
    exact h.wellFormed hd
  | createLockedUser actor spec =>
    obtain ⟨_,h⟩ := relabel_eq_ok.mp h
    exact (createLockedUser_ok h).wellFormed hd
  | modifyUser actor uid update =>
    obtain ⟨_,h⟩ := relabel_eq_ok.mp h
    exact modifyUser_wellFormed h hd
  | deleteUser actor uid =>
    obtain ⟨_,h⟩ := relabel_eq_ok.mp h
    exact deleteUser_wellFormed h hd
  | changePassword actor uid old new confirmation policy verifier hasher =>
    obtain ⟨_,h⟩ := relabel_eq_ok.mp h
    obtain ⟨index,account,encoded,hc,_,hv,_,rfl⟩ := changePassword_ok h
    exact hd.replace hc rfl rfl rfl ((hd.accounts account (List.mem_of_getElem? hc)).withHash hv)
  | setLocked actor uid locked =>
    obtain ⟨_,h⟩ := relabel_eq_ok.mp h
    obtain ⟨_,index,account,hc,rfl⟩ := setLocked_ok h
    exact hd.replace hc rfl rfl rfl ((hd.accounts account (List.mem_of_getElem? hc)).withLock locked)

/-- Integrity of the account store: whatever a command is given and however it ends,
it leaves a well-formed database well formed. -/
theorem call_keeps_integrity (c : Call) (d : Database) (hd : d.WellFormed) :
    (after c.run d).WellFormed :=
  c.run_conservative.preserves hd fun _ _ h => c.run_wellFormed h hd

/-- A session that holds the account capability. -/
def rootSession : SessionCredentials := ⟨0,0,0,0,0,0,capAccountAdmin⟩

theorem bob_utf8 : validUtf8 (ascii "bob") = true := by decide
theorem bobHome_utf8 : validUtf8 (ascii "/users/bob") = true := by decide
theorem nsh_utf8 : validUtf8 (ascii "/bin/nsh") = true := by decide

def usersGroup : GroupEntry := ⟨⟨ascii "users",by decide⟩,1000,[]⟩

private theorem usersGroup_valid : usersGroup.Valid := ⟨rfl,by simp [usersGroup],by decide⟩

theorem usersDatabase_wellFormed : (Database.mk [] [usersGroup]).WellFormed where
  names := by simp
  uids := by simp
  groupNames := by simp
  gids := by simp
  accounts := by simp
  groups := by simpa using usersGroup_valid
  accountLimit := by simp
  groupLimit := by simp [maxGroups]
  primary := by simp
  members := by simp [usersGroup]
  membersOnce := by simp [usersGroup]

theorem call_keeps_integrity_users :
    (after (Call.createLockedUser rootSession
      ⟨⟨ascii "bob",by decide⟩,none,some 1000,[usersGroup.name],some ⟨ascii "/users/bob",by decide⟩,
        some ⟨ascii "/bin/nsh",by decide⟩,0,0⟩).run (Database.mk [] [usersGroup])).WellFormed :=
  call_keeps_integrity _ _ usersDatabase_wellFormed

/-- Every exit of every command comes before its first write, whatever the database
and the arguments. -/
theorem refused_call_changes_nothing (c : Call) (d d' : Database) (e : CallError)
    (h : c.run d = .error e d') : d' = d :=
  c.run_conservative d e d' h

theorem refused_call_changes_nothing_users : ∃ e d',
    (Call.deleteUser rootSession 0).run ⟨[],[usersGroup]⟩ = .error e d' ∧ d' = ⟨[],[usersGroup]⟩ :=
  ⟨_,_,rfl,refused_call_changes_nothing (.deleteUser rootSession 0) _ _ (.admin .notFound) rfl⟩

end UserDb.Norx
