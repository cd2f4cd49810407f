import UserDb.Norx.DirectoryCalls
import UserDb.Norx.Unprivileged

/-! Looking up and logging in. What these show is the directory that the calls have made, and the
password that opens an account is the last one that was set. -/
namespace UserDb.Norx
open UserDb.Base UserDb.Base.Outcomes

def UserEntry.isEnabled (self : UserEntry) : Bool := self.flags &&& (flagDisabled ||| flagLocked ||| flagExpired) == 0

def SessionCredentials.fromUser (user : UserEntry) : SessionCredentials where
  realUid := user.uid
  effectiveUid := user.uid
  savedUid := user.uid
  realGid := user.gid
  effectiveGid := user.gid
  savedGid := user.gid
  capabilities := user.capabilities

def SessionCredentials.inherit (self : SessionCredentials) : SessionCredentials := self

def Database.lookupUser (self : Database) (name : Bytes) : Option UserEntry :=
  (self.accounts.find? (fun account => account.entry.name.bytes == name)).map (·.entry)

def Database.lookupGroup (self : Database) (name : Bytes) : Option GroupEntry :=
  self.groups.find? fun group => group.name.bytes == name

def Database.authenticate (self : Database) (name password : Bytes) (verifier : PasswordVerifier) :
    Except AuthError SessionCredentials :=
  match self.accounts.find? fun account => account.entry.name.bytes == name with
  | none => .error .denied
  | some account =>
    if !account.entry.isEnabled || !verifier password account.passwordHash.bytes then .error .denied
    else .ok (.fromUser account.entry)

def Database.listUsers (self : Database) : List UserEntry := self.accounts.map (·.entry)

def Database.listGroups (self : Database) : List GroupEntry := self.groups

/-- A group as a directory has it, with its members by their names. -/
structure Directory.HasGroup (D : Directory) (group : GroupEntry) : Prop where
  name : D.group group.gid = some group.name
  members : D.ListsUsers group.members
  member : D.member group.gid = D.named group.members

/-- Whom a password opens an account for. -/
def Directory.Opens (D : Directory) (name password : Bytes) (verifier : PasswordVerifier) (credentials : SessionCredentials) : Prop :=
  ∃ uid account, D.user uid = some account ∧ account.entry.name.bytes = name ∧ account.entry.isEnabled = true ∧
    verifier password account.passwordHash.bytes = true ∧ credentials = .fromUser account.entry

/-- Everything that can be read from a database is what a directory says. -/
structure Database.Shows (d : Database) (D : Directory) : Prop where
  lookupUser : ∀ name entry, d.lookupUser name = some entry ↔
    (∃ account, D.user entry.uid = some account ∧ account.entry = entry) ∧ entry.name.bytes = name
  lookupGroup : ∀ name group, d.lookupGroup name = some group → D.HasGroup group ∧ group.name.bytes = name
  noGroup : ∀ name, d.lookupGroup name = none ↔ ∀ gid text, D.group gid = some text → text.bytes ≠ name
  users : d.listUsers.Nodup ∧ ∀ entry, entry ∈ d.listUsers ↔ ∃ account, D.user entry.uid = some account ∧ account.entry = entry
  groups : (∀ group ∈ d.listGroups, D.HasGroup group) ∧ (d.listGroups.map (·.gid)).Nodup ∧
    ∀ gid, D.group gid ≠ none → gid ∈ d.listGroups.map (·.gid)
  authenticate : ∀ name password verifier credentials, d.authenticate name password verifier = .ok credentials ↔
    D.Opens name password verifier credentials

section Reading
variable {d : Database} (hd : d.WellFormed) {name : Bytes}

theorem Text.bytes_injective : Function.Injective Text.bytes := fun _ _ h => Text.ext h

private theorem findName_eq (name : Bytes) (l : List Account) :
    l.find? (fun account => account.entry.name.bytes == name) = keyed (·.entry.name.bytes) l name :=
  find?_keyed (fun _ => beq_iff_eq) l

theorem findGroup_eq (name : Bytes) (d : Database) : d.lookupGroup name = keyed (·.name.bytes) d.groups name :=
  find?_keyed (fun _ => beq_iff_eq) d.groups

theorem findName_eq_some (hd : d.WellFormed) {account : Account} :
    d.accounts.find? (fun account => account.entry.name.bytes == name) = some account ↔
      account ∈ d.accounts ∧ account.entry.name.bytes = name := by
  have hnodup : (d.accounts.map (·.entry.name.bytes)).Nodup := by
    have hmap := hd.names.map Text.bytes_injective
    rwa [List.map_map] at hmap
  rw [findName_eq]
  exact keyed_eq_some hnodup

private theorem findGroup_eq_some (hd : d.WellFormed) {group : GroupEntry} :
    d.lookupGroup name = some group ↔ group ∈ d.groups ∧ group.name.bytes = name := by
  have hnodup : (d.groups.map (·.name.bytes)).Nodup := by
    have hmap := hd.groupNames.map Text.bytes_injective
    rwa [List.map_map] at hmap
  rw [findGroup_eq]
  exact keyed_eq_some hnodup

private theorem directory_entry {entry : UserEntry} :
    (∃ account, hd.directory.user entry.uid = some account ∧ account.entry = entry) ↔ entry ∈ d.listUsers := by
  constructor
  · rintro ⟨account,haccount,rfl⟩
    exact List.mem_map_of_mem (accountOf_mem haccount)
  · intro hentry
    obtain ⟨account,haccount,rfl⟩ := List.mem_map.mp hentry
    exact ⟨account,hd.accountOf_self haccount,rfl⟩

private theorem directory_hasGroup {group : GroupEntry} (hgroup : group ∈ d.groups) : hd.directory.HasGroup group := by
  refine ⟨(directory_group hd).mpr ⟨group,hgroup,rfl,rfl⟩,(directory_listsUsers hd).mpr (hd.accepts hgroup),?_⟩
  ext uid
  constructor
  · rintro ⟨group',account,hgroup',haccount,hmember⟩
    cases (hd.groupOf_self hgroup).symm.trans hgroup'
    exact ⟨account,haccount,hmember⟩
  · rintro ⟨account,haccount,hmember⟩
    exact ⟨group,account,hd.groupOf_self hgroup,haccount,hmember⟩

theorem authenticate_eq_ok (hd : d.WellFormed) {password : Bytes} {verifier : PasswordVerifier} {credentials : SessionCredentials} :
    d.authenticate name password verifier = .ok credentials ↔ ∃ account ∈ d.accounts, account.entry.name.bytes = name ∧
      account.entry.isEnabled = true ∧ verifier password account.passwordHash.bytes = true ∧ credentials = .fromUser account.entry := by
  unfold Database.authenticate
  cases hfind : d.accounts.find? (fun account => account.entry.name.bytes == name) with
  | none =>
    refine iff_of_false (fun h => by cases h) ?_
    rintro ⟨account,haccount,hname,_⟩
    have hfound := (findName_eq_some hd).mpr ⟨haccount,hname⟩
    rw [hfind] at hfound
    cases hfound
  | some account =>
    obtain ⟨hmem,hname⟩ := (findName_eq_some hd).mp hfind
    have hunique : ∀ other ∈ d.accounts, other.entry.name.bytes = name → account = other := by
      intro other hother heq
      exact Option.some.inj (hfind.symm.trans ((findName_eq_some hd).mpr ⟨hother,heq⟩))
    show (if _ then _ else _) = _ ↔ _
    split
    · rename_i hdenied
      refine iff_of_false (fun h => by cases h) ?_
      rintro ⟨other,hother,heq,henabled,hverify,_⟩
      obtain rfl := hunique other hother heq
      rw [henabled,hverify] at hdenied
      cases hdenied
    · rename_i hallowed
      simp only [Bool.or_eq_true,Bool.not_eq_true',not_or,Bool.not_eq_false] at hallowed
      rw [Except.ok.injEq]
      constructor
      · rintro rfl
        exact ⟨account,hmem,hname,hallowed.1,hallowed.2,rfl⟩
      · rintro ⟨other,hother,heq,_,_,rfl⟩
        rw [hunique other hother heq]

private theorem shows_directory : d.Shows hd.directory where
  lookupUser name entry := by
    rw [directory_entry hd,Database.lookupUser,Option.map_eq_some_iff]
    constructor
    · rintro ⟨account,hfind,rfl⟩
      obtain ⟨hmem,hname⟩ := (findName_eq_some hd).mp hfind
      exact ⟨List.mem_map_of_mem hmem,hname⟩
    · rintro ⟨hentry,hname⟩
      obtain ⟨account,hmem,rfl⟩ := List.mem_map.mp hentry
      exact ⟨account,(findName_eq_some hd).mpr ⟨hmem,hname⟩,rfl⟩
  lookupGroup name group h := by
    obtain ⟨hmem,hname⟩ := (findGroup_eq_some hd).mp h
    exact ⟨directory_hasGroup hd hmem,hname⟩
  noGroup name := by
    rw [findGroup_eq,keyed_eq_none]
    constructor
    · intro h gid text hgroup
      obtain ⟨group,hmem,_,rfl⟩ := (directory_group hd).mp hgroup
      exact h group hmem
    · intro h group hmem
      exact h group.gid group.name ((directory_group hd).mpr ⟨group,hmem,rfl,rfl⟩)
  users := by
    refine ⟨?_,fun entry => (directory_entry hd).symm⟩
    have hnodup : (d.accounts.map fun account => account.entry.uid).Nodup := hd.uids
    rw [show (fun account : Account => account.entry.uid) = (fun entry : UserEntry => entry.uid) ∘ (·.entry) from rfl,
      ← List.map_map] at hnodup
    exact hnodup.of_map _
  groups := by
    refine ⟨fun group hmem => directory_hasGroup hd hmem,hd.gids,fun gid hgid => ?_⟩
    obtain ⟨name,hname⟩ := Option.ne_none_iff_exists'.mp hgid
    obtain ⟨group,hmem,rfl,_⟩ := (directory_group hd).mp hname
    exact List.mem_map_of_mem hmem
  authenticate name password verifier credentials := by
    rw [authenticate_eq_ok hd]
    constructor
    · rintro ⟨account,hmem,hrest⟩
      exact ⟨account.entry.uid,account,hd.accountOf_self hmem,hrest⟩
    · rintro ⟨uid,account,haccount,hrest⟩
      exact ⟨account,accountOf_mem haccount,hrest⟩

end Reading

def Call.accepted (c : Call) (d : Database) : Bool :=
  match c.run d with
  | .ok _ _ => true
  | .error _ _ => false

def Database.runCalls (d : Database) (calls : List Call) : Database := calls.foldl (fun d c => after c.run d) d

/-- The calls of a run, with whether they were accepted. -/
def Database.history : Database → List Call → List (Call × Bool)
  | _, [] => []
  | d, c :: calls => (c,c.accepted d) :: Database.history (after c.run d) calls

/-- A call that is allowed is carried out, and another one is refused. -/
def Directory.Answers (answer : Call × Bool) (D D' : Directory) : Prop :=
  match answer.2 with
  | true => D.Performs D' answer.1
  | false => D' = D ∧ ∀ D'', ¬ D.Performs D'' answer.1

section Runs
variable {d : Database}

theorem Call.run_cases (c : Call) (d : Database) :
    (c.accepted d = true ∧ c.run d = .ok () (after c.run d)) ∨
      (c.accepted d = false ∧ after c.run d = d ∧ ∀ d', c.run d ≠ .ok () d') := by
  unfold Call.accepted
  cases hrun : c.run d with
  | ok _ d' =>
    left
    rw [after_of_ok hrun]
    exact ⟨rfl,rfl⟩
  | error e d' =>
    right
    rw [after_of_error hrun]
    exact ⟨rfl,c.run_conservative d e d' hrun,fun _ h => by cases h⟩

theorem Database.WellFormed.after (hd : d.WellFormed) (c : Call) : (after c.run d).WellFormed := by
  rcases c.run_cases d with ⟨_,hrun⟩ | ⟨_,hsame,_⟩
  · exact c.run_wellFormed hrun hd
  · rwa [hsame]

theorem Call.answers (hd : d.WellFormed) (c : Call) : Directory.Answers (c,c.accepted d) hd.directory (hd.after c).directory := by
  rcases c.run_cases d with ⟨haccepted,hrun⟩ | ⟨haccepted,hsame,hrefused⟩
  · rw [haccepted]
    exact c.run_performs hd (hd.after c) hrun
  · rw [haccepted]
    refine ⟨?_,fun D' h => ?_⟩
    · congr 1
    · obtain ⟨d',hrun⟩ := c.performs_run hd h
      exact hrefused d' hrun

theorem Database.WellFormed.runCalls (hd : d.WellFormed) (calls : List Call) :
    ∃ hd' : (d.runCalls calls).WellFormed, Run Directory.Answers (d.history calls) hd.directory hd'.directory := by
  induction calls generalizing d with
  | nil => exact ⟨hd,.nil _⟩
  | cons c calls ih =>
    obtain ⟨hd',hrun⟩ := ih (hd.after c)
    exact ⟨hd',.cons (c.answers hd) hrun⟩

/-- The account store refines the directory: it answers every run of calls as the directory does, and all
that can be read from it is what the directory says then. -/
theorem calls_follow_directory (hd : d.WellFormed) (calls : List Call) :
    ∃ D, Run Directory.Answers (d.history calls) hd.directory D ∧ (d.runCalls calls).Shows D := by
  obtain ⟨hd',hrun⟩ := hd.runCalls calls
  exact ⟨hd'.directory,hrun,shows_directory hd'⟩

def createBob : Call := .createLockedUser rootSession bobSpec

theorem calls_follow_directory_bob :
    ∃ D, Run Directory.Answers ((Database.mk [] [usersGroup]).history [createBob]) usersDatabase_wellFormed.directory D ∧
      ((Database.mk [] [usersGroup]).runCalls [createBob]).Shows D :=
  calls_follow_directory usersDatabase_wellFormed [createBob]

end Runs

end UserDb.Norx
