import UserDb.Norx.Sessions

/-! Who can log in after a run of calls, and what sessions can do: the password that opens an account is
the last one that was set for it, and without a login of an administrator nothing but passwords changes. -/
namespace UserDb.Norx
open UserDb.Base UserDb.Base.Outcomes

section Policy

end Policy

/-- A verifier that tells the passwords of a hasher apart, and accepts nothing for a locked account. -/
structure Recognizes (verifier : PasswordVerifier) (hasher : PasswordHasher) : Prop where
  own : ∀ {password encoded attempt}, hasher password = some encoded → (verifier attempt encoded.bytes = true ↔ attempt = password)
  locked : ∀ attempt, verifier attempt lockedPasswordHash.bytes = false

/-- The hasher and the verifier of a call, where it has them. -/
def Call.Uses (verifier : PasswordVerifier) (hasher : PasswordHasher) : Call → Prop
  | .createUser _ _ _ hasher' => hasher' = hasher
  | .changePassword _ _ _ _ _ _ verifier' hasher' => verifier' = verifier ∧ hasher' = hasher
  | _ => True

/-- The passwords of the users, by their ids. -/
abbrev Passwords := UInt32 → Option Bytes

/-- The passwords after a call on a database. -/
def Call.passwords (c : Call) (d : Database) (known : Passwords) : Passwords :=
  match c.accepted d, c with
  | true, .createUser _ spec password _ =>
    match spec.uid.orElse fun _ => nextId (d.accounts.map (·.entry.uid)) with
    | some uid => Function.update known uid (some password)
    | none => known
  | true, .createLockedUser _ spec =>
    match spec.uid.orElse fun _ => nextId (d.accounts.map (·.entry.uid)) with
    | some uid => Function.update known uid none
    | none => known
  | true, .deleteUser _ uid => Function.update known uid none
  | true, .changePassword _ uid _ new _ _ _ _ => Function.update known uid (some new)
  | _, _ => known

/-- The hashes stand for these passwords. -/
def Directory.Keeps (D : Directory) (verifier : PasswordVerifier) (known : Passwords) : Prop :=
  ∀ uid account, D.user uid = some account → ∀ attempt, verifier attempt account.passwordHash.bytes = true ↔ known uid = some attempt

section Keeping
variable {D D' : Directory} {verifier : PasswordVerifier} {hasher : PasswordHasher} {known : Passwords} {account : Account}
  {password : Option Bytes}

/-- One account with its password, and the others as they are. -/
theorem Directory.Keeps.update (h : D.Keeps verifier known) {uid : UInt32}
    (huser : D'.user = Function.update D.user uid (some account))
    (hpassword : ∀ attempt, verifier attempt account.passwordHash.bytes = true ↔ password = some attempt) :
    D'.Keeps verifier (Function.update known uid password) := by
  intro other another hother attempt
  rw [huser,Function.update_apply] at hother
  rw [Function.update_apply]
  by_cases hsame : other = uid
  · rw [if_pos hsame] at hother ⊢
    rw [← Option.some.inj hother]
    exact hpassword attempt
  · rw [if_neg hsame] at hother ⊢
    exact h other another hother attempt

/-- An account that is written again with its hash. -/
theorem Directory.Keeps.again (h : D.Keeps verifier known) {uid : UInt32} {account' : Account} (hcurrent : D.user uid = some account)
    (huser : D'.user = Function.update D.user uid (some account')) (hhash : account'.passwordHash = account.passwordHash) :
    D'.Keeps verifier known := by
  have hpassword : ∀ attempt, verifier attempt account'.passwordHash.bytes = true ↔ known uid = some attempt := fun attempt => by
    rw [hhash]
    exact h uid account hcurrent attempt
  have hkeeps := h.update huser hpassword
  rwa [Function.update_eq_self] at hkeeps

private theorem chosen_uid {d : Database} (hd : d.WellFormed) {requested : Option UInt32} {uid : UInt32}
    (h : Chosen requested (hd.directory.user · = none) uid) :
    (requested.orElse fun _ => nextId (d.accounts.map (·.entry.uid))) = some uid :=
  (chosen_iff.mpr ((Chosen.congr fun _ => directory_free hd).mp h)).1

theorem Call.keeps {d : Database} (hd : d.WellFormed) (hverifier : Recognizes verifier hasher) {c : Call} (huses : c.Uses verifier hasher)
    (h : hd.directory.Keeps verifier known) : (hd.after c).directory.Keeps verifier (c.passwords d known) := by
  have hanswer := c.answers hd
  cases haccepted : c.accepted d with
  | false =>
    rw [haccepted] at hanswer
    have hsame : c.passwords d known = known := by
      unfold Call.passwords
      rw [haccepted]
    rw [hsame,hanswer.1]
    exact h
  | true =>
    rw [haccepted] at hanswer
    have hperforms : hd.directory.Performs (hd.after c).directory c := hanswer
    unfold Call.passwords
    rw [haccepted]
    cases hperforms with
    | createGroup gid _ _ _ _ _ _ huser =>
      intro uid account haccount
      rw [huser] at haccount
      exact h uid account haccount
    | modifyGroup name _ _ _ _ _ huser =>
      intro uid account haccount
      rw [huser] at haccount
      exact h uid account haccount
    | deleteGroup _ _ _ _ huser =>
      intro uid account haccount
      rw [huser] at haccount
      exact h uid account haccount
    | createUser account _ hwelcome _ hhash hadds =>
      simp only [chosen_uid hd hwelcome.chosen]
      refine h.update hadds.user fun attempt => ?_
      have hhasher := hhash.1
      rw [show _ = hasher from huses] at hhasher
      rw [hverifier.own hhasher,Option.some.injEq]
      exact eq_comm
    | createLockedUser account _ hwelcome hhash hadds =>
      have hchosen := chosen_uid hd hwelcome.chosen
      simp only at hchosen
      simp only [hchosen]
      refine h.update hadds.user fun attempt => ?_
      rw [hhash,hverifier.locked]
      exact iff_of_false Bool.false_ne_true fun h => (by cases h)
    | modifyUser account _ hcurrent _ _ _ _ huser => exact h.again hcurrent huser rfl
    | deleteUser _ _ _ _ huser =>
      intro other another hother attempt
      rw [huser,Function.update_apply] at hother
      show _ ↔ Function.update known _ none other = _
      rw [Function.update_apply]
      split at hother
      · cases hother
      · rename_i hne
        rw [if_neg hne]
        exact h other another hother attempt
    | changePassword account encoded hcurrent _ _ _ hhash hchanged =>
      have huid := hd.directory.own hcurrent
      have huser := hchanged.user
      rw [show ({ account with passwordHash := encoded } : Account).entry.uid = _ from huid] at huser
      refine h.update huser fun attempt => ?_
      have hhasher := hhash.1
      rw [show _ = hasher from huses.2] at hhasher
      rw [hverifier.own hhasher,Option.some.injEq]
      exact eq_comm
    | setLocked account _ hcurrent hchanged =>
      have huid := hd.directory.own hcurrent
      have huser := hchanged.user
      rw [show (account.withLock _).entry.uid = _ from huid] at huser
      exact h.again hcurrent huser rfl

end Keeping

section Service
variable {σ : Type}

/-- A store with the sessions that are open on it. -/
structure Service (σ : Type) where
  store : Session σ
  sessions : List SessionCredentials

inductive ServiceEvent (σ : Type) : Type 1 where
  | login (name password : Bytes) (verifier : PasswordVerifier)
  | inherit (credentials : SessionCredentials)
  | close (credentials : SessionCredentials)
  | request (r : Request σ)

/-- Requests are made with the credentials of a session, and sessions come from logins. -/
inductive Service.Step : ServiceEvent σ → Service σ → Service σ → Prop
  | login {s : Service σ} {name password : Bytes} {verifier : PasswordVerifier} {credentials : SessionCredentials}
      (accepted : s.store.database.authenticate name password verifier = .ok credentials) :
      Step (.login name password verifier) s { s with sessions := credentials :: s.sessions }
  | denied {s : Service σ} {name password : Bytes} {verifier : PasswordVerifier} {e : AuthError}
      (refused : s.store.database.authenticate name password verifier = .error e) : Step (.login name password verifier) s s
  | inherit {s : Service σ} {credentials : SessionCredentials} (own : credentials ∈ s.sessions) :
      Step (.inherit credentials) s { s with sessions := credentials.inherit :: s.sessions }
  | close {s : Service σ} {credentials : SessionCredentials} :
      Step (.close credentials) s { s with sessions := s.sessions.erase credentials }
  | request {s : Service σ} {r : Request σ} (own : r.actor ∈ s.sessions) :
      Step (.request r) s { s with store := Request.run s.store r }

/-- No more than passwords differ from a database and its storage, and nobody can do more. -/
structure Service.Untouched (d : Database) (files : σ) (s : Service σ) : Prop where
  files : s.store.files = files
  log : s.store.log = []
  entries : s.store.database.accounts.map (·.entry) = d.accounts.map (·.entry)
  groups : s.store.database.groups = d.groups
  sessions : ∀ credentials ∈ s.sessions, credentials.Unprivileged

/-- An administrator of the database logs in while it is untouched. -/
def AdministratorLogin (d : Database) (files : σ) (start : Service σ) (events : List (ServiceEvent σ)) : Prop :=
  ∃ before name password verifier later s entry, events = before ++ ServiceEvent.login name password verifier :: later ∧
    Run Service.Step before start s ∧ s.Untouched d files ∧ entry ∈ d.listUsers ∧ entry.name.bytes = name ∧ entry.isEnabled = true ∧
      entry.capabilities &&& capAccountAdmin = capAccountAdmin ∧
      s.store.database.authenticate name password verifier = .ok (.fromUser entry)

variable {d : Database} {files : σ} {s s' start : Service σ} {events : List (ServiceEvent σ)} {event : ServiceEvent σ}

private theorem authenticate_entry {name password : Bytes} {verifier : PasswordVerifier} {credentials : SessionCredentials} {d : Database}
    (h : d.authenticate name password verifier = .ok credentials) :
    ∃ entry ∈ d.listUsers, entry.name.bytes = name ∧ entry.isEnabled = true ∧ credentials = .fromUser entry := by
  unfold Database.authenticate at h
  split at h
  · cases h
  · rename_i account hfind
    split at h
    · cases h
    · rename_i hallowed
      simp only [Bool.or_eq_true,Bool.not_eq_true',not_or,Bool.not_eq_false] at hallowed
      refine ⟨account.entry,List.mem_map_of_mem (List.mem_of_find?_eq_some hfind),?_,hallowed.1,(Except.ok.inj h).symm⟩
      have hname := List.find?_some hfind
      exact eq_of_beq hname

/-- One event leaves the service untouched, or is the login of an administrator. -/
theorem Service.Step.untouched (hstep : Service.Step event s s') (h : s.Untouched d files) :
    s'.Untouched d files ∨ ∃ name password verifier entry, event = .login name password verifier ∧ entry ∈ d.listUsers ∧
      entry.name.bytes = name ∧ entry.isEnabled = true ∧ entry.capabilities &&& capAccountAdmin = capAccountAdmin ∧
      s.store.database.authenticate name password verifier = .ok (.fromUser entry) := by
  cases hstep with
  | @login _ name password verifier credentials haccepted =>
    obtain ⟨entry,hentry,hname,henabled,rfl⟩ := authenticate_entry haccepted
    rw [Database.listUsers,h.entries] at hentry
    cases hcapability : (SessionCredentials.fromUser entry).hasCapability capAccountAdmin with
    | false => exact .inl ⟨h.files,h.log,h.entries,h.groups,List.forall_mem_cons.mpr ⟨hcapability,h.sessions⟩⟩
    | true => exact .inr ⟨name,password,verifier,entry,rfl,hentry,hname,henabled,eq_of_beq hcapability,haccepted⟩
  | denied => exact .inl h
  | inherit hown => exact .inl ⟨h.files,h.log,h.entries,h.groups,List.forall_mem_cons.mpr ⟨h.sessions _ hown,h.sessions⟩⟩
  | close => exact .inl ⟨h.files,h.log,h.entries,h.groups,fun c hc => h.sessions c (List.mem_of_mem_erase hc)⟩
  | @request _ r hown =>
    left
    rcases Request.run_unprivileged (h.sessions _ hown) s.store with hsame | ⟨_,_,hfiles,hlog,_,_,_,_,_,_,_,_,index,account,encoded,
      _,hplace,_,_,_,hdatabase⟩
    · rw [hsame]
      exact h
    · refine ⟨hfiles.trans h.files,hlog.trans h.log,?_,?_,h.sessions⟩
      · show (Request.run s.store r).database.accounts.map (·.entry) = _
        rw [hdatabase]
        have hentry : ({ account with passwordHash := encoded } : Account).entry = account.entry := rfl
        exact (map_set_of_eq Account.entry hplace hentry).trans h.entries
      · show (Request.run s.store r).database.groups = _
        rw [hdatabase]
        exact h.groups

theorem Service.Untouched.run (hrun : Run Service.Step events s s') (h : s.Untouched d files) :
    s'.Untouched d files ∨ AdministratorLogin d files s events := by
  induction hrun with
  | nil => exact .inl h
  | @cons event events s t u hfirst hrest ih =>
    rcases hfirst.untouched h with hnext | ⟨name,password,verifier,entry,rfl,hlogin⟩
    · rcases ih hnext with hdone | ⟨before,name,password,verifier,later,t',entry,rfl,hbefore,hlogin⟩
      · exact .inl hdone
      · exact .inr ⟨event :: before,name,password,verifier,later,t',entry,rfl,.cons hfirst hbefore,hlogin⟩
    · exact .inr ⟨[],name,password,verifier,events,s,entry,rfl,.nil s,h,hlogin⟩

/-- Whatever is requested in the sessions of a service: until an administrator of the database it started
with has logged in, passwords are all that changes. -/
theorem administrator_logs_in_first (d : Database) (files : σ)
    (hrun : Run Service.Step events ⟨⟨d,files,[]⟩,[]⟩ s') :
    s'.Untouched d files ∨ AdministratorLogin d files ⟨⟨d,files,[]⟩,[]⟩ events :=
  Service.Untouched.run hrun ⟨rfl,rfl,rfl,rfl,fun _ h => absurd h List.not_mem_nil⟩

def bobEntry : UserEntry :=
  ⟨⟨ascii "bob",bob_utf8⟩,1000,1000,0,capAccountAdmin,⟨ascii "/users/bob",bobHome_utf8⟩,⟨ascii "/bin/nsh",nsh_utf8⟩⟩

def bobLogin : ServiceEvent Unit := .login (ascii "bob") (ascii "long enough") fun password _ => password == ascii "long enough"

theorem administrator_logs_in_first_bob :
    ∃ s, Service.Untouched ⟨[⟨bobEntry,lockedPasswordHash⟩],[usersGroup]⟩ () s ∨
      AdministratorLogin ⟨[⟨bobEntry,lockedPasswordHash⟩],[usersGroup]⟩ () ⟨⟨⟨[⟨bobEntry,lockedPasswordHash⟩],[usersGroup]⟩,(),[]⟩,[]⟩
        [bobLogin] := by
  have haccepted : Database.authenticate ⟨[⟨bobEntry,lockedPasswordHash⟩],[usersGroup]⟩ (ascii "bob") (ascii "long enough")
      (fun password _ => password == ascii "long enough") = .ok (.fromUser bobEntry) := by decide +kernel
  exact ⟨_,administrator_logs_in_first _ () (.cons (.login haccepted) (.nil _))⟩

end Service

end UserDb.Norx
