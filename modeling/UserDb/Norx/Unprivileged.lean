import UserDb.Norx.RoundTrip
import UserDb.Norx.Storage

/-! Sessions without the account capability: whatever they ask for, in whatever order,
storage is never touched and only their own password hashes can change. -/
namespace UserDb.Norx
open UserDb.Base UserDb.Base.Outcomes

variable {σ α ρ : Type}

/-- Make a call, and record that it was made. -/
def recorded (method : StorageMethod) (call : StorageCall σ α) :
    StorageCall (σ × List StorageMethod) α := fun (s,log) =>
  match call s with
  | .ok a s' => .ok a (s',log ++ [method])
  | .error e s' => .error e (s',log ++ [method])

/-- A storage that keeps a log of every method that is invoked on it. -/
def AtomicStorage.logged (storage : AtomicStorage σ) : AtomicStorage (σ × List StorageMethod) where
  read path := recorded .read (storage.read path)
  lock := recorded .lock storage.lock
  writeTemp path contents := recorded .writeTemp (storage.writeTemp path contents)
  syncFile path := recorded .syncFile (storage.syncFile path)
  replace temp committed := recorded .replace (storage.replace temp committed)
  syncParent path := recorded .syncParent (storage.syncParent path)
  unlock := recorded .unlock storage.unlock

/-- Everything that can be asked of a database: the nine calls and the two transactions. -/
inductive Request (σ : Type) : Type 1 where
  | call (c : Call)
  | transact (actor : SessionCredentials) (storage : AtomicStorage σ) (committedPath tempPath : Bytes)
      (operation : DatabaseCall AdminError Unit)
  | transactWith {ρ : Type} (actor : SessionCredentials) (storage : AtomicStorage σ)
      (committedPath tempPath : Bytes) (operation : DatabaseCall AdminError ρ)

def Call.actor : Call → SessionCredentials
  | .createGroup actor _ _ _ | .modifyGroup actor _ _ | .deleteGroup actor _
  | .createUser actor _ _ _ | .createLockedUser actor _ | .modifyUser actor _ _
  | .deleteUser actor _ | .changePassword actor _ _ _ _ _ _ _ | .setLocked actor _ _ => actor

def Request.actor : Request σ → SessionCredentials
  | .call c => c.actor
  | .transact actor _ _ _ _ | .transactWith actor _ _ _ _ => actor

/-- What a database holds and what its storage has been asked to do. -/
structure Session (σ : Type) where
  database : Database
  files : σ
  log : List StorageMethod

def Session.ofPair (pair : Database × σ × List StorageMethod) : Session σ := ⟨pair.1,pair.2.1,pair.2.2⟩

/-- The session after a request, however the request ends. -/
def Request.run (self : Session σ) : Request σ → Session σ
  | .call c => { self with database := after c.run self.database }
  | .transact actor storage committedPath tempPath operation =>
    .ofPair (after (transactAdmin storage.logged actor committedPath tempPath operation)
      (self.database,self.files,self.log))
  | .transactWith actor storage committedPath tempPath operation =>
    .ofPair (after (transactAdminWith storage.logged actor committedPath tempPath operation)
      (self.database,self.files,self.log))

def Session.runAll (self : Session σ) (requests : List (Request σ)) : Session σ :=
  requests.foldl Request.run self

/-- An actor that does not hold the account capability. -/
def SessionCredentials.Unprivileged (actor : SessionCredentials) : Prop :=
  actor.hasCapability capAccountAdmin = false

section Refusals
variable {actor : SessionCredentials}

theorem requireAdmin_unprivileged (h : actor.Unprivileged) :
    requireAdmin actor = .error .permissionDenied := by
  rw [requireAdmin,h]
  rfl

/-- Whatever would follow, the check refuses first and leaves the state alone. -/
theorem requireAdmin_refuses (h : actor.Unprivileged) (f : Unit → DatabaseCall AdminError α) (d : Database) :
    (lift (requireAdmin actor) >>= f : DatabaseCall AdminError α) d = .error .permissionDenied d := by
  rw [requireAdmin_unprivileged h]
  rfl

private theorem after_relabel_refused {ε ε' : Type} {call : DatabaseCall ε α} {d : Database} {e : ε}
    (f : ε → ε') (h : call d = .error e d) : after (relabel f call) d = d := by
  simp only [after,relabel,h]

private theorem transactAdminWith_unprivileged (h : actor.Unprivileged) (storage : AtomicStorage σ)
    (committedPath tempPath : Bytes) (operation : DatabaseCall AdminError ρ) (d : Database) (s : σ) :
    transactAdminWith storage actor committedPath tempPath operation (d,s) =
      .error .permissionDenied (d,s) := by
  rw [transactAdminWith_eq,requireAdmin_unprivileged h]

end Refusals

/-- A password change of the caller's own account that the verifier has let through. -/
def OwnPasswordChange (d d' : Database) (c : Call) : Prop :=
  ∃ actor targetUid old newPassword confirmation policy verifier hasher index account encoded,
    c = .changePassword actor targetUid (some old) newPassword confirmation policy verifier hasher ∧
    d.accounts[index]? = some account ∧ account.entry.uid = actor.effectiveUid ∧
    account.entry.flags &&& (flagDisabled ||| flagLocked) = 0 ∧
    verifier old account.passwordHash.bytes = true ∧
    d' = { d with accounts := d.accounts.set index { account with passwordHash := encoded } }

/-- An unprivileged call changes nothing, or one password in the permitted way. -/
theorem Call.run_unprivileged {c : Call} (h : c.actor.Unprivileged) (d : Database) :
    after c.run d = d ∨ OwnPasswordChange d (after c.run d) c := by
  cases c with
  | createGroup actor name gid members =>
    exact .inl (after_relabel_refused _ (requireAdmin_refuses h _ d))
  | modifyGroup actor gid update =>
    exact .inl (after_relabel_refused _ (requireAdmin_refuses h _ d))
  | deleteGroup actor gid =>
    exact .inl (after_relabel_refused _ (requireAdmin_refuses h _ d))
  | createUser actor spec password hasher =>
    exact .inl (after_relabel_refused _ (requireAdmin_refuses h _ d))
  | createLockedUser actor spec =>
    exact .inl (after_relabel_refused _ (requireAdmin_refuses h _ d))
  | modifyUser actor uid update =>
    exact .inl (after_relabel_refused _ (requireAdmin_refuses h _ d))
  | deleteUser actor uid =>
    exact .inl (after_relabel_refused _ (requireAdmin_refuses h _ d))
  | changePassword actor uid old new confirmation policy verifier hasher =>
    have hno : actor.hasCapability capAccountAdmin = false := h
    cases hrun : Database.changePassword actor uid old new confirmation policy verifier hasher d with
    | error e d' =>
      obtain rfl := changePassword_conservative _ _ _ _ _ _ _ _ d e d' hrun
      exact .inl (after_relabel_refused _ hrun)
    | ok _ d' =>
      obtain ⟨index,account,encoded,hc,huid,_,hauth,rfl⟩ := changePassword_ok hrun
      obtain ⟨heff,hflags,old,rfl,hver⟩ := hauth.resolve_left (by simp [hno])
      refine .inr ⟨actor,uid,old,new,confirmation,policy,verifier,hasher,index,account,encoded,rfl,hc,
        huid.trans heff.symm,hflags,hver,?_⟩
      simp only [after,Call.run,relabel,hrun]
  | setLocked actor uid locked =>
    cases hrun : Database.setLocked actor uid locked d with
    | error e d' =>
      obtain rfl := setLocked_conservative _ _ _ d e d' hrun
      exact .inl (after_relabel_refused _ hrun)
    | ok _ d' =>
      have hadmin := (setLocked_ok hrun).1
      exact absurd (hadmin.symm.trans h) (by decide)

/-- An unprivileged request leaves storage alone and changes at most one password. -/
theorem Request.run_unprivileged {r : Request σ} (h : r.actor.Unprivileged) (self : Session σ) :
    Request.run self r = self ∨ ∃ c, r = .call c ∧
      (Request.run self r).files = self.files ∧ (Request.run self r).log = self.log ∧
      OwnPasswordChange self.database (Request.run self r).database c := by
  cases r with
  | call c =>
    rcases Call.run_unprivileged h self.database with hsame | hown
    · refine .inl ?_
      rw [Request.run,hsame]
    · exact .inr ⟨c,rfl,rfl,rfl,hown⟩
  | transact actor storage committedPath tempPath operation =>
    have h : actor.Unprivileged := h
    refine .inl ?_
    rw [Request.run,transactAdmin,after_of_error (transactAdminWith_unprivileged h _ _ _ _ _ _)]
    rfl
  | transactWith actor storage committedPath tempPath operation =>
    have h : actor.Unprivileged := h
    refine .inl ?_
    rw [Request.run,after_of_error (transactAdminWith_unprivileged h _ _ _ _ _ _)]
    rfl

theorem Session.runAll_concat (self : Session σ) (before : List (Request σ)) (r : Request σ) :
    self.runAll (before ++ [r]) = Request.run (self.runAll before) r := by
  simp [Session.runAll]

/-- A password hash only changes where its owner has asked for it: between the account at
the start and at the end of a run stands a permitted change in which the verifier accepted
the old password against the hash of that moment. -/
def PermittedChange (start : Session σ) (requests : List (Request σ)) (index : Nat) (account : Account) :
    Prop :=
  ∃ before later actor targetUid old newPassword confirmation policy verifier hasher current,
    requests = before ++ Request.call (.changePassword actor targetUid (some old) newPassword confirmation
      policy verifier hasher) :: later ∧
    account.entry.uid = actor.effectiveUid ∧
    (start.runAll before).database.accounts[index]? = some current ∧ current.entry = account.entry ∧
    current.entry.flags &&& (flagDisabled ||| flagLocked) = 0 ∧
    verifier old current.passwordHash.bytes = true

theorem PermittedChange.later {start : Session σ} {requests : List (Request σ)} {index : Nat}
    {account : Account} (h : PermittedChange start requests index account) (r : Request σ) :
    PermittedChange start (requests ++ [r]) index account := by
  obtain ⟨before,later,actor,uid,old,new,confirmation,policy,verifier,hasher,current,hreq,hrest⟩ := h
  refine ⟨before,later ++ [r],actor,uid,old,new,confirmation,policy,verifier,hasher,current,?_,hrest⟩
  rw [hreq,List.append_assoc,List.cons_append]

/-- Unprivileged sessions change nothing but their own passwords. -/
theorem unprivileged_requests_change_own_passwords (d : Database) (s : σ) (requests : List (Request σ))
    (h : ∀ r ∈ requests, r.actor.Unprivileged) :
    (Session.runAll ⟨d,s,[]⟩ requests).files = s ∧ (Session.runAll ⟨d,s,[]⟩ requests).log = [] ∧
    (Session.runAll ⟨d,s,[]⟩ requests).database.accounts.map (·.entry) = d.accounts.map (·.entry) ∧
    (Session.runAll ⟨d,s,[]⟩ requests).database.groups = d.groups ∧
    ∀ index account final, d.accounts[index]? = some account →
      (Session.runAll ⟨d,s,[]⟩ requests).database.accounts[index]? = some final →
      final.passwordHash ≠ account.passwordHash →
        PermittedChange ⟨d,s,[]⟩ requests index account := by
  induction requests using List.reverseRecOn with
  | nil =>
    refine ⟨rfl,rfl,rfl,rfl,?_⟩
    intro index account final ha hf hne
    obtain rfl : account = final := Option.some.inj (ha.symm.trans hf)
    exact absurd rfl hne
  | append_singleton before r ih =>
    obtain ⟨hfiles,hlog,hentries,hgroups,hhash⟩ := ih fun x hx => h x (List.mem_append_left _ hx)
    rw [Session.runAll_concat]
    rcases Request.run_unprivileged (h r (by simp)) (Session.runAll ⟨d,s,[]⟩ before) with
      hsame | ⟨c,rfl,hf,hl,actor,uid,old,new,confirmation,policy,verifier,hasher,i,current,encoded,rfl,
        hcurrent,huid,hflags,hver,hd'⟩
    · rw [hsame]
      exact ⟨hfiles,hlog,hentries,hgroups,fun index account final ha hfin hne =>
        (hhash index account final ha hfin hne).later r⟩
    · refine ⟨hf.trans hfiles,hl.trans hlog,?_,by rw [hd']; exact hgroups,?_⟩
      · rw [hd',← hentries]
        exact map_set_of_eq Account.entry (a := current) hcurrent rfl
      · intro index account final ha hfin hne
        rw [hd'] at hfin
        by_cases hi : i = index
        · subst hi
          have hentry : current.entry = account.entry := by
            have he := congrArg (fun l => l[i]?) hentries
            simp only [List.getElem?_map,hcurrent,ha,Option.map_some] at he
            exact Option.some.inj he
          exact ⟨before,[],actor,uid,old,new,confirmation,policy,verifier,hasher,current,rfl,
            by rw [← hentry,huid],hcurrent,hentry,hflags,hver⟩
        · rw [List.getElem?_set_ne hi] at hfin
          exact (hhash index account final ha hfin hne).later _

/-- The password change of an account that holds no capability. -/
def ownChange : Request Unit :=
  .call (.changePassword ⟨1000,1000,1000,1000,1000,1000,0⟩ 1000 (some (ascii "old password"))
    (ascii "new password") (ascii "new password") .default
    (fun password _ => password == ascii "old password") (fun _ => some lockedPasswordHash))

def openAccount : Account := { hyphenAccount with entry := { hyphenAccount.entry with flags := 0 } }

theorem unprivileged_requests_change_own_passwords_once :
    (Session.runAll ⟨⟨[openAccount],[usersGroup]⟩,(),[]⟩ [ownChange]).log = [] ∧
      (Session.runAll ⟨⟨[openAccount],[usersGroup]⟩,(),[]⟩ [ownChange]).database.groups = [usersGroup] :=
  have h := unprivileged_requests_change_own_passwords ⟨[openAccount],[usersGroup]⟩ () [ownChange]
    (by simpa using show ownChange.actor.Unprivileged from rfl)
  ⟨h.2.1,h.2.2.2.1⟩

end UserDb.Norx
