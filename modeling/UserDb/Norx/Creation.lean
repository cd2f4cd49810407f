import UserDb.Norx.Calls

/-! The two ways of creating a user, compared check by check. Only one of the two
refuses a superuser without the account capability. -/
namespace UserDb.Norx
open UserDb.Base UserDb.Base.Outcomes

/-- Two creations on one database end alike: with one uid and the same database up to the
new account's hash, or with one refusal and nothing written. -/
def SameCreation (d : Database) :
    EStateM.Result AdminError Database UInt32 → EStateM.Result AdminError Database UInt32 → Prop
  | .ok uid left, .ok uid' right => uid = uid' ∧ left.groups = right.groups ∧
    ∃ entry hash hash', left.accounts = d.accounts ++ [Account.mk entry hash] ∧
      right.accounts = d.accounts ++ [Account.mk entry hash']
  | .error e left, .error e' right => e = e' ∧ left = d ∧ right = d
  | _, _ => False

/-- A superuser without the account capability that passes every check before the one for
it, and that only this check would refuse as invalid input. -/
structure Database.RefusesRootOnce (d : Database) (spec : UserSpec) : Prop where
  uid : spec.uid = some 0
  capability : spec.capabilities &&& capAccountAdmin = 0
  room : d.accounts.length ≠ maxUsers
  fields : validateUserFields spec.name (spec.flags ||| flagLocked) spec.capabilities spec.home
    spec.shell = .ok ()
  name : ∀ account ∈ d.accounts, account.entry.name ≠ spec.name
  free : ∀ account ∈ d.accounts, account.entry.uid ≠ 0
  group : ∃ gid, spec.primaryGid = some gid ∧
    ((∀ group ∈ d.groups, group.gid ≠ gid) ∨ d.AcceptsGroupNames spec.supplementaryGroups)

section Steps
variable {α : Type} {d : Database}

/-! A check that only one of the two makes. -/

theorem SameCreation.left {x : Except AdminError α} {a : α} {f : α → DatabaseCall AdminError UInt32}
    {r : EStateM.Result AdminError Database UInt32} (hx : x = .ok a) :
    SameCreation d ((lift x >>= f) d) r ↔ SameCreation d (f a d) r := by
  subst hx
  rfl

theorem SameCreation.right {x : Except AdminError α} {a : α} {f : α → DatabaseCall AdminError UInt32}
    {r : EStateM.Result AdminError Database UInt32} (hx : x = .ok a) :
    SameCreation d r ((lift x >>= f) d) ↔ SameCreation d r (f a d) := by
  subst hx
  rfl

theorem SameCreation.rightRefused {x : Except AdminError α} {e : AdminError}
    {f : α → DatabaseCall AdminError UInt32} {r : EStateM.Result AdminError Database UInt32}
    (hx : x = .error e) : SameCreation d r ((lift x >>= f) d) ↔ r = .error e d := by
  subst hx
  cases r with
  | ok uid left => exact ⟨fun h => h.elim,fun h => by cases h⟩
  | error e' left =>
    change e' = e ∧ left = d ∧ d = d ↔ _
    simp

/-! A check both of them make. -/

theorem SameCreation.get {f g : Database → DatabaseCall AdminError UInt32} :
    SameCreation d ((get >>= f) d) ((get >>= g) d) ↔ SameCreation d (f d d) (g d d) := Iff.rfl

theorem SameCreation.lift {x : Except AdminError α} {f g : α → DatabaseCall AdminError UInt32} :
    SameCreation d ((lift x >>= f) d) ((Outcomes.lift x >>= g) d) ↔
      ∀ a, x = .ok a → SameCreation d (f a d) (g a d) := by
  cases x with
  | ok a => exact ⟨fun h b hb => Except.ok.inj hb ▸ h,fun h => h a rfl⟩
  | error e => exact ⟨fun _ => nofun,fun _ => ⟨rfl,rfl,rfl⟩⟩

theorem SameCreation.orRefuse {x : Option α} {e : AdminError}
    {f g : α → DatabaseCall AdminError UInt32} :
    SameCreation d ((orRefuse x e >>= f) d) ((Outcomes.orRefuse x e >>= g) d) ↔
      ∀ a, x = some a → SameCreation d (f a d) (g a d) := by
  simp only [Outcomes.orRefuse,SameCreation.lift,needed_eq_ok]

theorem SameCreation.refuse {test : Bool} {e : AdminError}
    {f g : Unit → DatabaseCall AdminError UInt32} :
    SameCreation d ((refuse test e >>= f) d) ((Outcomes.refuse test e >>= g) d) ↔
      (test = false → SameCreation d (f () d) (g () d)) := by
  cases test with
  | true => exact ⟨fun _ => nofun,fun _ => ⟨rfl,rfl,rfl⟩⟩
  | false => exact ⟨fun h _ => h,fun h => h rfl⟩

end Steps

/-- An id handed out automatically is no smaller than where the search began. -/
theorem nextIdFrom_ge {values : List UInt32} {fuel : Nat} {candidate id : UInt32}
    (hfuel : candidate.toNat + fuel < UInt32.size)
    (h : nextIdFrom values fuel candidate = some id) : candidate.toNat ≤ id.toNat := by
  induction fuel generalizing candidate with
  | zero =>
    unfold nextIdFrom at h
    split at h
    · cases h
      exact Nat.le_refl _
    · cases h
  | succ fuel ih =>
    unfold nextIdFrom at h
    split at h
    · cases h
      exact Nat.le_refl _
    · have hone : (1 : UInt32).toNat = 1 := rfl
      have hnext : (candidate + 1).toNat = candidate.toNat + 1 := by
        rw [UInt32.toNat_add,hone]
        exact Nat.mod_eq_of_lt (by simp only [UInt32.size] at hfuel; omega)
      have := ih (by omega) h
      omega

private theorem nextId_ne_zero {values : List UInt32} : nextId values ≠ some 0 := by
  intro h
  have hge := nextIdFrom_ge (by decide) h
  exact absurd hge (by decide)

/-- The superuser's id is only given by name. -/
theorem chosenUid_eq_zero {spec : UserSpec} {values : List UInt32}
    (h : (spec.uid.orElse fun _ => nextId values) = some 0) : spec.uid = some 0 := by
  cases hu : spec.uid with
  | some uid =>
    rw [hu] at h
    exact h
  | none =>
    rw [hu] at h
    exact absurd h nextId_ne_zero

theorem checkHash_locked : encodePassword.checkHash lockedPasswordHash = .ok lockedPasswordHash := by
  decide

private theorem refuseBareRoot_eq_error {uid : UInt32} {capabilities : UInt64}
    (h : uid = 0 ∧ capabilities &&& capAccountAdmin = 0) :
    refuseBareRoot uid capabilities = .error .invalidInput := by
  simp [refuseBareRoot,reject,h]

private theorem refuseBareRoot_eq_ok {uid : UInt32} {capabilities : UInt64}
    (h : ¬ (uid = 0 ∧ capabilities &&& capAccountAdmin = 0)) : refuseBareRoot uid capabilities = .ok () := by
  simpa [refuseBareRoot] using h

private theorem validateGroupNames_eq_error {d : Database} {names : List Text} :
    validateGroupNames d names = .error .invalidInput ↔ ¬ d.AcceptsGroupNames names := by
  rw [← validateGroupNames_eq_ok (u := ())]
  unfold validateGroupNames reject
  split <;> simp

private theorem set_pure_ne_error {s t s' : Database} {uid : UInt32} {e : AdminError} :
    ¬ (do set t; pure uid : DatabaseCall AdminError UInt32) s = .error e s' := nofun

private theorem setMembership_ne_invalidInput {groups : List GroupEntry} {user : Text} {names : List Text} :
    setMembership groups user names ≠ .error .invalidInput := by
  unfold setMembership
  split <;> simp

section Agreement
variable {actor : SessionCredentials} {spec : UserSpec} {password : Bytes} {hasher : PasswordHasher}
  {encoded : Text} {d : Database}

/-- Without a superuser to refuse the two creations make the same checks in the same order. -/
theorem sameCreation_of_admissible (hadmin : requireAdmin actor = .ok ())
    (hencode : encodePassword hasher password = .ok encoded)
    (hroot : ¬ (spec.uid = some 0 ∧ spec.capabilities &&& capAccountAdmin = 0)) :
    SameCreation d (Database.createLockedUser actor spec d)
      (Database.createUser actor { spec with flags := spec.flags ||| flagLocked } password hasher d) := by
  refine (SameCreation.left hadmin).mpr ?_
  refine SameCreation.lift.mpr fun _ _ => SameCreation.get.mpr ?_
  refine SameCreation.refuse.mpr fun _ => SameCreation.lift.mpr fun _ _ => ?_
  refine SameCreation.refuse.mpr fun _ => SameCreation.orRefuse.mpr fun uid huid => ?_
  have hok : refuseBareRoot uid spec.capabilities = .ok () :=
    refuseBareRoot_eq_ok fun ⟨hzero,hcapability⟩ => hroot ⟨chosenUid_eq_zero (hzero ▸ huid),hcapability⟩
  refine SameCreation.refuse.mpr fun _ => (SameCreation.right hok).mpr ?_
  refine SameCreation.orRefuse.mpr fun gid _ => SameCreation.refuse.mpr fun _ => ?_
  refine SameCreation.lift.mpr fun _ _ => (SameCreation.right hok).mpr ?_
  refine (SameCreation.right hencode).mpr ((SameCreation.left checkHash_locked).mpr ?_)
  refine SameCreation.lift.mpr fun groups _ => SameCreation.orRefuse.mpr fun home _ => ?_
  exact SameCreation.orRefuse.mpr fun shell _ => ⟨rfl,rfl,_,_,_,rfl,rfl⟩

/-- Where the check for the superuser refuses, the creation without it refuses alike only if the
group is not named, or it exists and the supplementary groups do not pass. -/
theorem sameCreation_bareRoot (hadmin : requireAdmin actor = .ok ())
    (huid : spec.uid = some 0) (hcapability : spec.capabilities &&& capAccountAdmin = 0) :
    SameCreation d (Database.createLockedUser actor spec d)
        (Database.createUser actor { spec with flags := spec.flags ||| flagLocked } password hasher d) ↔
      ¬ d.RefusesRootOnce spec := by
  have hbare : refuseBareRoot 0 spec.capabilities = .error .invalidInput :=
    refuseBareRoot_eq_error ⟨rfl,hcapability⟩
  have hchosen : ∀ uid, (spec.uid.orElse fun _ => nextId (d.accounts.map (·.entry.uid))) = some uid ↔
      uid = 0 := by simp [huid,eq_comm]
  refine (SameCreation.left hadmin).trans ?_
  unfold Database.createUserWithHash Database.createUser
  simp only [SameCreation.lift,SameCreation.get,SameCreation.refuse,SameCreation.orRefuse,hadmin,
    hchosen,forall_eq,SameCreation.rightRefused hbare]
  simp only [orRefuse_bind_eq_error,refuse_bind_eq_error,lift_bind_eq_error,
    set_pure_ne_error,checkHash_locked,setMembership_ne_invalidInput,
    validateGroupNames_eq_error,validateGroupNames_eq_ok,reduceCtorEq,and_false,
    exists_const,exists_false,false_or,or_false,and_true]
  constructor
  · rintro h ⟨_,_,hroom,hfields,hname,hfree,gid,hg,hgroup⟩
    obtain ⟨_,_,_,⟨home,hhome,_⟩,shell,hshell,_⟩ := validateUserFields_eq_ok.mp hfields
    rcases h () trivial (by simpa using hroom) () hfields (by simpa using hname)
      (by simpa using hfree) with hnone | ⟨gid',hg',hknown,hrest⟩
    · rw [hg] at hnone
      cases hnone
    · cases hg.symm.trans hg'
      rcases hgroup with hmissing | haccepts
      · have hunknown : (d.groups.any fun group => group.gid == gid) = false := by simpa using hmissing
        simp [hunknown] at hknown
      · simp [haccepts,hhome,hshell] at hrest
  · intro hn _ _ hroom _ hfields hname hfree
    cases hg : spec.primaryGid with
    | none => exact Or.inl rfl
    | some gid =>
      have hgroup : ¬ ((∀ group ∈ d.groups, group.gid ≠ gid) ∨
          d.AcceptsGroupNames spec.supplementaryGroups) := fun h =>
        hn ⟨huid,hcapability,by simpa using hroom,hfields,by simpa using hname,
          by simpa using hfree,gid,hg,h⟩
      push Not at hgroup
      obtain ⟨⟨group,hmem,hgid⟩,hnames⟩ := hgroup
      exact Or.inr ⟨gid,rfl,by simpa using ⟨group,hmem,hgid⟩,Or.inl hnames⟩

/-- The two ways of creating a locked user agree exactly when no superuser without the account
capability gets past the checks that come before the one for it. -/
theorem locked_creations_agree (actor : SessionCredentials) (spec : UserSpec) (password : Bytes)
    (hasher : PasswordHasher) (encoded : Text) (d : Database)
    (ha : actor.hasCapability capAccountAdmin = true) (hh : hasher password = some encoded)
    (hv : validatePasswordHash encoded.bytes = .ok ()) :
    SameCreation d (Database.createLockedUser actor spec d)
        (Database.createUser actor { spec with flags := spec.flags ||| flagLocked } password hasher d) ↔
      ¬ d.RefusesRootOnce spec := by
  have hadmin : requireAdmin actor = .ok () := requireAdmin_eq_ok.mpr ha
  by_cases hroot : spec.uid = some 0 ∧ spec.capabilities &&& capAccountAdmin = 0
  · exact sameCreation_bareRoot hadmin hroot.1 hroot.2
  · have hencode : encodePassword hasher password = .ok encoded := encodePassword_eq_ok.mpr ⟨hh,hv⟩
    refine ⟨fun _ hr => hroot ⟨hr.uid,hr.capability⟩,fun _ => ?_⟩
    exact sameCreation_of_admissible hadmin hencode hroot

end Agreement

def bobSpec : UserSpec :=
  ⟨⟨ascii "bob",bob_utf8⟩,none,some 1000,[usersGroup.name],some ⟨ascii "/users/bob",by decide⟩,
    some ⟨ascii "/bin/nsh",nsh_utf8⟩,0,0⟩

/-- A hasher whose every result is the hash locked accounts get. -/
def lockedHasher : PasswordHasher := fun _ => some lockedPasswordHash

theorem locked_creations_agree_bob :
    SameCreation ⟨[],[usersGroup]⟩ (Database.createLockedUser rootSession bobSpec ⟨[],[usersGroup]⟩)
      (Database.createUser rootSession { bobSpec with flags := bobSpec.flags ||| flagLocked }
        (ascii "secret") lockedHasher ⟨[],[usersGroup]⟩) :=
  (locked_creations_agree rootSession bobSpec (ascii "secret") lockedHasher lockedPasswordHash
    ⟨[],[usersGroup]⟩ rfl rfl rfl).mpr fun h => by
      have huid := h.uid
      cases huid

/-- Only one of the two creations lets a superuser without the account capability in. -/
theorem locked_creation_accepts_bare_root : ¬ ∀ (d : Database) (actor : SessionCredentials)
    (spec : UserSpec) (password : Bytes) (hasher : PasswordHasher) (encoded : Text),
    actor.hasCapability capAccountAdmin = true → hasher password = some encoded →
    validatePasswordHash encoded.bytes = .ok () →
    SameCreation d (Database.createLockedUser actor spec d)
      (Database.createUser actor { spec with flags := spec.flags ||| flagLocked } password hasher d) := by
  intro h
  exact h ⟨[],[usersGroup]⟩ rootSession { bobSpec with uid := some 0 } [] lockedHasher
    lockedPasswordHash rfl rfl rfl

end UserDb.Norx
