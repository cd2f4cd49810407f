import UserDb.Norx.Admin
import UserDb.Norx.Format

/-! The storage interface and the three calls that use it: replacing the committed
file, loading it with recovery, and an administrative transaction. -/
namespace UserDb.Norx
open UserDb.Base UserDb.Base.Outcomes

/-- A call on a storage whose own state is a `σ`. -/
abbrev StorageCall (σ α : Type) := EStateM StorageError σ α

inductive StorageMethod where
  | read | lock | writeTemp | syncFile | replace | syncParent | unlock
  deriving DecidableEq, Repr

structure AtomicStorage (σ : Type) where
  read : Bytes → StorageCall σ Bytes
  lock : StorageCall σ Unit
  writeTemp : Bytes → Bytes → StorageCall σ Unit
  syncFile : Bytes → StorageCall σ Unit
  replace : Bytes → Bytes → StorageCall σ Unit
  syncParent : Bytes → StorageCall σ Unit
  unlock : StorageCall σ Unit

inductive RecoveryState where
  | current | recoveredTemp
  deriving DecidableEq, Repr

variable {σ α ρ : Type}

/-- Run `body` between lock and unlock; an error of the body comes before one of the unlock. -/
def AtomicStorage.underLock (storage : AtomicStorage σ) (body : StorageCall σ α) :
    StorageCall σ α := do
  storage.lock
  let result ← attempt body
  let unlock ← attempt storage.unlock
  match result, unlock with
  | .error error, _ => throw error
  | .ok _, .error error => throw error
  | .ok value, .ok () => pure value

def Database.storageContents (database : Database) : Except StorageError Bytes :=
  database.serializeForStorage.mapError fun _ => .tooLarge

def atomicReplace (storage : AtomicStorage σ) (committedPath tempPath : Bytes)
    (database : Database) : StorageCall σ Unit := do
  let contents ← lift database.storageContents
  storage.underLock do
    storage.writeTemp tempPath contents
    storage.syncFile tempPath
    storage.replace tempPath committedPath
    storage.syncParent committedPath

/-- Reading the temporary file: a missing or damaged one counts as corrupt. -/
def readTemp (storage : AtomicStorage σ) (tempPath : Bytes) : StorageCall σ Bytes := do
  let temporary ← attempt (storage.read tempPath)
  match temporary with
  | .ok bytes => pure bytes
  | .error .missing => throw .corrupt
  | .error .corrupt => throw .corrupt
  | .error error => throw error

def recoverTemp (storage : AtomicStorage σ) (committedPath tempPath : Bytes) :
    StorageCall σ (Database × RecoveryState) :=
  storage.underLock do
    let temporary ← readTemp storage tempPath
    let database ← lift ((Database.parse temporary).mapError fun _ => StorageError.corrupt)
    storage.replace tempPath committedPath
    storage.syncParent committedPath
    pure (database,.recoveredTemp)

def loadWithRecovery (storage : AtomicStorage σ) (committedPath tempPath : Bytes) :
    StorageCall σ (Database × RecoveryState) := do
  let committed ← attempt (storage.read committedPath)
  match committed with
  | .ok bytes =>
    match Database.parse bytes with
    | .ok database => pure (database,.current)
    | .error _ => recoverTemp storage committedPath tempPath
  | .error .missing => recoverTemp storage committedPath tempPath
  | .error .corrupt => recoverTemp storage committedPath tempPath
  | .error error => throw error

/-- A call on a database that lives beside its storage. -/
abbrev TransactionCall (σ α : Type) := EStateM AdminError (Database × σ) α

/-- Run a storage call inside a transaction, its error wrapped. -/
def onStorage (call : StorageCall σ α) : TransactionCall σ α := fun (self,files) =>
  match call files with
  | .ok value files => .ok value (self,files)
  | .error error files => .error (.storage error) (self,files)

/-- The operation's result and the candidate it leaves, or its error. -/
def runOn (operation : DatabaseCall AdminError ρ) (candidate : Database) :
    Except AdminError (ρ × Database) :=
  match operation candidate with
  | .ok result candidate => .ok (result,candidate)
  | .error error _ => .error error

def transactAdminWith (storage : AtomicStorage σ) (actor : SessionCredentials)
    (committedPath tempPath : Bytes) (operation : DatabaseCall AdminError ρ) :
    TransactionCall σ ρ := do
  lift (requireAdmin actor)
  let (self,_) ← get
  let (result,candidate) ← lift (runOn operation self)
  onStorage (atomicReplace storage committedPath tempPath candidate)
  modify fun (_,files) => (candidate,files)
  pure result

def transactAdmin (storage : AtomicStorage σ) (actor : SessionCredentials)
    (committedPath tempPath : Bytes) (operation : DatabaseCall AdminError Unit) :
    TransactionCall σ Unit :=
  transactAdminWith storage actor committedPath tempPath operation

/-! What the bracket does, and what a transaction does. -/

/-- A bracket as one decision after the other: the unlock runs whatever the body did. -/
theorem underLock_eq (storage : AtomicStorage σ) (body : StorageCall σ α) (s : σ) :
    storage.underLock body s =
      match storage.lock s with
      | .error e s' => .error e s'
      | .ok _ s₁ =>
        match body s₁ with
        | .error e s₂ => .error e (after storage.unlock s₂)
        | .ok a s₂ =>
          match storage.unlock s₂ with
          | .error e s' => .error e s'
          | .ok _ s' => .ok a s' := by
  unfold AtomicStorage.underLock
  change EStateM.bind storage.lock _ s = _
  simp only [EStateM.bind]
  cases storage.lock s with
  | error e s' => rfl
  | ok _ s₁ =>
    change EStateM.bind (attempt body) _ s₁ = _
    simp only [EStateM.bind,attempt]
    cases body s₁ with
    | error e s₂ =>
      change EStateM.bind (attempt storage.unlock) _ s₂ = _
      simp only [EStateM.bind,attempt,after]
      cases storage.unlock s₂ <;> rfl
    | ok a s₂ =>
      change EStateM.bind (attempt storage.unlock) _ s₂ = _
      simp only [EStateM.bind,attempt]
      cases storage.unlock s₂ <;> rfl

theorem underLock_ok {storage : AtomicStorage σ} {body : StorageCall σ α} {s s' : σ} {a : α} :
    storage.underLock body s = .ok a s' ↔
      ∃ s₁ s₂, storage.lock s = .ok () s₁ ∧ body s₁ = .ok a s₂ ∧ storage.unlock s₂ = .ok () s' := by
  rw [underLock_eq]
  constructor
  · intro h
    split at h
    · cases h
    rename_i s₁ hl
    split at h
    · cases h
    rename_i s₂ hb
    split at h
    · cases h
    rename_i hu
    cases h
    exact ⟨s₁,s₂,hl,hb,hu⟩
  · rintro ⟨s₁,s₂,hl,hb,hu⟩
    simp only [hl,hb,hu]

/-- A bracket fails in the lock, in the body, or only in the unlock. -/
theorem underLock_error {storage : AtomicStorage σ} {body : StorageCall σ α} {s s' : σ}
    {e : StorageError} (h : storage.underLock body s = .error e s') :
    storage.lock s = .error e s' ∨ ∃ s₁, storage.lock s = .ok () s₁ ∧
      ((∃ s₂, body s₁ = .error e s₂ ∧ s' = after storage.unlock s₂) ∨
        ∃ a s₂, body s₁ = .ok a s₂ ∧ storage.unlock s₂ = .error e s') := by
  rw [underLock_eq] at h
  split at h
  · rename_i hl
    cases h
    exact .inl hl
  rename_i s₁ hl
  refine .inr ⟨s₁,hl,?_⟩
  split at h
  · rename_i s₂ hb
    cases h
    exact .inl ⟨s₂,hb,rfl⟩
  rename_i a s₂ hb
  split at h
  · rename_i hu
    cases h
    exact .inr ⟨a,s₂,hb,hu⟩
  · cases h

theorem runOn_eq_ok {operation : DatabaseCall AdminError ρ} {d candidate : Database} {result : ρ} :
    runOn operation d = .ok (result,candidate) ↔ operation d = .ok result candidate := by
  unfold runOn
  cases h : operation d <;> simp

theorem storageContents_eq_ok {d : Database} {contents : Bytes} :
    d.storageContents = .ok contents ↔ d.serializeForStorage = .ok contents := mapError_eq_ok

/-- A transaction as one decision after the other. -/
theorem transactAdminWith_eq (storage : AtomicStorage σ) (actor : SessionCredentials)
    (committedPath tempPath : Bytes) (operation : DatabaseCall AdminError ρ) (d : Database) (s : σ) :
    transactAdminWith storage actor committedPath tempPath operation (d,s) =
      match requireAdmin actor with
      | .error e => .error e (d,s)
      | .ok _ =>
        match runOn operation d with
        | .error e => .error e (d,s)
        | .ok (result,candidate) =>
          match atomicReplace storage committedPath tempPath candidate s with
          | .ok _ s' => .ok result (candidate,s')
          | .error e s' => .error (.storage e) (d,s') := by
  cases ha : requireAdmin actor with
  | error e => simp only [transactAdminWith,ha]; rfl
  | ok _ =>
    simp only [transactAdminWith,ha]
    change EStateM.bind (lift (runOn operation d)) _ (d,s) = _
    cases ho : runOn operation d with
    | error e => rfl
    | ok r =>
      change EStateM.bind (onStorage (atomicReplace storage committedPath tempPath r.2)) _ (d,s) = _
      simp only [EStateM.bind,onStorage]
      cases atomicReplace storage committedPath tempPath r.2 s <;> rfl

/-- The ways a transaction can end. -/
theorem transactAdminWith_cases (storage : AtomicStorage σ) (actor : SessionCredentials)
    (committedPath tempPath : Bytes) (operation : DatabaseCall AdminError ρ) (d : Database) (s : σ) :
    (∃ e, transactAdminWith storage actor committedPath tempPath operation (d,s) = .error e (d,s) ∧
      (requireAdmin actor = .error e ∨ runOn operation d = .error e)) ∨
    ∃ result candidate, requireAdmin actor = .ok () ∧ operation d = .ok result candidate ∧
      ((∃ e s', atomicReplace storage committedPath tempPath candidate s = .error e s' ∧
          transactAdminWith storage actor committedPath tempPath operation (d,s) =
            .error (.storage e) (d,s')) ∨
        ∃ s', atomicReplace storage committedPath tempPath candidate s = .ok () s' ∧
          transactAdminWith storage actor committedPath tempPath operation (d,s) =
            .ok result (candidate,s')) := by
  rw [transactAdminWith_eq]
  cases ha : requireAdmin actor with
  | error e => exact .inl ⟨e,rfl,.inl rfl⟩
  | ok _ =>
    cases ho : runOn operation d with
    | error e => exact .inl ⟨e,rfl,.inr rfl⟩
    | ok r =>
      refine .inr ⟨r.1,r.2,rfl,runOn_eq_ok.mp ho,?_⟩
      cases hr : atomicReplace storage committedPath tempPath r.2 s with
      | error e s' => exact .inl ⟨e,s',rfl,by simp only [hr]⟩
      | ok _ s' => exact .inr ⟨s',rfl,by simp only [hr]⟩

end UserDb.Norx
