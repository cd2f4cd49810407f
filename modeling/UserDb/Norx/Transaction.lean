import UserDb.Norx.RoundTrip
import UserDb.Norx.Storage

/-! Atomicity of a transaction over a storage whose steps may fail at will. What a
failed call leaves at the committed path depends on where it failed: past the
renaming the old file is gone. -/
namespace UserDb.Norx
open UserDb.Base UserDb.Base.Outcomes

variable {σ ρ : Type}

/-- What a storage promises about the bytes it shows at its paths. A replacement is
all or nothing, and no failed call reaches the committed path. -/
structure AtomicStorage.Lawful (storage : AtomicStorage σ) (view : σ → Bytes → Option Bytes)
    (committedPath tempPath : Bytes) : Prop where
  lock : ∀ s, view (after storage.lock s) = view s
  writeTemp_ok : ∀ {contents s s'}, storage.writeTemp tempPath contents s = .ok () s' →
    view s' tempPath = some contents ∧
      (committedPath ≠ tempPath → view s' committedPath = view s committedPath)
  writeTemp_error : ∀ {contents s e s'}, storage.writeTemp tempPath contents s = .error e s' →
    view s' committedPath = view s committedPath
  syncFile : ∀ s, view (after (storage.syncFile tempPath) s) = view s
  replace_ok : ∀ {s s'}, storage.replace tempPath committedPath s = .ok () s' →
    view s' committedPath = view s tempPath
  replace_error : ∀ {s e s'}, storage.replace tempPath committedPath s = .error e s' →
    view s' committedPath = view s committedPath
  syncParent : ∀ s, view (after (storage.syncParent committedPath) s) = view s
  unlock : ∀ s, view (after storage.unlock s) = view s

section Phases
variable (storage : AtomicStorage σ) (committedPath tempPath contents : Bytes)

/-- Making the written file durable and moving it to the committed path. -/
def moving : StorageCall σ Unit := do
  storage.syncFile tempPath
  storage.replace tempPath committedPath

/-- The steps up to the one that changes the committed path: the renaming, or the
writing itself where both paths are the same. -/
def publishing : StorageCall σ Unit := do
  storage.lock
  storage.writeTemp tempPath contents
  if committedPath = tempPath then pure () else moving storage committedPath tempPath

/-- The steps after it. -/
def settling : StorageCall σ Unit := do
  if committedPath = tempPath then moving storage committedPath tempPath else pure ()
  storage.syncParent committedPath
  storage.unlock

/-- Some step fails once the committed path has changed. -/
def FailsLate (s : σ) : Prop :=
  ∃ s₁ e s₂, publishing storage committedPath tempPath contents s = .ok () s₁ ∧
    settling storage committedPath tempPath s₁ = .error e s₂

end Phases

section Outcome
variable {storage : AtomicStorage σ} {view : σ → Bytes → Option Bytes}
  {committedPath tempPath contents : Bytes}

/-- A storage call that shows the same bytes before and after, however it ends. -/
theorem view_of_ok {α : Type} {x : StorageCall σ α} {s s' : σ} {a : α}
    (hx : view (after x s) = view s) (h : x s = .ok a s') : view s' = view s := after_of_ok h ▸ hx

theorem view_of_error {α : Type} {x : StorageCall σ α} {s s' : σ} {e : StorageError}
    (hx : view (after x s) = view s) (h : x s = .error e s') : view s' = view s := after_of_error h ▸ hx

theorem AtomicStorage.Lawful.moving_ok (law : storage.Lawful view committedPath tempPath) {s s' : σ}
    (h : moving storage committedPath tempPath s = .ok () s') :
    view s' committedPath = view s tempPath := by
  obtain ⟨_,s₁,hs,hr⟩ := bind_eq_ok.mp h
  rw [law.replace_ok hr,view_of_ok (law.syncFile s) hs]

theorem AtomicStorage.Lawful.moving_error (law : storage.Lawful view committedPath tempPath) {s s' : σ}
    {e : StorageError} (h : moving storage committedPath tempPath s = .error e s') :
    view s' committedPath = view s committedPath := by
  rcases bind_eq_error.mp h with hs | ⟨_,s₁,hs,hr⟩
  · rw [view_of_error (law.syncFile s) hs]
  · rw [law.replace_error hr,view_of_ok (law.syncFile s) hs]

/-- Once published, the new contents are what the committed path shows. -/
theorem AtomicStorage.Lawful.publishing_ok (law : storage.Lawful view committedPath tempPath)
    {s s' : σ} (h : publishing storage committedPath tempPath contents s = .ok () s') :
    view s' committedPath = some contents := by
  obtain ⟨_,s₁,_,h⟩ := bind_eq_ok.mp h
  obtain ⟨_,s₂,hw,h⟩ := bind_eq_ok.mp h
  have hw := (law.writeTemp_ok hw).1
  split at h
  · rename_i heq
    cases h
    rw [heq,hw]
  · rw [law.moving_ok h,hw]

/-- Short of publication the committed path shows what it showed before. -/
theorem AtomicStorage.Lawful.publishing_error (law : storage.Lawful view committedPath tempPath)
    {s s' : σ} {e : StorageError}
    (h : publishing storage committedPath tempPath contents s = .error e s') :
    view s' committedPath = view s committedPath := by
  rcases bind_eq_error.mp h with hl | ⟨_,s₁,hl,h⟩
  · rw [view_of_error (law.lock s) hl]
  have hl := view_of_ok (law.lock s) hl
  rcases bind_eq_error.mp h with hw | ⟨_,s₂,hw,h⟩
  · rw [law.writeTemp_error hw,hl]
  split at h
  · exact absurd h pure_ne_error
  · rename_i hne
    rw [law.moving_error h,(law.writeTemp_ok hw).2 hne,hl]

/-- Nothing after the publication changes the committed path again. -/
theorem AtomicStorage.Lawful.settling_error (law : storage.Lawful view committedPath tempPath)
    {s s' : σ} {e : StorageError} (hs : view s committedPath = some contents)
    (h : settling storage committedPath tempPath s = .error e s') :
    view s' committedPath = some contents := by
  have hrest : ∀ {t : σ}, view t committedPath = some contents →
      (do storage.syncParent committedPath; storage.unlock) t = .error e s' →
      view s' committedPath = some contents := by
    intro t ht h
    rcases bind_eq_error.mp h with hp | ⟨_,t₁,hp,hu⟩
    · rw [view_of_error (law.syncParent t) hp,ht]
    · rw [view_of_error (law.unlock t₁) hu,view_of_ok (law.syncParent t) hp,ht]
  unfold settling at h
  split at h
  · rename_i heq
    rcases bind_eq_error.mp h with hm | ⟨_,s₁,hm,h⟩
    · rw [law.moving_error hm,hs]
    · refine hrest ?_ h
      rw [law.moving_ok hm,← heq,hs]
  · exact hrest hs h

/-- The steps of a replacement, one after the other. -/
theorem phases_eq (s : σ) :
    (do publishing storage committedPath tempPath contents; settling storage committedPath tempPath) s =
      (do
        storage.lock
        storage.writeTemp tempPath contents
        storage.syncFile tempPath
        storage.replace tempPath committedPath
        storage.syncParent committedPath
        storage.unlock : StorageCall σ Unit) s := by
  unfold publishing settling moving
  split <;> simp only [bind_assoc,pure_bind]

theorem atomicReplace_eq {d : Database} (hd : d.storageContents = .ok contents) (s : σ) :
    atomicReplace storage committedPath tempPath d s = storage.underLock (do
      storage.writeTemp tempPath contents
      storage.syncFile tempPath
      storage.replace tempPath committedPath
      storage.syncParent committedPath) s := by
  unfold atomicReplace
  rw [hd]
  rfl

/-- A replacement succeeds when its steps do. -/
theorem atomicReplace_ok {d : Database} (hd : d.storageContents = .ok contents) {s s' : σ} :
    atomicReplace storage committedPath tempPath d s = .ok () s' ↔
      (do publishing storage committedPath tempPath contents; settling storage committedPath tempPath) s
        = .ok () s' := by
  rw [atomicReplace_eq hd,phases_eq,underLock_ok]
  simp only [bind_eq_ok]
  constructor
  · rintro ⟨s₁,s₂,hl,⟨_,a,hw,_,b,hs,_,c,hr,hp⟩,hu⟩
    exact ⟨_,s₁,hl,_,a,hw,_,b,hs,_,c,hr,_,s₂,hp,hu⟩
  · rintro ⟨_,s₁,hl,_,a,hw,_,b,hs,_,c,hr,_,s₂,hp,hu⟩
    exact ⟨s₁,s₂,hl,⟨_,a,hw,_,b,hs,_,c,hr,hp⟩,hu⟩

/-- A replacement fails when one of its steps does; at most an unlock is added. -/
theorem atomicReplace_error {d : Database} (hd : d.storageContents = .ok contents) {s s' : σ}
    {e : StorageError} (h : atomicReplace storage committedPath tempPath d s = .error e s') :
    ∃ t, (do
        publishing storage committedPath tempPath contents
        settling storage committedPath tempPath) s = .error e t ∧
      (s' = t ∨ s' = after storage.unlock t) := by
  rw [atomicReplace_eq hd] at h
  rw [phases_eq]
  rcases underLock_error h with hl | ⟨s₁,hl,⟨t,hb,he⟩ | ⟨_,s₂,hb,hu⟩⟩
  · exact ⟨s',bind_eq_error.mpr (.inl hl),.inl rfl⟩
  · refine ⟨t,bind_eq_error.mpr (.inr ⟨_,s₁,hl,?_⟩),.inr he⟩
    rcases bind_eq_error.mp hb with hw | ⟨_,a,hw,hb⟩
    · exact bind_eq_error.mpr (.inl hw)
    refine bind_eq_error.mpr (.inr ⟨_,a,hw,?_⟩)
    rcases bind_eq_error.mp hb with hs | ⟨_,b,hs,hb⟩
    · exact bind_eq_error.mpr (.inl hs)
    refine bind_eq_error.mpr (.inr ⟨_,b,hs,?_⟩)
    rcases bind_eq_error.mp hb with hr | ⟨_,c,hr,hp⟩
    · exact bind_eq_error.mpr (.inl hr)
    · exact bind_eq_error.mpr (.inr ⟨_,c,hr,bind_eq_error.mpr (.inl hp)⟩)
  · simp only [bind_eq_ok] at hb
    obtain ⟨_,a,hw,_,b,hs,_,c,hr,hp⟩ := hb
    refine ⟨s',?_,.inl rfl⟩
    simp only [bind_eq_error]
    exact .inr ⟨_,s₁,hl,.inr ⟨_,a,hw,.inr ⟨_,b,hs,.inr ⟨_,c,hr,.inr ⟨_,s₂,hp,hu⟩⟩⟩⟩⟩

theorem AtomicStorage.Lawful.atomicReplace_ok (law : storage.Lawful view committedPath tempPath)
    {d : Database} (hd : d.storageContents = .ok contents) {s s' : σ}
    (h : atomicReplace storage committedPath tempPath d s = .ok () s') :
    view s' committedPath = some contents := by
  have h := (Norx.atomicReplace_ok hd).mp h
  rw [phases_eq] at h
  simp only [bind_eq_ok] at h
  obtain ⟨_,s₁,hl,_,a,hw,_,b,hs,_,c,hr,_,s₂,hp,hu⟩ := h
  rw [view_of_ok (law.unlock s₂) hu,view_of_ok (law.syncParent c) hp,law.replace_ok hr,
    view_of_ok (law.syncFile a) hs,(law.writeTemp_ok hw).1]

/-- A failed replacement has either published the new contents or changed nothing, and
it has published them exactly when it failed late. -/
theorem AtomicStorage.Lawful.atomicReplace_error (law : storage.Lawful view committedPath tempPath)
    {d : Database} (hd : d.storageContents = .ok contents) {s s' : σ} {e : StorageError}
    (h : atomicReplace storage committedPath tempPath d s = .error e s') :
    FailsLate storage committedPath tempPath contents s ∧ view s' committedPath = some contents ∨
    ¬ FailsLate storage committedPath tempPath contents s ∧
      view s' committedPath = view s committedPath := by
  obtain ⟨t,ht,hs'⟩ := Norx.atomicReplace_error hd h
  have hview : view s' = view t := by
    rcases hs' with rfl | rfl
    · rfl
    · exact law.unlock t
  rw [hview]
  rcases bind_eq_error.mp ht with hp | ⟨_,s₁,hp,hsettle⟩
  · refine .inr ⟨?_,law.publishing_error hp⟩
    rintro ⟨s₁,_,_,hok,_⟩
    rw [hp] at hok
    cases hok
  · exact .inl ⟨⟨s₁,e,t,hp,hsettle⟩,law.settling_error (law.publishing_ok hp) hsettle⟩

end Outcome

/-- All or nothing, in memory and on storage: a failure changes neither, a success leaves
the committed path showing the database in memory. -/
def AtomicOutcome (view : σ → Bytes → Option Bytes) (committedPath : Bytes) (d : Database) (s : σ) :
    EStateM.Result AdminError (Database × σ) ρ → Prop
  | .error _ (d',s') => d' = d ∧ view s' committedPath = view s committedPath
  | .ok _ (d',s') => ∃ bytes, d'.serializeForStorage = .ok bytes ∧ view s' committedPath = some bytes

/-- A transaction is atomic exactly when no storage step of it fails past publication,
or the committed path showed the very same bytes before. -/
theorem transaction_atomic_iff (storage : AtomicStorage σ) (view : σ → Bytes → Option Bytes)
    (committedPath tempPath : Bytes) (law : storage.Lawful view committedPath tempPath)
    (actor : SessionCredentials) (operation : DatabaseCall AdminError ρ) (d : Database) (s : σ) :
    AtomicOutcome view committedPath d s
        (transactAdminWith storage actor committedPath tempPath operation (d,s)) ↔
      ∀ result candidate contents, requireAdmin actor = .ok () → operation d = .ok result candidate →
        candidate.serializeForStorage = .ok contents →
        FailsLate storage committedPath tempPath contents s → view s committedPath = some contents := by
  rcases transactAdminWith_cases storage actor committedPath tempPath operation d s with
    ⟨e,hrun,hearly⟩ | ⟨result,candidate,hadmin,hop,⟨e,s',hreplace,hrun⟩ | ⟨s',hreplace,hrun⟩⟩
  · rw [hrun]
    refine ⟨?_,fun _ => ⟨rfl,rfl⟩⟩
    intro _ result candidate contents hadmin hop
    rcases hearly with hno | hno
    · rw [hadmin] at hno
      cases hno
    · rw [runOn_eq_ok.mpr hop] at hno
      cases hno
  · rw [hrun]
    cases hser : candidate.serializeForStorage with
    | error _ =>
      -- nothing was written, so nothing has changed
      have hlift : (candidate.storageContents : Except StorageError Bytes) = .error .tooLarge := by
        simp only [Database.storageContents,hser,Except.mapError]
      have hs' : s' = s := by
        unfold atomicReplace at hreplace
        rw [hlift] at hreplace
        cases hreplace
        rfl
      subst hs'
      refine ⟨?_,fun _ => ⟨rfl,rfl⟩⟩
      intro _ _ candidate' contents _ hop' hser'
      rw [hop] at hop'
      cases hop'
      rw [hser] at hser'
      cases hser'
    | ok contents =>
      have hview := law.atomicReplace_error (storageContents_eq_ok.mpr hser) hreplace
      constructor
      · rintro ⟨_,hsame⟩ _ candidate' contents' _ hop' hser' hlate
        rw [hop] at hop'
        cases hop'
        rw [hser] at hser'
        cases hser'
        rcases hview with ⟨_,hnew⟩ | ⟨hnot,_⟩
        · rw [← hsame,hnew]
        · exact absurd hlate hnot
      · intro h
        refine ⟨rfl,?_⟩
        rcases hview with ⟨hlate,hnew⟩ | ⟨_,hsame⟩
        · rw [hnew,h result candidate contents hadmin hop hser hlate]
        · exact hsame
  · rw [hrun]
    cases hser : candidate.serializeForStorage with
    | error _ =>
      have hlift : (candidate.storageContents : Except StorageError Bytes) = .error .tooLarge := by
        simp only [Database.storageContents,hser,Except.mapError]
      unfold atomicReplace at hreplace
      rw [hlift] at hreplace
      cases hreplace
    | ok contents =>
      have hnew := law.atomicReplace_ok (storageContents_eq_ok.mpr hser) hreplace
      refine ⟨?_,fun _ => ⟨contents,hser,hnew⟩⟩
      rintro _ _ candidate' contents' _ hop' hser' ⟨s₁,_,_,hp,hsettle⟩
      rw [hop] at hop'
      cases hop'
      rw [hser] at hser'
      cases hser'
      obtain ⟨_,s₁',hp',hsettle'⟩ :=
        bind_eq_ok.mp ((atomicReplace_ok (storageContents_eq_ok.mpr hser)).mp hreplace)
      rw [hp] at hp'
      cases hp'
      rw [hsettle] at hsettle'
      cases hsettle'

structure Disk where
  files : Bytes → Option Bytes
  held : Bool

def Disk.put (s : Disk) (path : Bytes) (contents : Option Bytes) : Disk :=
  { s with files := fun q => if q = path then contents else s.files q }

/-- A disk on which chosen steps fail; a failed write leaves its first `torn` bytes. -/
def diskStorage (fails : StorageMethod → Bool) (torn : Nat) : AtomicStorage Disk where
  read path := fun s =>
    if fails .read then .error .unavailable s
    else match s.files path with
      | some bytes => .ok bytes s
      | none => .error .missing s
  lock := fun s =>
    if fails .lock then .error .unavailable s
    else if s.held then .error .busy s
    else .ok () { s with held := true }
  writeTemp path contents := fun s =>
    if fails .writeTemp then .error .unavailable (s.put path (some (contents.take torn)))
    else .ok () (s.put path (some contents))
  syncFile _ := fun s => if fails .syncFile then .error .unavailable s else .ok () s
  replace temp committed := fun s =>
    if fails .replace then .error .unavailable s
    else .ok () ((s.put temp none).put committed (s.files temp))
  syncParent _ := fun s => if fails .syncParent then .error .unavailable s else .ok () s
  unlock := fun s => if fails .unlock then .error .unavailable s else .ok () { s with held := false }

theorem diskStorage_lawful (fails : StorageMethod → Bool) (torn : Nat) {committedPath tempPath : Bytes}
    (hne : committedPath ≠ tempPath) :
    (diskStorage fails torn).Lawful Disk.files committedPath tempPath where
  lock s := by
    simp only [diskStorage,after]
    split_ifs <;> rfl
  writeTemp_ok h := by
    simp only [diskStorage] at h
    split at h <;> cases h
    exact ⟨by simp [Disk.put],fun hne => by simp [Disk.put,hne]⟩
  writeTemp_error h := by
    simp only [diskStorage] at h
    split at h <;> cases h
    simp [Disk.put,hne]
  syncFile s := by
    simp only [diskStorage,after]
    split_ifs <;> rfl
  replace_ok h := by
    simp only [diskStorage] at h
    split at h <;> cases h
    simp [Disk.put]
  replace_error h := by
    simp only [diskStorage] at h
    split at h <;> cases h
    rfl
  syncParent s := by
    simp only [diskStorage,after]
    split_ifs <;> rfl
  unlock s := by
    simp only [diskStorage,after]
    split_ifs <;> rfl

def reliableDisk : AtomicStorage Disk := diskStorage (fun _ => false) 0

def usersPath : Bytes := ascii "/cfg/userdb/users.db"
def usersTempPath : Bytes := ascii "/cfg/userdb/users.db.tmp"

def emptyDisk : Disk := ⟨fun _ => none,false⟩

/-- A transaction on a disk that refuses to write. -/
theorem transaction_atomic_iff_refused_write :
    AtomicOutcome Disk.files usersPath ⟨[],[]⟩ emptyDisk
      (transactAdminWith (diskStorage (· == .writeTemp) 0) rootSession usersPath usersTempPath
        (Database.createGroup rootSession usersGroup.name none []) (⟨[],[]⟩,emptyDisk)) := by
  refine (transaction_atomic_iff _ Disk.files usersPath usersTempPath
    (diskStorage_lawful _ _ (by decide)) rootSession _ ⟨[],[]⟩ emptyDisk).mpr ?_
  rintro _ _ contents _ _ _ ⟨_,_,_,hp,_⟩
  cases hp

/-- A directory sync that fails after the renaming: an error, with the new file in place. -/
theorem failed_directory_sync_publishes : ¬ ∀ (storage : AtomicStorage Disk)
    (view : Disk → Bytes → Option Bytes) (committedPath tempPath : Bytes),
    storage.Lawful view committedPath tempPath →
    ∀ (actor : SessionCredentials) (operation : DatabaseCall AdminError UInt32) (d : Database) (s : Disk),
      AtomicOutcome view committedPath d s
        (transactAdminWith storage actor committedPath tempPath operation (d,s)) := by
  intro h
  have h := h (diskStorage (· == .syncParent) 0) Disk.files usersPath usersTempPath
    (diskStorage_lawful _ _ (by decide)) rootSession
    (Database.createGroup rootSession usersGroup.name none []) ⟨[],[]⟩ emptyDisk
  have hrun : ∃ s' : Disk, s'.files usersPath ≠ none ∧
      transactAdminWith (diskStorage (· == .syncParent) 0) rootSession usersPath usersTempPath
        (Database.createGroup rootSession usersGroup.name none []) (⟨[],[]⟩,emptyDisk) =
          .error (.storage .unavailable) (⟨[],[]⟩,s') := by
    refine ⟨_,?_,rfl⟩
    exact Option.some_ne_none _
  obtain ⟨s',hs',hrun⟩ := hrun
  rw [hrun] at h
  exact hs' h.2

end UserDb.Norx
