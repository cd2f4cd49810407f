import UserDb.Norx.Transaction

/-! Recovery after failures and a crash. The format has no trailer, so a torn file may
still load: what is left at the temporary path matters while nothing is committed. -/
namespace UserDb.Norx
open UserDb.Base UserDb.Base.Outcomes

variable {σ α : Type}

/-- A storage that tells the truth when read, keeps its two paths apart, and whose failed
writes leave some first part of the contents. -/
structure AtomicStorage.Durable (storage : AtomicStorage σ) (view : σ → Bytes → Option Bytes)
    (committedPath tempPath : Bytes) : Prop extends storage.Lawful view committedPath tempPath where
  distinct : committedPath ≠ tempPath
  read : ∀ path s, view (after (storage.read path) s) = view s
  read_ok : ∀ {path bytes s s'}, storage.read path s = .ok bytes s' → view s path = some bytes
  read_none : ∀ {path e s s'}, storage.read path s = .error e s' → e = .missing ∨ e = .corrupt →
    view s path = none
  writeTemp_torn : ∀ {contents s e s'}, storage.writeTemp tempPath contents s = .error e s' →
    view s' tempPath = view s tempPath ∨ ∃ n, view s' tempPath = some (contents.take n)
  replace_kept : ∀ {s e s'}, storage.replace tempPath committedPath s = .error e s' →
    view s' tempPath = view s tempPath

/-! A crash: power is lost during one storage call, and no later call has any effect. -/

/-- What a power loss does: how it tears a write, and how the storage comes up again. -/
structure PowerLoss (σ : Type) where
  tear : Bytes → Bytes → σ → σ
  restart : σ → σ

structure PowerLoss.Lawful (loss : PowerLoss σ) (view : σ → Bytes → Option Bytes)
    (committedPath tempPath : Bytes) : Prop where
  torn : ∀ contents s, view (loss.tear tempPath contents s) tempPath = view s tempPath ∨
    ∃ n, view (loss.tear tempPath contents s) tempPath = some (contents.take n)
  committed : ∀ contents s, view (loss.tear tempPath contents s) committedPath = view s committedPath
  restart : ∀ s, view (loss.restart s) = view s

/-- A call that completes only while power is left; the one that is cut has the effect `cut`. -/
def powered (call : StorageCall σ α) (cut : σ → σ) : StorageCall (σ × Nat) α := fun (s,left) =>
  match left with
  | 0 => .error .unavailable (s,0)
  | 1 => .error .unavailable (cut s,0)
  | left + 2 =>
    match call s with
    | .ok a s' => .ok a (s',left + 1)
    | .error e s' => .error e (s',left + 1)

/-- The storage of a process that loses power: only a write can be cut half-way. -/
def AtomicStorage.untilPowerLoss (storage : AtomicStorage σ) (loss : PowerLoss σ) :
    AtomicStorage (σ × Nat) where
  read path := powered (storage.read path) id
  lock := powered storage.lock id
  writeTemp path contents := powered (storage.writeTemp path contents) (loss.tear path contents)
  syncFile path := powered (storage.syncFile path) id
  replace temp committed := powered (storage.replace temp committed) id
  syncParent path := powered (storage.syncParent path) id
  unlock := powered storage.unlock id

section PowerLoss
variable {storage : AtomicStorage σ} {view : σ → Bytes → Option Bytes}
  {committedPath tempPath : Bytes} {loss : PowerLoss σ}

theorem powered_ok {call : StorageCall σ α} {cut : σ → σ} {s s' : σ × Nat} {a : α}
    (h : powered call cut s = .ok a s') : call s.1 = .ok a s'.1 := by
  obtain ⟨s,left⟩ := s
  match left with
  | 0 => cases h
  | 1 => cases h
  | left + 2 =>
    simp only [powered] at h
    split at h <;> cases h
    assumption

theorem powered_error {call : StorageCall σ α} {cut : σ → σ} {s s' : σ × Nat} {e : StorageError}
    (h : powered call cut s = .error e s') :
    call s.1 = .error e s'.1 ∨ e = .unavailable ∧ (s'.1 = s.1 ∨ s'.1 = cut s.1) := by
  obtain ⟨s,left⟩ := s
  match left with
  | 0 => cases h; exact .inr ⟨rfl,.inl rfl⟩
  | 1 => cases h; exact .inr ⟨rfl,.inr rfl⟩
  | left + 2 =>
    simp only [powered] at h
    split at h <;> cases h
    exact .inl (by assumption)

private theorem view_powered {call : StorageCall σ α} (h : ∀ s, view (after call s) = view s) (s : σ × Nat) :
    view (after (powered call id) s).1 = view s.1 := by
  cases hp : powered call id s with
  | ok a s' =>
    rw [after_of_ok hp]
    exact view_of_ok (h s.1) (powered_ok hp)
  | error e s' =>
    rw [after_of_error hp]
    rcases powered_error hp with hc | ⟨_,he | he⟩
    · exact view_of_error (h s.1) hc
    · rw [he]
    · rw [he,id]

/-- Losing power is one more way in which storage calls fail. -/
theorem AtomicStorage.Durable.untilPowerLoss (law : storage.Durable view committedPath tempPath)
    (hloss : loss.Lawful view committedPath tempPath) :
    (storage.untilPowerLoss loss).Durable (fun s => view s.1) committedPath tempPath where
  distinct := law.distinct
  lock := view_powered law.lock
  syncFile := view_powered law.syncFile
  syncParent := view_powered law.syncParent
  unlock := view_powered law.unlock
  read path := view_powered (law.read path)
  writeTemp_ok h := law.writeTemp_ok (powered_ok h)
  writeTemp_error {contents s e s'} h := by
    rcases powered_error h with h | ⟨_,h | h⟩
    · exact law.writeTemp_error h
    · rw [h]
    · rw [h,hloss.committed]
  replace_ok h := law.replace_ok (powered_ok h)
  replace_error {s e s'} h := by
    rcases powered_error h with h | ⟨_,h | h⟩
    · exact law.replace_error h
    · rw [h]
    · rw [h,id]
  read_ok h := law.read_ok (powered_ok h)
  read_none {path e s s'} h he := by
    rcases powered_error h with h | ⟨rfl,_⟩
    · exact law.read_none h he
    · rcases he with he | he <;> cases he
  writeTemp_torn {contents s e s'} h := by
    rcases powered_error h with h | ⟨_,h | h⟩
    · exact law.writeTemp_torn h
    · exact .inl (by rw [h])
    · rw [h]
      exact hloss.torn contents s.1
  replace_kept {s e s'} h := by
    rcases powered_error h with h | ⟨_,h | h⟩
    · exact law.replace_kept h
    · rw [h]
    · rw [h,id]

end PowerLoss

/-- Some database is read from these bytes. -/
def Loads (bytes : Bytes) : Prop := ∃ d, Database.parse bytes = .ok d

section Run
variable (storage : AtomicStorage σ) (committedPath tempPath : Bytes)

/-- One call, and the database of the last one that succeeded. -/
def replaceStep : σ × Option Database → Database → σ × Option Database
  | (s,last), d =>
    match atomicReplace storage committedPath tempPath d s with
    | .ok _ s' => (s',some d)
    | .error _ s' => (s',last)

def replaceAll (start : σ × Option Database) (calls : List Database) : σ × Option Database :=
  calls.foldl (replaceStep storage committedPath tempPath) start

/-- The last call, cut by a power loss in its `left`-th storage call, and the restart. -/
def cutReplace (loss : PowerLoss σ) (s : σ) : Option (Database × Nat) → σ
  | none => s
  | some (d,left) => loss.restart
      (after (atomicReplace (storage.untilPowerLoss loss) committedPath tempPath d) (s,left)).1

/-- Short of publication, nothing that loads is left at the temporary path, the contents of
the call itself apart where these are `allowed`. -/
structure LeavesClean (view : σ → Bytes → Option Bytes) (allowed : Prop) (contents : Bytes) (s : σ) :
    Prop where
  torn : ∀ s₁ e s₂ bytes, storage.lock s = .ok () s₁ →
    storage.writeTemp tempPath contents s₁ = .error e s₂ → view s₂ tempPath = some bytes →
    Loads bytes → allowed ∧ bytes = contents
  whole : ∀ s₁ s₂ e s₃, storage.lock s = .ok () s₁ → storage.writeTemp tempPath contents s₁ = .ok () s₂ →
    moving storage committedPath tempPath s₂ = .error e s₃ → allowed

/-- A completed call that recovery can cope with. -/
structure CleanCall (view : σ → Bytes → Option Bytes) (s : σ) (d : Database) : Prop where
  storable : d.Storable
  fits : d.FitsFormat
  settles : ∀ contents, d.serializeForStorage = .ok contents →
    FailsLate storage committedPath tempPath contents s → view s committedPath = some contents
  leaves : ∀ contents, d.serializeForStorage = .ok contents → view s committedPath = none →
    LeavesClean storage committedPath tempPath view False contents s

def CleanCalls (view : σ → Bytes → Option Bytes) : σ → List Database → Prop
  | _, [] => True
  | s, d :: calls => CleanCall storage committedPath tempPath view s d ∧
      CleanCalls view (after (atomicReplace storage committedPath tempPath d) s) calls

/-- A cut call that recovery can cope with: it may leave its own contents. -/
structure CleanCut (loss : PowerLoss σ) (view : σ → Bytes → Option Bytes) (s : σ) (d : Database)
    (left : Nat) : Prop where
  storable : d.Storable
  fits : d.FitsFormat
  leaves : ∀ contents, d.serializeForStorage = .ok contents → view s committedPath = none →
    LeavesClean (storage.untilPowerLoss loss) committedPath tempPath (fun s => view s.1) True contents
      (s,left)

/-- The storage shows `last`, or nothing that loads. -/
def Shows (view : σ → Bytes → Option Bytes) (s : σ) : Option Database → Prop
  | some d => d.Storable ∧ d.FitsFormat ∧
      ∃ contents, d.serializeForStorage = .ok contents ∧ view s committedPath = some contents
  | none => view s committedPath = none ∧ ∀ bytes, view s tempPath = some bytes → ¬ Loads bytes

end Run

section Step
variable {storage : AtomicStorage σ} {view : σ → Bytes → Option Bytes}
  {committedPath tempPath contents : Bytes} {loss : PowerLoss σ} {d : Database} {s s' : σ}

/-- What a replacement that stops short of publication leaves at the temporary path. -/
theorem AtomicStorage.Durable.publishing_error_temp (law : storage.Durable view committedPath tempPath)
    {e : StorageError} (h : publishing storage committedPath tempPath contents s = .error e s') :
    view s' tempPath = view s tempPath ∨
    (∃ s₁, storage.lock s = .ok () s₁ ∧ storage.writeTemp tempPath contents s₁ = .error e s') ∨
    ∃ s₁ s₂, storage.lock s = .ok () s₁ ∧ storage.writeTemp tempPath contents s₁ = .ok () s₂ ∧
      moving storage committedPath tempPath s₂ = .error e s' ∧ view s' tempPath = some contents := by
  rcases bind_eq_error.mp h with hl | ⟨_,s₁,hl,h⟩
  · exact .inl (by rw [view_of_error (law.lock s) hl])
  rcases bind_eq_error.mp h with hw | ⟨_,s₂,hw,h⟩
  · exact .inr (.inl ⟨s₁,hl,hw⟩)
  rw [if_neg law.distinct] at h
  refine .inr (.inr ⟨s₁,s₂,hl,hw,h,?_⟩)
  have hshown := (law.writeTemp_ok hw).1
  rcases bind_eq_error.mp h with hs | ⟨_,s₃,hs,hr⟩
  · rw [view_of_error (law.syncFile s₂) hs,hshown]
  · rw [law.replace_kept hr,view_of_ok (law.syncFile s₂) hs,hshown]

/-- A failed replacement that leaves clean keeps showing nothing that loads, unless it
failed late; where its own contents are allowed they may be all that is shown. -/
theorem AtomicStorage.Durable.leaves (law : storage.Durable view committedPath tempPath)
    {allowed : Prop} {e : StorageError} (hser : d.serializeForStorage = .ok contents)
    (hclean : LeavesClean storage committedPath tempPath view allowed contents s)
    (hnone : Shows committedPath tempPath view s none)
    (h : atomicReplace storage committedPath tempPath d s = .error e s') :
    FailsLate storage committedPath tempPath contents s ∧ view s' committedPath = some contents ∨
    view s' committedPath = none ∧
      ∀ bytes, view s' tempPath = some bytes → Loads bytes → allowed ∧ bytes = contents := by
  obtain ⟨t,ht,hs'⟩ := atomicReplace_error (storageContents_eq_ok.mpr hser) h
  have hview : view s' = view t := by
    rcases hs' with rfl | rfl
    · rfl
    · exact law.unlock t
  rw [hview]
  rcases bind_eq_error.mp ht with hp | ⟨_,s₁,hp,hsettle⟩
  · refine .inr ⟨(law.publishing_error hp).trans hnone.1,?_⟩
    intro bytes hbytes hloads
    rcases law.publishing_error_temp hp with hsame | ⟨s₁,hl,hw⟩ | ⟨s₁,s₂,hl,hw,hm,hwhole⟩
    · exact absurd hloads (hnone.2 bytes (hsame ▸ hbytes))
    · exact hclean.torn s₁ e t bytes hl hw hbytes hloads
    · refine ⟨hclean.whole s₁ s₂ e t hl hw hm,?_⟩
      rw [hwhole] at hbytes
      exact (Option.some.inj hbytes).symm
  · exact .inl ⟨⟨s₁,e,t,hp,hsettle⟩,law.settling_error (law.publishing_ok hp) hsettle⟩

theorem atomicReplace_unserializable {e : SerializeError} (hser : d.serializeForStorage = .error e) (s : σ) :
    atomicReplace storage committedPath tempPath d s = .error .tooLarge s := by
  have hlift : d.storageContents = .error .tooLarge := by
    rw [Database.storageContents,hser]
    rfl
  unfold atomicReplace
  rw [hlift]
  rfl

theorem replaceStep_ok {last : Option Database} {u : Unit}
    (h : atomicReplace storage committedPath tempPath d s = .ok u s') :
    replaceStep storage committedPath tempPath (s,last) d = (s',some d) := by
  simp only [replaceStep,h]

theorem replaceStep_error {last : Option Database} {e : StorageError}
    (h : atomicReplace storage committedPath tempPath d s = .error e s') :
    replaceStep storage committedPath tempPath (s,last) d = (s',last) := by
  simp only [replaceStep,h]

private theorem replaceStep_state (last : Option Database) :
    (replaceStep storage committedPath tempPath (s,last) d).1 =
      after (atomicReplace storage committedPath tempPath d) s := by
  cases h : atomicReplace storage committedPath tempPath d s with
  | ok _ s' => rw [replaceStep_ok h,after_of_ok h]
  | error e s' => rw [replaceStep_error h,after_of_error h]

/-- A clean call keeps the storage showing the last success. -/
theorem Shows.step (law : storage.Durable view committedPath tempPath) {last : Option Database}
    (hs : Shows committedPath tempPath view s last)
    (hclean : CleanCall storage committedPath tempPath view s d) :
    Shows committedPath tempPath view (replaceStep storage committedPath tempPath (s,last) d).1
      (replaceStep storage committedPath tempPath (s,last) d).2 := by
  cases hser : d.serializeForStorage with
  | error e =>
    rw [replaceStep_error (atomicReplace_unserializable hser s)]
    exact hs
  | ok contents =>
    have hcontents := storageContents_eq_ok.mpr hser
    cases hrun : atomicReplace storage committedPath tempPath d s with
    | ok _ s' =>
      rw [replaceStep_ok hrun]
      exact ⟨hclean.storable,hclean.fits,contents,hser,law.atomicReplace_ok hcontents hrun⟩
    | error e s' =>
      rw [replaceStep_error hrun]
      cases last with
      | some previous =>
        obtain ⟨hst,hfits,old,hold,hshown⟩ := hs
        refine ⟨hst,hfits,old,hold,?_⟩
        rcases law.atomicReplace_error hcontents hrun with ⟨hlate,hnew⟩ | ⟨_,hsame⟩
        · rw [hnew,← hclean.settles contents hser hlate,hshown]
        · rw [hsame,hshown]
      | none =>
        rcases law.leaves hser (hclean.leaves contents hser hs.1) hs hrun with ⟨hlate,_⟩ | ⟨hc,ht⟩
        · have hshown := hclean.settles contents hser hlate
          rw [hs.1] at hshown
          cases hshown
        · exact ⟨hc,fun bytes hb hl => (ht bytes hb hl).1⟩

theorem Shows.run (law : storage.Durable view committedPath tempPath) {last : Option Database}
    {calls : List Database} (hs : Shows committedPath tempPath view s last)
    (hclean : CleanCalls storage committedPath tempPath view s calls) :
    Shows committedPath tempPath view (replaceAll storage committedPath tempPath (s,last) calls).1
      (replaceAll storage committedPath tempPath (s,last) calls).2 := by
  induction calls generalizing s last with
  | nil => exact hs
  | cons d calls ih =>
    have hstep := hs.step law hclean.1
    exact ih hstep (replaceStep_state last ▸ hclean.2)

/-- What recovery answers with was read from the committed path, or from the temporary
path while the committed one shows nothing that loads. -/
theorem AtomicStorage.Durable.loadWithRecovery_ok (law : storage.Durable view committedPath tempPath)
    {r : RecoveryState} (h : loadWithRecovery storage committedPath tempPath s = .ok (d,r) s') :
    (∃ bytes, view s committedPath = some bytes ∧ Database.parse bytes = .ok d) ∨
    (∀ bytes, view s committedPath = some bytes → ¬ Loads bytes) ∧
      ∃ bytes, view s tempPath = some bytes ∧ Database.parse bytes = .ok d := by
  have hrecover : ∀ {t : σ}, view t = view s →
      recoverTemp storage committedPath tempPath t = .ok (d,r) s' →
      ∃ bytes, view s tempPath = some bytes ∧ Database.parse bytes = .ok d := by
    intro t ht h
    obtain ⟨s₁,s₂,hl,hb,_⟩ := underLock_ok.mp h
    obtain ⟨temporary,s₃,hread,hb⟩ := bind_eq_ok.mp hb
    obtain ⟨database,hparse,hb⟩ := lift_bind_eq_ok.mp hb
    have hd : database = d := by
      simp only [bind_eq_ok,pure_eq_ok,Prod.mk.injEq] at hb
      obtain ⟨_,_,_,_,_,_,⟨hd,_⟩,_⟩ := hb
      exact hd
    subst hd
    obtain ⟨outcome,s₄,hattempt,hread⟩ := bind_eq_ok.mp hread
    refine ⟨temporary,?_,mapError_eq_ok.mp hparse⟩
    rcases attempt_eq_ok.mp hattempt with ⟨bytes,rfl,hok⟩ | ⟨e,rfl,_⟩
    · obtain ⟨rfl,_⟩ := pure_eq_ok.mp hread
      rw [← law.read_ok hok,view_of_ok (law.lock t) hl,ht]
    · cases e <;> exact absurd hread throw_ne_ok
  obtain ⟨committed,t,hattempt,h⟩ := bind_eq_ok.mp h
  rcases attempt_eq_ok.mp hattempt with ⟨bytes,rfl,hok⟩ | ⟨e,rfl,hno⟩
  · have hshown := law.read_ok hok
    cases hparse : Database.parse bytes with
    | ok d' =>
      simp only [hparse] at h
      obtain ⟨he,_⟩ := pure_eq_ok.mp h
      cases he
      exact .inl ⟨bytes,hshown,hparse⟩
    | error e =>
      simp only [hparse] at h
      refine .inr ⟨?_,hrecover (view_of_ok (law.read committedPath s) hok) h⟩
      rintro bytes' hbytes ⟨d',hd'⟩
      rw [hshown] at hbytes
      cases hbytes
      rw [hparse] at hd'
      cases hd'
  · have hview := view_of_error (law.read committedPath s) hno
    have hnone : e = .missing ∨ e = .corrupt → ∀ bytes, view s committedPath = some bytes → ¬ Loads bytes := by
      intro he bytes hbytes
      rw [law.read_none hno he] at hbytes
      cases hbytes
    cases e with
    | missing => exact .inr ⟨hnone (.inl rfl),hrecover hview h⟩
    | corrupt => exact .inr ⟨hnone (.inr rfl),hrecover hview h⟩
    | _ => exact absurd h throw_ne_ok

/-- A stored database that fits the format is what recovery answers with. -/
theorem AtomicStorage.Durable.load_committed (law : storage.Durable view committedPath tempPath)
    {p : Database} {r : RecoveryState} (hst : p.Storable) (hfits : p.FitsFormat)
    (hser : p.serializeForStorage = .ok contents) (hshown : view s committedPath = some contents)
    (h : loadWithRecovery storage committedPath tempPath s = .ok (d,r) s') : p = d := by
  have hparse := (parse_serialized hst hser).mpr hfits
  rcases law.loadWithRecovery_ok h with ⟨bytes,hbytes,hd⟩ | ⟨hno,_⟩
  · rw [hshown] at hbytes
    cases hbytes
    rw [hparse] at hd
    cases hd
    rfl
  · exact absurd ⟨p,hparse⟩ (hno contents hshown)

/-- From a storage that shows `last`, recovery answers with `last` or not at all. -/
theorem Shows.load (law : storage.Durable view committedPath tempPath) {last : Option Database} {t : σ}
    {r : RecoveryState} (hs : Shows committedPath tempPath view t last) (hview : view s = view t)
    (h : loadWithRecovery storage committedPath tempPath s = .ok (d,r) s') : last = some d := by
  cases last with
  | some p =>
    obtain ⟨hst,hfits,contents,hser,hshown⟩ := hs
    rw [law.load_committed hst hfits hser (hview ▸ hshown) h]
  | none =>
    rcases law.loadWithRecovery_ok h with ⟨bytes,hbytes,_⟩ | ⟨_,bytes,hbytes,hd⟩
    · rw [hview,hs.1] at hbytes
      cases hbytes
    · exact absurd ⟨d,hd⟩ (hs.2 bytes (hview ▸ hbytes))

end Step

/-- Recovery never invents a database: after clean calls, the last of them possibly cut by a
power loss, what it returns is the last success or the database of the cut call. -/
theorem recovery_returns_stored (storage : AtomicStorage σ) (view : σ → Bytes → Option Bytes)
    (committedPath tempPath : Bytes) (law : storage.Durable view committedPath tempPath)
    (loss : PowerLoss σ) (hloss : loss.Lawful view committedPath tempPath) (s : σ)
    (initial : Option Database) (hinitial : Shows committedPath tempPath view s initial)
    (calls : List Database) (hcalls : CleanCalls storage committedPath tempPath view s calls)
    (cut : Option (Database × Nat))
    (hcut : ∀ d left, cut = some (d,left) → CleanCut storage committedPath tempPath loss view
      (replaceAll storage committedPath tempPath (s,initial) calls).1 d left)
    (d : Database) (r : RecoveryState) (s' : σ)
    (h : loadWithRecovery storage committedPath tempPath (cutReplace storage committedPath tempPath loss
      (replaceAll storage committedPath tempPath (s,initial) calls).1 cut) = .ok (d,r) s') :
    (replaceAll storage committedPath tempPath (s,initial) calls).2 = some d ∨
      ∃ left, cut = some (d,left) := by
  have hshows := hinitial.run law hcalls
  generalize replaceAll storage committedPath tempPath (s,initial) calls = run at *
  obtain ⟨t,last⟩ := run
  cases cut with
  | none => exact .inl (hshows.load law rfl h)
  | some c =>
    obtain ⟨c,left⟩ := c
    have hclean := hcut c left rfl
    have hpower := law.untilPowerLoss hloss
    simp only [cutReplace] at h
    have hview := hloss.restart (after (atomicReplace (storage.untilPowerLoss loss) committedPath
      tempPath c) (t,left)).1
    cases hser : c.serializeForStorage with
    | error e =>
      have hsame : after (atomicReplace (storage.untilPowerLoss loss) committedPath tempPath c) (t,left) =
          (t,left) := after_of_error (atomicReplace_unserializable hser (t,left))
      rw [hsame] at hview h
      exact .inl (hshows.load law hview h)
    | ok contents =>
      have hcontents := storageContents_eq_ok.mpr hser
      have hcase : view (loss.restart (after (atomicReplace (storage.untilPowerLoss loss) committedPath
          tempPath c) (t,left)).1) committedPath = some contents → c = d := fun hshown =>
        law.load_committed hclean.storable hclean.fits hser hshown h
      cases hrun : atomicReplace (storage.untilPowerLoss loss) committedPath tempPath c (t,left) with
      | ok _ v =>
        have hnew := hpower.atomicReplace_ok hcontents hrun
        rw [hview,after_of_ok hrun] at hcase
        exact .inr ⟨left,by rw [hcase hnew]⟩
      | error e v =>
        rw [hview,after_of_error hrun] at hcase
        rw [after_of_error hrun] at hview h
        cases last with
        | some p =>
          rcases hpower.atomicReplace_error hcontents hrun with ⟨_,hnew⟩ | ⟨_,hsame⟩
          · exact .inr ⟨left,by rw [hcase hnew]⟩
          · obtain ⟨hst,hfits,old,hold,hshown⟩ := hshows
            refine .inl ?_
            rw [law.load_committed hst hfits hold (hview ▸ hsame.trans hshown) h]
        | none =>
          rcases hpower.leaves hser (hclean.leaves contents hser hshows.1) hshows hrun with
            ⟨_,hnew⟩ | ⟨hnone,htemp⟩
          · exact .inr ⟨left,by rw [hcase hnew]⟩
          · rcases law.loadWithRecovery_ok h with ⟨bytes,hbytes,_⟩ | ⟨_,bytes,hbytes,hd⟩
            · rw [hview,hnone] at hbytes
              cases hbytes
            · rw [hview] at hbytes
              have hwhole := (htemp bytes hbytes ⟨d,hd⟩).2
              rw [hwhole,(parse_serialized hclean.storable hser).mpr hclean.fits] at hd
              cases hd
              exact .inr ⟨left,rfl⟩

theorem diskStorage_durable (fails : StorageMethod → Bool) (torn : Nat) {committedPath tempPath : Bytes}
    (hne : committedPath ≠ tempPath) :
    (diskStorage fails torn).Durable Disk.files committedPath tempPath where
  toLawful := diskStorage_lawful fails torn hne
  distinct := hne
  read path s := by
    simp only [diskStorage,after]
    split_ifs
    · rfl
    · cases s.files path <;> rfl
  read_ok {path bytes s s'} h := by
    simp only [diskStorage] at h
    split_ifs at h
    cases hf : s.files path <;> rw [hf] at h <;> cases h
    rfl
  read_none {path e s s'} h he := by
    simp only [diskStorage] at h
    split_ifs at h
    · cases h
      rcases he with he | he <;> cases he
    · cases hf : s.files path <;> rw [hf] at h
      cases h
  writeTemp_torn h := by
    simp only [diskStorage] at h
    split at h <;> cases h
    exact .inr ⟨torn,by simp [Disk.put]⟩
  replace_kept h := by
    simp only [diskStorage] at h
    split at h <;> cases h
    rfl

/-- A power loss that tears nothing and lets go of the lock. -/
def gentlePowerLoss : PowerLoss Disk := ⟨fun _ _ s => s,fun s => { s with held := false }⟩

private theorem gentlePowerLoss_lawful (committedPath tempPath : Bytes) :
    gentlePowerLoss.Lawful Disk.files committedPath tempPath :=
  ⟨fun _ _ => .inl rfl,fun _ _ => rfl,fun _ => rfl⟩

/-- A disk whose writes stop after the header, and a power loss that does the same to a write. -/
def tornDisk : AtomicStorage Disk := diskStorage (· == .writeTemp) 14
def tearingPowerLoss : PowerLoss Disk :=
  ⟨fun path contents s => s.put path (some (contents.take 14)),fun s => { s with held := false }⟩

private theorem tearingPowerLoss_lawful {committedPath tempPath : Bytes} (hne : committedPath ≠ tempPath) :
    tearingPowerLoss.Lawful Disk.files committedPath tempPath :=
  ⟨fun _ _ => .inr ⟨14,by simp [tearingPowerLoss,Disk.put]⟩,fun _ _ => by simp [tearingPowerLoss,Disk.put,hne],fun _ => rfl⟩

def usersDisk : Disk := emptyDisk.put usersPath (some (Database.mk [] [usersGroup]).contents)

/-- What a power loss in its write leaves of a second call, behind a first one whose write failed. -/
def tornTwice : Disk :=
  cutReplace tornDisk usersPath usersTempPath tearingPowerLoss
    (replaceAll tornDisk usersPath usersTempPath (usersDisk,some ⟨[],[usersGroup]⟩) [memberDatabase]).1 (some (memberDatabase,2))

theorem recovery_returns_stored_users : tornTwice.files usersTempPath = some (ascii "NORX-USERDB 1\n") ∧
    ∃ d r s', loadWithRecovery tornDisk usersPath usersTempPath tornTwice = .ok (d,r) s' ∧ d = ⟨[],[usersGroup]⟩ ∧
      ((replaceAll tornDisk usersPath usersTempPath (usersDisk,some ⟨[],[usersGroup]⟩) [memberDatabase]).2 = some d ∨
        ∃ left, some (memberDatabase,2) = some (d,left)) := by
  have hfiles : tornTwice.files usersPath = some (Database.mk [] [usersGroup]).contents := by decide +kernel
  have hshows : Shows usersPath usersTempPath Disk.files usersDisk (some ⟨[],[usersGroup]⟩) :=
    ⟨usersDatabase_wellFormed.toStorable,usersDatabase_fitsFormat,_,serializeForStorage_eq_ok.mpr ⟨rfl,by decide⟩,by decide +kernel⟩
  have hcommitted : usersDisk.files usersPath ≠ none := by decide +kernel
  have hkept :
      (replaceAll tornDisk usersPath usersTempPath (usersDisk,some ⟨[],[usersGroup]⟩) [memberDatabase]).1.files usersPath ≠ none := by
    decide +kernel
  have hload : loadWithRecovery tornDisk usersPath usersTempPath tornTwice = .ok (⟨[],[usersGroup]⟩,.current) tornTwice := by
    have hread : tornDisk.read usersPath tornTwice = .ok (Database.mk [] [usersGroup]).contents tornTwice := by
      simp only [tornDisk,diskStorage,hfiles]
      rfl
    have hparse : Database.parse (Database.mk [] [usersGroup]).contents = .ok ⟨[],[usersGroup]⟩ :=
      (parse_serialized usersDatabase_wellFormed.toStorable (serializeForStorage_eq_ok.mpr ⟨rfl,by decide⟩)).mpr usersDatabase_fitsFormat
    refine bind_eq_ok.mpr ⟨.ok _,tornTwice,attempt_eq_ok.mpr (.inl ⟨_,rfl,hread⟩),?_⟩
    simp only [hparse]
    rfl
  refine ⟨by decide +kernel,_,_,_,hload,rfl,?_⟩
  refine recovery_returns_stored tornDisk Disk.files usersPath usersTempPath (diskStorage_durable _ _ (by decide)) tearingPowerLoss
    (tearingPowerLoss_lawful (by decide)) usersDisk (some ⟨[],[usersGroup]⟩) hshows [memberDatabase] ⟨?_,trivial⟩
    (some (memberDatabase,2)) ?_ _ _ _ hload
  · refine ⟨memberDatabase_reachable.storable,memberDatabase_fitsFormat,?_,fun _ _ hnone => absurd hnone hcommitted⟩
    rintro contents _ ⟨_,_,_,_,hsettle⟩
    cases hsettle
  · rintro d left hcut
    cases hcut
    exact ⟨memberDatabase_reachable.storable,memberDatabase_fitsFormat,fun _ _ hnone => absurd hnone hkept⟩

/-- A write that stops after the header leaves an empty database behind, which recovery
takes for the account store. -/
theorem torn_write_is_recovered : ¬ ∀ (storage : AtomicStorage Disk)
    (view : Disk → Bytes → Option Bytes) (committedPath tempPath : Bytes),
    storage.Durable view committedPath tempPath →
    ∀ (loss : PowerLoss Disk), loss.Lawful view committedPath tempPath →
    ∀ (s : Disk) (initial : Option Database),
      (initial.elim (view s committedPath = none) fun d =>
        ∃ contents, d.serializeForStorage = .ok contents ∧ view s committedPath = some contents) →
      view s tempPath = none →
    ∀ (calls : List Database) (cut : Option (Database × Nat)) (d : Database) (r : RecoveryState) (s' : Disk),
      (∀ c ∈ calls, Reachable c) →
      loadWithRecovery storage committedPath tempPath (cutReplace storage committedPath tempPath loss
        (replaceAll storage committedPath tempPath (s,initial) calls).1 cut) = .ok (d,r) s' →
      (replaceAll storage committedPath tempPath (s,initial) calls).2 = some d ∨
        ∃ left, cut = some (d,left) := by
  intro h
  have h := h (diskStorage (· == .writeTemp) 14) Disk.files usersPath usersTempPath
    (diskStorage_durable _ _ (by decide)) gentlePowerLoss (gentlePowerLoss_lawful _ _) emptyDisk none rfl
    rfl [⟨[],[usersGroup]⟩] none ⟨[],[]⟩ .recoveredTemp _
    (by simpa using usersDatabase_reachable) rfl
  rcases h with h | ⟨_,h⟩ <;> cases h

end UserDb.Norx
