import UserDb.Norx.Transaction

/-! Two clients whose transactions interleave step by step on one storage. The writer
lock keeps their storage sections apart, but each candidate comes from the client's own
copy, so the section that comes last decides what is committed. -/
namespace UserDb.Norx
open UserDb.Base UserDb.Base.Outcomes

variable {σ : Type}

/-- Where a client stands in its transaction: before a storage call, or past all of them. -/
inductive Stage where
  | start
  | locking (candidate : Database) (contents : Bytes)
  | writing (candidate : Database) (contents : Bytes)
  | syncing (candidate : Database) (contents : Bytes)
  | replacing (candidate : Database) (contents : Bytes)
  | syncingParent (candidate : Database)
  | unlocking (candidate : Database) (outcome : Except StorageError Unit)
  | finished (result : Except AdminError Unit)

structure Client where
  actor : SessionCredentials
  operation : DatabaseCall AdminError Unit
  memory : Database
  stage : Stage

def Client.at (self : Client) (stage : Stage) : Client := { self with stage := stage }

@[simp] theorem Client.at_operation (c : Client) (stage : Stage) :
    (c.at stage).operation = c.operation := rfl
@[simp] theorem Client.at_stage (c : Client) (stage : Stage) : (c.at stage).stage = stage := rfl

/-- The part of a transaction that needs no storage. -/
def Client.prepare (self : Client) : Except AdminError (Database × Bytes) := do
  requireAdmin self.actor
  let (_,candidate) ← runOn self.operation self.memory
  let contents ← candidate.storageContents.mapError .storage
  pure (candidate,contents)

/-- Make one storage call and go on from its outcome. -/
def Client.advance (self : Client) (call : StorageCall σ Unit) (next : Stage)
    (failed : StorageError → Stage) (s : σ) : Client × σ :=
  match call s with
  | .ok _ s' => (self.at next,s')
  | .error e s' => (self.at (failed e),s')

/-- One step of a transaction: at most one storage call. -/
def Client.step (storage : AtomicStorage σ) (committedPath tempPath : Bytes) (self : Client) (s : σ) :
    Client × σ :=
  match self.stage with
  | .start =>
    match self.prepare with
    | .ok (candidate,contents) => (self.at (.locking candidate contents),s)
    | .error e => (self.at (.finished (.error e)),s)
  | .locking candidate contents =>
    self.advance storage.lock (.writing candidate contents) (fun e => .finished (.error (.storage e))) s
  | .writing candidate contents =>
    self.advance (storage.writeTemp tempPath contents) (.syncing candidate contents)
      (fun e => .unlocking candidate (.error e)) s
  | .syncing candidate contents =>
    self.advance (storage.syncFile tempPath) (.replacing candidate contents)
      (fun e => .unlocking candidate (.error e)) s
  | .replacing candidate _ =>
    self.advance (storage.replace tempPath committedPath) (.syncingParent candidate)
      (fun e => .unlocking candidate (.error e)) s
  | .syncingParent candidate =>
    self.advance (storage.syncParent committedPath) (.unlocking candidate (.ok ()))
      (fun e => .unlocking candidate (.error e)) s
  | .unlocking candidate outcome =>
    match outcome with
    | .error e => self.advance storage.unlock (.finished (.error (.storage e)))
        (fun _ => .finished (.error (.storage e))) s
    | .ok _ =>
      match storage.unlock s with
      | .ok _ s' => ({ self with memory := candidate, stage := .finished (.ok ()) },s')
      | .error e s' => (self.at (.finished (.error (.storage e))),s')
  | .finished _ => (self,s)

/-- The state of a client that has made its whole call alone. -/
def Client.afterCall (self : Client) : EStateM.Result AdminError (Database × σ) Unit → Client × σ
  | .ok _ (memory,s) => ({ self with memory := memory, stage := .finished (.ok ()) },s)
  | .error e (memory,s) => ({ self with memory := memory, stage := .finished (.error e) },s)

private theorem transactAdmin_prepare (storage : AtomicStorage σ) (committedPath tempPath : Bytes) (c : Client)
    (s : σ) :
    transactAdmin storage c.actor committedPath tempPath c.operation (c.memory,s) =
      match c.prepare with
      | .error e => .error e (c.memory,s)
      | .ok (candidate,contents) =>
        match storage.underLock (do
          storage.writeTemp tempPath contents
          storage.syncFile tempPath
          storage.replace tempPath committedPath
          storage.syncParent committedPath) s with
        | .ok _ s' => .ok () (candidate,s')
        | .error e s' => .error (.storage e) (c.memory,s') := by
  rw [transactAdmin,transactAdminWith_eq]
  unfold Client.prepare
  cases requireAdmin c.actor with
  | error e => rfl
  | ok _ =>
    cases runOn c.operation c.memory with
    | error e => rfl
    | ok r =>
      cases hser : r.2.storageContents with
      | error e =>
        simp only [bind,Except.bind,atomicReplace,hser]
        rfl
      | ok contents =>
        simp only [bind,Except.bind,hser,atomicReplace_eq hser]
        rfl

section Alone
variable {storage : AtomicStorage σ} {committedPath tempPath : Bytes} {c : Client}
  {call : StorageCall σ Unit} {next : Stage} {failed : StorageError → Stage}

theorem Client.advance_ok {s s' : σ} {u : Unit} (h : call s = .ok u s') :
    c.advance call next failed s = (c.at next,s') := by
  simp only [Client.advance,h]

theorem Client.advance_error {s s' : σ} {e : StorageError} (h : call s = .error e s') :
    c.advance call next failed s = (c.at (failed e),s') := by
  simp only [Client.advance,h]

abbrev aloneStep (storage : AtomicStorage σ) (committedPath tempPath : Bytes) :
    Client × σ → Client × σ := fun (c,s) => c.step storage committedPath tempPath s

private theorem alone_finished (n : Nat) (result : Except AdminError Unit) (s : σ) :
    (aloneStep storage committedPath tempPath)^[n] (c.at (.finished result),s) =
      (c.at (.finished result),s) := by
  induction n with
  | zero => rfl
  | succ n ih => rw [Function.iterate_succ_apply]; exact ih

private theorem alone_unlocking (n : Nat) (candidate : Database) (e : StorageError) (s : σ) :
    (aloneStep storage committedPath tempPath)^[n+1] (c.at (.unlocking candidate (.error e)),s) =
      (c.at (.finished (.error (.storage e))),after storage.unlock s) := by
  have hstep : aloneStep storage committedPath tempPath (c.at (.unlocking candidate (.error e)),s) =
      (c.at (.finished (.error (.storage e))),after storage.unlock s) := by
    cases hu : storage.unlock s <;> simp [aloneStep,Client.step,Client.advance,hu,after,Client.at]
  rw [Function.iterate_succ_apply,hstep]
  exact alone_finished n _ _

end Alone

/-- Uninterrupted, the steps of a client are one transaction. -/
theorem Client.steps_alone (storage : AtomicStorage σ) (committedPath tempPath : Bytes) (c : Client)
    (s : σ) (h : c.stage = .start) :
    (aloneStep storage committedPath tempPath)^[7] (c,s) =
      c.afterCall (transactAdmin storage c.actor committedPath tempPath c.operation (c.memory,s)) := by
  rw [transactAdmin_prepare,Function.iterate_succ_apply]
  cases hp : c.prepare with
  | error e =>
    simp only [aloneStep,Client.step,h,hp]
    exact alone_finished 6 _ _
  | ok r =>
    obtain ⟨candidate,contents⟩ := r
    simp only [aloneStep,Client.step,h,hp,Function.iterate_succ_apply _ 5,Client.at_stage,underLock_eq]
    cases hl : storage.lock s with
    | error e s₁ =>
      rw [Client.advance_error hl]
      exact alone_finished 5 _ _
    | ok _ s₁ =>
      rw [Client.advance_ok hl,Function.iterate_succ_apply _ 4]
      simp only [Client.step,Client.at_stage,bind,EStateM.bind]
      cases hw : storage.writeTemp tempPath contents s₁ with
      | error e a =>
        rw [Client.advance_error hw]
        exact alone_unlocking 3 _ _ _
      | ok _ a =>
        rw [Client.advance_ok hw,Function.iterate_succ_apply _ 3]
        simp only [Client.step,Client.at_stage]
        cases hs : storage.syncFile tempPath a with
        | error e b =>
          rw [Client.advance_error hs]
          exact alone_unlocking 2 _ _ _
        | ok _ b =>
          rw [Client.advance_ok hs,Function.iterate_succ_apply _ 2]
          simp only [Client.step,Client.at_stage]
          cases hr : storage.replace tempPath committedPath b with
          | error e t =>
            rw [Client.advance_error hr]
            exact alone_unlocking 1 _ _ _
          | ok _ t =>
            rw [Client.advance_ok hr,Function.iterate_succ_apply _ 1]
            simp only [Client.step,Client.at_stage]
            cases hq : storage.syncParent committedPath t with
            | error e v =>
              rw [Client.advance_error hq]
              exact alone_unlocking 0 _ _ _
            | ok _ v =>
              rw [Client.advance_ok hq,Function.iterate_one]
              simp only [Client.step,Client.at_stage]
              cases storage.unlock v <;> rfl

/-- Two clients on one storage. `publisher` records whose replacement took effect last. -/
structure World (σ : Type) where
  clients : Bool → Client
  files : σ
  publisher : Option Bool

/-- The step between these two stages is a replacement that took effect. -/
def Stage.replaced : Stage → Stage → Bool
  | .replacing _ _, .syncingParent _ => true
  | _, _ => false

def World.step (storage : AtomicStorage σ) (committedPath tempPath : Bytes) (w : World σ) (turn : Bool) :
    World σ :=
  let next := (w.clients turn).step storage committedPath tempPath w.files
  ⟨Function.update w.clients turn next.1,next.2,
    if (w.clients turn).stage.replaced next.1.stage then some turn else w.publisher⟩

def World.run (storage : AtomicStorage σ) (committedPath tempPath : Bytes) (w : World σ)
    (schedule : List Bool) : World σ :=
  schedule.foldl (World.step storage committedPath tempPath) w

/-- The writer lock: it is granted only while nobody holds it, and only an unlock gives it back. -/
structure AtomicStorage.Exclusive (storage : AtomicStorage σ) (held : σ → Bool)
    (committedPath tempPath : Bytes) : Prop where
  lock_ok : ∀ {s s'}, storage.lock s = .ok () s' → held s = false ∧ held s' = true
  lock_error : ∀ {s e s'}, storage.lock s = .error e s' → held s' = held s
  writeTemp : ∀ contents s, held (after (storage.writeTemp tempPath contents) s) = held s
  syncFile : ∀ s, held (after (storage.syncFile tempPath) s) = held s
  replace : ∀ s, held (after (storage.replace tempPath committedPath) s) = held s
  syncParent : ∀ s, held (after (storage.syncParent committedPath) s) = held s

/-- Between lock and unlock. -/
def Stage.Inside : Stage → Prop
  | .start | .locking _ _ | .finished _ => False
  | .writing _ _ | .syncing _ _ | .replacing _ _ | .syncingParent _ | .unlocking _ _ => True

/-- The replacement has taken effect and nothing has failed since. -/
def Stage.Published : Stage → Prop
  | .syncingParent _ => True
  | .unlocking _ outcome => outcome = .ok ()
  | .finished result => result = .ok ()
  | _ => False

/-- Past the replacement, whether it took effect or not. -/
def Stage.Past : Stage → Prop
  | .syncingParent _ | .unlocking _ _ | .finished _ => True
  | _ => False

/-- Something was written that no replacement has confirmed. -/
def Stage.Unsettled : Stage → Prop
  | .syncing _ _ | .replacing _ _ => True
  | .unlocking _ outcome => outcome ≠ .ok ()
  | .finished result => result ≠ .ok ()
  | _ => False

/-- The contents that must be at the temporary path. -/
def Stage.Pending (contents : Bytes) : Stage → Prop
  | .syncing _ c | .replacing _ c => c = contents
  | _ => False

/-- What a client has computed comes from the database it was given. -/
def Client.Knows (self : Client) (d : Database) : Prop :=
  match self.stage with
  | .start => self.memory = d
  | .locking candidate contents | .writing candidate contents | .syncing candidate contents
  | .replacing candidate contents =>
    self.operation d = .ok () candidate ∧ candidate.serializeForStorage = .ok contents
  | .syncingParent candidate => self.operation d = .ok () candidate
  | .unlocking candidate outcome => outcome = .ok () → self.operation d = .ok () candidate
  | .finished result => result = .ok () → self.operation d = .ok () self.memory

/-- The committed path shows what client `i` computed from `d`, unless the other client
has left a write unconfirmed. -/
def World.Committed (w : World σ) (view : σ → Bytes → Option Bytes) (committedPath : Bytes)
    (d : Database) (i : Bool) : Prop :=
  (w.clients i).stage.Past ∧ ∃ candidate contents, (w.clients i).operation d = .ok () candidate ∧
    candidate.serializeForStorage = .ok contents ∧
      (view w.files committedPath = some contents ∨ (w.clients !i).stage.Unsettled)

structure World.Inv (w : World σ) (view : σ → Bytes → Option Bytes) (held : σ → Bool)
    (committedPath tempPath : Bytes) (d : Database) : Prop where
  knows : ∀ i, (w.clients i).Knows d
  alone : ∀ i, (w.clients i).stage.Inside → held w.files = true ∧ ¬ (w.clients !i).stage.Inside
  pending : ∀ i contents, (w.clients i).stage.Pending contents → view w.files tempPath = some contents
  published : ∀ i, (w.clients i).stage.Published → w.publisher ≠ none
  committed : ∀ i, w.publisher = some i → w.Committed view committedPath d i

section Interleaving
variable {storage : AtomicStorage σ} {view : σ → Bytes → Option Bytes} {held : σ → Bool}
  {committedPath tempPath : Bytes} {d : Database} {w : World σ} {turn : Bool}

theorem Stage.Pending.inside {contents : Bytes} {stage : Stage} (h : stage.Pending contents) :
    stage.Inside := by
  cases stage <;> first | exact trivial | exact h

/-- One client moves; what is to be shown concerns it alone, or the storage. -/
theorem World.Inv.move (h : w.Inv view held committedPath tempPath d) {client : Client} {files : σ}
    {publisher : Option Bool} (hknows : client.Knows d)
    (halone : client.stage.Inside → held files = true ∧ ¬ (w.clients !turn).stage.Inside)
    (hother : (w.clients !turn).stage.Inside → ¬ client.stage.Inside ∧ held files = true ∧
      view files tempPath = view w.files tempPath)
    (hpending : ∀ contents, client.stage.Pending contents → view files tempPath = some contents)
    (hpublished : client.stage.Published → publisher ≠ none)
    (hkeep : publisher = none → w.publisher = none)
    (hcommitted : ∀ i, publisher = some i →
      (World.mk (Function.update w.clients turn client) files publisher).Committed view committedPath d i) :
    (World.mk (Function.update w.clients turn client) files publisher).Inv view held committedPath
      tempPath d where
  knows i := by
    rcases eq_or_ne i turn with rfl | hne
    · simpa using hknows
    · simpa [hne] using h.knows i
  alone i hi := by
    rcases eq_or_ne i turn with rfl | hne
    · simpa using halone (by simpa using hi)
    · obtain rfl : i = !turn := Bool.eq_not_of_ne hne
      have hi : (w.clients !turn).stage.Inside := by simpa using hi
      exact ⟨(hother hi).2.1,by simpa using (hother hi).1⟩
  pending i contents hi := by
    rcases eq_or_ne i turn with rfl | hne
    · exact hpending contents (by simpa using hi)
    · obtain rfl : i = !turn := Bool.eq_not_of_ne hne
      have hi : (w.clients !turn).stage.Pending contents := by simpa using hi
      exact (hother hi.inside).2.2.trans (h.pending _ _ hi)
  published i hi := by
    rcases eq_or_ne i turn with rfl | hne
    · exact hpublished (by simpa using hi)
    · exact fun hnone => h.published i (by simpa [hne] using hi) (hkeep hnone)
  committed := hcommitted

/-- A move that is no replacement: what is committed stays so, or becomes unconfirmed. -/
theorem World.Inv.keep (h : w.Inv view held committedPath tempPath d) {client : Client} {files : σ}
    (hop : client.operation = (w.clients turn).operation)
    (hpast : (w.clients turn).stage.Past → client.stage.Past)
    (hunsettled : (w.clients turn).stage.Unsettled → client.stage.Unsettled)
    (hview : view files committedPath = view w.files committedPath ∨
      ¬ (w.clients turn).stage.Past ∧ client.stage.Unsettled) (i : Bool) (hi : w.publisher = some i) :
    (World.mk (Function.update w.clients turn client) files w.publisher).Committed view committedPath d i := by
  obtain ⟨hp,candidate,contents,hrun,hser,hshown⟩ := h.committed i hi
  rcases eq_or_ne i turn with rfl | hne
  · have hsame := hview.resolve_right fun hno => hno.1 hp
    refine ⟨by simpa using hpast hp,candidate,contents,by simpa [hop] using hrun,hser,?_⟩
    simpa [hsame] using hshown
  · obtain rfl : i = !turn := Bool.eq_not_of_ne hne
    refine ⟨by simpa using hp,candidate,contents,by simpa using hrun,hser,?_⟩
    simp only [Bool.not_not,Function.update_self] at hshown ⊢
    rcases hview with hsame | ⟨_,hnew⟩
    · exact hshown.imp (hsame ▸ ·) hunsettled
    · exact .inr hnew

/-- A move between lock and unlock, during which the other client stands outside. -/
theorem World.Inv.moveInside (h : w.Inv view held committedPath tempPath d)
    (hin : (w.clients turn).stage.Inside) {client : Client} {files : σ} {publisher : Option Bool}
    (hknows : client.Knows d) (hheld : client.stage.Inside → held files = held w.files)
    (hpending : ∀ contents, client.stage.Pending contents → view files tempPath = some contents)
    (hpublished : client.stage.Published → publisher ≠ none)
    (hkeep : publisher = none → w.publisher = none)
    (hcommitted : ∀ i, publisher = some i →
      (World.mk (Function.update w.clients turn client) files publisher).Committed view committedPath d i) :
    (World.mk (Function.update w.clients turn client) files publisher).Inv view held committedPath
      tempPath d := by
  obtain ⟨hheld',hout⟩ := h.alone turn hin
  exact h.move hknows (fun hi => ⟨(hheld hi).trans hheld',hout⟩) (fun ho => absurd ho hout) hpending
    hpublished hkeep hcommitted

theorem Client.prepare_ok {c : Client} {candidate : Database} {contents : Bytes}
    (h : c.prepare = .ok (candidate,contents)) :
    c.operation c.memory = .ok () candidate ∧ candidate.serializeForStorage = .ok contents := by
  simp only [Client.prepare,except_bind_eq_ok,mapError_eq_ok] at h
  obtain ⟨_,_,⟨⟨⟩,_⟩,hop,_,hser,h⟩ := h
  cases h
  exact ⟨runOn_eq_ok.mp hop,storageContents_eq_ok.mp hser⟩

/-- Every step of every client keeps the invariant. -/
theorem World.Inv.step (law : storage.Lawful view committedPath tempPath)
    (mutex : storage.Exclusive held committedPath tempPath)
    (h : w.Inv view held committedPath tempPath d) (turn : Bool) :
    (w.step storage committedPath tempPath turn).Inv view held committedPath tempPath d := by
  have hknows := h.knows turn
  have halone := h.alone turn
  have hpending := h.pending turn
  have hpublished := h.published turn
  have hcommitted := h.committed
  unfold World.step Client.step
  cases hstage : (w.clients turn).stage with
  | start =>
    simp only [Client.Knows,hstage] at hknows
    cases hprep : (w.clients turn).prepare with
    | error e =>
      refine h.move (by simp [Client.Knows]) (by simp [Stage.Inside]) ?_ (by simp [Stage.Pending])
        (by simp [Stage.Published]) id (h.keep rfl ?_ ?_ (.inl rfl))
      · exact fun ho => ⟨by simp [Stage.Inside],(h.alone _ ho).1,rfl⟩
      · simp [Stage.Past]
      · simp [Stage.Unsettled]
    | ok r =>
      obtain ⟨candidate,contents⟩ := r
      have hprep := Client.prepare_ok hprep
      rw [hknows] at hprep
      refine h.move (by simpa [Client.Knows] using hprep) (by simp [Stage.Inside]) ?_
        (by simp [Stage.Pending]) (by simp [Stage.Published]) id (h.keep rfl ?_ ?_ (.inl rfl))
      · exact fun ho => ⟨by simp [Stage.Inside],(h.alone _ ho).1,rfl⟩
      · simp [hstage,Stage.Past]
      · simp [hstage,Stage.Unsettled]
  | locking candidate contents =>
    simp only [Client.Knows,hstage] at hknows
    cases hl : storage.lock w.files with
    | error e s' =>
      simp only [Client.advance_error hl]
      have hview := view_of_error (law.lock w.files) hl
      refine h.move (by simp [Client.Knows]) (by simp [Stage.Inside]) ?_ (by simp [Stage.Pending])
        (by simp [Stage.Published]) id (h.keep rfl ?_ ?_ (.inl (by rw [hview])))
      · intro ho
        exact ⟨by simp [Stage.Inside],(mutex.lock_error hl).trans (h.alone _ ho).1,by rw [hview]⟩
      · simp [Stage.Past]
      · simp [Stage.Unsettled]
    | ok _ s' =>
      simp only [Client.advance_ok hl]
      have hview := view_of_ok (law.lock w.files) hl
      obtain ⟨hfree,hheld⟩ := mutex.lock_ok hl
      have hout : ¬ (w.clients !turn).stage.Inside := by
        intro ho
        rw [(h.alone _ ho).1] at hfree
        cases hfree
      refine h.move (by simpa [Client.Knows] using hknows) (fun _ => ⟨hheld,hout⟩)
        (fun ho => absurd ho hout) (by simp [Stage.Pending]) (by simp [Stage.Published]) id
        (h.keep rfl ?_ ?_ (.inl (by rw [hview])))
      · simp [hstage,Stage.Past]
      · simp [hstage,Stage.Unsettled]
  | writing candidate contents =>
    have hin : (w.clients turn).stage.Inside := hstage ▸ trivial
    simp only [Client.Knows,hstage] at hknows
    cases hw : storage.writeTemp tempPath contents w.files with
    | error e s' =>
      simp only [Client.advance_error hw]
      refine h.moveInside hin (by simp [Client.Knows])
        (fun _ => after_of_error hw ▸ mutex.writeTemp contents w.files) (by simp [Stage.Pending])
        (by simp [Stage.Published]) id (h.keep rfl ?_ ?_ (.inl (law.writeTemp_error hw)))
      · simp [hstage,Stage.Past]
      · simp [hstage,Stage.Unsettled]
    | ok _ s' =>
      simp only [Client.advance_ok hw]
      refine h.moveInside hin (by simpa [Client.Knows] using hknows)
        (fun _ => after_of_ok hw ▸ mutex.writeTemp contents w.files) ?_
        (by simp [Stage.Published]) id (h.keep rfl ?_ ?_ (.inr ?_))
      · rintro _ rfl
        exact (law.writeTemp_ok hw).1
      · simp [hstage,Stage.Past]
      · simp [hstage,Stage.Unsettled]
      · simp [hstage,Stage.Past,Stage.Unsettled]
  | syncing candidate contents =>
    have hin : (w.clients turn).stage.Inside := hstage ▸ trivial
    simp only [Client.Knows,hstage] at hknows
    cases hs : storage.syncFile tempPath w.files with
    | error e s' =>
      simp only [Client.advance_error hs]
      refine h.moveInside hin (by simp [Client.Knows])
        (fun _ => after_of_error hs ▸ mutex.syncFile w.files) (by simp [Stage.Pending])
        (by simp [Stage.Published]) id
        (h.keep rfl ?_ ?_ (.inl (by rw [view_of_error (law.syncFile w.files) hs])))
      · simp [hstage,Stage.Past]
      · simp [Stage.Unsettled]
    | ok _ s' =>
      simp only [Client.advance_ok hs]
      have hview := view_of_ok (law.syncFile w.files) hs
      refine h.moveInside hin (by simpa [Client.Knows] using hknows)
        (fun _ => after_of_ok hs ▸ mutex.syncFile w.files) ?_
        (by simp [Stage.Published]) id (h.keep rfl ?_ ?_ (.inl (by rw [hview])))
      · rintro _ rfl
        rw [hview]
        exact h.pending turn contents (hstage ▸ rfl)
      · simp [hstage,Stage.Past]
      · simp [Stage.Unsettled]
  | replacing candidate contents =>
    have hin : (w.clients turn).stage.Inside := hstage ▸ trivial
    simp only [Client.Knows,hstage] at hknows
    cases hr : storage.replace tempPath committedPath w.files with
    | error e s' =>
      simp only [Client.advance_error hr]
      refine h.moveInside hin (by simp [Client.Knows])
        (fun _ => after_of_error hr ▸ mutex.replace w.files) (by simp [Stage.Pending])
        (by simp [Stage.Published]) id (h.keep rfl ?_ ?_ (.inl (law.replace_error hr)))
      · simp [hstage,Stage.Past]
      · simp [Stage.Unsettled]
    | ok _ s' =>
      simp only [Client.advance_ok hr]
      have hshown : view s' committedPath = some contents :=
        (law.replace_ok hr).trans (h.pending turn contents (hstage ▸ rfl))
      refine h.moveInside hin (by simpa [Client.Knows] using hknows.1)
        (fun _ => after_of_ok hr ▸ mutex.replace w.files) (by simp [Stage.Pending])
        (by simp [Stage.replaced]) (by simp [Stage.replaced]) ?_
      rintro i hi
      obtain rfl : turn = i := by simpa [Stage.replaced] using hi
      refine ⟨by simp [Stage.Past],candidate,contents,by simpa using hknows.1,hknows.2,.inl hshown⟩
  | syncingParent candidate =>
    have hin : (w.clients turn).stage.Inside := hstage ▸ trivial
    simp only [Client.Knows,hstage] at hknows
    have hpub := h.published turn (hstage ▸ trivial)
    cases hp : storage.syncParent committedPath w.files with
    | error e s' =>
      simp only [Client.advance_error hp]
      refine h.moveInside hin (by simp [Client.Knows])
        (fun _ => after_of_error hp ▸ mutex.syncParent w.files) (by simp [Stage.Pending])
        (by simp [Stage.Published]) id
        (h.keep rfl ?_ ?_ (.inl (by rw [view_of_error (law.syncParent w.files) hp])))
      · simp [Stage.Past]
      · simp [Stage.Unsettled]
    | ok _ s' =>
      simp only [Client.advance_ok hp]
      refine h.moveInside hin (by simpa [Client.Knows] using hknows)
        (fun _ => after_of_ok hp ▸ mutex.syncParent w.files) (by simp [Stage.Pending])
        (fun _ => hpub) id
        (h.keep rfl ?_ ?_ (.inl (by rw [view_of_ok (law.syncParent w.files) hp])))
      · simp [Stage.Past]
      · simp [hstage,Stage.Unsettled]
  | unlocking candidate outcome =>
    have hin : (w.clients turn).stage.Inside := hstage ▸ trivial
    have hview := law.unlock w.files
    simp only [Client.Knows,hstage] at hknows
    cases outcome with
    | error e =>
      have hmove : (w.clients turn).advance storage.unlock (.finished (.error (.storage e)))
          (fun _ => .finished (.error (.storage e))) w.files =
            ((w.clients turn).at (.finished (.error (.storage e))),after storage.unlock w.files) := by
        cases hu : storage.unlock w.files <;> simp only [Client.advance,after,hu]
      simp only [hmove]
      refine h.moveInside hin (by simp [Client.Knows]) (by simp [Stage.Inside]) (by simp [Stage.Pending])
        (by simp [Stage.Published]) id (h.keep rfl ?_ ?_ (.inl (by rw [hview])))
      · simp [Stage.Past]
      · simp [Stage.Unsettled]
    | ok _ =>
      have hpub := h.published turn (hstage ▸ rfl)
      cases hu : storage.unlock w.files with
      | error e s' =>
        dsimp only
        refine h.moveInside hin (by simp [Client.Knows]) (by simp [Stage.Inside])
          (by simp [Stage.Pending]) (by simp [Stage.Published]) id
          (h.keep rfl ?_ ?_ (.inl (by rw [view_of_error hview hu])))
        · simp [Stage.Past]
        · simp [Stage.Unsettled]
      | ok _ s' =>
        dsimp only
        refine h.moveInside hin (by simpa [Client.Knows] using hknows) (by simp [Stage.Inside])
          (by simp [Stage.Pending]) (fun _ => hpub) id
          (h.keep rfl ?_ ?_ (.inl (by rw [view_of_ok hview hu])))
        · simp [Stage.Past]
        · simp [hstage,Stage.Unsettled]
  | finished result =>
    dsimp only
    refine h.move hknows (fun hi => halone hi) (fun ho => ?_) hpending hpublished id
      (h.keep rfl id id (.inl rfl))
    exact ⟨by simp [hstage,Stage.Inside],(h.alone _ ho).1,rfl⟩

theorem World.Inv.run (law : storage.Lawful view committedPath tempPath)
    (mutex : storage.Exclusive held committedPath tempPath)
    (h : w.Inv view held committedPath tempPath d) (schedule : List Bool) :
    (w.run storage committedPath tempPath schedule).Inv view held committedPath tempPath d := by
  induction schedule generalizing w with
  | nil => exact h
  | cons turn schedule ih => exact ih (h.step law mutex turn)

theorem World.Inv.initial (hstart : ∀ i, (w.clients i).stage = .start ∧ (w.clients i).memory = d)
    (hpub : w.publisher = none) : w.Inv view held committedPath tempPath d where
  knows i := by simpa [Client.Knows,(hstart i).1] using (hstart i).2
  alone i := by simp [(hstart i).1,Stage.Inside]
  pending i contents := by simp [(hstart i).1,Stage.Pending]
  published i := by simp [(hstart i).1,Stage.Published]
  committed i hi := by
    rw [hpub] at hi
    cases hi

theorem Client.step_operation (c : Client) (s : σ) :
    (c.step storage committedPath tempPath s).1.operation = c.operation := by
  have hadvance : ∀ (call : StorageCall σ Unit) (next : Stage) (failed : StorageError → Stage),
      (c.advance call next failed s).1.operation = c.operation := by
    intro call next failed
    cases h : call s with
    | ok _ s' => rw [Client.advance_ok h,Client.at_operation]
    | error e s' => rw [Client.advance_error h,Client.at_operation]
  unfold Client.step
  cases c.stage with
  | start => cases h : c.prepare <;> rfl
  | unlocking candidate outcome =>
    cases outcome with
    | error e => exact hadvance _ _ _
    | ok _ => cases h : storage.unlock s <;> rfl
  | finished result => rfl
  | _ => exact hadvance _ _ _

theorem World.run_operation (schedule : List Bool) (i : Bool) :
    ((w.run storage committedPath tempPath schedule).clients i).operation = (w.clients i).operation := by
  induction schedule generalizing w with
  | nil => rfl
  | cons turn schedule ih =>
    refine (ih (w := w.step storage committedPath tempPath turn)).trans ?_
    rcases eq_or_ne i turn with rfl | hne
    · simp [World.step,Client.step_operation]
    · simp [World.step,hne]

end Interleaving

/-- Two clients that start from one database and both succeed: the committed file is what
the client that published last made of that database, on its own. -/
theorem last_publisher_wins (storage : AtomicStorage σ) (view : σ → Bytes → Option Bytes)
    (held : σ → Bool) (committedPath tempPath : Bytes)
    (law : storage.Lawful view committedPath tempPath)
    (mutex : storage.Exclusive held committedPath tempPath) (d : Database) (w : World σ)
    (hstart : ∀ i, (w.clients i).stage = .start ∧ (w.clients i).memory = d) (hpub : w.publisher = none)
    (schedule : List Bool)
    (hok : ∀ i, ((w.run storage committedPath tempPath schedule).clients i).stage = .finished (.ok ())) :
    ∃ last contents, (w.run storage committedPath tempPath schedule).publisher = some last ∧
      (∀ i, (w.clients i).operation d =
        .ok () ((w.run storage committedPath tempPath schedule).clients i).memory) ∧
      ((w.run storage committedPath tempPath schedule).clients last).memory.serializeForStorage =
        .ok contents ∧
      view (w.run storage committedPath tempPath schedule).files committedPath = some contents := by
  have hinv : (w.run storage committedPath tempPath schedule).Inv view held committedPath tempPath d :=
    (World.Inv.initial hstart hpub).run law mutex schedule
  have hops : ∀ i, ((w.run storage committedPath tempPath schedule).clients i).operation =
      (w.clients i).operation := World.run_operation schedule
  generalize w.run storage committedPath tempPath schedule = final at *
  have hmemory : ∀ i, (w.clients i).operation d = .ok () (final.clients i).memory := by
    intro i
    have hknows : (final.clients i).operation d = .ok () (final.clients i).memory := by
      simpa [Client.Knows,hok i] using hinv.knows i
    rw [← hops i,hknows]
  obtain ⟨last,hlast⟩ := Option.ne_none_iff_exists'.mp (hinv.published true (by simp [hok,Stage.Published]))
  obtain ⟨_,candidate,contents,hrun,hser,hshown⟩ := hinv.committed last hlast
  rw [hops,hmemory last] at hrun
  cases hrun
  refine ⟨last,contents,hlast,hmemory,hser,hshown.resolve_right ?_⟩
  simp [hok,Stage.Unsettled]

theorem diskStorage_exclusive (fails : StorageMethod → Bool) (torn : Nat) (committedPath tempPath : Bytes) :
    (diskStorage fails torn).Exclusive Disk.held committedPath tempPath where
  lock_ok {s s'} h := by
    simp only [diskStorage] at h
    split_ifs at h with hf hs
    cases h
    exact ⟨by simpa using hs,rfl⟩
  lock_error {s e s'} h := by
    simp only [diskStorage] at h
    split_ifs at h <;> cases h <;> rfl
  writeTemp contents s := by
    simp only [diskStorage,after]
    split_ifs <;> rfl
  syncFile s := by
    simp only [diskStorage,after]
    split_ifs <;> rfl
  replace s := by
    simp only [diskStorage,after]
    split_ifs <;> rfl
  syncParent s := by
    simp only [diskStorage,after]
    split_ifs <;> rfl

def addGroup (name : Text) : DatabaseCall AdminError Unit := do
  let _ ← Database.createGroup rootSession name none []
  pure ()

def staffName : Text := ⟨ascii "staff",by decide⟩

/-- Two administrators who each add a group to the empty database they both loaded. -/
def twoAdministrators : World Disk where
  clients i := ⟨rootSession,addGroup (if i then staffName else usersGroup.name),⟨[],[]⟩,.start⟩
  files := emptyDisk.put usersPath (some (formatHeader ++ [newline]))
  publisher := none

/-- One transaction after the other. -/
def oneAfterTheOther : List Bool := List.replicate 7 true ++ List.replicate 7 false

theorem last_publisher_wins_twoAdministrators :
    ∃ last contents,
      (twoAdministrators.run reliableDisk usersPath usersTempPath oneAfterTheOther).publisher = some last ∧
      (∀ i, (twoAdministrators.clients i).operation ⟨[],[]⟩ = .ok ()
        ((twoAdministrators.run reliableDisk usersPath usersTempPath oneAfterTheOther).clients i).memory) ∧
      ((twoAdministrators.run reliableDisk usersPath usersTempPath oneAfterTheOther).clients
        last).memory.serializeForStorage = .ok contents ∧
      (twoAdministrators.run reliableDisk usersPath usersTempPath oneAfterTheOther).files.files usersPath =
        some contents :=
  last_publisher_wins reliableDisk Disk.files Disk.held usersPath usersTempPath
    (diskStorage_lawful _ _ (by decide)) (diskStorage_exclusive _ _ _ _) ⟨[],[]⟩ twoAdministrators
    (fun _ => ⟨rfl,rfl⟩) rfl oneAfterTheOther (fun i => by cases i <;> rfl)

/-- The second client publishes a copy that never saw the first client's group. -/
theorem stale_copy_loses_update : ¬ ∀ (storage : AtomicStorage Disk) (view : Disk → Bytes → Option Bytes)
    (held : Disk → Bool) (committedPath tempPath : Bytes),
    storage.Lawful view committedPath tempPath → storage.Exclusive held committedPath tempPath →
    ∀ (bytes : Bytes) (d : Database) (w : World Disk) (schedule : List Bool),
      Database.parse bytes = .ok d → view w.files committedPath = some bytes →
      (∀ i, (w.clients i).stage = .start ∧ (w.clients i).memory = d) → w.publisher = none →
      (∀ i, ((w.run storage committedPath tempPath schedule).clients i).stage = .finished (.ok ())) →
      ∃ i first second, (w.clients i).operation d = .ok () first ∧
        (w.clients !i).operation first = .ok () second ∧
        second.serializeForStorage.toOption =
          view (w.run storage committedPath tempPath schedule).files committedPath := by
  intro h
  obtain ⟨i,first,second,hfirst,hsecond,hfinal⟩ := h reliableDisk Disk.files Disk.held usersPath
    usersTempPath (diskStorage_lawful _ _ (by decide)) (diskStorage_exclusive _ _ _ _)
    (formatHeader ++ [newline]) ⟨[],[]⟩ twoAdministrators oneAfterTheOther rfl rfl (fun _ => ⟨rfl,rfl⟩)
    rfl (fun i => by cases i <;> rfl)
  have hcommitted : (twoAdministrators.run reliableDisk usersPath usersTempPath
      oneAfterTheOther).files.files usersPath = some (Database.mk [] [usersGroup]).contents := rfl
  rw [hcommitted] at hfinal
  cases i with
  | false =>
    obtain rfl : Database.mk [] [usersGroup] = first := by cases hfirst; rfl
    cases hsecond
    exact absurd hfinal (by decide)
  | true =>
    obtain rfl : Database.mk [] [⟨staffName,1000,[]⟩] = first := by cases hfirst; rfl
    cases hsecond
    exact absurd hfinal (by decide)

end UserDb.Norx
