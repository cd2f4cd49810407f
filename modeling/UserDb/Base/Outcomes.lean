import Mathlib

/-! Programs that may refuse and that keep the state they reached when they do.
The inversion and frame rules name nothing of any particular program. -/
namespace UserDb.Base.Outcomes

variable {ε ε' σ α β : Type}

/-- Reject with `e` when the test holds. -/
def reject (test : Bool) (e : ε) : Except ε Unit := if test then .error e else .ok ()

/-- An optional value, rejected with `e` when it is missing. -/
def needed (value : Option α) (e : ε) : Except ε α := value.elim (.error e) .ok

/-- Stop with `e` when the test holds. -/
def refuse (test : Bool) (e : ε) : EStateM ε σ Unit := if test then throw e else pure ()

/-- A pure computation that may refuse, run inside a stateful one. -/
def lift : Except ε α → EStateM ε σ α
  | .ok a => pure a
  | .error e => throw e

/-- An optional value, refused with `e` when it is missing. -/
def orRefuse (value : Option α) (e : ε) : EStateM ε σ α := lift (needed value e)

/-- Run `x` to its end and hand its outcome on instead of stopping. -/
def attempt (x : EStateM ε σ α) : EStateM ε' σ (Except ε α) := fun s =>
  match x s with
  | .ok a s' => .ok (.ok a) s'
  | .error e s' => .ok (.error e) s'

/-- Run `x` for its effect, with its refusals renamed. -/
def relabel (f : ε → ε') (x : EStateM ε σ α) : EStateM ε' σ Unit := fun s =>
  match x s with
  | .ok _ s' => .ok () s'
  | .error e s' => .error (f e) s'

/-- The state a run leaves behind, whatever its outcome. -/
def after (x : EStateM ε σ α) (s : σ) : σ :=
  match x s with
  | .ok _ s' => s'
  | .error _ s' => s'

@[simp] theorem reject_eq_ok {test : Bool} {e : ε} {u : Unit} :
    reject test e = .ok u ↔ test = false := by
  cases test <;> simp [reject]

@[simp] theorem needed_eq_ok {value : Option α} {e : ε} {a : α} :
    needed value e = .ok a ↔ value = some a := by
  cases value <;> simp [needed]

theorem except_bind_eq_ok {x : Except ε α} {f : α → Except ε β} {b : β} :
    (x >>= f) = .ok b ↔ ∃ a, x = .ok a ∧ f a = .ok b := by
  cases x <;> simp [bind,Except.bind]

/-- A computation that refuses only with errors of one kind. -/
def RefusesWith (P : ε → Prop) (x : Except ε α) : Prop := ∀ e, x = .error e → P e

theorem refusesWith_ok {P : ε → Prop} (a : α) : RefusesWith P (.ok a : Except ε α) := by
  intro e h
  cases h

theorem refusesWith_error {P : ε → Prop} {e : ε} (h : P e) : RefusesWith P (.error e : Except ε α) := by
  intro e' he
  cases he
  exact h

theorem RefusesWith.bind {P : ε → Prop} {x : Except ε α} {f : α → Except ε β} (hx : RefusesWith P x)
    (hf : ∀ a, x = .ok a → RefusesWith P (f a)) : RefusesWith P (x >>= f) := by
  cases x with
  | error e => exact refusesWith_error (hx e rfl)
  | ok a => exact hf a rfl

theorem RefusesWith.map {P : ε → Prop} {x : Except ε α} (hx : RefusesWith P x) (f : α → β) : RefusesWith P (x.map f) := by
  cases x with
  | error e => exact refusesWith_error (hx e rfl)
  | ok a => exact refusesWith_ok (f a)

/-- What every successful step of a fold keeps, the fold keeps. -/
theorem foldlM_preserves {f : β → α → Except ε β} {P : β → Prop} {l : List α} {b b' : β}
    (step : ∀ b a b', P b → f b a = .ok b' → P b') (h : l.foldlM f b = .ok b') (hb : P b) : P b' := by
  induction l generalizing b with
  | nil => cases h; exact hb
  | cons a l ih =>
    rw [List.foldlM_cons,except_bind_eq_ok] at h
    obtain ⟨next,hn,h⟩ := h
    exact ih h (step b a next hb hn)

/-- A fold over two stretches is the two folds in sequence. -/
theorem foldlM_append_eq_ok {f : β → α → Except ε β} {l l' : List α} {b b' : β} :
    (l ++ l').foldlM f b = .ok b' ↔ ∃ c, l.foldlM f b = .ok c ∧ l'.foldlM f c = .ok b' := by
  rw [List.foldlM_append,except_bind_eq_ok]

/-- Renaming refusals leaves the answers alone. -/
@[simp] theorem mapError_eq_ok {rename : ε → ε'} {outcome : Except ε α} {answer : α} :
    outcome.mapError rename = .ok answer ↔ outcome = .ok answer := by
  match outcome with
  | .ok _ => simp only [Except.mapError,Except.ok.injEq]
  | .error _ => simp only [Except.mapError,reduceCtorEq]

theorem after_of_ok {x : EStateM ε σ α} {s s' : σ} {a : α} (h : x s = .ok a s') :
    after x s = s' := by simp [after,h]

theorem after_of_error {x : EStateM ε σ α} {s s' : σ} {e : ε} (h : x s = .error e s') :
    after x s = s' := by simp [after,h]

@[simp] theorem pure_eq_ok {a b : α} {s s' : σ} :
    (pure a : EStateM ε σ α) s = .ok b s' ↔ a = b ∧ s = s' := by
  simp [pure,EStateM.pure]

@[simp] theorem pure_ne_error {a : α} {s s' : σ} {e : ε} :
    ¬ (pure a : EStateM ε σ α) s = .error e s' := by
  simp [pure,EStateM.pure]

@[simp] theorem throw_ne_ok {a : α} {s s' : σ} {e : ε} :
    ¬ (throw e : EStateM ε σ α) s = .ok a s' := by
  simp [throw,throwThe,MonadExceptOf.throw,EStateM.throw]

@[simp] theorem throw_eq_error {s s' : σ} {e e' : ε} :
    (throw e : EStateM ε σ α) s = .error e' s' ↔ e = e' ∧ s = s' := by
  simp [throw,throwThe,MonadExceptOf.throw,EStateM.throw]

@[simp] theorem get_eq_ok {s t s' : σ} :
    (get : EStateM ε σ σ) s = .ok t s' ↔ s = t ∧ s = s' := by
  simp [get,getThe,MonadStateOf.get,EStateM.get]

@[simp] theorem set_eq_ok {s t s' : σ} {u : PUnit} :
    (set t : EStateM ε σ PUnit) s = .ok u s' ↔ t = s' := by
  simp [set,MonadStateOf.set,EStateM.set]

@[simp] theorem set_ne_error {s t s' : σ} {e : ε} :
    ¬ (set t : EStateM ε σ PUnit) s = .error e s' := by
  simp [set,MonadStateOf.set,EStateM.set]

theorem bind_eq_ok {x : EStateM ε σ α} {f : α → EStateM ε σ β} {s t : σ} {b : β} :
    (x >>= f) s = .ok b t ↔ ∃ a s', x s = .ok a s' ∧ f a s' = .ok b t := by
  change EStateM.bind x f s = _ ↔ _
  cases h : x s <;> simp [EStateM.bind,h]

theorem bind_eq_error {x : EStateM ε σ α} {f : α → EStateM ε σ β} {s t : σ} {e : ε} :
    (x >>= f) s = .error e t ↔
      x s = .error e t ∨ ∃ a s', x s = .ok a s' ∧ f a s' = .error e t := by
  change EStateM.bind x f s = _ ↔ _
  cases h : x s <;> simp [EStateM.bind,h]

@[simp] theorem refuse_eq_ok {test : Bool} {e : ε} {s s' : σ} {u : Unit} :
    refuse test e s = .ok u s' ↔ test = false ∧ s = s' := by
  cases test <;> simp [refuse]

@[simp] theorem lift_eq_ok {x : Except ε α} {a : α} {s s' : σ} :
    (lift x : EStateM ε σ α) s = .ok a s' ↔ x = .ok a ∧ s = s' := by
  cases x <;> simp [lift]

@[simp] theorem orRefuse_eq_ok {x : Option α} {e : ε} {a : α} {s s' : σ} :
    (orRefuse x e : EStateM ε σ α) s = .ok a s' ↔ x = some a ∧ s = s' := by
  simp [orRefuse]

/-! Inversion of a sequence by its first command, each giving back plain facts. -/

theorem lift_bind_eq_ok {x : Except ε α} {f : α → EStateM ε σ β} {s t : σ} {b : β} :
    (lift x >>= f) s = .ok b t ↔ ∃ a, x = .ok a ∧ f a s = .ok b t := by
  simp [bind_eq_ok]

theorem get_bind_eq_ok {f : σ → EStateM ε σ β} {s t : σ} {b : β} :
    (get >>= f) s = .ok b t ↔ f s s = .ok b t := by
  simp [bind_eq_ok]

theorem refuse_bind_eq_ok {test : Bool} {e : ε} {f : Unit → EStateM ε σ β} {s t : σ} {b : β} :
    (refuse test e >>= f) s = .ok b t ↔ test = false ∧ f () s = .ok b t := by
  simp only [bind_eq_ok,refuse_eq_ok]
  exact ⟨fun ⟨(),_,⟨h,he⟩,hf⟩ => ⟨h,he ▸ hf⟩,fun ⟨h,hf⟩ => ⟨(),s,⟨h,rfl⟩,hf⟩⟩

theorem orRefuse_bind_eq_ok {x : Option α} {e : ε} {f : α → EStateM ε σ β} {s t : σ} {b : β} :
    (orRefuse x e >>= f) s = .ok b t ↔ ∃ a, x = some a ∧ f a s = .ok b t := by
  simp [bind_eq_ok]

theorem set_bind_eq_ok {t' : σ} {f : PUnit → EStateM ε σ β} {s t : σ} {b : β} :
    (set t' >>= f) s = .ok b t ↔ f ⟨⟩ t' = .ok b t := by
  simp only [bind_eq_ok,set_eq_ok]
  exact ⟨fun ⟨⟨⟩,_,he,hf⟩ => he ▸ hf,fun hf => ⟨⟨⟩,t',rfl,hf⟩⟩

/-! How a sequence refuses: at its first command, or later. -/

theorem lift_bind_eq_error {x : Except ε α} {f : α → EStateM ε σ β} {s t : σ} {e : ε} :
    (lift x >>= f) s = .error e t ↔
      x = .error e ∧ s = t ∨ ∃ a, x = .ok a ∧ f a s = .error e t := by
  cases x <;> simp [bind_eq_error,lift]

theorem refuse_bind_eq_error {test : Bool} {e e' : ε} {f : Unit → EStateM ε σ β} {s t : σ} :
    (refuse test e >>= f) s = .error e' t ↔
      test = true ∧ e = e' ∧ s = t ∨ test = false ∧ f () s = .error e' t := by
  cases test <;> simp [bind_eq_error,refuse]

theorem orRefuse_bind_eq_error {x : Option α} {e e' : ε} {f : α → EStateM ε σ β} {s t : σ} :
    (orRefuse x e >>= f) s = .error e' t ↔
      x = none ∧ e = e' ∧ s = t ∨ ∃ a, x = some a ∧ f a s = .error e' t := by
  cases x <;> simp [orRefuse,lift_bind_eq_error,needed]

theorem attempt_eq_ok {x : EStateM ε σ α} {r : Except ε α} {s s' : σ} :
    (attempt x : EStateM ε' σ (Except ε α)) s = .ok r s' ↔
      (∃ a, r = .ok a ∧ x s = .ok a s') ∨ ∃ e, r = .error e ∧ x s = .error e s' := by
  cases h : x s <;> simp [attempt,h,eq_comm]

theorem relabel_eq_ok {f : ε → ε'} {x : EStateM ε σ α} {s s' : σ} {u : Unit} :
    relabel f x s = .ok u s' ↔ ∃ a, x s = .ok a s' := by
  cases h : x s <;> simp [relabel,h]

/-- A program that never writes, whether it answers or refuses. -/
def ReadOnly (x : EStateM ε σ α) : Prop := ∀ s, after x s = s

/-- A program whose refusals leave the state as it was. -/
def Conservative (x : EStateM ε σ α) : Prop := ∀ s e s', x s = .error e s' → s' = s

theorem ReadOnly.of_ok {x : EStateM ε σ α} (h : ReadOnly x) {s s' : σ} {a : α}
    (hx : x s = .ok a s') : s' = s := (after_of_ok hx).symm.trans (h s)

theorem ReadOnly.conservative {x : EStateM ε σ α} (h : ReadOnly x) : Conservative x :=
  fun s _ _ hx => (after_of_error hx).symm.trans (h s)

theorem readOnly_get : ReadOnly (get : EStateM ε σ σ) := fun _ => rfl

theorem readOnly_refuse (test : Bool) (e : ε) : ReadOnly (refuse test e : EStateM ε σ Unit) := by
  cases test <;> exact fun _ => rfl

theorem readOnly_lift (x : Except ε α) : ReadOnly (lift x : EStateM ε σ α) := by
  cases x <;> exact fun _ => rfl

theorem readOnly_orRefuse (x : Option α) (e : ε) : ReadOnly (orRefuse x e : EStateM ε σ α) :=
  readOnly_lift _

theorem conservative_set (t : σ) : Conservative (set t : EStateM ε σ PUnit) :=
  fun _ _ _ h => absurd h set_ne_error

theorem Conservative.relabel {x : EStateM ε σ α} (h : Conservative x) (f : ε → ε') :
    Conservative (relabel f x) := by
  intro s e s' he
  cases hx : x s with
  | ok a t => simp [Outcomes.relabel,hx] at he
  | error e' t =>
    simp only [Outcomes.relabel,hx,EStateM.Result.error.injEq] at he
    exact he.2 ▸ h s e' t hx

/-- What holds before a conservative program and after each of its successes holds
after every run of it. -/
theorem Conservative.preserves {x : EStateM ε σ α} (h : Conservative x) {P : σ → Prop} {s : σ}
    (hs : P s) (hok : ∀ a s', x s = .ok a s' → P s') : P (after x s) := by
  cases hx : x s with
  | ok a s' => exact (after_of_ok hx).symm ▸ hok a s' hx
  | error e s' => exact (after_of_error hx).symm ▸ (h s e s' hx).symm ▸ hs

/-- Reading first and refusing later still leaves the state alone. -/
theorem Conservative.bind {x : EStateM ε σ α} {f : α → EStateM ε σ β} (hx : ReadOnly x)
    (hf : ∀ a, Conservative (f a)) : Conservative (x >>= f) := by
  intro s e t h
  rcases bind_eq_error.mp h with h | ⟨a,s',ha,h⟩
  · exact hx.conservative s e t h
  · rw [hf a s' e t h,hx.of_ok ha]

/-- A write that is followed only by an answer never refuses. -/
theorem conservative_set_pure (t : σ) (a : α) :
    Conservative (do set t; pure a : EStateM ε σ α) := by
  intro s e s' h
  rcases bind_eq_error.mp h with h | ⟨_,_,_,h⟩
  · exact absurd h set_ne_error
  · exact absurd h pure_ne_error

end UserDb.Base.Outcomes
