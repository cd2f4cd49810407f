import UserDb.Norx.Model

/-! The lockout of an account after failed attempts, and the rate it leaves to
somebody who keeps guessing. -/
namespace UserDb.Norx
open UserDb.Base

structure Lockout where
  failures : UInt8
  lockedUntil : UInt64
  deriving DecidableEq, Repr

def Lockout.new : Lockout := ⟨0,0⟩

def Lockout.isLocked (self : Lockout) (now : UInt64) : Bool := self.lockedUntil > now

/-- Addition that stays at the largest value instead of wrapping around. -/
def saturatingAdd8 (a b : UInt8) : UInt8 := if a.toNat + b.toNat < UInt8.size then a + b else 255

def saturatingAdd64 (a b : UInt64) : UInt64 :=
  if a.toNat + b.toNat < UInt64.size then a + b else 18446744073709551615

def Lockout.registerFailure (self : Lockout) (now : UInt64) (maxFailures : UInt8) (duration : UInt64) :
    Lockout :=
  if self.isLocked now then self
  else
    let failures := saturatingAdd8 self.failures 1
    if failures ≥ maxFailures then ⟨failures,saturatingAdd64 now duration⟩
    else ⟨failures,self.lockedUntil⟩

/-- The times of those calls of a run that found the account unlocked. -/
def Lockout.unlockedCalls (maxFailures : UInt8) (duration : UInt64) : Lockout → List UInt64 → List UInt64
  | _, [] => []
  | self, now :: times =>
    let rest := unlockedCalls maxFailures duration (self.registerFailure now maxFailures duration) times
    if self.isLocked now then rest else now :: rest

/-! Saturating sums as sums of naturals. -/

theorem saturatingAdd8_toNat (a b : UInt8) : (saturatingAdd8 a b).toNat = min 255 (a.toNat + b.toNat) := by
  unfold saturatingAdd8
  split
  · rename_i h
    rw [UInt8.toNat_add,Nat.mod_eq_of_lt h]
    simp only [UInt8.size] at h
    omega
  · rename_i h
    simp only [UInt8.size] at h
    have hmax : (255 : UInt8).toNat = 255 := rfl
    omega

private theorem saturatingAdd64_toNat {a b : UInt64} (h : a.toNat + b.toNat < UInt64.size) :
    (saturatingAdd64 a b).toNat = a.toNat + b.toNat := by
  rw [saturatingAdd64,if_pos h,UInt64.toNat_add,Nat.mod_eq_of_lt h]

section Run
variable {maxFailures : UInt8} {duration : UInt64}

/-- A lockout keeps its distance from the calls so far: below the limit it counts every
unlocked call, and from then on it is locked for the duration of the last one. -/
structure Lockout.Tracks (lockout : Lockout) (maxFailures : UInt8) (duration : UInt64)
    (calls : List UInt64) : Prop where
  counted : calls.length < maxFailures.toNat → lockout.failures.toNat = calls.length
  reached : maxFailures.toNat ≤ calls.length → maxFailures.toNat ≤ lockout.failures.toNat
  locked : maxFailures.toNat ≤ calls.length → ∀ call ∈ calls.drop (maxFailures.toNat - 1),
    call.toNat + duration.toNat ≤ lockout.lockedUntil.toNat
  spaced : (calls.drop (maxFailures.toNat - 1)).Pairwise fun a b => a.toNat + duration.toNat ≤ b.toNat

theorem Lockout.new_tracks (hm : maxFailures ≠ 0) : Lockout.new.Tracks maxFailures duration [] where
  counted _ := rfl
  reached h := by
    have : maxFailures.toNat ≠ 0 := fun h => hm (UInt8.toNat_inj.mp h)
    simp at h
    omega
  locked _ call hcall := by simp at hcall
  spaced := by simp

/-- A failure counted at the limit or beyond it locks the account from then on. -/
theorem Lockout.registerFailure_of_reached {self : Lockout} {now : UInt64}
    (hfit : now.toNat + duration.toNat < UInt64.size) (hopen : self.isLocked now = false)
    (hf : maxFailures.toNat ≤ self.failures.toNat + 1) :
    maxFailures.toNat ≤ (self.registerFailure now maxFailures duration).failures.toNat ∧
      (self.registerFailure now maxFailures duration).lockedUntil.toNat = now.toNat + duration.toNat := by
  have hsum := saturatingAdd8_toNat self.failures 1
  have hlt := maxFailures.toNat_lt
  have hone : (1 : UInt8).toNat = 1 := rfl
  have hge : maxFailures.toNat ≤ (saturatingAdd8 self.failures 1).toNat := by omega
  have heq : self.registerFailure now maxFailures duration =
      ⟨saturatingAdd8 self.failures 1,saturatingAdd64 now duration⟩ := by
    simp only [registerFailure,hopen,Bool.false_eq_true,if_false,ge_iff_le,UInt8.le_iff_toNat_le]
    rw [if_pos hge]
  rw [heq]
  exact ⟨hge,saturatingAdd64_toNat hfit⟩

theorem Lockout.registerFailure_of_below {self : Lockout} {now : UInt64}
    (hopen : self.isLocked now = false) (hf : self.failures.toNat + 1 < maxFailures.toNat) :
    (self.registerFailure now maxFailures duration).failures.toNat = self.failures.toNat + 1 := by
  have hsum := saturatingAdd8_toNat self.failures 1
  have hlt := maxFailures.toNat_lt
  have hone : (1 : UInt8).toNat = 1 := rfl
  simp only [registerFailure,hopen,Bool.false_eq_true,if_false,ge_iff_le,UInt8.le_iff_toNat_le]
  split <;> simp only <;> omega

theorem Lockout.Tracks.registerFailure {self : Lockout} {now : UInt64} {calls : List UInt64}
    (h : self.Tracks maxFailures duration calls) (hm : maxFailures ≠ 0)
    (hfit : now.toNat + duration.toNat < UInt64.size) (hopen : self.isLocked now = false) :
    (self.registerFailure now maxFailures duration).Tracks maxFailures duration (calls ++ [now]) := by
  have hpos : 0 < maxFailures.toNat := Nat.pos_of_ne_zero fun h => hm (UInt8.toNat_inj.mp h)
  have hlen : (calls ++ [now]).length = calls.length + 1 := by simp
  rcases Nat.lt_or_ge (calls.length + 1) maxFailures.toNat with hbelow | hreach
  · -- the limit is not reached yet, so nothing is locked or spaced
    have hcount := h.counted (by omega)
    have hnone : (calls ++ [now]).drop (maxFailures.toNat - 1) = [] :=
      List.drop_eq_nil_of_le (by omega)
    refine ⟨fun _ => ?_,fun h => by omega,fun h => by omega,by rw [hnone]; exact List.Pairwise.nil⟩
    rw [registerFailure_of_below hopen (by omega),hcount,hlen]
  · have hf : maxFailures.toNat ≤ self.failures.toNat + 1 := by
      rcases Nat.lt_or_ge calls.length maxFailures.toNat with hlast | hpast
      · have := h.counted hlast
        omega
      · have := h.reached hpast
        omega
    obtain ⟨hfailures,hlocked⟩ := registerFailure_of_reached hfit hopen hf
    have hdrop : (calls ++ [now]).drop (maxFailures.toNat - 1) =
        calls.drop (maxFailures.toNat - 1) ++ [now] :=
      List.drop_append_of_le_length (by omega)
    -- the calls past the limit have all been waited for
    have hwaited : ∀ call ∈ calls.drop (maxFailures.toNat - 1),
        call.toNat + duration.toNat ≤ now.toNat := by
      intro call hcall
      have hpast : maxFailures.toNat ≤ calls.length := by
        have := List.length_pos_of_mem hcall
        rw [List.length_drop] at this
        omega
      have hunlocked : self.lockedUntil.toNat ≤ now.toNat := by
        simpa [isLocked,UInt64.le_iff_toNat_le] using hopen
      exact le_trans (h.locked hpast call hcall) hunlocked
    refine ⟨fun hlt => by omega,fun _ => hfailures,fun _ call hcall => ?_,?_⟩
    · rw [hdrop] at hcall
      rw [hlocked]
      rcases List.mem_append.mp hcall with hcall | hcall
      · have := hwaited call hcall
        omega
      · rw [List.mem_singleton.mp hcall]
    · rw [hdrop,List.pairwise_append]
      refine ⟨h.spaced,List.pairwise_singleton _ _,fun call hcall last hlast => ?_⟩
      rw [List.mem_singleton.mp hlast]
      exact hwaited call hcall

theorem Lockout.registerFailure_locked {self : Lockout} {now : UInt64}
    (h : self.isLocked now = true) : self.registerFailure now maxFailures duration = self := by
  simp [registerFailure,h]

theorem Lockout.Tracks.run {self : Lockout} {calls times : List UInt64}
    (h : self.Tracks maxFailures duration calls) (hm : maxFailures ≠ 0)
    (hfit : ∀ now ∈ times, now.toNat + duration.toNat < UInt64.size) :
    ∃ last : Lockout, last.Tracks maxFailures duration
      (calls ++ self.unlockedCalls maxFailures duration times) := by
  induction times generalizing self calls with
  | nil => exact ⟨self,by simpa [unlockedCalls] using h⟩
  | cons now times ih =>
    have hrest : ∀ now ∈ times, now.toNat + duration.toNat < UInt64.size :=
      fun now hnow => hfit now (List.mem_cons_of_mem _ hnow)
    cases hl : self.isLocked now with
    | true =>
      have heq : self.unlockedCalls maxFailures duration (now :: times) =
          self.unlockedCalls maxFailures duration times := by
        simp [unlockedCalls,hl,registerFailure_locked hl]
      exact heq ▸ ih h hrest
    | false =>
      have heq : self.unlockedCalls maxFailures duration (now :: times) =
          now :: (self.registerFailure now maxFailures duration).unlockedCalls maxFailures duration times := by
        simp [unlockedCalls,hl]
      obtain ⟨last,hlast⟩ := ih (h.registerFailure hm (hfit now List.mem_cons_self) hl) hrest
      exact ⟨last,by rwa [heq,List.append_cons]⟩

/-- Calls that keep their distance visit a window of that length at most once. -/
theorem length_window_le_one {calls : List UInt64} (t : Nat)
    (h : calls.Pairwise fun a b => a.toNat + duration.toNat ≤ b.toNat) :
    (calls.filter fun now => t ≤ now.toNat ∧ now.toNat < t + duration.toNat).length ≤ 1 := by
  have hpair := h.filter fun now => decide (t ≤ now.toNat ∧ now.toNat < t + duration.toNat)
  have hmem : ∀ now ∈ calls.filter fun now => t ≤ now.toNat ∧ now.toNat < t + duration.toNat,
      t ≤ now.toNat ∧ now.toNat < t + duration.toNat := fun now hnow => by
    simpa using (List.mem_filter.mp hnow).2
  generalize (calls.filter fun now => t ≤ now.toNat ∧ now.toNat < t + duration.toNat) = window at *
  match window with
  | [] => simp
  | [_] => simp
  | a :: b :: rest =>
    have hab := (List.pairwise_cons.mp hpair).1 b List.mem_cons_self
    have ha := hmem a List.mem_cons_self
    have hb := hmem b (List.mem_cons_of_mem _ List.mem_cons_self)
    omega

/-- The rate a lockout leaves: no window of the duration's length holds more unlocked calls than
the limit, and from the one that reaches the limit on they are a duration apart. -/
theorem lockout_limits_rate (maxFailures : UInt8) (duration : UInt64) (times : List UInt64)
    (hm : maxFailures ≠ 0) (hfit : ∀ now ∈ times, now.toNat + duration.toNat < UInt64.size) :
    (∀ t : Nat, ((Lockout.new.unlockedCalls maxFailures duration times).filter fun now =>
        t ≤ now.toNat ∧ now.toNat < t + duration.toNat).length ≤ maxFailures.toNat) ∧
      ((Lockout.new.unlockedCalls maxFailures duration times).drop (maxFailures.toNat - 1)).Pairwise
        fun a b => a.toNat + duration.toNat ≤ b.toNat := by
  obtain ⟨_,htracks⟩ := (Lockout.new_tracks hm).run hm hfit
  rw [List.nil_append] at htracks
  have hpos : 0 < maxFailures.toNat := Nat.pos_of_ne_zero fun h => hm (UInt8.toNat_inj.mp h)
  refine ⟨fun t => ?_,htracks.spaced⟩
  have hsplit := List.take_append_drop (maxFailures.toNat - 1)
    (Lockout.new.unlockedCalls maxFailures duration times)
  have hfirst := List.length_filter_le
    (fun now : UInt64 => decide (t ≤ now.toNat ∧ now.toNat < t + duration.toNat))
    ((Lockout.new.unlockedCalls maxFailures duration times).take (maxFailures.toNat - 1))
  have hspaced := length_window_le_one t htracks.spaced
  rw [List.length_take] at hfirst
  rw [← hsplit,List.filter_append,List.length_append]
  omega

end Run

theorem lockout_limits_rate_three :
    (∀ t : Nat, ((Lockout.new.unlockedCalls 3 60 [0,10,20,30,79,80,81,140]).filter fun now =>
        t ≤ now.toNat ∧ now.toNat < t + 60).length ≤ 3) ∧
      ((Lockout.new.unlockedCalls 3 60 [0,10,20,30,79,80,81,140]).drop 2).Pairwise
        fun a b => a.toNat + 60 ≤ b.toNat :=
  lockout_limits_rate 3 60 [0,10,20,30,79,80,81,140] (by decide) (by simp [UInt64.size])

example : Lockout.new.unlockedCalls 3 60 [0,10,20,30,79,80,81,140] = [0,10,20,80,140] := by decide

end UserDb.Norx
