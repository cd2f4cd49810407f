import UserDb.Login.Faillog

/-! Counting the failures of a user, and refusing the login where there were too many of them. -/
namespace UserDb.Login
open UserDb.Base

/-- A string in a buffer of fixed size: it is cut, and the bytes behind its end stay. -/
def strtcpy (dst : Vector UInt8 12) (src : Bytes) : Vector UInt8 12 :=
  .ofFn fun i => if i.val < min src.length 11 then src.getD i 0 else if i.val = min src.length 11 then 0 else dst[i]

/-- The count of one more failure. -/
def Faillog.count (fl : Faillog) : Int16 := if 0 < fl.failCnt.toInt + 1 then fl.failCnt + 1 else fl.failCnt

/-- A failure is entered in the record of the user. -/
def failure (file : FaillogFile) (uid : UInt32) (tty : Bytes) (now : Int64) : Faillog × FaillogFile :=
  -- a record that cannot be read is an empty one
  let fl := (file.read uid).getD .zero
  let fl := { fl with failCnt := fl.count, failLine := strtcpy fl.failLine tty, failTime := now }
  (fl,file.write uid fl)

def tooManyFailures (fl : Faillog) (now : Int64) : Bool :=
  if fl.failMax = 0 || fl.failCnt < fl.failMax then false
  else if fl.failLocktime = 0 then true
  else !(fl.failTime + fl.failLocktime < now)

/-- Whether the user may log in, and the file with the count reset where the login succeeds. -/
def failcheck (file : FaillogFile) (uid : UInt32) (failed : Bool) (now : Int64) : Bool × FaillogFile :=
  match file.read uid with
  | none => (true,file)
  | some fl =>
    if tooManyFailures fl now then (false,file)
    else if !failed then (true,file.write uid { fl with failCnt := 0 })
    else (true,file)

/-- A call for one user, at some time. -/
inductive Call where
  | failure (tty : Bytes) (now : Int64)
  | failcheck (failed : Bool) (now : Int64)

/-- The result of a call, where it has one, and the file after it. -/
def Call.run (uid : UInt32) (file : FaillogFile) : Call → Option Bool × FaillogFile
  | .failure tty now => (none,(UserDb.Login.failure file uid tty now).2)
  | .failcheck failed now => ((UserDb.Login.failcheck file uid failed now).1,(UserDb.Login.failcheck file uid failed now).2)

/-- The file after a sequence of calls. -/
def runCalls (uid : UInt32) (file : FaillogFile) (calls : List Call) : FaillogFile :=
  calls.foldl (fun file call => (call.run uid file).2) file

/-- A record that locks the account until it is reset: there is a limit, and no time that ends it. -/
structure Faillog.LocksForGood (fl : Faillog) : Prop where
  max_pos : 0 < fl.failMax
  locktime : fl.failLocktime = 0

/-- The count goes down in a successful login that is let in only, and a refusal is final. -/
structure NeverUnlocks (uid : UInt32) (file : FaillogFile) (calls : List Call) : Prop where
  counts : ∀ done call rest, calls = done ++ call :: rest →
    ((runCalls uid file done).record uid).failCnt ≤ ((runCalls uid file (done ++ [call])).record uid).failCnt ∨
      ∃ now, call = .failcheck false now ∧ (call.run uid (runCalls uid file done)).1 = some true
  final : ∀ done call between call' rest, calls = done ++ call :: between ++ call' :: rest →
    (call.run uid (runCalls uid file done)).1 = some false →
      (call'.run uid (runCalls uid file (done ++ call :: between))).1 ≠ some true

/-- No failure is counted that the field of the count does not hold. -/
def NoneOverflows (uid : UInt32) (file : FaillogFile) (calls : List Call) : Prop :=
  ∀ done tty now rest, calls = done ++ .failure tty now :: rest → ((runCalls uid file done).record uid).failCnt ≠ 32767

variable {uid : UInt32} {file : FaillogFile} {fl : Faillog} {call : Call} {calls done : List Call} {now : Int64}

theorem Faillog.le_count (h : fl.failCnt ≠ 32767) : fl.failCnt ≤ fl.count := by
  rw [Int16.le_iff_toInt_le]
  unfold count
  split
  · have hle := fl.failCnt.toInt_lt
    have hge := fl.failCnt.le_toInt
    have hne : fl.failCnt.toInt ≠ 32767 := fun heq => h (Int16.toInt_inj.mp heq)
    rw [Int16.toInt_add]
    have hone : (1 : Int16).toInt = 1 := rfl
    rw [hone,Int.bmod_eq_of_le (by omega) (by omega)]
    omega
  · exact le_rfl

/-- The greatest count becomes the least one. -/
theorem Faillog.count_overflow (h : fl.failCnt = 32767) : fl.count = -32768 := by
  unfold count
  rw [h]
  decide

private theorem tooManyFailures_iff (h : fl.LocksForGood) : tooManyFailures fl now = true ↔ fl.failMax ≤ fl.failCnt := by
  have hmax : fl.failMax ≠ 0 := by
    intro hzero
    have hpos := h.max_pos
    rw [hzero] at hpos
    exact absurd hpos (by decide)
  unfold tooManyFailures
  rw [h.locktime]
  simp [hmax,Int16.not_lt]

/-- What a call does to the record of the user, and what it answers. -/
theorem Call.run_spec (call : Call) (hfl : file.read uid = some fl) (hlocks : fl.LocksForGood) :
    ∃ fl', (call.run uid file).2.read uid = some fl' ∧ fl'.failMax = fl.failMax ∧ fl'.failLocktime = fl.failLocktime ∧
      ((∃ tty now, call = .failure tty now ∧ (call.run uid file).1 = none ∧ fl'.failCnt = fl.count) ∨
        (∃ failed now, call = .failcheck failed now ∧ (call.run uid file).1 = some false ∧ fl.failMax ≤ fl.failCnt ∧ fl' = fl) ∨
        ∃ failed now, call = .failcheck failed now ∧ (call.run uid file).1 = some true ∧ fl.failCnt < fl.failMax ∧
          fl'.failCnt = if failed then fl.failCnt else 0) := by
  cases call with
  | failure tty now =>
    have hread : file.record uid = fl := by rw [FaillogFile.record,hfl]; rfl
    refine ⟨_,FaillogFile.read_write_self,?_,?_,.inl ⟨tty,now,rfl,rfl,?_⟩⟩
    all_goals rw [hfl]; rfl
  | failcheck failed now =>
    by_cases htoo : tooManyFailures fl now = true
    · have hle := (tooManyFailures_iff hlocks).mp htoo
      have hrun : (Call.failcheck failed now).run uid file = (some false,file) := by
        simp [run,UserDb.Login.failcheck,hfl,htoo]
      rw [hrun]
      exact ⟨fl,hfl,rfl,rfl,.inr (.inl ⟨failed,now,rfl,rfl,hle,rfl⟩)⟩
    · have hlt := Int16.not_le.mp fun hle => htoo ((tooManyFailures_iff hlocks).mpr hle)
      cases failed with
      | false =>
        have hrun : (Call.failcheck false now).run uid file = (some true,file.write uid { fl with failCnt := 0 }) := by
          simp [run,UserDb.Login.failcheck,hfl,htoo]
        rw [hrun]
        exact ⟨_,FaillogFile.read_write_self,rfl,rfl,.inr (.inr ⟨false,now,rfl,rfl,hlt,rfl⟩)⟩
      | true =>
        have hrun : (Call.failcheck true now).run uid file = (some true,file) := by
          simp [run,UserDb.Login.failcheck,hfl,htoo]
        rw [hrun]
        exact ⟨fl,hfl,rfl,rfl,.inr (.inr ⟨true,now,rfl,rfl,hlt,rfl⟩)⟩

theorem runCalls_concat : runCalls uid file (done ++ [call]) = (call.run uid (runCalls uid file done)).2 := by
  rw [runCalls,List.foldl_append]
  rfl

theorem record_of_read (h : file.read uid = some fl) : file.record uid = fl := by
  rw [FaillogFile.record,h]
  rfl

/-- No call takes the lock from the record. -/
theorem runCalls_read (hfl : file.read uid = some fl) (hlocks : fl.LocksForGood) (calls : List Call) :
    ∃ fl', (runCalls uid file calls).read uid = some fl' ∧ fl'.LocksForGood := by
  induction calls generalizing file fl with
  | nil => exact ⟨fl,hfl,hlocks⟩
  | cons call calls ih =>
    obtain ⟨fl',hfl',hmax,hlocktime,_⟩ := Call.run_spec call hfl hlocks
    exact ih hfl' ⟨hmax ▸ hlocks.max_pos,hlocktime.trans hlocks.locktime⟩

/-- The limit is reached, and nothing but a reset from outside is to change that. -/
def Locked (uid : UInt32) (file : FaillogFile) : Prop :=
  ∃ fl, file.read uid = some fl ∧ fl.LocksForGood ∧ fl.failMax ≤ fl.failCnt

/-- A call leaves a locked record locked, and lets nobody in, unless it counts over the limit of the type. -/
theorem Locked.afterCall (h : Locked uid file) (hfits : ∀ tty now, call = .failure tty now → (file.record uid).failCnt ≠ 32767) :
    Locked uid (call.run uid file).2 ∧ (call.run uid file).1 ≠ some true := by
  obtain ⟨fl,hfl,hlocks,hreached⟩ := h
  obtain ⟨fl',hfl',hmax,hlocktime,hcases⟩ := Call.run_spec call hfl hlocks
  have hlocks' : fl'.LocksForGood := ⟨hmax ▸ hlocks.max_pos,hlocktime.trans hlocks.locktime⟩
  rcases hcases with ⟨tty,now,hcall,hanswer,hcount⟩ | ⟨_,_,_,hanswer,_,rfl⟩ | ⟨_,_,_,_,hbelow,_⟩
  · have hfits := record_of_read hfl ▸ hfits tty now hcall
    refine ⟨⟨fl',hfl',hlocks',?_⟩,by rw [hanswer]; exact nofun⟩
    rw [hmax,hcount]
    exact Int16.le_trans hreached (Faillog.le_count hfits)
  · exact ⟨⟨fl',hfl',hlocks',hreached⟩,by rw [hanswer]; simp⟩
  · exact absurd hreached (Int16.not_le.mpr hbelow)

/-- So do the calls of a run. -/
theorem Locked.afterCalls (h : Locked uid file) (hfits : NoneOverflows uid file calls) : Locked uid (runCalls uid file calls) := by
  induction calls using List.reverseRecOn with
  | nil => exact h
  | append_singleton calls call ih =>
    rw [runCalls_concat]
    have hbefore : NoneOverflows uid file calls := by
      intro done tty now rest hcalls
      exact hfits done tty now (rest ++ [call]) (by rw [hcalls,List.append_assoc,List.cons_append])
    refine ((ih hbefore).afterCall ?_).1
    intro tty now hcall
    exact hfits calls tty now [] (by rw [hcall])

theorem NoneOverflows.suffix {rest : List Call} (h : NoneOverflows uid file (done ++ rest)) :
    NoneOverflows uid (runCalls uid file done) rest := by
  intro before tty now after hrest
  have hfits := h (done ++ before) tty now after (by rw [hrest,List.append_assoc])
  rwa [runCalls,List.foldl_append] at hfits

theorem NoneOverflows.of_append {rest : List Call} (h : NoneOverflows uid file (done ++ rest)) : NoneOverflows uid file done := by
  intro before tty now after hdone
  exact h before tty now (after ++ rest) (by rw [hdone,List.append_assoc,List.cons_append])

/-- Counting failures unlocks no account exactly where the count does not leave its type. -/
theorem failures_never_unlock_iff (hfl : file.read uid = some fl) (hlocks : fl.LocksForGood) (calls : List Call) :
    NeverUnlocks uid file calls ↔ NoneOverflows uid file calls := by
  constructor
  · intro h done tty now rest hcalls hgreatest
    obtain ⟨fl₁,hfl₁,hlocks₁⟩ := runCalls_read hfl hlocks done
    rw [record_of_read hfl₁] at hgreatest
    rcases h.counts done _ rest hcalls with hle | ⟨_,hcall,_⟩
    · rw [runCalls_concat,record_of_read hfl₁,Call.run,failure,FaillogFile.record_write_self,hfl₁] at hle
      have hcount : fl₁.failCnt ≤ fl₁.count := hle
      rw [Faillog.count_overflow hgreatest,hgreatest] at hcount
      exact absurd hcount (by decide)
    · cases hcall
  · intro h
    refine ⟨?_,?_⟩
    · intro done call rest hcalls
      obtain ⟨fl₁,hfl₁,hlocks₁⟩ := runCalls_read hfl hlocks done
      obtain ⟨fl₂,hfl₂,_,_,hcases⟩ := Call.run_spec call hfl₁ hlocks₁
      rw [runCalls_concat,record_of_read hfl₁,record_of_read hfl₂]
      rcases hcases with ⟨tty,now,hcall,_,hcount⟩ | ⟨_,_,_,_,_,rfl⟩ | ⟨failed,now,hcall,hanswer,_,hcount⟩
      · left
        have hfits := h done tty now rest (by rw [hcalls,hcall])
        rw [record_of_read hfl₁] at hfits
        rw [hcount]
        exact Faillog.le_count hfits
      · left
        exact Int16.le_refl _
      · cases failed with
        | false => exact .inr ⟨now,hcall,hanswer⟩
        | true =>
          left
          rw [hcount]
          exact Int16.le_refl _
    · intro done call between call' rest hcalls hrefused
      obtain ⟨fl₁,hfl₁,hlocks₁⟩ := runCalls_read hfl hlocks done
      -- the limit is reached at the refusal, and stays so up to the later call
      have hlocked : Locked uid (runCalls uid file done) := by
        obtain ⟨fl₂,_,_,_,hcases⟩ := Call.run_spec call hfl₁ hlocks₁
        rcases hcases with ⟨_,_,_,hanswer,_⟩ | ⟨_,_,_,_,hreached,_⟩ | ⟨_,_,_,hanswer,_⟩
        · rw [hanswer] at hrefused
          cases hrefused
        · exact ⟨fl₁,hfl₁,hlocks₁,hreached⟩
        · rw [hanswer] at hrefused
          cases hrefused
      have hsuffix : NoneOverflows uid (runCalls uid file done) (call :: between ++ call' :: rest) := by
        apply NoneOverflows.suffix
        rwa [hcalls,List.append_assoc] at h
      have hafter := hlocked.afterCalls hsuffix.of_append
      rw [runCalls,List.foldl_append]
      refine (hafter.afterCall ?_).2
      intro tty now hcall
      exact hsuffix (call :: between) tty now rest (by rw [hcall])

/-- A record whose count is the greatest that there is. -/
def fullRecord : Faillog := ⟨32767,5,.replicate 12 0,0,0⟩

/-- A failure more and the account is open again. -/
theorem overflow_unlocks : ¬ NeverUnlocks 0 [fullRecord] [.failcheck true 0,.failure [] 0,.failcheck true 0] := by
  intro h
  exact h.final [] (.failcheck true 0) [.failure [] 0] (.failcheck true 0) [] rfl (by decide) (by decide)

theorem failures_never_unlock_five :
    NeverUnlocks 0 [⟨4,5,.replicate 12 0,0,0⟩] [.failure [] 0,.failcheck false 0,.failure [] 1,.failcheck false 1] := by
  refine (failures_never_unlock_iff rfl ⟨by decide,rfl⟩ _).mpr ?_
  intro done tty now rest hcalls
  rcases done with _ | ⟨c₁,_ | ⟨c₂,_ | ⟨c₃,_ | ⟨c₄,done⟩⟩⟩⟩
  · decide
  · cases hcalls
  · cases hcalls
    decide
  · cases hcalls
  · simp at hcalls

end UserDb.Login
