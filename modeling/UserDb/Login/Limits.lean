import UserDb.Atoi.Arguments
import UserDb.Base.Text

/-! The limits of a login session: a string of letters, each with its argument behind it. -/
namespace UserDb.Login
open UserDb.Base UserDb.Atoi

/-- The resources that have a limit. -/
inductive Resource where
  | as | core | data | fsize | nice | memlock | nofile | rtprio | rss | stack | cpu | nproc
  deriving DecidableEq, Repr

/-- What goes to the system log. -/
inductive LimitsLog where
  | invalidMaxlogins
  | noLogins (name : Bytes)
  | tooManyLogins (limit : UInt64) (name : Bytes)
  | invalidLimits (text : Bytes)
  deriving DecidableEq, Repr

/-- The calls of the system, each with the state that it leaves; those that can fail say whether they did not. -/
structure LoginSystem (σ : Type) where
  setrlimit : σ → Resource → UInt64 → Bool × σ
  setpriority : σ → Int → Bool × σ
  umask : σ → UInt32 → σ
  activeSessionsCount : σ → Bytes → UInt64 → UInt64 × σ
  syslog : σ → LimitsLog → σ

def loginErrorRlimit : Nat := 1
def loginErrorLogin : Nat := 2

/-- What a letter stands for: a resource with the unit of its limit, or one of the others. -/
inductive LimitKind where
  | rlimit (resource : Resource) (multiplier : Nat)
  | umask
  | logins
  | prio
  deriving DecidableEq, Repr

def limitKind (letter : UInt8) : Option LimitKind :=
  match letter with
  | 97 | 65 => some (.rlimit .as 1024)
  | 99 | 67 => some (.rlimit .core 1024)
  | 100 | 68 => some (.rlimit .data 1024)
  | 102 | 70 => some (.rlimit .fsize 1024)
  | 105 | 73 => some (.rlimit .nice 1)
  | 107 | 75 => some .umask
  | 108 | 76 => some .logins
  | 109 | 77 => some (.rlimit .memlock 1024)
  | 110 | 78 => some (.rlimit .nofile 1)
  | 111 | 79 => some (.rlimit .rtprio 1)
  | 112 | 80 => some .prio
  | 114 | 82 => some (.rlimit .rss 1024)
  | 115 | 83 => some (.rlimit .stack 1024)
  | 116 | 84 => some (.rlimit .cpu 60)
  | 117 | 85 => some (.rlimit .nproc 1)
  | _ => none

/-- What is skipped behind a letter. -/
def isSkipped (b : UInt8) : Bool := isDigit b || b == 45 || isBlank b

section Program
variable {σ : Type} (sys : LoginSystem σ) (name : Bytes)

def setLimit (resource : Resource) (limit : UInt64) (s : σ) : Nat × σ :=
  match sys.setrlimit s resource limit with
  | (true,s) => (0,s)
  | (false,s) => (loginErrorRlimit,s)

def setrlimitValue (resource : Resource) (multiplier : Nat) (value : Bytes) (s : σ) : Nat × σ :=
  -- "-" is infinity, whatever comes behind it
  if value.head? = some 45 then setLimit sys resource (.ofNat (2^64 - 1)) s
  else
    match strtouNoneg value 10 0 (2^64 - 1) with
    | (l,status) =>
      if status ≠ .success ∧ status ≠ .enotsup then (0,s)
      else if 2^64 ≤ l * multiplier then (0,s)
      else setLimit sys resource (.ofNat (l * multiplier)) s

def setPrio (value : Bytes) (s : σ) : Nat × σ :=
  match strtoi value 0 (-2^31) (2^31 - 1) with
  | (prio,.success) =>
    match sys.setpriority s prio with
    | (true,s) => (0,s)
    | (false,s) => (loginErrorRlimit,s)
  | _ => (0,s)

def setUmask (value : Bytes) (s : σ) : Nat × σ :=
  match a2i value 0 0 (2^32 - 1) with
  | some mask => (0,sys.umask s (.ofNat mask))
  | none => (0,s)

def checkLogins (maxlogins : Bytes) (s : σ) : Nat × σ :=
  match strtouNoneg maxlogins 0 0 (2^64 - 1) with
  | (limit,.success) =>
    if limit = 0 then (loginErrorLogin,sys.syslog s (.noLogins name))
    else
      match sys.activeSessionsCount s name (.ofNat limit) with
      | (count,s) =>
        if .ofNat limit < count then (loginErrorLogin,sys.syslog s (.tooManyLogins (.ofNat limit) name)) else (0,s)
  | (_,.erange) => (loginErrorLogin,sys.syslog s .invalidMaxlogins)
  | _ => (0,s)

def applyLimit (kind : LimitKind) (value : Bytes) (s : σ) : Nat × σ :=
  match kind with
  | .rlimit resource multiplier => setrlimitValue sys resource multiplier value s
  | .umask => setUmask sys value s
  | .logins => checkLogins sys name value s
  | .prio => setPrio sys value s

/-- The loop over the letters. Each gets all the text behind it; what looks like its argument is then skipped. -/
def limitsFrom (reported skips : Bool) (retval : Nat) (text : Bytes) (s : σ) : Nat × σ :=
  match text with
  | [] => (retval,s)
  | letter :: rest =>
    if skips && isSkipped letter then limitsFrom reported true retval rest s
    else
      match limitKind letter with
      | some kind => limitsFrom reported true (retval ||| (applyLimit sys name kind rest s).1) rest (applyLimit sys name kind rest s).2
      | none =>
        if reported then limitsFrom true true retval rest s
        else limitsFrom true true (retval ||| loginErrorRlimit) rest (sys.syslog s (.invalidLimits (letter :: rest)))

def doUserLimits (buf : Bytes) (s : σ) : Nat × σ :=
  let pp := buf.dropWhile isBlank
  limitsFrom sys name false false 0 (if pp = ascii "-" then ascii "A- C- D- F- I- L- M- N- O- P- R- S- T- U-" else pp) s

end Program

/-- A letter with its argument, and the blanks up to the next one. -/
structure LimitSetting where
  letter : UInt8
  kind : LimitKind
  arg : Bytes
  blanks : Bytes
  known : limitKind letter = some kind
  argument : IsArgument arg
  blank : ∀ b ∈ blanks, isBlank b = true

namespace LimitSetting

def alone (x : LimitSetting) : Bytes := x.letter :: x.arg

def text (x : LimitSetting) : Bytes := x.alone ++ x.blanks

end LimitSetting

/-- A string of settings. -/
def limitsText (settings : List LimitSetting) : Bytes := settings.flatMap LimitSetting.text

/-- Each setting by itself, in order. -/
def doEach {σ : Type} (sys : LoginSystem σ) (name : Bytes) (settings : List LimitSetting) (s : σ) : Nat × σ :=
  settings.foldl (fun r x => (r.1 ||| (doUserLimits sys name x.alone r.2).1,(doUserLimits sys name x.alone r.2).2)) (0,s)

/-- On every system the string does what its settings do by themselves. -/
def LimitsCompose (settings : List LimitSetting) : Prop :=
  ∀ (σ : Type) (sys : LoginSystem σ) (name : Bytes) (s : σ), doUserLimits sys name (limitsText settings) s = doEach sys name settings s

/-- The argument is a number of the kind, for the kinds that want their whole text to be one. -/
def LimitKind.reads (kind : LimitKind) (arg : Bytes) : Bool :=
  match kind with
  | .rlimit _ _ => false
  | .umask => (strtouNoneg arg 0 0 (2^32 - 1)).2 == .success
  | .logins => (strtouNoneg arg 0 0 (2^64 - 1)).2 == .success
  | .prio => (strtoi arg 0 (-2^31) (2^31 - 1)).2 == .success

/-- No such number has anything behind it. -/
def NoneDropped : List LimitSetting → Prop
  | [] => True
  | x :: settings => (x.blanks ≠ [] ∨ settings ≠ [] → x.kind.reads x.arg = false) ∧ NoneDropped settings

section Letters
variable {letter : UInt8} {kind : LimitKind}

/-- A letter is no part of an argument, and of no prefix of a number. -/
theorem limitKind_letter (h : limitKind letter = some kind) :
    isSkipped letter = false ∧ isDigit letter = false ∧ letter ≠ 120 ∧ letter ≠ 88 ∧ letter ≠ 45 ∧ isBlank letter = false := by
  unfold limitKind at h
  split at h
  all_goals first | decide | cases h

private theorem isBlank_ends {b : UInt8} (h : isBlank b = true) : isDigit b = false ∧ b ≠ 120 ∧ b ≠ 88 := by
  simp only [isBlank,Bool.or_eq_true,beq_iff_eq] at h
  rcases h with rfl | rfl
  · decide
  · decide

theorem limitsText_cons (x : LimitSetting) (settings : List LimitSetting) :
    limitsText (x :: settings) = x.letter :: (x.arg ++ (x.blanks ++ limitsText settings)) := by
  simp [limitsText,LimitSetting.text,LimitSetting.alone]

/-- What stands behind an argument goes on with a blank or with a letter. -/
theorem ends_behind (x : LimitSetting) (settings : List LimitSetting) : Ends (x.blanks ++ limitsText settings) := by
  intro b hb
  cases hblanks : x.blanks with
  | cons first blanks =>
    rw [hblanks] at hb
    cases hb
    exact isBlank_ends (x.blank b (by rw [hblanks]; exact List.mem_cons_self))
  | nil =>
    rw [hblanks,List.nil_append] at hb
    cases settings with
    | nil => cases hb
    | cons next settings =>
      rw [limitsText_cons] at hb
      cases hb
      obtain ⟨_,hdigit,hx,hX,_⟩ := limitKind_letter next.known
      exact ⟨hdigit,hx,hX⟩

theorem behind_eq_nil {x : LimitSetting} {settings : List LimitSetting} :
    x.blanks ++ limitsText settings = [] ↔ x.blanks = [] ∧ settings = [] := by
  rw [List.append_eq_nil_iff]
  cases settings with
  | nil => simp [limitsText]
  | cons next settings => simp [limitsText_cons]

end Letters

section Loop
variable {σ : Type} {sys : LoginSystem σ} {name : Bytes} {s : σ} {kind : LimitKind} {arg rest : Bytes}

theorem setUmask_eq (value : Bytes) :
    setUmask sys value s = if (strtouNoneg value 0 0 (2^32 - 1)).2 = .success then
      (0,sys.umask s (.ofNat (strtouNoneg value 0 0 (2^32 - 1)).1)) else (0,s) := by
  unfold setUmask a2i
  generalize strtouNoneg value 0 0 (2^32 - 1) = read
  obtain ⟨mask,status⟩ := read
  cases status <;> rfl

theorem setPrio_eq (value : Bytes) :
    setPrio sys value s = if (strtoi value 0 (-2^31) (2^31 - 1)).2 = .success then
      (if (sys.setpriority s (strtoi value 0 (-2^31) (2^31 - 1)).1).1 then 0 else loginErrorRlimit,
        (sys.setpriority s (strtoi value 0 (-2^31) (2^31 - 1)).1).2) else (0,s) := by
  unfold setPrio
  generalize strtoi value 0 (-2^31) (2^31 - 1) = read
  obtain ⟨prio,status⟩ := read
  cases status with
  | success =>
    rcases hset : sys.setpriority s prio with ⟨_ | _,s'⟩
    · simp [hset]
    · simp [hset]
  | einval => rfl
  | ecanceled => rfl
  | erange => rfl
  | enotsup => rfl

/-- With text behind its argument a setting does what it does alone, or nothing, where it wants its whole text. -/
theorem applyLimit_append (harg : IsArgument arg) (hrest : Ends rest) (hne : rest ≠ []) :
    applyLimit sys name kind (arg ++ rest) s = if kind.reads arg then (0,s) else applyLimit sys name kind arg s := by
  have hempty : rest.isEmpty = false := by simpa using hne
  cases kind with
  | rlimit resource multiplier =>
    have hhead : (arg ++ rest).head? = arg.head? := by
      obtain ⟨digits,_,rfl | ⟨rfl,hdigits⟩⟩ := harg
      · rfl
      · exact List.head?_append_of_ne_nil _ hdigits
    simp only [applyLimit,LimitKind.reads,Bool.false_eq_true,if_false,setrlimitValue,hhead]
    rw [strtouNoneg_append (.inr rfl) harg hrest]
    rcases strtouNoneg arg 10 0 (2^64 - 1) with ⟨l,status⟩
    cases status with
    | success => simp [Status.behind,hempty]
    | einval => rfl
    | ecanceled => rfl
    | erange => rfl
    | enotsup => rfl
  | umask =>
    rw [applyLimit,applyLimit,setUmask_eq,setUmask_eq,strtouNoneg_append (.inl rfl) harg hrest,LimitKind.reads]
    generalize strtouNoneg arg 0 0 (2^32 - 1) = read
    obtain ⟨mask,status⟩ := read
    cases status with
    | success => simp [Status.behind,hempty]
    | einval => rfl
    | ecanceled => rfl
    | erange => rfl
    | enotsup => rfl
  | logins =>
    simp only [applyLimit,LimitKind.reads,checkLogins]
    rw [strtouNoneg_append (.inl rfl) harg hrest]
    rcases strtouNoneg arg 0 0 (2^64 - 1) with ⟨limit,status⟩
    cases status with
    | success => simp [Status.behind,hempty]
    | einval => rfl
    | ecanceled => rfl
    | erange => rfl
    | enotsup => rfl
  | prio =>
    rw [applyLimit,applyLimit,setPrio_eq,setPrio_eq,strtoi_append (.inl rfl) harg hrest,LimitKind.reads]
    generalize strtoi arg 0 (-2^31) (2^31 - 1) = read
    obtain ⟨prio,status⟩ := read
    cases status with
    | success => simp [Status.behind,hempty]
    | einval => rfl
    | ecanceled => rfl
    | erange => rfl
    | enotsup => rfl

private theorem limitsFrom_skip {reported : Bool} {retval : Nat} {text skipped : Bytes} (h : ∀ b ∈ skipped, isSkipped b = true) :
    limitsFrom sys name reported true retval (skipped ++ text) s = limitsFrom sys name reported true retval text s := by
  induction skipped with
  | nil => rfl
  | cons first skipped ih =>
    have hfirst := h first List.mem_cons_self
    rw [List.cons_append,limitsFrom,hfirst,Bool.and_true,if_pos rfl]
    exact ih fun b hb => h b (List.mem_cons_of_mem _ hb)

private theorem isSkipped_arg (harg : IsArgument arg) : ∀ b ∈ arg, isSkipped b = true := by
  obtain ⟨digits,hdigits,harg⟩ := harg
  have hskipped : ∀ b ∈ digits, isSkipped b = true := by
    intro b hb
    simp [isSkipped,hdigits b hb]
  rcases harg with rfl | ⟨rfl,_⟩
  · intro b hb
    rcases List.mem_cons.mp hb with rfl | hb
    · rfl
    · exact hskipped b hb
  · exact hskipped

/-- One setting of the loop. -/
theorem limitsFrom_setting {reported skips : Bool} {retval : Nat} (x : LimitSetting) (settings : List LimitSetting) :
    limitsFrom sys name reported skips retval (limitsText (x :: settings)) s =
      limitsFrom sys name reported true (retval ||| (applyLimit sys name x.kind (x.arg ++ (x.blanks ++ limitsText settings)) s).1)
        (limitsText settings) (applyLimit sys name x.kind (x.arg ++ (x.blanks ++ limitsText settings)) s).2 := by
  have hletter := (limitKind_letter x.known).1
  have hblanks : ∀ b ∈ x.blanks, isSkipped b = true := by
    intro b hb
    simp [isSkipped,x.blank b hb]
  rw [limitsText_cons,limitsFrom,hletter,Bool.and_false,if_neg Bool.false_ne_true,x.known]
  simp only
  rw [limitsFrom_skip (isSkipped_arg x.argument),limitsFrom_skip hblanks]

/-- Each setting with the text behind it. -/
def together (sys : LoginSystem σ) (name : Bytes) : List LimitSetting → Nat → σ → Nat × σ
  | [], retval, s => (retval,s)
  | x :: settings, retval, s =>
    let r := applyLimit sys name x.kind (x.arg ++ (x.blanks ++ limitsText settings)) s
    together sys name settings (retval ||| r.1) r.2

/-- Each setting with its own argument. -/
def apart (sys : LoginSystem σ) (name : Bytes) : List LimitSetting → Nat → σ → Nat × σ
  | [], retval, s => (retval,s)
  | x :: settings, retval, s =>
    let r := applyLimit sys name x.kind x.arg s
    apart sys name settings (retval ||| r.1) r.2

private theorem limitsFrom_eq (settings : List LimitSetting) {reported : Bool} {retval : Nat} :
    limitsFrom sys name reported true retval (limitsText settings) s = together sys name settings retval s := by
  induction settings generalizing retval s with
  | nil => rfl
  | cons x settings ih =>
    rw [limitsFrom_setting,ih]
    rfl

theorem doUserLimits_text (sys : LoginSystem σ) (name : Bytes) (s : σ) (settings : List LimitSetting) :
    doUserLimits sys name (limitsText settings) s = together sys name settings 0 s := by
  cases settings with
  | nil => rfl
  | cons x settings =>
    obtain ⟨_,_,_,_,hminus,hblank⟩ := limitKind_letter x.known
    have hdrop : (limitsText (x :: settings)).dropWhile isBlank = limitsText (x :: settings) := by
      rw [limitsText_cons,List.dropWhile_cons,hblank]
      rfl
    have hne : limitsText (x :: settings) ≠ ascii "-" := by
      rw [limitsText_cons]
      intro heq
      exact hminus (List.cons.inj heq).1
    unfold doUserLimits
    simp only [hdrop,hne,if_false]
    rw [limitsFrom_setting,limitsFrom_eq]
    rfl

private theorem doUserLimits_alone (x : LimitSetting) : doUserLimits sys name x.alone s = applyLimit sys name x.kind x.arg s := by
  have hone := doUserLimits_text sys name s [{ x with blanks := [], blank := nofun }]
  rw [limitsText_cons] at hone
  simp only [limitsText,List.flatMap_nil,List.append_nil,together,Nat.zero_or] at hone
  exact hone

private theorem doEach_eq (settings : List LimitSetting) : doEach sys name settings s = apart sys name settings 0 s := by
  have hfold : ∀ retval s,
      settings.foldl (fun r x => (r.1 ||| (doUserLimits sys name x.alone r.2).1,(doUserLimits sys name x.alone r.2).2)) (retval,s) =
        apart sys name settings retval s := by
    induction settings with
    | nil =>
      intro retval s
      rfl
    | cons x settings ih =>
      intro retval s
      rw [List.foldl_cons,ih,doUserLimits_alone]
      rfl
  exact hfold 0 s

private theorem together_eq {settings : List LimitSetting} (h : NoneDropped settings) {retval : Nat} :
    together sys name settings retval s = apart sys name settings retval s := by
  induction settings generalizing retval s with
  | nil => rfl
  | cons x settings ih =>
    have hsame : applyLimit sys name x.kind (x.arg ++ (x.blanks ++ limitsText settings)) s = applyLimit sys name x.kind x.arg s := by
      by_cases hnil : x.blanks ++ limitsText settings = []
      · rw [hnil,List.append_nil]
      · have hbehind : x.blanks ≠ [] ∨ settings ≠ [] := by
          rw [behind_eq_nil] at hnil
          tauto
        rw [applyLimit_append x.argument (ends_behind x settings) hnil,h.1 hbehind]
        rfl
    rw [together,apart,hsame]
    exact ih h.2

end Loop

/-- A system that counts its calls. -/
def callCounter : LoginSystem Nat where
  setrlimit n _ _ := (true,n + 1)
  setpriority n _ := (true,n + 1)
  umask n _ := n + 1
  activeSessionsCount n _ _ := (0,n + 1)
  syslog n _ := n + 1

/-- A setting makes as many calls whatever came before it, and one at least where its argument is read. -/
theorem applyLimit_calls (name : Bytes) (kind : LimitKind) (value : Bytes) :
    ∃ k, (∀ n, (applyLimit callCounter name kind value n).2 = n + k) ∧ (kind.reads value = true → 0 < k) := by
  cases kind with
  | rlimit resource multiplier =>
    by_cases hhead : value.head? = some 45
    · exact ⟨1,fun n => by simp [applyLimit,setrlimitValue,hhead,setLimit,callCounter],nofun⟩
    · rcases hread : strtouNoneg value 10 0 (2^64 - 1) with ⟨l,status⟩
      by_cases hstatus : status ≠ .success ∧ status ≠ .enotsup
      · exact ⟨0,fun n => by simp only [applyLimit,setrlimitValue,hhead,hread,if_false]; rw [if_pos hstatus]; rfl,nofun⟩
      · by_cases hlarge : 2^64 ≤ l * multiplier
        · exact ⟨0,fun n => by simp only [applyLimit,setrlimitValue,hhead,hread,hstatus,hlarge,if_true,if_false]; rfl,nofun⟩
        · exact ⟨1,fun n => by simp only [applyLimit,setrlimitValue,hhead,hread,hstatus,hlarge,if_false]; rfl,nofun⟩
  | umask =>
    by_cases hread : (strtouNoneg value 0 0 (2^32 - 1)).2 = .success
    · exact ⟨1,fun n => by rw [applyLimit,setUmask_eq,if_pos hread]; rfl,fun _ => Nat.one_pos⟩
    · refine ⟨0,fun n => by rw [applyLimit,setUmask_eq,if_neg hread]; rfl,?_⟩
      intro hreads
      exact absurd (by simpa [LimitKind.reads] using hreads) hread
  | prio =>
    by_cases hread : (strtoi value 0 (-2^31) (2^31 - 1)).2 = .success
    · exact ⟨1,fun n => by rw [applyLimit,setPrio_eq,if_pos hread]; rfl,fun _ => Nat.one_pos⟩
    · refine ⟨0,fun n => by rw [applyLimit,setPrio_eq,if_neg hread]; rfl,?_⟩
      intro hreads
      exact absurd (by simpa [LimitKind.reads] using hreads) hread
  | logins =>
    simp only [applyLimit,checkLogins,LimitKind.reads]
    generalize strtouNoneg value 0 0 (2^64 - 1) = read
    obtain ⟨limit,status⟩ := read
    cases status with
    | success =>
      by_cases hzero : limit = 0
      · exact ⟨1,fun n => by simp [hzero,callCounter],fun _ => Nat.one_pos⟩
      · exact ⟨1,fun n => by simp [hzero,callCounter],fun _ => Nat.one_pos⟩
    | einval => exact ⟨0,fun _ => rfl,nofun⟩
    | ecanceled => exact ⟨0,fun _ => rfl,nofun⟩
    | erange => exact ⟨1,fun _ => rfl,nofun⟩
    | enotsup => exact ⟨0,fun _ => rfl,nofun⟩

/-- The settings of a string make no more calls than by themselves, and fewer if a number is dropped. -/
theorem together_calls (name : Bytes) (settings : List LimitSetting) {n m : Nat} (hle : n ≤ m) (retval retval' : Nat) :
    (together callCounter name settings retval n).2 ≤ (apart callCounter name settings retval' m).2 ∧
      ((together callCounter name settings retval n).2 = (apart callCounter name settings retval' m).2 →
        n = m ∧ NoneDropped settings) := by
  induction settings generalizing n m retval retval' with
  | nil => exact ⟨hle,fun heq => ⟨heq,trivial⟩⟩
  | cons x settings ih =>
    obtain ⟨k,hk,hpos⟩ := applyLimit_calls name x.kind x.arg
    have hapart : (applyLimit callCounter name x.kind x.arg m).2 = m + k := hk m
    rw [together,apart,hapart]
    by_cases hbehind : x.blanks ++ limitsText settings = []
    · rw [hbehind,List.append_nil,hk n]
      obtain ⟨hle',heq'⟩ := ih (Nat.add_le_add_right hle k) _ _
      refine ⟨hle',fun heq => ?_⟩
      obtain ⟨hsame,hnone⟩ := heq' heq
      refine ⟨by omega,?_,hnone⟩
      intro hne
      rw [behind_eq_nil] at hbehind
      tauto
    · rw [applyLimit_append x.argument (ends_behind x settings) hbehind]
      cases hreads : x.kind.reads x.arg with
      | true =>
        rw [if_pos rfl]
        have hlt := hpos hreads
        obtain ⟨hle',heq'⟩ := ih (show n ≤ m + k by omega) _ _
        refine ⟨hle',fun heq => ?_⟩
        have hsame := (heq' heq).1
        omega
      | false =>
        rw [if_neg Bool.false_ne_true,hk n]
        obtain ⟨hle',heq'⟩ := ih (Nat.add_le_add_right hle k) _ _
        refine ⟨hle',fun heq => ?_⟩
        obtain ⟨hsame,hnone⟩ := heq' heq
        exact ⟨by omega,fun _ => hreads,hnone⟩

/-- The settings of a string compose exactly where no umask, priority or number of logins has anything behind it. -/
theorem limits_compose_iff (settings : List LimitSetting) : LimitsCompose settings ↔ NoneDropped settings := by
  constructor
  · intro h
    have hcalls := congrArg Prod.snd (h Nat callCounter [] 0)
    rw [doUserLimits_text,doEach_eq] at hcalls
    exact ((together_calls [] settings le_rfl 0 0).2 hcalls).2
  · intro h σ sys name s
    rw [doUserLimits_text,doEach_eq,together_eq h]

/-- The umask of `K022`. -/
def umaskSetting : LimitSetting where
  letter := 75
  kind := .umask
  arg := ascii "022"
  blanks := []
  known := rfl
  argument := ⟨ascii "022",by decide +kernel,.inr ⟨rfl,by decide +kernel⟩⟩
  blank := nofun

/-- The number of files of `N5`. -/
def filesSetting : LimitSetting where
  letter := 78
  kind := .rlimit .nofile 1
  arg := ascii "5"
  blanks := []
  known := rfl
  argument := ⟨ascii "5",by decide +kernel,.inr ⟨rfl,by decide +kernel⟩⟩
  blank := nofun

example : limitsText [umaskSetting,filesSetting] = ascii "K022N5" := by decide

/-- In `K022N5` no umask is set. -/
theorem umask_is_dropped : ¬ LimitsCompose [umaskSetting,filesSetting] := by
  intro h
  have hcalls := congrArg Prod.snd (h Nat callCounter [] 0)
  revert hcalls
  decide +kernel

end UserDb.Login
