import UserDb.Commonio.Files

/-! What the programs have in common: how they end, the pair of files they work on, and what
their surroundings give them. -/
namespace UserDb.Programs
open UserDb.Base UserDb.Commonio

/-- How a program ends; `endless` stands for a loop that does not. -/
inductive Exit where
  | status (code : Nat) | endless
  deriving DecidableEq

/-- A public file and its shadow, with their backups. -/
structure Files where
  main : Disk
  shadow : Disk

/-- What the surroundings of a program give: which calls succeed, one pair of allocations for
each round of a loop, and what stands in the configuration. -/
structure Env where
  selinux : Bool
  forceShadow : Bool
  mainLock : Bool
  shadowLock : Bool
  mainRead : Bool
  shadowRead : Bool
  mainMemory : Bool
  shadowMemory : Bool
  memory : Nat → Bool × Bool
  mainSteps : CloseSteps
  shadowSteps : CloseSteps
  unlink : Bool

/-- How the programs were built: the writers of the library, and the split of large groups. -/
structure Tools where
  putpwent : Putpwent
  putspent : Putspent
  putgrent : Putgrent
  maxMembers : Nat
  groupMemory : Bool
  gshadowMemory : Bool

def Tools.passwd (tools : Tools) : Storage Passwd := passwdStorage tools.putpwent
def Tools.shadow (tools : Tools) : Storage Spwd := shadowStorage tools.putspent
def Tools.group (tools : Tools) : Storage Group := groupStorage tools.maxMembers tools.putgrent tools.groupMemory
def Tools.gshadow (tools : Tools) : Storage Sgrp := gshadowStorage tools.gshadowMemory

theorem Tools.shadow_hook (tools : Tools) : tools.shadow.ops.openHook = none := rfl

/-- The numbers that a new shadow entry takes from the configuration, and the day of the run. -/
structure LoginDefs where
  passMaxDays : Int
  passWarnAge : Int
  day : Nat
  maxDays_range : -1 ≤ passMaxDays ∧ passMaxDays < 2^31
  warnAge_range : -1 ≤ passWarnAge ∧ passWarnAge < 2^31
  day_lt : day < 2^63

/-- The day of a password change; the first one would demand another change. -/
def LoginDefs.lstchg (defs : LoginDefs) : Int := if defs.day = 0 then -1 else defs.day

theorem LoginDefs.lstchg_range (defs : LoginDefs) : -1 ≤ defs.lstchg ∧ defs.lstchg < 2^63 := by
  have hday := defs.day_lt
  unfold LoginDefs.lstchg
  split <;> omega

/-- Opening a database that is in its first state, and locked where it has to be. -/
def openFirst {α : Type} (s : Storage α) (access : AccessMode) (create : Bool) (file : Option Bytes) (read memory : Bool) :
    Bool × Db α :=
  commonioOpen s.ops (Db.initial (fun _ => ⟨none,none,none,none,false⟩) 0 true) access create
    (if read then fileState file else .unavailable) memory

/-- A file that was opened is held as a table. -/
theorem openFirst_table {α : Type} {main : Storage α} {access : AccessMode} {create read memory : Bool} {file : Option Bytes} {db : Db α}
    (hunique : UniqueFile main.ops file) (h : openFirst main access create file read memory = (true,db)) :
    ∃ l stale, Table main file db l stale (fileEntry main.ops file) ∧ (main.ops.openHook = none → stale = false) := by
  unfold openFirst at h
  cases read with
  | true =>
    obtain ⟨l,stale,hheld,hread,_,hstale⟩ := commonioOpen_held h
    refine ⟨l,stale,⟨hheld,hunique _ hread,?_⟩,hstale⟩
    funext name
    rw [fileEntry,hread]
    rfl
  | false =>
    exfalso
    unfold commonioOpen at h
    simp only [Bool.false_eq_true,if_false] at h
    split at h
    · cases h
    · split at h <;> cases h

def plainPutspent : Putspent where
  run sp := some (spwdLine sp ++ [newline])
  writes _ _ h := (Option.some.inj h).symm

def plainTools : Tools := ⟨plainPutpwent,plainPutspent,plainPutgrent,0,true,true⟩

def defaultDefs : LoginDefs := ⟨99999,7,20000,by decide,by decide,by decide⟩

def calmEnv : Env := ⟨false,false,true,true,true,true,true,true,fun _ => (true,true),allSteps,allSteps,true⟩

end UserDb.Programs
