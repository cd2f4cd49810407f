import UserDb.Atoi.Strtoi

/-! The lock file of a database, as any number of processes take it by steps on the file
system, with processes that die on the way and leave their files behind. -/
namespace UserDb.Commonio
open UserDb.Base UserDb.Atoi

/-- A process number. -/
structure Pid where
  val : Nat
  pos : 0 < val
  lt : val < 2^31
  deriving DecidableEq

structure Inode where
  content : Bytes
  nlink : Nat

/-- The step of `do_lock_file` that a process makes next. The inode that was opened is kept to
say which file it was that the process looked at. -/
inductive LockPc where
  | idle | created | written | linked | present
  | opened (inode : Nat)
  | found (inode pid : Nat)
  | stale (inode : Nat)
  | removed
  | leaving (retval : Bool)
  | holding
  deriving DecidableEq

/-- The directory with the lock and the file of each process, and the processes. -/
structure LockSystem where
  lock : Option Nat
  file : Pid → Option Nat
  inodes : Nat → Inode
  fresh : Nat
  live : Pid → Bool
  pc : Pid → LockPc

/-- What a process writes to its file: its number, with the null byte behind it. -/
def pidText (p : Pid) : Bytes := numeral p.val ++ [0]

def cString (buf : Bytes) : Bytes := buf.takeWhile (· != 0)

namespace LockSystem

section Operations
variable (s : LockSystem)

def goto (p : Pid) (pc : LockPc) : LockSystem := { s with pc := Function.update s.pc p pc }

def store (i : Nat) (inode : Inode) : LockSystem := { s with inodes := Function.update s.inodes i inode }

/-- The file is made new, or emptied where it is there already. -/
def createFile (p : Pid) : LockSystem :=
  match s.file p with
  | some i => s.store i { s.inodes i with content := [] }
  | none => { s.store s.fresh ⟨[],1⟩ with
      file := Function.update s.file p (some s.fresh)
      fresh := s.fresh + 1 }

def writeFile (p : Pid) : LockSystem :=
  match s.file p with
  | some i => s.store i { s.inodes i with content := pidText p }
  | none => s

def unlinkFile (p : Pid) : LockSystem :=
  match s.file p with
  | some i => { s.store i { s.inodes i with nlink := (s.inodes i).nlink - 1 } with
      file := Function.update s.file p none }
  | none => s

def linkLock (p : Pid) : LockSystem :=
  match s.file p with
  | some i => { s.store i { s.inodes i with nlink := (s.inodes i).nlink + 1 } with lock := some i }
  | none => s

def unlinkLock : LockSystem :=
  match s.lock with
  | some i => { s.store i { s.inodes i with nlink := (s.inodes i).nlink - 1 } with lock := none }
  | none => s

def checkLinkCount (p : Pid) : Bool := (s.file p).any fun i => (s.inodes i).nlink == 2

/-- Whether a signal can be sent to the process of a number. -/
def kill (pid : Nat) : Bool := if h : 0 < pid ∧ pid < 2^31 then s.live ⟨pid,h.1,h.2⟩ else false

/-- The buffer that the content of the lock is read to. -/
def readLock (i : Nat) : Bytes := (s.inodes i).content.take 31

/-- The next step of a process; `ok` tells whether a call succeeds that may. -/
def step (p : Pid) (ok : Bool) : LockSystem :=
  match s.pc p with
  | .idle => if ok then (s.createFile p).goto p .created else s
  | .created => if ok then (s.writeFile p).goto p .written else (s.unlinkFile p).goto p .idle
  | .written => if ok && s.lock.isNone then (s.linkLock p).goto p .linked else s.goto p .present
  | .linked => s.goto p (.leaving (ok && s.checkLinkCount p))
  | .present =>
    match s.lock with
    | some i => if ok then s.goto p (.opened i) else s.goto p (.leaving false)
    | none => s.goto p (.leaving false)
  | .opened i =>
    if !ok || (s.readLock i).isEmpty then s.goto p (.leaving false)
    else
      match getPid (cString (s.readLock i)) with
      | some pid => s.goto p (.found i pid)
      | none => s.goto p (.leaving false)
  | .found i pid => if s.kill pid then s.goto p (.leaving false) else s.goto p (.stale i)
  | .stale _ => if ok && s.lock.isSome then s.unlinkLock.goto p .removed else s.goto p (.leaving false)
  | .removed => if ok && s.lock.isNone then (s.linkLock p).goto p .linked else s.goto p (.leaving false)
  | .leaving retval => (s.unlinkFile p).goto p (if retval then .holding else .idle)
  | .holding => if ok then s.unlinkLock.goto p .idle else s.goto p .idle

end Operations

/-- A live process makes its next step, or a process dies. -/
inductive Event where
  | step (p : Pid) (ok : Bool)
  | die (p : Pid)

def next (s : LockSystem) : Event → LockSystem
  | .step p ok => if s.live p then s.step p ok else s
  | .die p => { s with live := Function.update s.live p false }

/-- At first no process has a file; the lock may be there with any content. -/
def initial (lock : Option Bytes) (live : Pid → Bool) : LockSystem where
  lock := lock.map fun _ => 0
  file _ := none
  inodes _ := ⟨lock.getD [],1⟩
  fresh := 1
  live := live
  pc _ := .idle

/-- `do_lock_file` has returned 1, and the lock was not given back. -/
def Holds (s : LockSystem) (p : Pid) : Prop := s.live p = true ∧ s.pc p = .holding

/-- No two processes hold the lock. -/
def Exclusive (s : LockSystem) : Prop := ∀ p q, s.Holds p → s.Holds q → p = q

/-- A live process with the lock: its link count was found right, and it has not given it back. -/
def HasLock (s : LockSystem) (p : Pid) : Prop :=
  s.live p = true ∧ (s.pc p = .leaving true ∨ s.pc p = .holding)

/-- The condition on a step: a lock that was found stale is removed only while it is still that
file, or while no live process has the lock. -/
def RemovesStale (s : LockSystem) : Event → Prop
  | .step p true => ∀ i j, s.live p = true → s.pc p = .stale i → s.lock = some j → j = i ∨ ∀ q, ¬ s.HasLock q
  | _ => True

def RunRemovesStale : LockSystem → List Event → Prop
  | _, [] => True
  | s, e :: events => s.RemovesStale e ∧ RunRemovesStale (s.next e) events

end LockSystem

/-- Where a process has a file of its own. -/
def LockPc.hasFile : LockPc → Bool
  | .idle | .holding => false
  | _ => true

namespace LockSystem

/-- An inode that nothing is written to any more. -/
def Settled (s : LockSystem) (i : Nat) : Prop := i < s.fresh ∧ ∀ p, s.file p = some i → s.pc p ≠ .created

/-- What a process knows about the lock that it looked at. -/
def Known (s : LockSystem) : LockPc → Prop
  | .opened i => s.Settled i
  | .found i pid => s.Settled i ∧ getPid (cString (s.readLock i)) = some pid
  | .stale i => s.Settled i ∧ ∃ pid, getPid (cString (s.readLock i)) = some pid ∧ s.kill pid = false
  | _ => True

/-- The lock file is that of a process. -/
def IsOwner (s : LockSystem) (p : Pid) : Prop := ∃ i, s.lock = some i ∧ (s.inodes i).content = pidText p

structure Consistent (s : LockSystem) : Prop where
  fileBound : ∀ p i, s.file p = some i → i < s.fresh
  fileInj : ∀ p q i, s.file p = some i → s.file q = some i → p = q
  hasFile : ∀ p, (s.file p).isSome = (s.pc p).hasFile
  content : ∀ p i, s.file p = some i → s.pc p ≠ .created → (s.inodes i).content = pidText p
  nlink : ∀ p i, s.file p = some i → (s.inodes i).nlink = if s.lock = some i then 2 else 1
  lockSettled : ∀ i, s.lock = some i → s.Settled i
  known : ∀ p, s.Known (s.pc p)
  owner : ∀ p, s.HasLock p → s.IsOwner p

section Steps
variable {s s' : LockSystem} {p q : Pid} {i : Nat}

theorem pidText_getPid (p : Pid) : getPid (cString ((pidText p).take 31)) = some p.val := by
  have hlen : (numeral p.val).length ≤ 10 := by
    unfold numeral
    split
    · exact Nat.succ_le_succ (Nat.zero_le 9)
    · rw [List.length_map,List.length_reverse]
      refine Nat.digits_length_le_iff (by decide) _ |>.mpr (p.lt.trans (by decide))
  have hshort : (pidText p).length ≤ 31 := by
    rw [pidText,List.length_append,List.length_singleton]
    omega
  have hdigits : ∀ b ∈ numeral p.val, (b != 0) = true := fun b hb => by
    refine bne_iff_ne.mpr ?_
    rintro rfl
    exact absurd (isDigit_iff.mp (numeral_digits hb)).1 (by decide)
  rw [List.take_of_length_le hshort,cString,pidText,List.takeWhile_append_of_pos hdigits]
  simpa using getPid_numeral p.pos p.lt

theorem pidText_injective (h : pidText p = pidText q) : p = q := by
  have hval : some p.val = some q.val := by rw [← pidText_getPid,← pidText_getPid,h]
  cases p
  cases q
  cases hval
  rfl

/-- A later state: settled inodes stay as they are, and no process comes back to life. -/
structure Later (s s' : LockSystem) : Prop where
  settled : ∀ i, s.Settled i → s'.Settled i
  content : ∀ i, s.Settled i → (s'.inodes i).content = (s.inodes i).content
  live : ∀ p, s'.live p = true → s.live p = true

theorem Later.kill (h : Later s s') {pid : Nat} (hdead : s.kill pid = false) : s'.kill pid = false := by
  unfold LockSystem.kill at hdead ⊢
  split at hdead
  · rename_i hpid
    rw [dif_pos hpid]
    refine Bool.eq_false_iff.mpr fun hlive => ?_
    rw [h.live _ hlive] at hdead
    cases hdead
  · rename_i hpid
    rw [dif_neg hpid]

theorem Later.readLock (h : Later s s') (hi : s.Settled i) : s'.readLock i = s.readLock i := by
  rw [LockSystem.readLock,LockSystem.readLock,h.content i hi]

theorem Later.known (h : Later s s') {pc : LockPc} (hk : s.Known pc) : s'.Known pc := by
  cases pc with
  | opened i => exact h.settled i hk
  | found i pid => exact ⟨h.settled i hk.1,by rw [h.readLock hk.1]; exact hk.2⟩
  | stale i =>
    obtain ⟨hi,pid,hread,hdead⟩ := hk
    exact ⟨h.settled i hi,pid,by rw [h.readLock hi]; exact hread,h.kill hdead⟩
  | _ => trivial

/-- Where the lock is still there, it is still that of its owner. -/
theorem Later.owner (h : Later s s') (hs : s.Consistent) (hlock : s'.lock = s.lock) (hp : s.IsOwner p) :
    s'.IsOwner p := by
  obtain ⟨i,hi,hc⟩ := hp
  exact ⟨i,hlock.trans hi,(h.content i (hs.lockSettled i hi)).trans hc⟩

/-- What a step of the process `p` owes: the other processes keep their files and their places. -/
theorem Consistent.step_of (h : s.Consistent) (hlater : Later s s')
    (hothers : ∀ q, q ≠ p → s'.file q = s.file q ∧ s'.pc q = s.pc q ∧
      ∀ i, s.file q = some i → i < s'.fresh ∧ (s'.inodes i).content = (s.inodes i).content)
    (hown : ∀ i, s'.file p = some i → i < s'.fresh ∧ (∀ q, q ≠ p → s.file q ≠ some i) ∧
      (s'.pc p ≠ .created → (s'.inodes i).content = pidText p))
    (hfile : (s'.file p).isSome = (s'.pc p).hasFile) (hknown : s'.Known (s'.pc p))
    (hnlink : ∀ q i, s'.file q = some i → (s'.inodes i).nlink = if s'.lock = some i then 2 else 1)
    (hlock : ∀ i, s'.lock = some i → s'.Settled i) (howner : ∀ q, s'.HasLock q → s'.IsOwner q) : s'.Consistent := by
  refine ⟨fun q i hi => ?_,fun q r i hq hr => ?_,fun q => ?_,fun q i hi hc => ?_,hnlink,hlock,fun q => ?_,howner⟩
  · by_cases hqp : q = p
    · subst hqp
      exact (hown i hi).1
    · obtain ⟨hf,_,hi'⟩ := hothers q hqp
      exact (hi' i (hf ▸ hi)).1
  · by_cases hqp : q = p
    · subst hqp
      by_cases hrq : r = q
      · exact hrq.symm
      · exact absurd ((hothers r hrq).1 ▸ hr) ((hown i hq).2.1 r hrq)
    · by_cases hrp : r = p
      · subst hrp
        exact absurd ((hothers q hqp).1 ▸ hq) ((hown i hr).2.1 q hqp)
      · exact h.fileInj q r i ((hothers q hqp).1 ▸ hq) ((hothers r hrp).1 ▸ hr)
  · by_cases hqp : q = p
    · subst hqp
      exact hfile
    · obtain ⟨hf,hpc,_⟩ := hothers q hqp
      rw [hf,hpc]
      exact h.hasFile q
  · by_cases hqp : q = p
    · subst hqp
      exact (hown i hi).2.2 hc
    · obtain ⟨hf,hpc,hi'⟩ := hothers q hqp
      rw [hf] at hi
      rw [hpc] at hc
      exact (hi' i hi).2.trans (h.content q i hi hc)
  · by_cases hqp : q = p
    · subst hqp
      exact hknown
    · rw [(hothers q hqp).2.1]
      exact hlater.known (h.known q)

/-- The processes with the lock stay its owners where the lock stays and `p` does not come to have it. -/
theorem Consistent.owner_of (h : s.Consistent) (hlater : Later s s') (hlock : s'.lock = s.lock)
    (hothers : ∀ q, q ≠ p → s'.pc q = s.pc q) (hp : s'.HasLock p → s.IsOwner p) :
    ∀ q, s'.HasLock q → s'.IsOwner q := fun q hq => by
  refine hlater.owner h hlock ?_
  by_cases hqp : q = p
  · subst hqp
    exact hp hq
  · have hpc := hothers q hqp
    exact h.owner q ⟨hlater.live q hq.1,hpc ▸ hq.2⟩

theorem Consistent.file_none (h : s.Consistent) (hpc : (s.pc p).hasFile = false) : s.file p = none := by
  have hf := (h.hasFile p).trans hpc
  simpa using hf

theorem Consistent.file_some (h : s.Consistent) (hpc : (s.pc p).hasFile = true) : ∃ i, s.file p = some i :=
  Option.isSome_iff_exists.mp ((h.hasFile p).trans hpc)

private theorem goto_pc (s : LockSystem) (p q : Pid) (pc : LockPc) : (s.goto p pc).pc q = if q = p then pc else s.pc q :=
  Function.update_apply _ _ _ _

/-- A step that only moves on. -/
theorem Consistent.goto (h : s.Consistent) {pc : LockPc} (hfrom : s.pc p ≠ .created) (hto : pc ≠ .created)
    (hfile : pc.hasFile = (s.pc p).hasFile) (hknown : s.Known pc)
    (howner : s.live p = true → pc = .leaving true ∨ pc = .holding → s.IsOwner p) : (s.goto p pc).Consistent := by
  have hself : (s.goto p pc).pc p = pc := by rw [goto_pc,if_pos rfl]
  have hother : ∀ q, q ≠ p → (s.goto p pc).pc q = s.pc q := fun q hq => by rw [goto_pc,if_neg hq]
  have hsettled : ∀ i, s.Settled i → (s.goto p pc).Settled i := fun i hi => by
    refine ⟨hi.1,fun q hq => ?_⟩
    by_cases hqp : q = p
    · rw [hqp,hself]
      exact hto
    · rw [hother q hqp]
      exact hi.2 q hq
  have hlater : Later s (s.goto p pc) := ⟨hsettled,fun _ _ => rfl,fun _ hl => hl⟩
  refine h.step_of hlater (fun q hq => ⟨rfl,hother q hq,fun i hi => ⟨h.fileBound q i hi,rfl⟩⟩)
    (fun i hi => ⟨h.fileBound p i hi,fun q hq hqi => hq (h.fileInj q p i hqi hi),fun _ => h.content p i hi hfrom⟩)
    ?_ ?_ h.nlink (fun i hi => hsettled i (h.lockSettled i hi)) (h.owner_of hlater rfl hother fun hp => ?_)
  · rw [hself,hfile]
    exact h.hasFile p
  · rw [hself]
    exact hlater.known hknown
  · obtain ⟨hlive,hpc⟩ := hp
    rw [hself] at hpc
    exact howner hlive hpc

/-- A new file, on an inode that was not there before. -/
theorem Consistent.create (h : s.Consistent) (hpc : s.pc p = .idle) : ((s.createFile p).goto p .created).Consistent := by
  have hnone : s.file p = none := h.file_none (by rw [hpc]; rfl)
  have hstate : (s.createFile p).goto p .created =
      { s with
        inodes := Function.update s.inodes s.fresh ⟨[],1⟩
        file := Function.update s.file p (some s.fresh)
        fresh := s.fresh + 1
        pc := Function.update s.pc p .created } := by
    rw [createFile,hnone]
    rfl
  generalize hs' : (s.createFile p).goto p .created = s' at hstate
  have hself : s'.pc p = .created ∧ s'.file p = some s.fresh := by simp [hstate]
  have hother : ∀ q, q ≠ p → s'.pc q = s.pc q ∧ s'.file q = s.file q := fun q hq => by simp [hstate,hq]
  have hinode : ∀ i, i < s.fresh → s'.inodes i = s.inodes i := fun i hi => by simp [hstate,hi.ne]
  have hlock : s'.lock = s.lock := by simp [hstate]
  have hfresh : s'.fresh = s.fresh + 1 := by simp [hstate]
  have hlater : Later s s' := by
    refine ⟨fun i hi => ⟨by have := hi.1; omega,fun q hq => ?_⟩,fun i hi => by rw [hinode i hi.1],fun q hl => ?_⟩
    · by_cases hqp : q = p
      · rw [hqp,hself.2] at hq
        exact absurd (Option.some.inj hq) hi.1.ne'
      · rw [(hother q hqp).2] at hq
        rw [(hother q hqp).1]
        exact hi.2 q hq
    · simpa [hstate] using hl
  have hlockNe : s.lock ≠ some s.fresh := fun hl => lt_irrefl _ (h.lockSettled _ hl).1
  refine h.step_of hlater (fun q hq => ⟨(hother q hq).2,(hother q hq).1,fun i hi => ?_⟩) (fun i hi => ?_) ?_ ?_
    (fun q i hi => ?_) (fun i hi => hlater.settled i (h.lockSettled i (hlock ▸ hi)))
    (h.owner_of hlater hlock (fun q hq => (hother q hq).1) fun hp => ?_)
  · have hb := h.fileBound q i hi
    exact ⟨by omega,by rw [hinode i hb]⟩
  · rw [hself.2] at hi
    cases hi
    exact ⟨by omega,fun q _ hq => lt_irrefl _ (h.fileBound q _ hq),fun hc => absurd hself.1 hc⟩
  · rw [hself.1,hself.2]
    rfl
  · rw [hself.1]
    trivial
  · rw [hlock]
    by_cases hqp : q = p
    · rw [hqp,hself.2] at hi
      cases hi
      rw [if_neg hlockNe]
      simp [hstate]
    · rw [(hother q hqp).2] at hi
      rw [hinode i (h.fileBound q i hi)]
      exact h.nlink q i hi
  · obtain ⟨_,hp⟩ := hp
    rw [hself.1] at hp
    rcases hp with hp | hp <;> cases hp

/-- The number is written to a file that is not the lock yet. -/
theorem Consistent.write (h : s.Consistent) (hpc : s.pc p = .created) : ((s.writeFile p).goto p .written).Consistent := by
  obtain ⟨i,hi⟩ := h.file_some (by rw [hpc]; rfl)
  have hstate : (s.writeFile p).goto p .written =
      { s with
        inodes := Function.update s.inodes i { s.inodes i with content := pidText p }
        pc := Function.update s.pc p .written } := by
    rw [writeFile,hi]
    rfl
  generalize (s.writeFile p).goto p .written = s' at hstate
  have hself : s'.pc p = .written := by simp [hstate]
  have hother : ∀ q, q ≠ p → s'.pc q = s.pc q := fun q hq => by simp [hstate,hq]
  have hinode : ∀ j, j ≠ i → s'.inodes j = s.inodes j := fun j hj => by simp [hstate,hj]
  have hlock : s'.lock = s.lock := by simp [hstate]
  have hfile : s'.file = s.file := by simp [hstate]
  have hfresh : s'.fresh = s.fresh := by simp [hstate]
  have hunsettled : ∀ j, s.Settled j → j ≠ i := fun j hj he => hj.2 p (he ▸ hi) hpc
  have hlater : Later s s' := by
    refine ⟨fun j hj => ⟨hfresh ▸ hj.1,fun q hq => ?_⟩,fun j hj => by rw [hinode j (hunsettled j hj)],fun q hl => ?_⟩
    · by_cases hqp : q = p
      · rw [hqp,hself]
        nofun
      · rw [hfile] at hq
        rw [hother q hqp]
        exact hj.2 q hq
    · simpa [hstate] using hl
  refine h.step_of hlater (fun q hq => ⟨by rw [hfile],hother q hq,fun j hj => ⟨hfresh ▸ h.fileBound q j hj,?_⟩⟩)
    (fun j hj => ?_) ?_ ?_ (fun q j hj => ?_) (fun j hj => hlater.settled j (h.lockSettled j (hlock ▸ hj)))
    (h.owner_of hlater hlock hother fun hp => ?_)
  · rw [hinode j fun he => hq (h.fileInj q p i (he ▸ hj) hi)]
  · rw [hfile,hi] at hj
    cases hj
    exact ⟨hfresh ▸ h.fileBound p i hi,fun q hq hqi => hq (h.fileInj q p i hqi hi),fun _ => by simp [hstate]⟩
  · rw [hfile,hi,hself]
    rfl
  · rw [hself]
    trivial
  · rw [hfile] at hj
    have hn := h.nlink q j hj
    rw [hlock,← hn]
    by_cases hji : j = i
    · simp [hstate,hji]
    · rw [hinode j hji]
  · rw [HasLock,hself] at hp
    rcases hp.2 with hp | hp <;> cases hp

/-- The process leaves, and its file with it. -/
theorem Consistent.unlink (h : s.Consistent) (hpc : (s.pc p).hasFile = true) {pc : LockPc}
    (hto : pc = .idle ∨ pc = .holding) (howner : pc = .holding → s.pc p = .leaving true) :
    ((s.unlinkFile p).goto p pc).Consistent := by
  obtain ⟨i,hi⟩ := h.file_some hpc
  have hstate : (s.unlinkFile p).goto p pc =
      { s with
        inodes := Function.update s.inodes i { s.inodes i with nlink := (s.inodes i).nlink - 1 }
        file := Function.update s.file p none
        pc := Function.update s.pc p pc } := by
    rw [unlinkFile,hi]
    rfl
  generalize (s.unlinkFile p).goto p pc = s' at hstate
  have hself : s'.pc p = pc ∧ s'.file p = none := by simp [hstate]
  have hother : ∀ q, q ≠ p → s'.pc q = s.pc q ∧ s'.file q = s.file q := fun q hq => by simp [hstate,hq]
  have hinode : ∀ j, j ≠ i → s'.inodes j = s.inodes j := fun j hj => by simp [hstate,hj]
  have hcontent : ∀ j, (s'.inodes j).content = (s.inodes j).content := fun j => by
    by_cases hji : j = i
    · simp [hstate,hji]
    · rw [hinode j hji]
  have hlock : s'.lock = s.lock := by simp [hstate]
  have hfresh : s'.fresh = s.fresh := by simp [hstate]
  have hlater : Later s s' := by
    refine ⟨fun j hj => ⟨hfresh ▸ hj.1,fun q hq => ?_⟩,fun j _ => hcontent j,fun q hl => ?_⟩
    · by_cases hqp : q = p
      · rw [hqp,hself.2] at hq
        cases hq
      · rw [(hother q hqp).2] at hq
        rw [(hother q hqp).1]
        exact hj.2 q hq
    · simpa [hstate] using hl
  refine h.step_of hlater (fun q hq => ⟨(hother q hq).2,(hother q hq).1,fun j hj => ⟨hfresh ▸ h.fileBound q j hj,hcontent j⟩⟩)
    (fun j hj => ?_) ?_ ?_ (fun q j hj => ?_) (fun j hj => hlater.settled j (h.lockSettled j (hlock ▸ hj)))
    (h.owner_of hlater hlock (fun q hq => (hother q hq).1) fun hp => ?_)
  · rw [hself.2] at hj
    cases hj
  · rw [hself.1,hself.2]
    rcases hto with rfl | rfl <;> rfl
  · rw [hself.1]
    rcases hto with rfl | rfl <;> trivial
  · by_cases hqp : q = p
    · rw [hqp,hself.2] at hj
      cases hj
    · rw [(hother q hqp).2] at hj
      rw [hlock,hinode j fun he => hqp (h.fileInj q p i (he ▸ hj) hi)]
      exact h.nlink q j hj
  · obtain ⟨hlive,hp⟩ := hp
    rw [hself.1] at hp
    have hholding : pc = .holding := by rcases hto with rfl | rfl <;> simp_all
    exact h.owner p ⟨hlater.live p hlive,.inl (howner hholding)⟩

/-- The file becomes the lock where there was none, so that no process had it. -/
theorem Consistent.link (h : s.Consistent) (hpc : s.pc p = .written ∨ s.pc p = .removed) (hnone : s.lock = none) :
    ((s.linkLock p).goto p .linked).Consistent := by
  have hhas : (s.pc p).hasFile = true ∧ s.pc p ≠ .created := by rcases hpc with hpc | hpc <;> rw [hpc] <;> exact ⟨rfl,nofun⟩
  obtain ⟨i,hi⟩ := h.file_some hhas.1
  have hstate : (s.linkLock p).goto p .linked =
      { s with
        inodes := Function.update s.inodes i { s.inodes i with nlink := (s.inodes i).nlink + 1 }
        lock := some i
        pc := Function.update s.pc p .linked } := by
    rw [linkLock,hi]
    rfl
  generalize (s.linkLock p).goto p .linked = s' at hstate
  have hself : s'.pc p = .linked := by simp [hstate]
  have hother : ∀ q, q ≠ p → s'.pc q = s.pc q := fun q hq => by simp [hstate,hq]
  have hinode : ∀ j, j ≠ i → s'.inodes j = s.inodes j := fun j hj => by simp [hstate,hj]
  have hcontent : ∀ j, (s'.inodes j).content = (s.inodes j).content := fun j => by
    by_cases hji : j = i
    · simp [hstate,hji]
    · rw [hinode j hji]
  have hlock : s'.lock = some i := by simp [hstate]
  have hfile : s'.file = s.file := by simp [hstate]
  have hfresh : s'.fresh = s.fresh := by simp [hstate]
  have hsettled : ∀ j, j < s.fresh → (∀ q, q ≠ p → s.file q = some j → s.pc q ≠ .created) → s'.Settled j := by
    refine fun j hj hq' => ⟨hfresh ▸ hj,fun q hq => ?_⟩
    by_cases hqp : q = p
    · rw [hqp,hself]
      nofun
    · rw [hfile] at hq
      rw [hother q hqp]
      exact hq' q hqp hq
  have hlater : Later s s' :=
    ⟨fun j hj => hsettled j hj.1 fun q _ => hj.2 q,fun j _ => hcontent j,fun q hl => by simpa [hstate] using hl⟩
  refine h.step_of hlater (fun q hq => ⟨by rw [hfile],hother q hq,fun j hj => ⟨hfresh ▸ h.fileBound q j hj,hcontent j⟩⟩)
    (fun j hj => ?_) ?_ ?_ (fun q j hj => ?_) (fun j hj => ?_) (fun q hq => ?_)
  · rw [hfile] at hj
    exact ⟨hfresh ▸ h.fileBound p j hj,fun q hq hqj => hq (h.fileInj q p j hqj hj),fun _ =>
      (hcontent j).trans (h.content p j hj hhas.2)⟩
  · rw [hfile,hi,hself]
    rfl
  · rw [hself]
    trivial
  · rw [hfile] at hj
    have hn := h.nlink q j hj
    rw [hnone] at hn
    rw [hlock]
    by_cases hji : i = j
    · subst hji
      simp [hstate,hn]
    · rw [hinode j (Ne.symm hji),hn]
      simp [hji]
  · rw [hlock] at hj
    cases hj
    exact hsettled i (h.fileBound p i hi) fun q hq hqi => absurd (h.fileInj q p i hqi hi) hq
  · -- no process has the lock while there is none
    obtain ⟨hlive,hpc'⟩ := hq
    by_cases hqp : q = p
    · rw [hqp,hself] at hpc'
      rcases hpc' with hpc' | hpc' <;> cases hpc'
    · rw [hother q hqp] at hpc'
      obtain ⟨j,hj,_⟩ := h.owner q ⟨hlater.live q hlive,hpc'⟩
      rw [hnone] at hj
      cases hj

/-- The lock is removed, where no other process has it. -/
theorem Consistent.unlock (h : s.Consistent) {pc : LockPc} (hpc : s.pc p ≠ .created)
    (hfile : pc.hasFile = (s.pc p).hasFile) (hto : pc = .removed ∨ pc = .idle)
    (hnone : ∀ q, q ≠ p → ¬ s.HasLock q) : (s.unlinkLock.goto p pc).Consistent := by
  have hpc' : pc ≠ .created ∧ pc ≠ .leaving true ∧ pc ≠ .holding := by
    rcases hto with rfl | rfl <;> exact ⟨nofun,nofun,nofun⟩
  cases hl : s.lock with
  | none =>
    have hsame : s.unlinkLock = s := by rw [unlinkLock,hl]
    rw [hsame]
    refine h.goto hpc hpc'.1 hfile ?_ fun _ hp => hp.elim (absurd · hpc'.2.1) (absurd · hpc'.2.2)
    rcases hto with rfl | rfl <;> trivial
  | some i =>
    have hstate : s.unlinkLock.goto p pc =
        { s with
          inodes := Function.update s.inodes i { s.inodes i with nlink := (s.inodes i).nlink - 1 }
          lock := none
          pc := Function.update s.pc p pc } := by
      rw [unlinkLock,hl]
      rfl
    generalize s.unlinkLock.goto p pc = s' at hstate
    have hself : s'.pc p = pc := by simp [hstate]
    have hother : ∀ q, q ≠ p → s'.pc q = s.pc q := fun q hq => by simp [hstate,hq]
    have hinode : ∀ j, j ≠ i → s'.inodes j = s.inodes j := fun j hj => by simp [hstate,hj]
    have hcontent : ∀ j, (s'.inodes j).content = (s.inodes j).content := fun j => by
      by_cases hji : j = i
      · simp [hstate,hji]
      · rw [hinode j hji]
    have hlock : s'.lock = none := by simp [hstate]
    have hfile' : s'.file = s.file := by simp [hstate]
    have hfresh : s'.fresh = s.fresh := by simp [hstate]
    have hlater : Later s s' := by
      refine ⟨fun j hj => ⟨hfresh ▸ hj.1,fun q hq => ?_⟩,fun j _ => hcontent j,fun q hl => by simpa [hstate] using hl⟩
      by_cases hqp : q = p
      · rw [hqp,hself]
        exact hpc'.1
      · rw [hfile'] at hq
        rw [hother q hqp]
        exact hj.2 q hq
    refine h.step_of hlater
      (fun q hq => ⟨by rw [hfile'],hother q hq,fun j hj => ⟨hfresh ▸ h.fileBound q j hj,hcontent j⟩⟩)
      (fun j hj => ?_) ?_ ?_ (fun q j hj => ?_) (fun j hj => ?_) (fun q hq => ?_)
    · rw [hfile'] at hj
      exact ⟨hfresh ▸ h.fileBound p j hj,fun q hq hqj => hq (h.fileInj q p j hqj hj),fun _ =>
        (hcontent j).trans (h.content p j hj hpc)⟩
    · rw [hfile',hself,hfile]
      exact h.hasFile p
    · rw [hself]
      rcases hto with rfl | rfl <;> trivial
    · rw [hfile'] at hj
      have hn := h.nlink q j hj
      rw [hl] at hn
      rw [hlock]
      by_cases hji : i = j
      · subst hji
        simp [hstate,hn]
      · rw [hinode j (Ne.symm hji),hn]
        simp [hji]
    · rw [hlock] at hj
      cases hj
    · obtain ⟨hlive,hq⟩ := hq
      by_cases hqp : q = p
      · rw [hqp,hself] at hq
        exact hq.elim (absurd · hpc'.2.1) (absurd · hpc'.2.2)
      · rw [hother q hqp] at hq
        exact absurd ⟨hlater.live q hlive,hq⟩ (hnone q hqp)

theorem Consistent.die (h : s.Consistent) (p : Pid) : (s.next (.die p)).Consistent := by
  have hlive : ∀ q, (s.next (.die p)).live q = true → s.live q = true := fun q hq => by
    by_cases hqp : q = p
    · simp [next,hqp] at hq
    · simpa [next,hqp] using hq
  have hlater : Later s (s.next (.die p)) := ⟨fun _ hi => hi,fun _ _ => rfl,hlive⟩
  exact ⟨h.fileBound,h.fileInj,h.hasFile,h.content,h.nlink,h.lockSettled,fun q => hlater.known (h.known q),
    fun q hq => h.owner q ⟨hlive q hq.1,hq.2⟩⟩

/-- Two processes with the lock are one. -/
theorem Consistent.hasLock_unique (h : s.Consistent) (hp : s.HasLock p) (hq : s.HasLock q) : p = q := by
  obtain ⟨i,hi,hc⟩ := h.owner p hp
  obtain ⟨j,hj,hc'⟩ := h.owner q hq
  obtain rfl : i = j := Option.some.inj (hi.symm.trans hj)
  exact pidText_injective (hc.symm.trans hc')

/-- A file that was found stale is not the lock of a live process. -/
theorem Consistent.stale_free (h : s.Consistent) (hpc : s.pc p = .stale i) (hlock : s.lock = some i) :
    ∀ q, ¬ s.HasLock q := fun q hq => by
  have hknown := h.known p
  rw [hpc] at hknown
  obtain ⟨_,pid,hread,hdead⟩ := hknown
  obtain ⟨j,hj,hc⟩ := h.owner q hq
  obtain rfl : i = j := Option.some.inj (hlock.symm.trans hj)
  rw [readLock,hc,pidText_getPid] at hread
  cases hread
  rw [kill,dif_pos ⟨q.pos,q.lt⟩] at hdead
  have hlive := hq.1
  rw [hdead] at hlive
  cases hlive

/-- What the other processes need of a step that removes the lock. -/
theorem Consistent.step_removes (h : s.Consistent) {ok : Bool} (hlive : s.live p = true) (hpc : s.pc p = .stale i)
    (hrun : s.RemovesStale (.step p ok)) (hok : ok = true) : ∀ q, q ≠ p → s.lock.isSome → ¬ s.HasLock q := by
  intro q _ hsome
  subst hok
  obtain ⟨j,hj⟩ := Option.isSome_iff_exists.mp hsome
  rcases hrun i j hlive hpc hj with rfl | hnone
  · exact h.stale_free hpc hj q
  · exact hnone q

/-- A process leaves with the result that it failed. -/
theorem Consistent.fail (h : s.Consistent) (hfrom : s.pc p ≠ .created) (hfile : (s.pc p).hasFile = true) :
    (s.goto p (.leaving false)).Consistent :=
  h.goto hfrom nofun hfile.symm trivial fun _ hp => hp.elim nofun nofun

theorem Consistent.step (h : s.Consistent) {ok : Bool} (hlive : s.live p = true) (hrun : s.RemovesStale (.step p ok)) :
    (s.step p ok).Consistent := by
  unfold LockSystem.step
  cases hpc : s.pc p with
  | idle =>
    cases ok with
    | true => exact h.create hpc
    | false => exact h
  | created =>
    cases ok with
    | true => exact h.write hpc
    | false => exact h.unlink (by rw [hpc]; rfl) (.inl rfl) nofun
  | written =>
    dsimp only
    split
    · rename_i hok
      obtain ⟨_,hnone⟩ := Bool.and_eq_true_iff.mp hok
      exact h.link (.inl hpc) (Option.isNone_iff_eq_none.mp hnone)
    · exact h.goto (by rw [hpc]; nofun) nofun (by rw [hpc]; rfl) trivial fun _ hp => hp.elim nofun nofun
  | linked =>
    refine h.goto (by rw [hpc]; nofun) nofun (by rw [hpc]; rfl) trivial fun _ hp => ?_
    -- a link count of two says that the file of the process is the lock
    obtain ⟨i,hi⟩ := h.file_some (p := p) (by rw [hpc]; rfl)
    have hcount : (ok && s.checkLinkCount p) = true := hp.elim LockPc.leaving.inj nofun
    have htwo : (s.inodes i).nlink = 2 := by
      have hcheck := (Bool.and_eq_true_iff.mp hcount).2
      rw [checkLinkCount,hi] at hcheck
      simpa using hcheck
    have hlock : s.lock = some i := by
      have hn := (h.nlink p i hi).symm.trans htwo
      by_contra hne
      rw [if_neg hne] at hn
      cases hn
    exact ⟨i,hlock,h.content p i hi (by rw [hpc]; nofun)⟩
  | present =>
    cases hlock : s.lock with
    | none => exact h.fail (by rw [hpc]; nofun) (by rw [hpc]; rfl)
    | some i =>
      cases ok with
      | true =>
        exact h.goto (by rw [hpc]; nofun) nofun (by rw [hpc]; rfl) (h.lockSettled i hlock) fun _ hp =>
          hp.elim nofun nofun
      | false => exact h.fail (by rw [hpc]; nofun) (by rw [hpc]; rfl)
  | opened i =>
    have hknown := h.known p
    rw [hpc] at hknown
    dsimp only
    split
    · exact h.fail (by rw [hpc]; nofun) (by rw [hpc]; rfl)
    · split
      · rename_i pid hread
        exact h.goto (by rw [hpc]; nofun) nofun (by rw [hpc]; rfl) ⟨hknown,hread⟩ fun _ hp => hp.elim nofun nofun
      · exact h.fail (by rw [hpc]; nofun) (by rw [hpc]; rfl)
  | found i pid =>
    have hknown := h.known p
    rw [hpc] at hknown
    dsimp only
    split
    · exact h.fail (by rw [hpc]; nofun) (by rw [hpc]; rfl)
    · rename_i hkill
      exact h.goto (by rw [hpc]; nofun) nofun (by rw [hpc]; rfl) ⟨hknown.1,pid,hknown.2,by simpa using hkill⟩
        fun _ hp => hp.elim nofun nofun
  | stale i =>
    dsimp only
    split
    · rename_i hok
      obtain ⟨hok,hsome⟩ := Bool.and_eq_true_iff.mp hok
      exact h.unlock (by rw [hpc]; nofun) (by rw [hpc]; rfl) (.inl rfl) fun q hq =>
        h.step_removes hlive hpc hrun hok q hq hsome
    · exact h.fail (by rw [hpc]; nofun) (by rw [hpc]; rfl)
  | removed =>
    dsimp only
    split
    · rename_i hok
      obtain ⟨_,hnone⟩ := Bool.and_eq_true_iff.mp hok
      exact h.link (.inr hpc) (Option.isNone_iff_eq_none.mp hnone)
    · exact h.fail (by rw [hpc]; nofun) (by rw [hpc]; rfl)
  | leaving retval =>
    refine h.unlink (by rw [hpc]; rfl) ?_ fun hp => ?_
    · cases retval
      · exact .inl rfl
      · exact .inr rfl
    · cases retval
      · cases hp
      · exact hpc
  | holding =>
    have hp : s.HasLock p := ⟨hlive,.inr hpc⟩
    cases ok with
    | true =>
      exact h.unlock (by rw [hpc]; nofun) (by rw [hpc]; rfl) (.inr rfl) fun q hq hq' =>
        hq (h.hasLock_unique hq' hp)
    | false => exact h.goto (by rw [hpc]; nofun) nofun (by rw [hpc]; rfl) trivial fun _ hp => hp.elim nofun nofun

theorem Consistent.next (h : s.Consistent) {e : Event} (hrun : s.RemovesStale e) : (s.next e).Consistent := by
  cases e with
  | step p ok =>
    unfold LockSystem.next
    dsimp only
    split
    · rename_i hlive
      exact h.step hlive hrun
    · exact h
  | die p => exact h.die p

private theorem initial_consistent (lock : Option Bytes) (live : Pid → Bool) : (initial lock live).Consistent where
  fileBound _ _ h := by cases h
  fileInj _ _ _ h := by cases h
  hasFile _ := rfl
  content _ _ h := by cases h
  nlink _ _ h := by cases h
  lockSettled i h := by
    refine ⟨?_,nofun⟩
    cases lock with
    | none => cases h
    | some content =>
      cases h
      exact Nat.zero_lt_one
  known _ := trivial
  owner _ h := by rcases h.2 with h | h <;> cases h

theorem Consistent.exclusive (h : s.Consistent) : s.Exclusive := fun _ _ hp hq =>
  h.hasLock_unique ⟨hp.1,.inr hp.2⟩ ⟨hq.1,.inr hq.2⟩

theorem Consistent.run (h : s.Consistent) {events : List Event} (hrun : s.RunRemovesStale events) :
    ∀ n, ((events.take n).foldl LockSystem.next s).Consistent := by
  induction events generalizing s with
  | nil => exact fun n => by rwa [List.take_nil]
  | cons e events ih =>
    intro n
    cases n with
    | zero => exact h
    | succ n => exact ih (h.next hrun.1) hrun.2 n

/-- Where the lock of a live process is removed as stale, the remover comes to hold it too. -/
theorem Consistent.shared_of_removed (h : s.Consistent) (hlive : s.live p = true) (hpc : s.pc p = .stale i)
    (hq : s.Holds q) :
    ((List.replicate 4 (Event.step p true)).foldl LockSystem.next s).Holds p ∧
      ((List.replicate 4 (Event.step p true)).foldl LockSystem.next s).Holds q := by
  obtain ⟨j,hj,hc⟩ := h.owner q ⟨hq.1,.inr hq.2⟩
  obtain ⟨a,ha⟩ := h.file_some (p := p) (by rw [hpc]; rfl)
  have hqp : q ≠ p := by
    rintro rfl
    have hpc' := hq.2
    rw [hpc] at hpc'
    cases hpc'
  have haj : a ≠ j := by
    rintro rfl
    have hc' := h.content p a ha (by rw [hpc]; nofun)
    exact hqp (pidText_injective (hc.symm.trans hc'))
  have hn : (s.inodes a).nlink = 1 := by
    rw [h.nlink p a ha,hj,if_neg]
    exact fun he => haj (Option.some.inj he).symm
  have hqpc : s.pc q = .holding := hq.2
  have hqlive : s.live q = true := hq.1
  simp [List.replicate,LockSystem.next,LockSystem.step,LockSystem.goto,LockSystem.store,unlinkLock,linkLock,unlinkFile,
    checkLinkCount,Holds,hlive,hpc,hj,ha,hn,haj,hqp,hqpc,hqlive]

/-- The condition cannot be left out: a step against it, in a state that runs under it lead to,
can be followed by steps after which two processes hold the lock. -/
theorem Consistent.breaks (h : s.Consistent) {e : Event} (hbad : ¬ s.RemovesStale e) :
    ∃ events : List Event, ¬ (events.foldl LockSystem.next s).Exclusive := by
  have hshared : ∀ (s : LockSystem) (p q : Pid) (i : Nat), s.Consistent → s.live p = true → s.pc p = .stale i →
      s.Holds q → ∃ events : List Event, ¬ (events.foldl LockSystem.next s).Exclusive := fun s p q i h hlive hpc hq => by
    obtain ⟨hp',hq'⟩ := h.shared_of_removed hlive hpc hq
    refine ⟨List.replicate 4 (.step p true),fun hex => ?_⟩
    obtain rfl := hex p q hp' hq'
    have hpc' := hq.2
    rw [hpc] at hpc'
    cases hpc'
  cases e with
  | die p => exact absurd trivial hbad
  | step p ok =>
    cases ok with
    | false => exact absurd trivial hbad
    | true =>
      simp only [RemovesStale,not_forall,not_or,not_not] at hbad
      obtain ⟨i,j,hlive,hpc,hlock,_,q,hq⟩ := hbad
      rcases hq.2 with hleaving | hholding
      · -- the holder first returns from its call
        have hqp : p ≠ q := by
          rintro rfl
          rw [hpc] at hleaving
          cases hleaving
        obtain ⟨a,ha⟩ := h.file_some (p := q) (by rw [hleaving]; rfl)
        have hnext : s.RemovesStale (.step q true) := fun i j _ hstale => by
          rw [hleaving] at hstale
          cases hstale
        have hstep : s.next (.step q true) = (s.unlinkFile q).goto q .holding := by
          simp [LockSystem.next,LockSystem.step,hq.1,hleaving]
        obtain ⟨events,hevents⟩ := hshared (s.next (.step q true)) p q i (h.next hnext)
          (by rw [hstep]; simpa [LockSystem.goto,unlinkFile,ha,LockSystem.store] using hlive)
          (by rw [hstep]; simpa [LockSystem.goto,unlinkFile,ha,LockSystem.store,hqp] using hpc)
          (by rw [hstep]; simpa [LockSystem.goto,unlinkFile,ha,LockSystem.store,Holds] using hq.1)
        exact ⟨.step q true :: events,hevents⟩
      · exact hshared s p q i h hlive hpc ⟨hq.1,hholding⟩

end Steps

/-- In a run that only removes stale locks, no two live processes ever hold the lock. A step
behind it that removes another one can be followed by steps after which two do. -/
theorem lock_file_excludes (lock : Option Bytes) (live : Pid → Bool) (events : List Event)
    (hrun : (initial lock live).RunRemovesStale events) :
    (∀ n, ((events.take n).foldl next (initial lock live)).Exclusive) ∧
      ∀ e, ¬ (events.foldl next (initial lock live)).RemovesStale e →
        ∃ more : List Event, ¬ ((events ++ more).foldl next (initial lock live)).Exclusive := by
  have hconsistent := (initial_consistent lock live).run hrun
  refine ⟨fun n => (hconsistent n).exclusive,fun e hbad => ?_⟩
  have hend := hconsistent events.length
  rw [List.take_length] at hend
  obtain ⟨more,hmore⟩ := hend.breaks hbad
  exact ⟨more,by rwa [List.foldl_append]⟩

def firstPid : Pid := ⟨2,by decide,by decide⟩
def secondPid : Pid := ⟨3,by decide,by decide⟩
def deadPid : Pid := ⟨9,by decide,by decide⟩

/-- A lock that a dead process left behind. -/
def staleLock : LockSystem := initial (some (pidText deadPid)) (· != deadPid)

/-- Both processes find the lock stale before the first of them removes it. -/
def overlappingTakes : List Event :=
  List.replicate 6 (.step firstPid true) ++ List.replicate 6 (.step secondPid true) ++
    List.replicate 4 (.step firstPid true) ++ List.replicate 4 (.step secondPid true)

/-- The second process makes its file while the first one removes the stale lock, and then finds the first one's lock. -/
def contendedTake : List Event :=
  List.replicate 6 (.step firstPid true) ++ List.replicate 2 (.step secondPid true) ++
    List.replicate 4 (.step firstPid true) ++ List.replicate 5 (.step secondPid true)

theorem lock_file_excludes_one_take : (∀ n, ((contendedTake.take n).foldl next staleLock).Exclusive) ∧
    (contendedTake.foldl next staleLock).Holds firstPid ∧ (contendedTake.foldl next staleLock).pc secondPid = .idle := by
  refine ⟨(lock_file_excludes _ _ _ ?_).1,⟨rfl,rfl⟩,rfl⟩
  refine ⟨nofun,nofun,nofun,nofun,nofun,nofun,nofun,nofun,fun i j _ hpc hlock => .inl ?_,nofun,nofun,nofun,nofun,nofun,nofun,nofun,
    nofun,trivial⟩
  exact Option.some.inj (hlock.symm.trans (congrArg some (LockPc.stale.inj hpc)))

theorem overlapping_takes_both_hold :
    (overlappingTakes.foldl next staleLock).Holds firstPid ∧ (overlappingTakes.foldl next staleLock).Holds secondPid ∧
      firstPid ≠ secondPid :=
  ⟨⟨rfl,rfl⟩,⟨rfl,rfl⟩,by decide⟩

end LockSystem

end UserDb.Commonio
