import UserDb.Commonio.GroupFile
import UserDb.Commonio.Passwd
import UserDb.Commonio.Shadow

/-! Runs of `gpasswd -a` and `gpasswd -d` on one group, side by side: each reads the entry of
the group before it takes the lock, and stores what it made of that entry. -/
namespace UserDb.Programs
open UserDb.Base UserDb.Commonio

/-- What all runs share: how the tool was built and set up, and the group they are about. -/
structure Config where
  maxMembers : Nat
  putgrent : Putgrent
  selinux : Bool
  forceShadow : Bool
  group : Bytes

/-- How a run was called, and by whom. -/
structure Invocation where
  user : Bytes
  add : Bool
  amroot : Bool
  myname : Bytes

inductive Pc where
  | start | readGshadow | lockGroup | lockGshadow | openGroup | openGshadow | update
  | closeGroup | unlockGroup | closeGshadow | unlockGshadow | done | exiting | failed
  deriving DecidableEq

/-- A process: where it is, the entries it copied, and its databases. -/
structure Proc where
  pc : Pc
  shadowgrp : Bool
  tmpgr : Group
  gr : Group
  sg : Sgrp
  groups : Db Group
  gshadows : Db Sgrp
  groupFile : Option Bytes
  gshadowFile : Option Bytes

/-- What the calls of a step that may fail give. -/
structure Outcome where
  ok : Bool
  memory : Bool
  close : CloseSteps

structure System (ι : Type) where
  group : Disk
  gshadow : Disk
  groupLock : Option ι
  gshadowLock : Option ι
  proc : ι → Proc

def addList (list : List Bytes) (member : Bytes) : List Bytes := if member ∈ list then list else list ++ [member]

def delList (list : List Bytes) (member : Bytes) : List Bytes := list.filter (· != member)

/-- What a run does to the members of a group. -/
def Invocation.apply (inv : Invocation) (members : List Bytes) : List Bytes :=
  if inv.add then addList members inv.user else delList members inv.user

def checkPerms (inv : Invocation) (shadowgrp : Bool) (sg : Sgrp) : Bool :=
  inv.amroot || (shadowgrp && inv.myname ∈ sg.adm)

/-- The entries with the user added or removed; a user who is in neither cannot be removed. -/
def changeEntries (inv : Invocation) (shadowgrp : Bool) (gr : Group) (sg : Sgrp) : Option (Group × Sgrp) :=
  if inv.add then
    some ({ gr with members := addList gr.members inv.user },
      if shadowgrp then { sg with mem := addList sg.mem inv.user } else sg)
  else if inv.user ∈ gr.members || (shadowgrp && inv.user ∈ sg.mem) then
    some (if inv.user ∈ gr.members then { gr with members := delList gr.members inv.user } else gr,
      if shadowgrp && inv.user ∈ sg.mem then { sg with mem := delList sg.mem inv.user } else sg)
  else none

namespace System
variable {ι : Type} [DecidableEq ι] (cfg : Config) (inv : ι → Invocation) (s : System ι)

def set (i : ι) (p : Proc) : System ι := { s with proc := Function.update s.proc i p }

def goto (i : ι) (pc : Pc) : System ι := s.set i { s.proc i with pc := pc }

/-- The copy of the group entry that `get_group` makes; the database is closed again. -/
def readGroup (i : ι) (o : Outcome) : System ι :=
  let p := s.proc i
  match commonioOpen (groupOps cfg.maxMembers) p.groups .rdonly false (fileState s.group.file) o.memory with
  | (false,_) => s.goto i .exiting
  | (true,db) =>
    match commonioLocate (groupOps cfg.maxMembers) db cfg.group with
    | (none,_) => s.goto i .exiting
    | (some tmpgr,db) =>
      let closed := commonioClose cfg.selinux (groupCloseOps cfg.maxMembers cfg.putgrent o.memory) o.close db s.group.file s.group
      if closed.1 then
        s.set i { p with
          pc := .readGshadow
          shadowgrp := cfg.forceShadow || s.gshadow.file.isSome
          tmpgr := tmpgr
          gr := tmpgr
          groups := closed.2.1 }
      else s.goto i .exiting

/-- The copy of the gshadow entry, made up from that of the group where there is none. -/
def readGshadow (i : ι) (o : Outcome) : Option Proc :=
  let p := s.proc i
  if p.shadowgrp then
    match commonioOpen gshadowOps p.gshadows .rdonly false (fileState s.gshadow.file) o.memory with
    | (false,_) => none
    | (true,db) =>
      let (tmpsg,db) := commonioLocate gshadowOps db cfg.group
      let closed := commonioClose cfg.selinux (plainCloseOps (gshadowPut o.memory)) o.close db s.gshadow.file s.gshadow
      if !closed.1 then none
      else
        match tmpsg with
        | some sg => some { p with sg := sg, gshadows := closed.2.1 }
        | none => some { p with
            sg := ⟨cfg.group,p.gr.passwd,[],p.gr.members⟩
            gr := { p.gr with passwd := shadowPasswdString }
            gshadows := closed.2.1 }
  else some p

/-- The permissions are checked and the entries changed; then the caller becomes root. -/
def prepare (i : ι) (o : Outcome) : System ι :=
  match s.readGshadow cfg i o with
  | none => s.goto i .exiting
  | some p =>
    if !checkPerms (inv i) p.shadowgrp p.sg then s.set i { p with pc := .exiting }
    else
      match changeEntries (inv i) p.shadowgrp p.gr p.sg with
      | none => s.set i { p with pc := .exiting }
      | some (gr,sg) => s.set i { p with pc := if o.ok then .lockGroup else .exiting, gr := gr, sg := sg }

def lockGroup (i : ι) (o : Outcome) : System ι :=
  let p := s.proc i
  if o.ok && s.groupLock.isNone then
    { s.set i { p with
        pc := if p.shadowgrp then .lockGshadow else .openGroup
        groups := { p.groups with locked := true } } with groupLock := some i }
  else s.goto i .exiting

def lockGshadow (i : ι) (o : Outcome) : System ι :=
  let p := s.proc i
  if o.ok && s.gshadowLock.isNone then
    { s.set i { p with pc := .openGroup, gshadows := { p.gshadows with locked := true } } with gshadowLock := some i }
  else s.goto i .exiting

def openGroup (i : ι) (o : Outcome) : System ι :=
  let p := s.proc i
  match commonioOpen (groupOps cfg.maxMembers) p.groups .rdwr true (fileState s.group.file) o.memory with
  | (false,_) => s.goto i .exiting
  | (true,db) =>
    s.set i { p with
      pc := if p.shadowgrp then .openGshadow else .update
      groups := db
      groupFile := s.group.file }

def openGshadow (i : ι) (o : Outcome) : System ι :=
  let p := s.proc i
  match commonioOpen gshadowOps p.gshadows .rdwr true (fileState s.gshadow.file) o.memory with
  | (false,_) => s.goto i .exiting
  | (true,db) => s.set i { p with pc := .update, gshadows := db, gshadowFile := s.gshadow.file }

def updateGroup (i : ι) (o : Outcome) : System ι :=
  let p := s.proc i
  match commonioUpdate (groupOps cfg.maxMembers) p.groups p.gr o.memory with
  | (false,_) => s.goto i .exiting
  | (true,groups) =>
    if p.shadowgrp then
      match commonioUpdate gshadowOps p.gshadows p.sg o.memory with
      | (false,_) => s.goto i .exiting
      | (true,gshadows) => s.set i { p with pc := .closeGroup, groups := groups, gshadows := gshadows }
    else s.set i { p with pc := .closeGroup, groups := groups }

/-- What closing the group database of a process gives. -/
def closing (i : ι) (o : Outcome) : Bool × Db Group × Disk :=
  commonioClose cfg.selinux (groupCloseOps cfg.maxMembers cfg.putgrent o.memory) o.close (s.proc i).groups
    (s.proc i).groupFile s.group

def closeGroup (i : ι) (o : Outcome) : System ι :=
  let closed := s.closing cfg i o
  { s.set i { s.proc i with
      pc := if closed.1 then .unlockGroup else .exiting
      groups := closed.2.1 } with group := closed.2.2 }

def closingGshadow (i : ι) (o : Outcome) : Bool × Db Sgrp × Disk :=
  commonioClose cfg.selinux (plainCloseOps (gshadowPut o.memory)) o.close (s.proc i).gshadows (s.proc i).gshadowFile s.gshadow

def closeGshadow (i : ι) (o : Outcome) : System ι :=
  if (s.proc i).shadowgrp then
    let closed := s.closingGshadow cfg i o
    { s.set i { s.proc i with
        pc := if closed.1 then .unlockGshadow else .exiting
        gshadows := closed.2.1 } with gshadow := closed.2.2 }
  else s.goto i .done

def freeGroupLock (i : ι) : System ι := { s with groupLock := if s.groupLock = some i then none else s.groupLock }

def freeGshadowLock (i : ι) : System ι := { s with gshadowLock := if s.gshadowLock = some i then none else s.gshadowLock }

/-- The next step of a process; one that exits frees the locks that it holds. -/
def step (i : ι) (o : Outcome) : System ι :=
  match (s.proc i).pc with
  | .start => s.readGroup cfg i o
  | .readGshadow => s.prepare cfg inv i o
  | .lockGroup => s.lockGroup i o
  | .lockGshadow => s.lockGshadow i o
  | .openGroup => s.openGroup cfg i o
  | .openGshadow => s.openGshadow i o
  | .update => s.updateGroup cfg i o
  | .closeGroup => s.closeGroup cfg i o
  | .unlockGroup => (s.freeGroupLock i).goto i .closeGshadow
  | .closeGshadow => s.closeGshadow cfg i o
  | .unlockGshadow => (s.freeGshadowLock i).goto i .done
  | .exiting => ((s.freeGshadowLock i).freeGroupLock i).goto i .failed
  | .done => s
  | .failed => s

/-- Any interleaving of the steps of the processes. -/
def run (s : System ι) (events : List (ι × Outcome)) : System ι :=
  events.foldl (fun s e => s.step cfg inv e.1 e.2) s

end System

/-- The member list that is stored for the group. -/
def storedMembers (cfg : Config) (file : Option Bytes) : Option (List Bytes) :=
  ((readFile (groupOps cfg.maxMembers) file).bind fun rs => lookup (groupOps cfg.maxMembers) rs cfg.group).map Group.members

/-- The same users, empty names apart, which no user has. -/
def SameUsers (members members' : List Bytes) : Prop := ∀ user, user ≠ [] → (user ∈ members ↔ user ∈ members')

section Members
variable {members members' members'' : List Bytes}

theorem SameUsers.refl (members : List Bytes) : SameUsers members members := fun _ _ => Iff.rfl

theorem SameUsers.trans (h : SameUsers members members') (h' : SameUsers members' members'') : SameUsers members members'' :=
  fun user huser => (h user huser).trans (h' user huser)

theorem SameUsers.symm (h : SameUsers members members') : SameUsers members' members :=
  fun user huser => (h user huser).symm

theorem mem_apply {inv : Invocation} {user : Bytes} :
    user ∈ inv.apply members ↔ if inv.add then user ∈ members ∨ user = inv.user else user ∈ members ∧ user ≠ inv.user := by
  unfold Invocation.apply
  cases inv.add with
  | true =>
    simp only [addList,if_true]
    split
    · rename_i hm
      constructor
      · exact .inl
      · rintro (h | rfl)
        · exact h
        · exact hm
    · simp
  | false => simp [delList]

theorem SameUsers.apply (h : SameUsers members members') (inv : Invocation) :
    SameUsers (inv.apply members) (inv.apply members') := fun user huser => by
  rw [mem_apply,mem_apply,h user huser]

end Members

/-- The condition on a step: the entry that the process copied still has the members of the
stored one when the file is opened for writing, and nothing fails behind the renaming. -/
def StepFits (cfg : Config) {ι : Type} (s : System ι) (i : ι) (o : Outcome) : Prop :=
  match (s.proc i).pc with
  | .openGroup => ∃ members, storedMembers cfg s.group.file = some members ∧ SameUsers members (s.proc i).tmpgr.members
  | .closeGroup => cfg.selinux = true → o.close.resetContext = true
  | .closeGshadow => (s.proc i).shadowgrp = true → (s.closingGshadow cfg i o).1 = true
  | _ => True

def RunFits (cfg : Config) {ι : Type} [DecidableEq ι] (inv : ι → Invocation) : System ι → List (ι × Outcome) → Prop
  | _, [] => True
  | s, e :: events => StepFits cfg s e.1 e.2 ∧ RunFits cfg inv (s.step cfg inv e.1 e.2) events

section Invariant
variable {ι : Type} (cfg : Config) (inv : ι → Invocation)

/-- Behind the commit of the group file. -/
def Pc.isCommitted : Pc → Bool
  | .unlockGroup | .closeGshadow | .unlockGshadow | .done => true
  | _ => false

/-- Between taking the lock of the group file and freeing it. -/
def Pc.isLocked : Pc → Bool
  | .lockGshadow | .openGroup | .openGshadow | .update | .closeGroup | .unlockGroup => true
  | _ => false

/-- The changed copy is ready to be stored. -/
structure Proc.Prepared (i : ι) (p : Proc) : Prop where
  name : p.gr.name = cfg.group
  text : p.gr.Text
  members : p.gr.members = (inv i).apply p.tmpgr.members

/-- The copy was made of the entry that is in the file. -/
def Proc.Current (file : Option Bytes) (p : Proc) : Prop :=
  ∃ members, storedMembers cfg file = some members ∧ SameUsers members p.tmpgr.members

/-- The database holds the file. -/
def Proc.Opened (file : Option Bytes) (p : Proc) : Prop :=
  ∃ l stale, readFile (groupOps cfg.maxMembers) file = some (l.map p.groups.record) ∧
    Loaded (groupOps cfg.maxMembers) p.groups l stale

/-- The database holds the file with the entry of the process in it. -/
def Proc.Updated (file : Option Bytes) (p : Proc) : Prop :=
  ∃ rs l stale, readFile (groupOps cfg.maxMembers) file = some rs ∧ Loaded (groupOps cfg.maxMembers) p.groups l stale ∧
    EditStep (groupOps cfg.maxMembers) rs (.update p.gr) (l.map p.groups.record) ∧ p.groups.changed = true ∧
    p.groups.isopen = true ∧ p.groups.readonly = false

/-- What is known of a process at its place. -/
def Proc.Ok (file : Option Bytes) (i : ι) (p : Proc) : Prop :=
  match p.pc with
  | .readGshadow => p.gr = p.tmpgr ∧ p.gr.name = cfg.group ∧ p.gr.Text
  | .lockGroup | .lockGshadow | .openGroup => p.Prepared cfg inv i
  | .openGshadow | .update => p.Prepared cfg inv i ∧ p.Current cfg file ∧ p.Opened cfg file
  | .closeGroup => p.Prepared cfg inv i ∧ p.Current cfg file ∧ p.Updated cfg file
  | _ => True

/-- The invocations in the order in which they were committed. -/
def applyAll (order : List ι) (members : List Bytes) : List Bytes :=
  order.foldl (fun members i => (inv i).apply members) members

/-- What holds after every step: the stored members are those that the committed runs give. -/
structure Serial (initial : Option Bytes) (s : System ι) (order : List ι) : Prop where
  nodup : order.Nodup
  committed : ∀ i, i ∈ order ↔ (s.proc i).pc.isCommitted = true
  locked : ∀ i, (s.proc i).pc.isLocked = true → s.groupLock = some i
  procs : ∀ i, (s.proc i).Ok cfg inv s.group.file i
  stored : ∀ members, storedMembers cfg initial = some members →
    ∃ members', storedMembers cfg s.group.file = some members' ∧ SameUsers members' (applyAll inv order members)

variable {cfg inv} {initial : Option Bytes} {s s' : System ι} {order : List ι} {i : ι} {o : Outcome} {p : Proc}

/-- What a process that does not hold the lock knows does not depend on the file. -/
theorem Proc.Ok.of_not_locked {file file' : Option Bytes} (h : p.Ok cfg inv file i) (hp : p.pc.isLocked = false) :
    p.Ok cfg inv file' i := by
  cases hpc : p.pc <;> simp only [Proc.Ok,hpc,Pc.isLocked] at h hp ⊢
  all_goals first | exact h | cases hp

private theorem readGshadow_spec (h : s.readGshadow cfg i o = some p) :
    p.pc = (s.proc i).pc ∧ p.tmpgr = (s.proc i).tmpgr ∧
      (p.gr = (s.proc i).gr ∨ p.gr = { (s.proc i).gr with passwd := shadowPasswdString }) := by
  unfold System.readGshadow at h
  simp only at h
  split at h
  · split at h
    · cases h
    · split at h
      · cases h
      · split at h
        · cases h
          exact ⟨rfl,rfl,.inl rfl⟩
        · cases h
          exact ⟨rfl,rfl,.inr rfl⟩
  · cases h
    exact ⟨rfl,rfl,.inl rfl⟩

private theorem changeEntries_spec {inv : Invocation} {shadowgrp : Bool} {gr gr' : Group} {sg sg' : Sgrp}
    (h : changeEntries inv shadowgrp gr sg = some (gr',sg')) : gr' = { gr with members := inv.apply gr.members } := by
  unfold changeEntries at h
  unfold Invocation.apply
  split at h
  · rename_i hadd
    cases h
    rw [if_pos hadd]
  · rename_i hdel
    split at h
    · cases h
      rw [if_neg hdel]
      split
      · rfl
      · rename_i hmem
        have hsame : delList gr.members inv.user = gr.members :=
          List.filter_eq_self.mpr fun member hm => by simpa using ne_of_mem_of_not_mem hm hmem
        rw [hsame]
    · cases h

private theorem apply_text {inv : Invocation} {gr : Group} (h : gr.Text) (huser : (0 : UInt8) ∉ inv.user) :
    Group.Text { gr with members := inv.apply gr.members } := by
  refine ⟨h.notNis,h.name,h.passwd,fun member hm => ?_⟩
  rw [mem_apply] at hm
  split at hm
  · rcases hm with hm | rfl
    · exact h.members member hm
    · exact huser
  · exact h.members member hm.1

/-- The entry takes the place of the stored one in the database. -/
theorem Proc.Opened.update {file : Option Bytes} (hopened : p.Opened cfg file) (hprepared : p.Prepared cfg inv i)
    (hcurrent : p.Current cfg file) {groups : Db Group}
    (hrun : commonioUpdate (groupOps cfg.maxMembers) p.groups p.gr o.memory = (true,groups)) :
    Proc.Updated cfg file { p with groups := groups } := by
  obtain ⟨l,stale,hread,hloaded⟩ := hopened
  obtain ⟨members,hstored,_⟩ := hcurrent
  rw [storedMembers,hread,Option.bind_some] at hstored
  obtain ⟨gr,hgr,_⟩ := Option.map_eq_some_iff.mp hstored
  have hedit := edit_of_update hrun
  have hlinked : EditIsLinked (groupOps cfg.maxMembers) p.groups (.update p.gr) := by
    have hname : (groupOps cfg.maxMembers).getname p.gr = cfg.group := hprepared.name
    refine .inl ?_
    rw [hname]
    exact hloaded.found hgr
  obtain ⟨l',stale',hloaded',_,hstep,hch⟩ := hloaded.edit hedit hlinked
  obtain ⟨hisopen,hwrite⟩ := edit_flags hedit
  exact ⟨_,l',stale',hread,hloaded',hstep,hch,hisopen,hwrite⟩

/-- What closing does to the stored members: nothing, or they are those of the entry. -/
theorem Proc.Updated.close (hupdated : (s.proc i).Updated cfg s.group.file) (hprepared : (s.proc i).Prepared cfg inv i)
    (hfits : cfg.selinux = true → o.close.resetContext = true) :
    ((s.closing cfg i o).1 = false ∧ (s.closing cfg i o).2.2.file = s.group.file) ∨
      ((s.closing cfg i o).1 = true ∧ ∃ members, storedMembers cfg (s.closing cfg i o).2.2.file = some members ∧
        SameUsers members (s.proc i).gr.members) := by
  obtain ⟨rs,l,stale,hread,hloaded,hstep,hch,hisopen,hwrite⟩ := hupdated
  cases hresult : (s.closing cfg i o).1 with
  | false =>
    refine .inl ⟨rfl,?_⟩
    rcases commonioClose_cases cfg.selinux (groupCloseOps cfg.maxMembers cfg.putgrent o.memory) o.close (s.proc i).groups
      (s.proc i).groupFile s.group hisopen hch hwrite with ⟨_,hfile⟩ | ⟨_,_,_,_,hok,_⟩
    · exact hfile
    · have hsel : (!cfg.selinux || o.close.resetContext) = true := by
        cases hs : cfg.selinux with
        | false => rfl
        | true => simpa using hfits hs
      rw [hsel] at hok
      rw [System.closing,hok] at hresult
      cases hresult
  | true =>
    refine .inr ⟨rfl,?_⟩
    have hunchanged := fun r hr => (readFile_isRead (groupOps_namesParts cfg.maxMembers) hread r hr).2
    obtain ⟨_,honly⟩ := hstep.changed hunchanged
    have htext : ∀ r ∈ l.map (s.proc i).groups.record, r.changed = true → ∀ gr ∈ r.eptr, gr.Text := fun r hr hch gr hgr => by
      cases (honly r hr hch).symm.trans hgr
      exact hprepared.text
    obtain ⟨hlines,hgood⟩ := hloaded.close (groupCloseOps_writesLines cfg.maxMembers cfg.putgrent o.memory) htext hisopen hch
      hwrite hresult
    have hstored : ∀ r ∈ l.map (s.proc i).groups.record, r.changed = true → ∃ gr, r.eptr = some gr ∧
        RereadsAs (groupOps cfg.maxMembers) SameGroup (groupLines cfg.maxMembers) gr := fun r hr hch =>
      ⟨_,honly r hr hch,hgood r hr hch _ (honly r hr hch)⟩
    obtain ⟨line,hnamed⟩ := hstep.named
    have hname : (groupOps cfg.maxMembers).getname (s.proc i).gr = cfg.group := hprepared.name
    rw [hname] at hnamed
    obtain ⟨r,gr,hr,hgr,hsame,_⟩ := named_written_single (groupOps_namesParts cfg.maxMembers) SameGroup.refl hloaded.read
      hstored hnamed rfl
    refine ⟨gr.members,?_,hsame.members⟩
    have hfile : readFile (groupOps cfg.maxMembers) (s.closing cfg i o).2.2.file = some ((groupOps cfg.maxMembers).merged
        (((l.map (s.proc i).groups.record).flatMap (writtenLines (groupLines cfg.maxMembers))).map
          (lineRecord (groupOps cfg.maxMembers)))) := by
      rw [readFile,System.closing,hlines]
      rfl
    rw [storedMembers,hfile,Option.bind_some,lookup_eq,hr]
    simp [hgr]

variable [DecidableEq ι]

/-- A step of one process that leaves the group file alone. -/
theorem Serial.frame (h : Serial cfg inv initial s order) (hproc : s'.proc = Function.update s.proc i p)
    (hfile : s'.group.file = s.group.file) (hcommitted : p.pc.isCommitted = (s.proc i).pc.isCommitted)
    (hothers : ∀ j, j ≠ i → (s.proc j).pc.isLocked = true → s'.groupLock = some j)
    (hlocked : p.pc.isLocked = true → s'.groupLock = some i) (hok : p.Ok cfg inv s.group.file i) :
    Serial cfg inv initial s' order where
  nodup := h.nodup
  committed j := by
    rw [h.committed,hproc]
    by_cases hj : j = i
    · subst hj
      rw [Function.update_self,hcommitted]
    · rw [Function.update_of_ne hj]
  locked j := by
    rw [hproc]
    by_cases hj : j = i
    · subst hj
      rw [Function.update_self]
      exact hlocked
    · rw [Function.update_of_ne hj]
      exact hothers j hj
  procs j := by
    rw [hproc,hfile]
    by_cases hj : j = i
    · subst hj
      rw [Function.update_self]
      exact hok
    · rw [Function.update_of_ne hj]
      exact h.procs j
  stored := by
    rw [hfile]
    exact h.stored

/-- A step that leaves the lock alone too. -/
theorem Serial.set (h : Serial cfg inv initial s order) (hcommitted : p.pc.isCommitted = (s.proc i).pc.isCommitted)
    (hlocked : p.pc.isLocked = true → (s.proc i).pc.isLocked = true) (hok : p.Ok cfg inv s.group.file i) :
    Serial cfg inv initial (s.set i p) order :=
  h.frame rfl rfl hcommitted (fun j _ => h.locked j) (fun hp => h.locked i (hlocked hp)) hok

theorem Serial.exit (h : Serial cfg inv initial s order) (hpc : (s.proc i).pc.isCommitted = false) (hp : p.pc = .exiting) :
    Serial cfg inv initial (s.set i p) order := by
  refine h.set (by rw [hpc,hp]; rfl) (fun hlocked => ?_) ?_
  · rw [hp] at hlocked
    cases hlocked
  · rw [Proc.Ok,hp]
    trivial

/-- A step that frees the lock of the process. -/
theorem Serial.free (h : Serial cfg inv initial s order) (hproc : s'.proc = Function.update s.proc i p)
    (hfile : s'.group.file = s.group.file) (hcommitted : p.pc.isCommitted = (s.proc i).pc.isCommitted)
    (hlock : s'.groupLock = (s.freeGroupLock i).groupLock) (hp : p.pc.isLocked = false) (hok : p.Ok cfg inv s.group.file i) :
    Serial cfg inv initial s' order := by
  refine h.frame hproc hfile hcommitted (fun j hj hlocked => ?_) (fun hlocked => ?_) hok
  · have hheld := h.locked j hlocked
    rw [hlock,System.freeGroupLock,if_neg (by rw [hheld]; exact fun he => hj (Option.some.inj he)),hheld]
  · rw [hp] at hlocked
    cases hlocked

/-- The entry that is copied is the stored one. -/
theorem Serial.readGroup (h : Serial cfg inv initial s order) (hpc : (s.proc i).pc = .start) :
    Serial cfg inv initial (s.readGroup cfg i o) order := by
  have hexit : (s.proc i).pc.isCommitted = false := by rw [hpc]; rfl
  unfold System.readGroup
  simp only
  split
  · exact h.exit hexit rfl
  · rename_i db hopen
    obtain ⟨l,stale,hread,hloaded,hisopen,_⟩ := commonioOpen_loaded (groupOps_namesParts cfg.maxMembers) hopen
    split
    · exact h.exit hexit rfl
    · rename_i tmpgr db' hlocate
      split
      · refine h.set (by rw [hpc]; rfl) nofun ?_
        have hfound := hloaded.locate hisopen cfg.group
        rw [hlocate] at hfound
        obtain ⟨r,hr,hgr,hname⟩ := lookup_eq_some hfound.symm
        have hisread := (readFile_isRead (groupOps_namesParts cfg.maxMembers) hread r hr).1
        exact ⟨rfl,hname,hisread.groupText hgr⟩
      · exact h.exit hexit rfl

theorem Serial.prepare (h : Serial cfg inv initial s order) (huser : (0 : UInt8) ∉ (inv i).user)
    (hpc : (s.proc i).pc = .readGshadow) : Serial cfg inv initial (s.prepare cfg inv i o) order := by
  have hexit : (s.proc i).pc.isCommitted = false := by rw [hpc]; rfl
  obtain ⟨hgr,hname,htext⟩ : (s.proc i).gr = (s.proc i).tmpgr ∧ (s.proc i).gr.name = cfg.group ∧ (s.proc i).gr.Text := by
    have hok := h.procs i
    rwa [Proc.Ok,hpc] at hok
  unfold System.prepare
  split
  · exact h.exit hexit rfl
  · rename_i p hp
    obtain ⟨_,htmp,hcopy⟩ := readGshadow_spec hp
    split
    · exact h.exit hexit rfl
    · split
      · exact h.exit hexit rfl
      · rename_i gr sg hchange
        obtain rfl := changeEntries_spec hchange
        cases o.ok with
        | false => exact h.exit hexit rfl
        | true =>
          have hcopied : p.gr.name = cfg.group ∧ p.gr.Text ∧ p.gr.members = p.tmpgr.members := by
            rw [htmp,← hgr]
            rcases hcopy with hcopy | hcopy
            · rw [hcopy]
              exact ⟨hname,htext,rfl⟩
            · rw [hcopy]
              exact ⟨hname,⟨htext.notNis,htext.name,(by decide : (0 : UInt8) ∉ shadowPasswdString),htext.members⟩,rfl⟩
          refine h.set (by rw [hpc]; rfl) nofun ?_
          exact ⟨hcopied.1,apply_text hcopied.2.1 huser,congrArg (inv i).apply hcopied.2.2⟩

theorem Serial.lockGroup (h : Serial cfg inv initial s order) (hpc : (s.proc i).pc = .lockGroup) :
    Serial cfg inv initial (s.lockGroup i o) order := by
  have hok : (s.proc i).Prepared cfg inv i := by
    have hok := h.procs i
    rwa [Proc.Ok,hpc] at hok
  unfold System.lockGroup
  simp only
  split
  · rename_i hfree
    have hnone : s.groupLock = none := by simpa using (Bool.and_eq_true_iff.mp hfree).2
    refine h.frame rfl rfl ?_ (fun j _ hlocked => ?_) (fun _ => rfl) ?_
    · cases hsh : (s.proc i).shadowgrp <;> simp [hpc,Pc.isCommitted]
    · rw [h.locked j hlocked] at hnone
      cases hnone
    · cases hsh : (s.proc i).shadowgrp <;> exact ⟨hok.name,hok.text,hok.members⟩
  · exact h.exit (by rw [hpc]; rfl) rfl

theorem Serial.lockGshadow (h : Serial cfg inv initial s order) (hpc : (s.proc i).pc = .lockGshadow) :
    Serial cfg inv initial (s.lockGshadow i o) order := by
  have hok : (s.proc i).Prepared cfg inv i := by
    have hok := h.procs i
    rwa [Proc.Ok,hpc] at hok
  have hheld : s.groupLock = some i := h.locked i (by rw [hpc]; rfl)
  unfold System.lockGshadow
  simp only
  split
  · exact h.frame rfl rfl (by rw [hpc]; rfl) (fun j _ => h.locked j) (fun _ => hheld) ⟨hok.name,hok.text,hok.members⟩
  · exact h.exit (by rw [hpc]; rfl) rfl

theorem Serial.openGroup (h : Serial cfg inv initial s order) (hpc : (s.proc i).pc = .openGroup)
    (hcurrent : (s.proc i).Current cfg s.group.file) : Serial cfg inv initial (s.openGroup cfg i o) order := by
  have hok : (s.proc i).Prepared cfg inv i := by
    have hok := h.procs i
    rwa [Proc.Ok,hpc] at hok
  unfold System.openGroup
  simp only
  split
  · exact h.exit (by rw [hpc]; rfl) rfl
  · rename_i db hopen
    obtain ⟨l,stale,hread,hloaded,_⟩ := commonioOpen_loaded (groupOps_namesParts cfg.maxMembers) hopen
    refine h.set ?_ (fun _ => by rw [hpc]; rfl) ?_
    · cases hsh : (s.proc i).shadowgrp <;> simp [hpc,Pc.isCommitted]
    · cases hsh : (s.proc i).shadowgrp <;>
        exact ⟨⟨hok.name,hok.text,hok.members⟩,hcurrent,l,stale,hread,hloaded⟩

theorem Serial.openGshadow (h : Serial cfg inv initial s order) (hpc : (s.proc i).pc = .openGshadow) :
    Serial cfg inv initial (s.openGshadow i o) order := by
  obtain ⟨hprepared,hcurrent,hopened⟩ : (s.proc i).Prepared cfg inv i ∧ (s.proc i).Current cfg s.group.file ∧
      (s.proc i).Opened cfg s.group.file := by
    have hok := h.procs i
    rwa [Proc.Ok,hpc] at hok
  unfold System.openGshadow
  simp only
  split
  · exact h.exit (by rw [hpc]; rfl) rfl
  · exact h.set (by rw [hpc]; rfl) (fun _ => by rw [hpc]; rfl)
      ⟨⟨hprepared.name,hprepared.text,hprepared.members⟩,hcurrent,hopened⟩

theorem Serial.update (h : Serial cfg inv initial s order) (hpc : (s.proc i).pc = .update) :
    Serial cfg inv initial (s.updateGroup cfg i o) order := by
  obtain ⟨hprepared,hcurrent,hopened⟩ : (s.proc i).Prepared cfg inv i ∧ (s.proc i).Current cfg s.group.file ∧
      (s.proc i).Opened cfg s.group.file := by
    have hok := h.procs i
    rwa [Proc.Ok,hpc] at hok
  unfold System.updateGroup
  simp only
  split
  · exact h.exit (by rw [hpc]; rfl) rfl
  · rename_i groups hrun
    have hupdated := hopened.update hprepared hcurrent hrun
    have hnext : ∀ gshadows, Serial cfg inv initial
        (s.set i { s.proc i with pc := .closeGroup, groups := groups, gshadows := gshadows }) order := fun gshadows =>
      h.set (by rw [hpc]; rfl) (fun _ => by rw [hpc]; rfl)
        ⟨⟨hprepared.name,hprepared.text,hprepared.members⟩,hcurrent,hupdated⟩
    split
    · split
      · exact h.exit (by rw [hpc]; rfl) rfl
      · exact hnext _
    · exact hnext (s.proc i).gshadows

/-- The commit puts the process behind those that were committed before. -/
theorem Serial.closeGroup (h : Serial cfg inv initial s order) (hpc : (s.proc i).pc = .closeGroup)
    (hfits : cfg.selinux = true → o.close.resetContext = true) :
    ∃ order', Serial cfg inv initial (s.closeGroup cfg i o) order' := by
  obtain ⟨hprepared,⟨members,hfile,hcurrent⟩,hupdated⟩ : (s.proc i).Prepared cfg inv i ∧
      (s.proc i).Current cfg s.group.file ∧ (s.proc i).Updated cfg s.group.file := by
    have hok := h.procs i
    rwa [Proc.Ok,hpc] at hok
  have hheld : s.groupLock = some i := h.locked i (by rw [hpc]; rfl)
  have hnew : i ∉ order := fun hm => by
    have hcommitted := (h.committed i).mp hm
    rw [hpc] at hcommitted
    cases hcommitted
  rcases hupdated.close hprepared hfits with ⟨hresult,hsame⟩ | ⟨hresult,members',hfile',hmembers'⟩
  · refine ⟨order,h.frame rfl hsame ?_ (fun j _ => h.locked j) (fun _ => hheld) ?_⟩
    · simp [hresult,hpc,Pc.isCommitted]
    · simp [Proc.Ok,hresult]
  · have hproc : ∀ j, ((s.closeGroup cfg i o).proc j) = if j = i then
        { s.proc i with pc := .unlockGroup, groups := (s.closing cfg i o).2.1 } else s.proc j := fun j => by
      by_cases hj : j = i
      · subst hj
        simp [System.closeGroup,System.set,hresult]
      · simp [System.closeGroup,System.set,hj]
    refine ⟨order ++ [i],?_,fun j => ?_,fun j hlocked => ?_,fun j => ?_,fun initialMembers hinitial => ?_⟩
    · exact List.nodup_append.mpr ⟨h.nodup,List.nodup_singleton i,fun a ha b hb hab => by
        rw [List.mem_singleton.mp hb] at hab
        exact hnew (hab ▸ ha)⟩
    · rw [List.mem_append,List.mem_singleton,hproc]
      by_cases hj : j = i
      · rw [if_pos hj]
        simp [hj,Pc.isCommitted]
      · rw [if_neg hj,h.committed j]
        simp [hj]
    · rw [hproc] at hlocked
      by_cases hj : j = i
      · rw [hj]
        exact hheld
      · rw [if_neg hj] at hlocked
        exact h.locked j hlocked
    · rw [hproc]
      by_cases hj : j = i
      · rw [if_pos hj]
        trivial
      · rw [if_neg hj]
        refine (h.procs j).of_not_locked (Bool.eq_false_iff.mpr fun hlocked => hj ?_)
        exact Option.some.inj ((h.locked j hlocked).symm.trans hheld)
    · obtain ⟨before,hbefore,hserial⟩ := h.stored initialMembers hinitial
      cases hbefore.symm.trans hfile
      refine ⟨members',hfile',hmembers'.trans ?_⟩
      rw [hprepared.members,applyAll,List.foldl_append]
      exact (hcurrent.symm.trans hserial).apply (inv i)

/-- Behind its commit nothing fails in a run that fits. -/
theorem Serial.closeGshadow (h : Serial cfg inv initial s order) (hpc : (s.proc i).pc = .closeGshadow)
    (hfits : (s.proc i).shadowgrp = true → (s.closingGshadow cfg i o).1 = true) :
    Serial cfg inv initial (s.closeGshadow cfg i o) order := by
  unfold System.closeGshadow
  split
  · rename_i hsh
    refine h.frame rfl rfl ?_ (fun j _ => h.locked j) (fun hlocked => ?_) ?_
    · simp [hfits hsh,hpc,Pc.isCommitted]
    · simp [hfits hsh,Pc.isLocked] at hlocked
    · simp [Proc.Ok,hfits hsh]
  · exact h.set (by rw [hpc]; rfl) nofun trivial

theorem Serial.step (h : Serial cfg inv initial s order) (huser : (0 : UInt8) ∉ (inv i).user) (hfits : StepFits cfg s i o) :
    ∃ order', Serial cfg inv initial (s.step cfg inv i o) order' := by
  cases hpc : (s.proc i).pc <;> simp only [System.step,StepFits,hpc] at hfits ⊢
  case start => exact ⟨order,h.readGroup hpc⟩
  case readGshadow => exact ⟨order,h.prepare huser hpc⟩
  case lockGroup => exact ⟨order,h.lockGroup hpc⟩
  case lockGshadow => exact ⟨order,h.lockGshadow hpc⟩
  case openGroup => exact ⟨order,h.openGroup hpc hfits⟩
  case openGshadow => exact ⟨order,h.openGshadow hpc⟩
  case update => exact ⟨order,h.update hpc⟩
  case closeGroup => exact h.closeGroup hpc hfits
  case unlockGroup => exact ⟨order,h.free rfl rfl (by rw [hpc]; rfl) rfl rfl trivial⟩
  case closeGshadow => exact ⟨order,h.closeGshadow hpc hfits⟩
  case unlockGshadow =>
    exact ⟨order,h.frame rfl rfl (by rw [hpc]; rfl) (fun j _ => h.locked j) nofun trivial⟩
  case done => exact ⟨order,h⟩
  case exiting => exact ⟨order,h.free rfl rfl (by rw [hpc]; rfl) rfl rfl trivial⟩
  case failed => exact ⟨order,h⟩

theorem Serial.run (h : Serial cfg inv initial s order) (huser : ∀ i, (0 : UInt8) ∉ (inv i).user)
    {events : List (ι × Outcome)} (hfits : RunFits cfg inv s events) :
    ∃ order', Serial cfg inv initial (s.run cfg inv events) order' := by
  induction events generalizing s order with
  | nil => exact ⟨order,h⟩
  | cons e events ih =>
    obtain ⟨order',h'⟩ := h.step (huser e.1) hfits.1
    exact ih h' hfits.2

/-- Where every copied entry is still current when it is stored, and nothing fails behind a
commit, the runs that succeed give the stored members, one after the other. -/
theorem runs_keep_members (cfg : Config) (inv : ι → Invocation) (huser : ∀ i, (0 : UInt8) ∉ (inv i).user) (s : System ι)
    (hstart : ∀ i, (s.proc i).pc = .start) (events : List (ι × Outcome)) (hfits : RunFits cfg inv s events)
    (hended : ∀ i, ((s.run cfg inv events).proc i).pc = .done ∨ ((s.run cfg inv events).proc i).pc = .failed) :
    ∃ order : List ι, order.Nodup ∧ (∀ i, i ∈ order ↔ ((s.run cfg inv events).proc i).pc = .done) ∧
      ∀ members, storedMembers cfg s.group.file = some members →
        ∃ members', storedMembers cfg (s.run cfg inv events).group.file = some members' ∧
          SameUsers members' (order.foldl (fun members i => (inv i).apply members) members) := by
  have hinitial : Serial cfg inv s.group.file s [] := by
    refine ⟨List.nodup_nil,fun i => ?_,fun i hlocked => ?_,fun i => ?_,fun members hmembers => ?_⟩
    · simp [hstart i,Pc.isCommitted]
    · rw [hstart i] at hlocked
      cases hlocked
    · rw [Proc.Ok,hstart i]
      trivial
    · exact ⟨members,hmembers,SameUsers.refl members⟩
  obtain ⟨order,h⟩ := hinitial.run huser hfits
  refine ⟨order,h.nodup,fun i => ?_,h.stored⟩
  rw [h.committed i]
  rcases hended i with hi | hi <;> simp [hi,Pc.isCommitted]

end Invariant

section Runs

instance (members members' : List Bytes) : Decidable (SameUsers members members') :=
  decidable_of_iff ((∀ user ∈ members, user ≠ [] → user ∈ members') ∧ ∀ user ∈ members', user ≠ [] → user ∈ members)
    ⟨fun h user huser => ⟨fun hm => h.1 user hm huser,fun hm => h.2 user hm huser⟩,
      fun h => ⟨fun user hm huser => (h user huser).mp hm,fun user hm huser => (h user huser).mpr hm⟩⟩

instance (cfg : Config) (file : Option Bytes) (p : Proc) : Decidable (p.Current cfg file) :=
  match h : storedMembers cfg file with
  | some members => decidable_of_iff (SameUsers members p.tmpgr.members)
      ⟨fun hs => ⟨members,h,hs⟩,fun ⟨_,h',hs⟩ => Option.some.inj (h.symm.trans h') ▸ hs⟩
  | none => isFalse fun ⟨_,h',_⟩ => nomatch h.symm.trans h'

instance (cfg : Config) {ι : Type} (s : System ι) (i : ι) (o : Outcome) : Decidable (StepFits cfg s i o) :=
  match h : (s.proc i).pc with
  | .openGroup => decidable_of_iff ((s.proc i).Current cfg s.group.file) (by rw [StepFits,h]; rfl)
  | .closeGroup => decidable_of_iff (cfg.selinux = true → o.close.resetContext = true) (by rw [StepFits,h])
  | .closeGshadow => decidable_of_iff ((s.proc i).shadowgrp = true → (s.closingGshadow cfg i o).1 = true) (by rw [StepFits,h])
  | .start | .readGshadow | .lockGroup | .lockGshadow | .openGshadow | .update | .unlockGroup | .unlockGshadow | .done
  | .exiting | .failed => isTrue (by rw [StepFits,h]; trivial)

instance RunFits.decidable (cfg : Config) {ι : Type} [DecidableEq ι] (inv : ι → Invocation) :
    (s : System ι) → (events : List (ι × Outcome)) → Decidable (RunFits cfg inv s events)
  | _, [] => isTrue trivial
  | s, e :: events =>
    have := RunFits.decidable cfg inv (s.step cfg inv e.1 e.2) events
    inferInstanceAs (Decidable (_ ∧ _))

/-- A user that some run adds is a member where all runs add users. -/
theorem mem_applyAll {ι : Type} {inv : ι → Invocation} (hadd : ∀ i, (inv i).add = true) {order : List ι} {members : List Bytes}
    {i : ι} (hi : i ∈ order) : (inv i).user ∈ applyAll inv order members := by
  have hkeep : ∀ (order : List ι) (members : List Bytes), (inv i).user ∈ members → (inv i).user ∈ applyAll inv order members := by
    intro order
    induction order with
    | nil => exact fun _ hm => hm
    | cons j order ih => exact fun members hm => ih _ (by rw [mem_apply,if_pos (hadd j)]; exact .inl hm)
  induction order generalizing members with
  | nil => cases hi
  | cons j order ih =>
    rcases List.mem_cons.mp hi with rfl | hi
    · exact hkeep order _ (by rw [mem_apply,if_pos (hadd i)]; exact .inr rfl)
    · exact ih hi

def plainConfig : Config := ⟨0,plainPutgrent,false,false,ascii "g"⟩

def addUsers (i : Bool) : Invocation := ⟨if i then ascii "v" else ascii "u",true,true,ascii "root"⟩

def idleProc : Proc :=
  ⟨.start,false,⟨[],[],0,[]⟩,⟨[],[],0,[]⟩,⟨[],[],[],[]⟩,Db.initial (fun _ => ⟨none,none,none,none,false⟩) 0 false,
    Db.initial (fun _ => ⟨none,none,none,none,false⟩) 0 false,none,none⟩

def emptyGroup : System Bool := ⟨⟨some (ascii "g:x:5:\n"),none⟩,⟨none,none⟩,none,none,fun _ => idleProc⟩

/-- Steps of one process in which nothing fails. -/
def steps (n : Nat) (i : Bool) : List (Bool × Outcome) := List.replicate n (i,⟨true,true,allSteps⟩)

theorem runs_keep_members_sequential :
    ∃ order : List Bool, order.Nodup ∧
      (∀ i, i ∈ order ↔ ((emptyGroup.run plainConfig addUsers (steps 8 false ++ steps 8 true)).proc i).pc = .done) ∧
      ∀ members, storedMembers plainConfig emptyGroup.group.file = some members → ∃ members',
        storedMembers plainConfig (emptyGroup.run plainConfig addUsers (steps 8 false ++ steps 8 true)).group.file = some members' ∧
          SameUsers members' (order.foldl (fun members i => (addUsers i).apply members) members) :=
  runs_keep_members plainConfig addUsers (by decide) emptyGroup (fun _ => rfl) (steps 8 false ++ steps 8 true)
    (by decide +kernel) (by decide +kernel)

/-- The first process reads the entry, the second one runs as a whole, and the first one goes
on: both succeed, and the user of the second is lost. -/
theorem stale_copy_loses_a_member :
    let final := emptyGroup.run plainConfig addUsers (steps 1 false ++ steps 8 true ++ steps 7 false)
    (∀ i, (final.proc i).pc = .done) ∧ storedMembers plainConfig emptyGroup.group.file = some [] ∧
      ¬ ∃ order : List Bool, order.Nodup ∧ (∀ i, i ∈ order ↔ (final.proc i).pc = .done) ∧
        ∃ members', storedMembers plainConfig final.group.file = some members' ∧
          SameUsers members' (order.foldl (fun members i => (addUsers i).apply members) []) := by
  have hdone : ∀ i, ((emptyGroup.run plainConfig addUsers (steps 1 false ++ steps 8 true ++ steps 7 false)).proc i).pc =
      .done := by decide +kernel
  refine ⟨hdone,by decide +kernel,?_⟩
  rintro ⟨order,_,horder,members',hstored,hsame⟩
  have hfinal : storedMembers plainConfig (emptyGroup.run plainConfig addUsers
      (steps 1 false ++ steps 8 true ++ steps 7 false)).group.file = some [ascii "u"] := by decide +kernel
  cases hfinal.symm.trans hstored
  have hadded : ascii "v" ∈ order.foldl (fun members i => (addUsers i).apply members) [] :=
    mem_applyAll (i := true) (fun _ => rfl) ((horder true).mpr (hdone true))
  exact absurd ((hsame (ascii "v") (by decide)).mpr hadded) (by decide)

end Runs

end UserDb.Programs
