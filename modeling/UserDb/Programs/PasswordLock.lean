import UserDb.Programs.Conversion

/-! `passwd -l`, `passwd -u`, `usermod -L` and `usermod -U`: two copies of the code that marks a
password, and two rules for the file in which it is marked. -/
namespace UserDb.Programs
open UserDb.Base UserDb.Commonio

/-- The mark of a locked password. -/
def exclamation : UInt8 := 33

def startsLocked (cp : Bytes) : Bool := cp.head? == some exclamation

/-- The password as `passwd` stores it; none where unlocking would leave no password. -/
def updateCryptPw (lflg uflg : Bool) (cp : Bytes) : Option Bytes := do
  let cp ← if uflg && startsLocked cp then (if cp.tail.isEmpty then none else some cp.tail) else some cp
  return if lflg && !startsLocked cp then exclamation :: cp else cp

/-- The password as `usermod` stores it. -/
def newPwPasswd (Lflg Uflg : Bool) (pwPass : Bytes) : Option Bytes :=
  if Lflg && !startsLocked pwPass then some (exclamation :: pwPass)
  else if Uflg && startsLocked pwPass then (if pwPass.tail.isEmpty then none else some pwPass.tail)
  else some pwPass

/-- The surroundings of a run: those of the conversions, the copies of both entries, and whether
`passwd` also stores the day of the change. -/
structure LockEnv extends Env where
  dupPasswd : Bool
  dupShadow : Bool
  updateAge : Bool
  defs : LoginDefs

section Programs
variable (st : Statuses) (tools : Tools) (env : LockEnv) (user : Bytes)

def spwFilePresent (files : Files) : Bool := env.forceShadow || files.shadow.file.isSome

/-- The shadow is opened where there is one. -/
def openAccounts (files : Files) : Except Exit (Db Passwd × Option (Db Spwd)) :=
  if spwFilePresent env files then
    match openBoth st env.toEnv tools.passwd tools.shadow .rdwr true files with
    | .error e => .error e
    | .ok (passwds,shadows) => .ok (passwds,some shadows)
  else if !env.mainLock then .error (.status st.busy)
  else
    match openFirst tools.passwd .rdwr true files.main.file env.mainRead env.mainMemory with
    | (false,_) => .error (.status st.mainOpen)
    | (true,passwds) => .ok (passwds,none)

def closePasswd (files : Files) (passwds : Db Passwd) : Except Exit Unit × Files :=
  let closed := commonioClose env.selinux tools.passwd.closeOps env.mainSteps passwds files.main.file files.main
  (if closed.1 then .ok () else .error (.status st.failure),{ files with main := closed.2.2 })

/-- The shadow is closed first. -/
def closeAccounts (files : Files) (passwds : Db Passwd) : Option (Db Spwd) → Except Exit Unit × Files
  | none => closePasswd st tools env files passwds
  | some shadows =>
    let closed := commonioClose env.selinux tools.shadow.closeOps env.shadowSteps shadows files.shadow.file files.shadow
    let files := { files with shadow := closed.2.2 }
    if !closed.1 then (.error (.status st.failure),files) else closePasswd st tools env files passwds

/-- How a run ended, and the files that it leaves. -/
def runOnAccounts (update : Db Passwd → Option (Db Spwd) → Except Exit (Db Passwd × Option (Db Spwd))) (files : Files) :
    Except Exit Unit × Files :=
  match openAccounts st tools env files with
  | .error e => (.error e,files)
  | .ok (passwds,shadows) =>
    match update passwds shadows with
    | .error e => (.error e,files)
    | .ok (passwds,shadows) => closeAccounts st tools env files passwds shadows

def updateNoshadow (lflg uflg : Bool) (passwds : Db Passwd) : Except Exit (Db Passwd) :=
  match commonioLocate tools.passwd.ops passwds user with
  | (none,_) => .error (.status 1)
  | (some pw,passwds) =>
    if !env.dupPasswd then .error (.status 3)
    else
      match updateCryptPw lflg uflg pw.passwd with
      | none => .error (.status 3)
      | some cp =>
        match commonioUpdate tools.passwd.ops passwds { pw with passwd := cp } (env.memory 0).1 with
        | (false,_) => .error (.status 3)
        | (true,passwds) => .ok passwds

/-- `passwd` changes the shadow entry where there is one, and else the public entry. -/
def updateShadow (lflg uflg : Bool) (passwds : Db Passwd) (shadows : Option (Db Spwd)) :
    Except Exit (Db Passwd × Option (Db Spwd)) :=
  match commonioLocate tools.passwd.ops passwds user with
  | (none,_) => .error (.status 1)
  | (some _,passwds) =>
    match shadows with
    | none => (updateNoshadow tools env user lflg uflg passwds).map fun passwds => (passwds,none)
    | some shadows =>
      match commonioLocate tools.shadow.ops shadows user with
      | (none,shadows) => (updateNoshadow tools env user lflg uflg passwds).map fun passwds => (passwds,some shadows)
      | (some sp,shadows) =>
        if !env.dupShadow then .error (.status 3)
        else
          match updateCryptPw lflg uflg sp.pwdp with
          | none => .error (.status 3)
          | some cp =>
            let nsp := { sp with pwdp := cp, lstchg := if env.updateAge then env.defs.lstchg else sp.lstchg }
            match commonioUpdate tools.shadow.ops shadows nsp (env.memory 0).2 with
            | (false,_) => .error (.status 3)
            | (true,shadows) => .ok (passwds,some shadows)

/-- `usermod` changes the public entry where it may hold the password, and the shadow entry too. -/
def usrUpdate (Lflg Uflg isShadowPwd : Bool) (passwds : Db Passwd) (shadows : Option (Db Spwd)) :
    Except Exit (Db Passwd × Option (Db Spwd)) :=
  match commonioLocate tools.passwd.ops passwds user with
  | (none,_) => .error (.status 6)
  | (some pw,passwds) =>
    match if !isShadowPwd || pw.passwd != shadowPasswdString then newPwPasswd Lflg Uflg pw.passwd else some pw.passwd with
    | none => .error (.status 20)
    | some passwd =>
      let pwent := { pw with passwd := passwd }
      match shadows with
      | none =>
        match commonioUpdate tools.passwd.ops passwds pwent (env.memory 0).1 with
        | (false,_) => .error (.status 1)
        | (true,passwds) => .ok (passwds,none)
      | some shadows =>
        match commonioLocate tools.shadow.ops shadows user with
        | (none,shadows) =>
          match commonioUpdate tools.passwd.ops passwds pwent (env.memory 0).1 with
          | (false,_) => .error (.status 1)
          | (true,passwds) => .ok (passwds,some shadows)
        | (some sp,shadows) =>
          match newPwPasswd Lflg Uflg sp.pwdp with
          | none => .error (.status 20)
          | some pwdp =>
            match commonioUpdate tools.passwd.ops passwds pwent (env.memory 0).1 with
            | (false,_) => .error (.status 1)
            | (true,passwds) =>
              match commonioUpdate tools.shadow.ops shadows { sp with pwdp := pwdp } (env.memory 0).2 with
              | (false,_) => .error (.status 1)
              | (true,shadows) => .ok (passwds,some shadows)

/-- The two programs that lock and unlock. -/
inductive Locker where
  | passwd | usermod
  deriving DecidableEq

/-- `passwd -l` and `usermod -L`, or `passwd -u` and `usermod -U`. -/
def Locker.run (locker : Locker) (lock : Bool) (files : Files) : Except Exit Unit × Files :=
  match locker with
  | .passwd => runOnAccounts ⟨5,4,3,3,statuses_pos⟩ tools env (updateShadow tools env user lock !lock) files
  | .usermod => runOnAccounts ⟨1,1,1,1,by decide⟩ tools env (usrUpdate tools env user lock (!lock) (spwFilePresent env files)) files

end Programs

/-- The password that is to count after locking or unlocking. -/
def marked (lock : Bool) (cp : Bytes) : Bytes :=
  if lock then (if startsLocked cp then cp else exclamation :: cp)
  else if startsLocked cp then cp.tail
  else cp

/-- The password in force is marked, no password gets lost, and nobody else is touched. -/
structure LockLaw (tools : Tools) (user : Bytes) (lock : Bool) (before after : Files) : Prop where
  password : tools.accounts.password after user = (tools.accounts.password before user).map (marked lock)
  nonempty : ∀ cp ∈ tools.accounts.password before user, cp ≠ [] → tools.accounts.password after user ≠ some []
  passwds : ∀ name, name ≠ user → fileEntry passwdOps after.main.file name = fileEntry passwdOps before.main.file name
  shadows : ∀ name, name ≠ user → fileEntry shadowOps after.shadow.file name = fileEntry shadowOps before.shadow.file name

/-- Where a program gets at the password in force. `passwd` leaves the public entry alone when there is a shadow
entry; `usermod` leaves it alone when it refers to a shadow entry that may not be there, and takes the mark from an
entry that refers to one behind the mark. -/
def Locker.Reaches (locker : Locker) (lock present : Bool) (pw : Passwd) (sp : Option Spwd) : Prop :=
  match locker, lock with
  | .passwd, lock => pw.passwd = shadowPasswdString ∨ sp = none ∨ startsLocked pw.passwd = lock
  | .usermod, true => ¬ (present = true ∧ pw.passwd = shadowPasswdString ∧ sp = none)
  | .usermod, false => pw.passwd = exclamation :: shadowPasswdString → ∀ s ∈ sp, marked false s.pwdp = shadowPasswdString

section Marking
variable {lock : Bool} {cp cp' : Bytes}

/-- A password that was marked, and did not get lost by it. -/
def Marks (lock : Bool) (cp cp' : Bytes) : Prop := cp' = marked lock cp ∧ (cp ≠ [] → cp' ≠ [])

/-- The two copies of the code agree. -/
theorem newPwPasswd_eq (lock : Bool) (cp : Bytes) : newPwPasswd lock (!lock) cp = updateCryptPw lock (!lock) cp := by
  cases lock with
  | true => cases hs : startsLocked cp <;> simp [newPwPasswd,updateCryptPw,hs]
  | false => cases hs : startsLocked cp <;> cases htail : cp.tail <;> simp [newPwPasswd,updateCryptPw,hs,htail]

theorem updateCryptPw_marks (h : updateCryptPw lock (!lock) cp = some cp') : Marks lock cp cp' := by
  unfold updateCryptPw at h
  cases lock with
  | true =>
    cases hs : startsLocked cp with
    | true =>
      obtain rfl : cp = cp' := by simpa [hs] using h
      exact ⟨by simp [marked,hs],id⟩
    | false =>
      obtain rfl : exclamation :: cp = cp' := by simpa [hs] using h
      exact ⟨by simp [marked,hs],fun _ => List.cons_ne_nil _ _⟩
  | false =>
    cases hs : startsLocked cp with
    | true =>
      cases htail : cp.tail with
      | nil => simp [hs,htail] at h
      | cons b bs =>
        obtain rfl : b :: bs = cp' := by simpa [hs,htail] using h
        exact ⟨by simp [marked,hs,htail],fun _ => List.cons_ne_nil _ _⟩
    | false =>
      obtain rfl : cp = cp' := by simpa [hs] using h
      exact ⟨by simp [marked,hs],id⟩

private theorem startsLocked_cons (cp : Bytes) : startsLocked (exclamation :: cp) = true := rfl

theorem eq_cons_of_startsLocked (h : startsLocked cp = true) : cp = exclamation :: cp.tail := by
  cases cp with
  | nil => cases h
  | cons b bs =>
    have hb : b = exclamation := by simpa [startsLocked] using h
    rw [hb,List.tail_cons]

theorem startsLocked_marked_true (cp : Bytes) : startsLocked (marked true cp) = true := by
  cases hs : startsLocked cp with
  | true => rw [marked,if_pos rfl,hs,if_pos rfl,hs]
  | false => rw [marked,if_pos rfl,hs,if_neg Bool.false_ne_true,startsLocked_cons]

/-- A password stays as it is where it is as wanted. -/
theorem marked_eq_self : marked lock cp = cp ↔ startsLocked cp = lock := by
  cases lock with
  | true =>
    constructor
    · intro h
      rw [← h]
      exact startsLocked_marked_true cp
    · intro h
      rw [marked,if_pos rfl,h,if_pos rfl]
  | false =>
    cases hs : startsLocked cp with
    | true =>
      rw [marked,if_neg Bool.false_ne_true,hs,if_pos rfl]
      refine iff_of_false ?_ Bool.noConfusion
      intro htail
      have hlength := congrArg List.length (eq_cons_of_startsLocked hs)
      rw [htail,List.length_cons] at hlength
      omega
    | false =>
      rw [marked,if_neg Bool.false_ne_true,hs,if_neg Bool.false_ne_true]
      exact iff_of_true rfl rfl

/-- The mark in front of a reference to the shadow, and the reference itself. -/
theorem marked_false_eq_x : marked false cp = shadowPasswdString ↔ cp = shadowPasswdString ∨ cp = exclamation :: shadowPasswdString := by
  cases hs : startsLocked cp with
  | true =>
    have hcp := eq_cons_of_startsLocked hs
    rw [marked,if_neg Bool.false_ne_true,hs,if_pos rfl]
    constructor
    · intro htail
      rw [htail] at hcp
      exact .inr hcp
    · rintro (rfl | rfl)
      · cases hs
      · rfl
  | false =>
    rw [marked,if_neg Bool.false_ne_true,hs,if_neg Bool.false_ne_true]
    constructor
    · exact .inl
    · rintro (rfl | rfl)
      · rfl
      · cases hs

/-- Unlocking takes off the mark that locking put in front. -/
theorem marked_marked (h : startsLocked cp = false) : marked false (marked true cp) = cp := by
  rw [marked,if_neg Bool.false_ne_true,startsLocked_marked_true,if_pos rfl,marked,if_pos rfl,h,if_neg Bool.false_ne_true,
    List.tail_cons]

end Marking

section Entries
variable {lock present : Bool} {pw pw' : Passwd} {sp sp' : Option Spwd}

/-- What happens to a shadow entry that both programs mark where there is one. -/
def MarksShadow (lock : Bool) : Option Spwd → Option Spwd → Prop
  | none, sp' => sp' = none
  | some s, sp' => ∃ s', sp' = some s' ∧ Marks lock s.pwdp s'.pwdp

/-- What a program makes of the two entries of the user. -/
def Locker.Does (locker : Locker) (lock present : Bool) (pw pw' : Passwd) (sp sp' : Option Spwd) : Prop :=
  MarksShadow lock sp sp' ∧
    match locker with
    | .passwd => if sp = none then Marks lock pw.passwd pw'.passwd else pw' = pw
    | .usermod => if present = true ∧ pw.passwd = shadowPasswdString then pw' = pw else Marks lock pw.passwd pw'.passwd

/-- The password in force. -/
def inForce (pw : Passwd) (sp : Option Spwd) : Bytes :=
  if pw.passwd = shadowPasswdString then (sp.map Spwd.pwdp).getD pw.passwd else pw.passwd

theorem inForce_none (pw : Passwd) : inForce pw none = pw.passwd := ite_self _

theorem inForce_x (s : Spwd) (h : pw.passwd = shadowPasswdString) : inForce pw (some s) = s.pwdp := if_pos h

theorem inForce_plain (h : pw.passwd ≠ shadowPasswdString) : inForce pw sp = pw.passwd := if_neg h

/-- `passwd` marks the password in force where it reaches it, and only there. -/
theorem passwd_marks_iff (h : Locker.passwd.Does lock present pw pw' sp sp') :
    Marks lock (inForce pw sp) (inForce pw' sp') ↔ Locker.passwd.Reaches lock present pw sp := by
  obtain ⟨hshadow,hmain⟩ := h
  cases sp with
  | none =>
    obtain rfl : sp' = none := hshadow
    rw [inForce_none,inForce_none]
    exact iff_of_true (by simpa using hmain) (.inr (.inl rfl))
  | some s =>
    obtain ⟨s',rfl,hmarks⟩ := hshadow
    obtain rfl : pw' = pw := by simpa using hmain
    by_cases hx : pw'.passwd = shadowPasswdString
    · rw [inForce_x s hx,inForce_x s' hx]
      exact iff_of_true hmarks (.inl hx)
    · rw [inForce_plain hx,inForce_plain hx]
      constructor
      · intro hself
        exact .inr (.inr (marked_eq_self.mp hself.1.symm))
      · rintro (hx' | hnone | hstarts)
        · exact absurd hx' hx
        · cases hnone
        · exact ⟨(marked_eq_self.mpr hstarts).symm,id⟩

private theorem usermod_marks_iff (hpresent : present = false → sp = none) (h : Locker.usermod.Does lock present pw pw' sp sp') :
    Marks lock (inForce pw sp) (inForce pw' sp') ↔ Locker.usermod.Reaches lock present pw sp := by
  obtain ⟨hshadow,hmain⟩ := h
  simp only at hmain
  cases sp with
  | none =>
    obtain rfl : sp' = none := hshadow
    rw [inForce_none,inForce_none]
    split at hmain
    · -- the reference to a shadow entry that is not there
      rename_i hreference
      obtain rfl := hmain
      have hstarts : startsLocked pw'.passwd = false := by
        rw [hreference.2]
        rfl
      cases lock with
      | true =>
        refine iff_of_false ?_ (not_not_intro ⟨hreference.1,hreference.2,rfl⟩)
        intro hself
        have htrue := marked_eq_self.mp hself.1.symm
        rw [hstarts] at htrue
        cases htrue
      | false =>
        exact iff_of_true ⟨(marked_eq_self.mpr hstarts).symm,id⟩ nofun
    · rename_i hother
      refine iff_of_true hmain ?_
      cases lock with
      | true => exact fun hreference => hother ⟨hreference.1,hreference.2.1⟩
      | false => exact nofun
  | some s =>
    obtain ⟨s',rfl,hmarks⟩ := hshadow
    have htrue : present = true := by
      cases present with
      | true => rfl
      | false => cases hpresent rfl
    by_cases hx : pw.passwd = shadowPasswdString
    · rw [if_pos ⟨htrue,hx⟩] at hmain
      obtain rfl := hmain
      rw [inForce_x s hx,inForce_x s' hx]
      refine iff_of_true hmarks ?_
      cases lock with
      | true => exact fun hreference => nomatch hreference.2.2
      | false =>
        intro hmarked
        rw [hx] at hmarked
        cases hmarked
    · rw [if_neg fun hreference => hx hreference.2] at hmain
      rw [inForce_plain hx]
      cases lock with
      | true =>
        have hlocked : pw'.passwd ≠ shadowPasswdString := by
          intro hx'
          have hstarts := startsLocked_marked_true pw.passwd
          rw [← hmain.1,hx'] at hstarts
          cases hstarts
        rw [inForce_plain hlocked]
        exact iff_of_true hmain fun hreference => nomatch hreference.2.2
      | false =>
        by_cases hbehind : pw.passwd = exclamation :: shadowPasswdString
        · -- unlocking lays open a reference to the shadow entry
          have hx' : pw'.passwd = shadowPasswdString := hmain.1.trans (marked_false_eq_x.mpr (.inr hbehind))
          rw [inForce_x s' hx']
          constructor
          · rintro ⟨heq,_⟩ _ t ht
            cases ht
            rw [← hmarks.1,heq]
            exact marked_false_eq_x.mpr (.inr hbehind)
          · intro hreaches
            have heq : s'.pwdp = shadowPasswdString := hmarks.1.trans (hreaches hbehind s rfl)
            refine ⟨heq.trans (marked_false_eq_x.mpr (.inr hbehind)).symm,fun _ => ?_⟩
            rw [heq]
            exact List.cons_ne_nil _ _
        · have hplain : pw'.passwd ≠ shadowPasswdString := by
            rw [hmain.1]
            intro hmarked
            rcases marked_false_eq_x.mp hmarked with heq | heq
            · exact hx heq
            · exact hbehind heq
          rw [inForce_plain hplain]
          exact iff_of_true hmain fun hmarked => absurd hmarked hbehind

end Entries

section Databases
variable {tools : Tools} {env : LockEnv} {user : Bytes} {lock : Bool} {files : Files} {passwds passwds' : Db Passwd}
  {shadows shadows' : Option (Db Spwd)} {t : Bytes → Option Passwd} {u : Bytes → Option Spwd}

/-- The databases hold these tables; without a shadow there is no shadow entry. -/
structure Holds (tools : Tools) (files : Files) (passwds : Db Passwd) (shadows : Option (Db Spwd)) (t : Bytes → Option Passwd)
    (u : Bytes → Option Spwd) : Prop where
  main : ∃ l, Table tools.passwd files.main.file passwds l false t
  shadow : ∀ db, shadows = some db → ∃ l, Table tools.shadow files.shadow.file db l false u
  absent : shadows = none → files.shadow.file = none ∧ u = fun _ => none

theorem locate_table {α : Type} {s : Storage α} {file : Option Bytes} {db : Db α} {l : List Nat} {stale : Bool}
    {t : Bytes → Option α} (h : Table s file db l stale t) (name : Bytes) :
    ∃ db', commonioLocate s.ops db name = (t name,db') ∧ Table s file db' l stale t := by
  obtain ⟨hfound,c,hc,hcl⟩ := h.locate name
  rw [h.table] at hfound
  exact ⟨_,Prod.ext hfound hc,h.withCursor hcl⟩

theorem Marks.zero_notMem {cp cp' : Bytes} (hmarks : Marks lock cp cp') (h : (0 : UInt8) ∉ cp) : (0 : UInt8) ∉ cp' := by
  rw [hmarks.1]
  unfold marked
  split
  · split
    · exact h
    · rw [List.mem_cons,not_or]
      exact ⟨by decide,h⟩
  · split
    · exact fun hz => h (List.mem_of_mem_tail hz)
    · exact h

/-- Storing the public entry of the user with another password. -/
theorem Holds.updatePasswd (h : Holds tools files passwds shadows t u) {pw : Passwd} (hpw : t user = some pw) {cp : Bytes}
    (hcp : (0 : UInt8) ∉ pw.passwd → (0 : UInt8) ∉ cp) {memory : Bool}
    (hrun : commonioUpdate tools.passwd.ops passwds { pw with passwd := cp } memory = (true,passwds')) :
    Holds tools files passwds' shadows (Function.update t user (some { pw with passwd := cp })) u := by
  obtain ⟨l,hmain⟩ := h.main
  obtain ⟨hname,htext⟩ := hmain.found hpw
  have htext : pw.Text := htext
  have hname : pw.name = user := hname
  obtain ⟨l',hmain'⟩ := hmain.update hrun (htext.withPasswd (hcp htext.passwd))
  refine ⟨⟨l',?_⟩,h.shadow,h.absent⟩
  rw [← hname]
  exact hmain'

/-- Storing the shadow entry of the user with another password. -/
theorem Holds.updateSpwd {shadow shadow' : Db Spwd} (h : Holds tools files passwds (some shadow) t u) {sp : Spwd} (hsp : u user = some sp)
    {cp : Bytes} {lstchg : Int} (hcp : (0 : UInt8) ∉ sp.pwdp → (0 : UInt8) ∉ cp) (hday : -1 ≤ lstchg ∧ lstchg < 2^63) {memory : Bool}
    (hrun : commonioUpdate tools.shadow.ops shadow { sp with pwdp := cp, lstchg := lstchg } memory = (true,shadow')) :
    Holds tools files passwds (some shadow') t (Function.update u user (some { sp with pwdp := cp, lstchg := lstchg })) := by
  obtain ⟨l,hshadow⟩ := h.shadow shadow rfl
  obtain ⟨hname,htext⟩ := hshadow.found hsp
  have htext : sp.Text := htext
  have hname : sp.name = user := hname
  have hrange := htext.range
  have htext' : Spwd.Text { sp with pwdp := cp, lstchg := lstchg } :=
    ⟨htext.notNis,htext.name,hcp htext.pwdp,
      ⟨hday,hrange.min,hrange.max,hrange.warn,hrange.inact,hrange.expire,hrange.flag⟩⟩
  obtain ⟨l',hshadow'⟩ := hshadow.update hrun htext'
  refine ⟨h.main,?_,nofun⟩
  rintro db hdb
  cases hdb
  rw [← hname]
  exact ⟨l',hshadow'⟩

/-- What a program made of the tables: the entries of the user as it says, and no others. -/
def Locker.Made (locker : Locker) (tools : Tools) (files : Files) (user : Bytes) (lock : Bool) (t : Bytes → Option Passwd)
    (u : Bytes → Option Spwd) (shadows : Option (Db Spwd)) (out : Db Passwd × Option (Db Spwd)) : Prop :=
  ∃ pw pw' sp', t user = some pw ∧ locker.Does lock shadows.isSome pw pw' (u user) sp' ∧
    (∀ s s', u user = some s → sp' = some s' → s'.min = s.min) ∧
    Holds tools files out.1 out.2 (Function.update t user (some pw')) (Function.update u user sp')

private theorem updateNoshadow_spec (h : Holds tools files passwds shadows t u)
    (hrun : updateNoshadow tools env user lock (!lock) passwds = .ok passwds') :
    ∃ pw cp, t user = some pw ∧ Marks lock pw.passwd cp ∧
      Holds tools files passwds' shadows (Function.update t user (some { pw with passwd := cp })) u := by
  obtain ⟨l,hmain⟩ := h.main
  obtain ⟨passwds₁,hlocate,hmain₁⟩ := locate_table hmain user
  have h₁ : Holds tools files passwds₁ shadows t u := ⟨⟨l,hmain₁⟩,h.shadow,h.absent⟩
  unfold updateNoshadow at hrun
  rw [hlocate] at hrun
  cases hpw : t user with
  | none =>
    rw [hpw] at hrun
    cases hrun
  | some pw =>
    rw [hpw] at hrun
    simp only at hrun
    split at hrun
    · cases hrun
    · cases hcp : updateCryptPw lock (!lock) pw.passwd with
      | none =>
        rw [hcp] at hrun
        cases hrun
      | some cp =>
        rw [hcp] at hrun
        simp only at hrun
        rcases hupdate : commonioUpdate tools.passwd.ops passwds₁ { pw with passwd := cp } (env.memory 0).1 with ⟨_ | _,passwds₂⟩
        · rw [hupdate] at hrun
          cases hrun
        · rw [hupdate] at hrun
          cases hrun
          have hmarks := updateCryptPw_marks hcp
          exact ⟨pw,cp,rfl,hmarks,h₁.updatePasswd hpw hmarks.zero_notMem hupdate⟩

private theorem updateShadow_spec (h : Holds tools files passwds shadows t u)
    (hrun : updateShadow tools env user lock (!lock) passwds shadows = .ok (passwds',shadows')) :
    Locker.passwd.Made tools files user lock t u shadows (passwds',shadows') := by
  obtain ⟨l,hmain⟩ := h.main
  obtain ⟨passwds₁,hlocate,hmain₁⟩ := locate_table hmain user
  unfold updateShadow at hrun
  rw [hlocate] at hrun
  -- without a shadow entry the public one is marked
  have hpublic : ∀ shadows₁ : Option (Db Spwd), Holds tools files passwds₁ shadows₁ t u → u user = none →
      (updateNoshadow tools env user lock (!lock) passwds₁).map (fun passwds => (passwds,shadows₁)) = .ok (passwds',shadows') →
      Locker.passwd.Made tools files user lock t u shadows (passwds',shadows') := by
    intro shadows₁ h₁ hu hpublic
    rcases hnoshadow : updateNoshadow tools env user lock (!lock) passwds₁ with _ | passwds₂
    · rw [hnoshadow] at hpublic
      cases hpublic
    · rw [hnoshadow] at hpublic
      cases hpublic
      obtain ⟨pw,cp,hpw,hmarks,hholds⟩ := updateNoshadow_spec h₁ hnoshadow
      refine ⟨pw,{ pw with passwd := cp },none,hpw,⟨?_,?_⟩,fun _ _ _ => nofun,?_⟩
      · rw [hu]
        rfl
      · rw [hu]
        exact hmarks
      · rw [← hu,Function.update_eq_self]
        exact hholds
  cases hpw : t user with
  | none =>
    rw [hpw] at hrun
    cases hrun
  | some pw =>
    rw [hpw] at hrun
    cases shadows with
    | none =>
      refine hpublic none ⟨⟨l,hmain₁⟩,h.shadow,h.absent⟩ ?_ hrun
      rw [(h.absent rfl).2]
    | some shadow =>
      obtain ⟨sl,hshadow⟩ := h.shadow shadow rfl
      obtain ⟨shadow₁,hlocate',hshadow₁⟩ := locate_table hshadow user
      have h₁ : Holds tools files passwds₁ (some shadow₁) t u :=
        ⟨⟨l,hmain₁⟩,fun db hdb => ⟨sl,Option.some.inj hdb ▸ hshadow₁⟩,nofun⟩
      simp only [hlocate'] at hrun
      cases hsp : u user with
      | none =>
        rw [hsp] at hrun
        exact hpublic (some shadow₁) h₁ hsp hrun
      | some sp =>
        rw [hsp] at hrun
        simp only at hrun
        split at hrun
        · cases hrun
        · cases hcp : updateCryptPw lock (!lock) sp.pwdp with
          | none =>
            rw [hcp] at hrun
            cases hrun
          | some cp =>
            rw [hcp] at hrun
            simp only at hrun
            rcases hupdate : commonioUpdate tools.shadow.ops shadow₁
                { sp with pwdp := cp, lstchg := if env.updateAge then env.defs.lstchg else sp.lstchg } (env.memory 0).2
              with ⟨_ | _,shadow₂⟩
            · rw [hupdate] at hrun
              cases hrun
            · rw [hupdate] at hrun
              cases hrun
              have hmarks := updateCryptPw_marks hcp
              have htext : sp.Text := (hshadow.found hsp).2
              have hday : -1 ≤ (if env.updateAge then env.defs.lstchg else sp.lstchg) ∧
                  (if env.updateAge then env.defs.lstchg else sp.lstchg) < 2^63 := by
                split
                · exact env.defs.lstchg_range
                · exact htext.range.lstchg
              refine ⟨pw,pw,some { sp with pwdp := cp, lstchg := if env.updateAge then env.defs.lstchg else sp.lstchg },hpw,
                ⟨?_,?_⟩,?_,?_⟩
              · rw [hsp]
                exact ⟨_,rfl,hmarks⟩
              · rw [hsp]
                rfl
              · intro s s' hs hs'
                cases hs'
                rw [hsp] at hs
                cases hs
                rfl
              · rw [← hpw,Function.update_eq_self]
                exact h₁.updateSpwd hsp hmarks.zero_notMem hday hupdate

private theorem usrUpdate_spec (h : Holds tools files passwds shadows t u) {isShadowPwd : Bool} (hpresent : isShadowPwd = shadows.isSome)
    (hrun : usrUpdate tools env user lock (!lock) isShadowPwd passwds shadows = .ok (passwds',shadows')) :
    Locker.usermod.Made tools files user lock t u shadows (passwds',shadows') := by
  obtain ⟨l,hmain⟩ := h.main
  obtain ⟨passwds₁,hlocate,hmain₁⟩ := locate_table hmain user
  unfold usrUpdate at hrun
  rw [hlocate] at hrun
  cases hpw : t user with
  | none =>
    rw [hpw] at hrun
    cases hrun
  | some pw =>
    rw [hpw] at hrun
    simp only at hrun
    rcases hchoice : (if !isShadowPwd || pw.passwd != shadowPasswdString then newPwPasswd lock (!lock) pw.passwd
      else some pw.passwd) with _ | cp
    · rw [hchoice] at hrun
      cases hrun
    rw [hchoice] at hrun
    simp only at hrun
    -- the public entry as it is stored
    have hmain' : if shadows.isSome = true ∧ pw.passwd = shadowPasswdString then ({ pw with passwd := cp } : Passwd) = pw
        else Marks lock pw.passwd cp := by
      rw [hpresent] at hchoice
      by_cases hreference : shadows.isSome = true ∧ pw.passwd = shadowPasswdString
      · rw [if_pos hreference]
        rw [if_neg (by simp [hreference])] at hchoice
        obtain rfl := Option.some.inj hchoice
        rfl
      · rw [if_neg hreference]
        have hguard : (!shadows.isSome || pw.passwd != shadowPasswdString) = true := by
          cases hsome : shadows.isSome with
          | false => rfl
          | true =>
            rw [Bool.not_true,Bool.false_or,bne_iff_ne]
            exact fun hx => hreference ⟨hsome,hx⟩
        rw [if_pos hguard,newPwPasswd_eq] at hchoice
        exact updateCryptPw_marks hchoice
    have hzero : (0 : UInt8) ∉ pw.passwd → (0 : UInt8) ∉ cp := by
      split at hmain'
      · have hsame : cp = pw.passwd := congrArg Passwd.passwd hmain'
        rw [hsame]
        exact id
      · exact hmain'.zero_notMem
    cases shadows with
    | none =>
      simp only at hrun
      have h₁ : Holds tools files passwds₁ none t u := ⟨⟨l,hmain₁⟩,h.shadow,h.absent⟩
      have hu : u user = none := by rw [(h.absent rfl).2]
      rcases hupdate : commonioUpdate tools.passwd.ops passwds₁ { pw with passwd := cp } (env.memory 0).1 with ⟨_ | _,passwds₂⟩
      · rw [hupdate] at hrun
        cases hrun
      · rw [hupdate] at hrun
        cases hrun
        refine ⟨pw,{ pw with passwd := cp },none,hpw,⟨?_,hmain'⟩,fun _ _ _ => nofun,?_⟩
        · rw [hu]
          rfl
        · rw [← hu,Function.update_eq_self]
          exact h₁.updatePasswd hpw hzero hupdate
    | some shadow =>
      obtain ⟨sl,hshadow⟩ := h.shadow shadow rfl
      obtain ⟨shadow₁,hlocate',hshadow₁⟩ := locate_table hshadow user
      have h₁ : Holds tools files passwds₁ (some shadow₁) t u :=
        ⟨⟨l,hmain₁⟩,fun db hdb => ⟨sl,Option.some.inj hdb ▸ hshadow₁⟩,nofun⟩
      simp only [hlocate'] at hrun
      cases hsp : u user with
      | none =>
        rw [hsp] at hrun
        simp only at hrun
        rcases hupdate : commonioUpdate tools.passwd.ops passwds₁ { pw with passwd := cp } (env.memory 0).1 with ⟨_ | _,passwds₂⟩
        · rw [hupdate] at hrun
          cases hrun
        · rw [hupdate] at hrun
          cases hrun
          refine ⟨pw,{ pw with passwd := cp },none,hpw,⟨?_,hmain'⟩,fun _ _ _ => nofun,?_⟩
          · rw [hsp]
            rfl
          · rw [← hsp,Function.update_eq_self]
            exact h₁.updatePasswd hpw hzero hupdate
      | some sp =>
        rw [hsp] at hrun
        simp only at hrun
        cases hcp : newPwPasswd lock (!lock) sp.pwdp with
        | none =>
          rw [hcp] at hrun
          cases hrun
        | some pwdp =>
          rw [hcp] at hrun
          simp only at hrun
          rw [newPwPasswd_eq] at hcp
          have hmarks := updateCryptPw_marks hcp
          have htext : sp.Text := (hshadow.found hsp).2
          rcases hupdate : commonioUpdate tools.passwd.ops passwds₁ { pw with passwd := cp } (env.memory 0).1 with ⟨_ | _,passwds₂⟩
          · rw [hupdate] at hrun
            cases hrun
          · rw [hupdate] at hrun
            simp only at hrun
            rcases hupdate' : commonioUpdate tools.shadow.ops shadow₁ { sp with pwdp := pwdp } (env.memory 0).2 with ⟨_ | _,shadow₂⟩
            · rw [hupdate'] at hrun
              cases hrun
            · rw [hupdate'] at hrun
              cases hrun
              have h₂ := h₁.updatePasswd hpw hzero hupdate
              refine ⟨pw,{ pw with passwd := cp },some { sp with pwdp := pwdp },hpw,⟨?_,hmain'⟩,?_,?_⟩
              · rw [hsp]
                exact ⟨_,rfl,hmarks⟩
              · intro s s' hs hs'
                cases hs'
                rw [hsp] at hs
                cases hs
                rfl
              · exact h₂.updateSpwd hsp hmarks.zero_notMem htext.range.lstchg hupdate'

/-- Opening the files, the shadow where there is one. -/
theorem openAccounts_holds {st : Statuses} (hpasswd : UniqueFile passwdOps files.main.file)
    (hshadow : UniqueFile shadowOps files.shadow.file) (hopen : openAccounts st tools env files = .ok (passwds,shadows)) :
    shadows.isSome = spwFilePresent env files ∧
      Holds tools files passwds shadows (fileEntry passwdOps files.main.file) (fileEntry shadowOps files.shadow.file) := by
  unfold openAccounts at hopen
  cases hpresent : spwFilePresent env files with
  | true =>
    rw [hpresent,if_pos rfl] at hopen
    unfold openBoth at hopen
    by_cases hlock : (!env.mainLock) = true
    · rw [if_pos hlock] at hopen
      cases hopen
    rw [if_neg hlock] at hopen
    rcases hmainOpen : openFirst tools.passwd .rdwr true files.main.file env.mainRead env.mainMemory with ⟨_ | _,db⟩
    · rw [hmainOpen] at hopen
      cases hopen
    rw [hmainOpen] at hopen
    simp only at hopen
    by_cases hlock' : (!env.shadowLock) = true
    · rw [if_pos hlock'] at hopen
      cases hopen
    rw [if_neg hlock'] at hopen
    rcases hshadowOpen : openFirst tools.shadow .rdwr true files.shadow.file env.shadowRead env.shadowMemory with ⟨_ | _,db'⟩
    · rw [hshadowOpen] at hopen
      cases hopen
    rw [hshadowOpen] at hopen
    cases hopen
    obtain ⟨l,stale,hmain,hstale⟩ := openFirst_table hpasswd hmainOpen
    obtain ⟨sl,stale',htable,hstale'⟩ := openFirst_table hshadow hshadowOpen
    obtain rfl := hstale rfl
    obtain rfl := hstale' rfl
    refine ⟨rfl,⟨l,hmain⟩,?_,nofun⟩
    intro db₁ hdb
    exact ⟨sl,Option.some.inj hdb ▸ htable⟩
  | false =>
    rw [hpresent,if_neg Bool.false_ne_true] at hopen
    split at hopen
    · cases hopen
    · rcases hfirst : openFirst tools.passwd .rdwr true files.main.file env.mainRead env.mainMemory with ⟨_ | _,db⟩
      · rw [hfirst] at hopen
        cases hopen
      · rw [hfirst] at hopen
        cases hopen
        obtain ⟨l,stale,hmain,hstale⟩ := openFirst_table hpasswd hfirst
        obtain rfl := hstale rfl
        have habsent : files.shadow.file = none := by
          rw [spwFilePresent,Bool.or_eq_false_iff] at hpresent
          exact Option.isNone_iff_eq_none.mp (Option.isSome_eq_false_iff.mp hpresent.2)
        refine ⟨rfl,⟨l,hmain⟩,nofun,fun _ => ⟨habsent,?_⟩⟩
        funext name
        rw [habsent]
        exact fileEntry_none shadowOps name

/-- Closing a file that could be written stores the table. -/
theorem stores_of_closed {α : Type} {s : Storage α} {disk : Disk} {db : Db α} {l : List Nat} {stale selinux : Bool} {t : Bytes → Option α}
    {steps : CloseSteps} {old : Option Bytes} (h : Table s disk.file db l stale t)
    (hok : (commonioClose selinux s.closeOps steps db old disk).1 = true) :
    Stores s t (commonioClose selinux s.closeOps steps db old disk).2.2.file := by
  rcases h.close with ⟨hfailed,_⟩ | hstores
  · rw [hok] at hfailed
    cases hfailed
  · exact hstores

theorem Holds.close {st : Statuses} {files' : Files} (h : Holds tools files passwds shadows t u)
    (hrun : closeAccounts st tools env files passwds shadows = (.ok (),files')) :
    Stores tools.passwd t files'.main.file ∧ Stores tools.shadow u files'.shadow.file := by
  obtain ⟨l,hmain⟩ := h.main
  have hpasswd : ∀ files₁ : Files, files₁.main = files.main → closePasswd st tools env files₁ passwds = (.ok (),files') →
      Stores tools.passwd t files'.main.file ∧ files'.shadow = files₁.shadow := by
    intro files₁ hsame hclose
    unfold closePasswd at hclose
    rw [hsame] at hclose
    obtain ⟨hstatus,rfl⟩ := Prod.mk.inj hclose
    have hok : (commonioClose env.selinux tools.passwd.closeOps env.mainSteps passwds files.main.file files.main).1 = true := by
      by_contra hnot
      rw [if_neg hnot] at hstatus
      cases hstatus
    exact ⟨stores_of_closed hmain hok,rfl⟩
  cases shadows with
  | none =>
    obtain ⟨hstores,hshadow⟩ := hpasswd files rfl hrun
    obtain ⟨habsent,rfl⟩ := h.absent rfl
    refine ⟨hstores,?_⟩
    rw [hshadow,habsent]
    exact ⟨[],rfl,fun _ => Nat.zero_le 1,fun _ => .none⟩
  | some shadow =>
    obtain ⟨sl,hshadow⟩ := h.shadow shadow rfl
    unfold closeAccounts at hrun
    simp only at hrun
    split at hrun
    · cases hrun
    · rename_i hok
      obtain ⟨hstores,hsame⟩ := hpasswd { files with
        shadow := (commonioClose env.selinux tools.shadow.closeOps env.shadowSteps shadow files.shadow.file files.shadow).2.2 } rfl hrun
      refine ⟨hstores,?_⟩
      rw [hsame]
      exact stores_of_closed hshadow (by simpa using hok)

end Databases

section Files
variable {tools : Tools} {env : LockEnv} {user : Bytes} {lock : Bool} {files files' : Files} {locker : Locker}

private theorem sgetspent_min {line : Bytes} {sp : Spwd} (h : sgetspent line = some sp) : sp.min = -1 := by
  unfold sgetspent at h
  simp only [Option.bind_eq_bind] at h
  split at h
  · simp only [Option.bind_eq_some_iff] at h
    obtain ⟨_,_,_,_,h⟩ := h
    cases h
    rfl
  · simp only [Option.bind_eq_some_iff] at h
    obtain ⟨_,_,_,_,_,_,_,_,_,_,_,_,h⟩ := h
    cases h
    rfl
  · cases h

/-- The minimum age is not read from the file. -/
theorem fileEntry_min {file : Option Bytes} {name : Bytes} {sp : Spwd} (h : fileEntry shadowOps file name = some sp) : sp.min = -1 := by
  obtain ⟨rs,hread,hlookup⟩ := Option.bind_eq_some_iff.mp h
  obtain ⟨r,hr,hsp,_⟩ := lookup_eq_some hlookup
  exact IsRead.entry (readFile_isRead (namesParts_of_no_hook rfl) hread r hr).1 (fun _ _ _ _ hparse => sgetspent_min hparse)
    (by intros; contradiction) hsp

private theorem uniqueFile_of_stores {α : Type} {s : Storage α} {t : Bytes → Option α} {file : Option Bytes} (h : Stores s t file) :
    UniqueFile s.ops file := by
  obtain ⟨rs,hread,hunique,_⟩ := h
  intro qs hqs
  obtain rfl := Option.some.inj (hread.symm.trans hqs)
  exact hunique

/-- Entries with no minimum age are read as they were stored. -/
theorem fileEntry_of_stores {u : Bytes → Option Spwd} {file : Option Bytes} (h : Stores tools.shadow u file)
    (hmin : ∀ name s, u name = some s → s.min = -1) : fileEntry shadowOps file = u := by
  funext name
  have hrel : Option.Rel SameSpwd (u name) (fileEntry shadowOps file name) := h.entry name
  generalize hentry : fileEntry shadowOps file name = entry at hrel
  generalize hu : u name = stored at hrel
  cases hrel with
  | none => rfl
  | some hsame =>
    rename_i s s'
    have hs := hmin name s hu
    have hs' := fileEntry_min hentry
    have heq : { s' with min := s.min } = s := hsame
    rw [hs,← hs'] at heq
    exact congrArg some heq

private theorem fileEntry_of_stores_passwd {t : Bytes → Option Passwd} {file : Option Bytes} (h : Stores tools.passwd t file) :
    fileEntry passwdOps file = t := by
  funext name
  have hrel : Option.Rel (fun pw pw' : Passwd => pw' = pw) (t name) (fileEntry passwdOps file name) := h.entry name
  generalize fileEntry passwdOps file name = entry at hrel
  generalize t name = stored at hrel
  cases hrel with
  | none => rfl
  | some hsame => exact congrArg some hsame

/-- A successful run stores one account as its program says. -/
theorem runOnAccounts_spec {st : Statuses} {update : Db Passwd → Option (Db Spwd) → Except Exit (Db Passwd × Option (Db Spwd))}
    (hupdate : ∀ passwds shadows out t u, shadows.isSome = spwFilePresent env files → Holds tools files passwds shadows t u →
      update passwds shadows = .ok out → locker.Made tools files user lock t u shadows out)
    (hpasswd : UniqueFile passwdOps files.main.file) (hshadow : UniqueFile shadowOps files.shadow.file)
    (hrun : runOnAccounts st tools env update files = (.ok (),files')) :
    ∃ pw pw' sp', fileEntry passwdOps files.main.file user = some pw ∧
      locker.Does lock (spwFilePresent env files) pw pw' (fileEntry shadowOps files.shadow.file user) sp' ∧
      (spwFilePresent env files = false → fileEntry shadowOps files.shadow.file user = none) ∧
      fileEntry passwdOps files'.main.file = Function.update (fileEntry passwdOps files.main.file) user (some pw') ∧
      fileEntry shadowOps files'.shadow.file = Function.update (fileEntry shadowOps files.shadow.file) user sp' ∧
      UniqueFile passwdOps files'.main.file ∧ UniqueFile shadowOps files'.shadow.file := by
  unfold runOnAccounts at hrun
  rcases hopen : openAccounts st tools env files with _ | ⟨passwds,shadows⟩
  · rw [hopen] at hrun
    cases hrun
  rw [hopen] at hrun
  simp only at hrun
  rcases hbody : update passwds shadows with _ | ⟨passwds',shadows'⟩
  · rw [hbody] at hrun
    cases hrun
  rw [hbody] at hrun
  obtain ⟨hpresent,hholds⟩ := openAccounts_holds hpasswd hshadow hopen
  obtain ⟨pw,pw',sp',hpw,hdoes,hmin,hholds'⟩ := hupdate _ _ _ _ _ hpresent hholds hbody
  obtain ⟨hstores,hstores'⟩ := hholds'.close hrun
  rw [hpresent] at hdoes
  refine ⟨pw,pw',sp',hpw,hdoes,?_,fileEntry_of_stores_passwd hstores,fileEntry_of_stores hstores' ?_,
    uniqueFile_of_stores hstores,uniqueFile_of_stores hstores'⟩
  · intro habsent
    rw [habsent] at hpresent
    have hnone : shadows = none := Option.isNone_iff_eq_none.mp (Option.isSome_eq_false_iff.mp hpresent)
    rw [(hholds.absent hnone).2]
  · intro name s hs
    by_cases hname : name = user
    · subst hname
      rw [Function.update_self] at hs
      have hmarked := hdoes.1
      cases hold : fileEntry shadowOps files.shadow.file name with
      | none =>
        rw [hold] at hmarked
        have hnone : sp' = none := hmarked
        rw [hnone] at hs
        cases hs
      | some old => rw [hmin old s hold hs,fileEntry_min hold]
    · rw [Function.update_of_ne hname] at hs
      exact fileEntry_min hs

theorem Locker.run_spec (hpasswd : UniqueFile passwdOps files.main.file) (hshadow : UniqueFile shadowOps files.shadow.file)
    (hrun : locker.run tools env user lock files = (.ok (),files')) :
    ∃ pw pw' sp', fileEntry passwdOps files.main.file user = some pw ∧
      locker.Does lock (spwFilePresent env files) pw pw' (fileEntry shadowOps files.shadow.file user) sp' ∧
      (spwFilePresent env files = false → fileEntry shadowOps files.shadow.file user = none) ∧
      fileEntry passwdOps files'.main.file = Function.update (fileEntry passwdOps files.main.file) user (some pw') ∧
      fileEntry shadowOps files'.shadow.file = Function.update (fileEntry shadowOps files.shadow.file) user sp' ∧
      UniqueFile passwdOps files'.main.file ∧ UniqueFile shadowOps files'.shadow.file := by
  cases locker with
  | passwd =>
    refine runOnAccounts_spec ?_ hpasswd hshadow hrun
    rintro passwds shadows ⟨passwds',shadows'⟩ t u _ hholds hbody
    exact updateShadow_spec hholds hbody
  | usermod =>
    refine runOnAccounts_spec ?_ hpasswd hshadow hrun
    rintro passwds shadows ⟨passwds',shadows'⟩ t u hpresent hholds hbody
    exact usrUpdate_spec hholds hpresent.symm hbody

private theorem password_eq {pw : Passwd} (h : fileEntry passwdOps files.main.file user = some pw) :
    tools.accounts.password files user = some (inForce pw (fileEntry shadowOps files.shadow.file user)) := by
  have hpassword : tools.accounts.password files user =
      effective Passwd.passwd Spwd.pwdp (fileEntry passwdOps files.main.file user) (fileEntry shadowOps files.shadow.file user) := rfl
  rw [hpassword,h]
  rfl

/-- The law of one run holds exactly where the program reaches the password in force. -/
theorem lockLaw_iff (hpasswd : UniqueFile passwdOps files.main.file) (hshadow : UniqueFile shadowOps files.shadow.file)
    (hrun : locker.run tools env user lock files = (.ok (),files')) :
    LockLaw tools user lock files files' ↔ ∀ pw ∈ fileEntry passwdOps files.main.file user,
      locker.Reaches lock (spwFilePresent env files) pw (fileEntry shadowOps files.shadow.file user) := by
  obtain ⟨pw,pw',sp',hpw,hdoes,habsent,hmain,hshadow',_⟩ := Locker.run_spec hpasswd hshadow hrun
  have hpw' : fileEntry passwdOps files'.main.file user = some pw' := by rw [hmain,Function.update_self]
  have hsp' : fileEntry shadowOps files'.shadow.file user = sp' := by rw [hshadow',Function.update_self]
  have hbefore : tools.accounts.password files user = some (inForce pw (fileEntry shadowOps files.shadow.file user)) := password_eq hpw
  have hafter : tools.accounts.password files' user = some (inForce pw' sp') := hsp' ▸ password_eq hpw'
  have hiff : Marks lock (inForce pw (fileEntry shadowOps files.shadow.file user)) (inForce pw' sp') ↔
      locker.Reaches lock (spwFilePresent env files) pw (fileEntry shadowOps files.shadow.file user) := by
    cases locker with
    | passwd => exact passwd_marks_iff hdoes
    | usermod => exact usermod_marks_iff habsent hdoes
  have hlaw : LockLaw tools user lock files files' ↔
      Marks lock (inForce pw (fileEntry shadowOps files.shadow.file user)) (inForce pw' sp') := by
    constructor
    · intro h
      have hpassword := h.password
      have hnonempty := h.nonempty
      rw [hbefore,hafter] at hpassword
      rw [hbefore,hafter] at hnonempty
      exact ⟨Option.some.inj hpassword,fun hne heq => hnonempty _ rfl hne (congrArg some heq)⟩
    · rintro ⟨heq,hne⟩
      refine ⟨?_,?_,?_,?_⟩
      · rw [hbefore,hafter,heq]
        rfl
      · intro cp hcp hcpne hempty
        rw [hbefore] at hcp
        rw [hafter] at hempty
        exact hne (Option.some.inj hcp ▸ hcpne) (Option.some.inj hempty)
      · intro name hname
        rw [hmain,Function.update_of_ne hname]
      · intro name hname
        rw [hshadow',Function.update_of_ne hname]
  rw [hlaw,hiff,hpw]
  simp

end Files

/-- Locking and unlocking, by either program: the law of a run, and that unlocking restores what locking hid. -/
theorem password_lock_iff (tools : Tools) (user : Bytes) (files files' : Files) (hpasswd : UniqueFile passwdOps files.main.file)
    (hshadow : UniqueFile shadowOps files.shadow.file) (locker : Locker) (env : LockEnv) (lock : Bool)
    (hrun : locker.run tools env user lock files = (.ok (),files')) :
    (LockLaw tools user lock files files' ↔ ∀ pw ∈ fileEntry passwdOps files.main.file user,
      locker.Reaches lock (spwFilePresent env files) pw (fileEntry shadowOps files.shadow.file user)) ∧
    (lock = true → LockLaw tools user true files files' → ∀ (unlocker : Locker) (env' : LockEnv) (files'' : Files),
      unlocker.run tools env' user false files' = (.ok (),files'') →
      (∀ pw ∈ fileEntry passwdOps files'.main.file user,
        unlocker.Reaches false (spwFilePresent env' files') pw (fileEntry shadowOps files'.shadow.file user)) →
      ∀ cp ∈ tools.accounts.password files user, startsLocked cp = false → tools.accounts.password files'' user = some cp) := by
  refine ⟨lockLaw_iff hpasswd hshadow hrun,?_⟩
  intro _ hlaw unlocker env' files'' hrun' hreaches cp hcp hopen
  obtain ⟨_,_,_,_,_,_,_,_,hpasswd',hshadow'⟩ := Locker.run_spec hpasswd hshadow hrun
  have hlaw' := (lockLaw_iff hpasswd' hshadow' hrun').mpr hreaches
  rw [hlaw'.password,hlaw.password,hcp,Option.map_some,Option.map_some,marked_marked hopen]

def calmLock : LockEnv where
  toEnv := calmEnv
  dupPasswd := true
  dupShadow := true
  updateAge := false
  defs := defaultDefs

def accountFiles (passwd shadow : String) : Files := ⟨⟨some (ascii passwd),none⟩,⟨some (ascii shadow),none⟩⟩

/-- Two accounts, the passwords of the first one in both files. -/
def bothPasswords : Files := accountFiles "u:p:1:1::/:\nv:x:2:1::/:\n" "u:q:::::::\nv:r:::::::\n"

/-- `usermod -L` where both entries hold a password, and `usermod -U` behind it. -/
theorem password_lock_both :
    ∃ locked unlocked, Locker.usermod.run plainTools calmLock (ascii "u") true bothPasswords = (.ok (),locked) ∧
      Locker.usermod.run plainTools calmLock (ascii "u") false locked = (.ok (),unlocked) ∧
      LockLaw plainTools (ascii "u") true bothPasswords locked ∧
      locked.main.file = some (ascii "u:!p:1:1::/:\nv:x:2:1::/:\n") ∧
      plainTools.accounts.password unlocked (ascii "u") = some (ascii "p") := by
  have hpasswd : UniqueFile passwdOps bothPasswords.main.file := uniqueFile_of_names rfl (by decide +kernel)
  have hshadow : UniqueFile shadowOps bothPasswords.shadow.file := uniqueFile_of_names rfl (by decide +kernel)
  have hlock : Locker.usermod.run plainTools calmLock (ascii "u") true bothPasswords =
      (.ok (),(Locker.usermod.run plainTools calmLock (ascii "u") true bothPasswords).2) := rfl
  have hunlock : Locker.usermod.run plainTools calmLock (ascii "u") false
        (Locker.usermod.run plainTools calmLock (ascii "u") true bothPasswords).2 =
      (.ok (),(Locker.usermod.run plainTools calmLock (ascii "u") false
        (Locker.usermod.run plainTools calmLock (ascii "u") true bothPasswords).2).2) := rfl
  obtain ⟨hiff,hrestore⟩ := password_lock_iff plainTools (ascii "u") bothPasswords _ hpasswd hshadow .usermod calmLock true hlock
  have hlaw := hiff.mpr fun pw _ hreference => nomatch (show fileEntry shadowOps bothPasswords.shadow.file (ascii "u") ≠ none by
    decide +kernel) hreference.2.2
  have hmarked : (fileEntry passwdOps (Locker.usermod.run plainTools calmLock (ascii "u") true bothPasswords).2.main.file (ascii "u")).map
      Passwd.passwd = some (ascii "!p") := by decide +kernel
  refine ⟨_,_,hlock,hunlock,hlaw,by decide +kernel,hrestore rfl hlaw .usermod calmLock _ hunlock ?_ (ascii "p") (by decide +kernel) rfl⟩
  intro pw hpw hreference
  rw [Option.mem_def.mp hpw,Option.map_some,hreference] at hmarked
  exact absurd hmarked (by decide)

/-- Where both entries hold a password `passwd -l` marks the one that is not in force, `usermod -L` marks nothing where
the shadow entry is missing, and `usermod -U` may uncover an empty password. -/
theorem lock_misses_the_password :
    (∃ files, Locker.passwd.run plainTools calmLock (ascii "u") true bothPasswords = (.ok (),files) ∧
      plainTools.accounts.password files (ascii "u") = some (ascii "p") ∧
      ¬ LockLaw plainTools (ascii "u") true bothPasswords files) ∧
    (∃ files, Locker.usermod.run plainTools calmLock (ascii "u") true (accountFiles "u:x:1:1::/:\n" "") = (.ok (),files) ∧
      plainTools.accounts.password files (ascii "u") = some (ascii "x") ∧
      ¬ LockLaw plainTools (ascii "u") true (accountFiles "u:x:1:1::/:\n" "") files) ∧
    ∃ files, Locker.usermod.run plainTools calmLock (ascii "u") false (accountFiles "u:!x:1:1::/:\n" "u::::::::\n") = (.ok (),files) ∧
      plainTools.accounts.password files (ascii "u") = some [] ∧
      ¬ LockLaw plainTools (ascii "u") false (accountFiles "u:!x:1:1::/:\n" "u::::::::\n") files := by
  have hmiss : ∀ {lock : Bool} {before after : Files} {cp cp' : Bytes}, plainTools.accounts.password before (ascii "u") = some cp →
      plainTools.accounts.password after (ascii "u") = some cp' → cp' ≠ marked lock cp →
        ¬ LockLaw plainTools (ascii "u") lock before after := by
    intro lock before after cp cp' hbefore hafter hne hlaw
    have hpassword := hlaw.password
    rw [hbefore,hafter] at hpassword
    exact hne (Option.some.inj hpassword)
  refine ⟨⟨_,rfl,?_,?_⟩,⟨_,rfl,?_,?_⟩,⟨_,rfl,?_,?_⟩⟩
  · decide +kernel
  · exact hmiss (show _ = some (ascii "p") by decide +kernel) (show _ = some (ascii "p") by decide +kernel) (by decide +kernel)
  · decide +kernel
  · exact hmiss (show _ = some (ascii "x") by decide +kernel) (show _ = some (ascii "x") by decide +kernel) (by decide +kernel)
  · decide +kernel
  · exact hmiss (show _ = some (ascii "!x") by decide +kernel) (show _ = some [] by decide +kernel) (by decide +kernel)

end UserDb.Programs
