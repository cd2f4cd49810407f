import UserDb.Programs.Check
import UserDb.Programs.Conversion

/-! `pwck`: passwd and shadow are checked line by line and against each other. A run whose
questions are all answered with yes leaves nothing to ask. -/
namespace UserDb.Programs.Pwck
open UserDb.Base UserDb.Commonio

section Program
variable (tools : Tools) (defs : LoginDefs) (env : Env) (isShadow : Bool) (answers : Nat → Bool)

/-- Both files have to be there. -/
def openFiles (files : Files) : Except Exit (Db Passwd × Db Spwd) := openPair env isShadow false tools.passwd tools.shadow files

/-- The shadow entry for an account that has none. -/
def missingSpwd (pw : Passwd) : Spwd :=
  ⟨pw.name,pw.passwd,defs.lstchg,-1,defs.passMaxDays,defs.passWarnAge,-1,-1,flagUnset⟩

/-- What `check_pw_file` does with an entry that is alone under its name. -/
def checkPwEntry (p : Nat) (pw : Passwd) (w : Walk Passwd (Db Spwd)) : Except (Exit × Nat) (Walk Passwd (Db Spwd)) :=
  if !isShadow then .ok w
  else
    match commonioLocate tools.shadow.ops w.rest pw.name with
    | (some _,spwDb) => .ok { w with rest := spwDb }
    | (none,spwDb) =>
      match w.ask answers with
      | (false,w) => .ok { w with rest := spwDb }
      | (true,w) =>
        match commonioUpdate tools.shadow.ops spwDb (missingSpwd defs pw) (env.memory p).2 with
        | (false,_) => .error (.status 5,w.questions)
        | (true,spwDb) =>
          -- the password is in the shadow now
          match commonioUpdate tools.passwd.ops w.db { pw with passwd := shadowPasswdString } (env.memory p).1 with
          | (false,_) => .error (.status 5,w.questions)
          | (true,pwDb) => .ok { w with db := pwDb, rest := spwDb, changed := true }

def checkPwFile (w : Walk Passwd (Db Spwd)) : Except (Exit × Nat) (Walk Passwd (Db Spwd)) :=
  w.checkAll answers tools.passwd.ops isNisLine (checkPwEntry tools defs env isShadow answers)

/-- What `check_spw_file` does with an entry that is alone under its name. -/
def checkSpwEntry (p : Nat) (sp : Spwd) (w : Walk Spwd (Db Passwd)) : Except (Exit × Nat) (Walk Spwd (Db Passwd)) :=
  match commonioLocate tools.passwd.ops w.rest sp.name with
  | (some _,pwDb) => .ok { w with rest := pwDb }
  | (none,pwDb) =>
    match { w with rest := pwDb }.ask answers with
    | (false,w) => .ok w
    | (true,w) => .ok (w.delete p)

/-- Lines that were missing in shadow and were added before are not looked at. -/
def isAddedOrNis (r : Record Spwd) : Bool := r.line.isNone || isNisLine r

def checkSpwFile (w : Walk Spwd (Db Passwd)) : Except (Exit × Nat) (Walk Spwd (Db Passwd)) :=
  w.checkAll answers tools.shadow.ops isAddedOrNis (checkSpwEntry tools answers)

def closeFiles (changed : Bool) (pwDb : Db Passwd) (spwDb : Db Spwd) (files : Files) : Except Exit Files :=
  closePair env isShadow tools.passwd.closeOps tools.shadow.closeOps changed pwDb spwDb files

/-- The run, with the number of questions that it asked. -/
def pwck (files : Files) : Except Exit Files × Nat :=
  match openFiles tools env isShadow files with
  | .error e => (.error e,0)
  | .ok (pwDb,spwDb) =>
    match checkPwFile tools defs env isShadow answers ⟨pwDb,spwDb,false,0⟩ with
    | .error (e,n) => (.error e,n)
    | .ok w =>
      if !isShadow then (closeFiles tools env isShadow w.changed w.db w.rest files,w.questions)
      else
        match checkSpwFile tools answers ⟨w.rest,w.db,w.changed,w.questions⟩ with
        | .error (e,n) => (.error e,n)
        | .ok w => (closeFiles tools env isShadow w.changed w.rest w.db files,w.questions)

end Program

def passwdLines (tools : Tools) : LineStorage Passwd where
  toStorage := tools.passwd
  lineOf := passwdText
  hook := rfl
  single := rfl

def shadowLines (tools : Tools) : LineStorage Spwd where
  toStorage := tools.shadow
  lineOf := spwdLine
  hook := tools.shadow_hook
  single := rfl

section Walks
variable {tools : Tools} {defs : LoginDefs} {env : Env} {isShadow : Bool} {answers : Nat → Bool}
  {P : List (Record Passwd)} {S : List (Record Spwd)} {pwFile spwFile : Option Bytes} {pwDb : Db Passwd} {spwDb : Db Spwd}
  {pl sl xs ys : List Nat} {p : Nat}

/-- The password stood in a line of that name. -/
def HadPassword (P : List (Record Passwd)) (S : List (Record Spwd)) (name passwd : Bytes) : Prop :=
  (∃ r ∈ P, ∃ pw ∈ r.eptr, pw.name = name ∧ pw.passwd = passwd) ∨ ∃ r ∈ S, ∃ sp ∈ r.eptr, sp.name = name ∧ sp.pwdp = passwd

def namesOf (P : List (Record Passwd)) : Set Bytes := {name | ∃ r ∈ P, r.name passwdOps = some name}

/-- An account of one of the names, with a password that it had or that is in the shadow. -/
def OwnPasswd (isShadow : Bool) (P : List (Record Passwd)) (S : List (Record Spwd)) (pw : Passwd) : Prop :=
  pw.Text ∧ pw.name ∈ namesOf P ∧ ((isShadow = true ∧ pw.passwd = shadowPasswdString) ∨ HadPassword P S pw.name pw.passwd)

def OwnSpwd (P : List (Record Passwd)) (S : List (Record Spwd)) (sp : Spwd) : Prop := HadPassword P S sp.name sp.pwdp

/-- Entries that were added have one of the names, and no other entry has it too. -/
def AddedAlone (names : Set Bytes) (db : Db Spwd) (l : List Nat) : Prop :=
  ∀ p ∈ l, (db.record p).line = none → ∃ sp, (db.record p).eptr = some sp ∧ sp.name ∈ names ∧
    ∀ q ∈ l, q ≠ p → (db.record q).name shadowOps ≠ some sp.name

/-- The shadow during the walk through passwd. -/
def ShadowKept (tools : Tools) (P : List (Record Passwd)) (S : List (Record Spwd)) (file : Option Bytes) (db : Db Spwd)
    (changed : Bool) : Prop :=
  ∃ l, Checked (shadowLines tools) file SameSpwd (OwnSpwd P S) ∅ db l ∧ AddedAlone (namesOf P) db l ∧
    (db.changed = true → changed = true)

/-- The shadow has an entry of the name. -/
def InShadow (db : Db Spwd) (name : Bytes) : Prop :=
  ∃ q ∈ db.from db.head, (db.record q).name shadowOps = some name

theorem AddedAlone.delete {names : Set Bytes} (h : AddedAlone names spwDb (xs ++ p :: ys)) :
    AddedAlone names (commonioDelEntry spwDb p) (xs ++ ys) := by
  have hsub : ∀ q ∈ xs ++ ys, q ∈ xs ++ p :: ys := fun q hq => List.perm_middle.mem_iff.mpr (List.mem_cons_of_mem p hq)
  unfold AddedAlone
  rw [record_commonioDelEntry]
  intro q hq hline
  obtain ⟨sp,hsp,hname,halone⟩ := h q (hsub q hq) hline
  exact ⟨sp,hsp,hname,fun q' hq' => halone q' (hsub q' hq')⟩

/-- The new shadow entry is one that can be written. -/
theorem missingSpwd_text (defs : LoginDefs) {pw : Passwd} (h : pw.Text) : (missingSpwd defs pw).Text := by
  have hunset : -1 ≤ (-1 : Int) ∧ (-1 : Int) < 2^63 := by decide
  have hmax : -1 ≤ defs.passMaxDays ∧ defs.passMaxDays < 2^63 := ⟨defs.maxDays_range.1,by have := defs.maxDays_range; omega⟩
  have hwarn : -1 ≤ defs.passWarnAge ∧ defs.passWarnAge < 2^63 := ⟨defs.warnAge_range.1,by have := defs.warnAge_range; omega⟩
  have hflag : flagUnset < 2^64 := by decide
  exact ⟨h.notNis,h.name,h.passwd,⟨defs.lstchg_range,hunset,hmax,hwarn,hunset,hunset,hflag⟩⟩

/-- A new name in the shadow. -/
theorem ShadowKept.add (sp : Spwd) (h : Checked (shadowLines tools) spwFile SameSpwd (OwnSpwd P S) ∅ spwDb sl)
    (hadded : AddedAlone (namesOf P) spwDb sl) {memory : Bool} {spwDb' : Db Spwd}
    (hne : ∀ q ∈ sl, (spwDb.record q).name shadowOps ≠ some sp.name) (hname : sp.name ∈ namesOf P) (hown : OwnSpwd P S sp)
    (htext : sp.Text) (hrun : commonioUpdate tools.shadow.ops spwDb sp memory = (true,spwDb')) :
    ShadowKept tools P S spwFile spwDb' true ∧ InShadow spwDb' sp.name ∧ ∀ name, InShadow spwDb name → InShadow spwDb' name := by
  obtain ⟨us,n,vs,rfl,hn,h',hrecord⟩ := h.update_new hne hown htext hrun
  have hold : ∀ q ∈ us ++ vs, spwDb'.record q = spwDb.record q := fun q hq => by
    rw [hrecord,Function.update_of_ne (ne_of_mem_of_not_mem hq hn)]
  have hnew : (spwDb'.record n) = editedRecord none sp := by rw [hrecord,Function.update_self]
  have hmem : ∀ q, q ∈ us ++ n :: vs ↔ q = n ∨ q ∈ us ++ vs := fun q => by
    rw [List.perm_middle.mem_iff,List.mem_cons]
  have hfrom : spwDb'.from spwDb'.head = us ++ n :: vs := h'.kept.rep.from_head
  refine ⟨⟨us ++ n :: vs,h',fun q hq hline => ?_,fun _ => rfl⟩,⟨n,?_,by rw [hnew]; rfl⟩,fun name hin => ?_⟩
  · rcases (hmem q).mp hq with rfl | hold'
    · refine ⟨sp,by rw [hnew]; rfl,hname,fun q' hq' hne' => ?_⟩
      have hq' := ((hmem q').mp hq').resolve_left hne'
      rw [hold q' hq']
      exact hne q' hq'
    · rw [hold q hold'] at hline ⊢
      obtain ⟨sp',hsp',hname',halone⟩ := hadded q hold' hline
      refine ⟨sp',hsp',hname',fun q' hq' hne' => ?_⟩
      rcases (hmem q').mp hq' with rfl | hq'
      · rw [hnew]
        intro heq
        refine hne q hold' ?_
        rw [Record.name,hsp',Option.map_some]
        exact heq.symm
      · rw [hold q' hq']
        exact halone q' hq' hne'
  · rw [hfrom]
    exact (hmem n).mpr (.inl rfl)
  · obtain ⟨q,hq,hqn⟩ := hin
    rw [h.kept.rep.from_head] at hq
    refine ⟨q,?_,by rw [hold q hq,hqn]⟩
    rw [hfrom]
    exact (hmem q).mpr (.inr hq)

private theorem checkPwEntry_round (hyes : ∀ n, answers n = true) (w : Walk Passwd (Db Spwd)) (a : Passwd)
    (hdb : Checked (passwdLines tools) pwFile Eq (OwnPasswd isShadow P S) (namesOf P) w.db (xs ++ p :: ys))
    (hrest : isShadow = true → ShadowKept tools P S spwFile w.rest w.changed)
    (hchanged : w.db.changed = true → w.changed = true) (hhad : HadPassword P S a.name a.passwd)
    (ha : (w.db.record p).eptr = some a) :
    (∃ code n, 0 < code ∧ checkPwEntry tools defs env isShadow answers p a w = .error (.status code,n)) ∨
    ∃ w', checkPwEntry tools defs env isShadow answers p a w = .ok w' ∧
      (isShadow = true → ShadowKept tools P S spwFile w'.rest w'.changed) ∧ (w'.db.changed = true → w'.changed = true) ∧
      (∀ name, InShadow w.rest name → isShadow = true → InShadow w'.rest name) ∧
      Checked (passwdLines tools) pwFile Eq (OwnPasswd isShadow P S) (namesOf P) w'.db (xs ++ p :: ys) ∧
      (∀ q, q ≠ p → w'.db.record q = w.db.record q) ∧ (w'.db.record p).name passwdOps = some a.name ∧
      (isShadow = true → InShadow w'.rest a.name) := by
  have hname : (w.db.record p).name passwdOps = some a.name := by rw [Record.name,ha]; rfl
  have hp : w.db.record p ∈ (xs ++ p :: ys).map w.db.record := List.mem_map_of_mem (by simp)
  unfold checkPwEntry
  cases isShadow with
  | false =>
    rw [Bool.not_false,if_pos rfl]
    exact .inr ⟨w,rfl,(by intros; contradiction),hchanged,(by intros; contradiction),hdb,fun _ _ => rfl,hname,(by intros; contradiction)⟩
  | true =>
    rw [Bool.not_true,if_neg Bool.false_ne_true]
    obtain ⟨sl,hsp,hadded,hspch⟩ := hrest rfl
    obtain ⟨found,c,hlocate,hc,hfound⟩ := hsp.kept.locate a.name
    have hlocate : commonioLocate tools.shadow.ops w.rest a.name = (found,{ w.rest with cursor := c }) := hlocate
    rw [hlocate]
    cases found with
    | some sp =>
      have hin : InShadow w.rest a.name := by
        have hnot := mt hfound.mpr (Option.some_ne_none _)
        push Not at hnot
        obtain ⟨q,hq,hqn⟩ := hnot
        exact ⟨q,hsp.kept.rep.from_head ▸ hq,hqn⟩
      exact .inr ⟨_,rfl,fun _ => ⟨sl,hsp.withCursor hc,hadded,hspch⟩,hchanged,fun _ h _ => h,hdb,fun _ _ => rfl,hname,fun _ => hin⟩
    | none =>
      obtain ⟨htext,hown,_⟩ := hdb.entry _ hp a ha
      simp only [Walk.ask,hyes]
      cases hupdate : commonioUpdate tools.shadow.ops { w.rest with cursor := c } (missingSpwd defs a) (env.memory p).2 with
      | mk ok spwDb =>
        cases ok with
        | false => exact .inl ⟨5,_,by decide,rfl⟩
        | true =>
          obtain ⟨hshadow,hin,hmono⟩ := ShadowKept.add (missingSpwd defs a) (hsp.withCursor hc) hadded (hfound.mp rfl) hown hhad
            (missingSpwd_text defs htext) hupdate
          cases hupdate' : commonioUpdate tools.passwd.ops w.db { a with passwd := shadowPasswdString } (env.memory p).1 with
          | mk ok pwDb =>
            cases ok with
            | false => exact .inl ⟨5,_,by decide,rfl⟩
            | true =>
              obtain ⟨hdb',hrecord⟩ := hdb.update_at (a := { a with passwd := shadowPasswdString }) hname
                ⟨htext.withPasswd zero_notMem_x,hown,.inl ⟨rfl,rfl⟩⟩ (htext.withPasswd zero_notMem_x) hupdate'
              refine .inr ⟨_,rfl,fun _ => hshadow,fun _ => rfl,fun name h _ => hmono name h,hdb',fun q hq => ?_,?_,fun _ => hin⟩
              · show pwDb.record q = _
                rw [hrecord,Function.update_of_ne hq]
              · show (pwDb.record p).name passwdOps = _
                rw [hrecord,Function.update_self]
                rfl

private theorem checkPwFile_repairs (hyes : ∀ n, answers n = true) :
    Repairs tools.passwd.ops isNisLine (checkPwEntry tools defs env isShadow answers)
      (Checked (passwdLines tools) pwFile Eq (OwnPasswd isShadow P S) (namesOf P))
      (fun spwDb changed => isShadow = true → ShadowKept tools P S spwFile spwDb changed)
      (fun r => ∀ pw ∈ r.eptr, HadPassword P S pw.name pw.passwd)
      (fun spwDb r => isShadow = true → ∀ pw ∈ r.eptr, InShadow spwDb pw.name) where
  rep _ _ h := h.kept.rep
  skipped _ _ h q hq hnis := .inl (h.nis _ (List.mem_map_of_mem hq) hnis)
  delete _ _ _ _ h hgo := h.delete (doubled_goes hgo)
  keeps _ _ h hshadow := by
    obtain ⟨l,hl,hadded,_⟩ := h hshadow
    exact ⟨l,hl,hadded,fun _ => rfl⟩
  round w p xs ys a hdb hrest hchanged hstart ha _ _ := by
    rcases checkPwEntry_round hyes w a hdb hrest hchanged (hstart a ha) ha with
      herr | ⟨w',hrun,hrest',hchanged',hmono,hdb',hrecord,hname,hin⟩
    · exact .inl herr
    · refine .inr ⟨w',hrun,hrest',hchanged',fun r hr hshadow pw hpw => hmono _ (hr hshadow pw hpw) hshadow,
        .inr ⟨hdb',hrecord,hname,fun hshadow pw hpw => ?_⟩⟩
      have hpw : (w'.db.record p).eptr = some pw := hpw
      have hname' : (w'.db.record p).name passwdOps = some pw.name := by rw [Record.name,hpw]; rfl
      rw [← Option.some.inj (hname.symm.trans hname')]
      exact hin hshadow

/-- The walk through passwd: entries that stay are alone, and are in the shadow. -/
theorem checkPwFile_spec (defs : LoginDefs) (env : Env) (spwFile : Option Bytes) (hyes : ∀ n, answers n = true) {w : Walk Passwd (Db Spwd)}
    (hdb : Checked (passwdLines tools) pwFile Eq (OwnPasswd isShadow P S) (namesOf P) w.db pl) (hrecords : pl.map w.db.record = P)
    (hrest : isShadow = true → ShadowKept tools P S spwFile w.rest w.changed)
    (hchanged : w.db.changed = true → w.changed = true) :
    (∃ code n, 0 < code ∧ checkPwFile tools defs env isShadow answers w = .error (.status code,n)) ∨
    ∃ w' l, checkPwFile tools defs env isShadow answers w = .ok w' ∧
      Checked (passwdLines tools) pwFile Eq (OwnPasswd isShadow P S) (namesOf P) w'.db l ∧
      (isShadow = true → ShadowKept tools P S spwFile w'.rest w'.changed) ∧ (w'.db.changed = true → w'.changed = true) ∧
      (∀ q ∈ l, isNisLine (w'.db.record q) = true ∨ Alone passwdOps w'.db l q) ∧
      (isShadow = true → ∀ name ∈ namesOf P, InShadow w'.rest name) := by
  have hstart : ∀ q ∈ pl, ∀ pw ∈ (w.db.record q).eptr, HadPassword P S pw.name pw.passwd := fun q hq pw hpw =>
    .inl ⟨w.db.record q,hrecords ▸ List.mem_map_of_mem hq,pw,hpw,rfl,rfl⟩
  rcases checkAll_repairs (checkPwFile_repairs hyes) hyes hdb hrest hchanged hstart with
    herr | ⟨w',l,hrun,hdb',hrest',hchanged',hsettled⟩
  · exact .inl herr
  · refine .inr ⟨w',l,hrun,hdb',hrest',hchanged',?_,fun hshadow name hname => ?_⟩
    · exact alone_of_settled (s := passwdLines tools) (fun q _ hskip => .inl hskip) hsettled
    · obtain ⟨q,hq,hqn⟩ := hdb'.names name hname
      obtain ⟨pw,hpw,hpwname⟩ := Option.map_eq_some_iff.mp hqn
      rcases hsettled q hq with ⟨hnis,_⟩ | ⟨_,_,hdone,_⟩
      · cases (hdb'.nis _ (List.mem_map_of_mem hq) hnis).symm.trans hpw
      · exact hpwname ▸ hdone hshadow pw hpw

private theorem checkSpwFile_repairs (hyes : ∀ n, answers n = true)
    (hpw : Checked (passwdLines tools) pwFile Eq (OwnPasswd isShadow P S) (namesOf P) pwDb pl) :
    Repairs tools.shadow.ops isAddedOrNis (checkSpwEntry tools answers)
      (fun db l => Checked (shadowLines tools) spwFile SameSpwd (OwnSpwd P S) (namesOf P) db l ∧ AddedAlone (namesOf P) db l)
      (fun db changed => OnlyCursor pwDb pl db ∧ (pwDb.changed = true → changed = true)) (fun _ => True)
      (fun _ r => ∀ sp ∈ r.eptr, sp.name ∈ namesOf P) where
  rep _ _ h := h.1.kept.rep
  skipped _ _ h q hq hskip := by
    rcases (Bool.or_eq_true _ _).mp hskip with hnone | hnis
    · obtain ⟨sp,hsp,_,halone⟩ := h.2 q hq (Option.isNone_iff_eq_none.mp hnone)
      exact .inr ⟨sp,hsp,halone⟩
    · exact .inl (h.1.nis _ (List.mem_map_of_mem hq) hnis)
  delete _ _ _ _ h hgo := ⟨h.1.delete (doubled_goes hgo),h.2.delete⟩
  keeps _ _ h := ⟨h.1,fun _ => rfl⟩
  round w p xs ys a hdb hrest hchanged _ ha _ _ := by
    obtain ⟨⟨c,hc,hcl⟩,hpwch⟩ := hrest
    have hpw' := hpw.withCursor hcl
    rw [← hc] at hpw'
    obtain ⟨found,c',hlocate,hc',hfound⟩ := hpw'.kept.locate a.name
    have hlocate : commonioLocate tools.passwd.ops w.rest a.name = (found,{ w.rest with cursor := c' }) := hlocate
    have hrest' : OnlyCursor pwDb pl { w.rest with cursor := c' } := ⟨c',by rw [hc],hc'⟩
    have hname : (w.db.record p).name shadowOps = some a.name := by rw [Record.name,ha]; rfl
    unfold checkSpwEntry
    rw [hlocate]
    cases found with
    | some pw =>
      refine .inr ⟨_,rfl,⟨hrest',hpwch⟩,hchanged,fun r hr => hr,.inr ⟨hdb,fun _ _ => rfl,hname,fun sp hsp => ?_⟩⟩
      cases ha.symm.trans hsp
      have hnot := mt hfound.mpr (Option.some_ne_none _)
      push Not at hnot
      obtain ⟨q,hq,hqn⟩ := hnot
      obtain ⟨pw',hpw'e,hpwname⟩ := Option.map_eq_some_iff.mp hqn
      have hown := (hpw'.entry _ (List.mem_map_of_mem hq) pw' hpw'e).2.1
      exact hpwname ▸ hown
    | none =>
      simp only [Walk.ask,hyes]
      have hstranger : a.name ∉ namesOf P := fun hin => by
        obtain ⟨q,hq,hqn⟩ := hpw'.names _ hin
        exact hfound.mp rfl q hq hqn
      refine .inr ⟨_,rfl,⟨hrest',fun _ => rfl⟩,fun _ => rfl,fun r hr => hr,.inl ⟨rfl,hdb.1.delete fun name hin hpn => ?_,hdb.2.delete⟩⟩
      cases Option.some.inj (hname.symm.trans hpn)
      exact absurd hin hstranger

/-- The walk through the shadow: entries that stay are alone, and have the names of passwd. -/
theorem checkSpwFile_spec (hyes : ∀ n, answers n = true)
    (hpw : Checked (passwdLines tools) pwFile Eq (OwnPasswd isShadow P S) (namesOf P) pwDb pl) {w : Walk Spwd (Db Passwd)}
    (hdb : Checked (shadowLines tools) spwFile SameSpwd (OwnSpwd P S) (namesOf P) w.db sl) (hadded : AddedAlone (namesOf P) w.db sl)
    (hrest : w.rest = pwDb) (hchanged : w.db.changed = true → w.changed = true)
    (hpwch : pwDb.changed = true → w.changed = true) :
    (∃ code n, 0 < code ∧ checkSpwFile tools answers w = .error (.status code,n)) ∨
    ∃ w' l, checkSpwFile tools answers w = .ok w' ∧
      Checked (shadowLines tools) spwFile SameSpwd (OwnSpwd P S) (namesOf P) w'.db l ∧ OnlyCursor pwDb pl w'.rest ∧
      (w'.db.changed = true → w'.changed = true) ∧ (pwDb.changed = true → w'.changed = true) ∧
      (∀ q ∈ l, isNisLine (w'.db.record q) = true ∨ Alone shadowOps w'.db l q) ∧
      ∀ q ∈ l, ∀ name, (w'.db.record q).name shadowOps = some name → name ∈ namesOf P := by
  have hcursor : OnlyCursor pwDb pl w.rest := ⟨pwDb.cursor,hrest,hpw.kept.rep.cursor⟩
  rcases checkAll_repairs (checkSpwFile_repairs hyes hpw) hyes ⟨hdb,hadded⟩ ⟨hcursor,hpwch⟩ hchanged (fun _ _ => trivial) with
    herr | ⟨w',l,hrun,⟨hdb',hadded'⟩,⟨hrest',hpwch'⟩,hchanged',hsettled⟩
  · exact .inl herr
  · -- what the walk skipped was added, and so is alone, or stands for a service
    have hskip : ∀ q ∈ l, isAddedOrNis (w'.db.record q) = true →
        isNisLine (w'.db.record q) = true ∨ (w'.db.record q).line = none := fun q _ hq => by
      rcases (Bool.or_eq_true _ _).mp hq with hnone | hnis
      · exact .inr (Option.isNone_iff_eq_none.mp hnone)
      · exact .inl hnis
    refine .inr ⟨w',l,hrun,hdb',hrest',hchanged',hpwch',?_,fun q hq name hname => ?_⟩
    · refine alone_of_settled (s := shadowLines tools) (fun q hq hs => ?_) hsettled
      rcases hskip q hq hs with hnis | hline
      · exact .inl hnis
      · obtain ⟨sp,hsp,_,halone⟩ := hadded' q hq hline
        exact .inr ⟨sp,hsp,halone⟩
    · obtain ⟨sp,hsp,hspname⟩ := Option.map_eq_some_iff.mp hname
      have hspname : sp.name = name := hspname
      rw [← hspname]
      rcases hsettled q hq with ⟨hs,_⟩ | ⟨_,_,hdone,_⟩
      · rcases hskip q hq hs with hnis | hline
        · cases (hdb'.nis _ (List.mem_map_of_mem hq) hnis).symm.trans hsp
        · obtain ⟨sp',hsp',hin,_⟩ := hadded' q hq hline
          cases hsp.symm.trans hsp'
          exact hin
      · exact hdone sp hsp

end Walks

section Files
variable {tools : Tools} {env : Env} {isShadow : Bool} {files : Files} {pwDb : Db Passwd} {spwDb : Db Spwd}

/-- Both files are in order, and have the same names. -/
structure InOrder (isShadow : Bool) (files : Files) : Prop where
  passwd : ∃ rs, readFile passwdOps files.main.file = some rs ∧ Tidy passwdOps rs
  shadow : isShadow = true → ∃ rs qs, readFile passwdOps files.main.file = some rs ∧
    readFile shadowOps files.shadow.file = some qs ∧ Tidy shadowOps qs ∧
    ∀ name, (∃ r ∈ rs, r.name passwdOps = some name) ↔ ∃ q ∈ qs, q.name shadowOps = some name

/-- Files in order leave nothing to ask, however the questions would be answered. -/
theorem pwck_asks_nothing (tools : Tools) (defs : LoginDefs) (env : Env) (answers : Nat → Bool) (h : InOrder isShadow files) :
    (pwck tools defs env isShadow answers files).2 = 0 := by
  obtain ⟨P,hP,htidy⟩ := h.passwd
  unfold pwck openFiles
  rcases openPair_cases env isShadow false tools.passwd tools.shadow files with ⟨code,_,herr⟩ | ⟨pwDb,spwDb,hopen,⟨db₀,hpw⟩,hspw⟩
  · rw [herr]
  rw [hopen]
  obtain ⟨pl,hpl,hread,_⟩ := commonioOpen_kept (s := passwdLines tools) hpw
  obtain rfl : pl.map pwDb.record = P := Option.some.inj (hread.symm.trans hP)
  have hall := fun q hq => Tidy.alone (s := passwdLines tools) (q := q) hpl.rep.nodup htidy hq
  cases isShadow with
  | false =>
    have hquiet : Quiet passwdOps isNisLine (checkPwEntry tools defs env false answers) (fun db => db = pwDb) (fun _ => True) pl :=
      ⟨fun db h => h ▸ hpl.rep,fun db h => h ▸ hall,fun w p a hdb _ _ _ => ⟨w,rfl,hdb,trivial,rfl⟩⟩
    obtain ⟨w,hrun,_,_,hasked⟩ := checkAll_quiet answers hquiet (w := ⟨pwDb,spwDb,false,0⟩) rfl trivial
    have hrun : checkPwFile tools defs env false answers ⟨pwDb,spwDb,false,0⟩ = .ok w := hrun
    simp only [hrun,Bool.not_false,if_true,hasked]
  | true =>
    obtain ⟨P',Q,hP',hQ,htidy',hnames⟩ := h.shadow rfl
    obtain rfl := Option.some.inj (hP.symm.trans hP')
    obtain ⟨db₀',hspw⟩ := hspw rfl
    obtain ⟨sl,hsl,hread',_⟩ := commonioOpen_kept (s := shadowLines tools) hspw
    obtain rfl : sl.map spwDb.record = Q := Option.some.inj (hread'.symm.trans hQ)
    have hall' := fun q hq => Tidy.alone (s := shadowLines tools) (q := q) hsl.rep.nodup htidy' hq
    have hquiet : Quiet passwdOps isNisLine (checkPwEntry tools defs env true answers) (fun db => db = pwDb)
        (OnlyCursor spwDb sl) pl := by
      refine ⟨fun db h => h ▸ hpl.rep,fun db h => h ▸ hall,fun w p a hdb hrest hp ha => ?_⟩
      have hin : ∃ q ∈ sl, (spwDb.record q).name (shadowLines tools).ops = some a.name := by
        rw [hdb] at ha
        obtain ⟨r,hr,hrn⟩ := (hnames a.name).mp ⟨_,List.mem_map_of_mem hp,by rw [Record.name,ha]; rfl⟩
        obtain ⟨q,hq,rfl⟩ := List.mem_map.mp hr
        exact ⟨q,hq,hrn⟩
      obtain ⟨sp,db',hlocate,hcursor⟩ := hrest.locate hsl hin
      have hlocate : commonioLocate tools.shadow.ops w.rest a.name = (some sp,db') := hlocate
      refine ⟨{ w with rest := db' },?_,hdb,hcursor,rfl⟩
      rw [checkPwEntry,Bool.not_true,if_neg Bool.false_ne_true,hlocate]
    obtain ⟨w,hrun,hdb,⟨c,hc,hcl⟩,hasked⟩ := checkAll_quiet answers hquiet (w := ⟨pwDb,spwDb,false,0⟩) rfl
      ⟨spwDb.cursor,rfl,hsl.rep.cursor⟩
    have hrun : checkPwFile tools defs env true answers ⟨pwDb,spwDb,false,0⟩ = .ok w := hrun
    have hquiet' : Quiet shadowOps isAddedOrNis (checkSpwEntry tools answers) (fun db => db = { spwDb with cursor := c })
        (OnlyCursor pwDb pl) sl := by
      refine ⟨fun db h => h ▸ (hsl.withCursor hcl).rep,fun db h q hq => ?_,fun w p a hdb hrest hp ha => ?_⟩
      · subst h
        rcases hall' q hq with hnis | halone
        · exact .inl ((Bool.or_eq_true _ _).mpr (.inr hnis))
        · exact .inr halone
      · have hin : ∃ q ∈ pl, (pwDb.record q).name (passwdLines tools).ops = some a.name := by
          rw [hdb] at ha
          have ha : (spwDb.record p).eptr = some a := ha
          obtain ⟨r,hr,hrn⟩ := (hnames a.name).mpr ⟨_,List.mem_map_of_mem hp,by rw [Record.name,ha]; rfl⟩
          obtain ⟨q,hq,rfl⟩ := List.mem_map.mp hr
          exact ⟨q,hq,hrn⟩
        obtain ⟨pw,db',hlocate,hcursor⟩ := hrest.locate hpl hin
        have hlocate : commonioLocate tools.passwd.ops w.rest a.name = (some pw,db') := hlocate
        refine ⟨{ w with rest := db' },?_,hdb,hcursor,rfl⟩
        rw [checkSpwEntry,hlocate]
    obtain ⟨w',hrun',_,_,hasked'⟩ := checkAll_quiet answers hquiet' (w := ⟨w.rest,w.db,w.changed,w.questions⟩) hc
      ⟨pwDb.cursor,hdb,hpl.rep.cursor⟩
    have hrun' : checkSpwFile tools answers ⟨w.rest,w.db,w.changed,w.questions⟩ = .ok w' := hrun'
    simp only [hrun,hrun',Bool.not_true,Bool.false_eq_true,if_false]
    exact hasked'.trans hasked

/-- What closing leaves: the records of both databases, or the files as they were. -/
theorem closeFiles_cases (env : Env) (isShadow : Bool) (spwDb : Db Spwd) {pl l : List Nat} {D : Passwd → Prop} {E : Spwd → Prop}
    {N M : Set Bytes} {changed : Bool} (hpw : Checked (passwdLines tools) files.main.file Eq D N pwDb pl)
    (hpwch : pwDb.changed = true → changed = true)
    (hspw : isShadow = true → Checked (shadowLines tools) files.shadow.file SameSpwd E M spwDb l)
    (hspwch : isShadow = true → spwDb.changed = true → changed = true) :
    (∃ code, 0 < code ∧ closeFiles tools env isShadow changed pwDb spwDb files = .error (.status code)) ∨
    ∃ files', closeFiles tools env isShadow changed pwDb spwDb files = .ok files' ∧
      Rewritten (passwdLines tools) Eq (pl.map pwDb.record) files'.main.file ∧
      (isShadow = true → Rewritten (shadowLines tools) SameSpwd (l.map spwDb.record) files'.shadow.file) ∧
      (isShadow = false → files'.shadow = files.shadow) :=
  closePair_cases (s := passwdLines tools) (t := shadowLines tools) env isShadow (fun _ _ h => h.symm) (fun _ _ h => h)
    hpw hpwch hspw hspwch

section Outcome
variable {P : List (Record Passwd)} {S : List (Record Spwd)} {files' : Files} {pl sl : List Nat}

/-- What the two walks and the closing leave of the shadow. -/
structure ShadowLeft (tools : Tools) (P : List (Record Passwd)) (S : List (Record Spwd)) (file file' : Option Bytes)
    (db : Db Spwd) (l : List Nat) : Prop where
  checked : Checked (shadowLines tools) file SameSpwd (OwnSpwd P S) (namesOf P) db l
  alone : ∀ q ∈ l, isNisLine (db.record q) = true ∨ Alone shadowOps db l q
  known : ∀ q ∈ l, ∀ name, (db.record q).name shadowOps = some name → name ∈ namesOf P
  written : Rewritten (shadowLines tools) SameSpwd (l.map db.record) file'

/-- What they leave of passwd. -/
structure PasswdLeft (tools : Tools) (isShadow : Bool) (P : List (Record Passwd)) (S : List (Record Spwd))
    (file file' : Option Bytes) (db : Db Passwd) (l : List Nat) : Prop where
  checked : Checked (passwdLines tools) file Eq (OwnPasswd isShadow P S) (namesOf P) db l
  alone : ∀ q ∈ l, isNisLine (db.record q) = true ∨ Alone passwdOps db l q
  written : Rewritten (passwdLines tools) Eq (l.map db.record) file'

private theorem inOrder_of_left (hpw : PasswdLeft tools isShadow P S files.main.file files'.main.file pwDb pl)
    (hspw : isShadow = true → ShadowLeft tools P S files.shadow.file files'.shadow.file spwDb sl) : InOrder isShadow files' := by
  have hsame : ∀ a b : Passwd, a = b → b.name = a.name := fun a b h => congrArg Passwd.name h.symm
  have hsame' : ∀ a b, SameSpwd a b → b.name = a.name := fun a b h => SameSpwd.name h
  refine ⟨⟨_,hpw.written.read,hpw.checked.tidy hsame hpw.written.rel hpw.alone⟩,fun hshadow => ?_⟩
  have h := hspw hshadow
  refine ⟨_,_,hpw.written.read,h.written.read,h.checked.tidy hsame' h.written.rel h.alone,fun name => ?_⟩
  refine (exists_name_again hsame hpw.written.rel).trans (Iff.trans ?_ (exists_name_again hsame' h.written.rel).symm)
  constructor
  · rintro ⟨q,hq,hname⟩
    obtain ⟨pw,hpwe,hpwname⟩ := Option.map_eq_some_iff.mp hname
    have hown := hpw.checked.entry _ (List.mem_map_of_mem hq) pw hpwe
    exact h.checked.names name (hpwname ▸ hown.2.1)
  · rintro ⟨q,hq,hname⟩
    exact hpw.checked.names name (h.known q hq name hname)

/-- Every password that counts is an old one of the same name. -/
theorem password_of_left (hpw : PasswdLeft tools isShadow P S files.main.file files'.main.file pwDb pl)
    (hspw : isShadow = true → ShadowLeft tools P S files.shadow.file files'.shadow.file spwDb sl)
    (hkept : isShadow = false → readFile shadowOps files'.shadow.file = some S ∨ readFile shadowOps files'.shadow.file = none)
    {name passwd : Bytes} (h : tools.accounts.password files' name = some passwd) : HadPassword P S name passwd := by
  obtain ⟨pw',hpw',hcounts⟩ := Option.map_eq_some_iff.mp h
  obtain ⟨q,hq,pw,hpwe,hsame,hname⟩ := entry_of_rewritten hpw.written hpw'
  obtain rfl := hsame.symm
  have hname : pw'.name = name := hname
  subst hname
  obtain ⟨_,hin,hown⟩ := hpw.checked.entry _ (List.mem_map_of_mem hq) pw' hpwe
  have hcounts : (if pw'.passwd = shadowPasswdString then
      ((fileEntry shadowOps files'.shadow.file pw'.name).map Spwd.pwdp).getD pw'.passwd else pw'.passwd) = passwd := hcounts
  by_cases hx : pw'.passwd = shadowPasswdString
  · rw [if_pos hx] at hcounts
    cases hsp : fileEntry shadowOps files'.shadow.file pw'.name with
    | some sp' =>
      rw [hsp] at hcounts
      have hcounts : sp'.pwdp = passwd := hcounts
      cases isShadow with
      | true =>
        have hleft := hspw rfl
        obtain ⟨q',hq',sp,hspe,hsame,hname⟩ := entry_of_rewritten hleft.written hsp
        have hold := hleft.checked.entry _ (List.mem_map_of_mem hq') sp hspe
        have hname : sp'.name = pw'.name := hname
        rw [← hcounts,← hname,SameSpwd.name hsame,SameSpwd.pwdp hsame]
        exact hold
      | false =>
        rcases hkept rfl with hread | hread
        · rw [fileEntry,hread,Option.bind_some] at hsp
          obtain ⟨r,hr,hrsp,hname⟩ := lookup_eq_some hsp
          exact .inr ⟨r,hr,sp',hrsp,hname,hcounts⟩
        · rw [fileEntry,hread] at hsp
          cases hsp
    | none =>
      rw [hsp] at hcounts
      have hcounts : pw'.passwd = passwd := hcounts
      rcases hown with ⟨hshadow,_⟩ | hhad
      · -- the entry would be in the shadow
        have hleft := hspw hshadow
        obtain ⟨r,hr,hrn⟩ := (exists_name_again (fun a b h => SameSpwd.name h) hleft.written.rel).mpr (hleft.checked.names _ hin)
        have hread : readFile shadowOps files'.shadow.file = some ((sl.map spwDb.record).map (shadowLines tools).again) :=
          hleft.written.read
        rw [fileEntry,hread,Option.bind_some,lookup_eq_none] at hsp
        have hmem := mem_named.mpr ⟨hr,hrn⟩
        rw [show named (shadowLines tools).ops pw'.name _ = [] from hsp] at hmem
        cases hmem
      · exact hcounts ▸ hhad
  · rw [if_neg hx] at hcounts
    rcases hown with ⟨_,hx'⟩ | hhad
    · exact absurd hx' hx
    · exact hcounts ▸ hhad

end Outcome

/-- The password stood in a line of that name of one of the files. -/
def HadPasswordIn (files : Files) (name passwd : Bytes) : Prop :=
  HadPassword ((readFile passwdOps files.main.file).getD []) ((readFile shadowOps files.shadow.file).getD []) name passwd

/-- What is said of a run with yes to everything: it ends, and where it succeeds, both files are in order,
each password that counts stood in one of them before, and another run asks nothing. -/
structure Repaired (tools : Tools) (isShadow : Bool) (files : Files) (run : Except Exit Files × Nat) : Prop where
  ends : run.1 ≠ .error .endless
  inOrder : ∀ files', run.1 = .ok files' → InOrder isShadow files'
  password : ∀ files', run.1 = .ok files' →
    ∀ name passwd, tools.accounts.password files' name = some passwd → HadPasswordIn files name passwd
  quiet : ∀ files', run.1 = .ok files' → ∀ tools' defs env answers, (pwck tools' defs env isShadow answers files').2 = 0

theorem Repaired.of_status {code n : Nat} : Repaired tools isShadow files (.error (.status code),n) := ⟨nofun,nofun,nofun,nofun⟩

theorem Repaired.of_left (spwDb : Db Spwd) {P : List (Record Passwd)} {S : List (Record Spwd)} {files' : Files} {pl l : List Nat} {n : Nat}
    (hP : readFile passwdOps files.main.file = some P) (hS : (readFile shadowOps files.shadow.file).getD [] = S)
    (hpw : PasswdLeft tools isShadow P S files.main.file files'.main.file pwDb pl)
    (hspw : isShadow = true → ShadowLeft tools P S files.shadow.file files'.shadow.file spwDb l)
    (hkept : isShadow = false → files'.shadow = files.shadow) : Repaired tools isShadow files (.ok files',n) := by
  have horder := inOrder_of_left hpw hspw
  refine ⟨nofun,fun files'' heq => ?_,fun files'' heq name passwd h => ?_,fun files'' heq tools' defs env answers => ?_⟩
  · cases heq
    exact horder
  · cases heq
    unfold HadPasswordIn
    rw [hP,hS]
    refine password_of_left hpw hspw (fun hno => ?_) h
    rw [hkept hno,← hS]
    cases readFile shadowOps files.shadow.file with
    | none => exact .inr rfl
    | some S => exact .inl rfl
  · cases heq
    exact pwck_asks_nothing tools' defs env answers horder

/-- One run is enough. -/
theorem pwck_repairs (tools : Tools) (defs : LoginDefs) (env : Env) (isShadow : Bool) (files : Files) :
    Repaired tools isShadow files (pwck tools defs env isShadow (fun _ => true) files) := by
  unfold pwck openFiles
  rcases openPair_cases env isShadow false tools.passwd tools.shadow files with ⟨code,_,herr⟩ | ⟨pwDb,spwDb,hopen,⟨db₀,hpw⟩,hspw⟩
  · rw [herr]
    exact .of_status
  rw [hopen]
  obtain ⟨P,hP⟩ : ∃ P, readFile passwdOps files.main.file = some P := by
    obtain ⟨l,_,hread,_⟩ := commonioOpen_kept (s := passwdLines tools) hpw
    exact ⟨_,hread⟩
  obtain ⟨pl,hpl,hrecords,hch⟩ : ∃ l, Checked (passwdLines tools) files.main.file Eq
      (OwnPasswd isShadow P ((readFile shadowOps files.shadow.file).getD [])) (namesOf P) pwDb l ∧ l.map pwDb.record = P ∧
        pwDb.changed = false := by
    refine Checked.of_open (fun _ => rfl) hpw hP (fun r hr pw hpwe => ?_) fun _ hname => hname
    have hpwe : r.eptr = some pw := hpwe
    refine ⟨?_,⟨r,hr,by rw [Record.name,hpwe]; rfl⟩,.inr (.inl ⟨r,hr,pw,hpwe,rfl,rfl⟩)⟩
    exact tools.passwd.read r (readFile_isRead tools.passwd.parts hP r hr).1 pw hpwe
  have hnochange : pwDb.changed = true → false = true := fun h => hch ▸ h
  cases hshadow : isShadow with
  | false =>
    subst hshadow
    rcases checkPwFile_spec defs env files.shadow.file (fun _ => rfl) (w := ⟨pwDb,spwDb,false,0⟩) hpl hrecords 
        (by intros; contradiction) hnochange with
      ⟨code,n,_,herr⟩ | ⟨w,l,hrun,hdb,_,hchanged,halone,_⟩
    · simp only [herr]
      exact .of_status
    · simp only [hrun,Bool.not_false,if_true]
      rcases closeFiles_cases env false w.rest (l := []) (E := fun _ => True) (M := ∅) hdb hchanged (by intros; contradiction)
        (by intros; contradiction) with ⟨code,_,herr⟩ | ⟨files',hclose,hwritten,_,hkept⟩
      · rw [herr]
        exact .of_status
      · rw [hclose]
        exact .of_left w.rest (l := []) hP rfl ⟨hdb,halone,hwritten⟩ (by intros; contradiction) hkept
  | true =>
    subst hshadow
    obtain ⟨db₀',hspw⟩ := hspw rfl
    obtain ⟨S,hS⟩ : ∃ S, readFile shadowOps files.shadow.file = some S := by
      obtain ⟨l,_,hread,_⟩ := commonioOpen_kept (s := shadowLines tools) hspw
      exact ⟨_,hread⟩
    rw [hS] at hpl
    obtain ⟨sl,hsl,hrecords',hspch⟩ : ∃ l, Checked (shadowLines tools) files.shadow.file SameSpwd (OwnSpwd P S) ∅ spwDb l ∧
        l.map spwDb.record = S ∧ spwDb.changed = false :=
      Checked.of_open (tools.shadow.refl) hspw hS (fun r hr sp hsp => .inr ⟨r,hr,sp,hsp,rfl,rfl⟩) (by intros; contradiction)
    have hadded : AddedAlone (namesOf P) spwDb sl := fun q hq hline => by
      obtain ⟨line,_,hrecord⟩ := (shadowLines tools).record_line hS _ (hrecords' ▸ List.mem_map_of_mem hq)
      rw [hrecord] at hline
      cases hline
    rcases checkPwFile_spec defs env files.shadow.file (fun _ => rfl) (w := ⟨pwDb,spwDb,false,0⟩) hpl hrecords
        (fun _ => ⟨sl,hsl,hadded,fun h => hspch ▸ h⟩) hnochange with
      ⟨code,n,_,herr⟩ | ⟨w,l,hrun,hdb,hrest,hchanged,halone,hin⟩
    · simp only [herr]
      exact .of_status
    simp only [hrun,Bool.not_true,Bool.false_eq_true,if_false]
    obtain ⟨sl',hsl',hadded',hspch'⟩ := hrest rfl
    have hnames : ∀ name ∈ namesOf P, ∃ q ∈ sl', (w.rest.record q).name (shadowLines tools).ops = some name := fun name hname => by
      obtain ⟨q,hq,hqn⟩ := hin rfl name hname
      exact ⟨q,hsl'.kept.rep.from_head ▸ hq,hqn⟩
    rcases checkSpwFile_spec (fun _ => rfl) hdb (w := ⟨w.rest,w.db,w.changed,w.questions⟩) (hsl'.withNames hnames) hadded' rfl
      hspch' hchanged with ⟨code,n,_,herr⟩ | ⟨w',l',hrun',hdb',⟨c,hc,hcl⟩,hchanged',hpwch,halone',hknown⟩
    · simp only [herr]
      exact .of_status
    simp only [hrun']
    rcases closeFiles_cases env true w'.db (hc ▸ hdb.withCursor hcl) (hc ▸ hpwch) (fun _ => hdb') (fun _ => hchanged') with
      ⟨code,_,herr⟩ | ⟨files',hclose,hwritten,hwritten',hkept⟩
    · rw [herr]
      exact .of_status
    · rw [hclose]
      exact .of_left w'.db hP (by rw [hS,Option.getD_some]) ⟨hc ▸ hdb.withCursor hcl,hc ▸ halone,hwritten⟩
        (fun _ => ⟨hdb',halone',hknown,hwritten' rfl⟩) hkept

end Files

def untidyFiles : Files :=
  ⟨⟨some (ascii "root:x:0:0::/root:/bin/sh\nbroken\nbob:secret:7:7::/:/bin/sh\nbob:other:8:8::/:/bin/sh\n+\n"),none⟩,
    ⟨some (ascii "root:hidden:1::::::\nghost:pw:1::::::\nroot:second:1::::::\n"),none⟩⟩

/-- Two doubled names, a line that is none, a missing and a superfluous entry: five questions, and then none. -/
theorem pwck_repairs_untidy :
    ∃ files' : Files, pwck plainTools defaultDefs calmEnv true (fun _ => true) untidyFiles = (.ok files',5) ∧
      files'.main.file = some (ascii "root:x:0:0::/root:/bin/sh\nbob:x:8:8::/:/bin/sh\n+\n") ∧
      files'.shadow.file = some (ascii "root:second:1::::::\nbob:other:20000::99999:7:::\n") ∧
      (pwck plainTools defaultDefs calmEnv true (fun _ => false) files').2 = 0 := by
  have hrun : ((pwck plainTools defaultDefs calmEnv true (fun _ => true) untidyFiles).1.toOption.map fun files =>
      (files.main.file,files.shadow.file)) = some (some (ascii "root:x:0:0::/root:/bin/sh\nbob:x:8:8::/:/bin/sh\n+\n"),
        some (ascii "root:second:1::::::\nbob:other:20000::99999:7:::\n")) := by decide +kernel
  have hasked : (pwck plainTools defaultDefs calmEnv true (fun _ => true) untidyFiles).2 = 5 := by decide +kernel
  have hquiet := (pwck_repairs plainTools defaultDefs calmEnv true untidyFiles).quiet
  rcases hresult : pwck plainTools defaultDefs calmEnv true (fun _ => true) untidyFiles with ⟨_ | files',n⟩
  · rw [hresult] at hrun
    cases hrun
  · rw [hresult] at hrun hasked hquiet
    cases hasked
    have hfiles := Prod.mk.inj (Option.some.inj hrun)
    exact ⟨files',rfl,hfiles.1,hfiles.2,hquiet files' rfl plainTools defaultDefs calmEnv fun _ => false⟩

end UserDb.Programs.Pwck
