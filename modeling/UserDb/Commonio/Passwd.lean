import UserDb.Commonio.Content
import UserDb.Commonio.Runs

/-! The passwd file: which names are accepted for an account, how a line is read and
written, and what of a stored account is found again. -/
namespace UserDb.Commonio
open UserDb.Base UserDb.Atoi

structure Passwd where
  name : Bytes
  passwd : Bytes
  uid : UInt32
  gid : UInt32
  gecos : Bytes
  dir : Bytes
  shell : Bytes
  deriving DecidableEq, Repr

/-- What stands in place of a password that is in the shadow file. -/
def shadowPasswdString : Bytes := [120]

def sgetpwent (s : Bytes) : Option Passwd :=
  match (s.takeWhile (· != newline)).splitOn colon with
  | [name,passwd,uid,gid,gecos,dir,shell] =>
    if uid.isEmpty || gid.isEmpty then none
    else
      match getUid uid, getGid gid with
      | some uid, some gid => some ⟨name,passwd,uid.toUInt32,gid.toUInt32,gecos,dir,shell⟩
      | _, _ => none
  | _ => none

def passwdFields (pw : Passwd) : List Bytes :=
  [pw.name,pw.passwd,numeral pw.uid.toNat,numeral pw.gid.toNat,pw.gecos,pw.dir,pw.shell]

/-- The text of an account, as its line in the file. -/
def passwdLine (pw : Passwd) : Bytes := [colon].intercalate (passwdFields pw)

/-- What the library writes of an account: a NIS entry has no numbers. -/
def passwdText (pw : Passwd) : Bytes :=
  if nameIsNis pw.name then [colon].intercalate [pw.name,pw.passwd,[],[],pw.gecos,pw.dir,pw.shell] else passwdLine pw

/-- The library function that writes an account: where it succeeds, it writes its text. -/
structure Putpwent where
  run : Passwd → Option Bytes
  writes : ∀ pw bytes, run pw = some bytes → bytes = passwdText pw ++ [newline]

def passwdPut (putpwent : Putpwent) (pw : Passwd) : Option Bytes :=
  if validField pw.name [colon,newline] == -1 || validField pw.passwd [colon,newline] == -1 ||
      pw.uid == 0xFFFFFFFF || pw.gid == 0xFFFFFFFF || validField pw.gecos [colon,newline] == -1 ||
      validField pw.dir [colon,newline] == -1 || validField pw.shell [colon,newline] == -1 ||
      pw.name.length + pw.passwd.length + pw.gecos.length + pw.dir.length + pw.shell.length + 100 > 32768 then none
  else putpwent.run pw

def passwdOps : Ops Passwd where
  getname := Passwd.name
  parse := sgetpwent
  openHook := none

section Names

def isNameStart (b : UInt8) : Bool :=
  (97 ≤ b && b ≤ 122) || (65 ≤ b && b ≤ 90) || (48 ≤ b && b ≤ 57) || b == 95 || b == 46

/-- The loop over what follows the first byte; a dollar sign may be the last one. -/
def isNameTail : Bytes → Bool
  | [] => true
  | b :: rest => (isNameStart b || b == 45 || (b :: rest) == [36]) && isNameTail rest

def isValidName (name : Bytes) (badnames : Bool) : Bool :=
  if name == [] || name == [46] || name == [46,46] || name.head? == some 45 ||
      name.any (ascii " \"#',/:;").contains || name.any isCntrl || name.all isDigit then false
  else if badnames then true
  else
    match name with
    | [] => false
    | b :: rest => isNameStart b && isNameTail rest

def isValidUserName (loginNameMax : Nat) (name : Bytes) (badnames : Bool) : Bool :=
  if name.length ≥ loginNameMax then false else isValidName name badnames

private theorem isValidUserName_head {loginNameMax : Nat} {name : Bytes} {badnames : Bool}
    (h : isValidUserName loginNameMax name badnames = true) : name.head? ≠ some 45 := by
  unfold isValidUserName isValidName at h
  rintro hminus
  simp [hminus] at h

/-- With the stricter rules no accepted name starts like a NIS line. -/
theorem isValidUserName_notNis {loginNameMax : Nat} {name : Bytes}
    (h : isValidUserName loginNameMax name false = true) : nameIsNis name = false := by
  unfold isValidUserName isValidName at h
  split at h
  · cases h
  · split at h
    · cases h
    · cases name with
      | nil => rfl
      | cons b rest =>
        have hstart : isNameStart b = true := (Bool.and_eq_true_iff.mp (by simpa using h)).1
        refine Bool.eq_false_iff.mpr fun hnis => ?_
        simp only [nameIsNis,List.head?_cons,Bool.or_eq_true,beq_iff_eq,Option.some.injEq] at hnis
        rcases hnis with rfl | rfl <;> exact absurd hstart (by decide)

end Names

section Lines
variable {pw : Passwd}

/-- An account whose line says what it is. -/
def Passwd.Writable (pw : Passwd) : Prop :=
  ∀ field ∈ passwdFields pw, ∀ b ∈ field, b ≠ colon ∧ b ≠ newline

/-- A line that was written is read back as the account it was written from. -/
theorem sgetpwent_passwdLine (h : pw.Writable) : sgetpwent (passwdLine pw) = some pw := by
  obtain ⟨_,hsplit,htake⟩ := fieldsLine_spec h (List.cons_ne_nil _ _)
  have huid : getUid (numeral pw.uid.toNat) = some pw.uid.toNat := getUid_numeral pw.uid.toNat_lt
  have hgid : getGid (numeral pw.gid.toNat) = some pw.gid.toNat := getGid_numeral pw.gid.toNat_lt
  have hne : ∀ n : Nat, (numeral n).isEmpty = false := fun n => by simpa using numeral_ne_nil n
  simp only [sgetpwent,passwdLine,htake,hsplit]
  simp only [passwdFields,hne,huid,hgid]
  simp

/-- What is written passed the checks of the writer. -/
theorem passwdPut_eq_some {putpwent : Putpwent} {bytes : Bytes} (h : passwdPut putpwent pw = some bytes) :
    pw.Writable ∧ bytes = passwdText pw ++ [newline] := by
  unfold passwdPut at h
  split at h
  · cases h
  · rename_i hfields
    simp only [Bool.or_eq_true,not_or,Bool.not_eq_true] at hfields
    obtain ⟨⟨⟨⟨⟨⟨⟨hname,hpasswd⟩,_⟩,_⟩,hgecos⟩,hdir⟩,hshell⟩,_⟩ := hfields
    have hfield : ∀ {field : Bytes}, (validField field [colon,newline] == -1) = false →
        ∀ b ∈ field, b ≠ colon ∧ b ≠ newline := fun hvalid b hb => by
      simpa using validField_ne hvalid b hb
    refine ⟨?_,putpwent.writes pw bytes h⟩
    simp only [Passwd.Writable,passwdFields,List.forall_mem_cons]
    exact ⟨hfield hname,hfield hpasswd,fun b hb => numeral_ne_sep hb,fun b hb => numeral_ne_sep hb,
      hfield hgecos,hfield hdir,hfield hshell,nofun⟩

/-- What holds of the bytes of the fields holds of those of the text, separators apart. -/
theorem passwdText_fields (pw : Passwd) :
    ∃ second rest, passwdText pw = [colon].intercalate (pw.name :: second :: rest) ∧
      ∀ field ∈ pw.name :: second :: rest, field = [] ∨ field ∈ passwdFields pw := by
  unfold passwdText
  split
  · refine ⟨_,_,rfl,?_⟩
    simp [passwdFields]
  · exact ⟨_,_,rfl,fun field hf => .inr hf⟩

theorem passwdText_notNis (pw : Passwd) : nameIsNis (passwdText pw) = nameIsNis pw.name := by
  obtain ⟨second,rest,htext,_⟩ := passwdText_fields pw
  rw [htext,fieldsLine_notNis]

theorem passwdText_isLine (h : pw.Writable) (hzero : ∀ field ∈ passwdFields pw, (0 : UInt8) ∉ field) :
    IsLine (passwdText pw) := by
  obtain ⟨second,rest,htext,hfields⟩ := passwdText_fields pw
  rw [htext]
  refine ⟨(fieldsLine_spec (fun field hf b hb => ?_) (List.cons_ne_nil _ _)).1,zero_notMem_fieldsLine fun field hf hz => ?_⟩
  · rcases hfields field hf with rfl | hf
    · cases hb
    · exact h field hf b hb
  · rcases hfields field hf with rfl | hf
    · cases hz
    · exact hzero field hf hz

/-- How the text of a written account is read: not at all where the name makes it a NIS line. -/
theorem lineRecord_passwdText (h : pw.Writable) :
    lineRecord passwdOps (passwdText pw) =
      ⟨some (passwdText pw),if nameIsNis pw.name then none else some pw,false⟩ := by
  rw [lineRecord,lineEntry,passwdText_notNis]
  cases hnis : nameIsNis pw.name with
  | true => rfl
  | false =>
    have hparse : passwdOps.parse (passwdText pw) = some pw := by
      rw [passwdText,hnis,if_neg Bool.false_ne_true]
      exact sgetpwent_passwdLine h
    rw [hparse]
    rfl

end Lines

section Survival

/-- What any opening of `file` finds: the stored account, and the entries of all other names
that there were before. -/
def AccountSurvives (pw : Passwd) (before : Db Passwd) (file : Option Bytes) : Prop :=
  ∀ (db : Db Passwd) (access : AccessMode) (create : Bool), refusesOpen db access = false →
    ∃ db', commonioOpen passwdOps db access create (fileState file) true = (true,db') ∧
      (commonioLocate passwdOps db' pw.name).1 = some pw ∧
      ∀ name, name ≠ pw.name → db'.entriesNamed passwdOps name = before.entriesNamed passwdOps name

section Session
variable {putpwent : Putpwent} {pw : Passwd} {db₀ db₁ db₂ : Db Passwd} {disk : Disk} {access : AccessMode}
  {create memory memory' selinux : Bool} {steps : CloseSteps}

/-- What the writer takes of an account is its text. -/
theorem passwd_writesLines (putpwent : Putpwent) (pw : Passwd) (hzero : ∀ field ∈ passwdFields pw, (0 : UInt8) ∉ field) :
    WritesLines (plainCloseOps (passwdPut putpwent)) (· = pw) Passwd.Writable fun a => [passwdText a] :=
  plainCloseOps_writesLines fun a bs ha hbs => by
    obtain rfl := ha
    obtain ⟨hwritable,rfl⟩ := passwdPut_eq_some hbs
    exact ⟨rfl,passwdText_isLine hwritable hzero,hwritable⟩

/-- The file after a session that stored one account: its line in place of the old one. -/
theorem stored_account_file (htext : ∀ field ∈ passwdFields pw, (0 : UInt8) ∉ field)
    (hopen : commonioOpen passwdOps db₀ access create (fileState disk.file) memory = (true,db₁))
    (hupdate : commonioUpdate passwdOps db₁ pw memory' = (true,db₂))
    (hclose : (commonioClose selinux (plainCloseOps (passwdPut putpwent)) steps db₂ disk.file disk).1 = true) :
    ∃ xs ys, readFile passwdOps (commonioClose selinux (plainCloseOps (passwdPut putpwent)) steps db₂ disk.file disk).2.2.file =
        some (xs ++ lineRecord passwdOps (passwdText pw) :: ys) ∧ pw.Writable ∧
      (∀ q ∈ xs ++ ys, q.name passwdOps ≠ some pw.name) ∧
      ∀ name, name ≠ pw.name →
        (named passwdOps name (xs ++ ys)).filterMap Record.eptr = db₁.entriesNamed passwdOps name := by
  have hparts : passwdOps.NamesParts := namesParts_of_no_hook rfl
  obtain ⟨l,stale,hread,hloaded,_,hstale⟩ := commonioOpen_loaded hparts hopen
  obtain rfl := hstale rfl
  have hunchanged := fun r hr => (readFile_isRead hparts hread r hr).2
  have hedit := edit_of_update hupdate
  obtain ⟨l',stale,hloaded',hstale,hstep,hch⟩ := hloaded.edit hedit (hloaded.rep.editIsLinked _)
  obtain rfl := hstale rfl
  obtain ⟨hisopen,hwrite⟩ := edit_flags hedit
  obtain ⟨⟨r,hr,hrch⟩,honly⟩ := hstep.changed hunchanged
  obtain ⟨hfile,hgood⟩ := hloaded'.close (passwd_writesLines putpwent pw htext)
    (fun r hr hch a ha => Option.some.inj (ha.symm.trans (honly r hr hch))) hisopen hch hwrite hclose
  have hwritable : pw.Writable := hgood r hr hrch pw (honly r hr hrch)
  obtain ⟨xs,old,ys,hrs,hold,hne,hreread⟩ := hstep.reread passwdText hunchanged
  refine ⟨xs,ys,?_,hwritable,hne,fun name hname => ?_⟩
  · rw [readFile_written rfl hloaded'.read hloaded'.stored hfile,hreread]
  · have hdropped : named passwdOps name old = [] := named_of_ne fun q hq heq => by
      rw [hold q hq] at heq
      exact hname (Option.some.inj heq).symm
    rw [Db.Holds.entriesNamed ⟨l,false,hloaded.rep,hrs⟩,named_append,named_append,named_append,hdropped,List.append_nil]

/-- An accepted account is found again exactly where its name does not start with a plus sign. -/
theorem accepted_account_survives_iff {loginNameMax : Nat} {badnames : Bool}
    (hname : isValidUserName loginNameMax pw.name badnames = true)
    (htext : ∀ field ∈ passwdFields pw, (0 : UInt8) ∉ field)
    (hopen : commonioOpen passwdOps db₀ access create (fileState disk.file) memory = (true,db₁))
    (hupdate : commonioUpdate passwdOps db₁ pw memory' = (true,db₂))
    (hclose : (commonioClose selinux (plainCloseOps (passwdPut putpwent)) steps db₂ disk.file disk).1 = true) :
    AccountSurvives pw db₁ (commonioClose selinux (plainCloseOps (passwdPut putpwent)) steps db₂ disk.file disk).2.2.file ↔
      pw.name.head? ≠ some 43 := by
  obtain ⟨xs,ys,hfile,hwritable,hne,hothers⟩ := stored_account_file htext hopen hupdate hclose
  have hnis : nameIsNis pw.name = (pw.name.head? == some 43) := by
    have hminus := isValidUserName_head hname
    simp [nameIsNis,hminus]
  rw [lineRecord_passwdText hwritable] at hfile
  have hlocate := lookup_middle (r := ⟨some (passwdText pw),if nameIsNis pw.name then none else some pw,false⟩) hne
  have hexists : ∀ create : Bool, (commonioClose selinux (plainCloseOps (passwdPut putpwent)) steps db₂ disk.file disk).2.2.file =
      none → create = true := fun create hnone => by
    rw [hnone] at hfile
    cases xs <;> cases hfile
  constructor
  · intro hsurvives hplus
    obtain ⟨db,hrun,hfound,_⟩ := hsurvives { db₀ with isopen := false } .rdonly false rfl
    obtain ⟨db',l,stale,hrun',hloaded,hrs,hisopen⟩ := commonioOpen_of_readFile (namesParts_of_no_hook rfl)
      (rfl : refusesOpen { db₀ with isopen := false } .rdonly = false) hfile (hexists false)
    cases hrun.symm.trans hrun'
    rw [hloaded.locate hisopen,hrs,hlocate,hnis,hplus] at hfound
    cases hfound
  · intro hplus db access create hguard
    obtain ⟨db',l,stale,hrun,hloaded,hrs,hisopen⟩ := commonioOpen_of_readFile (namesParts_of_no_hook rfl) hguard hfile
      (hexists create)
    have hread : nameIsNis pw.name = false := by rw [hnis]; simpa using hplus
    refine ⟨db',hrun,?_,fun name hother => ?_⟩
    · rw [hloaded.locate hisopen,hrs,hlocate,hread]
      exact if_pos rfl
    · have hnot : named passwdOps name [(⟨some (passwdText pw),some pw,false⟩ : Record Passwd)] = [] :=
        named_of_ne fun q hq => by
          rw [List.mem_singleton.mp hq]
          exact fun heq => hother (Option.some.inj heq).symm
      rw [Db.Holds.entriesNamed ⟨l,stale,hloaded.rep,hrs⟩,← hothers name hother,hread,if_neg Bool.false_ne_true,
        List.append_cons,named_append,named_append,hnot,List.append_nil,← named_append]

end Session

def plainPutpwent : Putpwent where
  run pw := some (passwdText pw ++ [newline])
  writes _ _ h := (Option.some.inj h).symm

def rootDisk : Disk := ⟨some (ascii "root:x:0:0::/root:/bin/sh\n"),none⟩

/-- A database that was locked and not yet opened. -/
def lockedPasswd : Db Passwd := Db.initial (fun _ => ⟨none,none,none,none,false⟩) 0 true

def openedPasswd : Db Passwd := (commonioOpen passwdOps lockedPasswd .rdwr false (fileState rootDisk.file) true).2

def accountNamed (name : Bytes) : Passwd := ⟨name,ascii "x",1000,1000,[],ascii "/home",ascii "/bin/sh"⟩

def storedPasswd (pw : Passwd) : Db Passwd := (commonioUpdate passwdOps openedPasswd pw true).2

theorem accepted_account_survives_iff_bob :
    AccountSurvives (accountNamed (ascii "bob")) openedPasswd
      (commonioClose false (plainCloseOps (passwdPut plainPutpwent)) allSteps (storedPasswd (accountNamed (ascii "bob")))
        rootDisk.file rootDisk).2.2.file :=
  have hname : isValidUserName 256 (ascii "bob") false = true := by decide
  have hopen : commonioOpen passwdOps lockedPasswd .rdwr false (fileState rootDisk.file) true = (true,openedPasswd) := rfl
  have hupdate : commonioUpdate passwdOps openedPasswd (accountNamed (ascii "bob")) true =
      (true,storedPasswd (accountNamed (ascii "bob"))) := rfl
  (accepted_account_survives_iff hname (by decide) hopen hupdate rfl).mpr (by decide)

/-- Such a name is accepted when bad names are, and its line is read as a NIS line. -/
theorem plus_account_is_lost :
    let pw := accountNamed (ascii "+bob")
    let closed := commonioClose false (plainCloseOps (passwdPut plainPutpwent)) allSteps (storedPasswd pw) rootDisk.file rootDisk
    isValidUserName 256 pw.name true = true ∧ (passwdPut plainPutpwent pw).isSome = true ∧
      commonioOpen passwdOps lockedPasswd .rdwr false (fileState rootDisk.file) true = (true,openedPasswd) ∧
      commonioUpdate passwdOps openedPasswd pw true = (true,storedPasswd pw) ∧ closed.1 = true ∧
      ¬ AccountSurvives pw openedPasswd closed.2.2.file := by
  refine ⟨by decide,by decide,rfl,rfl,rfl,fun hsurvives => ?_⟩
  obtain ⟨db',hrun,hfound,_⟩ := hsurvives lockedPasswd .rdonly false rfl
  have hlost : (commonioLocate passwdOps (commonioOpen passwdOps lockedPasswd .rdonly false (fileState (commonioClose false
      (plainCloseOps (passwdPut plainPutpwent)) allSteps (storedPasswd (accountNamed (ascii "+bob"))) rootDisk.file
      rootDisk).2.2.file) true).2 (ascii "+bob")).1 = none := by decide +kernel
  rw [hrun] at hlost
  cases hfound.symm.trans hlost

end Survival

end UserDb.Commonio
