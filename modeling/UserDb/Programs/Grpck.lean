import UserDb.Programs.Check
import UserDb.Programs.Conversion

/-! `grpck`: group and gshadow are checked line by line, against each other and against the users
that exist. A run whose questions are all answered with yes leaves nothing to ask. -/
namespace UserDb.Programs.Grpck
open UserDb.Base UserDb.Commonio

section Program
variable (tools : Tools) (known : Bytes → Bool) (env : Env) (isShadow : Bool) (answers : Nat → Bool)

/-- Files that are missing are made. -/
def openFiles (files : Files) : Except Exit (Db Group × Db Sgrp) := openPair env isShadow true tools.group tools.gshadow files

/-- The members that stay, whether one went, and the number of the next question. -/
def checkMembers : List Bytes → Nat → List Bytes × Bool × Nat
  | [], n => ([],false,n)
  | member :: members, n =>
    if known member then
      let (kept,changed,n) := checkMembers members n
      (member :: kept,changed,n)
    else if answers n then
      let (kept,_,n) := checkMembers members (n + 1)
      (kept,true,n)
    else
      let (kept,changed,n) := checkMembers members (n + 1)
      (member :: kept,changed,n)

/-- A single member without a name stands for no member. -/
def dropLoneEmpty (members : List Bytes) : List Bytes := if members = [[]] then [] else members

/-- The gshadow entry for a group that has none. -/
def missingSgrp (gr : Group) : Sgrp := ⟨gr.name,gr.passwd,[],gr.members⟩

/-- What `check_grp_file` does with an entry that is alone under its name. -/
def checkGrpEntry (p : Nat) (gr : Group) (w : Walk Group (Db Sgrp)) : Except (Exit × Nat) (Walk Group (Db Sgrp)) :=
  let (members,changed,questions) := checkMembers known answers (dropLoneEmpty gr.members) w.questions
  let gr := { gr with members := members }
  let w := { w with db := setEntry w.db p gr changed, changed := w.changed || changed, questions := questions }
  if !isShadow then .ok w
  else
    match commonioLocate tools.gshadow.ops w.rest gr.name with
    | (some _,sgDb) => .ok { w with rest := sgDb }
    | (none,sgDb) =>
      match w.ask answers with
      | (false,w) => .ok { w with rest := sgDb }
      | (true,w) =>
        match commonioUpdate tools.gshadow.ops sgDb (missingSgrp gr) (env.memory p).2 with
        | (false,_) => .error (.status 5,w.questions)
        | (true,sgDb) =>
          -- the password is in gshadow now
          match commonioUpdate tools.group.ops w.db { gr with passwd := shadowPasswdString } (env.memory p).1 with
          | (false,_) => .error (.status 5,w.questions)
          | (true,grDb) => .ok { w with db := grDb, rest := sgDb, changed := true }

def checkGrpFile (w : Walk Group (Db Sgrp)) : Except (Exit × Nat) (Walk Group (Db Sgrp)) :=
  w.checkAll answers tools.group.ops isNisLine (checkGrpEntry tools known env isShadow answers)

/-- The administrators and then the members of a gshadow entry. -/
def checkUsers (p : Nat) (sg : Sgrp) (w : Walk Sgrp (Db Group)) : Walk Sgrp (Db Group) :=
  let (adm,admChanged,questions) := checkMembers known answers sg.adm w.questions
  let (mem,memChanged,questions) := checkMembers known answers sg.mem questions
  let changed := admChanged || memChanged
  { w with
    db := setEntry w.db p { sg with adm := adm, mem := mem } changed, changed := w.changed || changed, questions := questions }

/-- What `check_sgr_file` does with an entry that is alone under its name. -/
def checkSgrEntry (p : Nat) (sg : Sgrp) (w : Walk Sgrp (Db Group)) : Except (Exit × Nat) (Walk Sgrp (Db Group)) :=
  match commonioLocate tools.group.ops w.rest sg.name with
  | (some _,grDb) => .ok (checkUsers known answers p sg { w with rest := grDb })
  | (none,grDb) =>
    match { w with rest := grDb }.ask answers with
    | (true,w) => .ok (w.delete p)
    | (false,w) => .ok (checkUsers known answers p sg w)

/-- Lines that stand for a network service are no entries of gshadow. -/
def checkSgrFile (w : Walk Sgrp (Db Group)) : Except (Exit × Nat) (Walk Sgrp (Db Group)) :=
  w.checkAll answers tools.gshadow.ops (fun _ => false) (checkSgrEntry tools known answers)

def closeFiles (changed : Bool) (grDb : Db Group) (sgDb : Db Sgrp) (files : Files) : Except Exit Files :=
  closePair env isShadow tools.group.closeOps tools.gshadow.closeOps changed grDb sgDb files

/-- The run, with the number of questions that it asked. -/
def grpck (files : Files) : Except Exit Files × Nat :=
  match openFiles tools env isShadow files with
  | .error e => (.error e,0)
  | .ok (grDb,sgDb) =>
    match checkGrpFile tools known env isShadow answers ⟨grDb,sgDb,false,0⟩ with
    | .error (e,n) => (.error e,n)
    | .ok w =>
      if !isShadow then (closeFiles tools env isShadow w.changed w.db w.rest files,w.questions)
      else
        match checkSgrFile tools known answers ⟨w.rest,w.db,w.changed,w.questions⟩ with
        | .error (e,n) => (.error e,n)
        | .ok w => (closeFiles tools env isShadow w.changed w.rest w.db files,w.questions)

end Program

section Members
variable {known : Bytes → Bool} {answers : Nat → Bool} {members : List Bytes} {n : Nat} {user : Bytes}

/-- Where every answer is yes, the members that stay are the users that exist. -/
theorem checkMembers_yes (known : Bytes → Bool) (members : List Bytes) (hyes : ∀ n, answers n = true) (n : Nat) :
    ∃ n', checkMembers known answers members n = (members.filter known,members.any fun user => !known user,n') := by
  induction members generalizing n with
  | nil => exact ⟨n,rfl⟩
  | cons member members ih =>
    rw [checkMembers]
    cases hmember : known member with
    | true =>
      obtain ⟨n',h⟩ := ih n
      rw [if_pos rfl,h]
      refine ⟨n',?_⟩
      rw [List.filter_cons_of_pos hmember,List.any_cons,hmember]
      rfl
    | false =>
      obtain ⟨n',h⟩ := ih (n + 1)
      rw [if_neg Bool.false_ne_true,hyes,if_pos rfl,h]
      refine ⟨n',?_⟩
      rw [List.filter_cons_of_neg (by rw [hmember]; exact Bool.false_ne_true),List.any_cons,hmember]
      rfl

/-- Users that all exist are asked nothing about. -/
theorem checkMembers_quiet (answers : Nat → Bool) (h : ∀ user ∈ members, known user = true) :
    checkMembers known answers members n = (members,false,n) := by
  induction members with
  | nil => rfl
  | cons member members ih =>
    obtain ⟨hmember,hmembers⟩ := List.forall_mem_cons.mp h
    rw [checkMembers,if_pos hmember,ih hmembers]

private theorem mem_dropLoneEmpty (huser : user ≠ []) : user ∈ dropLoneEmpty members ↔ user ∈ members := by
  unfold dropLoneEmpty
  split
  · rename_i h
    rw [h,List.mem_singleton]
    exact iff_of_false nofun huser
  · rfl

private theorem dropLoneEmpty_subset : dropLoneEmpty members ⊆ members := by
  unfold dropLoneEmpty
  split
  · exact List.nil_subset members
  · exact List.Subset.refl members

end Members

/-- Without a limit for members, a group stands in one line. -/
def groupLines (tools : Tools) : LineStorage Group where
  ops := groupOps 0
  closeOps := plainCloseOps (groupPut tools.putgrent)
  Text := Group.Text
  Same gr gr' := SameGroup gr gr' ∧ gr'.members ⊆ gr.members
  entryLines gr := [groupLine gr]
  parts := groupOps_namesParts 0
  refl gr := ⟨SameGroup.refl gr,List.Subset.refl gr.members⟩
  read _ hr _ hgr := IsRead.groupText hr hgr
  writes := plainCloseOps_writesLines fun gr bytes htext hput => by
    obtain ⟨hclean,rfl⟩ := groupPut_clean hput htext.notNis
    obtain ⟨hline,hread⟩ := groupLine_clean hclean
    have hcomma : ∀ member ∈ gr.members, comma ∉ member := fun member hm hc => (hclean.members member hm comma hc).1 rfl
    exact ⟨rfl,⟨hline,htext.zero_notMem⟩,rereadsAs_single rfl (groupLine_notNis htext.notNis) hread rfl
      ⟨reread_same hclean,fun _ hu => mem_of_mem_memberList hcomma hu⟩⟩
  lineOf := groupLine
  hook := rfl
  single := rfl

/-- What a gshadow entry is read back as. -/
def SgrpAgain (sg sg' : Sgrp) : Prop := SameSgrp sg sg' ∧ sg'.adm ⊆ sg.adm ∧ sg'.mem ⊆ sg.mem

def sgrpLines (tools : Tools) : LineStorage Sgrp where
  ops := gshadowOps
  closeOps := plainCloseOps (gshadowPut tools.gshadowMemory)
  Text := Sgrp.Text
  Same := SgrpAgain
  entryLines sg := [sgrpLine sg]
  parts := gshadow_parts
  refl sg := ⟨⟨rfl,rfl,fun _ _ => Iff.rfl,fun _ _ => Iff.rfl⟩,List.Subset.refl sg.adm,List.Subset.refl sg.mem⟩
  read := tools.gshadow.read
  writes := plainCloseOps_writesLines fun sg bytes htext hput => by
    obtain ⟨rfl,hline,sg',hread,hsame,hsub⟩ := sgetsgent_of_put hput
    have hnis : nameIsNis (sgrpLine sg) = false := (fieldsLine_notNis _ _ _).trans htext.notNis
    exact ⟨rfl,⟨hline,htext.zero_notMem⟩,rereadsAs_single rfl hnis hread hsame.name ⟨hsame,hsub⟩⟩
  lineOf := sgrpLine
  hook := rfl
  single := rfl

theorem group_of_no_limit {tools : Tools} (h : tools.maxMembers = 0) :
    tools.group.ops = (groupLines tools).ops ∧ tools.group.closeOps = (groupLines tools).closeOps := by
  unfold Tools.group
  rw [h]
  exact ⟨rfl,rfl⟩

section Walks
variable {tools : Tools} {known : Bytes → Bool} {env : Env} {isShadow : Bool} {answers : Nat → Bool}
  {P : List (Record Group)} {S : List (Record Sgrp)} {grFile sgFile : Option Bytes} {grDb : Db Group} {sgDb : Db Sgrp}
  {gl sl xs ys : List Nat} {p : Nat} {gr : Group} {sg : Sgrp}

/-- Users that exist, and have a name at all, are still in a list. -/
def KeepsUsers (known : Bytes → Bool) (old new : List Bytes) : Prop := ∀ user ∈ old, user ≠ [] → known user = true → user ∈ new

def namesOf (P : List (Record Group)) : Set Bytes := {name | ∃ r ∈ P, r.name (groupOps 0) = some name}

/-- A group of before, with its users that exist. -/
def FromGroup (known : Bytes → Bool) (old : Option Group) (gr : Group) : Prop :=
  ∃ gr₀, old = some gr₀ ∧ gr₀.gid = gr.gid ∧ KeepsUsers known gr₀.members gr.members

/-- A gshadow entry of before, with its users that exist, or a new one. -/
def FromSgrp (known : Bytes → Bool) (old : Option Sgrp) (sg : Sgrp) : Prop :=
  ∀ sg₀, old = some sg₀ → KeepsUsers known sg₀.adm sg.adm ∧ KeepsUsers known sg₀.mem sg.mem

/-- What a group in memory is read as from the file: the line may have a list of one empty name. -/
structure GroupAgain (gr gr' : Group) : Prop where
  name : gr'.name = gr.name
  gid : gr'.gid = gr.gid
  users : ∀ user, user ≠ [] → (user ∈ gr'.members ↔ user ∈ gr.members)
  members : gr'.members = [[]] ∨ gr'.members ⊆ gr.members

theorem GroupAgain.refl (gr : Group) : GroupAgain gr gr := ⟨rfl,rfl,fun _ _ => Iff.rfl,.inr (List.Subset.refl _)⟩

/-- The group database during the walks. The last entry of each name is the one that stays. -/
structure GroupChecked (tools : Tools) (known : Bytes → Bool) (P : List (Record Group)) (file : Option Bytes) (db : Db Group)
    (l : List Nat) : Prop extends
    Checked (groupLines tools) file GroupAgain (fun gr => gr.Text ∧ gr.name ∈ namesOf P) (namesOf P) db l where
  lasts : LastsFrom (groupOps 0) (FromGroup known) P db l

/-- The gshadow database during the walks. -/
structure SgrpChecked (tools : Tools) (known : Bytes → Bool) (S : List (Record Sgrp)) (file : Option Bytes) (names : Set Bytes)
    (db : Db Sgrp) (l : List Nat) : Prop extends Checked (sgrpLines tools) file SgrpAgain Sgrp.Text names db l where
  lasts : LastsFrom gshadowOps (FromSgrp known) S db l

/-- The gshadow database during the walk through the groups: no old name was lost. -/
def SgrpKept (tools : Tools) (known : Bytes → Bool) (S : List (Record Sgrp)) (file : Option Bytes) (db : Db Sgrp)
    (changed : Bool) : Prop :=
  ∃ l, SgrpChecked tools known S file {name | ∃ r ∈ S, r.name gshadowOps = some name} db l ∧ (db.changed = true → changed = true)

/-- There is a gshadow entry of the name. -/
def InShadow (db : Db Sgrp) (name : Bytes) : Prop :=
  ∃ q ∈ db.from db.head, (db.record q).name gshadowOps = some name

theorem KeepsUsers.refl (users : List Bytes) : KeepsUsers known users users := fun _ h _ _ => h

theorem KeepsUsers.filter {old new : List Bytes} (h : KeepsUsers known old new) : KeepsUsers known old (new.filter known) :=
  fun user hu hne hk => List.mem_filter.mpr ⟨h user hu hne hk,hk⟩

theorem GroupChecked.withCursor (h : GroupChecked tools known P grFile grDb gl) {c : Option Nat} (hc : ∀ p, c = some p → p ∈ gl) :
    GroupChecked tools known P grFile { grDb with cursor := c } gl := ⟨h.toChecked.withCursor hc,h.lasts⟩

theorem SgrpChecked.withCursor {names : Set Bytes} (h : SgrpChecked tools known S sgFile names sgDb sl) {c : Option Nat}
    (hc : ∀ p, c = some p → p ∈ sl) : SgrpChecked tools known S sgFile names { sgDb with cursor := c } sl :=
  ⟨h.toChecked.withCursor hc,h.lasts⟩

theorem Group.Text.withMembers (h : gr.Text) {members : List Bytes} (hsub : members ⊆ gr.members) :
    Group.Text { gr with members := members } :=
  ⟨h.notNis,h.name,h.passwd,fun member hm => h.members member (hsub hm)⟩

/-- A list without unknown users is left as it is. -/
theorem filter_eq_of_unchanged {users : List Bytes} (h : (users.any fun user => !known user) = false) : users.filter known = users := by
  refine List.filter_eq_self.mpr fun user hu => ?_
  have hnot := List.any_eq_false.mp h user hu
  simpa using hnot

/-- The members of a group are put right in its place. -/
theorem GroupChecked.setMembers (h : GroupChecked tools known P grFile grDb (xs ++ p :: ys)) (hgr : (grDb.record p).eptr = some gr)
    (hstart : (groupLines tools).again (grDb.record p) = grDb.record p)
    (halone : ∀ q ∈ xs ++ ys, (grDb.record q).name (groupOps 0) ≠ some gr.name) :
    GroupChecked tools known P grFile (setEntry grDb p { gr with members := (dropLoneEmpty gr.members).filter known }
      ((dropLoneEmpty gr.members).any fun user => !known user)) (xs ++ p :: ys) := by
  obtain ⟨htext,hname⟩ := h.entry _ (List.mem_map_of_mem (by simp)) gr hgr
  have hsub : (dropLoneEmpty gr.members).filter known ⊆ gr.members := fun user hu => dropLoneEmpty_subset (List.mem_of_mem_filter hu)
  have hrecord := record_setEntry grDb p { gr with members := (dropLoneEmpty gr.members).filter known }
    ((dropLoneEmpty gr.members).any fun user => !known user)
  have heptr : ((setEntry grDb p { gr with members := (dropLoneEmpty gr.members).filter known }
      ((dropLoneEmpty gr.members).any fun user => !known user)).record p).eptr =
        some { gr with members := (dropLoneEmpty gr.members).filter known } := by
    rw [hrecord,Function.update_self]
  refine ⟨h.toChecked.setEntry hgr rfl ⟨Group.Text.withMembers htext hsub,hname⟩ (Group.Text.withMembers htext hsub) fun hch _ => ?_,
    h.lasts.replace h.kept.rep.nodup (fun q hq => by rw [hrecord,Function.update_of_ne hq]) hgr heptr rfl halone ?_⟩
  · rw [hstart,hgr,filter_eq_of_unchanged hch]
    refine .some ⟨rfl,rfl,fun user hne => (mem_dropLoneEmpty hne).symm,?_⟩
    by_cases hlone : gr.members = [[]]
    · exact .inl hlone
    · refine .inr fun user hu => ?_
      rw [dropLoneEmpty,if_neg hlone]
      exact hu
  · rintro ⟨gr₀,hold,hgid,husers⟩
    have hdrop : KeepsUsers known gr₀.members (dropLoneEmpty gr.members) := fun user hu hne hk =>
      (mem_dropLoneEmpty hne).mpr (husers user hu hne hk)
    exact ⟨gr₀,hold,hgid,hdrop.filter⟩

/-- A group that has no gshadow entry gets one. -/
theorem SgrpKept.add (h : SgrpChecked tools known S sgFile {name | ∃ r ∈ S, r.name gshadowOps = some name} sgDb sl) (htext : sg.Text)
    (hne : ∀ q ∈ sl, (sgDb.record q).name gshadowOps ≠ some sg.name) {memory : Bool} {sgDb' : Db Sgrp}
    (hrun : commonioUpdate tools.gshadow.ops sgDb sg memory = (true,sgDb')) :
    SgrpKept tools known S sgFile sgDb' true ∧ InShadow sgDb' sg.name ∧ ∀ name, InShadow sgDb name → InShadow sgDb' name := by
  have hnew : ∀ r ∈ S, r.name gshadowOps ≠ some sg.name := fun r hr hname => by
    obtain ⟨q,hq,hqn⟩ := h.names _ ⟨r,hr,hname⟩
    exact hne q hq hqn
  obtain ⟨us,n,vs,rfl,hn,h',hrecord⟩ := h.toChecked.update_new hne htext htext hrun
  have heptr : (sgDb'.record n).eptr = some sg := by
    rw [hrecord,Function.update_self]
    rfl
  have hlasts : LastsFrom gshadowOps (FromSgrp known) S sgDb' (us ++ n :: vs) := by
    refine h.lasts.put (fun q hq => ?_) (fun _ _ => rfl) heptr hne ?_
    · rw [hrecord,Function.update_of_ne (ne_of_mem_of_not_mem hq hn)]
    · rw [show lastNamed gshadowOps (gshadowOps.getname sg) S = none from lastNamed_eq_none.mpr hnew]
      exact fun _ => nofun
  have hmem : ∀ q, q ∈ us ++ n :: vs ↔ q = n ∨ q ∈ us ++ vs := fun q => by
    rw [List.perm_middle.mem_iff,List.mem_cons]
  have hfrom : sgDb'.from sgDb'.head = us ++ n :: vs := h'.kept.rep.from_head
  refine ⟨⟨us ++ n :: vs,⟨h',hlasts⟩,fun _ => rfl⟩,⟨n,?_,by rw [Record.name,heptr]; rfl⟩,fun name hin => ?_⟩
  · rw [hfrom]
    exact (hmem n).mpr (.inl rfl)
  · obtain ⟨q,hq,hqn⟩ := hin
    rw [h.kept.rep.from_head] at hq
    refine ⟨q,?_,by rw [hrecord,Function.update_of_ne (ne_of_mem_of_not_mem hq hn),hqn]⟩
    rw [hfrom]
    exact (hmem q).mpr (.inr hq)

/-- What the walk through the groups leaves of an entry. -/
def GroupDone (known : Bytes → Bool) (isShadow : Bool) (sgDb : Db Sgrp) (r : Record Group) : Prop :=
  ∀ gr ∈ r.eptr, (∀ user ∈ gr.members, known user = true) ∧ (isShadow = true → InShadow sgDb gr.name)

private theorem checkGrpEntry_round (hlimit : tools.maxMembers = 0) (hyes : ∀ n, answers n = true) (w : Walk Group (Db Sgrp))
    (hdb : GroupChecked tools known P grFile w.db (xs ++ p :: ys))
    (hrest : isShadow = true → SgrpKept tools known S sgFile w.rest w.changed) (hchanged : w.db.changed = true → w.changed = true)
    (hstart : (groupLines tools).again (w.db.record p) = w.db.record p) (hgr : (w.db.record p).eptr = some gr)
    (halone : ∀ q ∈ xs ++ ys, (w.db.record q).name (groupOps 0) ≠ some gr.name) :
    (∃ code n, 0 < code ∧ checkGrpEntry tools known env isShadow answers p gr w = .error (.status code,n)) ∨
    ∃ w', checkGrpEntry tools known env isShadow answers p gr w = .ok w' ∧
      (isShadow = true → SgrpKept tools known S sgFile w'.rest w'.changed) ∧ (w'.db.changed = true → w'.changed = true) ∧
      (∀ name, InShadow w.rest name → isShadow = true → InShadow w'.rest name) ∧
      GroupChecked tools known P grFile w'.db (xs ++ p :: ys) ∧ (∀ q, q ≠ p → w'.db.record q = w.db.record q) ∧
      (w'.db.record p).name (groupOps 0) = some gr.name ∧ GroupDone known isShadow w'.rest (w'.db.record p) := by
  obtain ⟨n,hmembers⟩ := checkMembers_yes known (dropLoneEmpty gr.members) hyes w.questions
  have hset := GroupChecked.setMembers hdb hgr hstart halone
  have hrecord := record_setEntry w.db p { gr with members := (dropLoneEmpty gr.members).filter known }
    ((dropLoneEmpty gr.members).any fun user => !known user)
  have hknown : ∀ user ∈ (dropLoneEmpty gr.members).filter known, known user = true := fun user hu => (List.mem_filter.mp hu).2
  unfold checkGrpEntry
  rw [hmembers,(group_of_no_limit hlimit).1]
  simp only
  generalize hch : ((dropLoneEmpty gr.members).any fun user => !known user) = changed at hset hrecord ⊢
  generalize hms : (dropLoneEmpty gr.members).filter known = members at hset hrecord hknown ⊢
  generalize hdb' : setEntry w.db p { gr with members := members } changed = db at hset hrecord ⊢
  have hdbch : db.changed = true → (w.changed || changed) = true := fun h => by
    rw [← hdb'] at h
    have h : (w.db.changed || changed) = true := h
    rcases (Bool.or_eq_true _ _).mp h with h | h
    · rw [hchanged h,Bool.true_or]
    · rw [h,Bool.or_true]
  have hother : ∀ q, q ≠ p → db.record q = w.db.record q := fun q hq => by rw [hrecord,Function.update_of_ne hq]
  have heptr : (db.record p).eptr = some { gr with members := members } := by rw [hrecord,Function.update_self]
  have hname : (db.record p).name (groupOps 0) = some gr.name := by rw [Record.name,heptr]; rfl
  cases isShadow with
  | false =>
    rw [Bool.not_false,if_pos rfl]
    refine .inr ⟨_,rfl,(by intros; contradiction),hdbch,(by intros; contradiction),hset,hother,hname,fun gr' hgr' =>
      ⟨?_,(by intros; contradiction)⟩⟩
    cases heptr.symm.trans hgr'
    exact hknown
  | true =>
    rw [Bool.not_true,if_neg Bool.false_ne_true]
    obtain ⟨sl,hsg,hsgch⟩ := hrest rfl
    obtain ⟨found,c,hlocate,hc,hfound⟩ := hsg.kept.locate gr.name
    have hlocate : commonioLocate tools.gshadow.ops w.rest gr.name = (found,{ w.rest with cursor := c }) := hlocate
    rw [hlocate]
    cases found with
    | some found =>
      have hin : InShadow w.rest gr.name := by
        have hnot := mt hfound.mpr (Option.some_ne_none _)
        push Not at hnot
        obtain ⟨q,hq,hqn⟩ := hnot
        exact ⟨q,hsg.kept.rep.from_head ▸ hq,hqn⟩
      refine .inr ⟨_,rfl,fun _ => ⟨sl,hsg.withCursor hc,fun h => ?_⟩,hdbch,fun _ h _ => h,hset,hother,hname,fun gr' hgr' => ?_⟩
      · rw [hsgch h,Bool.true_or]
      · cases heptr.symm.trans hgr'
        exact ⟨hknown,fun _ => hin⟩
    | none =>
      obtain ⟨htext,hmem⟩ := hset.entry _ (List.mem_map_of_mem (by simp)) _ heptr
      have hsgtext : (missingSgrp { gr with members := members }).Text :=
        ⟨htext.notNis,htext.name,htext.passwd,(by intros; contradiction),htext.members⟩
      simp only [Walk.ask,hyes]
      cases hupdate : commonioUpdate tools.gshadow.ops { w.rest with cursor := c } (missingSgrp { gr with members := members })
          (env.memory p).2 with
      | mk ok sgDb =>
        cases ok with
        | false => exact .inl ⟨5,_,by decide,rfl⟩
        | true =>
          obtain ⟨hkept,hin,hmono⟩ := SgrpKept.add (hsg.withCursor hc) hsgtext (hfound.mp rfl) hupdate
          cases hupdate' : commonioUpdate (groupLines tools).ops db
              { gr with passwd := shadowPasswdString, members := members } (env.memory p).1 with
          | mk ok grDb =>
            cases ok with
            | false => exact .inl ⟨5,_,by decide,rfl⟩
            | true =>
              have htext' : Group.Text { gr with passwd := shadowPasswdString, members := members } :=
                ⟨htext.notNis,htext.name,zero_notMem_x,htext.members⟩
              obtain ⟨hdone,hrecord'⟩ := hset.toChecked.update_at (a := { gr with passwd := shadowPasswdString, members := members })
                hname ⟨htext',hmem⟩ htext' hupdate'
              have heptr' : (grDb.record p).eptr = some { gr with passwd := shadowPasswdString, members := members } := by
                rw [hrecord',Function.update_self]
                rfl
              have hp : p ∉ xs ++ ys := (List.nodup_cons.mp (List.nodup_middle.mp hset.kept.rep.nodup)).1
              have halone' : ∀ q ∈ xs ++ ys, (db.record q).name (groupOps 0) ≠ some gr.name := fun q hq => by
                rw [hother q (ne_of_mem_of_not_mem hq hp)]
                exact halone q hq
              have hlasts := hset.lasts.replace hset.kept.rep.nodup
                (fun q hq => by rw [hrecord',Function.update_of_ne hq]) heptr heptr' rfl halone' id
              refine .inr ⟨_,rfl,fun _ => hkept,fun _ => rfl,fun name h _ => hmono name h,⟨hdone,hlasts⟩,fun q hq => ?_,?_,
                fun gr' hgr' => ?_⟩
              · show grDb.record q = _
                rw [hrecord',Function.update_of_ne hq,hother q hq]
              · show (grDb.record p).name (groupOps 0) = _
                rw [Record.name,heptr']
                rfl
              · cases heptr'.symm.trans hgr'
                exact ⟨hknown,fun _ => hin⟩

private theorem checkGrpFile_repairs (hlimit : tools.maxMembers = 0) (hyes : ∀ n, answers n = true) :
    Repairs (groupOps 0) isNisLine (checkGrpEntry tools known env isShadow answers) (GroupChecked tools known P grFile)
      (fun sgDb changed => isShadow = true → SgrpKept tools known S sgFile sgDb changed)
      (fun r => (groupLines tools).again r = r) (GroupDone known isShadow) where
  rep _ _ h := h.kept.rep
  skipped _ _ h q hq hnis := .inl (h.nis _ (List.mem_map_of_mem hq) hnis)
  delete _ _ _ _ h hgo := ⟨h.toChecked.delete (doubled_goes hgo),h.lasts.deleteDoubled hgo⟩
  keeps _ _ h hshadow := by
    obtain ⟨l,hl,_⟩ := h hshadow
    exact ⟨l,hl,fun _ => rfl⟩
  round w p xs ys gr hdb hrest hchanged hstart hgr _ halone := by
    rcases checkGrpEntry_round hlimit hyes w hdb hrest hchanged hstart hgr halone with
      herr | ⟨w',hrun,hrest',hchanged',hmono,hdb',hrecord,hname,hdone⟩
    · exact .inl herr
    · refine .inr ⟨w',hrun,hrest',hchanged',fun r hr gr' hgr' => ?_,.inr ⟨hdb',hrecord,hname,hdone⟩⟩
      obtain ⟨hknown,hin⟩ := hr gr' hgr'
      exact ⟨hknown,fun hshadow => hmono _ (hin hshadow) hshadow⟩

/-- The walk through the groups: entries that stay are alone, their members exist, and they are in gshadow. -/
theorem checkGrpFile_spec (env : Env) (isShadow : Bool) (sgFile : Option Bytes) (hlimit : tools.maxMembers = 0)
    (hyes : ∀ n, answers n = true) {w : Walk Group (Db Sgrp)} (hdb : GroupChecked tools known P grFile w.db gl)
    (hrecords : gl.map w.db.record = P) (hread : readFile (groupOps 0) grFile = some P)
    (hrest : isShadow = true → SgrpKept tools known S sgFile w.rest w.changed)
    (hchanged : w.db.changed = true → w.changed = true) :
    (∃ code n, 0 < code ∧ checkGrpFile tools known env isShadow answers w = .error (.status code,n)) ∨
    ∃ w' l, checkGrpFile tools known env isShadow answers w = .ok w' ∧ GroupChecked tools known P grFile w'.db l ∧
      (isShadow = true → SgrpKept tools known S sgFile w'.rest w'.changed) ∧ (w'.db.changed = true → w'.changed = true) ∧
      (∀ q ∈ l, isNisLine (w'.db.record q) = true ∨ Alone (groupOps 0) w'.db l q) ∧
      ∀ q ∈ l, GroupDone known isShadow w'.rest (w'.db.record q) := by
  have hstart : ∀ q ∈ gl, (groupLines tools).again (w.db.record q) = w.db.record q := fun q hq => by
    obtain ⟨line,_,hline⟩ := (groupLines tools).record_line hread _ (hrecords ▸ List.mem_map_of_mem hq)
    rw [hline]
    rfl
  unfold checkGrpFile
  rw [(group_of_no_limit hlimit).1]
  rcases checkAll_repairs (checkGrpFile_repairs hlimit hyes) hyes hdb hrest hchanged hstart with
    herr | ⟨w',l,hrun,hdb',hrest',hchanged',hsettled⟩
  · exact .inl herr
  · refine .inr ⟨w',l,hrun,hdb',hrest',hchanged',?_,fun q hq => ?_⟩
    · exact alone_of_settled (s := groupLines tools) (fun q _ hskip => .inl hskip) hsettled
    · rcases hsettled q hq with ⟨hnis,_⟩ | ⟨_,_,hdone,_⟩
      · intro gr hgr
        cases (hdb'.nis _ (List.mem_map_of_mem hq) hnis).symm.trans hgr
      · exact hdone

/-- What the walk through gshadow leaves of an entry. -/
def SgrpDone (known : Bytes → Bool) (names : Set Bytes) (r : Record Sgrp) : Prop :=
  ∀ sg ∈ r.eptr, sg.name ∈ names ∧ ∀ user ∈ sg.adm ++ sg.mem, known user = true

/-- The users of a gshadow entry are put right in its place. -/
theorem checkUsers_round (hyes : ∀ n, answers n = true) (w : Walk Sgrp (Db Group)) {names : Set Bytes}
    (hdb : SgrpChecked tools known S sgFile names w.db (xs ++ p :: ys)) (hchanged : w.db.changed = true → w.changed = true)
    (hsg : (w.db.record p).eptr = some sg) (hname : sg.name ∈ names)
    (halone : ∀ q ∈ xs ++ ys, (w.db.record q).name gshadowOps ≠ some sg.name) :
    ∃ w', checkUsers known answers p sg w = w' ∧ w'.rest = w.rest ∧ (w.changed = true → w'.changed = true) ∧
      (w'.db.changed = true → w'.changed = true) ∧ SgrpChecked tools known S sgFile names w'.db (xs ++ p :: ys) ∧
      (∀ q, q ≠ p → w'.db.record q = w.db.record q) ∧ (w'.db.record p).name gshadowOps = some sg.name ∧
      SgrpDone known names (w'.db.record p) := by
  obtain ⟨n,hadm⟩ := checkMembers_yes known sg.adm hyes w.questions
  obtain ⟨n',hmem⟩ := checkMembers_yes known sg.mem hyes n
  refine ⟨_,rfl,?_⟩
  unfold checkUsers
  rw [hadm]
  simp only
  rw [hmem]
  have hp : w.db.record p ∈ (xs ++ p :: ys).map w.db.record := List.mem_map_of_mem (by simp)
  have htext := hdb.entry _ hp sg hsg
  have htext' : Sgrp.Text { sg with adm := sg.adm.filter known, mem := sg.mem.filter known } :=
    ⟨htext.notNis,htext.name,htext.passwd,fun user hu => htext.adm user (List.mem_of_mem_filter hu),
      fun user hu => htext.mem user (List.mem_of_mem_filter hu)⟩
  have hrecord := record_setEntry w.db p { sg with adm := sg.adm.filter known, mem := sg.mem.filter known }
    ((sg.adm.any fun user => !known user) || (sg.mem.any fun user => !known user))
  have hset : SgrpChecked tools known S sgFile names (setEntry w.db p { sg with
      adm := sg.adm.filter known
      mem := sg.mem.filter known }
      ((sg.adm.any fun user => !known user) || (sg.mem.any fun user => !known user))) (xs ++ p :: ys) := by
    have heptr : ((setEntry w.db p { sg with adm := sg.adm.filter known, mem := sg.mem.filter known }
        ((sg.adm.any fun user => !known user) || (sg.mem.any fun user => !known user))).record p).eptr =
          some { sg with adm := sg.adm.filter known, mem := sg.mem.filter known } := by
      rw [hrecord,Function.update_self]
    refine ⟨hdb.toChecked.setEntry hsg rfl htext' htext' fun hch hpch => ?_,
      hdb.lasts.replace hdb.kept.rep.nodup (fun q hq => by rw [hrecord,Function.update_of_ne hq]) hsg heptr rfl halone
        fun hfrom sg₀ hold => ?_⟩
    · obtain ⟨hadm,hmem⟩ := Bool.or_eq_false_iff.mp hch
      rw [filter_eq_of_unchanged hadm,filter_eq_of_unchanged hmem,← hsg]
      exact hdb.same _ hp hpch
    · obtain ⟨hadm,hmem⟩ := hfrom sg₀ hold
      exact ⟨hadm.filter,hmem.filter⟩
  refine ⟨trivial,fun h => by simp only [h,Bool.true_or],fun h => ?_,hset,fun q hq => ?_,?_,fun sg' hsg' => ?_⟩
  · rcases (Bool.or_eq_true _ _).mp h with h | h
    · simp only [hchanged h,Bool.true_or]
    · simp only [h,Bool.or_true]
  · show (setEntry w.db p _ _).record q = _
    rw [hrecord,Function.update_of_ne hq]
  · show ((setEntry w.db p _ _).record p).name gshadowOps = _
    rw [hrecord,Function.update_self]
    rfl
  · have hsg' : ((setEntry w.db p _ _).record p).eptr = some sg' := hsg'
    rw [hrecord,Function.update_self] at hsg'
    cases hsg'
    refine ⟨hname,fun user hu => ?_⟩
    rcases List.mem_append.mp hu with hu | hu
    · exact (List.mem_filter.mp hu).2
    · exact (List.mem_filter.mp hu).2

private theorem checkSgrFile_repairs (hlimit : tools.maxMembers = 0) (hyes : ∀ n, answers n = true)
    (hgroup : GroupChecked tools known P grFile grDb gl) :
    Repairs gshadowOps (fun _ => false) (checkSgrEntry tools known answers) (SgrpChecked tools known S sgFile (namesOf P))
      (fun db changed => OnlyCursor grDb gl db ∧ (grDb.changed = true → changed = true)) (fun _ => True)
      (fun _ => SgrpDone known (namesOf P)) where
  rep _ _ h := h.kept.rep
  skipped _ _ _ _ _ := nofun
  delete _ _ _ _ h hgo := ⟨h.toChecked.delete (doubled_goes hgo),h.lasts.deleteDoubled hgo⟩
  keeps _ _ h := ⟨h.1,fun _ => rfl⟩
  round w p xs ys sg hdb hrest hchanged _ hsg _ halone := by
    obtain ⟨⟨c,hc,hcl⟩,hgrch⟩ := hrest
    have hgroup' := hgroup.withCursor hcl
    rw [← hc] at hgroup'
    obtain ⟨found,c',hlocate,hc',hfound⟩ := hgroup'.kept.locate sg.name
    have hrest' : OnlyCursor grDb gl { w.rest with cursor := c' } := ⟨c',by rw [hc],hc'⟩
    have hname : (w.db.record p).name gshadowOps = some sg.name := by rw [Record.name,hsg]; rfl
    unfold checkSgrEntry
    rw [(group_of_no_limit hlimit).1,hlocate]
    cases found with
    | some gr =>
      have hin : sg.name ∈ namesOf P := by
        have hnot := mt hfound.mpr (Option.some_ne_none _)
        push Not at hnot
        obtain ⟨q,hq,hqn⟩ := hnot
        obtain ⟨gr',hgr',hgrname⟩ := Option.map_eq_some_iff.mp hqn
        have hown := (hgroup'.entry _ (List.mem_map_of_mem hq) gr' hgr').2
        exact hgrname ▸ hown
      obtain ⟨w',hrun,hsame,hmono,hchanged',hdb',hrecord,hname',hdone⟩ :=
        checkUsers_round hyes { w with rest := { w.rest with cursor := c' } } hdb hchanged hsg hin halone
      refine .inr ⟨w',by rw [← hrun],⟨?_,fun h => hmono (hgrch h)⟩,hchanged',fun r hr => hr,.inr ⟨hdb',hrecord,hname',hdone⟩⟩
      rw [hsame]
      exact hrest'
    | none =>
      simp only [Walk.ask,hyes]
      have hstranger : sg.name ∉ namesOf P := fun hin => by
        obtain ⟨q,hq,hqn⟩ := hgroup'.names _ hin
        exact hfound.mp rfl q hq hqn
      refine .inr ⟨_,rfl,⟨hrest',fun _ => rfl⟩,fun _ => rfl,fun r hr => hr,.inl ⟨rfl,hdb.toChecked.delete fun name hin hpn => ?_,
        hdb.lasts.delete fun name hpn => .inr ?_⟩⟩
      · cases Option.some.inj (hname.symm.trans hpn)
        exact absurd hin hstranger
      · exact Option.some.inj (hname.symm.trans hpn) ▸ halone

/-- The walk through gshadow: entries that stay are alone, have the names of the groups, and their users exist. -/
theorem checkSgrFile_spec (hlimit : tools.maxMembers = 0) (hyes : ∀ n, answers n = true)
    (hgroup : GroupChecked tools known P grFile grDb gl) {w : Walk Sgrp (Db Group)}
    (hdb : SgrpChecked tools known S sgFile (namesOf P) w.db sl) (hrest : w.rest = grDb)
    (hchanged : w.db.changed = true → w.changed = true) (hgrch : grDb.changed = true → w.changed = true) :
    (∃ code n, 0 < code ∧ checkSgrFile tools known answers w = .error (.status code,n)) ∨
    ∃ w' l, checkSgrFile tools known answers w = .ok w' ∧ SgrpChecked tools known S sgFile (namesOf P) w'.db l ∧
      OnlyCursor grDb gl w'.rest ∧ (w'.db.changed = true → w'.changed = true) ∧ (grDb.changed = true → w'.changed = true) ∧
      ∀ q ∈ l, Alone gshadowOps w'.db l q ∧ SgrpDone known (namesOf P) (w'.db.record q) := by
  have hcursor : OnlyCursor grDb gl w.rest := ⟨grDb.cursor,hrest,hgroup.kept.rep.cursor⟩
  rcases checkAll_repairs (checkSgrFile_repairs hlimit hyes hgroup) hyes hdb ⟨hcursor,hgrch⟩ hchanged (fun _ _ => trivial) with
    herr | ⟨w',l,hrun,hdb',⟨hrest',hgrch'⟩,hchanged',hsettled⟩
  · exact .inl herr
  · refine .inr ⟨w',l,hrun,hdb',hrest',hchanged',hgrch',fun q hq => ?_⟩
    rcases hsettled q hq with ⟨hskip,_⟩ | ⟨sg,hsg,hdone,halone⟩
    · cases hskip
    · exact ⟨⟨sg,hsg,halone⟩,hdone⟩

end Walks

section Files
variable {tools : Tools} {known : Bytes → Bool} {env : Env} {isShadow : Bool} {files files' : Files} {grDb : Db Group}
  {sgDb : Db Sgrp} {P : List (Record Group)} {S : List (Record Sgrp)} {gl sl : List Nat}

/-- Members that nothing is asked about. -/
def Accepted (known : Bytes → Bool) (members : List Bytes) : Prop := members = [[]] ∨ ∀ user ∈ members, known user = true

/-- Both files are in order, have the same names and name users that exist. -/
structure InOrder (known : Bytes → Bool) (isShadow : Bool) (files : Files) : Prop where
  group : ∃ rs, readFile (groupOps 0) files.main.file = some rs ∧ Tidy (groupOps 0) rs ∧
    ∀ r ∈ rs, ∀ gr ∈ r.eptr, Accepted known gr.members
  gshadow : isShadow = true → ∃ rs qs, readFile (groupOps 0) files.main.file = some rs ∧
    readFile gshadowOps files.shadow.file = some qs ∧ Tidy gshadowOps qs ∧
    (∀ q ∈ qs, ∃ sg, q.eptr = some sg ∧ ∀ user ∈ sg.adm ++ sg.mem, known user = true) ∧
    ∀ name, (∃ r ∈ rs, r.name (groupOps 0) = some name) ↔ ∃ q ∈ qs, q.name gshadowOps = some name

theorem Accepted.dropLoneEmpty {members : List Bytes} (h : Accepted known members) :
    ∀ user ∈ dropLoneEmpty members, known user = true := by
  unfold Grpck.dropLoneEmpty
  split
  · exact nofun
  · rename_i hlone
    exact h.resolve_left hlone

/-- The group database during a walk that asks nothing: members are dropped at most. -/
structure GroupQuiet (known : Bytes → Bool) (grDb : Db Group) (gl : List Nat) (db : Db Group) : Prop where
  names : SameNames (groupOps 0) grDb gl db
  lines : ∀ q ∈ gl, (db.record q).line = (grDb.record q).line
  accepted : ∀ q ∈ gl, ∀ gr ∈ (db.record q).eptr, Accepted known gr.members

theorem GroupQuiet.setMembers {db : Db Group} {p : Nat} {gr : Group} (changed : Bool) (h : GroupQuiet known grDb gl db)
    (hgr : (db.record p).eptr = some gr) (hp : p ∈ gl) :
    GroupQuiet known grDb gl (setEntry db p { gr with members := dropLoneEmpty gr.members } changed) := by
  have hrecord := record_setEntry db p { gr with members := dropLoneEmpty gr.members } changed
  refine ⟨h.names.setEntry hgr rfl,fun q hq => ?_,fun q hq gr' hgr' => ?_⟩
  · rw [hrecord,← h.lines q hq]
    by_cases hqp : q = p
    · rw [hqp,Function.update_self]
    · rw [Function.update_of_ne hqp]
  · rw [hrecord] at hgr'
    by_cases hqp : q = p
    · rw [hqp,Function.update_self] at hgr'
      cases hgr'
      exact .inr (h.accepted p hp gr hgr).dropLoneEmpty
    · rw [Function.update_of_ne hqp] at hgr'
      exact h.accepted q hq gr' hgr'

/-- The gshadow database during a walk that asks nothing. -/
structure SgrpQuiet (known : Bytes → Bool) (sgDb : Db Sgrp) (sl : List Nat) (db : Db Sgrp) : Prop where
  names : SameNames gshadowOps sgDb sl db
  users : ∀ q ∈ sl, ∀ sg ∈ (db.record q).eptr, ∀ user ∈ sg.adm ++ sg.mem, known user = true

/-- The walk through the groups asks nothing where they are in order. -/
theorem checkGrpFile_quiet (hlimit : tools.maxMembers = 0) (env : Env) (isShadow : Bool) (answers : Nat → Bool)
    (hgroup : GroupQuiet known grDb gl grDb) (hall : ∀ q ∈ gl, isNisLine (grDb.record q) = true ∨ Alone (groupOps 0) grDb gl q)
    (hshadow : isShadow = true → SameNames gshadowOps sgDb sl sgDb ∧
      ∀ q ∈ gl, ∀ name, (grDb.record q).name (groupOps 0) = some name → ∃ q ∈ sl, (sgDb.record q).name gshadowOps = some name) :
    ∃ w, checkGrpFile tools known env isShadow answers ⟨grDb,sgDb,false,0⟩ = .ok w ∧ GroupQuiet known grDb gl w.db ∧
      (isShadow = true → ∃ c, w.rest = { sgDb with cursor := c } ∧ SameNames gshadowOps sgDb sl w.rest) ∧ w.questions = 0 := by
  have hquiet : Quiet (groupOps 0) isNisLine (checkGrpEntry tools known env isShadow answers) (GroupQuiet known grDb gl)
      (fun rest => isShadow = true → ∃ c, rest = { sgDb with cursor := c } ∧ SameNames gshadowOps sgDb sl rest) gl := by
    refine ⟨fun db h => h.names.rep,fun db h q hq => ?_,fun w p gr hdb hrest hp hgr => ?_⟩
    · rcases hall q hq with hnis | halone
      · left
        rw [isNisLine,h.lines q hq]
        exact hnis
      · exact .inr (halone.of_names hq h.names.names)
    · have hmembers := checkMembers_quiet (n := w.questions) answers (hdb.accepted p hp gr hgr).dropLoneEmpty
      have hset := hdb.setMembers false hgr hp
      unfold checkGrpEntry
      rw [hmembers]
      simp only
      cases hisShadow : isShadow with
      | false =>
        rw [Bool.not_false,if_pos rfl]
        exact ⟨_,rfl,hset,(by intros; contradiction),rfl⟩
      | true =>
        rw [Bool.not_true,if_neg Bool.false_ne_true]
        obtain ⟨c,hc,hnames⟩ := hrest hisShadow
        have hname : (grDb.record p).name (groupOps 0) = some gr.name := by
          rw [← hdb.names.names p hp,Record.name,hgr]
          rfl
        obtain ⟨sg,c',hlocate,hnames'⟩ := hnames.locate ((hshadow hisShadow).2 p hp _ hname)
        have hlocate : commonioLocate tools.gshadow.ops w.rest gr.name = (some sg,{ w.rest with cursor := c' }) := hlocate
        rw [hlocate]
        exact ⟨_,rfl,hset,fun _ => ⟨c',by rw [hc],hnames'⟩,rfl⟩
  unfold checkGrpFile
  rw [(group_of_no_limit hlimit).1]
  exact checkAll_quiet answers hquiet (w := ⟨grDb,sgDb,false,0⟩) hgroup fun h => ⟨sgDb.cursor,rfl,(hshadow h).1⟩

/-- The walk through gshadow asks nothing where it is in order. -/
theorem checkSgrFile_quiet (hlimit : tools.maxMembers = 0) (answers : Nat → Bool) {w : Walk Sgrp (Db Group)}
    (hsgrp : SgrpQuiet known sgDb sl w.db) (hall : ∀ q ∈ sl, Alone gshadowOps sgDb sl q) (hgroup : SameNames (groupOps 0) grDb gl w.rest)
    (hin : ∀ q ∈ sl, ∀ name, (sgDb.record q).name gshadowOps = some name → ∃ q ∈ gl, (grDb.record q).name (groupOps 0) = some name) :
    ∃ w', checkSgrFile tools known answers w = .ok w' ∧ w'.questions = w.questions := by
  have hquiet : Quiet gshadowOps (fun _ => false) (checkSgrEntry tools known answers) (SgrpQuiet known sgDb sl)
      (SameNames (groupOps 0) grDb gl) sl := by
    refine ⟨fun db h => h.names.rep,fun db h q hq => .inr ((hall q hq).of_names hq h.names.names),fun w p sg hdb hrest hp hsg => ?_⟩
    have hname : (sgDb.record p).name gshadowOps = some sg.name := by
      rw [← hdb.names.names p hp,Record.name,hsg]
      rfl
    obtain ⟨gr,c,hlocate,hnames⟩ := hrest.locate (hin p hp _ hname)
    have husers := hdb.users p hp sg hsg
    have hadm := checkMembers_quiet (n := w.questions) answers fun user hu => husers user (List.mem_append_left sg.mem hu)
    have hmem := checkMembers_quiet (n := w.questions) answers fun user hu => husers user (List.mem_append_right sg.adm hu)
    have hrecord := record_setEntry w.db p sg false
    unfold checkSgrEntry
    rw [(group_of_no_limit hlimit).1,show (groupLines tools).ops = groupOps 0 from rfl,hlocate]
    refine ⟨_,rfl,?_,?_,?_⟩
    · simp only [checkUsers,hadm,hmem]
      refine ⟨hdb.names.setEntry hsg rfl,fun q hq sg' hsg' => ?_⟩
      have hsg' : ((setEntry w.db p sg false).record q).eptr = some sg' := hsg'
      rw [hrecord] at hsg'
      by_cases hqp : q = p
      · rw [hqp,Function.update_self] at hsg'
        cases hsg'
        exact husers
      · rw [Function.update_of_ne hqp] at hsg'
        exact hdb.users q hq sg' hsg'
    · simp only [checkUsers,hadm,hmem]
      exact hnames
    · simp only [checkUsers,hadm,hmem]
  unfold checkSgrFile
  obtain ⟨w',hrun,_,_,hasked⟩ := checkAll_quiet answers hquiet hsgrp hgroup
  exact ⟨w',hrun,hasked⟩

/-- Files in order leave nothing to ask, however the questions would be answered. -/
theorem grpck_asks_nothing (hlimit : tools.maxMembers = 0) (env : Env) (answers : Nat → Bool) (h : InOrder known isShadow files) :
    (grpck tools known env isShadow answers files).2 = 0 := by
  obtain ⟨P,hP,htidy,haccepted⟩ := h.group
  unfold grpck openFiles
  rcases openPair_cases env isShadow true tools.group tools.gshadow files with ⟨code,_,herr⟩ | ⟨grDb,sgDb,hopen,⟨db₀,hgr⟩,hsg⟩
  · rw [herr]
  rw [hopen]
  rw [(group_of_no_limit hlimit).1] at hgr
  obtain ⟨gl,hgl,hread,_⟩ := commonioOpen_kept (s := groupLines tools) hgr
  obtain rfl : gl.map grDb.record = P := Option.some.inj (hread.symm.trans hP)
  have hall := fun q hq => Tidy.alone (s := groupLines tools) (q := q) hgl.rep.nodup htidy hq
  have hgroup : GroupQuiet known grDb gl grDb :=
    ⟨.of_kept hgl,fun _ _ => rfl,fun q hq gr hgr => haccepted _ (List.mem_map_of_mem hq) gr hgr⟩
  cases isShadow with
  | false =>
    obtain ⟨w,hrun,_,_,hasked⟩ := checkGrpFile_quiet hlimit env false answers hgroup hall
      (show false = true → SameNames gshadowOps sgDb [] sgDb ∧ _ from nofun)
    simp only [hrun,Bool.not_false,if_true,hasked]
  | true =>
    obtain ⟨P',Q,hP',hQ,htidy',husers,hnames⟩ := h.gshadow rfl
    obtain rfl := Option.some.inj (hP.symm.trans hP')
    obtain ⟨db₀',hsg⟩ := hsg rfl
    obtain ⟨sl,hsl,hread',_⟩ := commonioOpen_kept (s := sgrpLines tools) hsg
    obtain rfl : sl.map sgDb.record = Q := Option.some.inj (hread'.symm.trans hQ)
    have hquiet : SgrpQuiet known sgDb sl sgDb := by
      refine ⟨.of_kept hsl,fun q hq sg hsg => ?_⟩
      obtain ⟨sg',hsg',hknown⟩ := husers _ (List.mem_map_of_mem hq)
      cases hsg.symm.trans hsg'
      exact hknown
    have hall' : ∀ q ∈ sl, Alone gshadowOps sgDb sl q := fun q hq => by
      rcases Tidy.alone (s := sgrpLines tools) hsl.rep.nodup htidy' hq with hnis | halone
      · obtain ⟨sg,hsg,_⟩ := husers _ (List.mem_map_of_mem hq)
        obtain ⟨line,_,hline⟩ := (sgrpLines tools).record_line hread' _ (List.mem_map_of_mem hq)
        rw [hline] at hnis hsg
        have hnone : (lineRecord (sgrpLines tools).ops line).eptr = none := if_pos hnis
        cases hnone.symm.trans hsg
      · exact halone
    obtain ⟨w,hrun,hdb,hrest,hasked⟩ := checkGrpFile_quiet hlimit env true answers hgroup hall fun _ =>
      ⟨.of_kept hsl,fun q hq name hname => by
        obtain ⟨r,hr,hrn⟩ := (hnames name).mp ⟨_,List.mem_map_of_mem hq,hname⟩
        obtain ⟨q,hq,rfl⟩ := List.mem_map.mp hr
        exact ⟨q,hq,hrn⟩⟩
    obtain ⟨c,hc,hcnames⟩ := hrest rfl
    have hquiet' : SgrpQuiet known sgDb sl w.rest := ⟨hcnames,by rw [hc]; exact hquiet.users⟩
    obtain ⟨w',hrun',hasked'⟩ := checkSgrFile_quiet hlimit answers (w := ⟨w.rest,w.db,w.changed,w.questions⟩) hquiet' hall' hdb.names
      fun q hq name hname => by
        obtain ⟨r,hr,hrn⟩ := (hnames name).mpr ⟨_,List.mem_map_of_mem hq,hname⟩
        obtain ⟨q,hq,rfl⟩ := List.mem_map.mp hr
        exact ⟨q,hq,hrn⟩
    simp only [hrun,hrun',Bool.not_true,Bool.false_eq_true,if_false]
    exact hasked'.trans hasked

private theorem closeFiles_cases (hlimit : tools.maxMembers = 0) (env : Env) (isShadow : Bool) (sgDb : Db Sgrp) {changed : Bool}
    {N : Set Bytes} (hgr : GroupChecked tools known P files.main.file grDb gl) (hgrch : grDb.changed = true → changed = true)
    (hsg : isShadow = true → SgrpChecked tools known S files.shadow.file N sgDb sl)
    (hsgch : isShadow = true → sgDb.changed = true → changed = true) :
    (∃ code, 0 < code ∧ closeFiles tools env isShadow changed grDb sgDb files = .error (.status code)) ∨
    ∃ files', closeFiles tools env isShadow changed grDb sgDb files = .ok files' ∧
      Rewritten (groupLines tools) GroupAgain (gl.map grDb.record) files'.main.file ∧
      (isShadow = true → Rewritten (sgrpLines tools) SgrpAgain (sl.map sgDb.record) files'.shadow.file) := by
  unfold closeFiles
  rw [(group_of_no_limit hlimit).2]
  rcases closePair_cases (s := groupLines tools) (t := sgrpLines tools) env isShadow
    (fun _ _ h => ⟨h.1.name,h.1.gid,h.1.members,.inr h.2⟩) (fun _ _ h => h) hgr.toChecked hgrch (fun h => (hsg h).toChecked) hsgch with
    herr | ⟨files',hclose,hmain,hshadow,_⟩
  · exact .inl herr
  · exact .inr ⟨files',hclose,hmain,hshadow⟩

/-- What the two walks and the closing leave of the groups. -/
structure GroupLeft (tools : Tools) (known : Bytes → Bool) (P : List (Record Group)) (file file' : Option Bytes) (db : Db Group)
    (l : List Nat) : Prop where
  checked : GroupChecked tools known P file db l
  alone : ∀ q ∈ l, isNisLine (db.record q) = true ∨ Alone (groupOps 0) db l q
  users : ∀ q ∈ l, ∀ gr ∈ (db.record q).eptr, ∀ user ∈ gr.members, known user = true
  written : Rewritten (groupLines tools) GroupAgain (l.map db.record) file'

/-- What they leave of gshadow. -/
structure SgrpLeft (tools : Tools) (known : Bytes → Bool) (P : List (Record Group)) (S : List (Record Sgrp))
    (file file' : Option Bytes) (db : Db Sgrp) (l : List Nat) : Prop where
  checked : SgrpChecked tools known S file (namesOf P) db l
  done : ∀ q ∈ l, Alone gshadowOps db l q ∧ SgrpDone known (namesOf P) (db.record q)
  written : Rewritten (sgrpLines tools) SgrpAgain (l.map db.record) file'

private theorem inOrder_of_left (hgr : GroupLeft tools known P files.main.file files'.main.file grDb gl)
    (hsg : isShadow = true → SgrpLeft tools known P S files.shadow.file files'.shadow.file sgDb sl) : InOrder known isShadow files' := by
  have hsame : ∀ a b, GroupAgain a b → b.name = a.name := fun _ _ h => h.name
  have hsame' : ∀ a b, SgrpAgain a b → b.name = a.name := fun _ _ h => h.1.name
  refine ⟨⟨_,hgr.written.read,hgr.checked.tidy hsame hgr.written.rel hgr.alone,fun r' hr' gr' hgr' => ?_⟩,fun hshadow => ?_⟩
  · obtain ⟨r,hr,rfl⟩ := List.mem_map.mp hr'
    obtain ⟨q,hq,rfl⟩ := List.mem_map.mp hr
    have hrel := hgr.written.rel _ hr
    rw [show ((groupLines tools).again (grDb.record q)).eptr = some gr' from hgr'] at hrel
    generalize heptr : (grDb.record q).eptr = a at hrel
    cases hrel with
    | some hagain =>
      rcases hagain.members with hlone | hsub
      · exact .inl hlone
      · exact .inr fun user hu => hgr.users q hq _ heptr user (hsub hu)
  · have h := hsg hshadow
    refine ⟨_,_,hgr.written.read,h.written.read,h.checked.tidy hsame' h.written.rel fun q hq => .inr (h.done q hq).1,
      fun r' hr' => ?_,fun name => ?_⟩
    · obtain ⟨r,hr,rfl⟩ := List.mem_map.mp hr'
      obtain ⟨q,hq,rfl⟩ := List.mem_map.mp hr
      obtain ⟨⟨sg,hsg,_⟩,hdone⟩ := h.done q hq
      have hrel := h.written.rel _ hr
      rw [hsg] at hrel
      generalize heptr : ((sgrpLines tools).again (sgDb.record q)).eptr = b at hrel
      cases hrel with
      | some hagain =>
        refine ⟨_,rfl,fun user hu => (hdone sg hsg).2 user ?_⟩
        rcases List.mem_append.mp hu with hu | hu
        · exact List.mem_append_left sg.mem (hagain.2.1 hu)
        · exact List.mem_append_right sg.adm (hagain.2.2 hu)
    · refine (exists_name_again hsame hgr.written.rel).trans (Iff.trans ?_ (exists_name_again hsame' h.written.rel).symm)
      constructor
      · rintro ⟨q,hq,hname⟩
        obtain ⟨gr,hgre,hgrname⟩ := Option.map_eq_some_iff.mp hname
        have hin := (hgr.checked.entry _ (List.mem_map_of_mem hq) gr hgre).2
        exact h.checked.names name (hgrname ▸ hin)
      · rintro ⟨q,hq,hname⟩
        obtain ⟨sg,hsge,hsgname⟩ := Option.map_eq_some_iff.mp hname
        have hin := ((h.done q hq).2 sg hsge).1
        exact hgr.checked.names name (hsgname ▸ hin)

/-- Every group keeps the users that exist. -/
theorem group_of_left (hgr : GroupLeft tools known P files.main.file files'.main.file grDb gl) {name : Bytes} {gr' : Group}
    (h : fileEntry (groupOps 0) files'.main.file name = some gr') :
    gr'.name = name ∧ FromGroup known (lastNamed (groupOps 0) name P) gr' := by
  obtain ⟨q,hq,gr,hgre,hagain,hname⟩ := entry_of_rewritten hgr.written h
  have halone := (hgr.alone q hq).resolve_left fun hnis => by
    cases (hgr.checked.nis _ (List.mem_map_of_mem hq) hnis).symm.trans hgre
  obtain ⟨gr₀,hold,hgid,husers⟩ := hgr.checked.lasts _ _ (halone.lastNamed hq hgr.checked.kept.rep.nodup hgre)
  have hkey : (groupOps 0).getname gr = name := hagain.name.symm.trans hname
  refine ⟨hname,gr₀,hkey ▸ hold,hgid.trans hagain.gid.symm,fun user hu hne hk => ?_⟩
  exact (hagain.users user hne).mpr (husers user hu hne hk)

private theorem sgrp_of_left (hsg : SgrpLeft tools known P S files.shadow.file files'.shadow.file sgDb sl) {name : Bytes} {sg' : Sgrp}
    (h : fileEntry gshadowOps files'.shadow.file name = some sg') :
    sg'.name = name ∧ FromSgrp known (lastNamed gshadowOps name S) sg' := by
  obtain ⟨q,hq,sg,hsge,hagain,hname⟩ := entry_of_rewritten hsg.written h
  have hfrom := hsg.checked.lasts _ _ ((hsg.done q hq).1.lastNamed hq hsg.checked.kept.rep.nodup hsge)
  have hkey : gshadowOps.getname sg = name := hagain.1.name.symm.trans hname
  rw [hkey] at hfrom
  refine ⟨hname,fun sg₀ hold => ⟨fun user hu hne hk => ?_,fun user hu hne hk => ?_⟩⟩
  · exact (hagain.1.adm user hne).mpr ((hfrom sg₀ hold).1 user hu hne hk)
  · exact (hagain.1.mem user hne).mpr ((hfrom sg₀ hold).2 user hu hne hk)

/-- What is said of a run with yes to everything: it ends, and where it succeeds, both files are in order,
users that exist and have a name stay in the lists of the last entry of each name, which is the one that
stays, and another run asks nothing. -/
structure Repaired (tools : Tools) (known : Bytes → Bool) (isShadow : Bool) (files : Files) (run : Except Exit Files × Nat) : Prop where
  ends : run.1 ≠ .error .endless
  inOrder : ∀ files', run.1 = .ok files' → InOrder known isShadow files'
  group : ∀ files', run.1 = .ok files' → ∀ name gr, fileEntry (groupOps 0) files'.main.file name = some gr →
    gr.name = name ∧ FromGroup known (lastNamed (groupOps 0) name ((readFile (groupOps 0) files.main.file).getD [])) gr
  gshadow : isShadow = true → ∀ files', run.1 = .ok files' → ∀ name sg, fileEntry gshadowOps files'.shadow.file name = some sg →
    sg.name = name ∧ FromSgrp known (lastNamed gshadowOps name ((readFile gshadowOps files.shadow.file).getD [])) sg
  quiet : ∀ files', run.1 = .ok files' → ∀ tools' env answers, tools'.maxMembers = 0 →
    (grpck tools' known env isShadow answers files').2 = 0

theorem Repaired.of_status {code n : Nat} : Repaired tools known isShadow files (.error (.status code),n) :=
  ⟨nofun,nofun,nofun,fun _ => nofun,nofun⟩

theorem Repaired.of_left (sgDb : Db Sgrp) {n : Nat} (hP : readFile (groupOps 0) files.main.file = some P)
    (hS : isShadow = true → readFile gshadowOps files.shadow.file = some S)
    (hgr : GroupLeft tools known P files.main.file files'.main.file grDb gl)
    (hsg : isShadow = true → SgrpLeft tools known P S files.shadow.file files'.shadow.file sgDb sl) :
    Repaired tools known isShadow files (.ok files',n) := by
  have horder := inOrder_of_left hgr hsg
  refine ⟨nofun,fun files'' heq => ?_,fun files'' heq name gr h => ?_,fun hshadow files'' heq name sg h => ?_,
    fun files'' heq tools' env answers hlimit => ?_⟩
  · cases heq
    exact horder
  · cases heq
    rw [hP]
    exact group_of_left hgr h
  · cases heq
    rw [hS hshadow]
    exact sgrp_of_left (hsg hshadow) h
  · cases heq
    exact grpck_asks_nothing hlimit env answers horder

/-- One run is enough. -/
theorem grpck_repairs (tools : Tools) (known : Bytes → Bool) (env : Env) (isShadow : Bool) (files : Files)
    (hlimit : tools.maxMembers = 0) : Repaired tools known isShadow files (grpck tools known env isShadow (fun _ => true) files) := by
  unfold grpck openFiles
  rcases openPair_cases env isShadow true tools.group tools.gshadow files with ⟨code,_,herr⟩ | ⟨grDb,sgDb,hopen,⟨db₀,hgr⟩,hsg⟩
  · rw [herr]
    exact .of_status
  rw [hopen]
  rw [(group_of_no_limit hlimit).1] at hgr
  obtain ⟨P,hP⟩ : ∃ P, readFile (groupOps 0) files.main.file = some P := by
    obtain ⟨l,_,hread,_⟩ := commonioOpen_kept (s := groupLines tools) hgr
    exact ⟨_,hread⟩
  obtain ⟨gl,hgl,hrecords,hch⟩ : ∃ l, GroupChecked tools known P files.main.file grDb l ∧ l.map grDb.record = P ∧
      grDb.changed = false := by
    have hentry : ∀ r ∈ P, ∀ gr ∈ r.eptr, gr.Text ∧ gr.name ∈ namesOf P := fun r hr gr hgre => by
      refine ⟨(groupLines tools).read r (readFile_isRead (groupLines tools).parts hP r hr).1 gr hgre,r,hr,?_⟩
      rw [Record.name,show r.eptr = some gr from hgre]
      rfl
    have hnames : ∀ name ∈ namesOf P, ∃ r ∈ P, r.name (groupLines tools).ops = some name := fun _ hname => hname
    obtain ⟨l,hchecked,hrecords,hch⟩ := Checked.of_open GroupAgain.refl hgr hP hentry hnames
    exact ⟨l,⟨hchecked,.of_records hrecords fun gr => ⟨gr,rfl,rfl,.refl gr.members⟩⟩,hrecords,hch⟩
  have hnochange : grDb.changed = true → false = true := fun h => hch ▸ h
  cases hshadow : isShadow with
  | false =>
    subst hshadow
    have hnever : ∀ {p : Prop}, false = true → p := fun h => absurd h Bool.false_ne_true
    rcases checkGrpFile_spec (S := []) env false files.shadow.file hlimit (fun _ => rfl) (w := ⟨grDb,sgDb,false,0⟩) hgl hrecords hP hnever
      hnochange with ⟨code,n,_,herr⟩ | ⟨w,l,hrun,hdb,_,hchanged,halone,hdone⟩
    · simp only [herr]
      exact .of_status
    · simp only [hrun,Bool.not_false,if_true]
      rcases closeFiles_cases hlimit env false w.rest hdb hchanged
        (show false = true → SgrpChecked tools known [] files.shadow.file ∅ w.rest [] from hnever) hnever with
        ⟨code,_,herr⟩ | ⟨files',hclose,hwritten,_⟩
      · rw [herr]
        exact .of_status
      · rw [hclose]
        exact .of_left w.rest hP hnever ⟨hdb,halone,fun q hq gr hgr => (hdone q hq gr hgr).1,hwritten⟩
          (show false = true → SgrpLeft tools known P [] files.shadow.file files'.shadow.file w.rest [] from hnever)
  | true =>
    subst hshadow
    obtain ⟨db₀',hsg⟩ := hsg rfl
    obtain ⟨S,hS⟩ : ∃ S, readFile gshadowOps files.shadow.file = some S := by
      obtain ⟨l,_,hread,_⟩ := commonioOpen_kept (s := sgrpLines tools) hsg
      exact ⟨_,hread⟩
    obtain ⟨sl,hsl,_,hsgch⟩ : ∃ l, SgrpChecked tools known S files.shadow.file {name | ∃ r ∈ S, r.name gshadowOps = some name} sgDb l ∧
        l.map sgDb.record = S ∧ sgDb.changed = false := by
      have hentry : ∀ r ∈ S, ∀ sg ∈ r.eptr, sg.Text := fun r hr sg hsge =>
        (sgrpLines tools).read r (readFile_isRead (sgrpLines tools).parts hS r hr).1 sg hsge
      have hnames : ∀ name ∈ {name | ∃ r ∈ S, r.name gshadowOps = some name}, ∃ r ∈ S, r.name (sgrpLines tools).ops = some name :=
        fun _ hname => hname
      obtain ⟨l,hchecked,hrecords,hch⟩ := Checked.of_open (sgrpLines tools).refl hsg hS hentry hnames
      refine ⟨l,⟨hchecked,.of_records hrecords fun sg sg₀ hold => ?_⟩,hrecords,hch⟩
      cases hold
      exact ⟨.refl sg.adm,.refl sg.mem⟩
    rcases checkGrpFile_spec env true files.shadow.file hlimit (fun _ => rfl) (w := ⟨grDb,sgDb,false,0⟩) hgl hrecords hP
      (fun _ => ⟨sl,hsl,fun h => hsgch ▸ h⟩) hnochange with ⟨code,n,_,herr⟩ | ⟨w,l,hrun,hdb,hrest,hchanged,halone,hdone⟩
    · simp only [herr]
      exact .of_status
    simp only [hrun,Bool.not_true,Bool.false_eq_true,if_false]
    obtain ⟨sl',hsl',hsgch'⟩ := hrest rfl
    -- every group has its gshadow entry now
    have hnames : ∀ name ∈ namesOf P, ∃ q ∈ sl', (w.rest.record q).name (sgrpLines tools).ops = some name := fun name hname => by
      obtain ⟨q,hq,hqn⟩ := hdb.names name hname
      obtain ⟨gr,hgre,rfl⟩ := Option.map_eq_some_iff.mp hqn
      obtain ⟨q',hq',hqn'⟩ := (hdone q hq gr hgre).2 rfl
      exact ⟨q',hsl'.kept.rep.from_head ▸ hq',hqn'⟩
    rcases checkSgrFile_spec hlimit (fun _ => rfl) hdb (w := ⟨w.rest,w.db,w.changed,w.questions⟩)
      ⟨hsl'.toChecked.withNames hnames,hsl'.lasts⟩ rfl hsgch' hchanged with
      ⟨code,n,_,herr⟩ | ⟨w',l',hrun',hdb',⟨c,hc,hcl⟩,hchanged',hgrch,hdone'⟩
    · simp only [herr]
      exact .of_status
    simp only [hrun']
    rcases closeFiles_cases hlimit env true w'.db (hc ▸ hdb.withCursor hcl) (hc ▸ hgrch) (fun _ => hdb') (fun _ => hchanged') with
      ⟨code,_,herr⟩ | ⟨files',hclose,hwritten,hwritten'⟩
    · rw [herr]
      exact .of_status
    · rw [hclose]
      exact .of_left w'.db hP (fun _ => hS) ⟨hc ▸ hdb.withCursor hcl,hc ▸ halone,hc ▸ fun q hq gr hgr => (hdone q hq gr hgr).1,hwritten⟩
        fun _ => ⟨hdb',hdone',hwritten' rfl⟩

end Files

def untidyFiles : Files :=
  ⟨⟨some (ascii "wheel:x:10:root,ghost\nbroken\nusers:other:100:root\nusers:secret:100:bob,,root\n+\n"),none⟩,
    ⟨some (ascii "wheel:!:ghost,root:root\nold:!::root\n+x\n"),none⟩⟩

def rootAndBob (user : Bytes) : Bool := user == ascii "root" || user == ascii "bob"

/-- Members and administrators that do not exist, a line that is none, a doubled name, a missing and two superfluous
entries: eight questions, and then none. -/
theorem grpck_repairs_untidy :
    ∃ files' : Files, grpck plainTools rootAndBob calmEnv true (fun _ => true) untidyFiles = (.ok files',8) ∧
      files'.main.file = some (ascii "wheel:x:10:root\nusers:x:100:bob,root\n+\n") ∧
      files'.shadow.file = some (ascii "wheel:!:root:root\nusers:secret::bob,root\n") ∧
      (grpck plainTools rootAndBob calmEnv true (fun _ => false) files').2 = 0 := by
  have hrun : ((grpck plainTools rootAndBob calmEnv true (fun _ => true) untidyFiles).1.toOption.map fun files =>
      (files.main.file,files.shadow.file)) = some (some (ascii "wheel:x:10:root\nusers:x:100:bob,root\n+\n"),
        some (ascii "wheel:!:root:root\nusers:secret::bob,root\n")) := by decide +kernel
  have hasked : (grpck plainTools rootAndBob calmEnv true (fun _ => true) untidyFiles).2 = 8 := by decide +kernel
  have hquiet := (grpck_repairs plainTools rootAndBob calmEnv true untidyFiles rfl).quiet
  rcases hresult : grpck plainTools rootAndBob calmEnv true (fun _ => true) untidyFiles with ⟨_ | files',n⟩
  · rw [hresult] at hrun
    cases hrun
  · rw [hresult] at hrun hasked hquiet
    cases hasked
    have hfiles := Prod.mk.inj (Option.some.inj hrun)
    exact ⟨files',rfl,hfiles.1,hfiles.2,hquiet files' rfl plainTools calmEnv (fun _ => false) rfl⟩

def loneCommaFiles (shadow : Bytes) : Files := ⟨⟨some (ascii "g:x:5:,\n"),none⟩,⟨some shadow,none⟩⟩

/-- A member without a name is not asked about where it is the only one; and it goes with the line, also where a user
without a name exists. -/
theorem lone_empty_member :
    ((grpck plainTools (fun _ => false) calmEnv true (fun _ => true) (loneCommaFiles (ascii "g:!::\n"))).1.toOption.bind fun files =>
      (fileEntry (groupOps 0) files.main.file (ascii "g")).map Group.members) = some [[]] ∧
    ((grpck plainTools List.isEmpty calmEnv true (fun _ => true) (loneCommaFiles [])).1.toOption.bind fun files =>
      (fileEntry (groupOps 0) files.main.file (ascii "g")).map Group.members) = some [] := by
  constructor
  · decide +kernel
  · decide +kernel

end UserDb.Programs.Grpck
