import UserDb.Defaults.Lines
import UserDb.Programs.Chgpasswd
import UserDb.Programs.GroupsRuns

/-! What `chgpasswd` makes of the groups: the password in force is that of the last line for its group, and nothing
else changes. -/
namespace UserDb.Programs.Chgpasswd
open UserDb.Base UserDb.Base.Outcomes UserDb.Atoi UserDb.Commonio UserDb.Defaults

/-- A new password in the tables. -/
def setPassword (shadow : Bool) (t : GroupTables) (change : Bytes × Bytes) : GroupTables :=
  match t.group change.1 with
  | none => t
  | some gr =>
    let sg := if shadow then shadowEntry gr change.1 (t.gshadow change.1) else none
    { t with
      gshadow := match sg with
        | none => t.gshadow
        | some sg => Function.update t.gshadow change.1 (some { sg with passwd := change.2 })
      group :=
        if !sg.isSome || gr.passwd != shadowPasswdString then Function.update t.group change.1 (some { gr with passwd := change.2 })
        else t.group }

/-- The changes that the lines say, where each of them says one. -/
def changesFrom (o : Chgpasswd) : Nat → List Bytes → Option (List (Bytes × Bytes))
  | _, [] => some []
  | n, buf :: bufs => do
    let (name,newpwd) ← splitLine buf
    let cp ← o.newPassword n newpwd
    let changes ← changesFrom o (n + 1) bufs
    return (name,cp) :: changes

def changes (o : Chgpasswd) (stdin : Bytes) : Option (List (Bytes × Bytes)) := changesFrom o 0 (Fgets.pieces newline Login.bufsiz stdin)

/-- The password that is in force: that of the shadow where the group says so. -/
def effective (t : GroupTables) (name : Bytes) : Option Bytes :=
  (t.group name).map fun gr =>
    if gr.passwd == shadowPasswdString then ((t.gshadow name).map Sgrp.passwd).getD gr.passwd else gr.passwd

/-- A group and its shadow, but for the passwords; a shadow that was made up is that of the group. -/
structure KeepsGroup (t t' : GroupTables) (name : Bytes) : Prop where
  group : (t'.group name).map (fun gr => { gr with passwd := [] }) = (t.group name).map fun gr => { gr with passwd := [] }
  gshadow : ∀ sg, t.gshadow name = some sg → ∃ passwd, t'.gshadow name = some { sg with passwd := passwd }
  made : t.gshadow name = none → ∀ sg, t'.gshadow name = some sg →
    ∃ gr, t.group name = some gr ∧ sg.name = name ∧ sg.adm = [] ∧ sg.mem = gr.members

/-- What the last line for a name leaves: its password in force, or nothing changed where there is no line. -/
def Shows (t t' : GroupTables) (name : Bytes) : Option Bytes → Prop
  | none => t'.group name = t.group name ∧ t'.gshadow name = t.gshadow name
  | some cp => t.group name ≠ none → effective t' name = some cp

/-- The open files list the entries of tables: groups are stored in their places, shadows may be new. -/
structure Listed (tools : Tools) (files : GroupFiles) (dbs : GroupDbs) (t : GroupTables) : Prop where
  group : Listing tools.group files.group.file dbs.group t.group
  gshadow : HoldingUsed tools.gshadow files.gshadow.file dbs.gshadow t.gshadow

section Texts
variable {o : Chgpasswd} {buf line name newpwd : Bytes}

private theorem splitLine_text (h : splitLine buf = some (name,newpwd)) : (0 : UInt8) ∉ name ∧ (0 : UInt8) ∉ newpwd := by
  have hbuf : (0 : UInt8) ∉ cstring buf := fun hz => by simpa using List.mem_takeWhile_imp hz
  unfold splitLine at h
  rcases stpsep_cases newline (cstring buf) with ⟨_,hline⟩ | ⟨line,rest,_,heq,hline⟩
  · rw [hline] at h
    cases h
  · rw [hline] at h
    rw [heq] at hbuf
    simp only at h
    rcases stpsep_cases colon line with ⟨_,hcolon⟩ | ⟨name',newpwd',_,rfl,hcolon⟩
    · rw [hcolon] at h
      cases h
    · rw [hcolon] at h
      cases h
      exact ⟨fun hz => hbuf (by simp [hz]),fun hz => hbuf (by simp [hz])⟩

/-- The hashes are strings. -/
theorem newPassword_text (hcrypt : ∀ n password hash, o.crypt n password = some hash → (0 : UInt8) ∉ hash) {n : Nat} {cp : Bytes}
    (hnew : (0 : UInt8) ∉ newpwd) (h : o.newPassword n newpwd = some cp) : (0 : UInt8) ∉ cp := by
  unfold newPassword at h
  split at h
  · exact hcrypt n newpwd cp h
  · cases h
    exact hnew

theorem shadowEntry_made {gr : Group} {sg : Sgrp} (h : shadowEntry gr name none = some sg) : sg = ⟨name,[],[],gr.members⟩ := by
  unfold shadowEntry at h
  simp only at h
  split at h
  · cases h
    rfl
  · cases h

private theorem shadowEntry_spec {gr : Group} {osg : Option Sgrp} {sg : Sgrp} {cp : Bytes} (hgr : gr.Text) (hname : gr.name = name)
    (hcp : (0 : UInt8) ∉ cp) (hold : ∀ sg', osg = some sg' → sg'.name = name ∧ sg'.Text) (h : shadowEntry gr name osg = some sg) :
    sg.name = name ∧ Sgrp.Text { sg with passwd := cp } := by
  cases osg with
  | some sg' =>
    cases h
    obtain ⟨hsg,htext⟩ := hold sg rfl
    exact ⟨hsg,htext.notNis,htext.name,hcp,htext.adm,htext.mem⟩
  | none =>
    rw [shadowEntry_made h]
    exact ⟨rfl,hname ▸ hgr.notNis,hname ▸ hgr.name,hcp,List.forall_mem_nil _,hgr.members⟩

end Texts

section Lines
variable {o : Chgpasswd} {e : GroupEnv} {files : GroupFiles} {dbs dbs' : GroupDbs} {t : GroupTables} {n : Nat} {name cp : Bytes}

/-- A group that is there is stored in its place, whether or not a new one would be in reach. -/
theorem updateGroup_listing {file : Option Bytes} {groups groups' : Db Group} {t : Bytes → Option Group} {gr : Group} {shadowed : Bool}
    (h : Listing e.tools.group file groups t) (hgr : t name = some gr) (hcp : (0 : UInt8) ∉ cp)
    (hrun : updateGroup e n cp gr shadowed groups = (true,groups')) :
    Listing e.tools.group file groups'
      (if !shadowed || gr.passwd != shadowPasswdString then Function.update t name (some { gr with passwd := cp }) else t) := by
  unfold updateGroup at hrun
  split at hrun
  · rename_i hstored
    obtain ⟨hname,htext⟩ := h.found hgr
    rw [if_pos hstored]
    exact h.replace hgr hname ⟨htext.notNis,htext.name,hcp,htext.members⟩ hrun
  · rename_i hkept
    cases hrun
    rw [if_neg hkept]
    exact h

private theorem locateShadow_holding {file : Option Bytes} {gshadows gshadows' : Option (Db Sgrp)} {t : Bytes → Option Sgrp} {gr : Group}
    {sg : Option Sgrp} (h : HoldingUsed e.tools.gshadow file gshadows t) (hrun : locateShadow e gr name gshadows = (sg,gshadows')) :
    sg = (if gshadows.isSome then shadowEntry gr name (t name) else none) ∧ HoldingUsed e.tools.gshadow file gshadows' t ∧
      gshadows'.isSome = gshadows.isSome := by
  cases gshadows with
  | none =>
    cases hrun
    exact ⟨rfl,h,rfl⟩
  | some gshadows =>
    obtain ⟨hfound,hlocated⟩ := Holding.locate h name
    cases hrun
    rw [Option.isSome_some,if_pos rfl,← hfound]
    exact ⟨rfl,hlocated,rfl⟩

private theorem updateShadow_holding {file : Option Bytes} {gshadows gshadows' : Option (Db Sgrp)} {t t' : Bytes → Option Sgrp}
    {sg : Option Sgrp}
    (hset : t' = match sg with
      | none => t
      | some sg => Function.update t name (some { sg with passwd := cp }))
    (h : HoldingUsed e.tools.gshadow file gshadows t)
    (hsg : ∀ sg', sg = some sg' → gshadows.isSome = true ∧ sg'.name = name ∧ Sgrp.Text { sg' with passwd := cp })
    (hrun : updateShadow e n cp sg gshadows = (true,gshadows')) :
    HoldingUsed e.tools.gshadow file gshadows' t' ∧ gshadows'.isSome = gshadows.isSome := by
  rw [hset]
  cases sg with
  | none =>
    cases hrun
    exact ⟨h,rfl⟩
  | some sg =>
    obtain ⟨hused,hname,htext⟩ := hsg sg rfl
    obtain ⟨gshadows,rfl⟩ := Option.isSome_iff_exists.mp hused
    rcases hstore : commonioUpdate e.tools.gshadow.ops gshadows { sg with passwd := cp } (e.gshadow.memory n) with ⟨stored,gshadows''⟩
    simp only [updateShadow,hstore] at hrun
    cases hrun
    have hkey : e.tools.gshadow.ops.getname { sg with passwd := cp } = name := hname
    have hstored := Holding.update h hstore htext
    rw [hkey] at hstored
    exact ⟨hstored,rfl⟩

theorem setPassword_some {shadow : Bool} {gr : Group} (hgr : t.group name = some gr) :
    setPassword shadow t (name,cp) =
      { t with
        gshadow := match (if shadow then shadowEntry gr name (t.gshadow name) else none) with
          | none => t.gshadow
          | some sg => Function.update t.gshadow name (some { sg with passwd := cp })
        group :=
          if !(if shadow then shadowEntry gr name (t.gshadow name) else none).isSome || gr.passwd != shadowPasswdString then
            Function.update t.group name (some { gr with passwd := cp })
          else t.group } := by
  unfold setPassword
  rw [hgr]

/-- A line that succeeds sets the password of a group that is there. -/
theorem changePassword_listed (h : Listed e.tools files dbs t) (hcp : (0 : UInt8) ∉ cp)
    (hrun : changePassword e n name cp dbs = (true,dbs')) :
    t.group name ≠ none ∧ Listed e.tools files dbs' (setPassword dbs.gshadow.isSome t (name,cp)) ∧
      dbs'.gshadow.isSome = dbs.gshadow.isSome := by
  obtain ⟨hfound,hlocated⟩ := h.group.locate name
  unfold changePassword at hrun
  rcases hlocate : commonioLocate e.tools.group.ops dbs.group name with ⟨_ | gr,groups⟩
  · rw [hlocate] at hrun
    cases hrun
  · rw [hlocate] at hrun hfound hlocated
    have hgr : t.group name = some gr := hfound.symm
    obtain ⟨hname,htext⟩ := h.group.found hgr
    rcases hshadow : locateShadow e gr name dbs.gshadow with ⟨sg,gshadows₁⟩
    obtain ⟨hsg,hlocated',hused₁⟩ := locateShadow_holding h.gshadow hshadow
    have hentry : ∀ sg', sg = some sg' → gshadows₁.isSome = true ∧ sg'.name = name ∧ Sgrp.Text { sg' with passwd := cp } := by
      intro sg' hsome
      rw [hsome] at hsg
      by_cases hopen : dbs.gshadow.isSome
      · rw [if_pos hopen] at hsg
        obtain ⟨gshadows,hdb⟩ := Option.isSome_iff_exists.mp hopen
        have hold := h.gshadow
        rw [hdb] at hold
        exact ⟨hused₁.trans hopen,shadowEntry_spec htext hname hcp (fun _ hsome' => Holding.found hold hsome') hsg.symm⟩
      · rw [if_neg hopen] at hsg
        cases hsg
    rcases hstore : updateShadow e n cp sg gshadows₁ with ⟨_ | _,gshadows₂⟩
    · simp only [hshadow,hstore,Bool.not_false,if_true] at hrun
      cases hrun
    · obtain ⟨hstored,hused₂⟩ := updateShadow_holding rfl hlocated' hentry hstore
      rcases hupdate : updateGroup e n cp gr sg.isSome groups with ⟨stored,groups'⟩
      simp only [hshadow,hstore,Bool.not_true,Bool.false_eq_true,if_false,hupdate] at hrun
      cases hrun
      rw [setPassword_some hgr,← hsg]
      refine ⟨hgr ▸ Option.some_ne_none gr,?_,hused₂.trans hused₁⟩
      exact ⟨updateGroup_listing hlocated hgr hcp hupdate,hstored⟩

theorem setPassword_group {shadow : Bool} {gr : Group} (hgr : t.group name = some gr) :
    (setPassword shadow t (name,cp)).group = Function.update t.group name (some { gr with passwd := cp }) ∨
      (setPassword shadow t (name,cp)).group = t.group := by
  rw [setPassword_some hgr]
  exact ite_eq_or_eq _ _ _

private theorem setPassword_known (shadow : Bool) (t : GroupTables) (name cp k : Bytes) :
    (setPassword shadow t (name,cp)).group k = none ↔ t.group k = none := by
  cases hgr : t.group name with
  | none =>
    unfold setPassword
    rw [hgr]
  | some gr =>
    rcases @setPassword_group t name cp shadow gr hgr with hset | hsame
    · rw [hset]
      by_cases hk : k = name
      · rw [hk,Function.update_self,hgr]
        exact iff_of_false (Option.some_ne_none _) (Option.some_ne_none _)
      · rw [Function.update_of_ne hk]
    · rw [hsame]

private theorem changePasswords_errors {bufs : List Bytes} {errors : Bool}
    (h : o.changePasswords e n bufs (true,dbs) = .ok (errors,dbs')) : errors = true := by
  induction bufs generalizing n dbs with
  | nil =>
    cases h
    rfl
  | cons buf bufs ih =>
    unfold changePasswords at h
    split at h
    · exact ih h
    · split at h
      · cases h
      · exact ih h

/-- Lines without an error, one after the other. -/
theorem changePasswords_listed (hcrypt : ∀ n password hash, o.crypt n password = some hash → (0 : UInt8) ∉ hash) {bufs : List Bytes}
    (h : Listed e.tools files dbs t) (hrun : o.changePasswords e n bufs (false,dbs) = .ok (false,dbs')) :
    ∃ writes, changesFrom o n bufs = some writes ∧ (∀ write ∈ writes, t.group write.1 ≠ none) ∧
      Listed e.tools files dbs' (writes.foldl (setPassword dbs.gshadow.isSome) t) := by
  induction bufs generalizing n dbs t with
  | nil =>
    cases hrun
    exact ⟨[],rfl,List.forall_mem_nil _,h⟩
  | cons buf bufs ih =>
    unfold changePasswords at hrun
    split at hrun
    · exact absurd (changePasswords_errors hrun) Bool.false_ne_true
    · rename_i name newpwd hline
      split at hrun
      · cases hrun
      · rename_i cp hnew
        rcases hchange : changePassword e n name cp dbs with ⟨_ | _,dbs₁⟩
        · rw [hchange] at hrun
          exact absurd (changePasswords_errors hrun) Bool.false_ne_true
        · rw [hchange] at hrun
          obtain ⟨hknown,hlisted,hshadow⟩ := changePassword_listed h (newPassword_text hcrypt (splitLine_text hline).2 hnew) hchange
          obtain ⟨writes,hwrites,hall,hdone⟩ := ih hlisted hrun
          rw [hshadow] at hdone
          refine ⟨(name,cp) :: writes,by rw [changesFrom,hline,Option.bind_eq_bind,Option.bind_some]; simp [hnew,hwrites],?_,hdone⟩
          refine List.forall_mem_cons.mpr ⟨hknown,fun write hwrite hnone => ?_⟩
          exact hall write hwrite ((setPassword_known _ t name cp write.1).mpr hnone)

end Lines

section Law
variable {t s : GroupTables} {shadow : Bool} {name cp k : Bytes}

private theorem setPassword_other (hk : k ≠ name) :
    (setPassword shadow s (name,cp)).group k = s.group k ∧ (setPassword shadow s (name,cp)).gshadow k = s.gshadow k := by
  cases hgr : s.group name with
  | none =>
    unfold setPassword
    rw [hgr]
    exact ⟨rfl,rfl⟩
  | some gr =>
    constructor
    · rcases @setPassword_group s name cp shadow gr hgr with hset | hsame
      · rw [hset]
        exact Function.update_of_ne hk _ _
      · rw [hsame]
    · rw [setPassword_some hgr]
      cases if shadow then shadowEntry gr name (s.gshadow name) else none with
      | none => rfl
      | some sg => exact Function.update_of_ne hk _ _

/-- The tables behind a new password, at its group. -/
theorem setPassword_self {gr : Group} (hgr : s.group name = some gr) (hfile : shadow = false → s.gshadow name = none) :
    ∃ passwd, (setPassword shadow s (name,cp)).group name = some { gr with passwd := passwd } ∧
      ((setPassword shadow s (name,cp)).gshadow name = (s.gshadow name) ∧ s.gshadow name = none ∧ passwd = cp ∨
        (∃ sg, shadowEntry gr name (s.gshadow name) = some sg ∧
          (setPassword shadow s (name,cp)).gshadow name = some { sg with passwd := cp } ∧
          (passwd = cp ∨ passwd = shadowPasswdString))) := by
  rw [setPassword_some hgr]
  cases hsg : (if shadow then shadowEntry gr name (s.gshadow name) else none) with
  | none =>
    have hnone : s.gshadow name = none := by
      cases shadow with
      | false => exact hfile rfl
      | true =>
        rw [if_pos rfl] at hsg
        cases hs : s.gshadow name with
        | none => rfl
        | some sg =>
          rw [hs] at hsg
          cases hsg
    rw [Option.isSome_none,Bool.not_false,Bool.true_or,if_pos rfl]
    exact ⟨cp,Function.update_self _ _ _,.inl ⟨rfl,hnone,rfl⟩⟩
  | some sg =>
    cases shadow with
    | false => cases hsg
    | true =>
      rw [if_pos rfl] at hsg
      rw [Option.isSome_some,Bool.not_true,Bool.false_or]
      simp only [Function.update_self]
      split
      · rw [Function.update_self]
        exact ⟨cp,rfl,.inr ⟨sg,hsg,rfl,.inl rfl⟩⟩
      · rename_i hx
        have hx : gr.passwd = shadowPasswdString := by simpa using hx
        exact ⟨gr.passwd,hgr,.inr ⟨sg,hsg,rfl,.inr hx⟩⟩

private theorem setPassword_effective {gr : Group} (hgr : s.group name = some gr) (hfile : shadow = false → s.gshadow name = none) :
    effective (setPassword shadow s (name,cp)) name = some cp := by
  obtain ⟨passwd,hgroup,⟨hshadow,hnone,rfl⟩ | ⟨sg,_,hshadow,hpasswd⟩⟩ := @setPassword_self s shadow name cp gr hgr hfile
  · rw [effective,hgroup,hshadow,hnone]
    simp
  · rw [effective,hgroup,hshadow]
    rcases hpasswd with rfl | rfl
    · simp
    · simp

theorem KeepsGroup.set (h : KeepsGroup t s name) (hfile : shadow = false → s.gshadow name = none) :
    KeepsGroup t (setPassword shadow s (name,cp)) name := by
  cases hgr : s.group name with
  | none =>
    have hsame : setPassword shadow s (name,cp) = s := by
      unfold setPassword
      rw [hgr]
    rwa [hsame]
  | some gr =>
    have hold := h.group
    rw [hgr] at hold
    obtain ⟨passwd,hgroup,⟨hshadow,hnone,_⟩ | ⟨sg,hsg,hshadow,_⟩⟩ := @setPassword_self s shadow name cp gr hgr hfile
    · refine ⟨by rw [hgroup,← hold]; rfl,fun sg hs => ?_,fun hs sg hsg => ?_⟩
      · obtain ⟨passwd',hs'⟩ := h.gshadow sg hs
        exact ⟨passwd',hshadow.trans hs'⟩
      · exact h.made hs sg (hshadow.symm.trans hsg)
    · refine ⟨by rw [hgroup,← hold]; rfl,fun sg₀ hs => ?_,fun hs sg' hsg' => ?_⟩
      · obtain ⟨passwd',hs'⟩ := h.gshadow sg₀ hs
        rw [hs'] at hsg
        cases hsg
        exact ⟨cp,hshadow⟩
      · rw [hshadow] at hsg'
        cases hsg'
        cases hs' : s.gshadow name with
        | some sg₁ =>
          rw [hs'] at hsg
          cases hsg
          exact h.made hs sg hs'
        | none =>
          rw [hs'] at hsg
          rw [shadowEntry_made hsg]
          cases ht : t.group name with
          | none =>
            rw [ht] at hold
            cases hold
          | some gr₀ =>
            rw [ht] at hold
            have hsame : ({ gr with passwd := [] } : Group) = { gr₀ with passwd := [] } := Option.some.inj hold
            have hmembers := congrArg Group.members hsame
            exact ⟨gr₀,rfl,rfl,rfl,hmembers⟩

/-- Lines set the passwords of their groups, the last one for each. -/
theorem foldl_setPassword (t : GroupTables) (hfile : shadow = false → ∀ name, t.gshadow name = none) (writes : List (Bytes × Bytes)) :
    (∀ name, KeepsGroup t (writes.foldl (setPassword shadow) t) name) ∧
      ∀ name, Shows t (writes.foldl (setPassword shadow) t) name (lastWrite name writes) := by
  have hstep : ∀ s write, ((∀ name, KeepsGroup t s name) ∧ (shadow = false → ∀ name, s.gshadow name = none)) →
      (∀ name, KeepsGroup t (setPassword shadow s write) name) ∧
        (shadow = false → ∀ name, (setPassword shadow s write).gshadow name = none) := by
    rintro s ⟨key,cp⟩ ⟨hkeeps,hs⟩
    refine ⟨fun name => ?_,fun hshadow name => ?_⟩
    · by_cases hk : name = key
      · subst hk
        exact (hkeeps name).set fun hshadow => hs hshadow name
      · obtain ⟨hgroup,hgshadow⟩ := @setPassword_other s shadow key cp name hk
        have hold := hkeeps name
        exact ⟨hgroup.symm ▸ hold.group,hgshadow.symm ▸ hold.gshadow,hgshadow.symm ▸ hold.made⟩
    · unfold setPassword
      rw [hshadow]
      split
      · exact hs hshadow name
      · exact hs hshadow name
  have hshows := foldl_lastWrite (Shows t) hstep ?_ ?_ ⟨?_,hfile⟩ (fun _ => ⟨rfl,rfl⟩) writes
  · exact ⟨hshows.1.1,hshows.2⟩
  · rintro s key cp ⟨hkeeps,hs⟩ hknown
    have hgroup := (hkeeps key).group
    cases hgr : s.group key with
    | none =>
      rw [hgr] at hgroup
      exact absurd (Option.map_eq_none_iff.mp hgroup.symm) hknown
    | some gr => exact setPassword_effective hgr fun hshadow => hs hshadow key
  · intro s key cp other o hother hs
    obtain ⟨hgroup,hgshadow⟩ := @setPassword_other s shadow key cp other hother
    cases o with
    | none => exact ⟨hgroup.trans hs.1,hgshadow.trans hs.2⟩
    | some cp' =>
      intro hknown
      have heffective := hs hknown
      rw [effective,hgroup,hgshadow]
      exact heffective
  · exact fun name => ⟨rfl,fun sg hsg => ⟨sg.passwd,hsg⟩,fun hnone sg hsg => absurd (hnone.symm.trans hsg) (Option.some_ne_none sg).symm⟩

end Law

/-- The tables in the files: the shadow is written first, and the group file where that succeeds. -/
structure Written (tools : Tools) (files : GroupFiles) (t : GroupTables) (exit : Exit) (files' : GroupFiles) : Prop where
  passwd : files'.passwd = files.passwd
  stages : files'.gshadow.file = files.gshadow.file ∧ files'.group.file = files.group.file ∨
    Keeps tools.gshadow t.gshadow files'.gshadow.file ∧
      (files'.group.file = files.group.file ∨ Keeps tools.group t.group files'.group.file)
  all : exit = Groups.success → Keeps tools.gshadow t.gshadow files'.gshadow.file ∧ Keeps tools.group t.group files'.group.file

section Program
variable {o : Chgpasswd} {e : GroupEnv} {files files' : GroupFiles} {dbs : GroupDbs} {t : GroupTables} {exit : Exit} {stdin : Bytes}

theorem failed_ne_success : failed ≠ Groups.success := by decide

private theorem opened_listed {shadow : Bool} (hunique : files.Unique e.tools) (h : openFiles e shadow files = .ok dbs) :
    Listed e.tools files dbs (files.tables e.tools) ∧ dbs.gshadow.isSome = shadow := by
  unfold openFiles at h
  split at h
  · cases h
  · split at h
    · rename_i groups gshadows hgroups hgshadows
      cases h
      have hg := openUsed_holding hunique.gshadow (tailLinked_of_no_hook rfl _) hgshadows
      exact ⟨⟨openLocked_listing hunique.group hgroups,hg.1⟩,hg.2⟩
    · cases h

private theorem openFiles_failed {shadow : Bool} (h : openFiles e shadow files = .error exit) : exit ≠ Groups.success := by
  unfold openFiles at h
  split at h
  · cases h
    exact failed_ne_success
  · split at h
    · cases h
    · cases h
      exact failed_ne_success

private theorem changePasswords_failed {n : Nat} {bufs : List Bytes} {state : Bool × GroupDbs}
    (h : o.changePasswords e n bufs state = .error exit) : exit ≠ Groups.success := by
  induction bufs generalizing n state with
  | nil => cases h
  | cons buf bufs ih =>
    unfold changePasswords at h
    split at h
    · exact ih h
    · split at h
      · cases h
        exact failed_ne_success
      · exact ih h

private theorem closeFiles_written (hunique : files.Unique e.tools) (h : Listed e.tools files dbs t)
    (hclose : closeFiles e dbs files = (exit,files')) : Written e.tools files t exit files' := by
  unfold closeFiles at hclose
  rcases hgshadow : Groups.closeUsed e e.tools.gshadow e.gshadow dbs.gshadow files.gshadow with ⟨ok,gshadow⟩
  have hs := closeUsed_cases hunique.gshadow h.gshadow hgshadow
  simp only [hgshadow] at hclose
  cases ok with
  | false =>
    cases hclose
    exact ⟨rfl,hs.imp (fun hf => ⟨hf.2,rfl⟩) fun hkeeps => ⟨hkeeps,.inl rfl⟩,fun hexit => absurd hexit failed_ne_success⟩
  | true =>
    have hs := hs.resolve_left fun hf => Bool.false_ne_true hf.1.symm
    rcases hgroup : Groups.closeFile e e.tools.group e.group dbs.group files.group with ⟨ok,group⟩
    have hg := closeFile_cases h.group hgroup
    simp only [hgroup] at hclose
    cases hclose
    refine ⟨rfl,.inr ⟨hs,hg.imp_left And.right⟩,fun hexit => ⟨hs,?_⟩⟩
    cases ok with
    | false => exact absurd hexit failed_ne_success
    | true => exact hg.resolve_left fun hf => Bool.false_ne_true hf.1.symm

/-- Either nothing is written, or every line named a group that is there, and the password in force of each group is that
of the last line for it; nothing else of the groups has changed. -/
theorem last_password_counts (hunique : files.Unique e.tools)
    (hcrypt : ∀ n password hash, o.crypt n password = some hash → (0 : UInt8) ∉ hash) (h : o.run e stdin files = (exit,files')) :
    (exit ≠ Groups.success ∧ files' = files) ∨
      ∃ writes t, o.changes stdin = some writes ∧ (∀ write ∈ writes, (files.tables e.tools).group write.1 ≠ none) ∧
        (∀ name, KeepsGroup (files.tables e.tools) t name ∧ Shows (files.tables e.tools) t name (lastWrite name writes)) ∧
        Written e.tools files t exit files' := by
  unfold run at h
  cases hopen : openFiles e files.isShadowGrp files with
  | error exit' =>
    rw [hopen] at h
    cases h
    exact .inl ⟨openFiles_failed hopen,rfl⟩
  | ok dbs =>
    rw [hopen] at h
    simp only at h
    obtain ⟨hlisted,hshadow⟩ := opened_listed hunique hopen
    rcases hrun : o.changePasswords e 0 (Fgets.pieces newline Login.bufsiz stdin) (false,dbs) with exit' | ⟨_ | _,dbs'⟩
    · rw [hrun] at h
      cases h
      exact .inl ⟨changePasswords_failed hrun,rfl⟩
    · rw [hrun] at h
      obtain ⟨writes,hwrites,hknown,hdone⟩ := changePasswords_listed hcrypt hlisted hrun
      rw [hshadow] at hdone
      obtain ⟨hkeeps,hshows⟩ := foldl_setPassword (files.tables e.tools) (fun hs => GroupFiles.tables_gshadow hs) writes
      exact .inr ⟨writes,_,hwrites,hknown,fun name => ⟨hkeeps name,hshows name⟩,closeFiles_written hunique hdone h⟩
    · rw [hrun] at h
      cases h
      exact .inl ⟨failed_ne_success,rfl⟩

/-- Passwords that are encrypted already, one group twice. -/
def encryptedPasswords : Chgpasswd := ⟨true,none,fun _ _ => none⟩
def passwordLines : Bytes := ascii "g:new\nh:p\ng:last\n"

def twoGroups : GroupFiles := groupFiles "" "g:x:5:\nh:old:6:u\n" "g:!::\n"
def withoutAccounts : GroupEnv := plainGroupEnv (knownAccounts [] [])

theorem last_password_counts_twice :
    (encryptedPasswords.run withoutAccounts passwordLines twoGroups).1 = Groups.success ∧
      ∃ t, effective t (ascii "g") = some (ascii "last") ∧
        Keeps plainTools.gshadow t.gshadow (encryptedPasswords.run withoutAccounts passwordLines twoGroups).2.gshadow.file := by
  have hunique : twoGroups.Unique plainTools :=
    ⟨uniqueFile_of_names rfl (by decide +kernel),uniqueFile_of_names rfl (by decide +kernel),uniqueFile_of_names rfl (by decide +kernel)⟩
  have hexit : (encryptedPasswords.run withoutAccounts passwordLines twoGroups).1 = Groups.success := by decide +kernel
  have hcrypt : ∀ n password hash, encryptedPasswords.crypt n password = some hash → (0 : UInt8) ∉ hash := fun _ _ hash h =>
    absurd h (Option.some_ne_none hash).symm
  have hrun : encryptedPasswords.run withoutAccounts passwordLines twoGroups =
      (Groups.success,(encryptedPasswords.run withoutAccounts passwordLines twoGroups).2) := Prod.ext hexit rfl
  rcases last_password_counts (e := withoutAccounts) hunique hcrypt hrun with ⟨hfailed,_⟩ | ⟨writes,t,hwrites,hknown,hlaw,hwritten⟩
  · exact absurd rfl hfailed
  · refine ⟨hexit,t,?_,(hwritten.all rfl).1⟩
    have hchanges : encryptedPasswords.changes passwordLines =
      some [(ascii "g",ascii "new"),(ascii "h",ascii "p"),(ascii "g",ascii "last")] := by decide +kernel
    obtain rfl := Option.some.inj (hwrites.symm.trans hchanges)
    have hshows := (hlaw (ascii "g")).2
    have hlast : lastWrite (ascii "g") [(ascii "g",ascii "new"),(ascii "h",ascii "p"),(ascii "g",ascii "last")] = some (ascii "last") := by
      decide +kernel
    rw [hlast] at hshows
    exact hshows (hknown _ List.mem_cons_self)

end Program

end UserDb.Programs.Chgpasswd
