import UserDb.Programs.Setup

/-! `pwconv`, `pwunconv`, `grpconv` and `grpunconv`: passwords move between a public file and
its shadow, and nobody's password changes at any moment. -/
namespace UserDb.Programs
open UserDb.Base UserDb.Commonio

/-- The exit codes of a program. -/
structure Statuses where
  busy : Nat
  mainOpen : Nat
  shadowOpen : Nat
  failure : Nat
  pos : 0 < busy ∧ 0 < mainOpen ∧ 0 < shadowOpen ∧ 0 < failure

/-- A run: how it ended, and what was to be seen on disk, from its start to its end. -/
structure Run where
  exit : Exit
  states : List Files

section Programs
variable {α β : Type} (st : Statuses) (env : Env) (main : Storage α) (shadow : Storage β)

/-- The entries of the shadow that are not in the public file are removed. -/
def removeStrangers : Nat → Db α → Db β → Except Exit (Db α × Db β)
  | 0, _, _ => .error .endless
  | fuel + 1, mainDb, shadowDb =>
    match commonioNext shadowDb with
    | (none,shadowDb) => .ok (mainDb,shadowDb)
    | (some sp,shadowDb) =>
      match commonioLocate main.ops mainDb (shadow.ops.getname sp) with
      | (some _,mainDb) => removeStrangers fuel mainDb shadowDb
      | (none,mainDb) =>
        match commonioRemove shadow.ops shadowDb (shadow.ops.getname sp) with
        | (false,_) => .error (.status st.failure)
        | (true,shadowDb) => removeStrangers fuel mainDb (commonioRewind shadowDb).2

/-- A loop over the entries of the public file. -/
def forEntries (body : Nat → α → Db α → Db β → Except Exit (Db α × Db β)) : Nat → Db α → Db β → Except Exit (Db α × Db β)
  | 0, _, _ => .error .endless
  | fuel + 1, mainDb, shadowDb =>
    match commonioNext mainDb with
    | (none,mainDb) => .ok (mainDb,shadowDb)
    | (some a,mainDb) =>
      match body fuel a mainDb shadowDb with
      | .error e => .error e
      | .ok (mainDb,shadowDb) => forEntries body fuel mainDb shadowDb

/-- One round of the loop of `pwconv` and `grpconv`: both entries are stored, or none. -/
def convertEntry (entry : α → Option β → Option (β × α)) (round : Nat) (a : α) (mainDb : Db α) (shadowDb : Db β) :
    Except Exit (Db α × Db β) :=
  let (b,shadowDb) := commonioLocate shadow.ops shadowDb (main.ops.getname a)
  match entry a b with
  | none => .ok (mainDb,shadowDb)
  | some (b,a) =>
    match commonioUpdate shadow.ops shadowDb b (env.memory round).2 with
    | (false,_) => .error (.status st.failure)
    | (true,shadowDb) =>
      match commonioUpdate main.ops mainDb a (env.memory round).1 with
      | (false,_) => .error (.status st.failure)
      | (true,mainDb) => .ok (mainDb,shadowDb)

/-- One round of the loop of `pwunconv` and `grpunconv`. -/
def unconvertEntry (entry : α → Option β → Option α) (round : Nat) (a : α) (mainDb : Db α) (shadowDb : Db β) :
    Except Exit (Db α × Db β) :=
  let (b,shadowDb) := commonioLocate shadow.ops shadowDb (main.ops.getname a)
  match entry a b with
  | none => .ok (mainDb,shadowDb)
  | some a =>
    match commonioUpdate main.ops mainDb a (env.memory round).1 with
    | (false,_) => .error (.status st.failure)
    | (true,mainDb) => .ok (mainDb,shadowDb)

/-- Both files are locked and opened, the public one for writing. -/
def openBoth (access : AccessMode) (create : Bool) (files : Files) : Except Exit (Db α × Db β) :=
  if !env.mainLock then .error (.status st.busy)
  else
    match openFirst main .rdwr true files.main.file env.mainRead env.mainMemory with
    | (false,_) => .error (.status st.mainOpen)
    | (true,mainDb) =>
      if !env.shadowLock then .error (.status st.busy)
      else
        match openFirst shadow access create files.shadow.file env.shadowRead env.shadowMemory with
        | (false,_) => .error (.status st.shadowOpen)
        | (true,shadowDb) => .ok (mainDb,shadowDb)

/-- What `pwconv` and `grpconv` make of the two databases. -/
def convertDbs (entry : α → Option β → Option (β × α)) (files : Files) : Except Exit (Db α × Db β) := do
  let (mainDb,shadowDb) ← openBoth st env main shadow .rdwr true files
  let (mainDb,shadowDb) ← removeStrangers st main shadow (shadowDb.fresh * shadowDb.fresh + shadowDb.fresh + 1) mainDb
    (commonioRewind shadowDb).2
  forEntries (convertEntry st env main shadow entry) (mainDb.fresh + 1) (commonioRewind mainDb).2 shadowDb

/-- The shadow is closed first. -/
def convert (entry : α → Option β → Option (β × α)) (files : Files) : Run :=
  match convertDbs st env main shadow entry files with
  | .error e => ⟨e,[files]⟩
  | .ok (mainDb,shadowDb) =>
    let closedShadow := commonioClose env.selinux shadow.closeOps env.shadowSteps shadowDb files.shadow.file files.shadow
    let files₁ := { files with shadow := closedShadow.2.2 }
    if !closedShadow.1 then ⟨.status st.failure,[files,files₁]⟩
    else
      let closedMain := commonioClose env.selinux main.closeOps env.mainSteps mainDb files.main.file files.main
      let files₂ := { files₁ with main := closedMain.2.2 }
      ⟨.status (if closedMain.1 then 0 else st.failure),[files,files₁,files₂]⟩

/-- What `pwunconv` and `grpunconv` make of the two databases. -/
def unconvertDbs (entry : α → Option β → Option α) (files : Files) : Except Exit (Db α × Db β) := do
  let (mainDb,shadowDb) ← openBoth st env main shadow .rdonly false files
  forEntries (unconvertEntry st env main shadow entry) (mainDb.fresh + 1) (commonioRewind mainDb).2 shadowDb

/-- The shadow, which was open for reading only, goes away behind the closing of the public file. -/
def unconvert (entry : α → Option β → Option α) (files : Files) : Run :=
  if !(env.forceShadow || files.shadow.file.isSome) then ⟨.status 0,[files]⟩
  else
    match unconvertDbs st env main shadow entry files with
    | .error e => ⟨e,[files]⟩
    | .ok (mainDb,shadowDb) =>
      let closedShadow := commonioClose env.selinux shadow.closeOps env.shadowSteps shadowDb files.shadow.file files.shadow
      let files₁ := { files with shadow := closedShadow.2.2 }
      let closedMain := commonioClose env.selinux main.closeOps env.mainSteps mainDb files.main.file files.main
      let files₂ := { files₁ with main := closedMain.2.2 }
      if !closedMain.1 then ⟨.status st.failure,[files,files₁,files₂]⟩
      else if !env.unlink then ⟨.status st.failure,[files,files₁,files₂]⟩
      else ⟨.status 0,[files,files₁,files₂,{ files₂ with shadow := { files₂.shadow with file := none } }]⟩

end Programs

def pwconvEntry (defs : LoginDefs) (pw : Passwd) : Option Spwd → Option (Spwd × Passwd)
  | some sp =>
    if pw.passwd = shadowPasswdString then none
    else some ({ sp with pwdp := pw.passwd, lstchg := defs.lstchg },{ pw with passwd := shadowPasswdString })
  | none =>
    some (⟨pw.name,pw.passwd,defs.lstchg,-1,defs.passMaxDays,defs.passWarnAge,-1,-1,flagUnset⟩,
      { pw with passwd := shadowPasswdString })

def pwunconvEntry (pw : Passwd) : Option Spwd → Option Passwd
  | some sp => some (if pw.passwd = shadowPasswdString then { pw with passwd := sp.pwdp } else pw)
  | none => none

def grpconvEntry (gr : Group) (sg : Option Sgrp) : Option (Sgrp × Group) :=
  let sgent : Sgrp :=
    match sg with
    | some sg => if gr.passwd = shadowPasswdString then sg else { sg with passwd := gr.passwd }
    | none => ⟨gr.name,gr.passwd,[],[]⟩
  some ({ sgent with mem := gr.members },{ gr with passwd := shadowPasswdString })

def grpunconvEntry (gr : Group) : Option Sgrp → Option Group
  | some sg => if gr.passwd = shadowPasswdString then some { gr with passwd := sg.passwd } else none
  | none => none

theorem statuses_pos : 0 < 5 ∧ 0 < 4 ∧ 0 < 3 ∧ 0 < 3 := by decide

def pwconv (tools : Tools) (defs : LoginDefs) (env : Env) (files : Files) : Run :=
  convert ⟨5,4,3,3,statuses_pos⟩ env tools.passwd tools.shadow (pwconvEntry defs) files

def pwunconv (tools : Tools) (env : Env) (files : Files) : Run :=
  unconvert ⟨5,1,1,3,by decide⟩ env tools.passwd tools.shadow pwunconvEntry files

def grpconv (tools : Tools) (env : Env) (files : Files) : Run :=
  convert ⟨5,1,1,3,by decide⟩ env tools.group tools.gshadow grpconvEntry files

def grpunconv (tools : Tools) (env : Env) (files : Files) : Run :=
  unconvert ⟨5,1,1,3,by decide⟩ env tools.group tools.gshadow grpunconvEntry files

section Loops
variable {α β : Type} {main : Storage α} {shadow : Storage β} {mainFile shadowFile : Option Bytes}

/-- The loop that removes strangers ends, and leaves the entries that are in the public file. -/
theorem removeStrangers_spec (st : Statuses) {fuel : Nat} {mainDb : Db α} {shadowDb : Db β} {ml xs ys : List Nat} {stale : Bool}
    {t : Bytes → Option α} {u : Bytes → Option β} (hmain : Table main mainFile mainDb ml stale t)
    (hshadow : Table shadow shadowFile shadowDb (xs ++ ys) false u) (hcursor : shadowDb.cursor = xs.getLast?)
    (hxs : ∀ q ∈ xs, ∀ b ∈ (shadowDb.record q).eptr, (t (shadow.ops.getname b)).isSome = true)
    (hfuel : (xs ++ ys).length * (xs ++ ys).length + ys.length < fuel) :
    removeStrangers st main shadow fuel mainDb shadowDb = .error (.status st.failure) ∨
    ∃ mainDb' shadowDb' sl, removeStrangers st main shadow fuel mainDb shadowDb = .ok (mainDb',shadowDb') ∧
      Table main mainFile mainDb' ml stale t ∧
      Table shadow shadowFile shadowDb' sl false fun name => if (t name).isSome then u name else none := by
  induction fuel generalizing mainDb shadowDb xs ys u with
  | zero => omega
  | succ fuel ih =>
    rw [removeStrangers]
    rcases hshadow.loaded.rep.chain.next hcursor hshadow.isopen with ⟨hnone,hnext⟩ | ⟨us,p,vs,b,rfl,hus,hb,hnext⟩
    · -- the cursor is at the end: every entry was looked up
      simp only [hnext]
      refine .inr ⟨mainDb,{ shadowDb with cursor := none },xs ++ ys,rfl,hmain,?_⟩
      have htable : u = fun name => if (t name).isSome then u name else none := by
        funext name
        split
        · rfl
        · rename_i hstranger
          rw [← hshadow.table]
          by_contra hfound
          obtain ⟨b,hb⟩ := Option.ne_none_iff_exists'.mp hfound
          obtain ⟨r,hr,hrb,rfl⟩ := lookup_eq_some hb
          obtain ⟨q,hq,rfl⟩ := List.mem_map.mp hr
          rcases List.mem_append.mp hq with hq | hq
          · exact hstranger (hxs q hq b hrb)
          · rw [hnone q hq] at hrb
            cases hrb
      rw [← htable]
      exact hshadow.withCursor nofun
    · simp only [hnext]
      have hp : p ∈ xs ++ (us ++ p :: vs) := by simp
      obtain ⟨hfound,c,hc,hcl⟩ := hmain.locate (shadow.ops.getname b)
      rw [hmain.table] at hfound
      have hmain' := hmain.withCursor hcl
      have hshadow' := hshadow.withCursor (c := some p) fun q hq => Option.some.inj hq ▸ hp
      cases hlocate : commonioLocate main.ops mainDb (shadow.ops.getname b) with
      | mk found mainDb' =>
        rw [hlocate] at hfound hc
        have hfound : found = t (shadow.ops.getname b) := hfound
        have hc : mainDb' = { mainDb with cursor := c } := hc
        subst hc
        cases found with
        | some a =>
          simp only
          have hlist : xs ++ (us ++ p :: vs) = (xs ++ us ++ [p]) ++ vs := by simp
          rw [hlist] at hshadow' hfuel
          refine ih hmain' hshadow' (by simp) (fun q hq d hd => ?_) (by simp at hfuel ⊢; omega)
          rcases List.mem_append.mp hq with hq | hq
          · rcases List.mem_append.mp hq with hq | hq
            · exact hxs q hq d hd
            · rw [show (({ shadowDb with cursor := some p } : Db β).record q).eptr = none from hus q hq] at hd
              cases hd
          · obtain rfl := List.mem_singleton.mp hq
            have hd : (shadowDb.record q).eptr = some d := hd
            cases hb.symm.trans hd
            rw [← hfound]
            rfl
        | none =>
          simp only
          cases hremove : commonioRemove shadow.ops { shadowDb with cursor := some p } (shadow.ops.getname b) with
          | mk ok shadowDb' =>
            cases ok with
            | false => exact .inl rfl
            | true =>
              simp only
              obtain ⟨sl,hshadow'',hlen⟩ := hshadow'.remove hremove
              have hstart := hshadow''.withCursor (c := none) nofun
              rw [hshadow''.rewind]
              have hlist : Table shadow shadowFile { shadowDb' with cursor := none } ([] ++ sl) false
                  (Function.update u (shadow.ops.getname b) none) := hstart
              have hsmaller : ([] ++ sl).length * ([] ++ sl).length + sl.length < fuel := by
                rw [hlen] at hfuel
                rw [List.nil_append]
                nlinarith
              have hsame : (fun name => if (t name).isSome then Function.update u (shadow.ops.getname b) none name else none) =
                  fun name => if (t name).isSome then u name else none := by
                funext name
                by_cases hname : name = shadow.ops.getname b
                · subst hname
                  rw [← hfound]
                  rfl
                · rw [Function.update_of_ne hname]
              rw [← hsame]
              exact ih hmain' hlist rfl nofun hsmaller

/-- What a round does: it makes `f` of the entry that it is about and of the shadow entry of
its name, and touches nothing else. -/
def RoundDoes (st : Statuses) (main : Storage α) (shadow : Storage β) (mainFile shadowFile : Option Bytes)
    (f : α → Option β → α × Option β) (body : Nat → α → Db α → Db β → Except Exit (Db α × Db β)) : Prop :=
  ∀ (round : Nat) (a : α) (mainDb : Db α) (shadowDb : Db β) (ml sl : List Nat) (stale : Bool) (t : Bytes → Option α)
    (u : Bytes → Option β) (p : Nat), Table main mainFile mainDb ml stale t → Table shadow shadowFile shadowDb sl false u →
    p ∈ ml → (mainDb.record p).eptr = some a → mainDb.cursor = some p →
    body round a mainDb shadowDb = .error (.status st.failure) ∨
    ∃ mainDb' shadowDb' sl', body round a mainDb shadowDb = .ok (mainDb',shadowDb') ∧ mainDb'.cursor = some p ∧
      Table main mainFile mainDb' ml stale
        (Function.update t (main.ops.getname a) (some (f a (u (main.ops.getname a))).1)) ∧
      Table shadow shadowFile shadowDb' sl' false
        (Function.update u (main.ops.getname a) (f a (u (main.ops.getname a))).2) ∧
      ∀ q, q ≠ p → mainDb'.record q = mainDb.record q

/-- The public entries after a loop of such rounds. -/
def mainAfter (f : α → Option β → α × Option β) (t : Bytes → Option α) (u : Bytes → Option β) (name : Bytes) : Option α :=
  (t name).map fun a => (f a (u name)).1

def shadowAfter (f : α → Option β → α × Option β) (t : Bytes → Option α) (u : Bytes → Option β) (name : Bytes) : Option β :=
  match t name with
  | some a => (f a (u name)).2
  | none => u name

/-- The loop over the public entries ends, and each round was about another name. -/
theorem forEntries_spec {st : Statuses} {f : α → Option β → α × Option β} {body : Nat → α → Db α → Db β → Except Exit (Db α × Db β)}
    (hbody : RoundDoes st main shadow mainFile shadowFile f body) {fuel : Nat} {mainDb : Db α} {shadowDb : Db β}
    {xs ys sl : List Nat} {stale : Bool} {t : Bytes → Option α} {u : Bytes → Option β}
    (hmain : Table main mainFile mainDb (xs ++ ys) stale t) (hshadow : Table shadow shadowFile shadowDb sl false u)
    (hcursor : mainDb.cursor = xs.getLast?) (hfuel : ys.length < fuel) :
    forEntries body fuel mainDb shadowDb = .error (.status st.failure) ∨
    ∃ mainDb' shadowDb' sl' t' u', forEntries body fuel mainDb shadowDb = .ok (mainDb',shadowDb') ∧
      Table main mainFile mainDb' (xs ++ ys) stale t' ∧ Table shadow shadowFile shadowDb' sl' false u' ∧
      ∀ name, if ∃ q ∈ ys, (mainDb.record q).name main.ops = some name then
          t' name = mainAfter f t u name ∧ u' name = shadowAfter f t u name
        else t' name = t name ∧ u' name = u name := by
  induction fuel generalizing mainDb shadowDb xs ys sl t u with
  | zero => omega
  | succ fuel ih =>
    rw [forEntries]
    rcases hmain.loaded.rep.chain.next hcursor hmain.isopen with ⟨hnone,hnext⟩ | ⟨us,p,vs,a,rfl,hus,ha,hnext⟩
    · simp only [hnext]
      refine .inr ⟨_,shadowDb,sl,t,u,rfl,hmain.withCursor nofun,hshadow,fun name => ?_⟩
      rw [if_neg]
      · exact ⟨rfl,rfl⟩
      · rintro ⟨q,hq,hname⟩
        rw [Record.name,hnone q hq] at hname
        cases hname
    · simp only [hnext]
      have hp : p ∈ xs ++ (us ++ p :: vs) := by simp
      have hmain' := hmain.withCursor (c := some p) fun q hq => Option.some.inj hq ▸ hp
      have hta := hmain.entry hp ha
      rcases hbody fuel a _ shadowDb _ sl stale t u p hmain' hshadow hp ha rfl with
        herr | ⟨mainDb',shadowDb',sl',hok,hcursor',hmain'',hshadow',hrecord⟩
      · rw [herr]
        exact .inl rfl
      · simp only [hok]
        have hlist : xs ++ (us ++ p :: vs) = (xs ++ us ++ [p]) ++ vs := by simp
        have hnodup := hmain.loaded.rep.nodup
        rw [hlist] at hmain'' hnodup
        have hrest : ∀ q ∈ vs, q ≠ p := fun q hq heq =>
          (List.nodup_append.mp hnodup).2.2 p (by simp) q hq heq.symm
        have hlen : vs.length < fuel := by
          simp only [List.length_append,List.length_cons] at hfuel
          omega
        rcases ih hmain'' hshadow' (by rw [hcursor']; simp) hlen with herr | ⟨mainDb'',shadowDb'',sl'',t',u',hrun,ht',hu',hafter⟩
        · exact .inl herr
        · refine .inr ⟨mainDb'',shadowDb'',sl'',t',u',hrun,hlist ▸ ht',hu',fun name => ?_⟩
          have hname := hafter name
          have hnames : ∀ q ∈ vs, (mainDb'.record q).name main.ops = (mainDb.record q).name main.ops := fun q hq => by
            rw [hrecord q (hrest q hq)]
            rfl
          have hin : (∃ q ∈ us ++ p :: vs, (mainDb.record q).name main.ops = some name) ↔
              name = main.ops.getname a ∨ ∃ q ∈ vs, (mainDb'.record q).name main.ops = some name := by
            constructor
            · rintro ⟨q,hq,hqn⟩
              rcases List.mem_append.mp hq with hq | hq
              · rw [Record.name,hus q hq] at hqn
                cases hqn
              · rcases List.mem_cons.mp hq with rfl | hq
                · rw [Record.name,ha,Option.map_some] at hqn
                  exact .inl (Option.some.inj hqn).symm
                · exact .inr ⟨q,hq,(hnames q hq).trans hqn⟩
            · rintro (rfl | ⟨q,hq,hqn⟩)
              · exact ⟨p,by simp,by rw [Record.name,ha,Option.map_some]⟩
              · exact ⟨q,by simp [hq],(hnames q hq).symm.trans hqn⟩
          by_cases hself : name = main.ops.getname a
          · -- no later round is about this name
            have hlater : ¬ ∃ q ∈ vs, (mainDb'.record q).name main.ops = some name := by
              rintro ⟨q,hq,hqn⟩
              rw [hnames q hq] at hqn
              exact hrest q hq (hmain.address (by simp [hq]) hp hqn (by rw [Record.name,ha,Option.map_some,hself]))
            rw [if_neg hlater] at hname
            rw [if_pos (hin.mpr (.inl hself)),hname.1,hname.2,hself,Function.update_self,Function.update_self]
            simp [mainAfter,shadowAfter,hta]
          · by_cases hvs : ∃ q ∈ vs, (mainDb'.record q).name main.ops = some name
            · rw [if_pos hvs] at hname
              rw [if_pos (hin.mpr (.inr hvs))]
              simpa only [mainAfter,shadowAfter,Function.update_of_ne hself] using hname
            · rw [if_neg hvs] at hname
              rw [if_neg fun h => (hin.mp h).elim hself hvs]
              simpa only [Function.update_of_ne hself] using hname

/-- What a round of `pwconv` or `grpconv` makes of an entry and its shadow. -/
def convertRound (entry : α → Option β → Option (β × α)) (a : α) (b : Option β) : α × Option β :=
  match entry a b with
  | some (b',a') => (a',some b')
  | none => (a,b)

def unconvertRound (entry : α → Option β → Option α) (a : α) (b : Option β) : α × Option β :=
  match entry a b with
  | some a' => (a',b)
  | none => (a,b)

/-- What is stored has the name of the entry, and is of the kind of the file. -/
structure Storable (main : Storage α) (shadow : Storage β) (f : α → Option β → α × Option β) : Prop where
  entry : ∀ a b, main.Text a → (∀ c ∈ b, shadow.ops.getname c = main.ops.getname a ∧ shadow.Text c) →
    main.ops.getname (f a b).1 = main.ops.getname a ∧ main.Text (f a b).1
  secret : ∀ a b, main.Text a → (∀ c ∈ b, shadow.ops.getname c = main.ops.getname a ∧ shadow.Text c) →
    ∀ c ∈ (f a b).2, shadow.ops.getname c = main.ops.getname a ∧ shadow.Text c

private theorem convertEntry_does (st : Statuses) (env : Env) {entry : α → Option β → Option (β × α)}
    (hstorable : Storable main shadow (convertRound entry)) :
    RoundDoes st main shadow mainFile shadowFile (convertRound entry) (convertEntry st env main shadow entry) := by
  intro round a mainDb shadowDb ml sl stale t u p hmain hshadow hp ha hcursor
  obtain ⟨hfound,c,hc,hcl⟩ := hshadow.locate (main.ops.getname a)
  rw [hshadow.table] at hfound
  have hta := hmain.entry hp ha
  have hb : ∀ b ∈ u (main.ops.getname a), shadow.ops.getname b = main.ops.getname a ∧ shadow.Text b :=
    fun b hb => hshadow.found hb
  have hatext := (hmain.found hta).2
  obtain ⟨hname,htext⟩ := hstorable.entry a _ hatext hb
  have hshadowed := hstorable.secret a _ hatext hb
  unfold convertEntry
  rw [show commonioLocate shadow.ops shadowDb (main.ops.getname a) = (u (main.ops.getname a),{ shadowDb with cursor := c })
    from Prod.ext hfound hc]
  simp only
  unfold convertRound at hname htext hshadowed ⊢
  cases hentry : entry a (u (main.ops.getname a)) with
  | none =>
    refine .inr ⟨mainDb,_,sl,rfl,hcursor,?_,?_,fun _ _ => rfl⟩
    · rw [← hta,Function.update_eq_self]
      exact hmain
    · rw [Function.update_eq_self]
      exact hshadow.withCursor hcl
  | some entries =>
    obtain ⟨b',a'⟩ := entries
    rw [hentry] at hname htext hshadowed
    obtain ⟨hbname,hbtext⟩ := hshadowed b' rfl
    simp only at hname htext ⊢
    cases hupdate : commonioUpdate shadow.ops { shadowDb with cursor := c } b' (env.memory round).2 with
    | mk ok shadowDb' =>
      cases ok with
      | false => exact .inl rfl
      | true =>
        obtain ⟨sl',hshadow'⟩ := (hshadow.withCursor hcl).update hupdate hbtext
        cases hupdate' : commonioUpdate main.ops mainDb a' (env.memory round).1 with
        | mk ok mainDb' =>
          cases ok with
          | false => exact .inl rfl
          | true =>
            obtain ⟨hmain',hcursor',hrecord⟩ := hmain.update_at hp ha hname htext hupdate'
            refine .inr ⟨mainDb',shadowDb',sl',rfl,hcursor',hmain',?_,fun q hq => ?_⟩
            · rw [← hbname]
              exact hshadow'
            · rw [hrecord,Function.update_of_ne hq]

private theorem unconvertEntry_does (st : Statuses) (env : Env) {entry : α → Option β → Option α}
    (hstorable : Storable main shadow (unconvertRound entry)) :
    RoundDoes st main shadow mainFile shadowFile (unconvertRound entry) (unconvertEntry st env main shadow entry) := by
  intro round a mainDb shadowDb ml sl stale t u p hmain hshadow hp ha hcursor
  obtain ⟨hfound,c,hc,hcl⟩ := hshadow.locate (main.ops.getname a)
  rw [hshadow.table] at hfound
  have hta := hmain.entry hp ha
  obtain ⟨hname,htext⟩ := hstorable.entry a (u (main.ops.getname a)) (hmain.found hta).2 fun b hb => hshadow.found hb
  unfold unconvertEntry
  rw [show commonioLocate shadow.ops shadowDb (main.ops.getname a) = (u (main.ops.getname a),{ shadowDb with cursor := c })
    from Prod.ext hfound hc]
  simp only
  unfold unconvertRound at hname htext ⊢
  cases hentry : entry a (u (main.ops.getname a)) with
  | none =>
    refine .inr ⟨mainDb,_,sl,rfl,hcursor,?_,?_,fun _ _ => rfl⟩
    · rw [← hta,Function.update_eq_self]
      exact hmain
    · rw [Function.update_eq_self]
      exact hshadow.withCursor hcl
  | some a' =>
    rw [hentry] at hname htext
    simp only at hname htext ⊢
    cases hupdate : commonioUpdate main.ops mainDb a' (env.memory round).1 with
    | mk ok mainDb' =>
      cases ok with
      | false => exact .inl rfl
      | true =>
        obtain ⟨hmain',hcursor',hrecord⟩ := hmain.update_at hp ha hname htext hupdate
        refine .inr ⟨mainDb',_,sl,rfl,hcursor',hmain',?_,fun q hq => ?_⟩
        · rw [Function.update_eq_self]
          exact hshadow.withCursor hcl
        · rw [hrecord,Function.update_of_ne hq]

end Loops

section Databases
variable {α β : Type} (st : Statuses) (env : Env) {main : Storage α} {shadow : Storage β} {files : Files}

theorem openBoth_tables {access : AccessMode} {create : Bool} (hmain : UniqueFile main.ops files.main.file)
    (hshadow : UniqueFile shadow.ops files.shadow.file) (hook : shadow.ops.openHook = none) :
    (∃ code, 0 < code ∧ openBoth st env main shadow access create files = .error (.status code)) ∨
    ∃ mainDb shadowDb ml sl stale, openBoth st env main shadow access create files = .ok (mainDb,shadowDb) ∧
      Table main files.main.file mainDb ml stale (fileEntry main.ops files.main.file) ∧
      Table shadow files.shadow.file shadowDb sl false (fileEntry shadow.ops files.shadow.file) := by
  unfold openBoth
  obtain ⟨hbusy,hmainOpen,hshadowOpen,_⟩ := st.pos
  split
  · exact .inl ⟨_,hbusy,rfl⟩
  · cases hopen : openFirst main .rdwr true files.main.file env.mainRead env.mainMemory with
    | mk ok mainDb =>
      cases ok with
      | false => exact .inl ⟨_,hmainOpen,rfl⟩
      | true =>
        simp only
        split
        · exact .inl ⟨_,hbusy,rfl⟩
        · cases hopen' : openFirst shadow access create files.shadow.file env.shadowRead env.shadowMemory with
          | mk ok shadowDb =>
            cases ok with
            | false => exact .inl ⟨_,hshadowOpen,rfl⟩
            | true =>
              obtain ⟨ml,stale,hmainTable,_⟩ := openFirst_table hmain hopen
              obtain ⟨sl,stale',hshadowTable,hstale⟩ := openFirst_table hshadow hopen'
              obtain rfl := hstale hook
              exact .inr ⟨mainDb,shadowDb,ml,sl,stale,rfl,hmainTable,hshadowTable⟩

/-- A whole loop over the public entries. -/
theorem forEntries_all {st : Statuses} {f : α → Option β → α × Option β} {body : Nat → α → Db α → Db β → Except Exit (Db α × Db β)}
    {mainFile shadowFile : Option Bytes} (hbody : RoundDoes st main shadow mainFile shadowFile f body) {mainDb : Db α}
    {shadowDb : Db β} {ml sl : List Nat} {stale : Bool} {t : Bytes → Option α} {u : Bytes → Option β}
    (hmain : Table main mainFile mainDb ml stale t) (hshadow : Table shadow shadowFile shadowDb sl false u) :
    forEntries body (mainDb.fresh + 1) (commonioRewind mainDb).2 shadowDb = .error (.status st.failure) ∨
    ∃ mainDb' shadowDb' sl', forEntries body (mainDb.fresh + 1) (commonioRewind mainDb).2 shadowDb = .ok (mainDb',shadowDb') ∧
      Table main mainFile mainDb' ml stale (mainAfter f t u) ∧
      Table shadow shadowFile shadowDb' sl' false (shadowAfter f t u) := by
  rw [hmain.rewind]
  have hstart : Table main mainFile { mainDb with cursor := none } ([] ++ ml) stale t := hmain.withCursor nofun
  have hfuel : ml.length < mainDb.fresh + 1 := Nat.lt_succ_of_le hmain.loaded.rep.length_le
  rcases forEntries_spec hbody hstart hshadow rfl hfuel with
    herr | ⟨mainDb',shadowDb',sl',t',u',hrun,hmain',hshadow',hafter⟩
  · exact .inl herr
  · have hall : ∀ name, t' name = mainAfter f t u name ∧ u' name = shadowAfter f t u name := fun name => by
      have hname := hafter name
      split at hname
      · exact hname
      · rename_i hnot
        have hnone : t name = none := by
          rw [← hmain.table,lookup_eq_none]
          refine named_of_ne fun r hr heq => hnot ?_
          obtain ⟨q,hq,rfl⟩ := List.mem_map.mp hr
          exact ⟨q,hq,heq⟩
        rw [hname.1,hname.2,mainAfter,shadowAfter,hnone]
        exact ⟨rfl,rfl⟩
    obtain rfl : t' = mainAfter f t u := funext fun name => (hall name).1
    obtain rfl : u' = shadowAfter f t u := funext fun name => (hall name).2
    exact .inr ⟨mainDb',shadowDb',sl',hrun,hmain',hshadow'⟩

/-- The shadow without its strangers. -/
def ownShadow (t : Bytes → Option α) (u : Bytes → Option β) (name : Bytes) : Option β := if (t name).isSome then u name else none

private theorem convertDbs_tables {entry : α → Option β → Option (β × α)} (hstorable : Storable main shadow (convertRound entry))
    (hmain : UniqueFile main.ops files.main.file) (hshadow : UniqueFile shadow.ops files.shadow.file)
    (hook : shadow.ops.openHook = none) :
    let t := fileEntry main.ops files.main.file
    let u := ownShadow t (fileEntry shadow.ops files.shadow.file)
    (∃ code, 0 < code ∧ convertDbs st env main shadow entry files = .error (.status code)) ∨
    ∃ mainDb shadowDb ml sl stale, convertDbs st env main shadow entry files = .ok (mainDb,shadowDb) ∧
      Table main files.main.file mainDb ml stale (mainAfter (convertRound entry) t u) ∧
      Table shadow files.shadow.file shadowDb sl false (shadowAfter (convertRound entry) t u) := by
  intro t u
  have hfailure : 0 < st.failure := st.pos.2.2.2
  unfold convertDbs
  rcases openBoth_tables st env hmain hshadow hook with ⟨code,hcode,herr⟩ | ⟨mainDb,shadowDb,ml,sl,stale,hopen,hm,hs⟩
  · rw [herr]
    exact .inl ⟨code,hcode,rfl⟩
  · rw [hopen]
    simp only [bind,Except.bind]
    rw [hs.rewind]
    have hstart : Table shadow files.shadow.file { shadowDb with cursor := none } ([] ++ sl) false
        (fileEntry shadow.ops files.shadow.file) := hs.withCursor nofun
    have hlen := hs.loaded.rep.length_le
    have hfuel : ([] ++ sl).length * ([] ++ sl).length + sl.length < shadowDb.fresh * shadowDb.fresh + shadowDb.fresh + 1 := by
      have hsq := Nat.mul_le_mul hlen hlen
      rw [List.nil_append]
      omega
    rcases removeStrangers_spec st hm hstart rfl nofun hfuel with herr | ⟨mainDb',shadowDb',sl',hrun,hm',hs'⟩
    · rw [herr]
      exact .inl ⟨_,hfailure,rfl⟩
    · rw [hrun]
      simp only
      rcases forEntries_all (convertEntry_does st env hstorable) hm' hs' with herr | ⟨mainDb'',shadowDb'',sl'',hrun',hm'',hs''⟩
      · exact .inl ⟨_,hfailure,herr⟩
      · exact .inr ⟨mainDb'',shadowDb'',ml,sl'',stale,hrun',hm'',hs''⟩

private theorem unconvertDbs_tables {entry : α → Option β → Option α} (hstorable : Storable main shadow (unconvertRound entry))
    (hmain : UniqueFile main.ops files.main.file) (hshadow : UniqueFile shadow.ops files.shadow.file)
    (hook : shadow.ops.openHook = none) :
    let t := fileEntry main.ops files.main.file
    let u := fileEntry shadow.ops files.shadow.file
    (∃ code, 0 < code ∧ unconvertDbs st env main shadow entry files = .error (.status code)) ∨
    ∃ mainDb shadowDb ml sl stale, unconvertDbs st env main shadow entry files = .ok (mainDb,shadowDb) ∧
      Table main files.main.file mainDb ml stale (mainAfter (unconvertRound entry) t u) ∧
      Table shadow files.shadow.file shadowDb sl false (shadowAfter (unconvertRound entry) t u) := by
  intro t u
  unfold unconvertDbs
  rcases openBoth_tables st env hmain hshadow hook with ⟨code,hcode,herr⟩ | ⟨mainDb,shadowDb,ml,sl,stale,hopen,hm,hs⟩
  · rw [herr]
    exact .inl ⟨code,hcode,rfl⟩
  · rw [hopen]
    simp only [bind,Except.bind]
    rcases forEntries_all (unconvertEntry_does st env hstorable) hm hs with herr | ⟨mainDb',shadowDb',sl',hrun,hm',hs'⟩
    · exact .inl ⟨_,st.pos.2.2.2,herr⟩
    · exact .inr ⟨mainDb',shadowDb',ml,sl',stale,hrun,hm',hs'⟩

end Databases

section Passwords
variable {α β : Type}

/-- The password that counts: the shadow has it where the public entry refers to it. -/
def effective (pw : α → Bytes) (secret : β → Bytes) (a : Option α) (b : Option β) : Option Bytes :=
  a.map fun a => if pw a = shadowPasswdString then (b.map secret).getD (pw a) else pw a

theorem effective_none (pw : α → Bytes) (secret : β → Bytes) (a : α) : effective pw secret (some a) none = some (pw a) :=
  congrArg some (ite_self _)

/-- A public file and its shadow, where the passwords stand in an entry, and that they are
read as they were written. -/
structure Shadowed (α β : Type) where
  main : Storage α
  shadow : Storage β
  pw : α → Bytes
  secret : β → Bytes
  hook : shadow.ops.openHook = none
  pw_same : ∀ a a', main.Same a a' → pw a' = pw a
  secret_same : ∀ b b', shadow.Same b b' → secret b' = secret b

variable (s : Shadowed α β)

/-- The effective password of a name. -/
def Shadowed.password (files : Files) (name : Bytes) : Option Bytes :=
  effective s.pw s.secret (fileEntry s.main.ops files.main.file name) (fileEntry s.shadow.ops files.shadow.file name)

/-- The program ends, and at no moment of its run, which starts from the files, is a password another one than before. -/
structure Shadowed.KeepsPasswords (run : Run) (files : Files) : Prop where
  ends : run.exit ≠ .endless
  starts : run.states.head? = some files
  kept : ∀ state ∈ run.states, ∀ name, s.password state name = s.password files name

/-- Both files have the same names, and every password is in the shadow. -/
def Shadowed.AllHidden (files : Files) : Prop :=
  ∃ rs qs, readFile s.main.ops files.main.file = some rs ∧ readFile s.shadow.ops files.shadow.file = some qs ∧
    (∀ name, (lookup s.main.ops rs name).isSome = (lookup s.shadow.ops qs name).isSome) ∧
    ∀ r ∈ rs, ∀ a ∈ r.eptr, s.pw a = shadowPasswdString

/-- Passwords move to the shadow, in whichever order the entries reach the files. -/
structure Shadowed.Hides (f : α → Option β → α × Option β) : Prop where
  storable : Storable s.main s.shadow f
  stored : ∀ a b, effective s.pw s.secret (some a) (f a b).2 = effective s.pw s.secret (some a) b
  hidden : ∀ a b, s.pw (f a b).1 = shadowPasswdString
  moved : ∀ a b, effective s.pw s.secret (some (f a b).1) (f a b).2 = effective s.pw s.secret (some a) b
  shadowed : ∀ a b, (f a b).2.isSome = true

/-- Passwords move back, and the shadow does not matter any more. -/
structure Shadowed.Reveals (f : α → Option β → α × Option β) : Prop where
  storable : Storable s.main s.shadow f
  kept : ∀ a b, (f a b).2 = b
  moved : ∀ a b, effective s.pw s.secret (some (f a b).1) b = effective s.pw s.secret (some a) b
  alone : ∀ a b, effective s.pw s.secret (some (f a b).1) none = effective s.pw s.secret (some a) b

variable {s}

/-- Rounds that leave an entry which is in the shadow already, or hide it and store its password. -/
theorem Shadowed.Hides.of_rounds {f : α → Option β → α × Option β} (hide : α → α)
    (hhide : ∀ a, s.pw (hide a) = shadowPasswdString)
    (htext : ∀ a, s.main.Text a → s.main.ops.getname (hide a) = s.main.ops.getname a ∧ s.main.Text (hide a))
    (hf : ∀ a b, (b.isSome = true ∧ s.pw a = shadowPasswdString ∧ f a b = (a,b)) ∨
      ∃ b', f a b = (hide a,some b') ∧ effective s.pw s.secret (some a) b = some (s.secret b') ∧
        (s.main.Text a → (∀ c ∈ b, s.shadow.ops.getname c = s.main.ops.getname a ∧ s.shadow.Text c) →
          s.shadow.ops.getname b' = s.main.ops.getname a ∧ s.shadow.Text b')) : s.Hides f := by
  refine ⟨⟨fun a b ha hb => ?_,fun a b ha hb => ?_⟩,fun a b => ?_,fun a b => ?_,fun a b => ?_,fun a b => ?_⟩
  all_goals rcases hf a b with ⟨hsome,hx,heq⟩ | ⟨b',heq,hpw,hb'⟩
  all_goals rw [heq]
  · exact ⟨rfl,ha⟩
  · exact htext a ha
  · exact hb
  · intro c hc
    cases hc
    exact hb' ha hb
  · rw [hpw]
    by_cases hx : s.pw a = shadowPasswdString
    · simp [effective,hx]
    · simp only [effective,Option.map_some,hx,if_false] at hpw ⊢
      exact hpw
  · exact hx
  · exact hhide a
  · rw [hpw,effective,Option.map_some,if_pos (hhide a)]
    rfl
  · exact hsome
  · rfl

/-- Rounds that put the effective password of an entry into it. -/
theorem Shadowed.Reveals.of_rounds {f : α → Option β → α × Option β}
    (hf : ∀ a b, ∃ a', f a b = (a',b) ∧ effective s.pw s.secret (some a) b = some (s.pw a') ∧
      (s.main.Text a → (∀ c ∈ b, s.shadow.ops.getname c = s.main.ops.getname a ∧ s.shadow.Text c) →
        s.main.ops.getname a' = s.main.ops.getname a ∧ s.main.Text a')) : s.Reveals f := by
  refine ⟨⟨fun a b ha hb => ?_,fun a b ha hb => ?_⟩,fun a b => ?_,fun a b => ?_,fun a b => ?_⟩
  all_goals obtain ⟨a',heq,hpw,ha'⟩ := hf a b
  all_goals rw [heq]
  · exact ha' ha hb
  · exact hb
  · rw [hpw]
    by_cases hx : s.pw a' = shadowPasswdString
    · -- such a password was there before, in the shadow or without one
      rw [hx] at hpw
      simp only [effective,Option.map_some,Option.some.injEq] at hpw ⊢
      split at hpw
      · rename_i ha
        rw [if_pos hx,hx,← ha]
        rwa [← ha] at hpw
      · rename_i ha
        exact absurd hpw ha
    · simp [effective,hx]
  · rw [hpw]
    simp [effective]

variable {st : Statuses} {env : Env} {files : Files} {t : Bytes → Option α} {u : Bytes → Option β}

/-- Entries that are read as they were written have the same password. -/
theorem Shadowed.effective_same {a a' : Option α} {b b' : Option β} (ha : Option.Rel s.main.Same a a')
    (hb : Option.Rel s.shadow.Same b b') : effective s.pw s.secret a' b' = effective s.pw s.secret a b := by
  have hsecret : b'.map s.secret = b.map s.secret := by
    cases hb with
    | none => rfl
    | some h => exact congrArg some (s.secret_same _ _ h)
  cases ha with
  | none => rfl
  | some h =>
    simp only [effective,Option.map_some]
    rw [s.pw_same _ _ h,hsecret]

/-- The passwords of two files that hold these tables. -/
theorem Shadowed.password_of {files' : Files} {t' : Bytes → Option α} {u' : Bytes → Option β}
    (hmain : ∀ name, Option.Rel s.main.Same (t' name) (fileEntry s.main.ops files'.main.file name))
    (hshadow : ∀ name, Option.Rel s.shadow.Same (u' name) (fileEntry s.shadow.ops files'.shadow.file name)) (name : Bytes) :
    s.password files' name = effective s.pw s.secret (t' name) (u' name) :=
  Shadowed.effective_same (hmain name) (hshadow name)

private theorem rel_isSome {γ : Type} {R : γ → γ → Prop} {a b : Option γ} (h : Option.Rel R a b) : b.isSome = a.isSome := by
  cases h <;> rfl

/-- Files that store the entries behind such a loop have all passwords in the shadow. -/
theorem Shadowed.Hides.allHidden {f : α → Option β → α × Option β} (hides : s.Hides f) {files' : Files}
    {v : Bytes → Option β} (hm : Stores s.main (mainAfter f t (ownShadow t v)) files'.main.file)
    (hs : Stores s.shadow (shadowAfter f t (ownShadow t v)) files'.shadow.file) : s.AllHidden files' := by
  obtain ⟨rs,hrs,hunique,hrel⟩ := hm
  obtain ⟨qs,hqs,_,hrel'⟩ := hs
  refine ⟨rs,qs,hrs,hqs,fun name => ?_,fun r hr a' ha' => ?_⟩
  · rw [rel_isSome (hrel name),rel_isSome (hrel' name),mainAfter,shadowAfter,ownShadow]
    cases t name with
    | none => rfl
    | some a =>
      simp only [Option.map_some,Option.isSome_some,if_true]
      exact (hides.shadowed a _).symm
  · have hname := hrel (s.main.ops.getname a')
    rw [hunique.lookup hr ha',mainAfter] at hname
    cases ht : t (s.main.ops.getname a') with
    | none =>
      rw [ht] at hname
      cases hname
    | some a =>
      rw [ht] at hname
      cases hname with
      | some hsame => rw [s.pw_same _ _ hsame,hides.hidden]

variable (hmain : UniqueFile s.main.ops files.main.file) (hshadow : UniqueFile s.shadow.ops files.shadow.file)
include hmain hshadow

/-- Moving passwords to the shadow keeps them at every moment, and at the end all are there. -/
theorem Shadowed.convert_keeps {entry : α → Option β → Option (β × α)} (hides : s.Hides (convertRound entry)) :
    s.KeepsPasswords (convert st env s.main s.shadow entry files) files ∧
      ((convert st env s.main s.shadow entry files).exit = .status 0 →
        ∃ last, (convert st env s.main s.shadow entry files).states.getLast? = some last ∧ s.AllHidden last) := by
  have hfailure : st.failure ≠ 0 := Nat.pos_iff_ne_zero.mp st.pos.2.2.2
  set t := fileEntry s.main.ops files.main.file with ht
  set u := ownShadow t (fileEntry s.shadow.ops files.shadow.file) with hu
  have hbefore : ∀ name, s.password files name = effective s.pw s.secret (t name) (u name) := fun name => by
    rw [Shadowed.password,hu,ownShadow,← ht]
    cases t name <;> rfl
  unfold convert
  rcases convertDbs_tables st env hides.storable hmain hshadow s.hook with
    ⟨code,hcode,herr⟩ | ⟨mainDb,shadowDb,ml,sl,stale,hrun,hm,hs⟩
  · rw [herr]
    refine ⟨⟨nofun,rfl,fun state hstate name => by rw [List.mem_singleton.mp hstate]⟩,fun hexit => ?_⟩
    cases hexit
    omega
  · rw [hrun]
    set cs := commonioClose env.selinux s.shadow.closeOps env.shadowSteps shadowDb files.shadow.file files.shadow with hcs
    set cm := commonioClose env.selinux s.main.closeOps env.mainSteps mainDb files.main.file files.main with hcm
    have hshadowed : (cs.1 = false ∧ cs.2.2.file = files.shadow.file) ∨
        Stores s.shadow (shadowAfter (convertRound entry) t u) cs.2.2.file := hs.close
    have hmained : (cm.1 = false ∧ cm.2.2.file = files.main.file) ∨
        Stores s.main (mainAfter (convertRound entry) t u) cm.2.2.file := hm.close
    simp only [← hcs,← hcm]
    set files₁ : Files := { files with shadow := cs.2.2 } with hfiles₁
    set files₂ : Files := { files with main := cm.2.2, shadow := cs.2.2 } with hfiles₂
    have hfirst : ∀ name, s.password files₁ name = s.password files name := fun name => by
      rcases hshadowed with ⟨_,hfile⟩ | hstored
      · simp only [Shadowed.password,hfiles₁,hfile]
      · have hboth : ∀ name, s.password files₁ name =
            effective s.pw s.secret (t name) (shadowAfter (convertRound entry) t u name) :=
          Shadowed.password_of (fun _ => s.main.rel_refl _) hstored.entry
        rw [hboth,hbefore]
        unfold shadowAfter
        cases t name with
        | none => rfl
        | some a => exact hides.stored a _
    cases hok : cs.1 with
    | false =>
      refine ⟨⟨nofun,rfl,fun state hstate name => ?_⟩,fun hexit => absurd (Exit.status.inj hexit) hfailure⟩
      simp only [Bool.not_false,if_true,List.mem_cons,List.not_mem_nil,or_false] at hstate
      rcases hstate with rfl | rfl
      · rfl
      · exact hfirst name
    | true =>
      have hstored : Stores s.shadow (shadowAfter (convertRound entry) t u) cs.2.2.file :=
        hshadowed.resolve_left fun hf => Bool.false_ne_true (hf.1.symm.trans hok)
      have hsecond : ∀ name, s.password files₂ name = s.password files name := fun name => by
        rcases hmained with ⟨_,hfile⟩ | hstored'
        · rw [← hfirst]
          simp only [Shadowed.password,hfiles₁,hfiles₂,hfile]
        · have hboth : ∀ name, s.password files₂ name = effective s.pw s.secret (mainAfter (convertRound entry) t u name)
              (shadowAfter (convertRound entry) t u name) := Shadowed.password_of hstored'.entry hstored.entry
          rw [hboth,hbefore]
          unfold mainAfter shadowAfter
          cases t name with
          | none => rfl
          | some a => exact hides.moved a _
      simp only [Bool.not_true,Bool.false_eq_true,if_false]
      refine ⟨⟨nofun,rfl,fun state hstate name => ?_⟩,fun hexit => ?_⟩
      · simp only [List.mem_cons,List.not_mem_nil,or_false] at hstate
        rcases hstate with rfl | rfl | rfl
        · rfl
        · exact hfirst name
        · exact hsecond name
      · have hclosed : cm.1 = true := by
          by_contra hf
          rw [if_neg hf] at hexit
          exact hfailure (Exit.status.inj hexit)
        have hstored' : Stores s.main (mainAfter (convertRound entry) t u) cm.2.2.file :=
          hmained.resolve_left fun hf => Bool.false_ne_true (hf.1.symm.trans hclosed)
        exact ⟨files₂,rfl,hides.allHidden hstored' hstored⟩

/-- Moving passwords back keeps them at every moment, also behind the removal of the shadow. -/
theorem Shadowed.unconvert_keeps {entry : α → Option β → Option α} (reveals : s.Reveals (unconvertRound entry)) :
    s.KeepsPasswords (unconvert st env s.main s.shadow entry files) files := by
  set t := fileEntry s.main.ops files.main.file with ht
  set u := fileEntry s.shadow.ops files.shadow.file with hu
  unfold unconvert
  split
  · exact ⟨nofun,rfl,fun state hstate name => by rw [List.mem_singleton.mp hstate]⟩
  · rcases unconvertDbs_tables st env reveals.storable hmain hshadow s.hook with
      ⟨code,hcode,herr⟩ | ⟨mainDb,shadowDb,ml,sl,stale,hrun,hm,hs⟩
    · rw [herr]
      exact ⟨nofun,rfl,fun state hstate name => by rw [List.mem_singleton.mp hstate]⟩
    · have hkept : shadowAfter (unconvertRound entry) t u = u := by
        funext name
        unfold shadowAfter
        cases t name with
        | none => rfl
        | some a => exact reveals.kept a _
      rw [hrun]
      set cs := commonioClose env.selinux s.shadow.closeOps env.shadowSteps shadowDb files.shadow.file files.shadow with hcs
      set cm := commonioClose env.selinux s.main.closeOps env.mainSteps mainDb files.main.file files.main with hcm
      have hshadowed : ∀ name, Option.Rel s.shadow.Same (u name) (fileEntry s.shadow.ops cs.2.2.file name) := fun name => by
        have hclose : (cs.1 = false ∧ cs.2.2.file = files.shadow.file) ∨
          Stores s.shadow (shadowAfter (unconvertRound entry) t u) cs.2.2.file := hs.close
        rw [hkept] at hclose
        rcases hclose with ⟨_,hfile⟩ | hstored
        · rw [hfile]
          exact s.shadow.rel_refl _
        · exact hstored.entry name
      have hmained : (cm.1 = false ∧ cm.2.2.file = files.main.file) ∨
          Stores s.main (mainAfter (unconvertRound entry) t u) cm.2.2.file := hm.close
      simp only [← hcs,← hcm]
      set files₁ : Files := { files with shadow := cs.2.2 } with hfiles₁
      set files₂ : Files := { files with main := cm.2.2, shadow := cs.2.2 } with hfiles₂
      have hfirst : ∀ name, s.password files₁ name = s.password files name := fun name => by
        have hboth : ∀ name, s.password files₁ name = effective s.pw s.secret (t name) (u name) :=
          Shadowed.password_of (fun _ => s.main.rel_refl _) hshadowed
        exact hboth name
      have hsecond : ∀ name, s.password files₂ name = s.password files name := fun name => by
        rcases hmained with ⟨_,hfile⟩ | hstored
        · rw [← hfirst]
          simp only [Shadowed.password,hfiles₁,hfiles₂,hfile]
        · have hboth : ∀ name, s.password files₂ name =
              effective s.pw s.secret (mainAfter (unconvertRound entry) t u name) (u name) :=
            Shadowed.password_of hstored.entry hshadowed
          rw [hboth,Shadowed.password,← ht,← hu]
          unfold mainAfter
          cases t name with
          | none => rfl
          | some a => exact reveals.moved a _
      have hthree : ∀ state ∈ [files,files₁,files₂], ∀ name, s.password state name = s.password files name := by
        exact List.forall_mem_cons.mpr ⟨fun _ => rfl,List.forall_mem_cons.mpr ⟨hfirst,List.forall_mem_cons.mpr ⟨hsecond,nofun⟩⟩⟩
      cases hok : cm.1 with
      | false => exact ⟨nofun,rfl,hthree⟩
      | true =>
        simp only [Bool.not_true,Bool.false_eq_true,if_false]
        split
        · exact ⟨nofun,rfl,hthree⟩
        · refine ⟨nofun,rfl,fun state hstate name => ?_⟩
          rcases List.mem_append.mp (show state ∈ [files,files₁,files₂] ++ _ from hstate) with hstate | hstate
          · exact hthree state hstate name
          · -- the shadow is gone, and every password of it is in the public file
            rw [List.mem_singleton.mp hstate]
            have hstored : Stores s.main (mainAfter (unconvertRound entry) t u) cm.2.2.file :=
              hmained.resolve_left fun hf => Bool.false_ne_true (hf.1.symm.trans hok)
            have hboth : ∀ name, s.password { files₂ with shadow := { files₂.shadow with file := none } } name =
                effective s.pw s.secret (mainAfter (unconvertRound entry) t u name) none :=
              Shadowed.password_of hstored.entry fun name => by
                rw [fileEntry_none]
                exact .none
            rw [hboth,Shadowed.password,← ht,← hu]
            unfold mainAfter
            cases t name with
            | none => rfl
            | some a => exact reveals.alone a _

end Passwords

section Members

def Tools.accounts (tools : Tools) : Shadowed Passwd Spwd where
  main := tools.passwd
  shadow := tools.shadow
  pw := Passwd.passwd
  secret := Spwd.pwdp
  hook := tools.shadow_hook
  pw_same _ _ h := congrArg Passwd.passwd h
  secret_same _ _ h := SameSpwd.pwdp h

def Tools.groups (tools : Tools) : Shadowed Group Sgrp where
  main := tools.group
  shadow := tools.gshadow
  pw := Group.passwd
  secret := Sgrp.passwd
  hook := rfl
  pw_same _ _ h := SameGroup.passwd h
  secret_same _ _ h := SameSgrp.passwd h

theorem zero_notMem_x : (0 : UInt8) ∉ shadowPasswdString := by decide

private theorem pwconv_hides (tools : Tools) (defs : LoginDefs) : tools.accounts.Hides (convertRound (pwconvEntry defs)) := by
  have hunset : -1 ≤ (-1 : Int) ∧ (-1 : Int) < 2^63 := by decide
  have hmax : -1 ≤ defs.passMaxDays ∧ defs.passMaxDays < 2^63 := ⟨defs.maxDays_range.1,by have := defs.maxDays_range; omega⟩
  have hwarn : -1 ≤ defs.passWarnAge ∧ defs.passWarnAge < 2^63 := ⟨defs.warnAge_range.1,by have := defs.warnAge_range; omega⟩
  have hflag : flagUnset < 2^64 := by decide
  refine Shadowed.Hides.of_rounds (fun pw : Passwd => { pw with passwd := shadowPasswdString }) (fun pw => rfl)
    (fun pw htext => ⟨rfl,Passwd.Text.withPasswd htext zero_notMem_x⟩) fun pw sp => ?_
  cases sp with
  | none =>
    refine .inr ⟨_,rfl,effective_none _ _ pw,fun htext _ => ⟨rfl,?_⟩⟩
    have htext : pw.Text := htext
    exact ⟨htext.notNis,htext.name,htext.passwd,⟨defs.lstchg_range,hunset,hmax,hwarn,hunset,hunset,hflag⟩⟩
  | some sp =>
    by_cases hx : pw.passwd = shadowPasswdString
    · exact .inl ⟨rfl,hx,by simp [convertRound,pwconvEntry,hx]⟩
    · refine .inr ⟨{ sp with pwdp := pw.passwd, lstchg := defs.lstchg },by simp [convertRound,pwconvEntry,hx],?_,
        fun htext hsp => ?_⟩
      · simp [effective,Tools.accounts,hx]
      · have htext : pw.Text := htext
        obtain ⟨hname,hsptext⟩ := hsp sp rfl
        have hsptext : sp.Text := hsptext
        have hrange := hsptext.range
        exact ⟨hname,hsptext.notNis,hsptext.name,htext.passwd,
          ⟨defs.lstchg_range,hrange.min,hrange.max,hrange.warn,hrange.inact,hrange.expire,hrange.flag⟩⟩

private theorem grpconv_hides (tools : Tools) : tools.groups.Hides (convertRound grpconvEntry) := by
  refine Shadowed.Hides.of_rounds (fun gr : Group => { gr with passwd := shadowPasswdString }) (fun gr => rfl)
    (fun gr (htext : gr.Text) => ⟨rfl,htext.notNis,htext.name,zero_notMem_x,htext.members⟩) fun gr sg => .inr ?_
  cases sg with
  | none =>
    refine ⟨_,rfl,effective_none _ _ gr,fun htext _ => ?_⟩
    have htext : gr.Text := htext
    exact ⟨rfl,htext.notNis,htext.name,htext.passwd,nofun,htext.members⟩
  | some sg =>
    by_cases hx : gr.passwd = shadowPasswdString
    · refine ⟨{ sg with mem := gr.members },by simp [convertRound,grpconvEntry,hx],by simp [effective,Tools.groups,hx],
        fun htext hsg => ?_⟩
      have htext : gr.Text := htext
      have hsgtext : sg.Text := (hsg sg rfl).2
      exact ⟨(hsg sg rfl).1,hsgtext.notNis,hsgtext.name,hsgtext.passwd,hsgtext.adm,htext.members⟩
    · refine ⟨{ sg with passwd := gr.passwd, mem := gr.members },by simp [convertRound,grpconvEntry,hx],
        by simp [effective,Tools.groups,hx],fun htext hsg => ?_⟩
      have htext : gr.Text := htext
      have hsgtext : sg.Text := (hsg sg rfl).2
      exact ⟨(hsg sg rfl).1,hsgtext.notNis,hsgtext.name,htext.passwd,hsgtext.adm,htext.members⟩

private theorem pwunconv_reveals (tools : Tools) : tools.accounts.Reveals (unconvertRound pwunconvEntry) := by
  refine Shadowed.Reveals.of_rounds fun pw sp => ?_
  cases sp with
  | none => exact ⟨pw,rfl,effective_none _ _ pw,fun htext _ => ⟨rfl,htext⟩⟩
  | some sp =>
    refine ⟨_,rfl,?_,fun htext hsp => ?_⟩
    · by_cases hx : pw.passwd = shadowPasswdString <;> simp [effective,Tools.accounts,hx]
    · have hsptext : sp.Text := (hsp sp rfl).2
      split
      · exact ⟨rfl,Passwd.Text.withPasswd htext hsptext.pwdp⟩
      · exact ⟨rfl,htext⟩

private theorem grpunconv_reveals (tools : Tools) : tools.groups.Reveals (unconvertRound grpunconvEntry) := by
  refine Shadowed.Reveals.of_rounds fun gr sg => ?_
  cases sg with
  | none => exact ⟨gr,rfl,effective_none _ _ gr,fun htext _ => ⟨rfl,htext⟩⟩
  | some sg =>
    by_cases hx : gr.passwd = shadowPasswdString
    · refine ⟨{ gr with passwd := sg.passwd },by simp [unconvertRound,grpunconvEntry,hx],by simp [effective,Tools.groups,hx],
        fun htext hsg => ?_⟩
      have htext : gr.Text := htext
      have hsgtext : sg.Text := (hsg sg rfl).2
      exact ⟨rfl,htext.notNis,htext.name,hsgtext.passwd,htext.members⟩
    · exact ⟨gr,by simp [unconvertRound,grpunconvEntry,hx],by simp [effective,Tools.groups,hx],fun htext _ => ⟨rfl,htext⟩⟩

/-- None of the four programs changes a password, at any moment of its run, and a successful
conversion leaves every password in the shadow. -/
theorem conversions_keep_passwords (tools : Tools) (defs : LoginDefs) (env : Env) (files : Files) :
    (UniqueFile passwdOps files.main.file → UniqueFile shadowOps files.shadow.file →
      tools.accounts.KeepsPasswords (pwconv tools defs env files) files ∧
      ((pwconv tools defs env files).exit = .status 0 →
        ∃ last, (pwconv tools defs env files).states.getLast? = some last ∧ tools.accounts.AllHidden last) ∧
      tools.accounts.KeepsPasswords (pwunconv tools env files) files) ∧
    (UniqueFile (groupOps tools.maxMembers) files.main.file → UniqueFile gshadowOps files.shadow.file →
      tools.groups.KeepsPasswords (grpconv tools env files) files ∧
      ((grpconv tools env files).exit = .status 0 →
        ∃ last, (grpconv tools env files).states.getLast? = some last ∧ tools.groups.AllHidden last) ∧
      tools.groups.KeepsPasswords (grpunconv tools env files) files) := by
  refine ⟨fun hmain hshadow => ?_,fun hmain hshadow => ?_⟩
  · obtain ⟨hkeeps,hhidden⟩ := Shadowed.convert_keeps hmain hshadow (pwconv_hides tools defs)
    exact ⟨hkeeps,hhidden,Shadowed.unconvert_keeps hmain hshadow (pwunconv_reveals tools)⟩
  · obtain ⟨hkeeps,hhidden⟩ := Shadowed.convert_keeps hmain hshadow (grpconv_hides tools)
    exact ⟨hkeeps,hhidden,Shadowed.unconvert_keeps hmain hshadow (grpunconv_reveals tools)⟩

def mixedAccounts : Files :=
  ⟨⟨some (ascii "root:x:0:0::/root:/bin/sh\nbob:secret:7:7::/:/bin/sh\n"),none⟩,⟨some (ascii "root:hidden:1::::::\n"),none⟩⟩

def mixedGroups : Files :=
  ⟨⟨some (ascii "wheel:x:0:root\nstaff:secret:7:bob\n"),none⟩,⟨some (ascii "wheel:hidden::root\n"),none⟩⟩

theorem conversions_keep_passwords_mixed :
    (plainTools.accounts.KeepsPasswords (pwconv plainTools defaultDefs calmEnv mixedAccounts) mixedAccounts ∧
      (∃ last, (pwconv plainTools defaultDefs calmEnv mixedAccounts).states.getLast? = some last ∧ plainTools.accounts.AllHidden last) ∧
      (pwunconv plainTools calmEnv mixedAccounts).exit = .status 0 ∧
      plainTools.accounts.KeepsPasswords (pwunconv plainTools calmEnv mixedAccounts) mixedAccounts) ∧
    plainTools.groups.KeepsPasswords (grpconv plainTools calmEnv mixedGroups) mixedGroups ∧
      (∃ last, (grpconv plainTools calmEnv mixedGroups).states.getLast? = some last ∧ plainTools.groups.AllHidden last) ∧
      (grpunconv plainTools calmEnv mixedGroups).exit = .status 0 ∧
      plainTools.groups.KeepsPasswords (grpunconv plainTools calmEnv mixedGroups) mixedGroups := by
  have hpasswd : UniqueFile passwdOps mixedAccounts.main.file := fun rs hrs => uniqueNames_of_nodup
    ((by decide +kernel : ∀ rs ∈ readFile passwdOps mixedAccounts.main.file, (rs.filterMap (Record.name passwdOps)).Nodup) rs hrs)
  have hshadow : UniqueFile shadowOps mixedAccounts.shadow.file := fun rs hrs => uniqueNames_of_nodup
    ((by decide +kernel : ∀ rs ∈ readFile shadowOps mixedAccounts.shadow.file, (rs.filterMap (Record.name shadowOps)).Nodup) rs hrs)
  have hgroup : UniqueFile (groupOps plainTools.maxMembers) mixedGroups.main.file := fun rs hrs => uniqueNames_of_nodup
    ((by decide +kernel : ∀ rs ∈ readFile (groupOps 0) mixedGroups.main.file, (rs.filterMap (Record.name (groupOps 0))).Nodup) rs hrs)
  have hgshadow : UniqueFile gshadowOps mixedGroups.shadow.file := fun rs hrs => uniqueNames_of_nodup
    ((by decide +kernel : ∀ rs ∈ readFile gshadowOps mixedGroups.shadow.file, (rs.filterMap (Record.name gshadowOps)).Nodup) rs hrs)
  obtain ⟨hpwconv,hpwhidden,hpwunconv⟩ := (conversions_keep_passwords plainTools defaultDefs calmEnv mixedAccounts).1 hpasswd hshadow
  obtain ⟨hgrpconv,hgrphidden,hgrpunconv⟩ := (conversions_keep_passwords plainTools defaultDefs calmEnv mixedGroups).2 hgroup hgshadow
  exact ⟨⟨hpwconv,hpwhidden (by decide +kernel),by decide +kernel,hpwunconv⟩,
    hgrpconv,hgrphidden (by decide +kernel),by decide +kernel,hgrpunconv⟩

end Members

end UserDb.Programs
