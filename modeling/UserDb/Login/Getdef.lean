import UserDb.Base.Fgets
import UserDb.Base.Text

/-! The configuration of the login programs: the items of a table, set by the lines of a file. -/
namespace UserDb.Login
open UserDb.Base

/-- What a build has compiled in. -/
structure DefsBuild where
  usePam : Bool
  useBcrypt : Bool
  useYescrypt : Bool
  withTcb : Bool
  deriving DecidableEq

def pamDefs : List String :=
  ["CHFN_AUTH","CHSH_AUTH","ENV_HZ","ENVIRON_FILE","ENV_TZ","FAILLOG_ENAB","FTMP_FILE","HMAC_CRYPTO_ALGO","ISSUE_FILE",
    "LASTLOG_ENAB","LOGIN_STRING","MAIL_CHECK_ENAB","MOTD_FILE","NOLOGINS_FILE","OBSCURE_CHECKS_ENAB","PASS_ALWAYS_WARN",
    "PASS_CHANGE_TRIES","PASS_MIN_LEN","PORTTIME_CHECKS_ENAB","QUOTAS_ENAB","SU_WHEEL_ONLY","ULIMIT"]

/-- Items used in other tools. -/
def foreignDefs : List String :=
  ["ALWAYS_SET_PATH","ENV_ROOTPATH","LOGIN_ENV_SAFELIST","LOGIN_KEEP_USERNAME","LOGIN_PLAIN_PROMPT","LOGIN_SHELL_FALLBACK",
    "MOTD_FIRSTONLY"]

/-- The names of `def_table`. -/
def defNames (build : DefsBuild) : List String :=
  ["CHFN_RESTRICT","CONSOLE_GROUPS","CONSOLE","CREATE_HOME","DEFAULT_HOME","ENCRYPT_METHOD","ENV_PATH","ENV_SUPATH","ERASECHAR",
    "FAIL_DELAY","FAKE_SHELL","GID_MAX","GID_MIN","HOME_MODE","HUSHLOGIN_FILE","KILLCHAR","LASTLOG_UID_MAX","LOGIN_RETRIES",
    "LOGIN_TIMEOUT","LOG_OK_LOGINS","LOG_UNKFAIL_ENAB","MAIL_DIR","MAIL_FILE","MAX_MEMBERS_PER_GROUP","NONEXISTENT",
    "PASS_MAX_DAYS","PASS_MIN_DAYS","PASS_WARN_AGE","SHA_CRYPT_MAX_ROUNDS","SHA_CRYPT_MIN_ROUNDS"] ++
  (if build.useBcrypt then ["BCRYPT_MAX_ROUNDS","BCRYPT_MIN_ROUNDS"] else []) ++
  (if build.useYescrypt then ["YESCRYPT_COST_FACTOR"] else []) ++
  ["SUB_GID_COUNT","SUB_GID_MAX","SUB_GID_MIN","SUB_GID_DETERMINISTIC","SUB_GID_STORE_BY_UID","SUB_UID_COUNT","SUB_UID_MAX",
    "SUB_UID_MIN","SUB_UID_DETERMINISTIC","SUB_UID_STORE_BY_UID","SULOG_FILE","SU_NAME","SYS_GID_MAX","SYS_GID_MIN","SYS_UID_MAX",
    "SYS_UID_MIN","TTYGROUP","TTYPERM","TTYTYPE_FILE","UID_MAX","UID_MIN","UMASK","UNSAFE_SUB_GID_DETERMINISTIC_WRAP",
    "UNSAFE_SUB_UID_DETERMINISTIC_WRAP","USERDEL_CMD","USERGROUPS_ENAB"] ++
  (if build.usePam then [] else pamDefs) ++
  ["SYSLOG_SG_ENAB","SYSLOG_SU_ENAB"] ++
  (if build.withTcb then ["TCB_AUTH_GROUP","TCB_SYMLINKS","USE_TCB"] else []) ++
  ["FORCE_SHADOW","GRANT_AUX_GROUP_SUBIDS","PREVENT_NO_AUTH"]

def knownDefNames (build : DefsBuild) : List String := (if build.usePam then pamDefs else []) ++ foreignDefs

structure Itemdef where
  name : Bytes
  value : Option Bytes
  deriving DecidableEq, Repr

def defTable (build : DefsBuild) : List Itemdef := (defNames build).map fun name => ⟨ascii name,none⟩
def knowndefTable (build : DefsBuild) : List Bytes := (knownDefNames build).map ascii

/-- The table, and the names that were reported as unknown. -/
structure Defs where
  table : List Itemdef
  reported : List Bytes

def defFind (table : List Itemdef) (name : Bytes) : Option Itemdef := table.find? fun d => d.name == name

/-- The first item of the name gets the value. -/
def setItem (name value : Bytes) : List Itemdef → List Itemdef
  | [] => []
  | d :: table => if d.name = name then { d with value := some value } :: table else d :: setItem name value table

def putdefStr (build : DefsBuild) (name value : Bytes) (defs : Defs) : Defs :=
  match defFind defs.table name with
  | some _ => { defs with table := setItem name value defs.table }
  | none => if name ∈ knowndefTable build then defs else { defs with reported := defs.reported ++ [name] }

def getdefStr (defs : Defs) (item : Bytes) : Option Bytes := (defFind defs.table item).bind Itemdef.value

def isLineEnd (b : UInt8) : Bool := isBlank b || b == newline

/-- A line in two fields. -/
def defsFields (buf : Bytes) : Option (Bytes × Bytes) :=
  let name := buf.dropWhile isBlank
  -- comment or empty
  if name = [] ∨ name.head? = some 35 then none
  else
    match name.dropWhile (!isBlank ·) with
    -- only 1 field
    | [] => none
    | _ :: s => some (name.takeWhile (!isBlank ·),s.dropWhile isBlank)

def defsPiece (buffer : Bytes) : Option (Bytes × Bytes) := defsFields ((cstring buffer).rdropWhile isLineEnd)

def defsSize : Nat := 1024

def loadPiece (build : DefsBuild) (defs : Defs) (buffer : Bytes) : Defs :=
  match defsPiece buffer with
  | none => defs
  | some (name,value) => putdefStr build name value defs

/-- `def_load`; without a result where the program exits. -/
def defLoad (build : DefsBuild) (file : ConfigFile) : Option Defs :=
  match file with
  | .absent => some ⟨defTable build,[]⟩
  | .unreadable => none
  | .opened content => some ((Fgets.pieces newline defsSize content).foldl (loadPiece build) ⟨defTable build,[]⟩)

/-- A text that gives an item a value: its first word, and what comes behind, without the blanks around it. -/
structure Defines (text name value : Bytes) : Prop where
  parts : ∃ lead gap trail, text = lead ++ name ++ gap ++ value ++ trail ∧
    (∀ b ∈ lead, isBlank b = true) ∧ (∀ b ∈ gap, isBlank b = true) ∧ gap ≠ [] ∧ (∀ b ∈ trail, isBlank b = true)
  word : ∀ b ∈ name, isBlank b = false
  named : name ≠ []
  notComment : name.head? ≠ some 35
  first : ∃ b, value.head? = some b ∧ isBlank b = false
  last : ∃ b, value.getLast? = some b ∧ isBlank b = false

/-- The value that the last text about the item gives to it, if there is one. -/
def LastDefinition (texts : List Bytes) (item : Bytes) : Option Bytes → Prop
  | none => ∀ text ∈ texts, ∀ value, ¬ Defines text item value
  | some value => ∃ before text after, texts = before ++ text :: after ∧ Defines text item value ∧
      ∀ other ∈ after, ∀ value', ¬ Defines other item value'

/-- A line without its newline. -/
def lineText (line : Bytes) : Bytes := line.takeWhile (· != newline)

/-- What the buffer shows of a line: each piece up to its first zero. -/
def shownTexts (line : Bytes) : List Bytes := (Fgets.pieces newline defsSize line).map fun piece => lineText (cstring piece)

/-- The line fits in the buffer, and has no zero. -/
def IsPlainLine (line : Bytes) : Prop := line.length < defsSize ∧ 0 ∉ line

/-- Where the last line that says something about the item, as a whole or in a piece, is not
plain: the last piece about the item has the value of the last line about it. -/
def ReadInOnePiece (lines : List Bytes) (item : Bytes) : Prop :=
  ∀ before line after, lines = before ++ line :: after → ¬ IsPlainLine line →
    (∃ value, ∃ text ∈ lineText line :: shownTexts line, Defines text item value) →
    (∀ other ∈ after, ∀ text ∈ lineText other :: shownTexts other, ∀ value, ¬ Defines text item value) →
    ∀ value, LastDefinition ((before ++ [line]).map lineText) item value ↔
      LastDefinition ((before ++ [line]).flatMap shownTexts) item value

section Fields
variable {text name value : Bytes}

private theorem defsFields_eq : defsFields (text.rdropWhile isBlank) =
    if trim isBlank text = [] ∨ (trim isBlank text).head? = some 35 then none
    else
      match (trim isBlank text).dropWhile (!isBlank ·) with
      | [] => none
      | _ :: s => some ((trim isBlank text).takeWhile (!isBlank ·),s.dropWhile isBlank) := rfl

/-- A text with fields does not end behind the gap. -/
theorem Defines.of_fields {core s : Bytes} {sep : UInt8} (hcore : trim isBlank text = core) (hne : core ≠ [])
    (hcomment : core.head? ≠ some 35) (hrest : core.dropWhile (!isBlank ·) = sep :: s) :
    Defines text (core.takeWhile (!isBlank ·)) (s.dropWhile isBlank) := by
  have hfirst : ∀ b, core.head? = some b → isBlank b = false := fun b hb => trim_head (hcore ▸ hb)
  have hlast : ∀ b, core.getLast? = some b → isBlank b = false := fun b hb => trim_getLast (hcore ▸ hb)
  have hsep : isBlank sep = true := by
    have hnot := List.head?_dropWhile_not (!isBlank ·) core
    rw [hrest] at hnot
    simpa using hnot
  have hsplit : core = core.takeWhile (!isBlank ·) ++ (sep :: s.takeWhile isBlank) ++ s.dropWhile isBlank := by
    rw [List.append_assoc,List.cons_append,List.takeWhile_append_dropWhile,← hrest,List.takeWhile_append_dropWhile]
  have hgap : ∀ b ∈ sep :: s.takeWhile isBlank, isBlank b = true := by
    intro b hb
    rcases List.mem_cons.mp hb with rfl | hb
    · exact hsep
    · exact List.mem_takeWhile_imp hb
  have hvalue : s.dropWhile isBlank ≠ [] := by
    intro hnil
    rw [hnil,List.append_nil] at hsplit
    obtain ⟨b,hb⟩ : ∃ b, (sep :: s.takeWhile isBlank).getLast? = some b := ⟨_,List.getLast?_eq_some_getLast (List.cons_ne_nil _ _)⟩
    have hend : core.getLast? = some b := by
      rw [hsplit,List.getLast?_append,hb]
      rfl
    have hblank := hgap b (List.mem_of_getLast? hb)
    rw [hlast b hend] at hblank
    cases hblank
  obtain ⟨c,more,rfl⟩ := List.exists_cons_of_ne_nil hne
  have hc : isBlank c = false := hfirst c rfl
  have hname : (c :: more).takeWhile (!isBlank ·) = c :: more.takeWhile (!isBlank ·) := by
    rw [List.takeWhile_cons,hc]
    rfl
  obtain ⟨lead,trail,htext,hlead,htrail⟩ := exists_trim (p := isBlank) text
  refine ⟨⟨lead,_,trail,?_,hlead,hgap,List.cons_ne_nil _ _,htrail⟩,?_,?_,?_,?_,?_⟩
  · rw [htext,hcore]
    conv_lhs => rw [hsplit]
    simp only [List.append_assoc]
  · intro b hb
    simpa using List.mem_takeWhile_imp hb
  · rw [hname]
    exact List.cons_ne_nil _ _
  · rw [hname]
    exact hcomment
  · obtain ⟨b,hb⟩ : ∃ b, (s.dropWhile isBlank).head? = some b := ⟨_,List.head?_eq_some_head hvalue⟩
    have hnot := List.head?_dropWhile_not isBlank s
    rw [hb] at hnot
    exact ⟨b,hb,hnot⟩
  · refine ⟨_,List.getLast?_eq_some_getLast hvalue,hlast _ ?_⟩
    rw [hsplit,List.getLast?_append,List.getLast?_eq_some_getLast hvalue]
    rfl

/-- The fields of a text are those that it defines. -/
theorem defsFields_iff : defsFields (text.rdropWhile isBlank) = some (name,value) ↔ Defines text name value := by
  rw [defsFields_eq]
  constructor
  · intro h
    split at h
    · cases h
    · rename_i hstart
      rw [not_or] at hstart
      split at h
      · cases h
      · rename_i sep s hrest
        simp only [Option.some.injEq,Prod.mk.injEq] at h
        rw [← h.1,← h.2]
        exact Defines.of_fields rfl hstart.1 hstart.2 hrest
  · rintro ⟨⟨lead,gap,trail,rfl,hlead,hgap,hgapne,htrail⟩,hword,hnamed,hcomment,⟨b,hfirst,hb⟩,⟨e,hlast,he⟩⟩
    obtain ⟨c,name,rfl⟩ := List.exists_cons_of_ne_nil hnamed
    obtain ⟨g,gap,rfl⟩ := List.exists_cons_of_ne_nil hgapne
    obtain ⟨v,value,rfl⟩ : ∃ v more, value = v :: more := by
      cases value with
      | nil => cases hfirst
      | cons v more => exact ⟨v,more,rfl⟩
    cases hfirst
    have htrim : trim isBlank (lead ++ c :: name ++ g :: gap ++ b :: value ++ trail) = c :: name ++ g :: gap ++ b :: value := by
      have heq : lead ++ c :: name ++ g :: gap ++ b :: value ++ trail = lead ++ (c :: name ++ g :: gap ++ b :: value) ++ trail := by
        simp
      rw [heq]
      apply trim_eq hlead htrail
      · rintro x hx
        cases hx
        exact hword c List.mem_cons_self
      · intro x hx
        rw [List.getLast?_append,hlast] at hx
        cases hx
        exact he
    have hword' : ∀ x ∈ c :: name, (!isBlank x) = true := fun x hx => by rw [hword x hx]; rfl
    have hg : (!isBlank g) = false := by rw [hgap g List.mem_cons_self]; rfl
    have hdrop : (c :: name ++ g :: gap ++ b :: value).dropWhile (!isBlank ·) = g :: (gap ++ b :: value) := by
      rw [List.append_assoc,dropWhile_append_all _ hword',List.cons_append,List.dropWhile_cons,hg]
      rfl
    have htake : (c :: name ++ g :: gap ++ b :: value).takeWhile (!isBlank ·) = c :: name := by
      have hstop : (g :: gap ++ b :: value).takeWhile (!isBlank ·) = [] := by
        rw [List.cons_append,List.takeWhile_cons,hg]
        rfl
      rw [List.append_assoc,List.takeWhile_append_of_pos hword',hstop,List.append_nil]
    have hvalue : (gap ++ b :: value).dropWhile isBlank = b :: value := by
      rw [dropWhile_append_all _ fun x hx => hgap x (List.mem_cons_of_mem _ hx),List.dropWhile_cons,hb]
      rfl
    rw [htrim,hdrop,htake,if_neg]
    · exact congrArg (fun v => some (c :: name,v)) hvalue
    · rintro (hnil | hhead)
      · cases hnil
      · exact hcomment hhead

theorem Defines.unique {name' value' : Bytes} (h : Defines text name value) (h' : Defines text name' value') :
    name = name' ∧ value = value' := by
  have heq := defsFields_iff.mpr h
  rw [defsFields_iff.mpr h'] at heq
  simp only [Option.some.injEq,Prod.mk.injEq] at heq
  exact ⟨heq.1.symm,heq.2.symm⟩

/-- The fields of a buffer are those of what it shows. -/
theorem defsPiece_iff {buffer body : Bytes} (hbody : newline ∉ body) (hbuffer : buffer = body ∨ buffer = body ++ [newline]) :
    defsPiece buffer = some (name,value) ↔ Defines (lineText (cstring buffer)) name value := by
  have hends : ∀ s : Bytes, newline ∉ s → lineText s = s ∧ s.rdropWhile isLineEnd = s.rdropWhile isBlank := by
    intro s hs
    have hne : ∀ b ∈ s, b ≠ newline := fun b hb => ne_of_mem_of_not_mem hb hs
    refine ⟨List.takeWhile_eq_self_iff.mpr fun b hb => by simpa using hne b hb,rdropWhile_congr s fun b hb => ?_⟩
    simp [isLineEnd,hne b hb]
  have hshown : (cstring buffer).rdropWhile isLineEnd = (lineText (cstring buffer)).rdropWhile isBlank := by
    by_cases hzero : 0 ∈ body
    · obtain ⟨front,back,rfl,hfront⟩ := List.eq_append_cons_of_mem hzero
      have hstring : cstring buffer = front := by
        rcases hbuffer with rfl | rfl
        · exact cstring_zero hfront back
        · rw [List.append_assoc]
          exact cstring_zero hfront _
      obtain ⟨htext,hdrop⟩ := hends front fun h => hbody (List.mem_append_left _ h)
      rw [hstring,htext,hdrop]
    · rcases hbuffer with rfl | rfl
      · obtain ⟨htext,hdrop⟩ := hends _ hbody
        rw [cstring_eq_self hzero,htext,hdrop]
      · have hzero' : 0 ∉ body ++ [newline] := by
          rw [List.mem_append,not_or]
          exact ⟨hzero,by decide⟩
        have htext : lineText (body ++ [newline]) = body := by
          rw [lineText,List.takeWhile_append_of_pos fun b hb => by simpa using ne_of_mem_of_not_mem hb hbody]
          simp
        rw [cstring_eq_self hzero',htext,List.rdropWhile_concat_pos _ _ _ rfl,(hends body hbody).2]
  rw [defsPiece,hshown,defsFields_iff]

end Fields

section Table
variable {build : DefsBuild} {table : List Itemdef} {defs : Defs} {name value item : Bytes}

private theorem setItem_names : (setItem name value table).map Itemdef.name = table.map Itemdef.name := by
  induction table with
  | nil => rfl
  | cons d table ih =>
    rw [setItem]
    split
    · rfl
    · rw [List.map_cons,List.map_cons,ih]

private theorem defFind_setItem (item : Bytes) : defFind (setItem name value table) item =
    (defFind table item).map fun d => if d.name = name then { d with value := some value } else d := by
  induction table with
  | nil => rfl
  | cons d table ih =>
    unfold defFind at ih ⊢
    rw [setItem]
    by_cases hname : d.name = name
    · rw [if_pos hname]
      by_cases hitem : d.name = item
      · simp [hitem,hname ▸ hitem]
      · -- behind the item that is set, no other one has its name
        have hrest : ∀ d', table.find? (fun d => d.name == item) = some d' → d'.name ≠ name := by
          intro d' hd' heq
          have hitem' := List.find?_some hd'
          rw [beq_iff_eq] at hitem'
          exact hitem (hname.trans (heq.symm.trans hitem'))
        rw [List.find?_cons_of_neg (by simpa using hitem),List.find?_cons_of_neg (by simpa using hitem)]
        cases hfind : table.find? (fun d => d.name == item) with
        | none => rfl
        | some d' => simp [hrest d' hfind]
    · rw [if_neg hname]
      by_cases hitem : d.name = item
      · simp [hitem,hitem ▸ hname]
      · rw [List.find?_cons_of_neg (by simpa using hitem),List.find?_cons_of_neg (by simpa using hitem),ih]

theorem defFind_isSome (h : item ∈ table.map Itemdef.name) : ∃ d, defFind table item = some d ∧ d.name = item := by
  obtain ⟨d,hd,rfl⟩ := List.mem_map.mp h
  cases hfind : defFind table d.name with
  | none => exact absurd (List.find?_eq_none.mp hfind d hd) (by simp)
  | some d' => exact ⟨d',rfl,by simpa using List.find?_some hfind⟩

/-- A definition sets its item, and no other one. -/
theorem getdefStr_putdefStr (h : item ∈ defs.table.map Itemdef.name) :
    getdefStr (putdefStr build name value defs) item = if name = item then some value else getdefStr defs item := by
  obtain ⟨d,hd,hitem⟩ := defFind_isSome h
  unfold putdefStr
  cases hfind : defFind defs.table name with
  | none =>
    have hne : name ≠ item := by
      rintro rfl
      rw [hd] at hfind
      cases hfind
    rw [if_neg hne]
    simp only
    split <;> rfl
  | some _ =>
    simp only [getdefStr,defFind_setItem,hd,hitem,Option.map_some,Option.bind_some]
    by_cases hname : name = item
    · rw [if_pos hname.symm,if_pos hname]
    · rw [if_neg (Ne.symm hname),if_neg hname]

theorem loadPiece_names (buffer : Bytes) : (loadPiece build defs buffer).table.map Itemdef.name = defs.table.map Itemdef.name := by
  unfold loadPiece putdefStr
  split
  · rfl
  · split
    · exact setItem_names
    · split <;> rfl

end Table

section Last
variable {texts after : List Bytes} {text item : Bytes} {v : Option Bytes}

theorem lastDefinition_nil : LastDefinition [] item v ↔ v = none := by
  cases v with
  | none => exact iff_of_true nofun rfl
  | some value =>
    refine iff_of_false ?_ nofun
    rintro ⟨before,text,after,h,_⟩
    simp at h

/-- The last text decides if it is about the item. -/
theorem lastDefinition_defines {value : Bytes} (h : Defines text item value) :
    LastDefinition (texts ++ [text]) item v ↔ v = some value := by
  cases v with
  | none => exact iff_of_false (fun hnone => hnone text (by simp) value h) nofun
  | some value' =>
    constructor
    · rintro ⟨before,other,after,heq,hother,hsilent⟩
      rcases List.eq_nil_or_concat after with rfl | ⟨after,last,rfl⟩
      · obtain ⟨_,hlast⟩ := List.append_inj' heq rfl
        cases hlast
        rw [(h.unique hother).2]
      · rw [List.concat_eq_append,← List.cons_append,← List.append_assoc] at heq
        obtain ⟨_,hlast⟩ := List.append_inj' heq rfl
        cases hlast
        exact absurd h (hsilent text (by simp) value)
    · intro heq
      cases heq
      exact ⟨texts,text,[],rfl,h,nofun⟩

theorem lastDefinition_silent_one (h : ∀ value, ¬ Defines text item value) :
    LastDefinition (texts ++ [text]) item v ↔ LastDefinition texts item v := by
  cases v with
  | none =>
    constructor
    · exact fun hnone other hother => hnone other (List.mem_append_left _ hother)
    · intro hnone other hother
      rcases List.mem_append.mp hother with hother | hother
      · exact hnone other hother
      · rw [List.mem_singleton.mp hother]
        exact h
  | some value =>
    constructor
    · rintro ⟨before,other,after,heq,hother,hsilent⟩
      rcases List.eq_nil_or_concat after with rfl | ⟨after,last,rfl⟩
      · obtain ⟨_,hlast⟩ := List.append_inj' heq rfl
        cases hlast
        exact absurd hother (h value)
      · rw [List.concat_eq_append,← List.cons_append,← List.append_assoc] at heq
        obtain ⟨rfl,_⟩ := List.append_inj' heq rfl
        exact ⟨before,other,after,rfl,hother,fun t ht => hsilent t (by simp [ht])⟩
    · rintro ⟨before,other,after,rfl,hother,hsilent⟩
      refine ⟨before,other,after ++ [text],by simp,hother,?_⟩
      intro t ht
      rcases List.mem_append.mp ht with ht | ht
      · exact hsilent t ht
      · rw [List.mem_singleton.mp ht]
        exact h

theorem lastDefinition_silent (h : ∀ text ∈ after, ∀ value, ¬ Defines text item value) :
    LastDefinition (texts ++ after) item v ↔ LastDefinition texts item v := by
  induction after using List.reverseRecOn with
  | nil => rw [List.append_nil]
  | append_singleton after text ih =>
    rw [← List.append_assoc,lastDefinition_silent_one (h text (by simp)),ih fun t ht => h t (List.mem_append_left _ ht)]

/-- A list of texts says one thing about an item. -/
theorem lastDefinition_exists_unique (texts : List Bytes) (item : Bytes) : ∃ v, ∀ v', LastDefinition texts item v' ↔ v' = v := by
  induction texts using List.reverseRecOn with
  | nil => exact ⟨none,fun _ => lastDefinition_nil⟩
  | append_singleton texts text ih =>
    obtain ⟨v,hv⟩ := ih
    by_cases h : ∃ value, Defines text item value
    · obtain ⟨value,h⟩ := h
      exact ⟨some value,fun _ => lastDefinition_defines h⟩
    · exact ⟨v,fun v' => (lastDefinition_silent_one (not_exists.mp h)).trans (hv v')⟩

end Last

end UserDb.Login
