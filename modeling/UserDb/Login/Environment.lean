import UserDb.Base.Bytes
import UserDb.Base.Upsert

/-! The environment of a new session: the vector of variables and the filters for dangerous ones. -/
namespace UserDb.Login.Environment
open UserDb.Base UserDb.Base.Upsert

def equals : UInt8 := 61
def slash : UInt8 := 47

def NEWENVP_STEP : Nat := 16

/-- A place of a vector; what was only allocated cannot be read. -/
inductive Slot where
  | garbage
  | null
  | str (s : Bytes)
  deriving DecidableEq, Repr

structure NewEnv where
  newenvc : Nat
  newenvp : List Slot
  deriving DecidableEq, Repr

def forbid : List Bytes :=
  ["_RLD_=","BASH_ENV=","ENV=","HOME=","IFS=","KRB_CONF=","LD_","LIBPATH=","MAIL=","NLSPATH=","PATH=","SHELL=","SHLIB_PATH="].map ascii

def noslash : List Bytes := ["LANG=","LANGUAGE=","LC_"].map ascii

/-- A store to a place; there is none outside the vector. -/
def store (slots : List Slot) (i : Nat) (slot : Slot) : Option (List Slot) := if i < slots.length then some (slots.set i slot) else none

def realloc (slots : List Slot) (size : Nat) : List Slot := slots.take size ++ List.replicate (size - slots.length) .garbage

def initenv : NewEnv := ⟨0,.null :: List.replicate (NEWENVP_STEP - 1) .garbage⟩

/-- The first `n` bytes agree, and the name of the entry ends there. -/
def sameVariable (newstring : Bytes) (n : Nat) (entry : Bytes) : Bool :=
  entry.take n == newstring.take n && (entry[n]? == some equals || entry.length == n)

/-- How far the loop over the first `count` places runs. -/
def search (newstring : Bytes) (n : Nat) : Nat → List Slot → Option Nat
  | 0, _ => some 0
  | count + 1, .str entry :: slots =>
    if sameVariable newstring n entry then some 0 else (search newstring n count slots).map (· + 1)
  | _ + 1, _ => none

def addenv (string : Bytes) (value : Option Bytes) (env : NewEnv) : Option NewEnv :=
  let newstring := match value with
    | some value => string ++ equals :: value
    | none => string
  if equals ∉ newstring then some env
  else
    (search newstring (newstring.idxOf equals) env.newenvc env.newenvp).bind fun i =>
      if i < env.newenvc then (store env.newenvp i (.str newstring)).map fun slots => ⟨env.newenvc,slots⟩
      else
        (store env.newenvp env.newenvc (.str newstring)).bind fun slots =>
          let newenvc := env.newenvc + 1
          let slots := if newenvc &&& (NEWENVP_STEP - 1) = 0 then realloc slots (newenvc + NEWENVP_STEP) else slots
          (store slots newenvc .null).map fun slots => ⟨newenvc,slots⟩

def variableSize : Nat := 1024

def forbidden (entry : Bytes) : Bool := forbid.any fun bad => bad.isPrefixOf entry

/-- The text of the counter, which has room in the buffer. -/
def nameless (noname : Nat) : Bytes := 76 :: numeral noname

/-- The loop of `set_env`. -/
def setEnvLoop : Nat → List Bytes → NewEnv → Option NewEnv
  | _, [], env => some env
  | noname, arg :: argv, env =>
    if variableSize ≤ arg.length then setEnvLoop noname argv env
    else if equals ∉ arg then (addenv (nameless noname) (some arg) env).bind (setEnvLoop (noname + 1) argv)
    else if forbidden arg then setEnvLoop noname argv env
    else (addenv arg none env).bind (setEnvLoop noname argv)

def setEnv (argv : List Bytes) (env : NewEnv) : Option NewEnv := setEnvLoop 1 argv env

/-- Every place from here on gets what is in the next one, as far as the end. -/
def shift : List Slot → Option (List Slot)
  | .null :: slots => some (.null :: slots)
  | .str _ :: slot :: slots => (shift (slot :: slots)).map (slot :: ·)
  | _ => none

/-- The walk that shifts the rest over a bad entry and looks at the same place again. -/
def removeBad (bad : Bytes → Bool) : Nat → List Slot → Option (List Slot)
  | _, .null :: slots => some (.null :: slots)
  | fuel + 1, .str entry :: slots =>
    if bad entry then (shift (.str entry :: slots)).bind (removeBad bad fuel)
    else (removeBad bad fuel slots).map (.str entry :: ·)
  | _, _ => none

def hasSlash (entry : Bytes) : Bool := noslash.any fun bad => bad.isPrefixOf entry && entry.contains slash

/-- Both filters; a walk takes a step for each entry. -/
def sanitizeEnv (environ : List Slot) : Option (List Slot) :=
  (removeBad forbidden environ.length environ).bind fun slots => removeBad hasSlash slots.length slots

inductive EnvCall where
  | addenv (string : Bytes) (value : Option Bytes)
  | setEnv (argv : List Bytes)

def EnvCall.run : EnvCall → NewEnv → Option NewEnv
  | .addenv string value, env => Environment.addenv string value env
  | .setEnv argv, env => Environment.setEnv argv env

def runCalls (calls : List EnvCall) : Option NewEnv := calls.foldlM (fun env call => call.run env) initenv

section Settings

def variableName (entry : Bytes) : Bytes := entry.takeWhile (· != equals)

/-- The text of a setting, where it is one. -/
def setting (text : Bytes) : List Bytes := if equals ∈ text then [text] else []

/-- What the arguments set, in order. -/
def argumentSettings : Nat → List Bytes → List Bytes
  | _, [] => []
  | noname, arg :: argv =>
    if variableSize ≤ arg.length then argumentSettings noname argv
    else if equals ∉ arg then (nameless noname ++ equals :: arg) :: argumentSettings (noname + 1) argv
    else if forbidden arg then argumentSettings noname argv
    else arg :: argumentSettings noname argv

def EnvCall.settings : EnvCall → List Bytes
  | .addenv string none => setting string
  | .addenv string (some value) => [string ++ equals :: value]
  | .setEnv argv => argumentSettings 1 argv

end Settings

section Vector
variable {env : NewEnv} {entries : List Bytes} {entry text : Bytes}

/-- The vector has the entries, a null pointer behind them, and room for more. -/
structure Holds (env : NewEnv) (entries : List Bytes) : Prop where
  count : env.newenvc = entries.length
  slots : ∃ room, env.newenvp = entries.map .str ++ .null :: room
  room : env.newenvp.length = (entries.length / NEWENVP_STEP + 1) * NEWENVP_STEP
  set : ∀ entry ∈ entries, equals ∈ entry

private theorem initenv_holds : Holds initenv [] := ⟨rfl,⟨_,rfl⟩,rfl,nofun⟩

theorem Holds.lt (h : Holds env entries) : env.newenvc < env.newenvp.length := by
  rw [h.count,h.room]
  unfold NEWENVP_STEP
  omega

theorem variableName_append {name : Bytes} (h : equals ∉ name) (value : Bytes) : variableName (name ++ equals :: value) = name := by
  unfold variableName
  rw [List.takeWhile_append_of_pos fun b hb => by simpa using ne_of_mem_of_not_mem hb h]
  simp

private theorem idxOf_append {name : Bytes} (h : equals ∉ name) (value : Bytes) :
    (name ++ equals :: value).idxOf equals = name.length := by
  simp [List.idxOf_append,h]

/-- The comparison finds the entries with the name. -/
theorem sameVariable_iff (htext : equals ∈ text) (hentry : equals ∈ entry) :
    sameVariable text (text.idxOf equals) entry = true ↔ variableName entry = variableName text := by
  obtain ⟨name,value,rfl,hname⟩ := List.eq_append_cons_of_mem htext
  rw [variableName_append hname,idxOf_append hname,sameVariable,List.take_left,Bool.and_eq_true,Bool.or_eq_true,beq_iff_eq,
    beq_iff_eq,beq_iff_eq]
  constructor
  · rintro ⟨htake,hend | hend⟩
    · obtain ⟨hlt,hget⟩ := List.getElem?_eq_some_iff.mp hend
      have hsplit : entry = name ++ equals :: entry.drop (name.length + 1) := by
        conv_lhs => rw [← List.take_append_drop name.length entry]
        rw [htake,List.drop_eq_getElem_cons hlt,hget]
      rw [hsplit]
      exact variableName_append hname _
    · rw [List.take_of_length_le hend.le] at htake
      exact absurd (htake ▸ hentry) hname
  · rintro rfl
    obtain ⟨name,value,rfl,hname'⟩ := List.eq_append_cons_of_mem hentry
    rw [variableName_append hname',List.take_left]
    exact ⟨rfl,.inl (by simp)⟩

private theorem search_eq (htext : equals ∈ text) (hset : ∀ entry ∈ entries, equals ∈ entry) (slots : List Slot) :
    search text (text.idxOf equals) entries.length (entries.map .str ++ slots) =
      some (place variableName (variableName text) entries) := by
  induction entries with
  | nil => rfl
  | cons entry entries ih =>
    have hsame := sameVariable_iff htext (hset entry List.mem_cons_self)
    rw [List.map_cons,List.cons_append,List.length_cons,search,ih fun entry he => hset entry (List.mem_cons_of_mem _ he)]
    unfold place
    rw [List.findIdx_cons]
    by_cases h : variableName entry = variableName text
    · rw [if_pos (hsame.mpr h),decide_eq_true h]
      rfl
    · rw [if_neg (mt hsame.mp h),decide_eq_false h]
      rfl

private theorem store_map {i : Nat} (h : i < entries.length) (slots : List Slot) (text : Bytes) :
    store (entries.map .str ++ slots) i (.str text) = some ((entries.set i text).map .str ++ slots) := by
  unfold store
  rw [if_pos (by simp; omega),List.set_append_left _ _ (by simpa using h),← List.map_set]

/-- The vector with the entries and some places behind them, grown where the entries fill a step. -/
theorem grow_spec (entries : List Bytes) (room : List Slot)
    (hroom : entries.length + room.length = ((entries.length - 1) / NEWENVP_STEP + 1) * NEWENVP_STEP) (hpos : 0 < entries.length) :
    ∃ slot room', (if entries.length &&& (NEWENVP_STEP - 1) = 0
        then realloc (entries.map .str ++ room) (entries.length + NEWENVP_STEP) else entries.map .str ++ room) =
          entries.map .str ++ slot :: room' ∧
      entries.length + room'.length + 1 = (entries.length / NEWENVP_STEP + 1) * NEWENVP_STEP := by
  have hstep : entries.length &&& (NEWENVP_STEP - 1) = entries.length % NEWENVP_STEP := Nat.and_two_pow_sub_one_eq_mod _ 4
  rw [hstep]
  unfold NEWENVP_STEP at hroom ⊢
  split
  · rename_i hfull
    have hnone : room = [] := by
      apply List.eq_nil_of_length_eq_zero
      omega
    refine ⟨.garbage,List.replicate 15 .garbage,?_,?_⟩
    · rw [hnone,List.append_nil,realloc,List.take_of_length_le (by simp),List.length_map,Nat.add_sub_cancel_left]
      rfl
    · rw [List.length_replicate]
      omega
  · rename_i hfull
    cases room with
    | nil =>
      rw [List.length_nil] at hroom
      omega
    | cons slot room =>
      rw [List.length_cons] at hroom
      exact ⟨slot,room,rfl,by omega⟩

/-- A new text is stored in the place of the null pointer, which moves on; there is room for it again. -/
theorem append_spec (h : Holds env entries) (htext : equals ∈ text) :
    ∃ env', ((store env.newenvp env.newenvc (.str text)).bind fun slots =>
      let newenvc := env.newenvc + 1
      let slots := if newenvc &&& (NEWENVP_STEP - 1) = 0 then realloc slots (newenvc + NEWENVP_STEP) else slots
      (store slots newenvc .null).map fun slots => (⟨newenvc,slots⟩ : NewEnv)) = some env' ∧ Holds env' (entries ++ [text]) := by
  obtain ⟨room,hslots⟩ := h.slots
  have hlength : env.newenvp.length = entries.length + 1 + room.length := by
    rw [hslots]
    simp
    omega
  have hcount : env.newenvc + 1 = (entries ++ [text]).length := by rw [h.count,List.length_append,List.length_singleton]
  have hstored : store env.newenvp env.newenvc (.str text) = some ((entries ++ [text]).map .str ++ room) := by
    rw [store,if_pos h.lt,hslots,h.count]
    simp
  obtain ⟨slot,room',hgrown,hroom'⟩ := grow_spec (entries ++ [text]) room
    (by rw [List.length_append,List.length_singleton,Nat.add_sub_cancel,← hlength,h.room]) (by simp)
  have hnull : store ((entries ++ [text]).map .str ++ slot :: room') (entries ++ [text]).length .null =
      some ((entries ++ [text]).map .str ++ .null :: room') := by
    rw [store,if_pos (by simp)]
    simp
  rw [hstored,Option.bind_some]
  simp only [hcount,hgrown,hnull,Option.map_some]
  refine ⟨_,rfl,rfl,⟨room',rfl⟩,?_,?_⟩
  · rw [← hroom']
    simp
    omega
  · intro entry hentry
    rcases List.mem_append.mp hentry with he | he
    · exact h.set entry he
    · exact List.mem_singleton.mp he ▸ htext

/-- A text with a name is set in the vector, and one without changes nothing. -/
theorem addenv_spec (h : Holds env entries) (string : Bytes) (value : Option Bytes) (text : Bytes)
    (htext : text = (match value with | some value => string ++ equals :: value | none => string)) :
    ∃ env', addenv string value env = some env' ∧ Holds env' (if equals ∈ text then assign variableName text entries else entries) := by
  have haddenv : addenv string value env = if equals ∉ text then some env else
    (search text (text.idxOf equals) env.newenvc env.newenvp).bind fun i =>
      if i < env.newenvc then (store env.newenvp i (.str text)).map fun slots => ⟨env.newenvc,slots⟩
      else
        (store env.newenvp env.newenvc (.str text)).bind fun slots =>
          let newenvc := env.newenvc + 1
          let slots := if newenvc &&& (NEWENVP_STEP - 1) = 0 then realloc slots (newenvc + NEWENVP_STEP) else slots
          (store slots newenvc .null).map fun slots => ⟨newenvc,slots⟩ := by
    rw [htext]
    rfl
  by_cases hset : equals ∈ text
  · obtain ⟨room,hslots⟩ := h.slots
    have hsearch := search_eq hset h.set (.null :: room)
    rw [← h.count,← hslots] at hsearch
    rw [haddenv,if_neg (not_not.mpr hset),if_pos hset,hsearch,Option.bind_some,h.count,assign]
    split
    · rename_i hlt
      rw [hslots,store_map hlt,Option.map_some]
      refine ⟨_,rfl,?_,⟨room,rfl⟩,?_,?_⟩
      · rw [List.length_set]
      · rw [List.length_set,← h.room,hslots]
        simp
      · intro entry hentry
        rcases List.mem_or_eq_of_mem_set hentry with he | rfl
        · exact h.set entry he
        · exact hset
    · rw [← h.count]
      exact append_spec h hset
  · rw [haddenv,if_pos hset,if_neg hset]
    exact ⟨env,rfl,h⟩

end Vector

section Runs
variable {env : NewEnv} {entries : List Bytes} {a b : Bytes}

/-- The entries after some settings. -/
def settle (entries settings : List Bytes) : List Bytes := settings.foldl (fun l a => assign variableName a l) entries

theorem setEnvLoop_spec (noname : Nat) (argv : List Bytes) (h : Holds env entries) :
    ∃ env', setEnvLoop noname argv env = some env' ∧ Holds env' (settle entries (argumentSettings noname argv)) := by
  induction argv generalizing noname env entries with
  | nil => exact ⟨env,rfl,h⟩
  | cons arg argv ih =>
    unfold setEnvLoop argumentSettings
    by_cases hlong : variableSize ≤ arg.length
    · rw [if_pos hlong,if_pos hlong]
      exact ih noname h
    · rw [if_neg hlong,if_neg hlong]
      by_cases hname : equals ∈ arg
      · rw [if_neg (not_not.mpr hname),if_neg (not_not.mpr hname)]
        split
        · exact ih noname h
        · obtain ⟨env',henv',h'⟩ := addenv_spec h arg none arg rfl
          rw [if_pos hname] at h'
          rw [henv',Option.bind_some]
          exact ih noname h'
      · rw [if_pos hname,if_pos hname]
        obtain ⟨env',henv',h'⟩ := addenv_spec h (nameless noname) (some arg) _ rfl
        rw [if_pos (List.mem_append_right _ List.mem_cons_self)] at h'
        rw [henv',Option.bind_some]
        exact ih (noname + 1) h'

private theorem run_spec (call : EnvCall) (h : Holds env entries) :
    ∃ env', call.run env = some env' ∧ Holds env' (settle entries call.settings) := by
  cases call with
  | setEnv argv => exact setEnvLoop_spec 1 argv h
  | addenv string value =>
    cases value with
    | none =>
      obtain ⟨env',henv',h'⟩ := addenv_spec h string none string rfl
      have hsettings : (EnvCall.addenv string none).settings = if equals ∈ string then [string] else [] := rfl
      refine ⟨env',henv',?_⟩
      rw [hsettings]
      split at h' <;> rename_i hset
      · rw [if_pos hset]
        exact h'
      · rw [if_neg hset]
        exact h'
    | some value =>
      obtain ⟨env',henv',h'⟩ := addenv_spec h string (some value) _ rfl
      rw [if_pos (List.mem_append_right _ List.mem_cons_self)] at h'
      exact ⟨env',henv',h'⟩

/-- After any calls the vector has what was set last for each name. -/
theorem runCalls_spec (calls : List EnvCall) :
    ∃ env, runCalls calls = some env ∧ Holds env (assignAll variableName (calls.flatMap EnvCall.settings)) := by
  have hrun : ∀ env entries, Holds env entries → ∃ env', calls.foldlM (fun env (call : EnvCall) => call.run env) env = some env' ∧
      Holds env' (settle entries (calls.flatMap EnvCall.settings)) := by
    induction calls with
    | nil =>
      intro env entries h
      exact ⟨env,rfl,h⟩
    | cons call calls ih =>
      intro env entries h
      obtain ⟨env',henv',h'⟩ := run_spec call h
      obtain ⟨env'',henv'',h''⟩ := ih env' _ h'
      refine ⟨env'',?_,?_⟩
      · rw [List.foldlM_cons,henv']
        exact henv''
      · rw [List.flatMap_cons,settle,List.foldl_append]
        exact h''
  exact hrun initenv [] initenv_holds

/-- One of some texts is where the entry starts. -/
def StartsIn (texts : List Bytes) (entry : Bytes) : Prop := ∃ text ∈ texts, text <+: entry

instance (texts : List Bytes) (entry : Bytes) : Decidable (StartsIn texts entry) :=
  inferInstanceAs (Decidable (∃ text ∈ texts, text <+: entry))

theorem forbidden_iff : forbidden a = true ↔ StartsIn forbid a := by
  unfold forbidden StartsIn
  simp only [List.any_eq_true,List.isPrefixOf_iff_prefix]

/-- An equals sign is at most the end of what is forbidden. -/
theorem forbid_dropLast : ∀ bad ∈ forbid, bad ≠ [] ∧ equals ∉ bad.dropLast := by decide +kernel

/-- Whether an entry is forbidden is known from its name. -/
theorem forbidden_congr (ha : equals ∈ a) (hb : equals ∈ b) (hname : variableName a = variableName b)
    (h : StartsIn forbid a) : StartsIn forbid b := by
  obtain ⟨bad,hbad,hstarts⟩ := h
  obtain ⟨hne,hdrop⟩ := forbid_dropLast bad hbad
  obtain ⟨name,value,rfl,hna⟩ := List.eq_append_cons_of_mem ha
  obtain ⟨name',value',rfl,hnb⟩ := List.eq_append_cons_of_mem hb
  rw [variableName_append hna,variableName_append hnb] at hname
  subst hname
  have hsplit : ∀ value : Bytes, name ++ equals :: value = (name ++ [equals]) ++ value := by
    intro value
    simp
  have hshort : bad.length ≤ (name ++ [equals]).length := by
    by_contra hlong
    have hinside : name ++ [equals] <+: bad.dropLast := by
      apply List.prefix_of_prefix_length_le _ ((List.dropLast_prefix bad).trans hstarts)
      · rw [List.length_dropLast]
        omega
      · exact ⟨value,(hsplit value).symm⟩
    exact hdrop (hinside.subset (by simp))
  rw [hsplit] at hstarts
  refine ⟨bad,hbad,?_⟩
  rw [hsplit]
  exact (List.prefix_of_prefix_length_le hstarts (List.prefix_append _ _) hshort).trans (List.prefix_append _ _)

private theorem forbid_second : ∀ bad ∈ forbid, bad.head? ≠ some 76 ∨ (bad.tail.head?.map isDigit) = some false := by decide +kernel

/-- What the number of an argument makes is not forbidden: behind an L no forbidden text has a digit. -/
theorem nameless_allowed (noname : Nat) (arg : Bytes) : ¬StartsIn forbid (nameless noname ++ equals :: arg) := by
  rintro ⟨bad,hbad,hstarts⟩
  obtain ⟨d,digits,hnumeral⟩ := List.exists_cons_of_ne_nil (numeral_ne_nil noname)
  have hd : isDigit d = true := numeral_digits (hnumeral ▸ List.mem_cons_self)
  have htext : nameless noname ++ equals :: arg = 76 :: d :: (digits ++ equals :: arg) := by rw [nameless,hnumeral]; rfl
  rw [htext] at hstarts
  obtain ⟨first,rest,rfl⟩ := List.exists_cons_of_ne_nil (forbid_dropLast bad hbad).1
  obtain ⟨rfl,hrest⟩ := List.cons_prefix_cons.mp hstarts
  have hsecond := (forbid_second _ hbad).resolve_left (fun h => h rfl)
  cases rest with
  | nil => cases hsecond
  | cons second rest =>
    obtain ⟨rfl,_⟩ := List.cons_prefix_cons.mp hrest
    simp [hd] at hsecond

private theorem argumentSettings_allowed (noname : Nat) (argv : List Bytes) :
    ∀ text ∈ argumentSettings noname argv, equals ∈ text ∧ ¬StartsIn forbid text := by
  induction argv generalizing noname with
  | nil => exact nofun
  | cons arg argv ih =>
    unfold argumentSettings
    by_cases hlong : variableSize ≤ arg.length
    · rw [if_pos hlong]
      exact ih noname
    · rw [if_neg hlong]
      by_cases hname : equals ∈ arg
      · rw [if_neg (not_not.mpr hname)]
        split
        · exact ih noname
        · rename_i hforbidden
          intro text htext
          rcases List.mem_cons.mp htext with rfl | htext
          · exact ⟨hname,fun h => hforbidden (forbidden_iff.mpr h)⟩
          · exact ih noname text htext
      · rw [if_pos hname]
        intro text htext
        rcases List.mem_cons.mp htext with rfl | htext
        · exact ⟨List.mem_append_right _ List.mem_cons_self,nameless_allowed noname arg⟩
        · exact ih (noname + 1) text htext

/-- Allowed settings leave the forbidden entries in their places. -/
theorem settle_forbidden (settings : List Bytes) (hentries : ∀ entry ∈ entries, equals ∈ entry)
    (hsettings : ∀ text ∈ settings, equals ∈ text ∧ ¬StartsIn forbid text) {i : Nat} (hb : StartsIn forbid b) :
    (settle entries settings)[i]? = some b ↔ entries[i]? = some b := by
  induction settings generalizing entries with
  | nil => rfl
  | cons a settings ih =>
    obtain ⟨ha,hallowed⟩ := hsettings a List.mem_cons_self
    have hset : ∀ entry ∈ assign variableName a entries, equals ∈ entry := by
      intro entry hentry
      rcases mem_assign hentry with rfl | he
      · exact ha
      · exact hentries entry he
    have hsame : ∀ entry ∈ entries, variableName entry = variableName a → ¬StartsIn forbid entry :=
      fun entry hentry hname hstarts => hallowed (forbidden_congr (hentries entry hentry) ha hname hstarts)
    exact (ih hset fun text htext => hsettings text (List.mem_cons_of_mem a htext)).trans (getElem?_assign hsame hallowed hb)

end Runs

section Filters
variable {bad : Bytes → Bool}

private theorem shift_spec (entry : Bytes) (entries : List Bytes) (room : List Slot) :
    shift (.str entry :: (entries.map .str ++ .null :: room)) = some (entries.map .str ++ .null :: .null :: room) := by
  induction entries generalizing entry with
  | nil => rfl
  | cons next entries ih =>
    rw [List.map_cons,List.cons_append,shift,ih]
    rfl

/-- A walk leaves the entries that are not bad. -/
theorem removeBad_spec (bad : Bytes → Bool) (entries : List Bytes) (room : List Slot) {fuel : Nat} (hfuel : entries.length ≤ fuel) :
    ∃ room', removeBad bad fuel (entries.map .str ++ .null :: room) =
      some ((entries.filter fun entry => !bad entry).map .str ++ .null :: room') := by
  induction entries generalizing fuel room with
  | nil =>
    refine ⟨room,?_⟩
    cases fuel <;> rfl
  | cons entry entries ih =>
    obtain ⟨fuel,rfl⟩ := Nat.exists_eq_add_of_le' (Nat.one_le_of_lt (Nat.lt_of_lt_of_le (Nat.succ_pos _) hfuel))
    have hle : entries.length ≤ fuel := Nat.le_of_succ_le_succ hfuel
    rw [List.map_cons,List.cons_append,removeBad]
    by_cases hbad : bad entry = true
    · obtain ⟨room',hroom'⟩ := ih (.null :: room) hle
      rw [if_pos hbad,shift_spec,Option.bind_some,hroom',List.filter_cons_of_neg (by simp [hbad])]
      exact ⟨room',rfl⟩
    · obtain ⟨room',hroom'⟩ := ih room hle
      rw [if_neg hbad,hroom',Option.map_some,List.filter_cons_of_pos (by simp [hbad])]
      exact ⟨room',rfl⟩

private theorem hasSlash_iff {entry : Bytes} : hasSlash entry = true ↔ StartsIn noslash entry ∧ slash ∈ entry := by
  unfold hasSlash StartsIn
  simp only [List.any_eq_true,Bool.and_eq_true,List.isPrefixOf_iff_prefix,List.contains_iff_mem]
  constructor
  · rintro ⟨text,htext,hstarts,hslash⟩
    exact ⟨⟨text,htext,hstarts⟩,hslash⟩
  · rintro ⟨⟨text,htext,hstarts⟩,hslash⟩
    exact ⟨text,htext,hstarts,hslash⟩

/-- Both walks leave the allowed entries, in order. -/
theorem sanitizeEnv_spec (entries : List Bytes) (room : List Slot) :
    ∃ room', sanitizeEnv (entries.map .str ++ .null :: room) =
      some ((entries.filter fun entry => ¬StartsIn forbid entry ∧ (StartsIn noslash entry → slash ∉ entry)).map .str ++
        .null :: room') := by
  have hsize : ∀ (entries : List Bytes) (room : List Slot), entries.length ≤ (entries.map Slot.str ++ Slot.null :: room).length := by
    intro entries room
    rw [List.length_append,List.length_map]
    exact Nat.le_add_right _ _
  obtain ⟨room₁,hforbid⟩ := removeBad_spec forbidden entries room (hsize entries room)
  obtain ⟨room₂,hnoslash⟩ := removeBad_spec hasSlash (entries.filter fun entry => !forbidden entry) room₁ (hsize _ room₁)
  refine ⟨room₂,?_⟩
  rw [sanitizeEnv,hforbid,Option.bind_some,hnoslash,List.filter_filter]
  congr 4
  funext entry
  rw [Bool.eq_iff_iff]
  simp only [Bool.and_eq_true,Bool.not_eq_true',← Bool.not_eq_true,forbidden_iff,hasSlash_iff,decide_eq_true_eq,not_and]
  exact and_comm

end Filters

/-- The vector is well formed after any calls and has what was set last; arguments leave the forbidden entries alone; the filters leave
what is allowed. -/
theorem environment_sound :
    (∀ calls : List EnvCall, ∃ (env : NewEnv) (entries : List Bytes) (room : List Slot), runCalls calls = some env ∧
      env.newenvc = entries.length ∧ env.newenvp = entries.map .str ++ .null :: room ∧ env.newenvc < env.newenvp.length ∧
      (∀ entry ∈ entries, equals ∈ entry) ∧
      (entries.map variableName).Nodup ∧
      (∀ name, entries.find? (variableName · = name) =
        ((calls.flatMap EnvCall.settings).filter (variableName · = name)).getLast?) ∧
      ∀ argv, ∃ (env' : NewEnv) (entries' : List Bytes) (room' : List Slot), setEnv argv env = some env' ∧ env'.newenvc = entries'.length ∧
        env'.newenvp = entries'.map .str ++ .null :: room' ∧
        ∀ (i : Nat) (entry : Bytes), StartsIn forbid entry → (entries'[i]? = some entry ↔ entries[i]? = some entry)) ∧
    ∀ (entries : List Bytes) (room : List Slot), ∃ room', sanitizeEnv (entries.map .str ++ .null :: room) =
      some ((entries.filter fun entry => ¬StartsIn forbid entry ∧ (StartsIn noslash entry → slash ∉ entry)).map .str ++
        .null :: room') := by
  refine ⟨?_,sanitizeEnv_spec⟩
  intro calls
  obtain ⟨env,henv,h⟩ := runCalls_spec calls
  obtain ⟨room,hroom⟩ := h.slots
  refine ⟨env,_,room,henv,h.count,hroom,h.lt,h.set,nodup_assignAll _,find?_assignAll _,?_⟩
  intro argv
  obtain ⟨env',henv',h'⟩ := setEnvLoop_spec 1 argv h
  obtain ⟨room',hroom'⟩ := h'.slots
  refine ⟨env',_,room',henv',h'.count,hroom',?_⟩
  intro i entry hentry
  exact settle_forbidden _ h.set (argumentSettings_allowed 1 argv) hentry

end UserDb.Login.Environment
