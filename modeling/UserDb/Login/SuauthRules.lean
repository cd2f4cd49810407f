import UserDb.Login.Suauth

/-! The format of the access file of su, and when the file is read as it stands. -/
namespace UserDb.Login
open UserDb.Base UserDb.Commonio

/-- A name in a list: without separators, and none of the words with a meaning. -/
structure ListName where
  text : Bytes
  nonempty : text ≠ []
  clean : ∀ b ∈ text, b ≠ comma ∧ isBlank b = false ∧ b ≠ colon ∧ b ≠ newline ∧ b ≠ 0
  free : text ≠ ascii "ALL" ∧ text ≠ ascii "EXCEPT" ∧ text ≠ ascii "GROUP"

/-- A list of one name at least. -/
structure ListNames where
  first : ListName
  more : List ListName

def ListNames.texts (l : ListNames) : List Bytes := (l.first :: l.more).map ListName.text

/-- The forms of a list. -/
inductive UserList where
  | names (l : ListNames)
  | all
  | allExcept (l : ListNames)
  | group (l : ListNames)
  | allExceptGroup (l : ListNames)

def UserList.words : UserList → List Bytes
  | .names l => l.texts
  | .all => [ascii "ALL"]
  | .allExcept l => ascii "ALL" :: ascii "EXCEPT" :: l.texts
  | .group l => ascii "GROUP" :: l.texts
  | .allExceptGroup l => ascii "ALL" :: ascii "EXCEPT" :: ascii "GROUP" :: l.texts

def UserList.contains (getgrnam : Bytes → Option Group) (user : Bytes) : UserList → Bool
  | .names l => l.texts.contains user
  | .all => true
  | .allExcept l => !l.texts.contains user
  | .group l => l.texts.any (isgrp getgrnam user)
  | .allExceptGroup l => !l.texts.any (isgrp getgrnam user)

/-- Words with a single separator between them. -/
inductive Joined : List Bytes → Bytes → Prop where
  | last (word : Bytes) : Joined [word] word
  | more (word : Bytes) (sep : UInt8) (hsep : sep = comma ∨ sep = 32) {words : List Bytes} {text : Bytes}
      (h : Joined words text) : Joined (word :: words) (word ++ sep :: text)

/-- The words for the actions. -/
inductive SuWord where
  | deny | nopass | ownpass
  deriving DecidableEq

def SuWord.text : SuWord → Bytes
  | .deny => ascii "DENY"
  | .nopass => ascii "NOPASS"
  | .ownpass => ascii "OWNPASS"

def SuWord.action : SuWord → SuAction
  | .deny => .deny
  | .nopass => .noPword
  | .ownpass => .ownPword

/-- A rule `to:from:ACTION`, with blanks around it. -/
structure SuauthRule where
  lead : Bytes
  toList : UserList
  toText : Bytes
  fromList : UserList
  fromText : Bytes
  word : SuWord
  trail : Bytes
  leadBlank : ∀ b ∈ lead, isBlank b = true
  toJoined : Joined toList.words toText
  notComment : toText.head? ≠ some 35
  fromJoined : Joined fromList.words fromText
  trailBlank : ∀ b ∈ trail, isBlank b = true

def SuauthRule.text (r : SuauthRule) : Bytes := r.lead ++ (r.toText ++ colon :: (r.fromText ++ colon :: r.word.text)) ++ r.trail

/-- The lines without a meaning. -/
inductive IsOther : Bytes → Prop where
  | comment (lead rest : Bytes) (hlead : ∀ b ∈ lead, isBlank b = true) : IsOther (lead ++ 35 :: rest)
  | blank {body : Bytes} (h : ∀ b ∈ body, isBlank b = true) : IsOther body
  | fewColons {body : Bytes} (h : body.count colon < 2) : IsOther body
  | unknown {toUsers fromUsers : Bytes} (action : Bytes) (hto : colon ∉ toUsers) (hfrom : colon ∉ fromUsers)
      (h : ∀ word : SuWord, action.rdropWhile isBlank ≠ word.text) : IsOther (toUsers ++ colon :: (fromUsers ++ colon :: action))

inductive SuauthLine where
  | rule (r : SuauthRule)
  | other (body : Bytes) (hline : newline ∉ body) (h : IsOther body)
  | long (body : Bytes) (hline : newline ∉ body) (h : suauthSize ≤ body.length + 1)

def SuauthLine.body : SuauthLine → Bytes
  | .rule r => r.text
  | .other body _ _ => body
  | .long body _ _ => body

/-- The line and its newline fit in the buffer. -/
def SuauthLine.Fits (line : SuauthLine) : Prop := line.body.length + 1 < suauthSize

instance (line : SuauthLine) : Decidable line.Fits := inferInstanceAs (Decidable (_ < _))

/-- A file of such lines, and what stands behind its last newline. -/
structure SuauthText where
  lines : List SuauthLine
  tail : Bytes
  unterminated : newline ∉ tail

def linesText (lines : List SuauthLine) (tail : Bytes) : Bytes := lines.flatMap (fun line => line.body ++ [newline]) ++ tail

def SuauthText.text (file : SuauthText) : Bytes := linesText file.lines file.tail

section Format
variable (getgrnam : Bytes → Option Group) (actualId wantedId : Bytes)

def SuauthRule.Applies (r : SuauthRule) : Prop :=
  r.toList.contains getgrnam wantedId = true ∧ r.fromList.contains getgrnam actualId = true

instance (r : SuauthRule) : Decidable (r.Applies getgrnam actualId wantedId) := inferInstanceAs (Decidable (_ ∧ _))

/-- What a line is for: a rule that fits and applies gives its action. -/
def SuauthLine.verdict (line : SuauthLine) : Option SuAction :=
  match line with
  | .rule r => if line.Fits ∧ r.Applies getgrnam actualId wantedId then some r.word.action else none
  | _ => none

def firstVerdict (lines : List SuauthLine) : Option SuAction := lines.findSome? (SuauthLine.verdict getgrnam actualId wantedId)

def SuauthText.action (file : SuauthText) : SuAction := (firstVerdict getgrnam actualId wantedId file.lines).getD .noAction

/-- Up to the first line that decides, what hangs over the buffer at the end of an over-long line
is no rule that applies, or one with the action that the lines behind it give. -/
def Undisturbed : List SuauthLine → Prop
  | [] => True
  | line :: rest =>
    if line.Fits then line.verdict getgrnam actualId wantedId = none → Undisturbed rest
    else
      (∀ action, Deciding getgrnam actualId wantedId (Fgets.overhang suauthSize line.body) action →
        firstVerdict getgrnam actualId wantedId rest = some action) ∧
      ((∀ action, ¬ Deciding getgrnam actualId wantedId (Fgets.overhang suauthSize line.body) action) → Undisturbed rest)

end Format

section Lists
variable {getgrnam : Bytes → Option Group} {user text : Bytes} {words : List Bytes}

theorem Joined.splitOnP (h : Joined words text) (hwords : ∀ word ∈ words, ∀ b ∈ word, isListSeparator b = false) :
    text.splitOnP isListSeparator = words := by
  induction h with
  | last word => exact List.splitOnP_eq_singleton (hwords word List.mem_cons_self)
  | more word sep hsep h ih =>
    have hcut : isListSeparator sep = true := by
      rcases hsep with rfl | rfl
      · rfl
      · rfl
    rw [List.splitOnP_append_cons_of_forall_mem (hwords word List.mem_cons_self) sep hcut,
      ih fun w hw => hwords w (List.mem_cons_of_mem _ hw)]

theorem Joined.mem (h : Joined words text) {b : UInt8} (hb : b ∈ text) : b = comma ∨ b = 32 ∨ ∃ word ∈ words, b ∈ word := by
  induction h with
  | last word => exact .inr (.inr ⟨word,List.mem_cons_self,hb⟩)
  | more word sep hsep h ih =>
    rcases List.mem_append.mp hb with hb | hb
    · exact .inr (.inr ⟨word,List.mem_cons_self,hb⟩)
    · rcases List.mem_cons.mp hb with rfl | hb
      · exact hsep.imp_right .inl
      · exact (ih hb).imp_right (·.imp_right fun ⟨w,hw,hbw⟩ => ⟨w,List.mem_cons_of_mem _ hw,hbw⟩)

theorem Joined.head (h : Joined words text) (hwords : ∀ word ∈ words, word ≠ []) :
    ∃ word ∈ words, text.head? = word.head? := by
  cases h with
  | last => exact ⟨text,List.mem_cons_self,rfl⟩
  | more word sep hsep h =>
    refine ⟨word,List.mem_cons_self,?_⟩
    rw [List.head?_append_of_ne_nil _ (hwords word List.mem_cons_self)]

/-- The words of a list: not empty, and of bytes that are no separators of any kind. -/
theorem UserList.words_clean (l : UserList) : ∀ word ∈ l.words,
    word ≠ [] ∧ ∀ b ∈ word, b ≠ comma ∧ isBlank b = false ∧ b ≠ colon ∧ b ≠ newline ∧ b ≠ 0 := by
  have hnames : ∀ (l : ListNames), ∀ word ∈ l.texts,
      word ≠ [] ∧ ∀ b ∈ word, b ≠ comma ∧ isBlank b = false ∧ b ≠ colon ∧ b ≠ newline ∧ b ≠ 0 := by
    intro l word hword
    obtain ⟨name,_,rfl⟩ := List.mem_map.mp hword
    exact ⟨name.nonempty,name.clean⟩
  have hkeyword : ∀ word ∈ [ascii "ALL",ascii "EXCEPT",ascii "GROUP"],
      word ≠ [] ∧ ∀ b ∈ word, b ≠ comma ∧ isBlank b = false ∧ b ≠ colon ∧ b ≠ newline ∧ b ≠ 0 := by
    decide +kernel
  intro word hword
  cases l with
  | names l => exact hnames l word hword
  | all =>
    rw [List.mem_singleton.mp hword]
    exact hkeyword _ (by simp)
  | allExcept l =>
    simp only [UserList.words,List.mem_cons] at hword
    rcases hword with rfl | rfl | hword
    · exact hkeyword _ (by simp)
    · exact hkeyword _ (by simp)
    · exact hnames l word hword
  | group l =>
    simp only [UserList.words,List.mem_cons] at hword
    rcases hword with rfl | hword
    · exact hkeyword _ (by simp)
    · exact hnames l word hword
  | allExceptGroup l =>
    simp only [UserList.words,List.mem_cons] at hword
    rcases hword with rfl | rfl | rfl | hword
    · exact hkeyword _ (by simp)
    · exact hkeyword _ (by simp)
    · exact hkeyword _ (by simp)
    · exact hnames l word hword

/-- What each state makes of a name. -/
theorem appliesFrom_name (name : ListName) (state : ListState) (list : List Bytes) :
    appliesFrom getgrnam user state (name.text :: list) =
      match state with
      | .noControl => if name.text = user then true else appliesFrom getgrnam user .noControl list
      | .all => false
      | .allExcept => if name.text = user then false else appliesFrom getgrnam user .allExcept list
      | .group => if isgrp getgrnam user name.text then true else appliesFrom getgrnam user .group list
      | .allExceptGroup => if isgrp getgrnam user name.text then false else appliesFrom getgrnam user .allExceptGroup list := by
  obtain ⟨hall,hexcept,hgroup⟩ := name.free
  cases state with
  | noControl => rw [appliesFrom,if_neg hall,if_neg hexcept,if_neg hgroup]
  | all => rw [appliesFrom,if_neg hall,if_neg hexcept,if_neg hgroup]
  | allExcept => rw [appliesFrom,if_neg hall,if_neg hexcept,if_neg hgroup]
  | group => rw [appliesFrom,if_neg hall,if_neg hexcept,if_neg hgroup]
  | allExceptGroup => rw [appliesFrom,if_neg hall,if_neg hexcept,if_neg hgroup]

/-- What each state makes of the names that are left. -/
theorem appliesFrom_names (names : List ListName) (state : ListState) (hstate : state ≠ .all) :
    appliesFrom getgrnam user state (names.map ListName.text) =
      match state with
      | .noControl => (names.map ListName.text).contains user
      | .all => true
      | .allExcept => !(names.map ListName.text).contains user
      | .group => (names.map ListName.text).any (isgrp getgrnam user)
      | .allExceptGroup => !(names.map ListName.text).any (isgrp getgrnam user) := by
  induction names with
  | nil =>
    cases state with
    | all => exact absurd rfl hstate
    | _ => rfl
  | cons name names ih =>
    rw [List.map_cons,appliesFrom_name]
    cases state with
    | all => exact absurd rfl hstate
    | noControl =>
      rw [List.contains_cons,ih]
      by_cases heq : name.text = user
      · simp [heq]
      · simp [heq,Ne.symm heq]
    | allExcept =>
      rw [List.contains_cons,ih]
      by_cases heq : name.text = user
      · simp [heq]
      · simp [heq,Ne.symm heq]
    | group =>
      rw [List.any_cons,ih]
      cases isgrp getgrnam user name.text <;> rfl
    | allExceptGroup =>
      rw [List.any_cons,ih]
      cases isgrp getgrnam user name.text <;> rfl

/-- A list applies to the users that it contains. -/
theorem applies_list (l : UserList) (h : Joined l.words text) : applies getgrnam user text = l.contains getgrnam user := by
  have hsplit : text.splitOnP isListSeparator = l.words := by
    apply h.splitOnP
    intro word hword b hb
    obtain ⟨hcomma,hblank,_⟩ := (l.words_clean word hword).2 b hb
    have hspace : b ≠ 32 := by
      rintro rfl
      cases hblank
    simp [isListSeparator,hcomma,hspace]
  rw [applies,hsplit]
  cases l with
  | names l => exact appliesFrom_names (l.first :: l.more) .noControl nofun
  | all => rfl
  | allExcept l => exact appliesFrom_names (l.first :: l.more) .allExcept nofun
  | group l => exact appliesFrom_names (l.first :: l.more) .group nofun
  | allExceptGroup l => exact appliesFrom_names (l.first :: l.more) .allExceptGroup nofun

/-- What the text of a list does not have. -/
theorem UserList.text_clean (l : UserList) (h : Joined l.words text) :
    colon ∉ text ∧ newline ∉ text ∧ 0 ∉ text ∧ ∀ b, text.head? = some b → isBlank b = false := by
  have hmem : ∀ b ∈ text, b ≠ colon ∧ b ≠ newline ∧ b ≠ 0 := by
    intro b hb
    rcases h.mem hb with rfl | rfl | ⟨word,hword,hb⟩
    · decide
    · decide
    · exact ((l.words_clean word hword).2 b hb).2.2
  refine ⟨fun hb => (hmem _ hb).1 rfl,fun hb => (hmem _ hb).2.1 rfl,fun hb => (hmem _ hb).2.2 rfl,?_⟩
  intro b hb
  obtain ⟨word,hword,hhead⟩ := h.head fun word hword => (l.words_clean word hword).1
  rw [hhead] at hb
  exact ((l.words_clean word hword).2 b (List.mem_of_head? hb)).2.1

end Lists

theorem SuWord.text_clean (word : SuWord) : colon ∉ word.text ∧ newline ∉ word.text ∧ 0 ∉ word.text ∧
    suAction word.text = some word.action ∧ ∃ b, word.text.getLast? = some b ∧ isBlank b = false := by
  cases word with
  | deny => exact ⟨by decide +kernel,by decide +kernel,by decide +kernel,by decide +kernel,_,rfl,rfl⟩
  | nopass => exact ⟨by decide +kernel,by decide +kernel,by decide +kernel,by decide +kernel,_,rfl,rfl⟩
  | ownpass => exact ⟨by decide +kernel,by decide +kernel,by decide +kernel,by decide +kernel,_,rfl,rfl⟩

theorem SuWord.action_ne (word : SuWord) : word.action ≠ .noAction := by
  cases word with
  | deny => nofun
  | nopass => nofun
  | ownpass => nofun

theorem blank_clean {s : Bytes} (h : ∀ b ∈ s, isBlank b = true) : colon ∉ s ∧ newline ∉ s ∧ 0 ∉ s :=
  ⟨fun hb => absurd (h _ hb) (by decide),fun hb => absurd (h _ hb) (by decide),fun hb => absurd (h _ hb) (by decide)⟩

theorem SuauthRule.text_notMem (r : SuauthRule) : newline ∉ r.text ∧ 0 ∉ r.text := by
  obtain ⟨_,hleadLine,hleadZero⟩ := blank_clean r.leadBlank
  obtain ⟨_,htrailLine,htrailZero⟩ := blank_clean r.trailBlank
  obtain ⟨_,htoLine,htoZero,_⟩ := r.toList.text_clean r.toJoined
  obtain ⟨_,hfromLine,hfromZero,_⟩ := r.fromList.text_clean r.fromJoined
  obtain ⟨_,hwordLine,hwordZero,_⟩ := r.word.text_clean
  have hcolon : newline ≠ colon ∧ (0 : UInt8) ≠ colon := by decide
  unfold SuauthRule.text
  simp only [List.mem_append,List.mem_cons]
  tauto

theorem SuauthLine.notMem_body (line : SuauthLine) : newline ∉ line.body := by
  cases line with
  | rule r => exact r.text_notMem.1
  | other body hline h => exact hline
  | long body hline h => exact hline

section Lines
variable {getgrnam : Bytes → Option Group} {actualId wantedId body : Bytes} {action : SuAction}

private theorem suauthPiece_rule (r : SuauthRule) :
    suauthPiece getgrnam actualId wantedId (r.text ++ [newline]) =
      if r.Applies getgrnam actualId wantedId then some r.word.action else none := by
  obtain ⟨hline,hzero⟩ := r.text_notMem
  obtain ⟨hto,_,_,hhead⟩ := r.toList.text_clean r.toJoined
  obtain ⟨hfrom,_⟩ := r.fromList.text_clean r.fromJoined
  obtain ⟨hword,_,_,haction,last,hlast,hblank⟩ := r.word.text_clean
  have hfirst : ∀ b, r.toText.head? = some b → isBlank b = false ∧ b ≠ 35 := by
    intro b hb
    refine ⟨hhead b hb,?_⟩
    rintro rfl
    exact r.notComment hb
  unfold SuauthRule.text at hline hzero ⊢
  rw [suauthPiece_fields hline hzero r.leadBlank r.trailBlank hfirst hto hfrom hword hlast hblank,
    applies_list r.toList r.toJoined,applies_list r.fromList r.fromJoined,haction]
  by_cases happlies : r.Applies getgrnam actualId wantedId
  · rw [if_pos happlies,happlies.1,happlies.2]
    rfl
  · rw [if_neg happlies,if_neg]
    rw [Bool.and_eq_true]
    exact happlies

/-- A line without a meaning decides nothing. -/
theorem not_deciding_of_isOther (hother : IsOther body) : ¬ Deciding getgrnam actualId wantedId body action := by
  rintro ⟨_,lead,toUsers,fromUsers,word,trail,heq,hlead,htrail,hhead,hto,hfrom,_,_,hword⟩
  obtain ⟨_,last,hlast,hblank⟩ := suAction_clean hword
  cases hother with
  | comment lead' rest hlead' =>
    have hdrop := congrArg (List.dropWhile isBlank) heq
    rw [dropWhile_append_all _ hlead',List.append_assoc,dropWhile_append_all _ hlead] at hdrop
    have hstart : (35 :: rest : Bytes).dropWhile isBlank = 35 :: rest := rfl
    rw [hstart] at hdrop
    cases toUsers with
    | nil => exact absurd (congrArg List.head? hdrop) (by simp [isBlank,colon])
    | cons b toUsers =>
      obtain ⟨hb,hne⟩ := hhead b rfl
      have hhead' := congrArg List.head? hdrop
      simp only [List.cons_append,List.dropWhile_cons_of_neg (by simp [hb] : ¬ isBlank b = true),List.head?_cons,
        Option.some.injEq] at hhead'
      exact hne hhead'.symm
  | blank h =>
    rw [heq] at h
    exact absurd (h colon (by simp)) (by decide)
  | fewColons h =>
    rw [heq] at h
    simp only [List.count_append,List.count_cons_self] at h
    omega
  | @unknown toUsers' fromUsers' act hto' hfrom' h =>
    have hblankLead := (blank_clean hlead).1
    have hfirst : colon ∉ lead ++ toUsers := by
      rw [List.mem_append]
      tauto
    have hwhole : toUsers' ++ colon :: (fromUsers' ++ colon :: act) =
        (lead ++ toUsers) ++ colon :: (fromUsers ++ colon :: (word ++ trail)) := by
      rw [heq]
      simp
    obtain ⟨-,hrest⟩ := cut_unique hto' hfirst hwhole
    obtain ⟨-,hrest⟩ := cut_unique hfrom' hfrom hrest
    have htrim : act.rdropWhile isBlank = word := by
      rw [hrest,rdropWhile_append_all _ htrail]
      apply List.rdropWhile_eq_self_iff.mpr
      intro hne
      rw [List.getLast?_eq_some_getLast hne,Option.some.injEq] at hlast
      rw [hlast,hblank]
      exact Bool.false_ne_true
    rcases suAction_word hword with hw | hw | hw
    · exact h .deny (htrim.trans hw)
    · exact h .nopass (htrim.trans hw)
    · exact h .ownpass (htrim.trans hw)

/-- What the loop gets from a line: the verdict of its last piece. -/
theorem findSome_line (hline : newline ∉ body) (rest : Bytes) :
    (Fgets.pieces newline suauthSize (body ++ newline :: rest)).findSome? (suauthPiece getgrnam actualId wantedId) =
      (suauthPiece getgrnam actualId wantedId (Fgets.overhang suauthSize body ++ [newline])).or
        ((Fgets.pieces newline suauthSize rest).findSome? (suauthPiece getgrnam actualId wantedId)) := by
  obtain ⟨front,hpieces,hfront⟩ := Fgets.pieces_terminated suauthSize (by decide) hline
  have hnone : front.findSome? (suauthPiece getgrnam actualId wantedId) = none :=
    List.findSome?_eq_none_iff.mpr fun piece hpiece => suauthPiece_unterminated (hfront piece hpiece)
  rw [Fgets.pieces_append (by decide) hline,hpieces,List.findSome?_append,List.findSome?_append,hnone]
  simp

private theorem findSome_tail {tail : Bytes} (h : newline ∉ tail) :
    (Fgets.pieces newline suauthSize tail).findSome? (suauthPiece getgrnam actualId wantedId) = none :=
  List.findSome?_eq_none_iff.mpr fun piece hpiece =>
    suauthPiece_unterminated (Fgets.notMem_pieces (by decide) h piece hpiece)

/-- A line that fits is read as it stands. -/
theorem suauthPiece_fits {line : SuauthLine} (h : line.Fits) :
    suauthPiece getgrnam actualId wantedId (line.body ++ [newline]) = line.verdict getgrnam actualId wantedId := by
  cases line with
  | rule r =>
    rw [SuauthLine.body,suauthPiece_rule]
    simp [SuauthLine.verdict,h]
  | other body hline hother =>
    apply Option.eq_none_iff_forall_not_mem.mpr
    exact fun action haction => not_deciding_of_isOther hother ((suauthPiece_iff hline).mp haction)
  | long body hline hlong => exact absurd h (Nat.not_lt.mpr hlong)

private theorem verdict_long {line : SuauthLine} (h : ¬ line.Fits) : line.verdict getgrnam actualId wantedId = none := by
  cases line with
  | rule r => simp [SuauthLine.verdict,h]
  | other body hline hother => rfl
  | long body hline hlong => rfl

/-- The loop finds the first verdict exactly where no over-long line comes in its way. -/
theorem findSome_lines_iff (lines : List SuauthLine) {tail : Bytes} (htail : newline ∉ tail) :
    (Fgets.pieces newline suauthSize (linesText lines tail)).findSome? (suauthPiece getgrnam actualId wantedId) =
      firstVerdict getgrnam actualId wantedId lines ↔ Undisturbed getgrnam actualId wantedId lines := by
  induction lines with
  | nil => exact iff_of_true (findSome_tail htail) trivial
  | cons line rest ih =>
    have htext : linesText (line :: rest) tail = line.body ++ newline :: linesText rest tail := by
      simp [linesText]
    have hfirst : firstVerdict getgrnam actualId wantedId (line :: rest) =
        (line.verdict getgrnam actualId wantedId).or (firstVerdict getgrnam actualId wantedId rest) := by
      rw [firstVerdict,List.findSome?_cons]
      cases line.verdict getgrnam actualId wantedId <;> rfl
    rw [htext,findSome_line line.notMem_body,hfirst,Undisturbed]
    by_cases hfits : line.Fits
    · rw [if_pos hfits,Fgets.overhang_short hfits,suauthPiece_fits hfits]
      cases hverdict : line.verdict getgrnam actualId wantedId with
      | none => simpa using ih
      | some action => simp
    · rw [if_neg hfits,verdict_long hfits,Option.none_or]
      have hover : newline ∉ Fgets.overhang suauthSize line.body := Fgets.notMem_overhang suauthSize line.notMem_body
      cases hpiece : suauthPiece getgrnam actualId wantedId (Fgets.overhang suauthSize line.body ++ [newline]) with
      | none =>
        have hnot : ∀ action, ¬ Deciding getgrnam actualId wantedId (Fgets.overhang suauthSize line.body) action := by
          intro action haction
          rw [(suauthPiece_iff hover).mpr haction] at hpiece
          cases hpiece
        rw [Option.none_or,ih]
        exact ⟨fun h => ⟨fun action haction => absurd haction (hnot action),fun _ => h⟩,fun h => h.2 hnot⟩
      | some action =>
        have hdeciding := (suauthPiece_iff hover).mp hpiece
        rw [Option.some_or]
        constructor
        · intro h
          refine ⟨fun action' haction' => ?_,fun hnone => absurd hdeciding (hnone action)⟩
          rw [(suauthPiece_iff hover).mpr haction'] at hpiece
          rw [← h,hpiece]
        · exact fun h => (h.1 action hdeciding).symm

private theorem verdict_ne_noAction {line : SuauthLine} : line.verdict getgrnam actualId wantedId ≠ some .noAction := by
  cases line with
  | rule r =>
    intro h
    rw [SuauthLine.verdict] at h
    split at h
    · exact r.word.action_ne (Option.some.inj h)
    · cases h
  | other body hline hother => nofun
  | long body hline hlong => nofun

private theorem getD_noAction_inj {x y : Option SuAction} (hx : x ≠ some .noAction) (hy : y ≠ some .noAction) :
    x.getD .noAction = y.getD .noAction ↔ x = y := by
  cases x <;> cases y <;> simp_all [eq_comm]

end Lines

/-- The file is read as it stands exactly where no over-long line comes in the way of its rules. -/
theorem suauth_iff (getgrnam : Bytes → Option Group) (actualId wantedId : Bytes) (file : SuauthText) :
    checkSuAuth getgrnam actualId wantedId (.opened file.text) = file.action getgrnam actualId wantedId ↔
      Undisturbed getgrnam actualId wantedId file.lines := by
  rw [← findSome_lines_iff file.lines file.unterminated]
  apply getD_noAction_inj
  · intro h
    obtain ⟨_,_,_,_,hpiece,_⟩ := List.findSome?_eq_some_iff.mp h
    exact suauthPiece_ne_noAction hpiece
  · intro h
    obtain ⟨_,_,_,_,hverdict,_⟩ := List.findSome?_eq_some_iff.mp h
    exact verdict_ne_noAction hverdict

/-- A comment of 1023 bytes, and one rule behind it in the same line. -/
def longComment : Bytes := 35 :: (List.replicate 1022 120 ++ ascii "root:ALL:NOPASS")

theorem longComment_line : newline ∉ longComment := by
  have hrule : newline ∉ ascii "root:ALL:NOPASS" := by decide +kernel
  unfold longComment
  simp only [List.mem_cons,List.mem_append,List.mem_replicate,not_or]
  exact ⟨by decide,fun h => absurd h.2 (by decide),hrule⟩

def longCommentFile : SuauthText where
  lines := [.other longComment longComment_line (.comment [] _ nofun)]
  tail := []
  unterminated := nofun

/-- A comment that is too long lets everybody become root without a password. -/
theorem long_comment_decides :
    checkSuAuth (fun _ => none) (ascii "mallory") (ascii "root") (.opened longCommentFile.text) ≠
      longCommentFile.action (fun _ => none) (ascii "mallory") (ascii "root") := by
  have htext : longCommentFile.text = longComment ++ newline :: [] := by
    simp [SuauthText.text,linesText,longCommentFile,SuauthLine.body]
  have hover : Fgets.overhang suauthSize longComment = ascii "root:ALL:NOPASS" := by
    have hlength : longComment.length = 1038 := by
      rw [longComment,List.length_cons,List.length_append,List.length_replicate]
      rfl
    rw [Fgets.overhang,hlength]
    have hdrop : (suauthSize - 1) * (1038 / (suauthSize - 1)) = 1022 + 1 := rfl
    rw [hdrop,longComment,List.drop_succ_cons,List.drop_append_of_le_length (by rw [List.length_replicate]),
      List.drop_of_length_le (by rw [List.length_replicate]),List.nil_append]
  have hpiece : suauthPiece (fun _ => none) (ascii "mallory") (ascii "root") (ascii "root:ALL:NOPASS" ++ [newline]) =
      some .noPword := by decide +kernel
  rw [checkSuAuth,htext,findSome_line longComment_line,hover,hpiece]
  intro h
  cases h

end UserDb.Login
