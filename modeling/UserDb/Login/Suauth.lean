import UserDb.Base.Fgets
import UserDb.Base.Text
import UserDb.Commonio.Group

/-! Who may become whom: the access file of su, read line by line. -/
namespace UserDb.Login
open UserDb.Base UserDb.Commonio

/-- What the file says about a change of identity. -/
inductive SuAction where
  | noAction | noPword | deny | ownPword
  deriving DecidableEq, Repr

/-- How far the words of a list have come. -/
inductive ListState where
  | noControl | all | allExcept | group | allExceptGroup
  deriving DecidableEq, Repr

def isgrp (getgrnam : Bytes → Option Group) (name group : Bytes) : Bool :=
  match getgrnam group with
  | none => false
  | some grp => grp.members.contains name

section Program
variable (getgrnam : Bytes → Option Group)

/-- The loop over the tokens of a list. -/
def appliesFrom (single : Bytes) : ListState → List Bytes → Bool
  | state, [] => state != .noControl && state != .group
  | state, tok :: list =>
    if tok = ascii "ALL" then
      if state = .noControl then appliesFrom single .all list else false
    else if tok = ascii "EXCEPT" then
      if state = .all then appliesFrom single .allExcept list else false
    else if tok = ascii "GROUP" then
      if state = .noControl then appliesFrom single .group list
      else if state = .allExcept then appliesFrom single .allExceptGroup list
      else false
    else
      match state with
      | .noControl => if tok = single then true else appliesFrom single .noControl list
      -- another token is expected after ALL
      | .all => false
      | .allExcept => if tok = single then false else appliesFrom single .allExcept list
      | .group => if isgrp getgrnam single tok then true else appliesFrom single .group list
      | .allExceptGroup => if isgrp getgrnam single tok then false else appliesFrom single .allExceptGroup list

def isListSeparator (b : UInt8) : Bool := b == comma || b == 32

def applies (single list : Bytes) : Bool := appliesFrom getgrnam single .noControl (list.splitOnP isListSeparator)

/-- The action of a rule; any other word is only logged. -/
def suAction (action : Bytes) : Option SuAction :=
  if action = ascii "DENY" then some .deny
  else if action = ascii "NOPASS" then some .noPword
  else if action = ascii "OWNPASS" then some .ownPword
  else none

/-- What is done with one filled buffer: `none` where the loop goes on. -/
def suauthPiece (actualId wantedId : Bytes) (buffer : Bytes) : Option SuAction :=
  let temp := cstring buffer
  -- line too long or missing newline
  if newline ∉ temp then none
  else
    let p := trim isBlank (temp.takeWhile (· != newline))
    if p.head? = some 35 ∨ p = [] then none
    else
      match p.splitOn colon with
      | [toUsers,fromUsers,action] =>
        if applies getgrnam wantedId toUsers && applies getgrnam actualId fromUsers then suAction action else none
      | _ => none

def suauthSize : Nat := 1024

/-- `check_su_auth`. -/
def checkSuAuth (actualId wantedId : Bytes) (file : ConfigFile) : SuAction :=
  match file with
  | .absent => .noAction
  | .unreadable => .deny
  | .opened content => ((Fgets.pieces newline suauthSize content).findSome? (suauthPiece getgrnam actualId wantedId)).getD .noAction

end Program

/-- A text that gives an action: two lists that apply, and the word for the action. -/
structure Deciding (getgrnam : Bytes → Option Group) (actualId wantedId : Bytes) (text : Bytes) (action : SuAction) : Prop where
  whole : 0 ∉ text
  rule : ∃ lead toUsers fromUsers word trail,
    text = lead ++ (toUsers ++ colon :: (fromUsers ++ colon :: word)) ++ trail ∧
      (∀ b ∈ lead, isBlank b = true) ∧ (∀ b ∈ trail, isBlank b = true) ∧
      (∀ b, toUsers.head? = some b → isBlank b = false ∧ b ≠ 35) ∧ colon ∉ toUsers ∧ colon ∉ fromUsers ∧
      applies getgrnam wantedId toUsers = true ∧ applies getgrnam actualId fromUsers = true ∧ suAction word = some action

section Piece
variable {getgrnam : Bytes → Option Group} {actualId wantedId text : Bytes} {action : SuAction}

theorem suAction_word {word : Bytes} (h : suAction word = some action) :
    word = ascii "DENY" ∨ word = ascii "NOPASS" ∨ word = ascii "OWNPASS" := by
  unfold suAction at h
  grind

/-- The words for the actions neither have a colon nor end in a blank. -/
theorem suAction_clean {word : Bytes} (h : suAction word = some action) :
    colon ∉ word ∧ ∃ b, word.getLast? = some b ∧ isBlank b = false := by
  rcases suAction_word h with rfl | rfl | rfl
  · exact ⟨by decide +kernel,_,rfl,rfl⟩
  · exact ⟨by decide +kernel,_,rfl,rfl⟩
  · exact ⟨by decide +kernel,_,rfl,rfl⟩

theorem suauthPiece_unterminated {buffer : Bytes} (h : newline ∉ buffer) : suauthPiece getgrnam actualId wantedId buffer = none :=
  if_pos fun hmem => h (cstring_subset buffer hmem)

/-- A text with its newline, as the loop sees it. -/
theorem suauthPiece_line (hline : newline ∉ text) (hzero : 0 ∉ text) :
    suauthPiece getgrnam actualId wantedId (text ++ [newline]) =
      if (trim isBlank text).head? = some 35 ∨ trim isBlank text = [] then none
      else
        match (trim isBlank text).splitOn colon with
        | [toUsers,fromUsers,action] =>
          if applies getgrnam wantedId toUsers && applies getgrnam actualId fromUsers then suAction action else none
        | _ => none := by
  have hstring : cstring (text ++ [newline]) = text ++ [newline] := by
    apply cstring_eq_self
    intro hmem
    rcases List.mem_append.mp hmem with hmem | hmem
    · exact hzero hmem
    · exact absurd (List.mem_singleton.mp hmem) (by decide)
  have hcut : (text ++ [newline]).takeWhile (· != newline) = text := by
    rw [List.takeWhile_append_of_pos fun b hb => by simpa using ne_of_mem_of_not_mem hb hline]
    simp
  unfold suauthPiece
  simp only [hstring,hcut]
  rw [if_neg (not_not.mpr (List.mem_append_right _ (List.mem_singleton_self newline)))]

private theorem suauthPiece_zero (hzero : 0 ∈ text) (hline : newline ∉ text) :
    suauthPiece getgrnam actualId wantedId (text ++ [newline]) = none := by
  apply if_pos
  intro hmem
  obtain ⟨front,back,rfl,hfront⟩ := List.eq_append_cons_of_mem hzero
  rw [List.append_assoc,List.cons_append,cstring_zero hfront] at hmem
  exact hline (List.mem_append_left _ hmem)

/-- A line of three fields, with the action as its last word. -/
theorem suauthPiece_fields {lead toUsers fromUsers word trail : Bytes} {last : UInt8}
    (hline : newline ∉ lead ++ (toUsers ++ colon :: (fromUsers ++ colon :: word)) ++ trail)
    (hzero : 0 ∉ lead ++ (toUsers ++ colon :: (fromUsers ++ colon :: word)) ++ trail)
    (hlead : ∀ b ∈ lead, isBlank b = true) (htrail : ∀ b ∈ trail, isBlank b = true)
    (hhead : ∀ b, toUsers.head? = some b → isBlank b = false ∧ b ≠ 35)
    (hto : colon ∉ toUsers) (hfrom : colon ∉ fromUsers) (hword : colon ∉ word)
    (hlast : word.getLast? = some last) (hblank : isBlank last = false) :
    suauthPiece getgrnam actualId wantedId (lead ++ (toUsers ++ colon :: (fromUsers ++ colon :: word)) ++ trail ++ [newline]) =
      if applies getgrnam wantedId toUsers && applies getgrnam actualId fromUsers then suAction word else none := by
  have hfirst : ∀ b, (toUsers ++ colon :: (fromUsers ++ colon :: word)).head? = some b → isBlank b = false ∧ b ≠ 35 := by
    intro b hb
    cases toUsers with
    | nil =>
      cases hb
      exact ⟨by decide,by decide⟩
    | cons c toUsers => exact hhead b hb
  have htrim : trim isBlank (lead ++ (toUsers ++ colon :: (fromUsers ++ colon :: word)) ++ trail) =
      toUsers ++ colon :: (fromUsers ++ colon :: word) := by
    apply trim_eq hlead htrail fun b hb => (hfirst b hb).1
    intro b hb
    have hend : (toUsers ++ colon :: (fromUsers ++ colon :: word)).getLast? = some last := by
      simp [List.getLast?_append,List.getLast?_cons,hlast]
    rw [hend] at hb
    cases hb
    exact hblank
  rw [suauthPiece_line hline hzero,htrim,if_neg,splitOn_three hto hfrom hword]
  rintro (h | h)
  · exact (hfirst 35 h).2 rfl
  · simp at h

/-- A line decides exactly where its text is that of a rule that applies. -/
theorem suauthPiece_iff (hline : newline ∉ text) :
    suauthPiece getgrnam actualId wantedId (text ++ [newline]) = some action ↔ Deciding getgrnam actualId wantedId text action := by
  by_cases hzero : 0 ∈ text
  · rw [suauthPiece_zero hzero hline]
    exact iff_of_false nofun fun h => h.whole hzero
  · rw [suauthPiece_line hline hzero]
    constructor
    · intro h
      split at h
      · cases h
      · rename_i hstart
        rw [not_or] at hstart
        split at h
        · rename_i toUsers fromUsers word hsplit
          split at h
          · rename_i happlies
            rw [Bool.and_eq_true] at happlies
            obtain ⟨htext,hto,hfrom,hword⟩ := of_splitOn_three hsplit
            obtain ⟨lead,trail,heq,hlead,htrail⟩ := exists_trim (p := isBlank) text
            refine ⟨hzero,lead,toUsers,fromUsers,word,trail,by rw [← htext]; exact heq,hlead,htrail,?_,hto,hfrom,happlies.1,happlies.2,h⟩
            intro b hb
            have hhead : (trim isBlank text).head? = some b := by rw [htext,List.head?_append,hb]; rfl
            refine ⟨trim_head hhead,?_⟩
            rintro rfl
            exact hstart.1 hhead
          · cases h
        · cases h
    · rintro ⟨_,lead,toUsers,fromUsers,word,trail,rfl,hlead,htrail,hhead,hto,hfrom,happliesTo,happliesFrom,haction⟩
      obtain ⟨hword,last,hlast,hblank⟩ := suAction_clean haction
      rw [← suauthPiece_line hline hzero,suauthPiece_fields hline hzero hlead htrail hhead hto hfrom hword hlast hblank,
        happliesTo,happliesFrom]
      exact haction

private theorem suAction_ne_noAction {word : Bytes} : suAction word ≠ some .noAction := by
  unfold suAction
  split_ifs
  all_goals nofun

theorem suauthPiece_ne_noAction {buffer : Bytes} : suauthPiece getgrnam actualId wantedId buffer ≠ some .noAction := by
  intro h
  unfold suauthPiece at h
  simp only at h
  split at h
  · cases h
  · split at h
    · cases h
    · split at h
      · split at h
        · exact suAction_ne_noAction h
        · cases h
      · cases h

end Piece

end UserDb.Login
