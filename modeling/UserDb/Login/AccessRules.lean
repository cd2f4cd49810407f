import UserDb.Base.Exceptions
import UserDb.Defaults.Lines
import UserDb.Login.Access

/-! What the access table says: the first rule for a user and an origin, with exceptions that may have exceptions. -/
namespace UserDb.Login
open UserDb.Base UserDb.Commonio UserDb.Defaults UserDb.Subid

/-- What a pattern for users says. -/
def AccessEnv.userListed (e : AccessEnv) (user tok : Bytes) : Bool :=
  match stpsep atSign tok.tail with
  | (_,none) => e.nameMatch user tok
  | (name,some host) => e.nameMatch user (tok.take 1 ++ name) && e.fromMatch host e.myhostname

/-- What a list of tokens says: its words, but for the exceptions. -/
def listed (hit : Bytes → Bool) (toks : List Bytes) : Bool := exceptListed hit (toks.splitOnP isExcept)

/-- Tokens up to the first host, which is lost. -/
def cutHost : List Bytes → List Bytes
  | [] => []
  | tok :: toks =>
    match stpsep atSign tok with
    | (_,none) => tok :: cutHost toks
    | (name,some _) => [name]

/-- The tokens for users as they are gone through: an empty one cuts those behind it. -/
def heardTokens : List Bytes → List Bytes
  | [] => []
  | tok :: toks => if tok = [] then [] :: cutHost toks else tok :: heardTokens toks

/-- A rule for a user and an origin. -/
def AccessRule.applies (e : AccessEnv) (user origin : Bytes) (rule : AccessRule) : Bool :=
  listed (fun tok => e.fromMatch tok origin) (rule.froms.splitOnP isTokenEnd) &&
    listed (e.userListed user) (rule.users.splitOnP isTokenEnd)

/-- A rule, with the tokens that are gone through. -/
def AccessRule.heard (e : AccessEnv) (user origin : Bytes) (rule : AccessRule) : Bool :=
  listed (fun tok => e.fromMatch tok origin) (rule.froms.splitOnP isTokenEnd) &&
    listed (e.userListed user) (heardTokens (rule.users.splitOnP isTokenEnd))

/-- A rule in which no empty token has a host behind it. -/
def AccessRule.Plain (rule : AccessRule) : Prop :=
  [] ∉ rule.users.splitOnP isTokenEnd ∨ ∀ tok ∈ rule.users.splitOnP isTokenEnd, atSign ∉ tok

instance (rule : AccessRule) : Decidable rule.Plain := inferInstanceAs (Decidable (_ ∨ _))

/-- The rules of a table, in their order. -/
def accessRules (content : Bytes) : List AccessRule := (Fgets.lines newline content).filterMap accessRule

/-- What the first rule that holds says; without one, access is granted. -/
def firstGrant (holds : AccessRule → Bool) (rules : List AccessRule) : Bool := ((rules.find? holds).map AccessRule.grants).getD true

section Tokens
variable {list rest : Bytes}

theorem strsep_cases (list : Bytes) :
    (∀ b ∈ list, isTokenEnd b = false) ∧ strsep list = (list,none) ∨
      ∃ tok sep rest, (∀ b ∈ tok, isTokenEnd b = false) ∧ isTokenEnd sep = true ∧ list = tok ++ sep :: rest ∧
        strsep list = (tok,some rest) := by
  unfold strsep
  cases hdrop : list.dropWhile (fun b => !isTokenEnd b) with
  | nil =>
    have hall := List.dropWhile_eq_nil_iff.mp hdrop
    exact .inl ⟨fun b hb => by simpa using hall b hb,rfl⟩
  | cons sep rest =>
    refine .inr ⟨_,sep,rest,fun b hb => by simpa using List.mem_takeWhile_imp hb,?_,?_,rfl⟩
    · have hhead := List.head?_dropWhile_not (fun b => !isTokenEnd b) list
      rw [hdrop] at hhead
      simpa using hhead
    · rw [← hdrop]
      exact List.takeWhile_append_dropWhile.symm

/-- The tokens that are left. -/
def tokensLeft (list : Option Bytes) : List Bytes := (list.map (List.splitOnP isTokenEnd)).getD []

theorem tokensLeft_some (list : Bytes) : tokensLeft (some list) = (strsep list).1 :: tokensLeft (strsep list).2 := by
  rcases strsep_cases list with ⟨hall,heq⟩ | ⟨tok,sep,rest,hall,hsep,rfl,heq⟩
  · rw [heq]
    exact List.splitOnP_eq_singleton hall
  · rw [heq]
    exact List.splitOnP_append_cons_of_forall_mem hall sep hsep rest

theorem strsep_rest (h : (strsep list).2 = some rest) : rest.length < list.length ∧ rest ⊆ list := by
  rcases strsep_cases list with ⟨_,heq⟩ | ⟨tok,sep,rest',_,_,rfl,heq⟩
  · rw [heq] at h
    cases h
  · rw [heq] at h
    cases h
    refine ⟨?_,fun b hb => List.mem_append_right _ (List.mem_cons_of_mem _ hb)⟩
    rw [List.length_append,List.length_cons]
    omega

end Tokens

section Hosts

/-- A list that is cut at its first host. -/
theorem splitOnP_cutHost (list : Bytes) : (stpsep atSign list).1.splitOnP isTokenEnd = cutHost (list.splitOnP isTokenEnd) := by
  induction list with
  | nil => rfl
  | cons b list ih =>
    obtain ⟨first,more,hsplit⟩ := List.exists_cons_of_ne_nil (List.splitOnP_ne_nil isTokenEnd list)
    rw [hsplit] at ih
    rw [stpsep_cons,List.splitOnP_cons_eq_if_modifyHead,hsplit]
    by_cases hsign : b = atSign
    · have hend : isTokenEnd b = false := hsign ▸ by decide
      rw [if_pos hsign,hend,if_neg Bool.false_ne_true,List.modifyHead_cons,cutHost,stpsep_cons,if_pos hsign]
      rfl
    · rw [if_neg hsign,List.splitOnP_cons_eq_if_modifyHead,ih]
      cases isTokenEnd b with
      | true => rfl
      | false =>
        rw [if_neg Bool.false_ne_true,if_neg Bool.false_ne_true,List.modifyHead_cons,cutHost,cutHost,stpsep_cons,if_neg hsign]
        rcases stpsep atSign first with ⟨name,_ | host⟩
        · rfl
        · rfl

private theorem cutHost_eq {toks : List Bytes} (h : ∀ tok ∈ toks, atSign ∉ tok) : cutHost toks = toks := by
  induction toks with
  | nil => rfl
  | cons tok toks ih =>
    obtain ⟨htok,hrest⟩ := List.forall_mem_cons.mp h
    unfold cutHost
    rw [stpsep_of_notMem htok,ih hrest]

private theorem heardTokens_plain {toks : List Bytes} (h : [] ∉ toks ∨ ∀ tok ∈ toks, atSign ∉ tok) : heardTokens toks = toks := by
  induction toks with
  | nil => rfl
  | cons tok toks ih =>
    unfold heardTokens
    split
    · rename_i hnil
      rcases h with hnonempty | hsign
      · exact absurd (hnil ▸ List.mem_cons_self) hnonempty
      · rw [hnil,cutHost_eq fun tok' htok' => hsign tok' (List.mem_cons_of_mem _ htok')]
    · rw [ih (h.imp (fun hmem hrest => hmem (List.mem_cons_of_mem _ hrest))
        fun hsign tok' htok' => hsign tok' (List.mem_cons_of_mem _ htok'))]

end Hosts

section Lists
variable {matchFn : Bytes → Bytes → Bool × Bytes} {hit : Bytes → Bool} {after : Bytes} {fuel : Nat} {inclusion matched result : Bool}

theorem list_fuel (list : Bytes) : ∀ l, some list = some l → l.length < list.length + 1 := by
  rintro l ⟨⟩
  exact Nat.lt_succ_self _

theorem strsep_fuel {l : Bytes} (hfuel : l.length < fuel + 1) : ∀ rest, (strsep l).2 = some rest → rest.length < fuel := by
  intro rest hrest
  have hlength := (strsep_rest hrest).1
  omega

/-- Where no token changes what is behind it in the list, the loop is one pass over the tokens. -/
theorem listMatchFrom_eq {list : Option Bytes} (hfuel : ∀ l, list = some l → l.length < fuel)
    (hcalm : ∀ tok ∈ tokensLeft list, ∀ behind, behind ⊆ list.getD [] → matchFn tok behind = (hit tok,behind))
    (hafter : ∀ tok ∈ tokensLeft list, (matchFn tok after).1 = hit tok) :
    listMatchFrom matchFn after fuel inclusion matched result list =
      exceptPass isExcept hit inclusion matched result (tokensLeft list) := by
  induction fuel generalizing inclusion matched result list with
  | zero =>
    cases list with
    | none => rfl
    | some l => exact absurd (hfuel l rfl) (Nat.not_lt_zero _)
  | succ fuel ih =>
    cases list with
    | none => rfl
    | some l =>
      have hfuel' := strsep_fuel (hfuel l rfl)
      rw [tokensLeft_some] at hcalm hafter ⊢
      have hmatch : ∃ behind, matchFn (strsep l).1 ((strsep l).2.getD after) = (hit (strsep l).1,behind) ∧
          (strsep l).2.map (fun _ => behind) = (strsep l).2 := by
        cases hsome : (strsep l).2 with
        | none => exact ⟨_,Prod.ext (hafter _ List.mem_cons_self) rfl,rfl⟩
        | some rest => exact ⟨rest,hcalm _ List.mem_cons_self rest (strsep_rest hsome).2,rfl⟩
      have hcalm' : ∀ tok ∈ tokensLeft (strsep l).2, ∀ behind, behind ⊆ (strsep l).2.getD [] → matchFn tok behind = (hit tok,behind) := by
        intro tok htok behind hbehind
        apply hcalm tok (List.mem_cons_of_mem _ htok) behind
        cases hsome : (strsep l).2 with
        | none =>
          rw [hsome] at hbehind
          exact List.Subset.trans hbehind (List.nil_subset _)
        | some rest =>
          rw [hsome] at hbehind
          exact List.Subset.trans hbehind (strsep_rest hsome).2
      obtain ⟨behind,hhit,hrest⟩ := hmatch
      have hpass := fun inclusion matched result =>
        @ih inclusion matched result (strsep l).2 hfuel' hcalm' fun tok htok => hafter tok (List.mem_cons_of_mem _ htok)
      unfold listMatchFrom exceptPass
      simp only [hhit,hrest,hpass]

private theorem listMatch_listed {list : Bytes} (h : ∀ tok behind, matchFn tok behind = (hit tok,behind)) :
    listMatch matchFn after list = listed hit (list.splitOnP isTokenEnd) := by
  unfold listMatch listed
  rw [listMatchFrom_eq (list_fuel list) (fun tok _ behind _ => h tok behind) fun tok _ => by rw [h]]
  exact exceptPass_listed _

end Lists

namespace AccessEnv
variable {e : AccessEnv} {user origin after : Bytes}

/-- A token with a place for its host, or without a host behind it, says what its pattern says, and changes nothing. -/
theorem userMatch_listed {tok behind : Bytes} (h : tok ≠ [] ∨ atSign ∉ behind) :
    e.userMatch user tok behind = (e.userListed user tok,behind) := by
  cases tok with
  | nil =>
    have hnone : stpsep atSign behind = (behind,none) := stpsep_of_notMem (h.resolve_left fun hne => hne rfl)
    simp only [userMatch,hnone]
    rfl
  | cons c tok =>
    rcases hsplit : stpsep atSign tok with ⟨name,_ | host⟩
    · simp only [userMatch,userListed,List.tail_cons,hsplit]
    · simp only [userMatch,userListed,List.tail_cons,hsplit]
      rfl

private theorem nameMatch_nil (huser : user ≠ []) (hgroup : e.getgrnam [] = none) : e.nameMatch user [] = false := by
  have hsame : stringMatch [] user = false := by
    cases user with
    | nil => exact absurd rfl huser
    | cons c user => rfl
  unfold nameMatch
  rw [hsame,hgroup]
  rfl

/-- An empty token is no user, and what is behind it loses its host. -/
theorem userMatch_nil (hname : e.nameMatch user [] = false) (behind : Bytes) :
    e.userMatch user [] behind = (false,(stpsep atSign behind).1) := by
  rcases stpsep_cases atSign behind with ⟨_,heq⟩ | ⟨kept,host,_,_,heq⟩
  · simp only [userMatch,heq,hname]
  · simp only [userMatch,heq,hname,Bool.false_and]

theorem userListed_nil (hname : e.nameMatch user [] = false) : e.userListed user [] = false := hname

/-- Behind an empty token the loop goes through what is left in front of the first host. -/
theorem listMatchFrom_cut (hname : e.nameMatch user [] = false) {fuel : Nat} {inclusion matched result : Bool} {rest : Option Bytes}
    (hfuel : ∀ r, rest = some r → r.length < fuel) :
    listMatchFrom (e.userMatch user) after fuel inclusion matched result (rest.map fun _ => (stpsep atSign (rest.getD after)).1) =
      exceptPass isExcept (e.userListed user) inclusion matched result (cutHost (tokensLeft rest)) := by
  cases rest with
  | none =>
    cases fuel with
    | zero => rfl
    | succ fuel => rfl
  | some rest =>
    have hcut : tokensLeft (some (stpsep atSign rest).1) = cutHost (tokensLeft (some rest)) := splitOnP_cutHost rest
    rw [← hcut]
    apply listMatchFrom_eq
    · rintro r ⟨⟩
      exact (stpsep_length atSign rest).trans_lt (hfuel rest rfl)
    · intro tok _ behind hbehind
      exact userMatch_listed (.inr fun hmem => stpsep_notMem atSign rest (hbehind hmem))
    · intro tok _
      by_cases hnil : tok = []
      · rw [hnil,userMatch_nil hname,userListed_nil hname]
      · rw [userMatch_listed (.inl hnil)]

/-- The loop over the users goes through the tokens that are heard. -/
theorem listMatchFrom_users (hname : e.nameMatch user [] = false) {fuel : Nat} {inclusion matched result : Bool} {list : Option Bytes}
    (hfuel : ∀ l, list = some l → l.length < fuel) :
    listMatchFrom (e.userMatch user) after fuel inclusion matched result list =
      exceptPass isExcept (e.userListed user) inclusion matched result (heardTokens (tokensLeft list)) := by
  induction fuel generalizing inclusion matched result list with
  | zero =>
    cases list with
    | none => rfl
    | some l => exact absurd (hfuel l rfl) (Nat.not_lt_zero _)
  | succ fuel ih =>
    cases list with
    | none => rfl
    | some l =>
      have hfuel' := strsep_fuel (hfuel l rfl)
      rw [tokensLeft_some,heardTokens]
      by_cases htok : (strsep l).1 = []
      · have hexcept : isExcept [] = false := by decide
        have hpass := fun inclusion matched result =>
          @listMatchFrom_cut e user after hname fuel inclusion matched result (strsep l).2 hfuel'
        rw [if_pos htok]
        unfold listMatchFrom exceptPass
        simp only [htok,hexcept,userMatch_nil hname,userListed_nil hname,Bool.false_eq_true,if_false,hpass]
      · have hmatch : e.userMatch user (strsep l).1 ((strsep l).2.getD after) = (e.userListed user (strsep l).1,(strsep l).2.getD after) :=
          userMatch_listed (.inl htok)
        have hbehind : (strsep l).2.map (fun _ => (strsep l).2.getD after) = (strsep l).2 := by
          cases (strsep l).2 with
          | none => rfl
          | some rest => rfl
        have hpass := fun inclusion matched result => @ih inclusion matched result (strsep l).2 hfuel'
        rw [if_neg htok]
        unfold listMatchFrom exceptPass
        simp only [hmatch,hbehind,hpass]

private theorem ruleMatch_heard (hname : e.nameMatch user [] = false) (rule : AccessRule) :
    e.ruleMatch user origin rule = rule.heard e user origin := by
  unfold ruleMatch AccessRule.heard
  rw [listMatch_listed fun _ _ => rfl,listMatch,listMatchFrom_users hname (list_fuel rule.users),exceptPass_listed]
  rfl

private theorem accessLoop_find (hname : e.nameMatch user [] = false) (buffers : List Bytes) :
    e.accessLoop user origin buffers = (buffers.filterMap accessRule).find? (AccessRule.heard e user origin) := by
  induction buffers with
  | nil => rfl
  | cons buffer buffers ih =>
    unfold accessLoop
    cases hrule : accessRule buffer with
    | none =>
      rw [List.filterMap_cons_none hrule]
      exact ih
    | some rule =>
      rw [List.filterMap_cons_some hrule]
      simp only
      rw [ruleMatch_heard hname,ih,List.find?_cons]
      cases rule.heard e user origin with
      | true => rfl
      | false => rfl

private theorem find_plain {rules : List AccessRule} (h : ∀ rule ∈ rules, rule.Plain) :
    rules.find? (AccessRule.heard e user origin) = rules.find? (AccessRule.applies e user origin) := by
  apply List.find?_congr
  intro rule hrule
  unfold AccessRule.heard AccessRule.applies
  rw [heardTokens_plain (h rule hrule)]

/-- The first rule of the table for the user and the origin decides, and without one the login is granted. An empty token
takes the host from a user behind it; where there is none such, the rules are heard as they are written. -/
theorem loginAccess_first_rule {content : Bytes} (huser : user ≠ []) (hgroup : e.getgrnam [] = none)
    (hfits : ∀ line ∈ Fgets.lines newline content, line.length < bufsiz) :
    e.loginAccess user origin (.opened content) = firstGrant (AccessRule.heard e user origin) (accessRules content) ∧
      ((∀ rule ∈ accessRules content, rule.Plain) →
        e.loginAccess user origin (.opened content) = firstGrant (AccessRule.applies e user origin) (accessRules content)) := by
  have hpieces : Fgets.pieces newline bufsiz content = Fgets.lines newline content := by
    rw [Fgets.pieces_eq (by decide) content,List.flatMap_congr fun line hline => Fgets.pieces_fits (by decide) hline (hfits line hline)]
    exact List.flatMap_singleton' _
  have hfind := @accessLoop_find e user origin (nameMatch_nil huser hgroup) (Fgets.lines newline content)
  have hheard : e.loginAccess user origin (.opened content) = firstGrant (AccessRule.heard e user origin) (accessRules content) := by
    simp only [loginAccess,hpieces,hfind]
    unfold firstGrant accessRules
    cases ((Fgets.lines newline content).filterMap accessRule).find? (AccessRule.heard e user origin) with
    | none => rfl
    | some rule => rfl
  refine ⟨hheard,fun hplain => ?_⟩
  rw [hheard,firstGrant,find_plain hplain]
  rfl

end AccessEnv

/-- Groups, netgroups and addresses are unknown. -/
def bareMachine : AccessEnv := ⟨fun _ => none,fun _ _ _ => false,ascii "here",id⟩

/-- Nobody but root at the console. -/
def consoleTable : Bytes := ascii "# console\n-:ALL EXCEPT root:tty1\n+:ALL:ALL\n"

theorem loginAccess_first_rule_console :
    bareMachine.loginAccess (ascii "root") (ascii "tty1") (.opened consoleTable) = true ∧
      bareMachine.loginAccess (ascii "mallory") (ascii "tty1") (.opened consoleTable) = false := by
  have hfits : ∀ line ∈ Fgets.lines newline consoleTable, line.length < bufsiz := by decide +kernel
  have hplain : ∀ rule ∈ accessRules consoleTable, rule.Plain := by decide +kernel
  have hroot := @AccessEnv.loginAccess_first_rule bareMachine (ascii "root") (ascii "tty1") consoleTable (by decide) rfl hfits
  have hmallory := @AccessEnv.loginAccess_first_rule bareMachine (ascii "mallory") (ascii "tty1") consoleTable (by decide) rfl hfits
  exact ⟨(hroot.2 hplain).trans (by decide +kernel),(hmallory.2 hplain).trans (by decide +kernel)⟩

/-- Behind an empty token the host of a user is lost. -/
example : bareMachine.loginAccess (ascii "bob") (ascii "tty1") (.opened (ascii "-:al, bob@there:ALL\n")) = false ∧
    bareMachine.loginAccess (ascii "bob") (ascii "tty1") (.opened (ascii "-:al,bob@there:ALL\n")) = true := by decide +kernel

end UserDb.Login
