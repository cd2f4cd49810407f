import UserDb.Defaults.Values
import UserDb.Login.Porttime
import UserDb.Subid.Deterministic

/-! Who may log in from where: the access table of login, in which the first rule for a user and an origin decides. -/
namespace UserDb.Login
open UserDb.Base UserDb.Commonio UserDb.Defaults UserDb.Subid

/-- What the machine says of groups, netgroups and addresses. -/
structure AccessEnv where
  getgrnam : Bytes → Option Group
  innetgr : Bytes → Option Bytes → Option Bytes → Bool
  myhostname : Bytes
  resolveHostname : Bytes → Bytes

def atSign : UInt8 := 64
def dot : UInt8 := 46
def plusSign : UInt8 := 43
def minusSign : UInt8 := 45

/-- The separators of a list. -/
def isTokenEnd (b : UInt8) : Bool := b == comma || b == 32 || b == 9

/-- The first token, and what is behind its separator. -/
def strsep (list : Bytes) : Bytes × Option Bytes :=
  match list.dropWhile (fun b => !isTokenEnd b) with
  | [] => (list,none)
  | _ :: rest => (list.takeWhile (fun b => !isTokenEnd b),some rest)

def isExcept (tok : Bytes) : Bool := strcaseeq tok (ascii "EXCEPT")

def stringMatch (tok string : Bytes) : Bool := strcaseeq tok (ascii "ALL") || strcaseeq tok string

namespace AccessEnv
variable (e : AccessEnv) (user origin : Bytes)

def fromMatch (tok string : Bytes) : Bool :=
  if tok.head? == some atSign then e.innetgr tok.tail (some string) none
  else if stringMatch tok string then true
  else if tok.head? == some dot then
    decide (tok.length < string.length) && strcaseeq tok (string.drop (string.length - tok.length))
  else if strcaseeq tok (ascii "LOCAL") then !string.contains dot
  -- a network number
  else tok.getLast? == some dot && tok.isPrefixOf (e.resolveHostname string)

/-- A token that has no host: a netgroup, a user, or a group in which the user is listed. -/
def nameMatch (tok : Bytes) : Bool :=
  if tok.head? == some atSign then e.innetgr tok.tail none (some user)
  else if stringMatch tok user then true
  else
    match e.getgrnam tok with
    | none => false
    | some group => group.members.any (strcaseeq user)

/-- A token with what the memory has behind it. The host is looked for from the second place of the token on, which
is behind its end where it is empty; what is found there loses its host. -/
def userMatch : Bytes → Bytes → Bool × Bytes
  | [], behind =>
    match stpsep atSign behind with
    | (_,none) => (e.nameMatch user [],behind)
    | (kept,some host) => (e.nameMatch user [] && e.fromMatch host e.myhostname,kept)
  | c :: tok, behind =>
    match stpsep atSign tok with
    | (_,none) => (e.nameMatch user (c :: tok),behind)
    | (name,some host) => (e.nameMatch user (c :: name) && e.fromMatch host e.myhostname,behind)

end AccessEnv

/-- The loop over the tokens of a list; `after` is what the memory has behind the list. -/
def listMatchFrom (matchFn : Bytes → Bytes → Bool × Bytes) (after : Bytes) : Nat → Bool → Bool → Bool → Option Bytes → Bool
  | _, _, _, result, none => result
  | 0, _, _, result, some _ => result
  | fuel + 1, inclusion, matched, result, some list =>
    let (tok,rest) := strsep list
    if isExcept tok then
      if !matched then result else listMatchFrom matchFn after fuel (!inclusion) false result rest
    else
      let (hit,behind) := matchFn tok (rest.getD after)
      let rest := rest.map fun _ => behind
      if hit then listMatchFrom matchFn after fuel inclusion true inclusion rest
      else listMatchFrom matchFn after fuel inclusion matched result rest

def listMatch (matchFn : Bytes → Bytes → Bool × Bytes) (after list : Bytes) : Bool :=
  listMatchFrom matchFn after (list.length + 1) true false false (some list)

/-- The three fields of a line. -/
structure AccessRule where
  perm : Bytes
  users : Bytes
  froms : Bytes

def AccessRule.grants (rule : AccessRule) : Bool := rule.perm.head? == some plusSign

/-- The rule that a buffer holds; what is not one is only logged. -/
def accessRule (buffer : Bytes) : Option AccessRule :=
  match stpsep newline (cstring buffer) with
  | (_,none) => none
  | (line,some _) =>
    if line.head? = some 35 then none
    else
      let line := line.rdropWhile isBlank
      if line = [] then none
      else
        match line.splitOn colon with
        | [perm,users,froms] => if perm.head? = some plusSign ∨ perm.head? = some minusSign then some ⟨perm,users,froms⟩ else none
        | _ => none

namespace AccessEnv
variable (e : AccessEnv) (user origin : Bytes)

/-- The origins are behind the users, and their first token has its end already. -/
def ruleMatch (rule : AccessRule) : Bool :=
  listMatch (fun tok behind => (e.fromMatch tok origin,behind)) [] rule.froms &&
    listMatch (e.userMatch user) (strsep rule.froms).1 rule.users

def accessLoop : List Bytes → Option AccessRule
  | [] => none
  | buffer :: buffers =>
    match accessRule buffer with
    | none => accessLoop buffers
    | some rule => if e.ruleMatch user origin rule then some rule else accessLoop buffers

/-- `login_access`: without a table, and without a rule, there is no control. -/
def loginAccess (file : ConfigFile) : Bool :=
  match file with
  | .absent | .unreadable => true
  | .opened content =>
    match e.accessLoop user origin (Fgets.pieces newline bufsiz content) with
    | none => true
    | some rule => rule.grants

end AccessEnv

end UserDb.Login
