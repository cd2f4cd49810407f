import UserDb.Base.Outcomes
import UserDb.Norx.Model

/-! The field validators that loading and the administrative calls share. -/
namespace UserDb.Norx
open UserDb.Base UserDb.Base.Outcomes

def toText (value : Bytes) : Except ParseError Text :=
  if h : validUtf8 value = true then .ok ⟨value,h⟩ else .error .invalidLine

def isAsciiAlphanumeric (b : UInt8) : Bool :=
  (48 ≤ b && b ≤ 57) || (65 ≤ b && b ≤ 90) || (97 ≤ b && b ≤ 122)

/-- Alphanumeric bytes and the dot, the underscore and the hyphen. -/
def isNameByte (b : UInt8) : Bool := isAsciiAlphanumeric b || b == 46 || b == 95 || b == 45

def parseName (value : Bytes) : Except ParseError Text :=
  if value.isEmpty || value.length > maxNameBytes || value == ascii "." || value == ascii ".." then
    .error .invalidName
  else if !value.all isNameByte then .error .invalidName
  else toText value

def parsePath (value : Bytes) : Except ParseError Text :=
  if value.isEmpty || value.length > maxPathBytes || value.head? != some 47 ||
      value.any (fun b => b < 0x20 || b == colon || b == newline) then
    .error .invalidPath
  else toText value

/-- Checked accumulation of digits below `bound`, shared by both number widths. -/
def parseDecimal (bound : Nat) (value : Bytes) : Except ParseError Nat :=
  if value.isEmpty then .error .invalidNumber
  else value.foldlM (fun result b =>
    if !isDigit b then .error .invalidNumber
    else if result * 10 ≥ bound then .error .invalidNumber
    else if result * 10 + digitValue b ≥ bound then .error .invalidNumber
    else .ok (result * 10 + digitValue b)) 0

def parseU32 (value : Bytes) : Except ParseError UInt32 :=
  (parseDecimal (2^32) value).map UInt32.ofNat

def parseU64 (value : Bytes) : Except ParseError UInt64 :=
  (parseDecimal (2^64) value).map UInt64.ofNat

def isBase64 (b : UInt8) : Bool :=
  (65 ≤ b && b ≤ 90) || (97 ≤ b && b ≤ 122) || (48 ≤ b && b ≤ 57) || b == 43 || b == 47 || b == 61

def dollar : UInt8 := 36

def validatePasswordHash (value : Bytes) : Except ParseError Unit :=
  if value.length < argon2idPrefix.length + 16 || value.length > maxHashBytes then
    .error .invalidHash
  else if !argon2idPrefix.isPrefixOf value then .error .invalidHash
  else
    match (value.drop argon2idPrefix.length).splitOn dollar with
    | salt :: digest :: parts =>
      if !parts.isEmpty || salt.length < 8 || digest.length < 16 ||
          !salt.all isBase64 || !digest.all isBase64 then
        .error .invalidHash
      else .ok ()
    | _ => .error .invalidHash

def validateNameString (value : Text) : Except AdminError Unit :=
  match parseName value.bytes with
  | .ok _ => .ok ()
  | .error _ => .error .invalidInput

def validatePathString (value : Text) : Except AdminError Unit :=
  match parsePath value.bytes with
  | .ok _ => .ok ()
  | .error _ => .error .invalidInput

def validateUserFields (name : Text) (flags : UInt32) (capabilities : UInt64)
    (home shell : Option Text) : Except AdminError Unit := do
  validateNameString name
  reject (flags &&& ~~~knownFlags != 0 || capabilities &&& ~~~knownCapabilities != 0) .invalidInput
  let home ← needed home .invalidInput
  validatePathString home
  let shell ← needed shell .invalidInput
  validatePathString shell

/-- The difference of two byte strings is accumulated over the longer of them. -/
def constantTimeEqual (left right : Bytes) : Bool :=
  (List.range (max left.length right.length)).foldl
    (fun difference index =>
      difference ||| ((left[index]?.getD 0).toNat ^^^ (right[index]?.getD 0).toNat))
    (left.length ^^^ right.length) == 0

def PasswordPolicy.validate (self : PasswordPolicy) (password confirmation : Bytes) :
    Except PasswordChangeError Unit :=
  if self.minLength == 0 || self.minLength > self.maxLength || self.maxLength > maxPasswordBytes then
    .error .invalidPolicy
  else if password.length > self.maxLength || confirmation.length > self.maxLength then
    .error .invalidPassword
  else if !constantTimeEqual password confirmation then .error .confirmationMismatch
  else if password.length < self.minLength || password.length > self.maxLength ||
      password.any (fun b => b == 0 || b == 13 || b == 10) then
    .error .invalidPassword
  else .ok ()

/-- What the loader's name validator accepts. -/
def Text.ValidName (name : Text) : Prop := parseName name.bytes = .ok name
def Text.ValidPath (path : Text) : Prop := parsePath path.bytes = .ok path
def Text.ValidHash (hash : Text) : Prop := validatePasswordHash hash.bytes = .ok ()
def ValidFlags (flags : UInt32) : Prop := flags &&& ~~~knownFlags = 0
def ValidCapabilities (capabilities : UInt64) : Prop := capabilities &&& ~~~knownCapabilities = 0

@[simp] theorem toText_bytes (t : Text) : toText t.bytes = .ok t := by
  simp [toText,t.utf8]

theorem toText_eq_ok {value : Bytes} {t : Text} : toText value = .ok t ↔ value = t.bytes := by
  constructor
  · unfold toText
    split
    · rintro h; cases h; rfl
    · rintro ⟨⟩
  · rintro rfl
    exact toText_bytes t

/-- A parsed name is the text of the very bytes that were parsed. -/
theorem parseName_eq_ok {value : Bytes} {t : Text} :
    parseName value = .ok t ↔ value = t.bytes ∧ t.ValidName := by
  have key : ∀ {v : Bytes}, parseName v = .ok t → v = t.bytes := by
    intro v h
    unfold parseName at h
    split at h
    · cases h
    split at h
    · cases h
    exact toText_eq_ok.mp h
  exact ⟨fun h => ⟨key h, by rw [Text.ValidName,← key h]; exact h⟩, fun ⟨h,hv⟩ => h ▸ hv⟩

theorem parsePath_eq_ok {value : Bytes} {t : Text} :
    parsePath value = .ok t ↔ value = t.bytes ∧ t.ValidPath := by
  have key : ∀ {v : Bytes}, parsePath v = .ok t → v = t.bytes := by
    intro v h
    unfold parsePath at h
    split at h
    · cases h
    exact toText_eq_ok.mp h
  exact ⟨fun h => ⟨key h, by rw [Text.ValidPath,← key h]; exact h⟩, fun ⟨h,hv⟩ => h ▸ hv⟩

@[simp] theorem validateNameString_eq_ok {name : Text} {u : Unit} :
    validateNameString name = .ok u ↔ name.ValidName := by
  unfold validateNameString
  cases h : parseName name.bytes with
  | error e => simp [Text.ValidName,h]
  | ok t =>
    obtain ⟨hb,hv⟩ := parseName_eq_ok.mp h
    rw [← Text.ext hb] at hv
    simpa using hv

@[simp] theorem validatePathString_eq_ok {path : Text} {u : Unit} :
    validatePathString path = .ok u ↔ path.ValidPath := by
  unfold validatePathString
  cases h : parsePath path.bytes with
  | error e => simp [Text.ValidPath,h]
  | ok t =>
    obtain ⟨hb,hv⟩ := parsePath_eq_ok.mp h
    rw [← Text.ext hb] at hv
    simpa using hv

/-- Passing the user check is having a valid name, known bits and two valid paths. -/
theorem validateUserFields_eq_ok {name : Text} {flags : UInt32} {capabilities : UInt64}
    {home shell : Option Text} {u : Unit} :
    validateUserFields name flags capabilities home shell = .ok u ↔
      name.ValidName ∧ ValidFlags flags ∧ ValidCapabilities capabilities ∧
        (∃ h, home = some h ∧ h.ValidPath) ∧ ∃ s, shell = some s ∧ s.ValidPath := by
  simp only [validateUserFields,except_bind_eq_ok,validateNameString_eq_ok,reject_eq_ok,
    needed_eq_ok,validatePathString_eq_ok,Bool.or_eq_false_iff,bne_eq_false_iff_eq,
    exists_and_left,exists_const,ValidFlags,ValidCapabilities]
  tauto

end UserDb.Norx
