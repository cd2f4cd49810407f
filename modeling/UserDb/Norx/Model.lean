import UserDb.Base.Bytes

/-! Data model of the Norx account store: owned strings, accounts, groups, the
arguments of the administrative calls and the constants they are checked against. -/
namespace UserDb.Norx
open UserDb.Base

def formatHeader : Bytes := ascii "NORX-USERDB 1"
def maxDatabaseBytes : Nat := 64 * 1024
def maxLineBytes : Nat := 512
def maxUsers : Nat := 128
def maxGroups : Nat := 128
def maxNameBytes : Nat := 31
def maxPathBytes : Nat := 255
def maxHashBytes : Nat := 256
def maxPasswordBytes : Nat := 128
def flagDisabled : UInt32 := (1 : UInt32) <<< 0
def flagLocked : UInt32 := (1 : UInt32) <<< 1
def flagExpired : UInt32 := (1 : UInt32) <<< 2
def knownFlags : UInt32 := flagDisabled ||| flagLocked ||| flagExpired
def capAccountAdmin : UInt64 := (1 : UInt64) <<< 8
def capSessionAdmin : UInt64 := (1 : UInt64) <<< 9
def knownCapabilities : UInt64 := capAccountAdmin ||| capSessionAdmin
def argon2idPrefix : Bytes := ascii "$argon2id$v=19$m=65536,t=3,p=1$"
def firstDynamicId : UInt32 := 1000

/-- The ranges the following bytes must lie in after the first byte of a character. -/
private def utf8Follow (b : UInt8) : Option (List (UInt8 × UInt8)) :=
  if b < 0x80 then some []
  else if b < 0xC2 then none
  else if b < 0xE0 then some [(0x80,0xBF)]
  else if b == 0xE0 then some [(0xA0,0xBF),(0x80,0xBF)]
  else if b == 0xED then some [(0x80,0x9F),(0x80,0xBF)]
  else if b < 0xF0 then some [(0x80,0xBF),(0x80,0xBF)]
  else if b == 0xF0 then some [(0x90,0xBF),(0x80,0xBF),(0x80,0xBF)]
  else if b < 0xF4 then some [(0x80,0xBF),(0x80,0xBF),(0x80,0xBF)]
  else if b == 0xF4 then some [(0x80,0x8F),(0x80,0xBF),(0x80,0xBF)]
  else none

private def utf8Step : Option (List (UInt8 × UInt8)) → UInt8 → Option (List (UInt8 × UInt8))
  | none, _ => none
  | some [], b => utf8Follow b
  | some ((low,high) :: ranges), b => if low ≤ b && b ≤ high then some ranges else none

/-- Well-formed UTF-8: no overlong form, no surrogate, nothing above U+10FFFF. -/
def validUtf8 (bytes : Bytes) : Bool := bytes.foldl utf8Step (some []) == some []

/-- An owned string: bytes that are valid UTF-8, and nothing else. -/
structure Text where
  bytes : Bytes
  utf8 : validUtf8 bytes = true
  deriving DecidableEq

@[ext] theorem Text.ext {s t : Text} (h : s.bytes = t.bytes) : s = t := by
  cases s; cases t; congr

def lockedPasswordHash : Text :=
  ⟨ascii "$argon2id$v=19$m=65536,t=3,p=1$bG9ja2VkLXNlbnRpbmVs$bm90LWEtcGFzc3dvcmQ=", by decide⟩

inductive ParseError where
  | empty | tooLarge | invalidHeader | unsupportedVersion | invalidLine | invalidNumber
  | invalidName | invalidPath | invalidHash | unknownFlags | unknownCapabilities
  | duplicate | limit
  deriving DecidableEq, Repr

inductive SerializeError where
  | tooLarge
  deriving DecidableEq, Repr

inductive AuthError where
  | denied
  deriving DecidableEq, Repr

inductive Mutation where
  | changeOwnPassword | modifyAccount | modifyGroup
  deriving DecidableEq, Repr

inductive PasswordChangeError where
  | notFound | denied | oldPasswordRejected | confirmationMismatch | passwordReuse
  | invalidPassword | invalidPolicy | hashFailed | invalidHash
  deriving DecidableEq, Repr

inductive StorageError where
  | missing | unavailable | busy | corrupt | tooLarge
  deriving DecidableEq, Repr

inductive AdminError where
  | permissionDenied | invalidInput | invalidId | invalidHash | duplicate | notFound | limit
  | storage (e : StorageError) | serialization
  deriving DecidableEq, Repr

structure SessionCredentials where
  realUid : UInt32
  effectiveUid : UInt32
  savedUid : UInt32
  realGid : UInt32
  effectiveGid : UInt32
  savedGid : UInt32
  capabilities : UInt64
  deriving DecidableEq

def SessionCredentials.hasCapability (self : SessionCredentials) (capability : UInt64) : Bool :=
  self.capabilities &&& capability == capability

structure UserEntry where
  name : Text
  uid : UInt32
  gid : UInt32
  flags : UInt32
  capabilities : UInt64
  home : Text
  shell : Text
  deriving DecidableEq

structure GroupEntry where
  name : Text
  gid : UInt32
  members : List Text
  deriving DecidableEq

structure Account where
  entry : UserEntry
  passwordHash : Text
  deriving DecidableEq

structure Database where
  accounts : List Account
  groups : List GroupEntry
  deriving DecidableEq

/-- A verifier answers whether a password matches an encoded hash. -/
abbrev PasswordVerifier := Bytes → Bytes → Bool

/-- A hasher encodes a password, or gives up. -/
abbrev PasswordHasher := Bytes → Option Text

structure PasswordPolicy where
  minLength : Nat
  maxLength : Nat
  deriving DecidableEq

def PasswordPolicy.default : PasswordPolicy := ⟨8, maxPasswordBytes⟩

structure UserSpec where
  name : Text
  uid : Option UInt32
  primaryGid : Option UInt32
  supplementaryGroups : List Text
  home : Option Text
  shell : Option Text
  flags : UInt32
  capabilities : UInt64
  deriving DecidableEq

structure UserUpdate where
  name : Option Text := none
  primaryGid : Option UInt32 := none
  supplementaryGroups : Option (List Text) := none
  home : Option Text := none
  shell : Option Text := none
  flags : Option UInt32 := none
  capabilities : Option UInt64 := none
  deriving DecidableEq

structure GroupUpdate where
  name : Option Text := none
  members : Option (List Text) := none
  deriving DecidableEq

end UserDb.Norx
