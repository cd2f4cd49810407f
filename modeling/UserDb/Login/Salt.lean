import UserDb.Atoi.Strtoi
import UserDb.Base.Memory
import UserDb.Login.Getdef
import UserDb.Numbers.Random

/-! The setting that a password is hashed with: the prefix of the method, its cost, and random characters. -/
namespace UserDb.Login.Salt
open UserDb.Base UserDb.Base.Memory UserDb.Atoi UserDb.Numbers

def GENSALT_SETTING_SIZE : Nat := 100
def MAX_SALT_SIZE : Nat := 44
def MIN_SALT_SIZE : Nat := 8
def SHA_ROUNDS_DEFAULT : UInt64 := 5000
def Y_COST_DEFAULT : Int := 5
def Y_COST_MIN : UInt64 := 1
def Y_COST_MAX : UInt64 := 11

def dollar : UInt8 := 36

/-- `getdef_long` and `getdef_num`, which differ in the largest number. -/
def getdefSigned (max : Int) (defs : Defs) (item : Bytes) (dflt : Int) : Int :=
  match getdefStr defs item with
  | none => dflt
  | some value =>
    match strtoi value 0 (-1) max with
    | (n,.success) => n
    | _ => dflt

def getdefLong : Defs → Bytes → Int → Int := getdefSigned (2^63 - 1)
def getdefNum : Defs → Bytes → Int → Int := getdefSigned (2^31 - 1)

/-- A signed number as an `unsigned long`. -/
def toUlong (n : Int) : UInt64 := UInt64.ofNat (unsigned 64 n)

/-- A long in memory. -/
def longMemory (n : Int) : Bytes := storeBytes 8 (unsigned 64 n)

/-- An int that is read from memory. -/
def readInt (memory : Bytes) : Int := signed 32 (loadBytes (memory.take 4))

/-- The items and bounds of a method with rounds. -/
structure Rounds where
  minItem : Bytes
  maxItem : Bytes
  dflt : UInt64
  min : UInt64
  max : UInt64

def shaRounds : Rounds := ⟨ascii "SHA_CRYPT_MIN_ROUNDS",ascii "SHA_CRYPT_MAX_ROUNDS",SHA_ROUNDS_DEFAULT,1000,999999999⟩
def bcryptRounds : Rounds := ⟨ascii "BCRYPT_MIN_ROUNDS",ascii "BCRYPT_MAX_ROUNDS",13,4,19⟩

/-- The rounds by the configuration; there are none as long as the draws are rejected. -/
def configuredRounds (method : Rounds) (defs : Defs) (draws : List UInt64) : Option UInt64 :=
  let minRounds := getdefLong defs method.minItem (-1)
  let maxRounds := getdefLong defs method.maxItem (-1)
  if minRounds = -1 ∧ maxRounds = -1 then some method.dflt
  else
    let minRounds := if minRounds = -1 then maxRounds else minRounds
    let maxRounds := if maxRounds = -1 then minRounds else maxRounds
    let maxRounds := if maxRounds < minRounds then minRounds else maxRounds
    csrandInterval (toUlong minRounds) (toUlong maxRounds) draws

def clampCost (min max cost : UInt64) : UInt64 :=
  let cost := if cost < min then min else cost
  if max < cost then max else cost

/-- `SHA_get_salt_rounds` and `BCRYPT_get_salt_rounds`; the pointer is to an int. -/
def getSaltRounds (method : Rounds) (defs : Defs) (draws : List UInt64) (preferedRounds : Option Bytes) : Option UInt64 :=
  let rounds := match preferedRounds with
    | none => configuredRounds method defs draws
    | some memory => some (if readInt memory = 0 then method.dflt else toUlong (readInt memory))
  rounds.map (clampCost method.min method.max)

def shaGetSaltRounds : Defs → List UInt64 → Option Bytes → Option UInt64 := getSaltRounds shaRounds
def bcryptGetSaltRounds : Defs → List UInt64 → Option Bytes → Option UInt64 := getSaltRounds bcryptRounds

def yescryptGetSaltCost (defs : Defs) (preferedCost : Option Bytes) : UInt64 :=
  let cost := match preferedCost with
    | none => toUlong (getdefNum defs (ascii "YESCRYPT_COST_FACTOR") Y_COST_DEFAULT)
    | some memory => toUlong (if readInt memory = 0 then Y_COST_DEFAULT else readInt memory)
  clampCost Y_COST_MIN Y_COST_MAX cost

/-- A text at the end of the buffer, cut to a size; an assertion stops the program where there may be no room. -/
def putText (buf : Bytes) (room : Nat) (text : Bytes) : Option Bytes :=
  if GENSALT_SETTING_SIZE ≤ buf.length + room then none else some (buf ++ text.take room)

def shaSaltRoundsToBuf (buf : Bytes) (rounds : UInt64) : Option Bytes :=
  if rounds = SHA_ROUNDS_DEFAULT then some buf else putText buf 17 (ascii "rounds=" ++ numeral rounds.toNat ++ [dollar])

def twoDigits (n : Nat) : Bytes := if n < 10 then 48 :: numeral n else numeral n

def bcryptSaltRoundsToBuf (buf : Bytes) (rounds : UInt64) : Option Bytes := putText buf 3 (twoDigits rounds.toNat ++ [dollar])

def yescryptSaltCostToBuf (buf : Bytes) (cost : UInt64) : Option Bytes :=
  let letter : Nat := (if cost < 3 then 0x36 else if cost < 6 then 0x34 else 0x3b) + cost.toNat
  putText buf 4 [106,letter.toUInt8,if 3 ≤ cost then 84 else 53,dollar]

/-- The salt with one more string, where the buffer has room. -/
def strcatSalt (salt s : Bytes) : Option Bytes := if salt.length + s.length + 1 ≤ MAX_SALT_SIZE + 6 then some (salt ++ s) else none

/-- The loop of `gensalt`; it has no result where it takes more draws. -/
def gensaltLoop (l64a : UInt64 → Bytes) (saltSize : Nat) : List UInt64 → Bytes → Option Bytes
  | [], _ => none
  | draw :: draws, salt =>
    (strcatSalt salt (l64a draw)).bind fun salt => if salt.length < saltSize then gensaltLoop l64a saltSize draws salt else some salt

def gensalt (l64a : UInt64 → Bytes) (saltSize : Nat) (draws : List UInt64) : Option Bytes :=
  if saltSize < MIN_SALT_SIZE ∨ MAX_SALT_SIZE < saltSize then none
  else
    match draws with
    | [] => none
    | draw :: draws => ((strcatSalt [] (l64a draw)).bind (gensaltLoop l64a saltSize draws)).map (·.take saltSize)

inductive CryptMethod where
  | sha256 | sha512 | bcrypt | yescrypt
  deriving DecidableEq, Repr

namespace CryptMethod

def name : CryptMethod → Bytes
  | .sha256 => ascii "SHA256"
  | .sha512 => ascii "SHA512"
  | .bcrypt => ascii "BCRYPT"
  | .yescrypt => ascii "YESCRYPT"

/-- The methods that are compiled in. -/
def isIn (build : DefsBuild) : CryptMethod → Bool
  | .sha256 | .sha512 => true
  | .bcrypt => build.useBcrypt
  | .yescrypt => build.useYescrypt

def magic : CryptMethod → Bytes
  | .sha256 => ascii "$5$"
  | .sha512 => ascii "$6$"
  | .bcrypt => ascii "$2b$"
  | .yescrypt => ascii "$y$"

def saltSize : CryptMethod → Nat
  | .sha256 | .sha512 => 16
  | .bcrypt => 22
  | .yescrypt => 24

end CryptMethod

/-- Every other name is taken for SHA512. -/
def methodNamed (build : DefsBuild) (method : Bytes) : CryptMethod :=
  if method = ascii "SHA256" then .sha256
  else if build.useBcrypt ∧ method = ascii "BCRYPT" then .bcrypt
  else if build.useYescrypt ∧ method = ascii "YESCRYPT" then .yescrypt
  else .sha512

/-- The prefix and the cost. -/
def settingPrefix (defs : Defs) (draws : List UInt64) (arg : Option Bytes) (method : CryptMethod) : Option Bytes :=
  match method with
  | .sha256 | .sha512 => (shaGetSaltRounds defs draws arg).bind (shaSaltRoundsToBuf method.magic)
  | .bcrypt => (bcryptGetSaltRounds defs draws arg).bind (bcryptSaltRoundsToBuf method.magic)
  | .yescrypt => yescryptSaltCostToBuf method.magic (yescryptGetSaltCost defs arg)

/-- `crypt_make_salt`, with what `csrand` returns while the cost is chosen and behind that. -/
def cryptMakeSalt (build : DefsBuild) (l64a : UInt64 → Bytes) (defs : Defs) (costDraws saltDraws : List UInt64) (meth : Option Bytes)
    (arg : Option Bytes) : Option Bytes :=
  let method := methodNamed build ((meth.or (getdefStr defs (ascii "ENCRYPT_METHOD"))).getD (ascii "SHA512"))
  (settingPrefix defs costDraws arg method).bind fun result =>
    if GENSALT_SETTING_SIZE ≤ result.length + method.saltSize then none
    else (gensalt l64a method.saltSize saltDraws).map fun salt => result ++ salt.take (GENSALT_SETTING_SIZE - result.length - 1)

end UserDb.Login.Salt
