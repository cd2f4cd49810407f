import UserDb.Login.SaltCost

/-! The options of `chpasswd`, and the setting that it has the passwords hashed with. -/
namespace UserDb.Programs.Chpasswd
open UserDb.Base UserDb.Base.Memory UserDb.Atoi UserDb.Login UserDb.Login.Salt

/-- The options, apart from those that other functions look at. -/
inductive ChpasswdOption where
  | cryptMethod (name : Bytes)
  | encrypted
  | rounds (text : Bytes)
  deriving DecidableEq, Repr

structure ChpasswdFlags where
  eflg : Bool
  sflg : Bool
  cryptMethod : Option Bytes
  shaRounds : Int
  bcryptRounds : Int
  yescryptCost : Int
  deriving DecidableEq, Repr

def initialFlags : ChpasswdFlags := ⟨false,false,none,5000,13,5⟩

/-- `IS_CRYPT_METHOD` -/
def ChpasswdFlags.isMethod (flags : ChpasswdFlags) (name : Bytes) : Bool := flags.cryptMethod == some name

def str2sl (s : Bytes) : Option Int :=
  match strtoi s 0 (-(2^63)) (2^63 - 1) with
  | (n,.success) => some n
  | _ => none

/-- What is read for the methods of the last `-c`; there are no flags where the program prints its usage. -/
def processOption (build : DefsBuild) (flags : ChpasswdFlags) : ChpasswdOption → Option ChpasswdFlags
  | .cryptMethod name => some { flags with cryptMethod := some name }
  | .encrypted => some { flags with eflg := true }
  | .rounds text =>
    let flags := { flags with sflg := true }
    if flags.isMethod (ascii "SHA256") || flags.isMethod (ascii "SHA512") then
      (str2sl text).map fun n => { flags with shaRounds := n }
    else if build.useBcrypt && flags.isMethod (ascii "BCRYPT") then (str2sl text).map fun n => { flags with bcryptRounds := n }
    else if build.useYescrypt && flags.isMethod (ascii "YESCRYPT") then (str2sl text).map fun n => { flags with yescryptCost := n }
    else some flags

def checkFlags (build : DefsBuild) (flags : ChpasswdFlags) : Bool :=
  let cflg := flags.cryptMethod.isSome
  if flags.sflg && !cflg then false
  else if flags.eflg && cflg then false
  else !cflg || flags.isMethod (ascii "NONE") || flags.isMethod (ascii "SHA256") || flags.isMethod (ascii "SHA512") ||
    (build.useBcrypt && flags.isMethod (ascii "BCRYPT")) || (build.useYescrypt && flags.isMethod (ascii "YESCRYPT"))

def processFlags (build : DefsBuild) (options : List ChpasswdOption) : Option ChpasswdFlags :=
  (options.foldlM (processOption build) initialFlags).bind fun flags => if checkFlags build flags then some flags else none

/-- The memory that the pointer for `crypt_make_salt` is to. -/
def saltArgument (build : DefsBuild) (flags : ChpasswdFlags) : Option Bytes :=
  if !flags.sflg then none
  else if flags.isMethod (ascii "SHA256") || flags.isMethod (ascii "SHA512") then some (longMemory flags.shaRounds)
  else if build.useBcrypt && flags.isMethod (ascii "BCRYPT") then some (longMemory flags.bcryptRounds)
  else if build.useYescrypt && flags.isMethod (ascii "YESCRYPT") then some (longMemory flags.yescryptCost)
  else none

/-- `get_salt`; no setting where the passwords are taken as they are. -/
def getSalt (build : DefsBuild) (l64a : UInt64 → Bytes) (defs : Defs) (costDraws saltDraws : List UInt64) (flags : ChpasswdFlags) :
    Option (Option Bytes) :=
  if flags.eflg || flags.isMethod (ascii "NONE") then some none
  else (cryptMakeSalt build l64a defs costDraws saltDraws flags.cryptMethod (saltArgument build flags)).map some

/-- The variable of a method. -/
def ChpasswdFlags.roundsOf (flags : ChpasswdFlags) : CryptMethod → Int
  | .sha256 | .sha512 => flags.shaRounds
  | .bcrypt => flags.bcryptRounds
  | .yescrypt => flags.yescryptCost

section Flags
variable {build : DefsBuild} {flags flags' : ChpasswdFlags} {options : List ChpasswdOption} {method : CryptMethod}

/-- The numbers of the flags are longs. -/
def LongFlags (flags : ChpasswdFlags) : Prop := ∀ method, flags.roundsOf method < 2^63

private theorem str2sl_lt {s : Bytes} {n : Int} (h : str2sl s = some n) : n < 2^63 := by
  unfold str2sl at h
  split at h
  · rename_i m hm
    obtain rfl := Option.some.inj h
    exact Int.lt_of_le_sub_one (strtoi_le (by norm_num) hm)
  · cases h

private theorem processOption_long {option : ChpasswdOption} (hlong : LongFlags flags)
    (h : processOption build flags option = some flags') : LongFlags flags' := by
  cases option with
  | cryptMethod name =>
    obtain rfl := Option.some.inj h
    intro method
    have := hlong method
    cases method <;> exact this
  | encrypted =>
    obtain rfl := Option.some.inj h
    intro method
    have := hlong method
    cases method <;> exact this
  | rounds text =>
    unfold processOption at h
    simp only at h
    split at h
    · obtain ⟨n,hn,rfl⟩ := Option.map_eq_some_iff.mp h
      intro method
      have := hlong method
      cases method <;> first | exact str2sl_lt hn | exact this
    · split at h
      · obtain ⟨n,hn,rfl⟩ := Option.map_eq_some_iff.mp h
        intro method
        have := hlong method
        cases method <;> first | exact str2sl_lt hn | exact this
      · split at h
        · obtain ⟨n,hn,rfl⟩ := Option.map_eq_some_iff.mp h
          intro method
          have := hlong method
          cases method <;> first | exact str2sl_lt hn | exact this
        · obtain rfl := Option.some.inj h
          intro method
          have := hlong method
          cases method <;> exact this

theorem processFlags_accepted (h : processFlags build options = some flags) :
    options.foldlM (processOption build) initialFlags = some flags ∧ checkFlags build flags = true := by
  unfold processFlags at h
  obtain ⟨flags',hrun,hcheck⟩ := Option.bind_eq_some_iff.mp h
  split at hcheck
  · rename_i hok
    obtain rfl := Option.some.inj hcheck
    exact ⟨hrun,hok⟩
  · cases hcheck

private theorem processFlags_long (h : processFlags build options = some flags) : LongFlags flags := by
  have hrun : ∀ start, LongFlags start → options.foldlM (processOption build) start = some flags → LongFlags flags := by
    clear h
    induction options with
    | nil =>
      intro start hstart h
      exact Option.some.inj h ▸ hstart
    | cons option options ih =>
      intro start hstart h
      rw [List.foldlM_cons,Option.bind_eq_bind] at h
      obtain ⟨next,hnext,h⟩ := Option.bind_eq_some_iff.mp h
      exact ih next (processOption_long hstart hnext) h
  refine hrun initialFlags ?_ (processFlags_accepted h).1
  intro method
  cases method <;> decide

private theorem name_beq (method method' : CryptMethod) : (method.name == method'.name) = decide (method = method') := by
  cases method <;> cases method' <;> decide +kernel

/-- Which of the tests for a method succeeds. -/
theorem isMethod_name (hmethod : flags.cryptMethod = some method.name) (method' : CryptMethod) :
    flags.isMethod method'.name = decide (method = method') := by
  rw [ChpasswdFlags.isMethod,hmethod,← name_beq]
  rfl

/-- Options that were accepted with a method that is compiled in have it use its own variable. -/
theorem getSalt_eq (h : processFlags build options = some flags) (hsflg : flags.sflg = true)
    (hmethod : flags.cryptMethod = some method.name) (hbuild : method.isIn build = true) (l64a : UInt64 → Bytes) (defs : Defs)
    (costDraws saltDraws : List UInt64) : getSalt build l64a defs costDraws saltDraws flags =
      (cryptMakeSalt build l64a defs costDraws saltDraws (some method.name) (some (longMemory (flags.roundsOf method)))).map some := by
  have hcheck := (processFlags_accepted h).2
  have heflg : flags.eflg = false := by
    cases heflg : flags.eflg with
    | false => rfl
    | true =>
      unfold checkFlags at hcheck
      simp [hmethod,heflg] at hcheck
  have hnone : flags.isMethod (ascii "NONE") = false := by
    rw [ChpasswdFlags.isMethod,hmethod]
    cases method <;> decide +kernel
  have hargument : saltArgument build flags = some (longMemory (flags.roundsOf method)) := by
    have h256 := isMethod_name hmethod .sha256
    have h512 := isMethod_name hmethod .sha512
    have hbcrypt := isMethod_name hmethod .bcrypt
    have hyescrypt := isMethod_name hmethod .yescrypt
    unfold CryptMethod.name at h256 h512 hbcrypt hyescrypt
    unfold saltArgument
    rw [hsflg,h256,h512,hbcrypt,hyescrypt]
    cases method with
    | sha256 => rfl
    | sha512 => rfl
    | bcrypt =>
      have hbuild' : build.useBcrypt = true := hbuild
      rw [hbuild']
      rfl
    | yescrypt =>
      have hbuild' : build.useYescrypt = true := hbuild
      rw [hbuild']
      cases build.useBcrypt <;> rfl
  unfold getSalt
  rw [heflg,hnone,hmethod,hargument]
  rfl

end Flags

section Cost
variable {build : DefsBuild} {l64a : UInt64 → Bytes} {flags : ChpasswdFlags} {options : List ChpasswdOption} {method : CryptMethod}
  {saltDraws : List UInt64} {r : Nat}

/-- The setting for accepted options says what the low half of the number asks for. -/
theorem getSalt_encodes (hl64a : SaltText l64a) (h : processFlags build options = some flags) (hsflg : flags.sflg = true)
    (hmethod : flags.cryptMethod = some method.name) (hbuild : method.isIn build = true) (hr : flags.roundsOf method = r)
    (hsalt : method.saltSize ≤ (saltDraws.flatMap l64a).length) (defs : Defs) (costDraws : List UInt64) : ∃ setting,
      getSalt build l64a defs costDraws saltDraws flags = some (some setting) ∧ Encodes method (method.askedCost (r % 2^32)) setting := by
  have hlong : r < 2^63 := by
    have := processFlags_long h method
    omega
  obtain ⟨cost,hchosen,hcost⟩ := chosenCost_asked defs costDraws method hlong
  obtain ⟨setting,hsetting,hencodes⟩ := cryptMakeSalt_spec hl64a hbuild hsalt hchosen (hcost ▸ (askedCost_bounds method _).2)
  refine ⟨setting,?_,hcost ▸ hencodes⟩
  rw [getSalt_eq h hsflg hmethod hbuild,hr,hsetting]
  rfl

/-- It says what the number asks for exactly when the number fits an int or its low half asks for the largest cost. -/
theorem getSalt_encodes_iff (hl64a : SaltText l64a) (h : processFlags build options = some flags) (hsflg : flags.sflg = true)
    (hmethod : flags.cryptMethod = some method.name) (hbuild : method.isIn build = true) (hr : flags.roundsOf method = r)
    (hsalt : method.saltSize ≤ (saltDraws.flatMap l64a).length) (defs : Defs) (costDraws : List UInt64) :
    (∃ setting, getSalt build l64a defs costDraws saltDraws flags = some (some setting) ∧ Encodes method (method.askedCost r) setting) ↔
      r < 2^32 ∨ method.maxCost ≤ r % 2^32 := by
  obtain ⟨setting,hsetting,hencodes⟩ := getSalt_encodes hl64a h hsflg hmethod hbuild hr hsalt defs costDraws
  rw [← askedCost_low_iff]
  constructor
  · rintro ⟨setting',hsetting',hencodes'⟩
    obtain rfl := Option.some.inj (Option.some.inj (hsetting.symm.trans hsetting'))
    exact encodes_unique (askedCost_bounds method _) (askedCost_bounds method _) hencodes hencodes'
  · intro hsame
    exact ⟨setting,hsetting,hsame ▸ hencodes⟩

/-- The cost that is asked for is used for the numbers that fit an int, and for larger ones whose low half asks for the largest cost
as well; without a number it is one of the configured costs. -/
theorem chpasswd_cost_iff (build : DefsBuild) (l64a : UInt64 → Bytes) (hl64a : SaltText l64a) (options : List ChpasswdOption)
    (flags : ChpasswdFlags) (h : processFlags build options = some flags) (hsflg : flags.sflg = true) (method : CryptMethod)
    (hmethod : flags.cryptMethod = some method.name) (hbuild : method.isIn build = true) (r : Nat) (hr : flags.roundsOf method = r)
    (defs : Defs) (costDraws saltDraws : List UInt64) (hsalt : method.saltSize ≤ (saltDraws.flatMap l64a).length) :
    ((∃ setting, getSalt build l64a defs costDraws saltDraws flags = some (some setting) ∧ Encodes method (method.askedCost r) setting) ↔
      r < 2^32 ∨ method.maxCost ≤ r % 2^32) ∧ ConfiguredCost build l64a :=
  ⟨getSalt_encodes_iff hl64a h hsflg hmethod hbuild hr hsalt defs costDraws,configuredCost build hl64a⟩

def fullBuild : DefsBuild := ⟨false,true,true,false⟩

/-- `-c SHA512 -s 4294967297` -/
def largeRounds : List ChpasswdOption := [.cryptMethod (ascii "SHA512"),.rounds (ascii "4294967297")]

def largeFlags : ChpasswdFlags := ⟨false,true,some (ascii "SHA512"),4294967297,13,5⟩

theorem largeRounds_accepted : processFlags fullBuild largeRounds = some largeFlags := by decide +kernel

/-- Four draws whose texts have six characters. -/
def sixteenDraws : List UInt64 := List.replicate 4 4294967295

theorem sixteenDraws_enough : CryptMethod.sha512.saltSize ≤ (sixteenDraws.flatMap standardL64a).length := by decide +kernel

/-- `-c SHA512 -s 20000` -/
def someRounds : List ChpasswdOption := [.cryptMethod (ascii "SHA512"),.rounds (ascii "20000")]

def someFlags : ChpasswdFlags := ⟨false,true,some (ascii "SHA512"),20000,13,5⟩

private theorem someRounds_accepted : processFlags fullBuild someRounds = some someFlags := by decide +kernel

/-- For `-s 20000` the setting says so; for `-s 4294967297` it is not for the largest number of rounds. -/
theorem chpasswd_cost_iff_large :
    (∃ setting, getSalt fullBuild standardL64a ⟨[],[]⟩ [] sixteenDraws someFlags = some (some setting) ∧
      ascii "$6$rounds=20000$" <+: setting ∧ Encodes .sha512 (CryptMethod.sha512.askedCost 20000) setting) ∧
    ((∃ setting, getSalt fullBuild standardL64a ⟨[],[]⟩ [] sixteenDraws largeFlags = some (some setting) ∧
      Encodes .sha512 (CryptMethod.sha512.askedCost 4294967297) setting) ↔
        4294967297 < 2^32 ∨ CryptMethod.sha512.maxCost ≤ 4294967297 % 2^32) ∧ ConfiguredCost fullBuild standardL64a := by
  obtain ⟨hsome,_⟩ := chpasswd_cost_iff fullBuild standardL64a standardL64a_text someRounds someFlags someRounds_accepted rfl .sha512
    rfl rfl 20000 rfl ⟨[],[]⟩ [] sixteenDraws sixteenDraws_enough
  obtain ⟨setting,hsetting,hencodes⟩ := hsome.mpr (.inl (by decide))
  have hprefix : ((getSalt fullBuild standardL64a ⟨[],[]⟩ [] sixteenDraws someFlags).bind id).any fun setting =>
      (ascii "$6$rounds=20000$").isPrefixOf setting := by decide +kernel
  rw [hsetting] at hprefix
  refine ⟨⟨setting,hsetting,List.isPrefixOf_iff_prefix.mp hprefix,hencodes⟩,?_⟩
  exact chpasswd_cost_iff fullBuild standardL64a standardL64a_text largeRounds largeFlags largeRounds_accepted rfl .sha512 rfl rfl
    4294967297 rfl ⟨[],[]⟩ [] sixteenDraws sixteenDraws_enough

/-- The setting for `-s 4294967297` does not say the number clamped to the largest one, 999999999. -/
theorem largeRounds_weak : ¬∃ setting, getSalt fullBuild standardL64a ⟨[],[]⟩ [] sixteenDraws largeFlags = some (some setting) ∧
    Encodes .sha512 (CryptMethod.sha512.askedCost 4294967297) setting := by
  rw [getSalt_encodes_iff standardL64a_text largeRounds_accepted rfl rfl rfl rfl sixteenDraws_enough]
  decide

end Cost

end UserDb.Programs.Chpasswd
