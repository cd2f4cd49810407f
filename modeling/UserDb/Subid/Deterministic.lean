import UserDb.Subid.FreeRange

/-! New ranges of subordinate ids: by the position of a user id among the slots of the configured
space, or by the search for a free block. -/
namespace UserDb.Subid
open UserDb.Base UserDb.Atoi UserDb.Commonio

/-- The values of the items that login.defs sets. -/
abbrev LoginDefs := Bytes → Option Bytes

def toLower (b : UInt8) : UInt8 := if 65 ≤ b && b ≤ 90 then b + 32 else b

def strcaseeq (s t : Bytes) : Bool := s.map toLower == t.map toLower

def getdefBool (defs : LoginDefs) (item : Bytes) : Bool :=
  match defs item with
  | none => false
  | some value => strcaseeq value (ascii "yes")

def getdefUlong (defs : LoginDefs) (item : Bytes) (dflt : UInt64) : UInt64 :=
  match defs item with
  | none => dflt
  | some value =>
    match a2i value 0 0 (2^64 - 1) with
    | none => dflt
    | some n => .ofNat n

/-- The names of the items for one kind of ids. -/
structure SubidItems where
  min : Bytes
  max : Bytes
  count : Bytes
  deterministic : Bytes
  wrap : Bytes

def subUidItems : SubidItems :=
  ⟨ascii "SUB_UID_MIN",ascii "SUB_UID_MAX",ascii "SUB_UID_COUNT",ascii "SUB_UID_DETERMINISTIC",
    ascii "UNSAFE_SUB_UID_DETERMINISTIC_WRAP"⟩

def subGidItems : SubidItems :=
  ⟨ascii "SUB_GID_MIN",ascii "SUB_GID_MAX",ascii "SUB_GID_COUNT",ascii "SUB_GID_DETERMINISTIC",
    ascii "UNSAFE_SUB_GID_DETERMINISTIC_WRAP"⟩

section Program
variable (items : SubidItems) (defs : LoginDefs)

def uidMinItem : UInt64 := getdefUlong defs (ascii "UID_MIN") 1000
def subMinItem : UInt64 := getdefUlong defs items.min 65536
def subMaxItem : UInt64 := getdefUlong defs items.max 4294967295
def subCountItem : UInt64 := getdefUlong defs items.count 65536

/-- The start and the count of the range of a user, in the slot of its offset. The start is stored
as an id. -/
def findNewSubidsDeterministic (uid : UInt32) : Option (UInt32 × UInt64) :=
  let uidMin := uidMinItem defs
  let subMin := subMinItem items defs
  let subMax := subMaxItem items defs
  let count := subCountItem items defs
  if uid.toUInt64 < uidMin then none
  else if subMax < subMin || count = 0 then none
  else if 2^64 ≤ (subMax - subMin).toNat + 1 then none
  else
    let space := subMax - subMin + 1
    if space < count then none
    else
      let uidOffset := uid.toUInt64 - uidMin
      let slots := space / count
      if slots ≤ uidOffset then
        if getdefBool defs items.wrap then some ((subMin + uidOffset % slots * count).toUInt32,count) else none
      else some ((subMin + uidOffset * count).toUInt32,count)

/-- `findFree` is the search for a free block in the database of these ids. -/
def findNewSubidsLinear (findFree : UInt32 → UInt32 → UInt64 → UInt32) : Option (UInt32 × UInt64) :=
  let min := getdefUlong defs items.min 100000
  let max := getdefUlong defs items.max 600100000
  let count := getdefUlong defs items.count 65536
  let start := findFree min.toUInt32 max.toUInt32 count
  if start = noId then none else some (start,count)

def findNewSubids (findFree : UInt32 → UInt32 → UInt64 → UInt32) (uid : UInt32) : Option (UInt32 × UInt64) :=
  if getdefBool defs items.deterministic then findNewSubidsDeterministic items defs uid
  else findNewSubidsLinear items defs findFree

end Program

def findNewSubUids (defs : LoginDefs) (findFree : UInt32 → UInt32 → UInt64 → UInt32) (uid : UInt32) :
    Option (UInt32 × UInt64) := findNewSubids subUidItems defs findFree uid

def findNewSubGids (defs : LoginDefs) (findFree : UInt32 → UInt32 → UInt64 → UInt32) (uid : UInt32) :
    Option (UInt32 × UInt64) := findNewSubids subGidItems defs findFree uid

variable {items : SubidItems} {defs : LoginDefs} {uid : UInt32} {start : UInt32} {count : UInt64}

/-- How many slots the configured space has, none where it is refused. -/
def configuredSlots (items : SubidItems) (defs : LoginDefs) : Nat :=
  if (subMaxItem items defs).toNat < (subMinItem items defs).toNat ∨
      2^64 ≤ (subMaxItem items defs).toNat + 1 - (subMinItem items defs).toNat then 0
  else ((subMaxItem items defs).toNat + 1 - (subMinItem items defs).toNat) / (subCountItem items defs).toNat

/-- How many user ids get a range: those from the first one on, as many as there are slots. -/
def servedUids (items : SubidItems) (defs : LoginDefs) : Nat :=
  min (configuredSlots items defs) (2^32 - (uidMinItem defs).toNat)

/-- Where the range of a user id starts in the configured space. -/
def slotStart (items : SubidItems) (defs : LoginDefs) (uid : UInt32) : Nat :=
  (subMinItem items defs).toNat + (uid.toNat - (uidMinItem defs).toNat) * (subCountItem items defs).toNat

private theorem slot_le_space {space count i : Nat} (hi : i < space / count) : (i + 1) * count ≤ space :=
  (Nat.mul_le_mul_right count hi).trans (Nat.div_mul_le_self space count)

/-- The slots lie in the configured space. -/
theorem slotStart_stop (huid : (uidMinItem defs).toNat ≤ uid.toNat)
    (hslot : uid.toNat - (uidMinItem defs).toNat < configuredSlots items defs) :
    0 < (subCountItem items defs).toNat ∧
      slotStart items defs uid + (subCountItem items defs).toNat ≤ (subMaxItem items defs).toNat + 1 ∧
      (subMinItem items defs).toNat ≤ (subMaxItem items defs).toNat ∧
      (subMaxItem items defs).toNat + 1 - (subMinItem items defs).toNat < 2^64 := by
  unfold configuredSlots at hslot
  split at hslot
  · exact absurd hslot (Nat.not_lt_zero _)
  · rename_i hspace
    have hle := slot_le_space hslot
    rw [Nat.add_one_mul] at hle
    unfold slotStart
    refine ⟨Nat.pos_of_ne_zero fun hzero => ?_,by omega,by omega,by omega⟩
    rw [hzero,Nat.div_zero] at hslot
    exact absurd hslot (Nat.not_lt_zero _)

/-- Without wrapping, a user id gets the range of its slot, its start cut down to an id. -/
theorem findNewSubidsDeterministic_eq (hwrap : getdefBool defs items.wrap = false) (uid : UInt32) :
    findNewSubidsDeterministic items defs uid =
      if (uidMinItem defs).toNat ≤ uid.toNat ∧ uid.toNat - (uidMinItem defs).toNat < configuredSlots items defs then
        some (.ofNat (slotStart items defs uid),subCountItem items defs)
      else none := by
  unfold findNewSubidsDeterministic
  simp only [UInt64.lt_iff_toNat_lt,UInt64.le_iff_toNat_le,UInt32.toNat_toUInt64,hwrap,Bool.false_eq_true,if_false]
  have hminword := (subMinItem items defs).toNat_lt
  have hmaxword := (subMaxItem items defs).toNat_lt
  have hzero : subCountItem items defs = 0 ↔ (subCountItem items defs).toNat = 0 := by
    rw [← UInt64.toNat_inj]
    exact Iff.rfl
  by_cases hfirst : uid.toNat < (uidMinItem defs).toNat
  · rw [if_pos hfirst,if_neg fun h => absurd h.1 (by omega)]
  rw [if_neg hfirst]
  have hle : (uidMinItem defs).toNat ≤ uid.toNat := by omega
  by_cases hbounds : (subMaxItem items defs).toNat < (subMinItem items defs).toNat ∨ (subCountItem items defs).toNat = 0
  · rw [if_pos (by simpa [hzero] using hbounds),if_neg]
    rintro ⟨_,hslot⟩
    have hspec := slotStart_stop hle hslot
    omega
  rw [if_neg (by simpa [hzero] using hbounds)]
  have hdiff : (subMaxItem items defs - subMinItem items defs).toNat =
      (subMaxItem items defs).toNat - (subMinItem items defs).toNat := by
    rw [UInt64.toNat_sub]
    omega
  rw [hdiff]
  by_cases hspace : 2^64 ≤ (subMaxItem items defs).toNat - (subMinItem items defs).toNat + 1
  · rw [if_pos hspace,if_neg]
    rintro ⟨_,hslot⟩
    have hspec := slotStart_stop hle hslot
    omega
  rw [if_neg hspace]
  have hspaceNat : (subMaxItem items defs - subMinItem items defs + 1).toNat =
      (subMaxItem items defs).toNat + 1 - (subMinItem items defs).toNat := by
    rw [UInt64.toNat_add,hdiff,show (1 : UInt64).toNat = 1 from rfl]
    omega
  have hslots : configuredSlots items defs =
      ((subMaxItem items defs).toNat + 1 - (subMinItem items defs).toNat) / (subCountItem items defs).toNat := by
    unfold configuredSlots
    rw [if_neg (by omega)]
  rw [UInt64.toNat_div,hspaceNat,← hslots]
  by_cases hcount : (subMaxItem items defs).toNat + 1 - (subMinItem items defs).toNat < (subCountItem items defs).toNat
  · rw [if_pos hcount,if_neg]
    rintro ⟨_,hslot⟩
    rw [hslots,Nat.div_eq_of_lt hcount] at hslot
    exact absurd hslot (Nat.not_lt_zero _)
  rw [if_neg hcount]
  have hoffset : (uid.toUInt64 - uidMinItem defs).toNat = uid.toNat - (uidMinItem defs).toNat := by
    have hword := uid.toNat_lt
    rw [UInt64.toNat_sub,UInt32.toNat_toUInt64]
    omega
  rw [hoffset]
  by_cases hslot : configuredSlots items defs ≤ uid.toNat - (uidMinItem defs).toNat
  · rw [if_pos hslot,if_neg fun h => absurd h.2 (by omega)]
  · rw [if_neg hslot,if_pos ⟨hle,by omega⟩]
    have hstart : (subMinItem items defs + (uid.toUInt64 - uidMinItem defs) * subCountItem items defs).toUInt32 =
        UInt32.ofNat (slotStart items defs uid) := by
      rw [← UInt32.toNat_inj,UInt64.toNat_toUInt32,UInt64.toNat_add,UInt64.toNat_mul,hoffset,UInt32.toNat_ofNat']
      rw [Nat.add_mod_mod,Nat.mod_mod_of_dvd _ (by decide)]
      rfl
    rw [hstart]

/-- The promise of the deterministic mode: the ranges of two users lie in the configured space, that
of the lower one below that of the other. -/
def InOrder (items : SubidItems) (defs : LoginDefs) (find : UInt32 → Option (UInt32 × UInt64)) : Prop :=
  ∀ u v start start' count count', u < v → find u = some (start,count) → find v = some (start',count') →
    ((subMinItem items defs).toNat ≤ start.toNat ∧ start.toNat + count.toNat ≤ (subMaxItem items defs).toNat + 1) ∧
    ((subMinItem items defs).toNat ≤ start'.toNat ∧ start'.toNat + count'.toNat ≤ (subMaxItem items defs).toNat + 1) ∧
    start.toNat + count.toNat ≤ start'.toNat

/-- The items of one configuration have the values that those of the other kind have in the other. -/
structure SameItems (items items' : SubidItems) (defs defs' : LoginDefs) : Prop where
  uidMin : defs' (ascii "UID_MIN") = defs (ascii "UID_MIN")
  min : defs' items'.min = defs items.min
  max : defs' items'.max = defs items.max
  count : defs' items'.count = defs items.count
  deterministic : defs' items'.deterministic = defs items.deterministic
  wrap : defs' items'.wrap = defs items.wrap

theorem SameItems.deterministic_eq {items' : SubidItems} {defs' : LoginDefs} (h : SameItems items items' defs defs')
    (uid : UInt32) : findNewSubidsDeterministic items' defs' uid = findNewSubidsDeterministic items defs uid := by
  have huidMin : uidMinItem defs' = uidMinItem defs := by rw [uidMinItem,getdefUlong,h.uidMin]; rfl
  have hmin : subMinItem items' defs' = subMinItem items defs := by rw [subMinItem,getdefUlong,h.min]; rfl
  have hmax : subMaxItem items' defs' = subMaxItem items defs := by rw [subMaxItem,getdefUlong,h.max]; rfl
  have hcount : subCountItem items' defs' = subCountItem items defs := by rw [subCountItem,getdefUlong,h.count]; rfl
  have hwrap : getdefBool defs' items'.wrap = getdefBool defs items.wrap := by rw [getdefBool,h.wrap]; rfl
  simp only [findNewSubidsDeterministic,huidMin,hmin,hmax,hcount,hwrap]

/-- The highest start of a range is an id, where two users get one. -/
def HighestStartFits (items : SubidItems) (defs : LoginDefs) : Prop :=
  servedUids items defs ≤ 1 ∨
    (subMinItem items defs).toNat + (servedUids items defs - 1) * (subCountItem items defs).toNat < 2^32

/-- The range of the user at a position among those that are served. -/
theorem findNewSubidsDeterministic_served (hwrap : getdefBool defs items.wrap = false) {i : Nat}
    (hi : i < servedUids items defs) :
    findNewSubidsDeterministic items defs (.ofNat ((uidMinItem defs).toNat + i)) =
      some (.ofNat ((subMinItem items defs).toNat + i * (subCountItem items defs).toNat),subCountItem items defs) := by
  obtain ⟨hslot,hword⟩ := Nat.lt_min.mp hi
  have huid : (UInt32.ofNat ((uidMinItem defs).toNat + i)).toNat = (uidMinItem defs).toNat + i := by
    rw [UInt32.toNat_ofNat']
    omega
  have hoffset : (uidMinItem defs).toNat + i - (uidMinItem defs).toNat = i := by omega
  rw [findNewSubidsDeterministic_eq hwrap,slotStart,huid,hoffset,if_pos ⟨by omega,hslot⟩]

private theorem inOrder_of_highestStartFits (hwrap : getdefBool defs items.wrap = false) (h : HighestStartFits items defs) :
    InOrder items defs (findNewSubidsDeterministic items defs) := by
  intro u v start start' count count' huv hu hv
  rw [findNewSubidsDeterministic_eq hwrap] at hu hv
  split at hu
  · rename_i hslot
    split at hv
    · rename_i hslot'
      cases hu
      cases hv
      have huv := UInt32.lt_iff_toNat_lt.mp huv
      have hword := v.toNat_lt
      have hspec := slotStart_stop hslot.1 hslot.2
      have hspec' := slotStart_stop hslot'.1 hslot'.2
      have hserved : v.toNat - (uidMinItem defs).toNat < servedUids items defs :=
        Nat.lt_min.mpr ⟨hslot'.2,by omega⟩
      have hfits := h.resolve_left (by omega)
      have horder : slotStart items defs u + (subCountItem items defs).toNat ≤ slotStart items defs v := by
        have hmul := Nat.mul_le_mul_right (subCountItem items defs).toNat
          (show u.toNat - (uidMinItem defs).toNat + 1 ≤ v.toNat - (uidMinItem defs).toNat by omega)
        rw [Nat.add_one_mul] at hmul
        unfold slotStart
        omega
      have hhighest : slotStart items defs v < 2^32 := by
        have hmul := Nat.mul_le_mul_right (subCountItem items defs).toNat
          (show v.toNat - (uidMinItem defs).toNat ≤ servedUids items defs - 1 by omega)
        unfold slotStart
        omega
      have hmin : (subMinItem items defs).toNat ≤ slotStart items defs u := Nat.le_add_right _ _
      rw [UInt32.toNat_ofNat_of_lt' (show slotStart items defs u < 2^32 by omega),UInt32.toNat_ofNat_of_lt' hhighest]
      omega
    · cases hv
  · cases hu

/-- Starts that keep their order are never cut down, however many there are. -/
theorem highestStartFits_of_inOrder (hwrap : getdefBool defs items.wrap = false)
    (h : InOrder items defs (findNewSubidsDeterministic items defs)) : HighestStartFits items defs := by
  by_contra hnot
  simp only [HighestStartFits,not_or,Nat.not_le,Nat.not_lt] at hnot
  obtain ⟨hserved,hhigh⟩ := hnot
  have hpair : ∀ i, i + 1 < servedUids items defs → UInt32.ofNat ((uidMinItem defs).toNat + i) <
      UInt32.ofNat ((uidMinItem defs).toNat + (i + 1)) := fun i hi => by
    have hword := (Nat.lt_min.mp hi).2
    rw [UInt32.lt_iff_toNat_lt,UInt32.toNat_ofNat',UInt32.toNat_ofNat']
    omega
  have hnext := fun i (hi : i + 1 < servedUids items defs) => h _ _ _ _ _ _ (hpair i hi)
    (findNewSubidsDeterministic_served hwrap (Nat.lt_of_succ_lt hi)) (findNewSubidsDeterministic_served hwrap hi)
  -- each start is as high as in the full word, by the order of the ranges below it
  have hstart : ∀ i < servedUids items defs, (subMinItem items defs).toNat + i * (subCountItem items defs).toNat ≤
      (UInt32.ofNat ((subMinItem items defs).toNat + i * (subCountItem items defs).toNat)).toNat := by
    intro i hi
    induction i with
    | zero =>
      have hfirst := (hnext 0 (by omega)).1.1
      simpa using hfirst
    | succ i ih =>
      have ih := ih (by omega)
      have hstep := (hnext i hi).2.2
      have hmul := Nat.add_one_mul i (subCountItem items defs).toNat
      omega
  have hlast := hstart (servedUids items defs - 1) (by omega)
  have hword := (UInt32.ofNat ((subMinItem items defs).toNat +
    (servedUids items defs - 1) * (subCountItem items defs).toNat)).toNat_lt
  omega

/-- In the deterministic mode the ranges keep their promise exactly where the start of the highest
of them still is an id; the items for group ids give the same ranges. -/
theorem findNewSubUids_in_order_iff (defs : LoginDefs) (findFree : UInt32 → UInt32 → UInt64 → UInt32)
    (hdet : getdefBool defs subUidItems.deterministic = true) (hwrap : getdefBool defs subUidItems.wrap = false) :
    (InOrder subUidItems defs (findNewSubUids defs findFree) ∧
      ∀ defs' findFree', SameItems subUidItems subGidItems defs defs' → ∀ uid,
        findNewSubGids defs' findFree' uid = findNewSubUids defs findFree uid) ↔
      HighestStartFits subUidItems defs := by
  have huids : findNewSubUids defs findFree = findNewSubidsDeterministic subUidItems defs := by
    funext uid
    exact if_pos hdet
  rw [huids]
  constructor
  · rintro ⟨h,_⟩
    exact highestStartFits_of_inOrder hwrap h
  · refine fun h => ⟨inOrder_of_highestStartFits hwrap h,fun defs' findFree' hsame uid => ?_⟩
    have hdet' : getdefBool defs' subGidItems.deterministic = true := by
      rw [getdefBool,hsame.deterministic]
      exact hdet
    rw [← hsame.deterministic_eq uid]
    exact if_pos hdet'

/-- The items that are set, with numbers as they are printed. -/
def deterministicDefs (max : UInt64) : LoginDefs := fun item =>
  if item = ascii "SUB_UID_DETERMINISTIC" then some (ascii "yes")
  else if item = ascii "SUB_UID_MAX" then some (numeral max.toNat)
  else none

theorem findNewSubUids_in_order_default :
    InOrder subUidItems (deterministicDefs 4294967295) (findNewSubUids (deterministicDefs 4294967295) fun _ _ _ => noId) :=
  ((findNewSubUids_in_order_iff (deterministicDefs 4294967295) (fun _ _ _ => noId) (by decide +kernel)
    (by decide +kernel)).mpr (.inr (by decide +kernel))).1

/-- A space of 33 bits: the start of user 66535 is cut down to zero, which is not in the space. -/
theorem deterministic_start_is_cut :
    ¬ InOrder subUidItems (deterministicDefs 8589934591)
      (findNewSubUids (deterministicDefs 8589934591) fun _ _ _ => noId) := by
  intro h
  have hfirst : findNewSubUids (deterministicDefs 8589934591) (fun _ _ _ => noId) 1000 = some (65536,65536) := by
    decide +kernel
  have hsecond : findNewSubUids (deterministicDefs 8589934591) (fun _ _ _ => noId) 66535 = some (0,65536) := by
    decide +kernel
  have hmin : subMinItem subUidItems (deterministicDefs 8589934591) = 65536 := by decide +kernel
  have hbounds := (h 1000 66535 65536 0 65536 65536 (by decide) hfirst hsecond).2.1.1
  rw [hmin] at hbounds
  exact absurd hbounds (by decide)

end UserDb.Subid
