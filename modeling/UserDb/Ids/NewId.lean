import UserDb.Subid.Deterministic

/-! New ids of users and groups: the configured ranges, the ids that are in use, and the loops
that look for a free one. -/
namespace UserDb.Ids
open UserDb.Base UserDb.Commonio UserDb.Subid

/-- The names of the items for one kind of ids. -/
structure IdItems where
  min : Bytes
  max : Bytes
  sysMin : Bytes
  sysMax : Bytes

def uidItems : IdItems := ⟨ascii "UID_MIN",ascii "UID_MAX",ascii "SYS_UID_MIN",ascii "SYS_UID_MAX"⟩
def gidItems : IdItems := ⟨ascii "GID_MIN",ascii "GID_MAX",ascii "SYS_GID_MIN",ascii "SYS_GID_MAX"⟩

structure IdRanges where
  idMin : UInt32
  idMax : UInt32
  preferredMin : UInt32
  deriving DecidableEq

section Configuration
variable (items : IdItems) (defs : LoginDefs)

/-! The values of the items, cut to ids. -/

def idMinItem : UInt32 := (getdefUlong defs items.min 1000).toUInt32
def idMaxItem : UInt32 := (getdefUlong defs items.max 60000).toUInt32
def sysIdMinItem : UInt32 := (getdefUlong defs items.sysMin 101).toUInt32
def idDefMax : UInt32 := (getdefUlong defs items.min 1000 - 1).toUInt32
def sysIdMaxItem : UInt32 := (getdefUlong defs items.sysMax (idDefMax items defs).toUInt64).toUInt32

/-- No range where its ends are the wrong way round; the id of root is not given away. -/
def getRanges (sys : Bool) : Option IdRanges :=
  if sys then
    let idMin := sysIdMinItem items defs
    let idMax := sysIdMaxItem items defs
    if idMax < idMin then none else some ⟨if idMin = 0 then 1 else idMin,idMax,1⟩
  else
    let idMin := idMinItem items defs
    let idMax := idMaxItem items defs
    if idMax < idMin then none else some ⟨idMin,idMax,idMin⟩

end Configuration

/-- The array of the ids that are in use, with the number of its elements. -/
structure UsedIds where
  size : Nat
  used : UInt32 → Bool

def UsedIds.calloc (n : UInt32) : UsedIds := ⟨n.toNat,fun _ => false⟩

/-- Behind the end of the array there is nothing to read. -/
def UsedIds.get? (used : UsedIds) (id : UInt32) : Option Bool :=
  if id.toNat < used.size then some (used.used id) else none

def UsedIds.set? (used : UsedIds) (id : UInt32) : Option UsedIds :=
  if id.toNat < used.size then some { used with used := Function.update used.used id true } else none

inductive IdCheck where
  | available | eexist | einval | erange
  deriving DecidableEq

/-- `known` are the ids of the name service. -/
def checkId (known : UInt32 → Bool) (idMin idMax : UInt32) (used : Option UsedIds) (id : UInt32) : Option IdCheck :=
  if id < idMin ∨ idMax < id then some .erange
  else if id = 0xFFFF ∨ id = 0xFFFFFFFF then some .einval
  else
    match used.elim (some false) fun used => used.get? id with
    | none => none
    | some true => some .eexist
    | some false => some (if known id then .eexist else .available)

/-- What became of a call: `outOfBounds` where it used an element that the array does not have, and
`running` where a loop has not come to its end. -/
inductive Outcome where
  | returned (id : Option UInt32) | outOfBounds | running
  deriving DecidableEq

/-- The loop over ids, which goes on with `next` as long as they are in range. -/
def searchFrom (inRange : UInt32 → Bool) (next : UInt32 → UInt32) (check : UInt32 → Option IdCheck) : Nat → UInt32 → Outcome
  | 0, _ => .running
  | fuel + 1, id =>
    if inRange id then
      match check id with
      | none => .outOfBounds
      | some .available => .returned (some id)
      | some _ => searchFrom inRange next check fuel (next id)
    else .returned none

def searchUp (check : UInt32 → Option IdCheck) (idMax : UInt32) (fuel : Nat) (id : UInt32) : Outcome :=
  searchFrom (fun id => decide (id ≤ idMax)) (· + 1) check fuel id

def searchDown (check : UInt32 → Option IdCheck) (idMin : UInt32) (fuel : Nat) (id : UInt32) : Outcome :=
  searchFrom (fun id => decide (idMin ≤ id)) (· - 1) check fuel id

/-- A search from one id, and from another one if that found nothing. -/
def searchTwice (search : UInt32 → Outcome) (first again : UInt32) : Outcome :=
  match search first with
  | .returned none => if first = again then .returned none else search again
  | outcome => outcome

structure Scan where
  lowest : UInt32
  highest : UInt32
  used : UsedIds

/-- The loop over the local entries, ended by an index behind the array. -/
def scanBody (r : IdRanges) (s : Scan) (id : UInt32) : Except Unit Scan :=
  let lowest := if id ≤ s.lowest ∧ r.idMin ≤ id then id - 1 else s.lowest
  let highest := if s.highest ≤ id ∧ id ≤ r.idMax then id + 1 else s.highest
  if r.idMin ≤ id ∧ id ≤ r.idMax then
    match s.used.set? id with
    | none => .error ()
    | some used => .ok ⟨lowest,highest,used⟩
  else .ok ⟨lowest,highest,s.used⟩

/-- System ids are taken from the top of the range, others from its bottom. -/
def searchIds (known : UInt32 → Bool) (fuel : Nat) (sys : Bool) (r : IdRanges) (s : Scan) : Outcome :=
  let check := checkId known r.idMin r.idMax (some s.used)
  if sys then
    searchTwice (searchDown check r.idMin fuel) (if s.lowest < r.idMin then r.idMax else s.lowest) r.idMax
  else
    searchTwice (searchUp check r.idMax fuel) (if r.idMax < s.highest then r.idMin else s.highest) r.idMin

section Program
variable {α : Type} (items : IdItems) (idOf : α → UInt32)

/-- The preferred id, where it is available and no entry waits to be written with it. -/
def tryPreferred (known : UInt32 → Bool) (r : IdRanges) (preferred : Option UInt32) (db : Db α) : Option UInt32 × Db α :=
  match preferred with
  | none => (none,db)
  | some id =>
    if checkId known r.preferredMin r.idMax none id = some .available then
      match searchEntry (fun a => idOf a == id) db with
      | (none,db) => (some id,db)
      | (some _,db) => (none,db)
    else (none,db)

/-- Every loop over ids may take `fuel` steps; `memory` says whether the array could be allocated. -/
def findNewId (defs : LoginDefs) (known : UInt32 → Bool) (memory : Bool) (fuel : Nat) (sys : Bool) (preferred : Option UInt32)
    (db : Db α) : Outcome × Db α :=
  match getRanges items defs sys with
  | none => (.returned none,db)
  | some r =>
    match tryPreferred idOf known r preferred db with
    | (some id,db) => (.returned (some id),db)
    | (none,db) =>
      if memory then
        match forEachEntry (fun s a => scanBody r s (idOf a)) ⟨r.idMax,r.idMin,.calloc (r.idMax + 1)⟩ db with
        | (.error (),db) => (.outOfBounds,db)
        | (.ok s,db) => (searchIds known fuel sys r s,db)
      else (.returned none,db)

end Program

def findNewUid (defs : LoginDefs) (known : UInt32 → Bool) (memory : Bool) (fuel : Nat) (sys : Bool)
    (preferred : Option UInt32) (db : Db Passwd) : Outcome × Db Passwd :=
  findNewId uidItems Passwd.uid defs known memory fuel sys preferred db

def findNewGid (defs : LoginDefs) (known : UInt32 → Bool) (memory : Bool) (fuel : Nat) (sys : Bool)
    (preferred : Option UInt32) (db : Db Group) : Outcome × Db Group :=
  findNewId gidItems Group.gid defs known memory fuel sys preferred db

section Words
variable {a b : UInt32}

theorem toNat_succ (h : a < 0xFFFFFFFF) : (a + 1).toNat = a.toNat + 1 := by
  have h : a.toNat < 4294967295 := UInt32.lt_iff_toNat_lt.mp h
  have hone : (1 : UInt32).toNat = 1 := rfl
  rw [UInt32.toNat_add,hone,Nat.mod_eq_of_lt (by omega)]

theorem toNat_pred (h : 0 < a) : (a - 1).toNat = a.toNat - 1 := by
  have h : 0 < a.toNat := UInt32.lt_iff_toNat_lt.mp h
  have hlt := a.toNat_lt
  have hone : (1 : UInt32).toNat = 1 := rfl
  rw [UInt32.toNat_sub,hone]
  omega

end Words

/-- The least element of a set, if there is one. -/
def LeastOf {α : Type} [LE α] (s : Set α) : Option α → Prop
  | none => s = ∅
  | some a => IsLeast s a

/-- The greatest element of a set, if there is one. -/
def GreatestOf {α : Type} [LE α] (s : Set α) : Option α → Prop
  | none => s = ∅
  | some a => IsGreatest s a

section Searches
variable {check : UInt32 → Option IdCheck} {free : Set UInt32} {idMin idMax start : UInt32} {fuel : Nat}

/-- The loop upwards finds the first free id. -/
theorem searchUp_spec (hmax : idMax < 0xFFFFFFFF)
    (hcheck : ∀ id, start ≤ id → id ≤ idMax → ∃ c, check id = some c ∧ (c = .available ↔ id ∈ free))
    (hfuel : idMax.toNat + 1 - start.toNat < fuel) :
    ∃ r, searchUp check idMax fuel start = .returned r ∧ LeastOf {id ∈ free | start ≤ id ∧ id ≤ idMax} r := by
  induction fuel generalizing start with
  | zero => omega
  | succ fuel ih =>
    unfold searchUp searchFrom
    by_cases hle : start ≤ idMax
    · obtain ⟨c,hc,hfree⟩ := hcheck start (UInt32.le_refl _) hle
      have hlt : start < 0xFFFFFFFF := UInt32.lt_of_le_of_lt hle hmax
      have hsucc := toNat_succ hlt
      rw [decide_eq_true hle,if_pos rfl,hc]
      by_cases ha : c = .available
      · subst ha
        exact ⟨some start,rfl,⟨hfree.mp rfl,UInt32.le_refl _,hle⟩,fun id hid => hid.2.1⟩
      · have hnext : ∀ id, start + 1 ≤ id → start ≤ id := fun id h => by
          rw [UInt32.le_iff_toNat_le] at h ⊢
          omega
        obtain ⟨r,hr,hleast⟩ := ih (fun id h => hcheck id (hnext id h)) (by
          rw [UInt32.le_iff_toNat_le] at hle
          omega)
        have hrest : {id ∈ free | start ≤ id ∧ id ≤ idMax} = {id ∈ free | start + 1 ≤ id ∧ id ≤ idMax} := by
          ext id
          refine ⟨fun ⟨hid,hge,hmax⟩ => ⟨hid,?_,hmax⟩,fun ⟨hid,hge,hmax⟩ => ⟨hid,hnext id hge,hmax⟩⟩
          have hne : id ≠ start := fun he => ha (hfree.mpr (he ▸ hid))
          rw [← UInt32.toNat_inj.ne] at hne
          rw [UInt32.le_iff_toNat_le] at hge ⊢
          omega
        refine ⟨r,?_,hrest ▸ hleast⟩
        cases c with
        | available => exact absurd rfl ha
        | _ => exact hr
    · rw [decide_eq_false hle]
      refine ⟨none,rfl,Set.eq_empty_iff_forall_notMem.mpr fun id ⟨_,hge,hmax⟩ => hle (UInt32.le_trans hge hmax)⟩

/-- The loop downwards finds the last free id. -/
theorem searchDown_spec (hmin : 0 < idMin)
    (hcheck : ∀ id, idMin ≤ id → id ≤ start → ∃ c, check id = some c ∧ (c = .available ↔ id ∈ free))
    (hfuel : start.toNat < fuel) :
    ∃ r, searchDown check idMin fuel start = .returned r ∧ GreatestOf {id ∈ free | idMin ≤ id ∧ id ≤ start} r := by
  induction fuel generalizing start with
  | zero => omega
  | succ fuel ih =>
    unfold searchDown searchFrom
    by_cases hle : idMin ≤ start
    · obtain ⟨c,hc,hfree⟩ := hcheck start hle (UInt32.le_refl _)
      have hpos : 0 < start := UInt32.lt_of_lt_of_le hmin hle
      have hpred := toNat_pred hpos
      rw [decide_eq_true hle,if_pos rfl,hc]
      by_cases ha : c = .available
      · subst ha
        exact ⟨some start,rfl,⟨hfree.mp rfl,hle,UInt32.le_refl _⟩,fun id hid => hid.2.2⟩
      · have hpos : 0 < start.toNat := UInt32.lt_iff_toNat_lt.mp hpos
        have hnext : ∀ id, id ≤ start - 1 → id ≤ start := fun id h => by
          rw [UInt32.le_iff_toNat_le] at h ⊢
          omega
        obtain ⟨r,hr,hgreatest⟩ := ih (fun id hid h => hcheck id hid (hnext id h)) (by omega)
        have hrest : {id ∈ free | idMin ≤ id ∧ id ≤ start} = {id ∈ free | idMin ≤ id ∧ id ≤ start - 1} := by
          ext id
          refine ⟨fun ⟨hid,hmin,hle⟩ => ⟨hid,hmin,?_⟩,fun ⟨hid,hmin,hle⟩ => ⟨hid,hmin,hnext id hle⟩⟩
          have hne : id ≠ start := fun he => ha (hfree.mpr (he ▸ hid))
          rw [← UInt32.toNat_inj.ne] at hne
          rw [UInt32.le_iff_toNat_le] at hle ⊢
          omega
        refine ⟨r,?_,hrest ▸ hgreatest⟩
        cases c with
        | available => exact absurd rfl ha
        | _ => exact hr
    · rw [decide_eq_false hle]
      refine ⟨none,rfl,Set.eq_empty_iff_forall_notMem.mpr fun id ⟨_,hmin,hge⟩ => hle (UInt32.le_trans hmin hge)⟩

end Searches

section Scanning
variable {r : IdRanges} {seen : List UInt32} {s : Scan} {id : UInt32}

/-- The local ids of a range. -/
def localIds (r : IdRanges) (ids : List UInt32) : Set UInt32 := {id | id ∈ ids ∧ r.idMin ≤ id ∧ id ≤ r.idMax}

/-- What the loop over the local entries has gathered. -/
structure Scanned (r : IdRanges) (ids : List UInt32) (s : Scan) : Prop where
  size : s.used.size = r.idMax.toNat + 1
  used : ∀ id, s.used.used id = true ↔ id ∈ localIds r ids
  highest : localIds r ids = ∅ ∧ s.highest = r.idMin ∨ ∃ m, IsGreatest (localIds r ids) m ∧ s.highest = m + 1
  lowest : 0 < r.idMin → localIds r ids = ∅ ∧ s.lowest = r.idMax ∨ ∃ m, IsLeast (localIds r ids) m ∧ s.lowest = m - 1

private theorem localIds_outside (h : ¬ (r.idMin ≤ id ∧ id ≤ r.idMax)) : localIds r (seen ++ [id]) = localIds r seen := by
  ext j
  refine ⟨fun ⟨hj,hin⟩ => ⟨?_,hin⟩,fun ⟨hj,hin⟩ => ⟨List.mem_append_left _ hj,hin⟩⟩
  rcases List.mem_append.mp hj with hj | hj
  · exact hj
  · rw [List.mem_singleton.mp hj] at hin
    exact absurd hin h

private theorem localIds_inside (h : r.idMin ≤ id ∧ id ≤ r.idMax) : localIds r (seen ++ [id]) = insert id (localIds r seen) := by
  ext j
  simp only [localIds,Set.mem_insert_iff,Set.mem_ofPred_eq,List.mem_append,List.mem_singleton]
  constructor
  · rintro ⟨hj | rfl,hin⟩
    · exact .inr ⟨hj,hin⟩
    · exact .inl rfl
  · rintro (rfl | ⟨hj,hin⟩)
    · exact ⟨.inr rfl,h⟩
    · exact ⟨.inl hj,hin⟩

/-- The highest id so far, with another one. -/
theorem highest_step (hmax : r.idMax < 0xFFFFFFFF) {highest : UInt32} (hin : r.idMin ≤ id ∧ id ≤ r.idMax)
    (h : localIds r seen = ∅ ∧ highest = r.idMin ∨ ∃ m, IsGreatest (localIds r seen) m ∧ highest = m + 1) :
    ∃ m, IsGreatest (insert id (localIds r seen)) m ∧ (if highest ≤ id ∧ id ≤ r.idMax then id + 1 else highest) = m + 1 := by
  rcases h with ⟨hempty,rfl⟩ | ⟨m,⟨hm,hgreatest⟩,rfl⟩
  · rw [if_pos hin,hempty]
    refine ⟨id,⟨Set.mem_insert _ _,?_⟩,rfl⟩
    rintro j (rfl | hj)
    · exact UInt32.le_refl _
    · cases hj
  · have hsucc := toNat_succ (UInt32.lt_of_le_of_lt hm.2.2 hmax)
    by_cases hle : m + 1 ≤ id
    · rw [if_pos ⟨hle,hin.2⟩]
      refine ⟨id,⟨Set.mem_insert _ _,?_⟩,rfl⟩
      rintro j (rfl | hj)
      · exact UInt32.le_refl _
      · have hjm := hgreatest hj
        rw [UInt32.le_iff_toNat_le] at hjm hle ⊢
        omega
    · rw [if_neg fun h => hle h.1]
      refine ⟨m,⟨Set.mem_insert_of_mem _ hm,?_⟩,rfl⟩
      rintro j (rfl | hj)
      · rw [UInt32.le_iff_toNat_le] at hle ⊢
        omega
      · exact hgreatest hj

private theorem lowest_step (hmin : 0 < r.idMin) {lowest : UInt32} (hin : r.idMin ≤ id ∧ id ≤ r.idMax)
    (h : localIds r seen = ∅ ∧ lowest = r.idMax ∨ ∃ m, IsLeast (localIds r seen) m ∧ lowest = m - 1) :
    ∃ m, IsLeast (insert id (localIds r seen)) m ∧ (if id ≤ lowest ∧ r.idMin ≤ id then id - 1 else lowest) = m - 1 := by
  rcases h with ⟨hempty,rfl⟩ | ⟨m,⟨hm,hleast⟩,rfl⟩
  · rw [if_pos hin.symm,hempty]
    refine ⟨id,⟨Set.mem_insert _ _,?_⟩,rfl⟩
    rintro j (rfl | hj)
    · exact UInt32.le_refl _
    · cases hj
  · have hpred := toNat_pred (UInt32.lt_of_lt_of_le hmin hm.2.1)
    have hpos : 0 < m.toNat := UInt32.lt_iff_toNat_lt.mp (UInt32.lt_of_lt_of_le hmin hm.2.1)
    by_cases hle : id ≤ m - 1
    · rw [if_pos ⟨hle,hin.1⟩]
      refine ⟨id,⟨Set.mem_insert _ _,?_⟩,rfl⟩
      rintro j (rfl | hj)
      · exact UInt32.le_refl _
      · have hmj := hleast hj
        rw [UInt32.le_iff_toNat_le] at hmj hle ⊢
        omega
    · rw [if_neg fun h => hle h.1]
      refine ⟨m,⟨Set.mem_insert_of_mem _ hm,?_⟩,rfl⟩
      rintro j (rfl | hj)
      · rw [UInt32.le_iff_toNat_le] at hle ⊢
        omega
      · exact hleast hj

theorem Scanned.step (hmax : r.idMax < 0xFFFFFFFF) (h : Scanned r seen s) :
    ∃ s', scanBody r s id = .ok s' ∧ Scanned r (seen ++ [id]) s' := by
  unfold scanBody
  by_cases hin : r.idMin ≤ id ∧ id ≤ r.idMax
  · have hlt : id.toNat < s.used.size := by
      rw [h.size]
      exact Nat.lt_succ_of_le (UInt32.le_iff_toNat_le.mp hin.2)
    rw [if_pos hin,UsedIds.set?,if_pos hlt]
    refine ⟨_,rfl,h.size,fun j => ?_,.inr ?_,fun hmin => .inr ?_⟩
    · rw [localIds_inside hin,Set.mem_insert_iff,← h.used]
      by_cases hj : j = id
      · subst hj
        simp
      · simp [hj]
    · rw [localIds_inside hin]
      exact highest_step hmax hin h.highest
    · rw [localIds_inside hin]
      exact lowest_step hmin hin (h.lowest hmin)
  · rw [if_neg hin]
    have hhighest : ¬ (s.highest ≤ id ∧ id ≤ r.idMax) := fun ⟨hle,hid⟩ => hin ⟨?_,hid⟩
    · have hlowest : 0 < r.idMin → ¬ (id ≤ s.lowest ∧ r.idMin ≤ id) := fun hmin ⟨hle,hid⟩ => hin ⟨hid,?_⟩
      · refine ⟨_,rfl,h.size,fun j => ?_,?_,fun hmin => ?_⟩
        · rw [localIds_outside hin]
          exact h.used j
        · rw [localIds_outside hin,if_neg hhighest]
          exact h.highest
        · rw [localIds_outside hin,if_neg (hlowest hmin)]
          exact h.lowest hmin
      · rcases h.lowest hmin with ⟨_,heq⟩ | ⟨m,hm,heq⟩
        · exact heq ▸ hle
        · have hpred := toNat_pred (UInt32.lt_of_lt_of_le hmin hm.1.2.1)
          have hmle := UInt32.le_iff_toNat_le.mp hm.1.2.2
          rw [heq,UInt32.le_iff_toNat_le] at hle
          rw [UInt32.le_iff_toNat_le]
          omega
    · rcases h.highest with ⟨_,heq⟩ | ⟨m,hm,heq⟩
      · exact heq ▸ hle
      · have hsucc := toNat_succ (UInt32.lt_of_le_of_lt hm.1.2.2 hmax)
        have hmle := UInt32.le_iff_toNat_le.mp hm.1.2.1
        rw [heq,UInt32.le_iff_toNat_le] at hle
        rw [UInt32.le_iff_toNat_le]
        omega

/-- The loop stays within the array, and gathers the local ids. -/
theorem Scanned.run (hmax : r.idMax < 0xFFFFFFFF) (ids : List UInt32) (h : Scanned r seen s) :
    ∃ s', ids.foldlM (scanBody r) s = .ok s' ∧ Scanned r (seen ++ ids) s' := by
  induction ids generalizing seen s with
  | nil => exact ⟨s,rfl,by rwa [List.append_nil]⟩
  | cons id ids ih =>
    obtain ⟨s₁,hs₁,hscanned⟩ : ∃ s₁, scanBody r s id = .ok s₁ ∧ Scanned r (seen ++ [id]) s₁ := h.step hmax
    obtain ⟨s',hs',hdone⟩ := ih hscanned
    refine ⟨s',?_,List.append_cons seen id ids ▸ hdone⟩
    rw [List.foldlM_cons,hs₁]
    exact hs'

theorem Scanned.start (hmax : r.idMax < 0xFFFFFFFF) : Scanned r [] ⟨r.idMax,r.idMin,.calloc (r.idMax + 1)⟩ := by
  have hempty : localIds r [] = ∅ := Set.eq_empty_iff_forall_notMem.mpr fun id hid => nomatch hid.1
  refine ⟨toNat_succ hmax,fun id => ?_,.inl ⟨hempty,rfl⟩,fun _ => .inl ⟨hempty,rfl⟩⟩
  rw [hempty]
  exact ⟨nofun,nofun⟩

end Scanning

/-- A choice that prefers one set over another. -/
def Picks (best : Set UInt32 → Option UInt32 → Prop) (preferred whole : Set UInt32) (result : Option UInt32) : Prop :=
  preferred.Nonempty ∧ best preferred result ∨ preferred = ∅ ∧ best whole result

/-- The second search is for where the first one found nothing. -/
theorem searchTwice_picks {best : Set UInt32 → Option UInt32 → Prop} {preferred whole : Set UInt32}
    {search : UInt32 → Outcome} {first again : UInt32} (hnone : ∀ s, best s none → s = ∅)
    (hsome : ∀ s id, best s (some id) → s.Nonempty)
    (hfirst : first = again ∧ preferred = ∅ ∨ first ≠ again ∧ ∃ r, search first = .returned r ∧ best preferred r)
    (hagain : ∃ r, search again = .returned r ∧ best whole r) :
    ∃ r, searchTwice search first again = .returned r ∧ Picks best preferred whole r := by
  obtain ⟨r,hr,hbest⟩ := hagain
  unfold searchTwice
  rcases hfirst with ⟨rfl,hempty⟩ | ⟨hne,r',hr',hbest'⟩
  · rw [hr]
    refine ⟨r,?_,.inr ⟨hempty,hbest⟩⟩
    cases r with
    | none => simp
    | some id => rfl
  · rw [hr']
    cases r' with
    | none => exact ⟨r,by simp [hne,hr],.inr ⟨hnone _ hbest',hbest⟩⟩
    | some id => exact ⟨some id,rfl,.inl ⟨hsome _ _ hbest',hbest'⟩⟩

end UserDb.Ids
