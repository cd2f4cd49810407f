import UserDb.Ids.NewId

/-! Which id is found, as a statement about the free ids of a range; and when the loops end and
stay within the array of used ids. -/
namespace UserDb.Ids
open UserDb.Base UserDb.Commonio UserDb.Subid

section Specification
variable {known : UInt32 → Bool} {r : IdRanges} {ids : List UInt32} {s : Scan} {fuel : Nat} {id : UInt32}

/-- An id that nobody has and that is no error code of shorter ids. -/
def freeIds (known : UInt32 → Bool) (ids : List UInt32) : Set UInt32 := {id | id ≠ 0xFFFF ∧ id ∉ ids ∧ known id = false}

/-- The ids of a range above all local ids in it. -/
def aboveLocal (r : IdRanges) (ids : List UInt32) : Set UInt32 :=
  {id | id ≤ r.idMax ∧ ∃ m, IsGreatest (localIds r ids) m ∧ m < id}

/-- The ids of a range below all local ids in it. -/
def belowLocal (r : IdRanges) (ids : List UInt32) : Set UInt32 :=
  {id | r.idMin ≤ id ∧ ∃ m, IsLeast (localIds r ids) m ∧ id < m}

/-- The free ids of a range. -/
def freeInRange (known : UInt32 → Bool) (r : IdRanges) (ids : List UInt32) : Set UInt32 :=
  {id ∈ freeIds known ids | r.idMin ≤ id ∧ id ≤ r.idMax}

/-- What is chosen of a range: behind the local ids, or else anywhere in the range. -/
def Chosen (known : UInt32 → Bool) (sys : Bool) (r : IdRanges) (ids : List UInt32) (result : Option UInt32) : Prop :=
  if sys then Picks GreatestOf (freeIds known ids ∩ belowLocal r ids) (freeInRange known r ids) result
  else Picks LeastOf (freeIds known ids ∩ aboveLocal r ids) (freeInRange known r ids) result

theorem Scanned.check (h : Scanned r ids s) (hmax : r.idMax < 0xFFFFFFFF) (hmin : r.idMin ≤ id) (hle : id ≤ r.idMax) :
    ∃ c, checkId known r.idMin r.idMax (some s.used) id = some c ∧ (c = .available ↔ id ∈ freeIds known ids) := by
  have hlt : id.toNat < s.used.size := by
    rw [h.size]
    exact Nat.lt_succ_of_le (UInt32.le_iff_toNat_le.mp hle)
  have hrange : ¬ (id < r.idMin ∨ r.idMax < id) := not_or.mpr ⟨UInt32.not_lt.mpr hmin,UInt32.not_lt.mpr hle⟩
  unfold checkId
  rw [if_neg hrange]
  by_cases hcode : id = 0xFFFF ∨ id = 0xFFFFFFFF
  · rw [if_pos hcode]
    refine ⟨_,rfl,nofun,fun hfree => ?_⟩
    rcases hcode with rfl | rfl
    · exact absurd rfl hfree.1
    · exact absurd (UInt32.lt_of_le_of_lt hle hmax) (UInt32.lt_irrefl _)
  · rw [if_neg hcode,Option.elim_some,UsedIds.get?,if_pos hlt]
    have hused := h.used id
    cases hu : s.used.used id with
    | true =>
      refine ⟨_,rfl,nofun,fun hfree => ?_⟩
      exact absurd (hused.mp hu).1 hfree.2.1
    | false =>
      have hnot : id ∉ ids := fun hid => by
        rw [hused.mpr ⟨hid,hmin,hle⟩] at hu
        cases hu
      refine ⟨_,rfl,?_⟩
      cases hk : known id with
      | true => exact ⟨nofun,fun hfree => by simp [hfree.2.2] at hk⟩
      | false => exact ⟨fun _ => ⟨fun he => hcode (.inl he),hnot,hk⟩,fun _ => rfl⟩

theorem LeastOf.eq_empty {t : Set UInt32} (h : LeastOf t none) : t = ∅ := h
theorem LeastOf.nonempty {t : Set UInt32} (h : LeastOf t (some id)) : t.Nonempty := ⟨id,h.1⟩
theorem GreatestOf.eq_empty {t : Set UInt32} (h : GreatestOf t none) : t = ∅ := h
theorem GreatestOf.nonempty {t : Set UInt32} (h : GreatestOf t (some id)) : t.Nonempty := ⟨id,h.1⟩

/-- An id is chosen exactly where one of the range is free. -/
theorem Chosen.none_iff {sys : Bool} {result : Option UInt32} (h : Chosen known sys r ids result) :
    result = none ↔ ∀ id ∈ freeIds known ids, ¬ (r.idMin ≤ id ∧ id ≤ r.idMax) := by
  have hwhole : freeInRange known r ids = ∅ ↔ ∀ id ∈ freeIds known ids, ¬ (r.idMin ≤ id ∧ id ≤ r.idMax) := by
    rw [Set.eq_empty_iff_forall_notMem]
    exact ⟨fun h id hid hin => h id ⟨hid,hin⟩,fun h id hid => h id hid.1 hid.2⟩
  have habove : freeIds known ids ∩ aboveLocal r ids ⊆ freeInRange known r ids := fun id ⟨hid,hle,m,hm,hlt⟩ =>
    ⟨hid,UInt32.le_trans hm.1.2.1 (UInt32.le_of_lt hlt),hle⟩
  have hbelow : freeIds known ids ∩ belowLocal r ids ⊆ freeInRange known r ids := fun id ⟨hid,hle,m,hm,hlt⟩ =>
    ⟨hid,hle,UInt32.le_trans (UInt32.le_of_lt hlt) hm.1.2.2⟩
  rw [← hwhole]
  unfold Chosen at h
  cases result with
  | none =>
    refine ⟨fun _ => ?_,fun _ => rfl⟩
    split at h
    · rcases h with ⟨hne,hbest⟩ | ⟨_,hbest⟩
      · exact absurd hbest.eq_empty hne.ne_empty
      · exact hbest.eq_empty
    · rcases h with ⟨hne,hbest⟩ | ⟨_,hbest⟩
      · exact absurd hbest.eq_empty hne.ne_empty
      · exact hbest.eq_empty
  | some id =>
    refine ⟨nofun,fun hempty => ?_⟩
    split at h
    · rcases h with ⟨hne,_⟩ | ⟨_,hbest⟩
      · exact absurd hempty (hne.mono hbelow).ne_empty
      · exact absurd hempty hbest.nonempty.ne_empty
    · rcases h with ⟨hne,_⟩ | ⟨_,hbest⟩
      · exact absurd hempty (hne.mono habove).ne_empty
      · exact absurd hempty hbest.nonempty.ne_empty

/-- The search upwards starts behind the local ids. -/
theorem searchUp_chosen (h : Scanned r ids s) (hmax : r.idMax < 0xFFFFFFFF) (hfuel : 2^32 ≤ fuel) :
    ∃ result, searchIds known fuel false r s = .returned result ∧ Chosen known false r ids result := by
  have hlast := UInt32.lt_iff_toNat_lt.mp hmax
  have hword : (0xFFFFFFFF : UInt32).toNat = 4294967295 := rfl
  have hspec : ∀ start, r.idMin ≤ start → ∃ result,
      searchUp (checkId known r.idMin r.idMax (some s.used)) r.idMax fuel start = .returned result ∧
        LeastOf {id ∈ freeIds known ids | start ≤ id ∧ id ≤ r.idMax} result := fun start hstart =>
    searchUp_spec hmax (fun id hge hle => h.check hmax (UInt32.le_trans hstart hge) hle) (by omega)
  refine searchTwice_picks (fun _ => LeastOf.eq_empty) (fun _ _ => LeastOf.nonempty) ?_ (hspec r.idMin (UInt32.le_refl _))
  rcases h.highest with ⟨hempty,heq⟩ | ⟨m,hm,heq⟩
  · refine .inl ⟨by rw [heq,ite_self],Set.eq_empty_iff_forall_notMem.mpr ?_⟩
    rintro id ⟨_,_,m,hm,_⟩
    rw [hempty] at hm
    exact hm.1
  · have hsucc := toNat_succ (UInt32.lt_of_le_of_lt hm.1.2.2 hmax)
    have habove : ∀ id, id ∈ aboveLocal r ids ↔ m + 1 ≤ id ∧ id ≤ r.idMax := fun id => by
      constructor
      · rintro ⟨hle,m',hm',hlt⟩
        have hmm := hm'.2 hm.1
        rw [UInt32.le_iff_toNat_le] at hmm
        rw [UInt32.lt_iff_toNat_lt] at hlt
        refine ⟨?_,hle⟩
        rw [UInt32.le_iff_toNat_le]
        omega
      · rintro ⟨hge,hle⟩
        refine ⟨hle,m,hm,?_⟩
        rw [UInt32.le_iff_toNat_le] at hge
        rw [UInt32.lt_iff_toNat_lt]
        omega
    rw [heq]
    by_cases htop : r.idMax < m + 1
    · refine .inl ⟨if_pos htop,Set.eq_empty_iff_forall_notMem.mpr fun id hid => ?_⟩
      obtain ⟨hge,hle⟩ := (habove id).mp hid.2
      exact UInt32.lt_irrefl _ (UInt32.lt_of_lt_of_le htop (UInt32.le_trans hge hle))
    · rw [if_neg htop]
      have hge : r.idMin ≤ m + 1 := by
        have hmm := UInt32.le_iff_toNat_le.mp hm.1.2.1
        rw [UInt32.le_iff_toNat_le]
        omega
      refine .inr ⟨fun he => ?_,?_⟩
      · have hmm := UInt32.le_iff_toNat_le.mp hm.1.2.1
        rw [← he] at hmm
        omega
      · have hset : freeIds known ids ∩ aboveLocal r ids = {id ∈ freeIds known ids | m + 1 ≤ id ∧ id ≤ r.idMax} := by
          ext id
          exact and_congr_right fun _ => habove id
        rw [hset]
        exact hspec (m + 1) hge

/-- The search downwards starts in front of the local ids. -/
theorem searchDown_chosen (h : Scanned r ids s) (hmin : 0 < r.idMin) (hmax : r.idMax < 0xFFFFFFFF) (hfuel : 2^32 ≤ fuel) :
    ∃ result, searchIds known fuel true r s = .returned result ∧ Chosen known true r ids result := by
  have hspec : ∀ start, start ≤ r.idMax → ∃ result,
      searchDown (checkId known r.idMin r.idMax (some s.used)) r.idMin fuel start = .returned result ∧
        GreatestOf {id ∈ freeIds known ids | r.idMin ≤ id ∧ id ≤ start} result := fun start hstart =>
    searchDown_spec hmin (fun id hge hle => h.check hmax hge (UInt32.le_trans hle hstart)) (Nat.lt_of_lt_of_le start.toNat_lt hfuel)
  refine searchTwice_picks (fun _ => GreatestOf.eq_empty) (fun _ _ => GreatestOf.nonempty) ?_ (hspec r.idMax (UInt32.le_refl _))
  rcases h.lowest hmin with ⟨hempty,heq⟩ | ⟨m,hm,heq⟩
  · refine .inl ⟨by rw [heq,ite_self],Set.eq_empty_iff_forall_notMem.mpr ?_⟩
    rintro id ⟨_,_,m,hm,_⟩
    rw [hempty] at hm
    exact hm.1
  · have hpos : 0 < m := UInt32.lt_of_lt_of_le hmin hm.1.2.1
    have hpred := toNat_pred hpos
    have hpos := UInt32.lt_iff_toNat_lt.mp hpos
    have hzero : (0 : UInt32).toNat = 0 := rfl
    have hbelow : ∀ id, id ∈ belowLocal r ids ↔ r.idMin ≤ id ∧ id ≤ m - 1 := fun id => by
      constructor
      · rintro ⟨hge,m',hm',hlt⟩
        have hmm := hm'.2 hm.1
        rw [UInt32.le_iff_toNat_le] at hmm
        rw [UInt32.lt_iff_toNat_lt] at hlt
        refine ⟨hge,?_⟩
        rw [UInt32.le_iff_toNat_le]
        omega
      · rintro ⟨hge,hle⟩
        refine ⟨hge,m,hm,?_⟩
        rw [UInt32.le_iff_toNat_le] at hle
        rw [UInt32.lt_iff_toNat_lt]
        omega
    have hmm := UInt32.le_iff_toNat_le.mp hm.1.2.2
    rw [heq]
    by_cases hbottom : m - 1 < r.idMin
    · refine .inl ⟨if_pos hbottom,Set.eq_empty_iff_forall_notMem.mpr fun id hid => ?_⟩
      obtain ⟨hge,hle⟩ := (hbelow id).mp hid.2
      exact UInt32.lt_irrefl _ (UInt32.lt_of_le_of_lt (UInt32.le_trans hge hle) hbottom)
    · rw [if_neg hbottom]
      refine .inr ⟨fun he => ?_,?_⟩
      · rw [← he] at hmm
        omega
      · have hset : freeIds known ids ∩ belowLocal r ids = {id ∈ freeIds known ids | r.idMin ≤ id ∧ id ≤ m - 1} := by
          ext id
          exact and_congr_right fun _ => hbelow id
        rw [hset]
        apply hspec
        rw [UInt32.le_iff_toNat_le]
        omega

/-- A search gives back only what passed its check. -/
theorem searchFrom_returned {inRange : UInt32 → Bool} {next : UInt32 → UInt32} {check : UInt32 → Option IdCheck} {start : UInt32}
    (h : searchFrom inRange next check fuel start = .returned (some id)) : check id = some .available := by
  induction fuel generalizing start with
  | zero => cases h
  | succ fuel ih =>
    unfold searchFrom at h
    split at h
    · split at h
      · cases h
      · rename_i hcheck
        cases h
        exact hcheck
      · exact ih h
    · cases h

private theorem searchIds_returned {sys : Bool} (h : searchIds known fuel sys r s = .returned (some id)) :
    checkId known r.idMin r.idMax (some s.used) id = some .available := by
  have htwice : ∀ (search : UInt32 → Outcome) (first again : UInt32),
      (∀ start, search start = .returned (some id) → checkId known r.idMin r.idMax (some s.used) id = some .available) →
      searchTwice search first again = .returned (some id) → checkId known r.idMin r.idMax (some s.used) id = some .available := by
    intro search first again hsearch htwo
    unfold searchTwice at htwo
    split at htwo
    · split at htwo
      · cases htwo
      · exact hsearch again htwo
    · exact hsearch first htwo
  unfold searchIds at h
  cases sys with
  | true => exact htwice (searchDown _ r.idMin fuel) _ _ (fun _ hdown => searchFrom_returned hdown) h
  | false => exact htwice (searchUp _ r.idMax fuel) _ _ (fun _ hup => searchFrom_returned hup) h

private theorem checkId_unknown {idMin idMax : UInt32} {used : Option UsedIds} (h : checkId known idMin idMax used id = some .available) :
    known id = false := by
  unfold checkId at h
  split at h
  · cases h
  · split at h
    · cases h
    · split at h
      · cases h
      · cases h
      · split at h
        · cases h
        · rename_i hknown
          exact Bool.eq_false_iff.mpr hknown

end Specification

section Results
variable {α : Type} {items : IdItems} {idOf : α → UInt32} {defs : LoginDefs} {known : UInt32 → Bool} {memory sys : Bool}
  {fuel : Nat} {preferred : Option UInt32} {db : Db α} {l : List Nat} {stale : Bool} {r : IdRanges}

/-- The range that is configured for one kind of users or groups. -/
def configuredRange (items : IdItems) (defs : LoginDefs) (sys : Bool) : IdRanges :=
  if sys then ⟨max (sysIdMinItem items defs) 1,sysIdMaxItem items defs,1⟩
  else ⟨idMinItem items defs,idMaxItem items defs,idMinItem items defs⟩

/-- The ids of the entries of a database, committed or not. -/
def idsOf (idOf : α → UInt32) (db : Db α) (l : List Nat) : List UInt32 := (entriesOf (l.map db.record)).map idOf

/-- A preferred id that is given. -/
def Usable (known : UInt32 → Bool) (r : IdRanges) (ids : List UInt32) (preferred : Option UInt32) (id : UInt32) : Prop :=
  preferred = some id ∧ id ∈ freeIds known ids ∧ id ≠ 0xFFFFFFFF ∧ r.preferredMin ≤ id ∧ id ≤ r.idMax

theorem max_one (a : UInt32) : max a 1 = if a = 0 then 1 else a := by
  by_cases ha : a = 0
  · subst ha
    rfl
  · rw [if_neg ha]
    have hpos : (1 : UInt32) ≤ a := by
      have hne : a.toNat ≠ 0 := fun h => ha (UInt32.toNat_inj.mp h)
      have hone : (1 : UInt32).toNat = 1 := rfl
      rw [UInt32.le_iff_toNat_le]
      omega
    show (if a ≤ 1 then 1 else a) = a
    split
    · rename_i hle
      exact UInt32.le_antisymm hpos hle
    · rfl

private theorem getRanges_eq_some (h : getRanges items defs sys = some r) : r = configuredRange items defs sys := by
  unfold getRanges at h
  unfold configuredRange
  cases sys with
  | true =>
    simp only [if_true] at h ⊢
    split at h
    · cases h
    · rw [max_one]
      exact (Option.some.inj h).symm
  | false =>
    simp only [Bool.false_eq_true,if_false] at h ⊢
    split at h
    · cases h
    · exact (Option.some.inj h).symm

private theorem getRanges_of_le (h : (configuredRange items defs sys).idMin ≤ (configuredRange items defs sys).idMax) :
    getRanges items defs sys = some (configuredRange items defs sys) := by
  unfold getRanges
  unfold configuredRange at h ⊢
  cases sys with
  | true =>
    simp only [if_true,max_one] at h ⊢
    refine if_neg fun hlt => ?_
    split at h
    · rename_i hzero
      rw [hzero] at hlt
      exact absurd hlt (UInt32.not_lt.mpr (UInt32.le_iff_toNat_le.mpr (Nat.zero_le _)))
    · exact absurd hlt (UInt32.not_lt.mpr h)
  | false =>
    simp only [Bool.false_eq_true,if_false] at h ⊢
    exact if_neg (UInt32.not_lt.mpr h)

private theorem idMin_pos (hsys : sys = true) : 0 < (configuredRange items defs sys).idMin := by
  subst hsys
  have hone : (0 : UInt32) < 1 := by decide
  simp only [configuredRange,if_true,max_one]
  split
  · exact hone
  · rename_i hne
    have hne : (sysIdMinItem items defs).toNat ≠ 0 := fun h => hne (UInt32.toNat_inj.mp h)
    rw [UInt32.lt_iff_toNat_lt]
    exact Nat.pos_of_ne_zero hne

/-- The check of a preferred id does not look at the array. -/
theorem checkId_preferred {idMin idMax id : UInt32} : checkId known idMin idMax none id = some .available ↔
    idMin ≤ id ∧ id ≤ idMax ∧ id ≠ 0xFFFF ∧ id ≠ 0xFFFFFFFF ∧ known id = false := by
  unfold checkId
  by_cases hrange : id < idMin ∨ idMax < id
  · rw [if_pos hrange]
    refine ⟨nofun,fun ⟨hge,hle,_⟩ => ?_⟩
    rcases hrange with h | h
    · exact absurd h (UInt32.not_lt.mpr hge)
    · exact absurd h (UInt32.not_lt.mpr hle)
  · rw [if_neg hrange]
    obtain ⟨hge,hle⟩ := not_or.mp hrange
    rw [UInt32.not_lt] at hge hle
    by_cases hcode : id = 0xFFFF ∨ id = 0xFFFFFFFF
    · rw [if_pos hcode]
      exact ⟨nofun,fun ⟨_,_,h,h',_⟩ => absurd hcode (not_or.mpr ⟨h,h'⟩)⟩
    · rw [if_neg hcode]
      obtain ⟨h,h'⟩ := not_or.mp hcode
      cases hk : known id <;> simp [hge,hle,h,h']

private theorem tryPreferred_spec (idOf : α → UInt32) (known : UInt32 → Bool) (r : IdRanges) (preferred : Option UInt32)
    (hrep : Rep db l stale) (hopen : db.isopen = true) :
    (∃ id, Usable known r (idsOf idOf db l) preferred id ∧ (tryPreferred idOf known r preferred db).1 = some id) ∨
      (∀ id, ¬ Usable known r (idsOf idOf db l) preferred id) ∧ (tryPreferred idOf known r preferred db).1 = none ∧
        Rep (tryPreferred idOf known r preferred db).2 l stale ∧ (tryPreferred idOf known r preferred db).2.isopen = true ∧
        (tryPreferred idOf known r preferred db).2.record = db.record := by
  cases preferred with
  | none => exact .inr ⟨nofun,rfl,hrep,hopen,rfl⟩
  | some id =>
    by_cases hcheck : checkId known r.preferredMin r.idMax none id = some .available
    · obtain ⟨hge,hle,hne,hne',hk⟩ := checkId_preferred.mp hcheck
      unfold tryPreferred
      simp only [hcheck,if_true]
      obtain ⟨hfind,hmoved⟩ := searchEntry_eq (fun a => idOf a == id) hrep hopen
      rcases hrun : searchEntry (fun a => idOf a == id) db with ⟨found,db'⟩
      rw [hrun] at hfind hmoved
      cases found with
      | none =>
        have hnot : id ∉ idsOf idOf db l := fun hid => by
          obtain ⟨a,ha,rfl⟩ := List.mem_map.mp hid
          simpa using List.find?_eq_none.mp hfind.symm a ha
        exact .inl ⟨id,⟨rfl,⟨hne,hnot,hk⟩,hne',hge,hle⟩,rfl⟩
      | some a =>
        refine .inr ⟨fun id' husable => ?_,rfl,hmoved.rep hrep,hmoved.flags.1.trans hopen,hmoved.record⟩
        obtain ⟨he,hfree,_⟩ := husable
        cases he
        have ha : idOf a = id := by simpa using List.find?_some hfind.symm
        exact hfree.2.1 (ha ▸ List.mem_map_of_mem (List.mem_of_find?_eq_some hfind.symm))
    · have hrun : tryPreferred idOf known r (some id) db = (none,db) := if_neg hcheck
      rw [hrun]
      refine .inr ⟨fun id' husable => ?_,rfl,hrep,hopen,rfl⟩
      obtain ⟨he,hfree,hne,hge,hle⟩ := husable
      cases he
      exact hcheck (checkId_preferred.mpr ⟨hge,hle,hfree.1,hne,hfree.2.2⟩)

/-- The loop over the local entries is one over their ids. -/
theorem forEachEntry_scan (hrep : Rep db l stale) (hopen : db.isopen = true) (s : Scan) :
    (forEachEntry (fun s a => scanBody r s (idOf a)) s db).1 = (idsOf idOf db l).foldlM (scanBody r) s := by
  rw [(forEachEntry_eq _ s hrep hopen).1,idsOf,List.foldlM_map]

/-- What a call does that comes to its searches, or does not. -/
theorem findNewId_cases (idOf : α → UInt32) (known : UInt32 → Bool) (memory : Bool) (fuel : Nat) (preferred : Option UInt32)
    (hrep : Rep db l stale) (hopen : db.isopen = true) (hranges : getRanges items defs sys = some r) :
    (∃ id, Usable known r (idsOf idOf db l) preferred id ∧
      (findNewId items idOf defs known memory fuel sys preferred db).1 = .returned (some id)) ∨
    (∀ id, ¬ Usable known r (idsOf idOf db l) preferred id) ∧
      (findNewId items idOf defs known memory fuel sys preferred db).1 =
        if memory then
          match (idsOf idOf db l).foldlM (scanBody r) ⟨r.idMax,r.idMin,.calloc (r.idMax + 1)⟩ with
          | .error () => .outOfBounds
          | .ok s => searchIds known fuel sys r s
        else .returned none := by
  unfold findNewId
  simp only [hranges]
  rcases tryPreferred_spec idOf known r preferred hrep hopen with
    ⟨id,husable,hrun⟩ | ⟨hnone,hrun,hrep',hopen',hrecord⟩
  · rcases hpair : tryPreferred idOf known r preferred db with ⟨_,db'⟩
    rw [hpair] at hrun
    cases hrun
    exact .inl ⟨id,husable,rfl⟩
  · rcases hpair : tryPreferred idOf known r preferred db with ⟨_,db'⟩
    rw [hpair] at hrun hrep' hopen' hrecord
    cases hrun
    refine .inr ⟨hnone,?_⟩
    have hids : idsOf idOf db l = idsOf idOf db' l := by
      unfold idsOf
      rw [← hrecord]
    rw [hids,← forEachEntry_scan hrep' hopen']
    cases memory with
    | false => rfl
    | true =>
      simp only [if_true]
      rcases forEachEntry (fun s a => scanBody r s (idOf a)) ⟨r.idMax,r.idMin,.calloc (r.idMax + 1)⟩ db' with ⟨_ | s,_⟩
      · rfl
      · rfl

/-- A new id is not one of the name service, and the search only moves the cursor. -/
theorem findNewId_new {id : UInt32} {db' : Db α} (hrep : Rep db l stale) (hopen : db.isopen = true)
    (h : findNewId items idOf defs known memory fuel sys none db = (.returned (some id),db')) :
    known id = false ∧ MovedCursor db db' l := by
  unfold findNewId at h
  split at h
  · cases h
  · rename_i r hranges
    simp only [tryPreferred] at h
    cases memory with
    | false => cases h
    | true =>
      have hmoved := (forEachEntry_eq (fun s a => scanBody r s (idOf a)) ⟨r.idMax,r.idMin,.calloc (r.idMax + 1)⟩ hrep hopen).2
      rcases hscan : forEachEntry (fun s a => scanBody r s (idOf a)) ⟨r.idMax,r.idMin,.calloc (r.idMax + 1)⟩ db with ⟨_ | s,db₁⟩
      · rw [hscan] at h
        cases h
      · rw [hscan] at h hmoved
        obtain ⟨hfound,rfl⟩ := Prod.mk.inj h
        exact ⟨checkId_unknown (searchIds_returned hfound),hmoved⟩

/-- With an array for all ids of the range, both searches come to an end. -/
theorem findNewId_chosen (hrep : Rep db l stale) (hopen : db.isopen = true) (hranges : getRanges items defs sys = some r)
    (hmax : r.idMax < 0xFFFFFFFF) (hfuel : 2^32 ≤ fuel) (hnone : ∀ id, ¬ Usable known r (idsOf idOf db l) preferred id) :
    ∃ result, (findNewId items idOf defs known true fuel sys preferred db).1 = .returned result ∧
      Chosen known sys r (idsOf idOf db l) result := by
  rcases findNewId_cases idOf known true fuel preferred hrep hopen hranges with ⟨id,husable,_⟩ | ⟨_,hrun⟩
  · exact absurd husable (hnone id)
  · obtain ⟨s,hs,hscanned⟩ := (Scanned.start hmax).run hmax (idsOf idOf db l)
    rw [List.nil_append] at hscanned
    rw [hrun,if_pos rfl,hs]
    cases hsys : sys with
    | true =>
      have hmin : 0 < r.idMin := getRanges_eq_some hranges ▸ idMin_pos hsys
      exact searchDown_chosen hscanned hmin hmax hfuel
    | false => exact searchUp_chosen hscanned hmax hfuel

/-- What a call for a new id gives: the preferred one where it is free, or else the chosen one, and none
only where the range has no free id. -/
structure AsSpecified (known : UInt32 → Bool) (sys : Bool) (r : IdRanges) (ids : List UInt32) (preferred : Option UInt32)
    (outcome : Outcome) : Prop where
  given : ∀ id, Usable known r ids preferred id → outcome = .returned (some id)
  chosen : (∀ id, ¬ Usable known r ids preferred id) → ∃ result, outcome = .returned result ∧ Chosen known sys r ids result ∧
    (result = none ↔ ∀ id ∈ freeIds known ids, ¬ (r.idMin ≤ id ∧ id ≤ r.idMax))

private theorem findNewId_asSpecified (hrep : Rep db l stale) (hopen : db.isopen = true)
    (hrange : (configuredRange items defs sys).idMin ≤ (configuredRange items defs sys).idMax)
    (hmax : (configuredRange items defs sys).idMax < 0xFFFFFFFF) (hfuel : 2^32 ≤ fuel) :
    AsSpecified known sys (configuredRange items defs sys) (idsOf idOf db l) preferred
      (findNewId items idOf defs known true fuel sys preferred db).1 := by
  have hranges := getRanges_of_le hrange
  refine ⟨fun id husable => ?_,fun hnone => ?_⟩
  · rcases findNewId_cases idOf known true fuel preferred hrep hopen hranges with ⟨id',husable',hrun⟩ | ⟨hnone,_⟩
    · cases husable.1.symm.trans husable'.1
      exact hrun
    · exact absurd husable (hnone id)
  · obtain ⟨result,hrun,hchosen⟩ := findNewId_chosen hrep hopen hranges hmax hfuel hnone
    exact ⟨result,hrun,hchosen,hchosen.none_iff⟩

end Results

/-- New ids are found as specified, whatever the order of the entries is. -/
theorem new_ids_as_specified :
    (∀ (defs : LoginDefs) (known : UInt32 → Bool) (fuel : Nat) (sys : Bool) (preferred : Option UInt32) (db : Db Passwd)
      (l : List Nat) (stale : Bool), Rep db l stale → db.isopen = true →
      (configuredRange uidItems defs sys).idMin ≤ (configuredRange uidItems defs sys).idMax →
      (configuredRange uidItems defs sys).idMax < 0xFFFFFFFF → 2^32 ≤ fuel →
        AsSpecified known sys (configuredRange uidItems defs sys) (idsOf Passwd.uid db l) preferred
          (findNewUid defs known true fuel sys preferred db).1) ∧
    ∀ (defs : LoginDefs) (known : UInt32 → Bool) (fuel : Nat) (sys : Bool) (preferred : Option UInt32) (db : Db Group)
      (l : List Nat) (stale : Bool), Rep db l stale → db.isopen = true →
      (configuredRange gidItems defs sys).idMin ≤ (configuredRange gidItems defs sys).idMax →
      (configuredRange gidItems defs sys).idMax < 0xFFFFFFFF → 2^32 ≤ fuel →
        AsSpecified known sys (configuredRange gidItems defs sys) (idsOf Group.gid db l) preferred
          (findNewGid defs known true fuel sys preferred db).1 := by
  refine ⟨fun defs known fuel sys preferred db l stale hrep hopen hrange hmax hfuel => ?_,
    fun defs known fuel sys preferred db l stale hrep hopen hrange hmax hfuel => ?_⟩
  · exact findNewId_asSpecified hrep hopen hrange hmax hfuel
  · exact findNewId_asSpecified hrep hopen hrange hmax hfuel

/-- Two accounts, the second one in front of the first, and an id that only the name service knows. -/
def twoAccounts : Db Passwd :=
  (commonioOpen passwdOps (Db.initial (fun _ => ⟨none,none,none,none,false⟩) 0 true) .rdwr false
    (fileState (some (ascii "b:x:1003:100::/:\na:x:1001:100::/:\n"))) true).2

def oneGroup : Db Group :=
  (commonioOpen (groupOps 0) (Db.initial emptyMemory 0 true) .rdwr false (fileState (some (ascii "g:x:105:\n"))) true).2

def noDefs : LoginDefs := fun _ => none

theorem new_ids_as_specified_without_defs :
    (∃ l stale, Rep twoAccounts l stale ∧ AsSpecified (· == 1004) false (configuredRange uidItems noDefs false)
      (idsOf Passwd.uid twoAccounts l) none (findNewUid noDefs (· == 1004) true (2^32) false none twoAccounts).1) ∧
    ∃ l stale, Rep oneGroup l stale ∧ AsSpecified (· == 104) true (configuredRange gidItems noDefs true)
      (idsOf Group.gid oneGroup l) (some 105) (findNewGid noDefs (· == 104) true (2^32) true (some 105) oneGroup).1 := by
  have hpasswd : commonioOpen passwdOps (Db.initial (fun _ => ⟨none,none,none,none,false⟩) 0 true) .rdwr false
      (fileState (some (ascii "b:x:1003:100::/:\na:x:1001:100::/:\n"))) true = (true,twoAccounts) := rfl
  have hgroup : commonioOpen (groupOps 0) (Db.initial emptyMemory 0 true) .rdwr false (fileState (some (ascii "g:x:105:\n"))) true =
      (true,oneGroup) := rfl
  obtain ⟨l,stale,_,hloaded,hopen,_⟩ := commonioOpen_loaded (namesParts_of_no_hook rfl) hpasswd
  obtain ⟨l',stale',_,hloaded',hopen',_⟩ := commonioOpen_loaded (namesParts_of_no_hook rfl) hgroup
  obtain ⟨huid,hgid⟩ := new_ids_as_specified
  refine ⟨⟨l,stale,hloaded.rep,huid _ _ _ _ _ _ _ _ hloaded.rep hopen (by decide) (by decide) le_rfl⟩,
    l',stale',hloaded'.rep,hgid _ _ _ _ _ _ _ _ hloaded'.rep hopen' (by decide) (by decide) le_rfl⟩

example : (findNewUid noDefs (· == 1004) true 3 false none twoAccounts).1 = .returned (some 1005) := by decide +kernel

section Safety
variable {α : Type} {items : IdItems} {idOf : α → UInt32} {defs : LoginDefs} {known : UInt32 → Bool} {memory sys : Bool}
  {preferred : Option UInt32} {db : Db α} {l : List Nat} {stale : Bool} {r : IdRanges} {ids : List UInt32} {s : Scan}
  {used : UsedIds} {idMin idMax id : UInt32}

/-- A call that needs no array, or has one for all ids of its range: the number of elements is one more
than the last id, which is no element at all for the last id that there is. -/
def ArrayFits (known : UInt32 → Bool) (memory sys : Bool) (r : IdRanges) (ids : List UInt32) (preferred : Option UInt32) : Prop :=
  r.idMax < 0xFFFFFFFF ∨ (∃ id, Usable known r ids preferred id) ∨ memory = false ∨
    sys = true ∧ r.idMin = 0xFFFFFFFF ∧ 0xFFFFFFFF ∉ ids

theorem UInt32.le_last (a : UInt32) : a ≤ 0xFFFFFFFF := by
  have hlt := a.toNat_lt
  have hlast : (0xFFFFFFFF : UInt32).toNat = 4294967295 := rfl
  rw [UInt32.le_iff_toNat_le]
  omega

/-- The first id of the range that an entry has is stored in an array that has no elements. -/
theorem scan_no_array (hmax : r.idMax = 0xFFFFFFFF) (hsize : s.used.size = 0) (hhighest : s.highest = r.idMin)
    (ids : List UInt32) : ids.foldlM (scanBody r) s = if ∃ id ∈ ids, r.idMin ≤ id then .error () else .ok s := by
  induction ids with
  | nil => simp [pure,Except.pure]
  | cons id ids ih =>
    rw [List.foldlM_cons]
    by_cases hin : r.idMin ≤ id
    · have hbody : scanBody r s id = .error () := by
        unfold scanBody
        rw [if_pos ⟨hin,hmax ▸ UInt32.le_last id⟩,UsedIds.set?,if_neg (by omega)]
      rw [hbody,if_pos ⟨id,List.mem_cons_self,hin⟩]
      rfl
    · have hbody : scanBody r s id = .ok s := by
        unfold scanBody
        rw [if_neg fun h => hin h.1,if_neg fun h => hin h.2,if_neg fun h => hin (hhighest ▸ h.1)]
      have hexists : (∃ id' ∈ id :: ids, r.idMin ≤ id') ↔ ∃ id' ∈ ids, r.idMin ≤ id' := by
        simp only [List.exists_mem_cons_iff,hin,false_or]
      rw [hbody]
      simp only [hexists]
      exact ih

/-- Without elements no id is found to be free. -/
theorem checkId_no_array (hsize : used.size = 0) : checkId known idMin idMax (some used) id ≠ some .available := by
  unfold checkId
  split
  · nofun
  · split
    · nofun
    · rw [Option.elim_some,UsedIds.get?,if_neg (by omega)]
      nofun

/-- The loop upwards to the last id that there is never comes to an end of its own. -/
theorem searchUp_never {check : UInt32 → Option IdCheck} (hcheck : ∀ id, check id ≠ some .available) (fuel : Nat) (id : UInt32)
    (result : Option UInt32) : searchUp check 0xFFFFFFFF fuel id ≠ .returned result := by
  unfold searchUp
  induction fuel generalizing id with
  | zero => exact nofun
  | succ fuel ih =>
    rw [searchFrom,decide_eq_true (UInt32.le_last id),if_pos rfl]
    cases hc : check id with
    | none => exact nofun
    | some c =>
      cases c with
      | available => exact absurd hc (hcheck id)
      | _ => exact ih (id + 1)

private theorem searchTwice_same (search : UInt32 → Outcome) (first : UInt32) : searchTwice search first first = search first := by
  unfold searchTwice
  rw [if_pos rfl]
  split
  · rename_i hsearch
    exact hsearch.symm
  · rfl

/-- The loop downwards passes the last id that there is, and its first index is that of the id before it. -/
theorem searchDown_last (fuel : Nat) : searchDown (checkId known idMin 0xFFFFFFFF (some used)) idMin (fuel + 1) 0xFFFFFFFF =
    searchDown (checkId known idMin 0xFFFFFFFF (some used)) idMin fuel 0xFFFFFFFE := by
  have hfirst : checkId known idMin 0xFFFFFFFF (some used) 0xFFFFFFFF = some .einval := by
    unfold checkId
    rw [if_neg (not_or.mpr ⟨UInt32.not_lt.mpr (UInt32.le_last idMin),UInt32.lt_irrefl _⟩),if_pos (.inr rfl)]
  have hbefore : (0xFFFFFFFF : UInt32) - 1 = 0xFFFFFFFE := rfl
  unfold searchDown
  rw [searchFrom,decide_eq_true (UInt32.le_last idMin),if_pos rfl,hfirst]
  simp only [hbefore]

private theorem searchDown_no_array (hsize : used.size = 0) (fuel : Nat) :
    searchDown (checkId known idMin 0xFFFFFFFF (some used)) idMin (fuel + 1) 0xFFFFFFFE =
      if idMin = 0xFFFFFFFF then .returned none else .outOfBounds := by
  unfold searchDown
  rw [searchFrom]
  by_cases hmin : idMin = 0xFFFFFFFF
  · subst hmin
    rw [if_pos rfl]
    rfl
  · have hle : idMin ≤ 0xFFFFFFFE := by
      have hle := UInt32.le_iff_toNat_le.mp (UInt32.le_last idMin)
      have hne := UInt32.toNat_inj.ne.mpr hmin
      have hlast : (0xFFFFFFFF : UInt32).toNat = 4294967295 := rfl
      have hbefore : (0xFFFFFFFE : UInt32).toNat = 4294967294 := rfl
      rw [UInt32.le_iff_toNat_le]
      omega
    have hnone : checkId known idMin 0xFFFFFFFF (some used) 0xFFFFFFFE = none := by
      unfold checkId
      rw [if_neg (not_or.mpr ⟨UInt32.not_lt.mpr hle,by decide⟩),if_neg (by decide),Option.elim_some,UsedIds.get?,if_neg (by omega)]
    rw [decide_eq_true hle,if_pos rfl,hnone,if_neg hmin]

/-- A call for a range that ends with the last id that there is. -/
theorem findNewId_last (hrep : Rep db l stale) (hopen : db.isopen = true) (hranges : getRanges items defs sys = some r)
    (hmax : r.idMax = 0xFFFFFFFF) (hnone : ∀ id, ¬ Usable known r (idsOf idOf db l) preferred id) :
    (∃ fuel result, (findNewId items idOf defs known true fuel sys preferred db).1 = .returned result) ↔
      sys = true ∧ r.idMin = 0xFFFFFFFF ∧ 0xFFFFFFFF ∉ idsOf idOf db l := by
  have hzero : (r.idMax + 1).toNat = 0 := by
    rw [hmax]
    rfl
  have hrun : ∀ fuel, (findNewId items idOf defs known true fuel sys preferred db).1 =
      if ∃ id ∈ idsOf idOf db l, r.idMin ≤ id then .outOfBounds
      else searchIds known fuel sys r ⟨r.idMax,r.idMin,.calloc (r.idMax + 1)⟩ := fun fuel => by
    rcases findNewId_cases idOf known true fuel preferred hrep hopen hranges with ⟨id,husable,_⟩ | ⟨_,hrun⟩
    · exact absurd husable (hnone id)
    · rw [hrun,if_pos rfl,scan_no_array hmax hzero rfl]
      by_cases hids : ∃ id ∈ idsOf idOf db l, r.idMin ≤ id
      · rw [if_pos hids,if_pos hids]
      · rw [if_neg hids,if_neg hids]
  have harray : (UsedIds.calloc (0xFFFFFFFF + 1)).size = 0 := rfl
  have hlast : ¬ (0xFFFFFFFF : UInt32) < r.idMin := UInt32.not_lt.mpr (UInt32.le_last _)
  simp only [hrun]
  by_cases hids : ∃ id ∈ idsOf idOf db l, r.idMin ≤ id
  · simp only [if_pos hids]
    refine ⟨nofun,fun ⟨_,hmin,hnot⟩ => ?_⟩
    obtain ⟨id,hid,hge⟩ := hids
    rw [hmin] at hge
    exact absurd (UInt32.le_antisymm hge (UInt32.le_last id) ▸ hid) hnot
  · simp only [if_neg hids]
    cases sys with
    | false =>
      refine ⟨fun ⟨fuel,result,h⟩ => ?_,nofun⟩
      simp only [searchIds,Bool.false_eq_true,if_false,ite_self,searchTwice_same,hmax] at h
      exact absurd h (searchUp_never (fun id => checkId_no_array harray) fuel _ result)
    | true =>
      simp only [searchIds,if_true,hmax,if_neg hlast,searchTwice_same,true_and]
      have hnot : r.idMin = 0xFFFFFFFF → 0xFFFFFFFF ∉ idsOf idOf db l := fun hmin hid => hids ⟨_,hid,UInt32.le_last _⟩
      constructor
      · rintro ⟨fuel,result,h⟩
        match fuel with
        | 0 => exact nomatch h
        | fuel + 1 =>
          rw [searchDown_last] at h
          match fuel with
          | 0 => exact nomatch h
          | fuel + 1 =>
            rw [searchDown_no_array harray] at h
            split at h
            · rename_i hmin
              exact ⟨hmin,hnot hmin⟩
            · exact nomatch h
      · rintro ⟨hmin,_⟩
        refine ⟨2,none,?_⟩
        rw [searchDown_last,searchDown_no_array harray,if_pos hmin]

/-- A call comes to its end within the array exactly where the array fits. -/
theorem findNewId_ends_iff (hrep : Rep db l stale) (hopen : db.isopen = true) :
    (∃ fuel result, (findNewId items idOf defs known memory fuel sys preferred db).1 = .returned result) ↔
      ∀ r, getRanges items defs sys = some r → ArrayFits known memory sys r (idsOf idOf db l) preferred := by
  cases hranges : getRanges items defs sys with
  | none =>
    refine ⟨fun _ => nofun,fun _ => ⟨0,none,?_⟩⟩
    unfold findNewId
    simp only [hranges]
  | some r =>
    have hone : (∀ r', some r = some r' → ArrayFits known memory sys r' (idsOf idOf db l) preferred) ↔
        ArrayFits known memory sys r (idsOf idOf db l) preferred :=
      ⟨fun h => h r rfl,fun h r' hr' => Option.some.inj hr' ▸ h⟩
    rw [hone]
    by_cases husable : ∃ id, Usable known r (idsOf idOf db l) preferred id
    · refine ⟨fun _ => .inr (.inl husable),fun _ => ?_⟩
      rcases findNewId_cases idOf known memory 0 preferred hrep hopen hranges with ⟨id,_,hrun⟩ | ⟨hnone,_⟩
      · exact ⟨0,some id,hrun⟩
      · exact absurd husable (not_exists.mpr hnone)
    have hnone := not_exists.mp husable
    cases memory with
    | false =>
      refine ⟨fun _ => .inr (.inr (.inl rfl)),fun _ => ?_⟩
      rcases findNewId_cases idOf known false 0 preferred hrep hopen hranges with ⟨id,husable,_⟩ | ⟨_,hrun⟩
      · exact absurd husable (hnone id)
      · exact ⟨0,none,hrun⟩
    | true =>
      by_cases hmax : r.idMax < 0xFFFFFFFF
      · refine ⟨fun _ => .inl hmax,fun _ => ?_⟩
        obtain ⟨result,hrun,_⟩ := findNewId_chosen hrep hopen hranges hmax le_rfl hnone
        exact ⟨2^32,result,hrun⟩
      · have hlast : r.idMax = 0xFFFFFFFF := UInt32.le_antisymm (UInt32.le_last _) (UInt32.not_lt.mp hmax)
        rw [findNewId_last hrep hopen hranges hlast hnone]
        unfold ArrayFits
        simp only [hmax,husable,Bool.true_eq_false,false_or]

end Safety

/-- The loops of a call for a new id end, and every index is one of the array, exactly where the array fits. -/
theorem new_ids_safe_iff (defs : LoginDefs) :
    (∀ (known : UInt32 → Bool) (memory sys : Bool) (preferred : Option UInt32) (db : Db Passwd)
      (l : List Nat) (stale : Bool), Rep db l stale → db.isopen = true →
      ((∃ fuel result, (findNewUid defs known memory fuel sys preferred db).1 = .returned result) ↔
        ∀ r, getRanges uidItems defs sys = some r → ArrayFits known memory sys r (idsOf Passwd.uid db l) preferred)) ∧
    ∀ (known : UInt32 → Bool) (memory sys : Bool) (preferred : Option UInt32) (db : Db Group)
      (l : List Nat) (stale : Bool), Rep db l stale → db.isopen = true →
      ((∃ fuel result, (findNewGid defs known memory fuel sys preferred db).1 = .returned result) ↔
        ∀ r, getRanges gidItems defs sys = some r → ArrayFits known memory sys r (idsOf Group.gid db l) preferred) := by
  refine ⟨fun known memory sys preferred db l stale hrep hopen => ?_,
    fun known memory sys preferred db l stale hrep hopen => ?_⟩
  · exact findNewId_ends_iff hrep hopen
  · exact findNewId_ends_iff hrep hopen

theorem new_ids_safe_iff_without_defs :
    (∃ fuel result, (findNewUid noDefs (· == 1004) true fuel false none twoAccounts).1 = .returned result) ∧
      ∃ fuel result, (findNewGid noDefs (· == 104) true fuel true none oneGroup).1 = .returned result := by
  have hpasswd : commonioOpen passwdOps (Db.initial (fun _ => ⟨none,none,none,none,false⟩) 0 true) .rdwr false
      (fileState (some (ascii "b:x:1003:100::/:\na:x:1001:100::/:\n"))) true = (true,twoAccounts) := rfl
  have hgroup : commonioOpen (groupOps 0) (Db.initial emptyMemory 0 true) .rdwr false (fileState (some (ascii "g:x:105:\n"))) true =
      (true,oneGroup) := rfl
  obtain ⟨l,stale,_,hloaded,hopen,_⟩ := commonioOpen_loaded (namesParts_of_no_hook rfl) hpasswd
  obtain ⟨l',stale',_,hloaded',hopen',_⟩ := commonioOpen_loaded (namesParts_of_no_hook rfl) hgroup
  obtain ⟨huid,hgid⟩ := new_ids_safe_iff noDefs
  refine ⟨(huid _ _ _ _ _ _ _ hloaded.rep hopen).mpr fun r hr => .inl ?_,
    (hgid _ _ _ _ _ _ _ hloaded'.rep hopen').mpr fun r hr => .inl ?_⟩
  · cases hr
    decide
  · cases hr
    decide

def allUids : LoginDefs := fun item => if item = ascii "UID_MAX" then some (ascii "4294967295") else none

/-- All ids that there are for users: the array of the used ids has no elements, and the first local id is stored
behind its end. -/
theorem all_ids_leave_the_array :
    ¬ ∀ (defs : LoginDefs) (known : UInt32 → Bool) (memory sys : Bool) (preferred : Option UInt32) (db : Db Passwd)
      (l : List Nat) (stale : Bool), Rep db l stale → db.isopen = true →
      ∃ fuel result, (findNewUid defs known memory fuel sys preferred db).1 = .returned result := by
  intro hall
  have hpasswd : commonioOpen passwdOps (Db.initial (fun _ => ⟨none,none,none,none,false⟩) 0 true) .rdwr false
      (fileState (some (ascii "b:x:1003:100::/:\na:x:1001:100::/:\n"))) true = (true,twoAccounts) := rfl
  have hranges : getRanges uidItems allUids false = some ⟨1000,0xFFFFFFFF,1000⟩ := by decide +kernel
  obtain ⟨l,stale,_,hloaded,hopen,_⟩ := commonioOpen_loaded (namesParts_of_no_hook rfl) hpasswd
  obtain hmax | ⟨id,he,_⟩ | hmemory | ⟨hsys,_⟩ := (findNewId_ends_iff hloaded.rep hopen).mp
    (hall allUids (fun _ => false) true false none twoAccounts l stale hloaded.rep hopen) _ hranges
  · exact absurd hmax (by decide)
  · cases he
  · cases hmemory
  · cases hsys

end UserDb.Ids
