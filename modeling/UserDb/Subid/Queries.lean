import UserDb.Subid.Lookup

/-! The queries that container tools ask of the subordinate id files: who may use an id, which
ranges a user has, and whether a user has an id. -/
namespace UserDb.Subid
open UserDb.Base UserDb.Atoi UserDb.Commonio

/-- The conversion `%d` of the library: read as a long, and cut to the width of an id. -/
def scanInt (s : Bytes) : Option UInt32 :=
  (scan s 10).map fun scanned => UInt32.ofNat ((strtoimax scanned).1 % 2^32).toNat

structure SubidRange where
  start : UInt64
  count : UInt64
  deriving DecidableEq

def SubidRange.ids (r : SubidRange) : Set Nat := Set.Ico r.start.toNat (r.start.toNat + r.count.toNat)

section Program
variable (accounts : Accounts)

/-- The user id that an owner stands for; a name that nobody has is an error. -/
def ownerUid (owner : Bytes) : Option UInt32 :=
  if owner.all isDigit then scanInt owner else (accounts.getpwnam owner).map Passwd.uid

/-- `memory` says for each number of elements whether the array of the results can have so many. -/
def appendUids (memory : Nat → Bool) (uids : List UInt32) (owner : Bytes) : Except Unit (List UInt32) :=
  match ownerUid accounts owner with
  | none => .error ()
  | some uid =>
    if uid ∈ uids then .ok uids
    else if memory (uids.length + 1) then .ok (uids ++ [uid])
    else .error ()

def appendRange (memory : Nat → Bool) (ranges : List SubidRange) (r : SubordinateRange) : Except Unit (List SubidRange) :=
  if memory (ranges.length + 1) then .ok (ranges ++ [⟨r.start,r.count⟩]) else .error ()

/-- A query opens the file for its loop over the ranges. -/
def queryRanges {β : Type} (body : List β → SubordinateRange → Except Unit (List β)) (db : Db SubordinateRange) (file : FileState)
    (openMemory : Bool) : Option (List β) :=
  match commonioOpen subordinateOps db .rdonly false file openMemory with
  | (false,_) => none
  | (true,db) => (forEachEntry body [] db).1.toOption

def findSubidOwners (memory : Nat → Bool) (db : Db SubordinateRange) (file : FileState) (openMemory : Bool) (id : UInt64) :
    Option (List UInt32) :=
  queryRanges (fun uids r => if r.start ≤ id ∧ id < r.start + r.count then appendUids accounts memory uids r.owner else .ok uids)
    db file openMemory

def listOwnerRanges (memory : Nat → Bool) (db : Db SubordinateRange) (file : FileState) (openMemory : Bool) (owner : Bytes) :
    Option (List SubidRange) :=
  queryRanges (fun ranges r => if isSameUser accounts r.owner owner then appendRange memory ranges r else .ok ranges)
    db file openMemory

/-- The check opens the file where that has not been done. -/
def haveSubUids (db : Db SubordinateRange) (file : FileState) (openMemory : Bool) (owner : Bytes) (start : UInt32) (count : UInt64) :
    Option Bool :=
  if count = 0 then some false
  else
    let db := if db.isopen then db else (commonioOpen subordinateOps db .rdonly false file openMemory).2
    (haveRange accounts subuidFile db owner start.toUInt64 count).map Prod.fst

end Program

section Numbers
variable {s : Bytes}

/-- Digits that do not leave the width of an id are read as their number. -/
theorem scanInt_digits (hne : s ≠ []) (hd : ∀ b ∈ s, isDigit b = true) (h : valueIn 10 s < 2^32) :
    scanInt s = some (UInt32.ofNat (valueIn 10 s)) := by
  have hvalue : (strtoimax ⟨false,valueIn 10 s,[]⟩).1 = valueIn 10 s := by
    simp only [strtoimax,Bool.false_eq_true,if_false]
    rw [if_neg (by omega),if_neg (by omega)]
  rw [scanInt,scan_digits hne hd,Option.map_some,hvalue]
  congr 2
  omega

end Numbers

section Queries
variable {accounts : Accounts} {memory : Nat → Bool} {rs : List SubordinateRange} {r : SubordinateRange} {id : UInt64}
  {uids uids' : List UInt32} {owner : Bytes}

private theorem appendUids_eq_ok (h : appendUids accounts memory uids owner = .ok uids') :
    ∃ uid, ownerUid accounts owner = some uid ∧ (uids.Nodup → uids'.Nodup) ∧ ∀ u, u ∈ uids' ↔ u ∈ uids ∨ u = uid := by
  unfold appendUids at h
  split at h
  · cases h
  · rename_i uid huid
    refine ⟨uid,huid,?_⟩
    split at h
    · rename_i hmem
      cases h
      refine ⟨fun h => h,fun u => ⟨.inl,?_⟩⟩
      rintro (hu | rfl)
      · exact hu
      · exact hmem
    · rename_i hmem
      split at h
      · cases h
        refine ⟨fun h => List.nodup_append.mpr ⟨h,List.nodup_singleton _,?_⟩,fun u => by simp⟩
        intro u hu v hv he
        rw [List.mem_singleton] at hv
        exact hmem (hv ▸ he ▸ hu)
      · cases h

/-- The owners that are found: every range with the id has one, and each is found once. -/
theorem foldlM_owners (hfits : ∀ r ∈ rs, r.Fits) {start : List UInt32} (hstart : start.Nodup)
    (h : rs.foldlM (fun uids r => if r.start ≤ id ∧ id < r.start + r.count then appendUids accounts memory uids r.owner
      else (.ok uids : Except Unit (List UInt32))) start = .ok uids) :
    uids.Nodup ∧ (∀ r ∈ rs, id.toNat ∈ r.ids → (ownerUid accounts r.owner).isSome) ∧
      ∀ u, u ∈ uids ↔ u ∈ start ∨ ∃ r ∈ rs, id.toNat ∈ r.ids ∧ ownerUid accounts r.owner = some u := by
  induction rs generalizing start with
  | nil =>
    cases h
    exact ⟨hstart,nofun,fun u => by simp⟩
  | cons r rs ih =>
    obtain ⟨hr,hrs⟩ := List.forall_mem_cons.mp hfits
    have hin : (r.start ≤ id ∧ id < r.start + r.count) ↔ id.toNat ∈ r.ids := by
      have hstop := hr.stop_le
      rw [UInt64.le_iff_toNat_le,UInt64.lt_iff_toNat_lt,UInt64.toNat_add,Nat.mod_eq_of_lt (by omega)]
      exact Iff.rfl
    rw [List.foldlM_cons] at h
    by_cases hid : id.toNat ∈ r.ids
    · rw [if_pos (hin.mpr hid)] at h
      cases happ : appendUids accounts memory start r.owner with
      | error e =>
        rw [happ] at h
        cases h
      | ok uids₁ =>
        rw [happ] at h
        obtain ⟨uid,huid,hnodup,hmem⟩ := appendUids_eq_ok happ
        obtain ⟨hdone,hsome,hall⟩ := ih hrs (hnodup hstart) h
        refine ⟨hdone,List.forall_mem_cons.mpr ⟨fun _ => by rw [huid]; rfl,hsome⟩,fun u => ?_⟩
        rw [hall,hmem,List.exists_mem_cons_iff,huid,Option.some.injEq]
        constructor
        · rintro ((hu | rfl) | hu)
          · exact .inl hu
          · exact .inr (.inl ⟨hid,rfl⟩)
          · exact .inr (.inr hu)
        · rintro (hu | ⟨_,rfl⟩ | hu)
          · exact .inl (.inl hu)
          · exact .inl (.inr rfl)
          · exact .inr hu
    · rw [if_neg fun h => hid (hin.mp h)] at h
      obtain ⟨hdone,hsome,hall⟩ := ih hrs hstart h
      refine ⟨hdone,List.forall_mem_cons.mpr ⟨fun h => absurd h hid,hsome⟩,fun u => ?_⟩
      rw [hall,List.exists_mem_cons_iff]
      simp only [hid,false_and,false_or]

/-- The ranges of a user: those whose owner is the same user. -/
theorem foldlM_ranges (hmemory : ∀ n, memory n = true) (start : List SubidRange) :
    rs.foldlM (fun ranges r => if isSameUser accounts r.owner owner then appendRange memory ranges r
      else (.ok ranges : Except Unit (List SubidRange))) start =
        .ok (start ++ (rs.filter fun r => isSameUser accounts r.owner owner).map fun r => ⟨r.start,r.count⟩) := by
  induction rs generalizing start with
  | nil =>
    rw [List.filter_nil,List.map_nil,List.append_nil]
    rfl
  | cons r rs ih =>
    rw [List.foldlM_cons,List.filter_cons]
    cases hsame : isSameUser accounts r.owner owner with
    | true =>
      rw [if_pos rfl,if_pos rfl,appendRange,if_pos (hmemory _)]
      refine (ih (start ++ [⟨r.start,r.count⟩])).trans ?_
      rw [List.map_cons,List.append_assoc]
      rfl
    | false =>
      rw [if_neg Bool.false_ne_true,if_neg Bool.false_ne_true]
      exact ih start

/-- A query that is answered folds over the ranges of the file. -/
theorem queryRanges_eq {β : Type} (body : List β → SubordinateRange → Except Unit (List β)) {db db₁ : Db SubordinateRange}
    {file : FileState} {openMemory : Bool} {l : List Nat}
    (hopen : commonioOpen subordinateOps db .rdonly false file openMemory = (true,db₁)) (hrep : Rep db₁ l false)
    (hisopen : db₁.isopen = true) :
    queryRanges body db file openMemory = ((entriesOf (l.map db₁.record)).foldlM body []).toOption := by
  unfold queryRanges
  simp only [hopen]
  rw [(forEachEntry_eq body [] hrep hisopen).1]

end Queries

section Agreement
variable {accounts : Accounts} {pws : List Passwd} {u : Passwd} {owner : Bytes}

/-- The accounts of a list of entries: the first one of a name, or of a user id. -/
def accountsOf (pws : List Passwd) : Accounts where
  getpwuid uid := pws.find? fun pw => pw.uid == uid
  getpwnam name := pws.find? fun pw => pw.name == name

/-- An account that is found under its name, which is not taken for a user id. -/
structure FoundByName (pws : List Passwd) (u : Passwd) : Prop where
  mem : u ∈ pws
  found : (accountsOf pws).getpwnam u.name = some u
  plain : getUid u.name = none

private theorem find_of_nodup {β γ : Type} [BEq γ] [LawfulBEq γ] {key : β → γ} {l : List β} (h : (l.map key).Nodup) {b : β} (hb : b ∈ l) :
    l.find? (fun b' => key b' == key b) = some b := by
  induction l with
  | nil => cases hb
  | cons c l ih =>
    obtain ⟨hc,hl⟩ := List.nodup_cons.mp h
    rw [List.find?_cons]
    rcases List.mem_cons.mp hb with rfl | hb
    · rw [beq_self_eq_true]
    · have hne : key c ≠ key b := fun he => hc (he ▸ List.mem_map_of_mem hb)
      rw [beq_false_of_ne hne]
      exact ih hl hb

theorem FoundByName.resolved (h : FoundByName pws u) : getpwUidOrNam (accountsOf pws) u.name = some u := by
  have hfound := h.found
  unfold getpwUidOrNam
  rw [h.plain]
  exact hfound

/-- An owner is the same user as an account where the number or the name of the owner is that of the account. -/
theorem FoundByName.isSameUser_iff (h : FoundByName pws u) (huids : (pws.map Passwd.uid).Nodup)
    (hnames : ∀ pw ∈ pws, pw.name.all isDigit = false → getUid pw.name = none) (howner : owner ≠ [])
    (hsome : (ownerUid (accountsOf pws) owner).isSome) (hdigits : owner.all isDigit = true → valueIn 10 owner < 2^32) :
    isSameUser (accountsOf pws) owner u.name = true ↔ ownerUid (accountsOf pws) owner = some u.uid := by
  unfold isSameUser
  rw [h.resolved]
  by_cases hd : owner.all isDigit = true
  · have hall := List.all_eq_true.mp hd
    rw [ownerUid,if_pos hd,scanInt_digits howner hall (hdigits hd),getpwUidOrNam,getUid_digits howner hall (hdigits hd)]
    simp only [Option.some.injEq]
    constructor
    · intro hsame
      split at hsame
      · cases hsame
      · rename_i pw hpw
        have huid : pw.uid = UInt32.ofNat (valueIn 10 owner) := by simpa using List.find?_some hpw
        rw [← huid]
        simpa using hsame
    · intro huid
      have hfind : (accountsOf pws).getpwuid (valueIn 10 owner).toUInt32 = some u := by
        have hfind := find_of_nodup huids h.mem
        rw [← huid] at hfind
        exact hfind
      rw [hfind]
      simp
  · rw [ownerUid,if_neg hd] at hsome ⊢
    obtain ⟨pw,hpw⟩ := Option.isSome_iff_exists.mp (Option.isSome_map ▸ hsome)
    have hname : pw.name = owner := by simpa using List.find?_some hpw
    have hplain : getUid owner = none := by
      rw [← hname] at hd ⊢
      exact hnames pw (List.mem_of_find?_eq_some hpw) (Bool.eq_false_iff.mpr hd)
    have hresolve : getpwUidOrNam (accountsOf pws) owner = some pw := by
      unfold getpwUidOrNam
      rw [hplain]
      exact hpw
    rw [hresolve,hpw]
    simp

end Agreement

/-- The queries agree on who has an id. -/
theorem subid_queries_agree (pws : List Passwd) (huids : (pws.map Passwd.uid).Nodup)
    (hnames : ∀ pw ∈ pws, pw.name.all isDigit = false → getUid pw.name = none) (db : Db SubordinateRange) (bytes : Bytes)
    (memory : Nat → Bool) (openMemory : Bool) (id : UInt32) (uids : List UInt32)
    (howners : findSubidOwners (accountsOf pws) memory db (.contents bytes false) openMemory id.toUInt64 = some uids)
    (hdigits : ∀ rs, fileRanges (some bytes) = some rs → ∀ r ∈ rs, id.toNat ∈ r.ids → r.owner.all isDigit = true →
      valueIn 10 r.owner < 2^32) :
    uids.Nodup ∧ ∀ u, FoundByName pws u → ∃ ranges,
      listOwnerRanges (accountsOf pws) (fun _ => true) db (.contents bytes false) openMemory u.name = some ranges ∧
        (u.uid ∈ uids ↔ ∃ range ∈ ranges, id.toNat ∈ range.ids) ∧
        (u.uid ∈ uids ↔ haveSubUids (accountsOf pws) db (.contents bytes false) openMemory u.name id 1 = some true) := by
  rcases hopen : commonioOpen subordinateOps db .rdonly false (.contents bytes false) openMemory with ⟨_ | _,db₁⟩
  · unfold findSubidOwners queryRanges at howners
    rw [hopen] at howners
    cases howners
  have hfile : commonioOpen subordinateOps db .rdonly false (fileState (some bytes)) openMemory = (true,db₁) := hopen
  obtain ⟨l,hrep,hisopen,hranges⟩ := commonioOpen_ranges hfile
  set rs := entriesOf (l.map db₁.record) with hrs
  have htext := fileRanges_text hranges
  have hfits : ∀ r ∈ rs, r.Fits := fun r hr => (htext r hr).toFits
  have hid : id.toUInt64.toNat = id.toNat := UInt32.toNat_toUInt64 id
  -- the owners
  unfold findSubidOwners at howners
  rw [queryRanges_eq _ hopen hrep hisopen] at howners
  rcases hfold : rs.foldlM (fun uids r => if r.start ≤ id.toUInt64 ∧ id.toUInt64 < r.start + r.count then
      appendUids (accountsOf pws) memory uids r.owner else (.ok uids : Except Unit (List UInt32))) [] with _ | found
  · rw [hfold] at howners
    cases howners
  rw [hfold] at howners
  obtain rfl : found = uids := Option.some.inj howners
  obtain ⟨hnodup,hsome,hmem⟩ := foldlM_owners hfits List.nodup_nil hfold
  rw [hid] at hsome hmem
  refine ⟨hnodup,fun u hu => ⟨(rs.filter fun r => isSameUser (accountsOf pws) r.owner u.name).map fun r => ⟨r.start,r.count⟩,?_⟩⟩
  have hsame : ∀ r ∈ rs, id.toNat ∈ r.ids →
      (isSameUser (accountsOf pws) r.owner u.name = true ↔ ownerUid (accountsOf pws) r.owner = some u.uid) := fun r hr hin =>
    hu.isSameUser_iff huids hnames (htext r hr).owner_ne (hsome r hr hin) (hdigits rs hranges r hr hin)
  have hfound : u.uid ∈ found ↔ ∃ r ∈ rs, isSameUser (accountsOf pws) r.owner u.name = true ∧ id.toNat ∈ r.ids := by
    rw [hmem]
    constructor
    · rintro (hnil | ⟨r,hr,hin,huid⟩)
      · cases hnil
      · exact ⟨r,hr,(hsame r hr hin).mpr huid,hin⟩
    · rintro ⟨r,hr,hs,hin⟩
      exact .inr ⟨r,hr,hin,(hsame r hr hin).mp hs⟩
  refine ⟨?_,?_,?_⟩
  · unfold listOwnerRanges
    rw [queryRanges_eq _ hopen hrep hisopen,foldlM_ranges fun _ => rfl]
    rfl
  · rw [hfound]
    constructor
    · rintro ⟨r,hr,hs,hin⟩
      exact ⟨_,List.mem_map_of_mem (List.mem_filter.mpr ⟨hr,hs⟩),hin⟩
    · rintro ⟨range,hrange,hin⟩
      obtain ⟨r,hr,rfl⟩ := List.mem_map.mp hrange
      obtain ⟨hr,hs⟩ := List.mem_filter.mp hr
      exact ⟨r,hr,hs,hin⟩
  · have hone : (1 : UInt64).toNat = 1 := rfl
    have hstop : id.toUInt64.toNat + (1 : UInt64).toNat ≤ 2^64 := by
      have hlt := id.toNat_lt
      omega
    have hclosed : db.isopen = false := by
      cases hdb : db.isopen with
      | false => rfl
      | true =>
        unfold commonioOpen at hopen
        rw [hdb] at hopen
        cases hopen
    obtain ⟨covered,db₂,hrun,hcovered,_⟩ :=
      haveRange_spec (accountsOf pws) (.inl rfl) (noneWraps_of_fits hfits) hrep.chain hisopen u.name hstop
    have hhave : haveSubUids (accountsOf pws) db (.contents bytes false) openMemory u.name id 1 = some covered := by
      unfold haveSubUids
      rw [if_neg (by decide)]
      simp only [hclosed,Bool.false_eq_true,if_false,hopen,hrun]
      rfl
    rw [hhave,Option.some.injEq,hcovered,hfound,hid,hone]
    constructor
    · rintro ⟨r,hr,hs,hin⟩
      refine ⟨Nat.one_pos,fun n hn => ?_⟩
      obtain rfl : n = id.toNat := Nat.le_antisymm (Nat.le_of_lt_succ hn.2) hn.1
      exact ⟨r,hr,.inr hs,hin⟩
    · rintro ⟨_,hsub⟩
      obtain ⟨r,hr,hauth,hin⟩ := hsub ⟨le_rfl,Nat.lt_succ_self _⟩
      refine ⟨r,hr,?_,hin⟩
      rcases hauth with hname | hs
      · have hself := hu.resolved
        unfold isSameUser
        rw [hname,hself]
        simp
      · exact hs

def queriedAccounts : List Passwd :=
  [⟨ascii "u",ascii "x",1000,100,[],[],[]⟩,⟨ascii "v",ascii "x",1001,100,[],[],[]⟩]

/-- A range under a name, and one under a number with a zero in front. -/
theorem subid_queries_agree_two :
    ∃ uids, findSubidOwners (accountsOf queriedAccounts) (fun _ => true) closedRanges
        (.contents (ascii "u:100:10\n01001:105:10\nu:107:1\n") false) true 107 = some uids ∧ uids.Nodup ∧
      ∀ u, FoundByName queriedAccounts u → ∃ ranges, listOwnerRanges (accountsOf queriedAccounts) (fun _ => true) closedRanges
          (.contents (ascii "u:100:10\n01001:105:10\nu:107:1\n") false) true u.name = some ranges ∧
        (u.uid ∈ uids ↔ ∃ range ∈ ranges, 107 ∈ range.ids) ∧
        (u.uid ∈ uids ↔ haveSubUids (accountsOf queriedAccounts) closedRanges
          (.contents (ascii "u:100:10\n01001:105:10\nu:107:1\n") false) true u.name 107 1 = some true) := by
  have howners : findSubidOwners (accountsOf queriedAccounts) (fun _ => true) closedRanges
      (.contents (ascii "u:100:10\n01001:105:10\nu:107:1\n") false) true 107 = some [1000,1001] := by decide +kernel
  have hranges : fileRanges (some (ascii "u:100:10\n01001:105:10\nu:107:1\n")) =
      some [⟨ascii "u",100,10⟩,⟨ascii "01001",105,10⟩,⟨ascii "u",107,1⟩] := by decide +kernel
  have hsmall : ∀ r ∈ ([⟨ascii "u",100,10⟩,⟨ascii "01001",105,10⟩,⟨ascii "u",107,1⟩] : List SubordinateRange),
      valueIn 10 r.owner < 2^32 := by decide
  obtain ⟨hnodup,hagree⟩ := subid_queries_agree queriedAccounts (by decide) (by decide) closedRanges
    (ascii "u:100:10\n01001:105:10\nu:107:1\n") (fun _ => true) true 107 [1000,1001] howners fun rs hrs r hr _ _ =>
      hsmall r (Option.some.inj (hrs.symm.trans hranges) ▸ hr)
  exact ⟨_,howners,hnodup,hagree⟩

def numberedAccount : List Passwd := [⟨ascii "7",ascii "x",1000,100,[],[],[]⟩]

/-- A login name that is a number stands for the user id: the owner that is found is another user, while the
check takes the name as it is. -/
theorem numbered_name_is_a_uid :
    ¬ ∀ (pws : List Passwd) (db : Db SubordinateRange) (bytes : Bytes) (memory : Nat → Bool) (openMemory : Bool) (id : UInt32)
      (uids : List UInt32), (pws.map Passwd.uid).Nodup →
      findSubidOwners (accountsOf pws) memory db (.contents bytes false) openMemory id.toUInt64 = some uids →
      ∀ u ∈ pws, (u.uid ∈ uids ↔ haveSubUids (accountsOf pws) db (.contents bytes false) openMemory u.name id 1 = some true) := by
  intro hall
  have howners : findSubidOwners (accountsOf numberedAccount) (fun _ => true) closedRanges
      (.contents (ascii "7:100:10\n") false) true 105 = some [7] := by decide +kernel
  have hhave : haveSubUids (accountsOf numberedAccount) closedRanges (.contents (ascii "7:100:10\n") false) true (ascii "7") 105 1 =
      some true := by decide +kernel
  have huid := (hall numberedAccount closedRanges (ascii "7:100:10\n") (fun _ => true) true 105 [7] (by decide) howners _
    List.mem_cons_self).mpr hhave
  exact absurd huid (by decide)

end UserDb.Subid
