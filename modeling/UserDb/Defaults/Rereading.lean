import UserDb.Defaults.Consistency

/-! What is written for a value, and what is made of it when it is read again. -/
namespace UserDb.Defaults
open UserDb.Base UserDb.Atoi UserDb.Commonio

/-- A text that stands in one line of its key, which the buffer holds. -/
structure Writes (k : DefKey) (text : Bytes) : Prop where
  fits : (k.name ++ equals :: text).length < bufSize
  noNewline : newline ∉ text
  noZero : 0 ∉ text

section Numbers

theorem notMem_numeral {b : UInt8} (hb : isDigit b = false) (n : Nat) : b ∉ numeral n := by
  intro h
  rw [numeral_digits h] at hb
  cases hb

theorem writes_numeral {k : DefKey} {n : Nat} (hn : n < 10^20) : Writes k (numeral n) := by
  have hlength := numeral_length_le (by decide) hn
  have hname : k.name.length ≤ 22 := by
    cases k <;> decide +kernel
  refine ⟨?_,notMem_numeral (by decide) n,notMem_numeral (by decide) n⟩
  rw [List.length_append,List.length_cons,bufSize]
  omega

theorem signedNumeral_natCast (n : Nat) : signedNumeral n = numeral n := by
  rw [signedNumeral,if_neg (by omega),Int.natAbs_natCast]

/-- A number within bounds is -1, or has a plain numeral. -/
theorem inactive_cases {n : Int} (hmin : -1 ≤ n) (hmax : n ≤ 2^63 - 1) : n = -1 ∨ ∃ m : Nat, n = m ∧ m < 2^63 := by
  rcases Int.lt_or_le n 0 with hneg | hpos
  · exact .inl (by omega)
  · exact .inr ⟨n.toNat,by omega,by omega⟩

theorem writes_inactive {n : Int} (hmin : -1 ≤ n) (hmax : n ≤ 2^63 - 1) : Writes .inactive (signedNumeral n) := by
  rcases inactive_cases hmin hmax with rfl | ⟨m,rfl,hm⟩
  · constructor <;> decide +kernel
  · rw [signedNumeral_natCast]
    exact writes_numeral (by omega)

private theorem strtoi_signedNumeral {n : Int} (hmin : -1 ≤ n) (hmax : n ≤ 2^63 - 1) :
    strtoi (signedNumeral n) 0 (-1) (2^63 - 1) = (n,.success) := by
  rcases inactive_cases hmin hmax with rfl | ⟨m,rfl,hm⟩
  · decide +kernel
  · rw [signedNumeral_natCast]
    exact strtoi_numeral (.inl rfl) (by omega) hmax hm

/-- What is read for the days is within bounds. -/
theorem strtoi_bounds {s : Bytes} {n : Int} (h : strtoi s 0 (-1) (2^63 - 1) = (n,.success)) : -1 ≤ n ∧ n ≤ 2^63 - 1 := by
  have hisBase : isBase 0 = true := rfl
  unfold strtoi at h
  rw [hisBase] at h
  cases hscan : scan s 0 with
  | none =>
    rw [hscan] at h
    cases h
  | some scanned =>
    simp only [hscan,Bool.not_true,Bool.false_eq_true,if_false,Prod.mk.injEq] at h
    omega

theorem readInactive_bounds (text : Bytes) : -1 ≤ readInactive text ∧ readInactive text ≤ 2^63 - 1 := by
  unfold readInactive
  split
  · rename_i n hn
    exact strtoi_bounds hn
  · exact ⟨le_rfl,by decide⟩

end Numbers

section Groups
variable {e : DefaultsEnv} {text : Bytes}

theorem getGroups_nil (e : DefaultsEnv) : getGroups e [] = [] := rfl

private theorem splitOn_eq_cutList (text : Bytes) : text.splitOn comma = cutList text :: (text.splitOn comma).tail := by
  by_cases hmem : comma ∈ text
  · obtain ⟨front,back,rfl,hfront⟩ := List.eq_append_cons_of_mem hmem
    have hcut : cutList (front ++ comma :: back) = front := by
      rw [cutList,List.takeWhile_append_of_pos fun b hb => by simpa using ne_of_mem_of_not_mem hb hfront]
      simp
    rw [hcut,List.splitOn_append_cons_self_of_not_mem hfront,List.tail_cons]
  · have hcut : cutList text = text := List.takeWhile_eq_self_iff.mpr fun b hb => by simpa using ne_of_mem_of_not_mem hb hmem
    rw [hcut,List.splitOn_eq_singleton hmem,List.tail_cons]

private theorem comma_notMem_cutList (text : Bytes) : comma ∉ cutList text := by
  intro h
  have hnot := List.mem_takeWhile_imp h
  simp at hnot

/-- The first name of a list, read alone. -/
theorem getGroups_cutList (hne : cutList text ≠ []) :
    getGroups e (cutList text) = ((groupByText e (cutList text)).toList.map Group.name).take e.sysNgroups := by
  rw [getGroups,if_neg hne,List.splitOn_eq_singleton (comma_notMem_cutList text)]
  cases hfirst : groupByText e (cutList text) <;> simp [hfirst]

private theorem getGroups_eq (hne : text ≠ []) :
    getGroups e text = ((groupByText e (cutList text)).toList.map Group.name ++
      ((text.splitOn comma).tail.filterMap (groupByText e)).map Group.name).take e.sysNgroups := by
  have hsplit := splitOn_eq_cutList text
  rw [getGroups,if_neg hne]
  generalize (text.splitOn comma).tail = rest at hsplit
  rw [hsplit,List.filterMap_cons]
  cases hfirst : groupByText e (cutList text) <;> simp

theorem getGroups_eq_nil :
    getGroups e text = [] ↔ text = [] ∨ e.sysNgroups = 0 ∨ ∀ name ∈ text.splitOn comma, groupByText e name = none := by
  rw [getGroups]
  split
  · rename_i hnil
    exact iff_of_true rfl (.inl hnil)
  · rename_i hne
    rw [List.take_eq_nil_iff,List.map_eq_nil_iff,List.filterMap_eq_nil_iff]
    tauto

/-- The list is read again as it was exactly where only its first name counts. -/
theorem getGroups_cutList_iff (hne : getGroups e text ≠ []) : getGroups e (cutList text) = getGroups e text ↔ OneGroup e text := by
  have hnot := mt getGroups_eq_nil.mpr hne
  rw [not_or,not_or] at hnot
  obtain ⟨htext,hsome,hfound⟩ := hnot
  unfold OneGroup
  simp only [htext,hsome,hfound,false_or]
  by_cases hcut : cutList text = []
  · rw [hcut,getGroups_nil]
    exact iff_of_false (fun h => hne h.symm) fun h => h.1 rfl
  · rw [getGroups_cutList hcut,getGroups_eq htext]
    obtain ⟨n,hn⟩ := Nat.exists_eq_succ_of_ne_zero hsome
    cases hfirst : groupByText e (cutList text) with
    | none =>
      refine iff_of_false ?_ fun h => absurd h.2.1 (by simp)
      intro h
      rw [getGroups_eq htext,hfirst] at hne
      exact hne (by rw [← h]; simp)
    | some grp =>
      have htail : (n = 0 ∨ ∀ name ∈ (text.splitOn comma).tail, groupByText e name = none) ↔
          (((text.splitOn comma).tail.filterMap (groupByText e)).map Group.name).take n = [] := by
        rw [List.take_eq_nil_iff,List.map_eq_nil_iff,List.filterMap_eq_nil_iff]
      rw [hn]
      simp only [Option.toList_some,List.map_cons,List.map_nil,List.take_succ_cons,List.take_nil,List.singleton_append,
        List.cons.injEq,true_and,hcut,ne_eq,not_false_iff,Option.isSome_some,Nat.succ_eq_add_one]
      rw [Nat.add_eq_right,htail]
      exact eq_comm

end Groups

section NoPrefix
variable {e : DefaultsEnv} {k : DefKey} {text : Bytes}

theorem prefixed_eq (h : e.prefixDir.val = []) (dir : Bytes) : prefixed e dir = dir := if_pos h

theorem Writes.of_sublist {text' : Bytes} (h : Writes k text) (hsub : text'.Sublist text) : Writes k text' := by
  refine ⟨?_,fun hmem => h.noNewline (hsub.subset hmem),fun hmem => h.noZero (hsub.subset hmem)⟩
  have hlength := hsub.length_le
  have hfits := h.fits
  rw [List.length_append,List.length_cons] at hfits ⊢
  omega

theorem Writes.orElse {other : Bytes} (h : Writes k text) (hother : Writes k other) : Writes k (orElse text other) := by
  unfold Defaults.orElse
  split
  · exact hother
  · exact h

private theorem orElse_orElse {other : Bytes} (hother : other ≠ []) (text cur : Bytes) :
    orElse (orElse text other) cur = orElse text other := by
  by_cases htext : text = []
  · rw [htext]
    exact if_neg hother
  · have hself : orElse text other = text := if_neg htext
    rw [hself]
    exact if_neg htext

theorem writes_builtin (k : DefKey) : Writes k (showValue k (builtin k)) := by
  cases k <;> constructor <;> decide +kernel

theorem readGroups_cases (e : DefaultsEnv) (cur : SupplementaryGroups) (text : Bytes) :
    (getGroups e text = [] ∧ readGroups e cur text = ⟨cur.text,[]⟩) ∨
      (getGroups e text ≠ [] ∧ readGroups e cur text = ⟨cutList text,getGroups e text⟩) := by
  by_cases hnil : getGroups e text = []
  · exact .inl ⟨hnil,if_pos hnil⟩
  · exact .inr ⟨hnil,if_neg hnil⟩

private theorem readGroups_names (e : DefaultsEnv) (cur : SupplementaryGroups) (text : Bytes) :
    (readGroups e cur text).names = getGroups e text := by
  rcases readGroups_cases e cur text with ⟨hnil,hread⟩ | ⟨_,hread⟩
  · rw [hread,hnil]
  · rw [hread]

/-- What is read from a line is written in a line. -/
theorem writes_readValue (hprefixDir : k = .skel ∨ k = .usrskel → e.prefixDir.val = []) {cur : k.Value}
    (hcur : Writes k (showValue k cur)) (h : Writes k text) : Writes k (showValue k (readValue e k cur text)) := by
  have hdefault : ∀ k' : DefKey, Writes k' (ascii "no") ∧ Writes k' skelDir ∧ Writes k' usrSkelDir := by
    intro k'
    refine ⟨?_,?_,?_⟩ <;> cases k' <;> constructor <;> decide +kernel
  cases k with
  | group => exact writes_numeral (Nat.lt_of_lt_of_le (UInt32.toNat_lt _) (by decide))
  | groups =>
    rcases readGroups_cases e cur text with ⟨_,hread⟩ | ⟨_,hread⟩
    · have htext : (readGroups e cur text).text = SupplementaryGroups.text cur := by rw [hread]
      have hshown : showValue .groups (readValue e .groups cur text) = showValue .groups cur := htext
      rwa [hshown]
    · have htext : (readGroups e cur text).text = cutList text := by rw [hread]
      have hshown : showValue .groups (readValue e .groups cur text) = cutList text := htext
      rw [hshown]
      exact h.of_sublist (List.takeWhile_sublist _)
  | inactive => exact writes_inactive (readInactive_bounds text).1 (readInactive_bounds text).2
  | home => exact h
  | expire => exact h
  | shell => exact h
  | skel =>
    have hdir : readValue e .skel cur text = orElse text skelDir := prefixed_eq (hprefixDir (.inl rfl)) _
    rw [hdir]
    exact h.orElse (hdefault .skel).2.1
  | usrskel =>
    have hdir : readValue e .usrskel cur text = orElse text usrSkelDir := prefixed_eq (hprefixDir (.inr rfl)) _
    rw [hdir]
    exact h.orElse (hdefault .usrskel).2.2
  | createMailSpool => exact h.orElse (hdefault .createMailSpool).1
  | btrfsSubvolumeHome => exact h.orElse (hdefault .btrfsSubvolumeHome).1
  | btrfsSubvolumeSystem => exact h.orElse (hdefault .btrfsSubvolumeSystem).1
  | logInit => exact h.orElse hcur

/-- The value as a fresh process reads it from its text. -/
def reread (e : DefaultsEnv) (k : DefKey) (v : k.Value) : k.Value := readValue e k (builtin k) (showValue k v)

private theorem groupByText_numeral (e : DefaultsEnv) (gid : UInt32) : groupByText e (numeral gid.toNat) = grByGid e gid := by
  rw [groupByText,getGid_numeral gid.toNat_lt]
  simp

/-- A group id that is known is found again. -/
theorem readGroup_numeral {gid : UInt32} (h : gid = 1000 ∨ ∃ grp ∈ e.groupFile, grp.gid = gid) :
    readGroup e 1000 (numeral gid.toNat) = gid := by
  rw [readGroup,groupByText_numeral]
  cases hfind : grByGid e gid with
  | none =>
    rcases h with rfl | ⟨grp,hmem,hgid⟩
    · rfl
    · have hnone := List.find?_eq_none.mp hfind grp hmem
      simp [hgid] at hnone
  | some grp =>
    have hgid := List.find?_some (p := fun grp : Group => grp.gid == gid) hfind
    exact eq_of_beq hgid

theorem reread_group {gid : UInt32} (h : gid = 1000 ∨ ∃ grp ∈ e.groupFile, grp.gid = gid) : reread e .group gid = gid :=
  readGroup_numeral h

theorem reread_inactive {n : Int} (hmin : -1 ≤ n) (hmax : n ≤ 2^63 - 1) : reread e .inactive n = n := by
  have hread : reread e .inactive n = readInactive (signedNumeral n) := rfl
  rw [hread,readInactive,strtoi_signedNumeral hmin hmax]

private theorem groupByText_mem {grp : Group} (h : groupByText e text = some grp) : grp ∈ e.groupFile := by
  unfold groupByText at h
  split at h
  · exact List.mem_of_find?_eq_some h
  · exact List.mem_of_find?_eq_some h

/-- Of the supplementary groups those of the first name are read again. -/
theorem reread_groups (e : DefaultsEnv) (text : Bytes) :
    SameEffect .groups (readValue e .groups (builtin .groups) text) (reread e .groups (readValue e .groups (builtin .groups) text)) ↔
      OneGroup e text := by
  have heffect : SameEffect .groups (readValue e .groups (builtin .groups) text)
      (reread e .groups (readValue e .groups (builtin .groups) text)) ↔
      (readGroups e ⟨[],[]⟩ text).names = (readGroups e ⟨[],[]⟩ (readGroups e ⟨[],[]⟩ text).text).names := Iff.rfl
  rw [heffect,readGroups_names,readGroups_names]
  rcases readGroups_cases e ⟨[],[]⟩ text with ⟨hnil,hread⟩ | ⟨hne,hread⟩
  · rw [hread,hnil,getGroups_nil]
    refine iff_of_true rfl ?_
    rcases getGroups_eq_nil.mp hnil with h | h | h
    · exact .inl h
    · exact .inr (.inl h)
    · exact .inr (.inr (.inl h))
  · rw [hread,← getGroups_cutList_iff hne]
    exact eq_comm

/-- Every other value is read again as it was. -/
theorem reread_readValue (hprefixDir : e.prefixDir.val = []) (hk : k ≠ .groups) (text : Bytes) :
    reread e k (readValue e k (builtin k) text) = readValue e k (builtin k) text := by
  have hdir : ∀ dir, prefixed e dir = dir := prefixed_eq hprefixDir
  have hno : ascii "no" ≠ [] := by decide +kernel
  have hyes : ascii "yes" ≠ [] := by decide +kernel
  have hskel : skelDir ≠ [] := by decide +kernel
  have husrskel : usrSkelDir ≠ [] := by decide +kernel
  cases k with
  | group =>
    have hknown : readGroup e 1000 text = 1000 ∨ ∃ grp ∈ e.groupFile, grp.gid = readGroup e 1000 text := by
      rw [readGroup]
      cases hfind : groupByText e text with
      | none => exact .inl rfl
      | some grp => exact .inr ⟨grp,groupByText_mem hfind,rfl⟩
    exact reread_group hknown
  | groups => exact absurd rfl hk
  | inactive => exact reread_inactive (readInactive_bounds text).1 (readInactive_bounds text).2
  | home => rfl
  | expire => rfl
  | shell => rfl
  | skel =>
    simp only [reread,readValue,showValue,hdir]
    exact orElse_orElse hskel text _
  | usrskel =>
    simp only [reread,readValue,showValue,hdir]
    exact orElse_orElse husrskel text _
  | createMailSpool => exact orElse_orElse hno text _
  | btrfsSubvolumeHome => exact orElse_orElse hno text _
  | btrfsSubvolumeSystem => exact orElse_orElse hno text _
  | logInit => exact orElse_orElse hyes text _

theorem reread_builtin (hprefixDir : e.prefixDir.val = []) (k : DefKey) : reread e k (builtin k) = builtin k := by
  have hdir : ∀ dir, prefixed e dir = dir := prefixed_eq hprefixDir
  have hskel : skelDir ≠ [] := by decide +kernel
  have husrskel : usrSkelDir ≠ [] := by decide +kernel
  cases k with
  | group => exact reread_group (.inl rfl)
  | inactive => exact reread_inactive (n := -1) le_rfl (by decide)
  | skel =>
    simp only [reread,readValue,showValue,hdir]
    exact if_neg hskel
  | usrskel =>
    simp only [reread,readValue,showValue,hdir]
    exact if_neg husrskel
  | _ => rfl

theorem reread_replaced {r : Replacements e} {v : k.Value} (h : r.value k = some v) : reread e k v = v := by
  cases k with
  | group =>
    obtain ⟨gid,_,rfl⟩ := Option.map_eq_some_iff.mp h
    exact reread_group (.inr gid.property)
  | inactive =>
    obtain ⟨n,_,rfl⟩ := Option.map_eq_some_iff.mp h
    exact reread_inactive n.property.1 n.property.2
  | home => rfl
  | expire => rfl
  | shell => rfl
  | _ => cases h

/-- What is written for a replaced value stands in one line, if the buffer holds it. -/
theorem writes_replaced {r : Replacements e} {v : k.Value} (h : r.value k = some v)
    (hfits : (k.name ++ equals :: showValue k v).length < bufSize) : Writes k (showValue k v) := by
  refine ⟨hfits,?_,?_⟩
  all_goals
    cases k with
    | group => exact notMem_numeral (by decide) _
    | inactive =>
      obtain ⟨n,_,rfl⟩ := Option.map_eq_some_iff.mp h
      have hwrites := writes_inactive n.property.1 n.property.2
      first | exact hwrites.noNewline | exact hwrites.noZero
    | home | expire | shell =>
      obtain ⟨text,_,rfl⟩ := Option.map_eq_some_iff.mp h
      first | exact text.property.1 | exact text.property.2
    | _ => cases h

end NoPrefix

end UserDb.Defaults
