import UserDb.Norx.RoundTrip

/-! Loading a file and storing what was loaded. Storing writes every record in its
shortest form and ends every line, which the file itself need not do. -/
namespace UserDb.Norx
open UserDb.Base UserDb.Base.Outcomes

/-- A number written without leading zeros. -/
def Shortest (number : Bytes) : Prop := number = numeral (decimalValue number)

instance (number : Bytes) : Decidable (Shortest number) := decEq _ _

/-- A record whose numbers are all written without leading zeros. -/
def ShortestLine (line : Bytes) : Prop :=
  match line.splitOn colon with
  | [_,_,uid,gid,flags,capabilities,_,_,_] =>
    Shortest uid ∧ Shortest gid ∧ Shortest flags ∧ Shortest capabilities
  | [_,_,gid,_] => Shortest gid
  | _ => True

/-- A file of the largest size that spends no byte on a leading zero, an empty line or
the end of its last line. -/
structure Overfull (bytes : Bytes) : Prop where
  size : bytes.length = maxDatabaseBytes
  lines : ∀ line ∈ (bytes.splitOn newline).tail, line ≠ [] ∧ ShortestLine line

/-- Storing succeeds, and loading what was stored gives the database and the bytes again. -/
def Database.Restores (self : Database) : Prop :=
  ∃ stored, self.serializeForStorage = .ok stored ∧ Database.parse stored = .ok self ∧
    ∀ loaded, Database.parse stored = .ok loaded → loaded.serializeForStorage = .ok stored

/-! What the loader read is at least as long as what the writer makes of it. -/

theorem parseDecimal_eq_ok {bound : Nat} {bs : Bytes} {n : Nat} (hb : 0 < bound)
    (h : parseDecimal bound bs = .ok n) :
    bs ≠ [] ∧ (∀ b ∈ bs, isDigit b = true) ∧ n = decimalValue bs ∧ n < bound := by
  have key : ∀ (bs : Bytes) (acc : Nat), acc < bound → bs.foldlM (fun result b =>
        if !isDigit b then .error .invalidNumber
        else if result * 10 ≥ bound then .error .invalidNumber
        else if result * 10 + digitValue b ≥ bound then .error .invalidNumber
        else .ok (result * 10 + digitValue b)) acc = (.ok n : Except ParseError Nat) →
      (∀ b ∈ bs, isDigit b = true) ∧ n = bs.foldl (fun n b => n * 10 + digitValue b) acc ∧
        n < bound := by
    intro bs
    induction bs with
    | nil =>
      intro acc hacc h
      cases h
      exact ⟨by simp,rfl,hacc⟩
    | cons b bs ih =>
      intro acc _ h
      rw [List.foldlM_cons,except_bind_eq_ok] at h
      obtain ⟨next,hnext,h⟩ := h
      split at hnext
      · cases hnext
      rename_i hdigit
      split at hnext
      · cases hnext
      split at hnext
      · cases hnext
      rename_i hlt
      cases hnext
      obtain ⟨hdigits,hn⟩ := ih _ (by omega) h
      exact ⟨List.forall_mem_cons.mpr ⟨by simpa using hdigit,hdigits⟩,hn⟩
  unfold parseDecimal at h
  split at h
  · cases h
  · rename_i hne
    exact ⟨by simpa using hne,key bs 0 hb h⟩

/-- A number in the file against the one written for it. -/
def Widens (number written : Bytes) : Prop :=
  written.length ≤ number.length ∧ (written.length = number.length ↔ Shortest number)

theorem parseU32_widens {bs : Bytes} {n : UInt32} (h : parseU32 bs = .ok n) :
    Widens bs (numeral n.toNat) := by
  unfold parseU32 at h
  cases hp : parseDecimal (2^32) bs with
  | error e => rw [hp] at h; cases h
  | ok m =>
    rw [hp] at h
    cases h
    obtain ⟨hne,hdigits,rfl,hlt⟩ := parseDecimal_eq_ok (by decide) hp
    rw [UInt32.toNat_ofNat_of_lt' hlt]
    exact numeral_length_le_iff hdigits hne

private theorem parseU64_widens {bs : Bytes} {n : UInt64} (h : parseU64 bs = .ok n) :
    Widens bs (numeral n.toNat) := by
  unfold parseU64 at h
  cases hp : parseDecimal (2^64) bs with
  | error e => rw [hp] at h; cases h
  | ok m =>
    rw [hp] at h
    cases h
    obtain ⟨hne,hdigits,rfl,hlt⟩ := parseDecimal_eq_ok (by decide) hp
    rw [UInt64.toNat_ofNat_of_lt' hlt]
    exact numeral_length_le_iff hdigits hne

/-- What one loaded record adds: no longer than its line, as long only if that was shortest. -/
structure RecordRead (line : Bytes) (fields : List Bytes) : Prop where
  short : line.length ≤ maxLineBytes
  nonempty : line ≠ []
  length : (recordLine fields).length ≤ line.length
  shortest : (recordLine fields).length = line.length ↔ ShortestLine line

theorem splitOn_length (line : Bytes) :
    line.length = ((line.splitOn colon).map List.length).sum + ((line.splitOn colon).length - 1) := by
  have hlength : ([colon].intercalate (line.splitOn colon)).length = _ := length_intercalate _
  rw [← hlength,List.intercalate_splitOn]

private theorem loads_account {line kind name uid gid flags capabilities home shell hash : Bytes}
    {account : Account} (hsplit : line.splitOn colon =
      [kind,name,uid,gid,flags,capabilities,home,shell,hash]) (hkind : kind = ascii "u")
    (hshort : line.length ≤ maxLineBytes)
    (h : parseAccount name uid gid flags capabilities home shell hash = .ok account) :
    RecordRead line account.fields := by
  simp only [parseAccount,except_bind_eq_ok] at h
  obtain ⟨_,hn,_,hu,_,hg,_,hf,_,_,_,hc,_,_,_,hh,_,hs,_,_,_,ht,h⟩ := h
  cases h
  obtain ⟨rfl,_⟩ := parseName_eq_ok.mp hn
  obtain ⟨rfl,_⟩ := parsePath_eq_ok.mp hh
  obtain ⟨rfl,_⟩ := parsePath_eq_ok.mp hs
  cases toText_eq_ok.mp ht
  obtain ⟨hu,hu'⟩ := parseU32_widens hu
  obtain ⟨hg,hg'⟩ := parseU32_widens hg
  obtain ⟨hf,hf'⟩ := parseU32_widens hf
  obtain ⟨hc,hc'⟩ := parseU64_widens hc
  have hlen := splitOn_length line
  have hone : (ascii "u").length = 1 := rfl
  simp only [hsplit,hkind,List.map_cons,List.map_nil,List.sum_cons,List.sum_nil,List.length_cons,
    List.length_nil,hone] at hlen
  have hshortest : ShortestLine line ↔
      Shortest uid ∧ Shortest gid ∧ Shortest flags ∧ Shortest capabilities := by
    rw [ShortestLine,hsplit]
  refine ⟨hshort,fun hnil => ?_,?_,?_⟩
  · rw [hnil] at hlen
    simp at hlen
  · rw [recordLine_account_length,Account.recordBytes]
    simp only
    omega
  · rw [recordLine_account_length,Account.recordBytes,hshortest,← hu',← hg',← hf',← hc']
    simp only
    omega

private theorem foldlM_parseMember_bytes {parts : List Bytes} {members result : List Text}
    (h : parts.foldlM parseMember members = .ok result) :
    result.map (·.bytes) = members.map (·.bytes) ++ parts := by
  induction parts generalizing members with
  | nil =>
    cases h
    simp
  | cons part parts ih =>
    rw [List.foldlM_cons,except_bind_eq_ok] at h
    obtain ⟨next,hnext,h⟩ := h
    obtain ⟨name,rfl,_,rfl,_⟩ := parseMember_ok hnext
    rw [ih h]
    simp

/-- A loaded member list is written as the very field it was read from. -/
theorem parseMembers_memberField {field : Bytes} {group : GroupEntry}
    (h : parseMembers field = .ok group.members) :
    group.memberField = field ∧ group.members.map (·.bytes) ≠ [emptyMembers] := by
  unfold parseMembers at h
  split at h
  · rename_i hempty
    have hnil : group.members = [] := (Except.ok.inj h).symm
    refine ⟨?_,by simp [hnil]⟩
    rw [GroupEntry.memberField,hnil,beq_iff_eq.mp hempty]
    rfl
  · rename_i hfield
    have hbytes : group.members.map (·.bytes) = field.splitOn comma := foldlM_parseMember_bytes h
    have hne : group.members ≠ [] := fun hnil => by
      rw [hnil] at hbytes
      exact List.splitOn_ne_nil comma field hbytes.symm
    have hjoin : [comma].intercalate (field.splitOn comma) = field := List.intercalate_splitOn comma
    refine ⟨?_,fun hlone => ?_⟩
    · rw [GroupEntry.memberField,if_neg (by simpa using hne),hbytes,hjoin]
    · rw [← hbytes,hlone,List.intercalate_singleton] at hjoin
      exact hfield (by simp [hjoin])

private theorem loads_group {line kind name gid members : Bytes} {group : GroupEntry}
    (hsplit : line.splitOn colon = [kind,name,gid,members]) (hkind : kind = ascii "g")
    (hshort : line.length ≤ maxLineBytes) (h : parseGroup name gid members = .ok group) :
    RecordRead line group.fields ∧ group.members.map (·.bytes) ≠ [emptyMembers] := by
  simp only [parseGroup,except_bind_eq_ok] at h
  obtain ⟨_,hn,_,hg,list,hm,h⟩ := h
  cases h
  obtain ⟨rfl,_⟩ := parseName_eq_ok.mp hn
  obtain ⟨hg,hg'⟩ := parseU32_widens hg
  obtain ⟨hfield,hlone⟩ := @parseMembers_memberField _ ⟨_,_,list⟩ hm
  have hlen := splitOn_length line
  have hone : (ascii "g").length = 1 := rfl
  simp only [hsplit,hkind,List.map_cons,List.map_nil,List.sum_cons,List.sum_nil,List.length_cons,
    List.length_nil,hone] at hlen
  have hshortest : ShortestLine line ↔ Shortest gid := by rw [ShortestLine,hsplit]
  have hrecord : ∀ name gid, (recordLine (GroupEntry.mk name gid list).fields).length =
      name.bytes.length + (numeral gid.toNat).length + members.length + 4 := by
    intro name gid
    have hmembers : (GroupEntry.mk name gid list).memberField = members := hfield
    simp only [recordLine,length_intercalate,GroupEntry.fields,hmembers,List.map_cons,List.map_nil,
      List.sum_cons,List.sum_nil,decimal_toNat32,List.length_cons,List.length_nil,hone]
    omega
  refine ⟨⟨hshort,fun hnil => ?_,?_,?_⟩,hlone⟩
  · rw [hnil] at hlen
    simp at hlen
  · rw [hrecord]
    omega
  · rw [hrecord,hshortest,← hg']
    omega

/-! A database loaded line by line. -/

def Database.contentsLength (d : Database) : Nat :=
  formatHeader.length + 1 + (d.accounts.map fun account => (recordLine account.fields).length + 1).sum +
    (d.groups.map fun group => (recordLine group.fields).length + 1).sum

theorem contents_length (d : Database) : d.contents.length = d.contentsLength := by
  simp only [Database.contents,Database.lines,Database.contentsLength,List.length_append,
    List.length_flatMap,List.map_append,List.map_map,List.sum_append,List.length_cons,List.length_nil]
  rw [Nat.add_assoc (formatHeader.length + 1)]
  rfl

private theorem splitFields_eq_ok {line : Bytes} {fields : List Bytes} (h : splitFields line = .ok fields) :
    line.splitOn colon = fields := by
  unfold splitFields at h
  split at h
  · cases h
  · exact Except.ok.inj h

/-- What a line does to the database: nothing, or one more account, or one more group. -/
theorem addLine_cases {d d' : Database} {line : Bytes} (h : d.addLine line = .ok d') :
    line = [] ∧ d' = d ∨
      (∃ account, RecordRead line account.fields ∧ d' = { d with accounts := d.accounts ++ [account] }) ∨
      ∃ group, RecordRead line group.fields ∧ group.members.map (·.bytes) ≠ [emptyMembers] ∧
        d' = { d with groups := d.groups ++ [group] } := by
  unfold Database.addLine at h
  split at h
  · rename_i hempty
    exact Or.inl ⟨by simpa using hempty,(Except.ok.inj h).symm⟩
  split at h
  · cases h
  rename_i hlimits
  have hshort : line.length ≤ maxLineBytes := by
    simp only [Bool.or_eq_true,decide_eq_true_eq,not_or,not_lt] at hlimits
    exact hlimits.1
  obtain ⟨fields,hfields,h⟩ := except_bind_eq_ok.mp h
  have hsplit := splitFields_eq_ok hfields
  unfold Database.addRecord at h
  split at h
  · split at h
    · rename_i hkind
      obtain ⟨account,ha,h⟩ := except_bind_eq_ok.mp h
      obtain ⟨_,_,rfl⟩ := addAccount_eq_ok.mp h
      exact Or.inr (Or.inl ⟨account,loads_account hsplit (by simpa using hkind) hshort ha,rfl⟩)
    · cases h
  · split at h
    · rename_i hkind
      obtain ⟨group,hg,h⟩ := except_bind_eq_ok.mp h
      obtain ⟨_,_,rfl⟩ := addGroup_eq_ok.mp h
      obtain ⟨hloads,hlone⟩ := loads_group hsplit (by simpa using hkind) hshort hg
      exact Or.inr (Or.inr ⟨group,hloads,hlone,rfl⟩)
    · cases h
  · cases h

/-- Reading a line grows what will be stored by no more than that line, and by as much
only if the line is a record in its shortest form. -/
theorem addLine_contentsLength {d d' : Database} {line : Bytes} (h : d.addLine line = .ok d') :
    d'.contentsLength ≤ d.contentsLength + (line.length + 1) ∧
      (d'.contentsLength = d.contentsLength + (line.length + 1) ↔ line ≠ [] ∧ ShortestLine line) := by
  rcases addLine_cases h with ⟨rfl,rfl⟩ | ⟨account,hloads,rfl⟩ | ⟨group,hloads,_,rfl⟩
  · simp
  · have hgrow : (Database.mk (d.accounts ++ [account]) d.groups).contentsLength =
        d.contentsLength + ((recordLine account.fields).length + 1) := by
      simp only [Database.contentsLength,List.map_append,List.sum_append,List.map_cons,List.map_nil,
        List.sum_cons,List.sum_nil]
      omega
    have hlength := hloads.length
    rw [hgrow,← hloads.shortest]
    exact ⟨by omega,fun heq => ⟨hloads.nonempty,by omega⟩,fun ⟨_,heq⟩ => by omega⟩
  · have hgrow : (Database.mk d.accounts (d.groups ++ [group])).contentsLength =
        d.contentsLength + ((recordLine group.fields).length + 1) := by
      simp only [Database.contentsLength,List.map_append,List.sum_append,List.map_cons,List.map_nil,
        List.sum_cons,List.sum_nil]
      omega
    have hlength := hloads.length
    rw [hgrow,← hloads.shortest]
    exact ⟨by omega,fun heq => ⟨hloads.nonempty,by omega⟩,fun ⟨_,heq⟩ => by omega⟩

private theorem addLine_fitsFormat {d d' : Database} {line : Bytes} (hd : d.FitsFormat)
    (h : d.addLine line = .ok d') : d'.FitsFormat := by
  rcases addLine_cases h with ⟨_,rfl⟩ | ⟨account,hloads,rfl⟩ | ⟨group,hloads,hlone,rfl⟩
  · exact hd
  · have hbytes : account.recordBytes ≤ maxLineBytes := by
      rw [← recordLine_account_length]
      exact le_trans hloads.length hloads.short
    exact { hd with accounts := List.forall_mem_append.mpr ⟨hd.accounts,by simpa using hbytes⟩ }
  · have hbytes : group.recordBytes ≤ maxLineBytes := by
      rw [← recordLine_group_length]
      exact le_trans hloads.length hloads.short
    exact { hd with
      groups := List.forall_mem_append.mpr ⟨hd.groups,by simpa using hbytes⟩
      members := List.forall_mem_append.mpr ⟨hd.members,by simpa using hlone⟩ }

private theorem addLines_contentsLength {lines : List Bytes} {d d' : Database}
    (h : lines.foldlM Database.addLine d = .ok d') :
    d'.contentsLength ≤ d.contentsLength + (lines.map fun line => line.length + 1).sum ∧
      (d'.contentsLength = d.contentsLength + (lines.map fun line => line.length + 1).sum ↔
        ∀ line ∈ lines, line ≠ [] ∧ ShortestLine line) := by
  induction lines generalizing d with
  | nil =>
    cases h
    simp
  | cons line lines ih =>
    rw [List.foldlM_cons,except_bind_eq_ok] at h
    obtain ⟨next,hnext,h⟩ := h
    obtain ⟨hle,heq⟩ := addLine_contentsLength hnext
    obtain ⟨hle',heq'⟩ := ih h
    rw [List.map_cons,List.sum_cons,List.forall_mem_cons,← heq,← heq']
    omega

/-- The lines of an accepted file. -/
theorem parse_lines {bytes : Bytes} {d : Database} (h : Database.parse bytes = .ok d) :
    bytes.length ≤ maxDatabaseBytes ∧ ∃ lines, bytes.splitOn newline = formatHeader :: lines ∧
      lines.foldlM Database.addLine ⟨[],[]⟩ = .ok d := by
  unfold Database.parse at h
  split at h
  · cases h
  split at h
  · cases h
  rename_i hsize
  refine ⟨by omega,?_⟩
  split at h
  · rename_i header lines hsplit
    split at h
    · rename_i hheader
      exact ⟨lines,by rw [hsplit,beq_iff_eq.mp hheader],h⟩
    · split at h <;> cases h
  · cases h

/-- A loaded file is stored and loaded back unchanged exactly when it is not full without
a line end after its last record. -/
theorem loaded_file_restores (bytes : Bytes) (d : Database) (h : Database.parse bytes = .ok d) :
    d.Restores ↔ ¬ Overfull bytes := by
  obtain ⟨hsize,lines,hsplit,hlines⟩ := parse_lines h
  obtain ⟨hle,heq⟩ := addLines_contentsLength hlines
  have hfits : d.FitsFormat := foldlM_preserves (fun _ _ _ hd h => addLine_fitsFormat hd h) hlines
    ⟨by simp,by simp,by simp⟩
  have hempty : (Database.mk [] []).contentsLength = formatHeader.length + 1 := rfl
  have hbytes : bytes.length + 1 =
      formatHeader.length + 1 + (lines.map fun line => line.length + 1).sum := by
    have hjoin := congrArg List.length (splitOn_separated newline bytes)
    simp only [hsplit,List.length_flatMap,List.map_cons,List.sum_cons,List.length_append,
      List.length_singleton] at hjoin
    exact hjoin.symm
  have hover : Overfull bytes ↔ maxDatabaseBytes < d.contents.length := by
    rw [contents_length]
    constructor
    · rintro ⟨hfull,hshortest⟩
      rw [hsplit,List.tail_cons,← heq] at hshortest
      omega
    · intro hlong
      refine ⟨by omega,?_⟩
      rw [hsplit,List.tail_cons,← heq]
      omega
  rw [hover,not_lt]
  constructor
  · rintro ⟨stored,hstored,_⟩
    obtain ⟨rfl,hshort⟩ := serializeForStorage_eq_ok.mp hstored
    exact hshort
  · intro hshort
    have hstored : d.serializeForStorage = .ok d.contents := serializeForStorage_eq_ok.mpr ⟨rfl,hshort⟩
    have hback := (parse_serialized (parse_storable h) hstored).mpr hfits
    refine ⟨d.contents,hstored,hback,fun loaded hloaded => ?_⟩
    cases hback.symm.trans hloaded
    exact hstored

theorem loaded_file_restores_users : (Database.mk [] [usersGroup]).Restores :=
  (loaded_file_restores (ascii "NORX-USERDB 1\n\ng:users:01000:-") _ rfl).mpr fun h =>
    absurd h.size (by decide)

/-- The text of a database without the end of its last line. -/
def Database.unterminated (d : Database) : Bytes := [newline].intercalate (formatHeader :: d.lines)

private theorem unterminated_append (d : Database) : d.unterminated ++ [newline] = d.contents := by
  rw [Database.unterminated,← flatMap_separated (List.cons_ne_nil _ _),List.flatMap_cons]
  rfl

private theorem parse_unterminated {d : Database} (hd : d.Storable) (hf : d.FitsFormat)
    (hsize : d.unterminated.length ≤ maxDatabaseBytes) : Database.parse d.unterminated = .ok d := by
  have hsplit : d.unterminated.splitOn newline = formatHeader :: d.lines := by
    refine List.splitOn_intercalate newline ?_ (List.cons_ne_nil _ _)
    intro line hline
    rcases List.mem_cons.mp hline with rfl | hline
    · decide
    · exact lines_newline hd hline
  have hne : d.unterminated ≠ [] := fun hnil => by
    rw [hnil] at hsplit
    cases hsplit
  have haccounts : (d.accounts.map fun a => recordLine a.fields).foldlM Database.addLine ⟨[],[]⟩ =
      .ok ⟨d.accounts,[]⟩ :=
    (foldlM_account_lines (by simpa using hd.names) (by simpa using hd.uids)
      (by simpa using hd.accountLimit) hd.accounts).mpr
      ⟨fun a ha => recordLine_account_length a ▸ hf.accounts a ha,rfl⟩
  have hgroups : (d.groups.map fun g => recordLine g.fields).foldlM Database.addLine ⟨d.accounts,[]⟩ =
      .ok d.asLoaded :=
    (foldlM_group_lines (by simpa using hd.groupNames) (by simpa using hd.gids)
      (by simpa using hd.groupLimit) hd.groups).mpr
      ⟨fun g hg => recordLine_group_length g ▸ hf.groups g hg,rfl⟩
  rw [asLoaded_eq_self.mpr hf.members] at hgroups
  rw [Database.parse,if_neg (by simpa using hne),if_neg (by omega),hsplit]
  simp only [beq_self_eq_true,ite_true]
  exact foldlM_append_eq_ok.mpr ⟨_,haccounts,hgroups⟩

/-- A name of `n` letters. -/
def letters (n : Fin 32) : Text := ⟨List.replicate n 97,by revert n; decide⟩

/-- One of the groups that together fill a file to its last byte. -/
def fullGroup (i : Fin 128) : GroupEntry :=
  ⟨⟨[(65 + i.val / 16).toUInt8,(97 + i.val % 16).toUInt8],by revert i; decide⟩,(1000 + i.val).toUInt32,
    List.replicate 15 (letters 31) ++ [letters (if i.val < 115 then 21 else 20)]⟩

def fullDatabase : Database := ⟨[],(List.range 128).map fun n => fullGroup (Fin.ofNat 128 n)⟩

private theorem letters_valid : ∀ n : Fin 32, 0 < n.val → (letters n).ValidName := by
  unfold Text.ValidName
  decide

private theorem fullGroup_valid (i : Fin 128) : (fullGroup i).Valid where
  name := by
    unfold Text.ValidName
    revert i
    decide +kernel
  members m hm := by
    rcases List.mem_append.mp hm with hm | hm
    · rw [List.eq_of_mem_replicate hm]
      exact letters_valid 31 (by decide)
    · rw [List.mem_singleton.mp hm]
      split
      · exact letters_valid 21 (by decide)
      · exact letters_valid 20 (by decide)
  length := by simp [fullGroup,maxUsers]

theorem fullGroup_recordBytes : ∀ i : Fin 128,
    (fullGroup i).recordBytes = if i.val < 115 then 511 else 510 := by
  decide +kernel

private theorem fullGroup_name_inj {i j : Fin 128} (h : (fullGroup i).name = (fullGroup j).name) : i = j := by
  have hbytes := congrArg Text.bytes h
  simp only [fullGroup,List.cons.injEq,and_true,← UInt8.toNat_inj,Nat.toUInt8,UInt8.toNat_ofNat'] at hbytes
  omega

private theorem fullGroup_gid_inj {i j : Fin 128} (h : (fullGroup i).gid = (fullGroup j).gid) : i = j := by
  simp only [fullGroup,← UInt32.toNat_inj,Nat.toUInt32,UInt32.toNat_ofNat'] at h
  omega

private theorem nodup_map_fullGroups {β : Type} {f : GroupEntry → β}
    (hf : ∀ i j, f (fullGroup i) = f (fullGroup j) → i = j) : (fullDatabase.groups.map f).Nodup := by
  rw [fullDatabase,List.map_map]
  refine List.nodup_range.map_on fun n hn m hm he => ?_
  rw [List.mem_range] at hn hm
  have hval := congrArg Fin.val (hf _ _ he)
  simpa [Fin.val_ofNat,Nat.mod_eq_of_lt,hn,hm] using hval

private theorem fullDatabase_storable : fullDatabase.Storable where
  names := List.nodup_nil
  uids := List.nodup_nil
  groupNames := nodup_map_fullGroups fun _ _ => fullGroup_name_inj
  gids := nodup_map_fullGroups fun _ _ => fullGroup_gid_inj
  accounts := by simp [fullDatabase]
  groups := by simpa [fullDatabase] using fun n _ => fullGroup_valid (Fin.ofNat 128 n)
  accountLimit := by simp [fullDatabase]
  groupLimit := by simp [fullDatabase,maxGroups]

private theorem fullDatabase_fitsFormat : fullDatabase.FitsFormat where
  accounts := by simp [fullDatabase]
  groups := by
    simp only [fullDatabase,List.forall_mem_map,fullGroup_recordBytes]
    decide +kernel
  members := by simp [fullDatabase,fullGroup]

private theorem fullDatabase_length : fullDatabase.contents.length = maxDatabaseBytes + 1 := by
  have hheader : formatHeader.length = 13 := by decide
  have haccounts : fullDatabase.accounts = [] := rfl
  have hgroups : (fullDatabase.groups.map fun group => (recordLine group.fields).length + 1) =
      (List.range 128).map fun n => (if (Fin.ofNat 128 n).val < 115 then 511 else 510) + 1 := by
    rw [fullDatabase,List.map_map]
    refine List.map_congr_left fun n _ => ?_
    rw [Function.comp_apply,recordLine_group_length,fullGroup_recordBytes]
  have hsum : ((List.range 128).map fun n =>
      (if (Fin.ofNat 128 n).val < 115 then 511 else 510) + 1).sum = 65523 := by decide +kernel
  rw [contents_length,Database.contentsLength,hgroups,hsum,haccounts,hheader,List.map_nil,List.sum_nil]
  norm_num [maxDatabaseBytes]

/-- A full file whose last line is not ended loads, and what was loaded is too long to store. -/
theorem full_file_is_not_stored : ¬ ∀ bytes d, Database.parse bytes = .ok d → d.Restores := by
  intro h
  have hcontents := congrArg List.length (unterminated_append fullDatabase)
  rw [List.length_append,List.length_singleton,fullDatabase_length] at hcontents
  have hparse := parse_unterminated fullDatabase_storable fullDatabase_fitsFormat (by omega)
  obtain ⟨stored,hstored,_⟩ := h _ _ hparse
  obtain ⟨heq,hshort⟩ := serializeForStorage_eq_ok.mp hstored
  rw [heq,fullDatabase_length] at hshort
  omega

end UserDb.Norx
