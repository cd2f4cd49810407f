import UserDb.Norx.Calls
import UserDb.Norx.Format

/-! Loading what was stored. The writer knows neither the line limit nor that a lone
hyphen is a name, so the exact condition of the round trip mentions both. -/
namespace UserDb.Norx
open UserDb.Base UserDb.Base.Outcomes

private theorem decimalFrom_eq {index value : Nat} (h : value < 10^index) (written : Bytes)
    (hi : 0 < index) : decimalFrom index value written = numeral value ++ written := by
  induction index generalizing value written with
  | zero => omega
  | succ index ih =>
    rw [decimalFrom]
    split
    · rename_i hz
      rw [numeral_lt (by omega),Nat.mod_eq_of_lt (by omega)]
      rfl
    · rename_i hz
      have hlt : value / 10 < 10^index := by
        rw [Nat.pow_succ] at h
        omega
      have hpos : 0 < index := by
        rcases Nat.eq_zero_or_pos index with rfl | hp
        · omega
        · exact hp
      have hten : 10 ≤ value := by omega
      rw [ih hlt _ hpos,numeral_step hten,List.append_assoc,List.singleton_append]

theorem decimal_eq_numeral {value : Nat} (h : value < 10^20) : decimal value = numeral value := by
  rw [decimal,decimalFrom_eq h [] (by decide),List.append_nil]

@[simp] theorem decimal_toNat32 (n : UInt32) : decimal n.toNat = numeral n.toNat :=
  decimal_eq_numeral (lt_of_lt_of_le n.toNat_lt (by decide))

@[simp] theorem decimal_toNat64 (n : UInt64) : decimal n.toNat = numeral n.toNat :=
  decimal_eq_numeral (lt_of_lt_of_le n.toNat_lt (by decide))

private theorem le_foldl_digits (bs : Bytes) (acc : Nat) :
    acc ≤ bs.foldl (fun n b => n * 10 + digitValue b) acc := by
  induction bs generalizing acc with
  | nil => exact Nat.le_refl _
  | cons b bs ih => exact Nat.le_trans (by omega) (ih (acc * 10 + digitValue b))

/-- Checked accumulation succeeds whenever the number fits. -/
theorem parseDecimal_of_lt {bound : Nat} {bs : Bytes} (hne : bs ≠ []) (hd : ∀ b ∈ bs, isDigit b = true)
    (h : decimalValue bs < bound) : parseDecimal bound bs = .ok (decimalValue bs) := by
  have key : ∀ (bs : Bytes) (acc : Nat), (∀ b ∈ bs, isDigit b = true) →
      bs.foldl (fun n b => n * 10 + digitValue b) acc < bound →
      bs.foldlM (fun result b =>
        if !isDigit b then .error .invalidNumber
        else if result * 10 ≥ bound then .error .invalidNumber
        else if result * 10 + digitValue b ≥ bound then .error .invalidNumber
        else .ok (result * 10 + digitValue b)) acc =
      (.ok (bs.foldl (fun n b => n * 10 + digitValue b) acc) : Except ParseError Nat) := by
    intro bs
    induction bs with
    | nil => intros; rfl
    | cons b bs ih =>
      intro acc hd h
      have hle := le_foldl_digits bs (acc * 10 + digitValue b)
      rw [List.foldl_cons] at h
      rw [List.foldlM_cons,hd b List.mem_cons_self,List.foldl_cons,if_neg (by simp),if_neg (by omega),
        if_neg (by omega)]
      exact ih _ (fun x hx => hd x (List.mem_cons_of_mem _ hx)) h
  rw [parseDecimal,if_neg (by simpa using hne)]
  exact key bs 0 hd h

theorem parseU32_numeral (n : UInt32) : parseU32 (numeral n.toNat) = .ok n := by
  rw [parseU32,parseDecimal_of_lt (numeral_ne_nil _) (fun _ => numeral_digits) (by simpa using n.toNat_lt)]
  simp [Except.map]

private theorem parseU64_numeral (n : UInt64) : parseU64 (numeral n.toNat) = .ok n := by
  rw [parseU64,parseDecimal_of_lt (numeral_ne_nil _) (fun _ => numeral_digits) (by simpa using n.toNat_lt)]
  simp [Except.map]

/-- Bytes that neither end a field nor end a line. -/
def Plain (bs : Bytes) : Prop := ∀ b ∈ bs, b ≠ colon ∧ b ≠ newline ∧ b ≠ 13

instance (bs : Bytes) : Decidable (Plain bs) := List.decidableBAll _ bs

theorem Plain.append {a b : Bytes} (ha : Plain a) (hb : Plain b) : Plain (a ++ b) :=
  fun x hx => (List.mem_append.mp hx).elim (ha x) (hb x)

theorem plain_numeral (n : Nat) : Plain (numeral n) := by
  intro b hb
  have hd := isDigit_iff.mp (numeral_digits hb)
  refine ⟨?_,?_,?_⟩ <;> rintro rfl <;> exact absurd hd (by decide)

theorem isNameByte_ne {b : UInt8} (h : isNameByte b = true) :
    b ≠ colon ∧ b ≠ newline ∧ b ≠ 13 ∧ b ≠ comma := by
  refine ⟨?_,?_,?_,?_⟩ <;> rintro rfl <;> exact absurd h (by decide)

theorem Text.ValidName.bytes {name : Text} (h : name.ValidName) :
    name.bytes ≠ [] ∧ ∀ b ∈ name.bytes, isNameByte b = true := by
  unfold Text.ValidName parseName at h
  split at h
  · cases h
  rename_i hempty
  split at h
  · cases h
  rename_i hall
  refine ⟨?_,by simpa using hall⟩
  intro he
  simp [he] at hempty

theorem Text.ValidName.plain {name : Text} (h : name.ValidName) : Plain name.bytes := by
  intro b hb
  obtain ⟨hc,hn,hr,_⟩ := isNameByte_ne (h.bytes.2 b hb)
  exact ⟨hc,hn,hr⟩

theorem Text.ValidPath.plain {path : Text} (h : path.ValidPath) : Plain path.bytes := by
  unfold Text.ValidPath parsePath at h
  split at h
  · cases h
  rename_i hnot
  simp only [Bool.or_eq_true,not_or,List.any_eq_true,not_exists,not_and,decide_eq_true_eq,
    beq_iff_eq] at hnot
  intro b hb
  obtain ⟨⟨hlow,hcolon⟩,hnewline⟩ := hnot.2 b hb
  exact ⟨hcolon,hnewline,fun he => hlow (he ▸ by decide)⟩

private theorem isBase64_ne {b : UInt8} (h : isBase64 b = true) : b ≠ colon ∧ b ≠ newline ∧ b ≠ 13 := by
  refine ⟨?_,?_,?_⟩ <;> rintro rfl <;> exact absurd h (by decide)

theorem Text.ValidHash.plain {hash : Text} (h : hash.ValidHash) : Plain hash.bytes := by
  unfold Text.ValidHash validatePasswordHash at h
  split at h
  · cases h
  split at h
  · cases h
  rename_i hprefix
  obtain ⟨rest,hrest⟩ : argon2idPrefix <+: hash.bytes := by simpa using hprefix
  rw [← hrest,List.drop_left] at h
  split at h
  · rename_i salt digest parts hsplit
    split at h
    · cases h
    rename_i hok
    simp only [Bool.or_eq_true,not_or,Bool.not_eq_true',Bool.not_eq_false,List.all_eq_true,
      List.isEmpty_iff] at hok
    obtain ⟨⟨⟨⟨rfl,_⟩,_⟩,hsalt⟩,hdigest⟩ := hok
    have hrest' : rest = salt ++ dollar :: digest := by
      have hjoin := @List.intercalate_splitOn _ rest _ _ dollar
      rw [hsplit] at hjoin
      simpa [List.intercalate] using hjoin.symm
    rw [← hrest,hrest']
    refine Plain.append (by decide) (Plain.append (fun b hb => isBase64_ne (hsalt b hb)) ?_)
    intro b hb
    rcases List.mem_cons.mp hb with rfl | hb
    · decide
    · exact isBase64_ne (hdigest b hb)
  · cases h

/-- A record as it stands in the file, without its line end. -/
def recordLine (fields : List Bytes) : Bytes := [colon].intercalate fields

def Database.lines (d : Database) : List Bytes :=
  d.accounts.map (fun account => recordLine account.fields) ++
    d.groups.map (fun group => recordLine group.fields)

def Database.contents (d : Database) : Bytes :=
  formatHeader ++ [newline] ++ d.lines.flatMap (· ++ [newline])

private theorem memberField_plain {group : GroupEntry} (h : group.Valid) : Plain group.memberField := by
  unfold GroupEntry.memberField
  split
  · decide
  · intro b hb
    rcases mem_intercalate hb with rfl | ⟨part,hpart,hb⟩
    · decide
    · obtain ⟨m,hm,rfl⟩ := List.mem_map.mp hpart
      exact (h.members m hm).plain b hb

theorem Account.Valid.fields_plain {account : Account} (h : account.Valid) :
    ∀ field ∈ account.fields, Plain field := by
  simp only [Account.fields,List.forall_mem_cons,decimal_toNat32,decimal_toNat64,plain_numeral,
    h.name.plain,h.home.plain,h.shell.plain,h.hash.plain,true_and]
  exact ⟨by decide,by simp⟩

theorem GroupEntry.Valid.fields_plain {group : GroupEntry} (h : group.Valid) :
    ∀ field ∈ group.fields, Plain field := by
  simp only [GroupEntry.fields,List.forall_mem_cons,decimal_toNat32,plain_numeral,h.name.plain,
    memberField_plain h,true_and]
  exact ⟨by decide,by simp⟩

theorem recordLine_plain {fields : List Bytes} (h : ∀ field ∈ fields, Plain field) {b : UInt8}
    (hb : b ∈ recordLine fields) : b ≠ newline ∧ b ≠ 13 := by
  rcases mem_intercalate hb with rfl | ⟨field,hfield,hb⟩
  · decide
  · exact (h field hfield b hb).2

/-- A line of plain fields is read back as those fields, unless it is too long. -/
theorem addLine_recordLine {d : Database} {kind : Bytes} {fields : List Bytes}
    (h : ∀ field ∈ kind :: fields, Plain field) (hkind : kind ≠ []) (hlen : fields.length ≤ 8) :
    d.addLine (recordLine (kind :: fields)) =
      if (recordLine (kind :: fields)).length ≤ maxLineBytes then d.addRecord (kind :: fields)
      else .error .invalidLine := by
  have hne : recordLine (kind :: fields) ≠ [] := by
    cases fields <;> simp [recordLine,hkind]
  have hlast : (recordLine (kind :: fields)).getLast? ≠ some 13 := fun he =>
    (recordLine_plain h (List.mem_of_getLast? he)).2 rfl
  have hsplit : (recordLine (kind :: fields)).splitOn colon = kind :: fields :=
    List.splitOn_intercalate colon (fun field hf hc => (h field hf colon hc).1 rfl) (by simp)
  rw [Database.addLine,if_neg (by simpa using hne)]
  by_cases hl : (recordLine (kind :: fields)).length ≤ maxLineBytes
  · have hs : splitFields (recordLine (kind :: fields)) = .ok (kind :: fields) := by
      rw [splitFields,hsplit,if_neg (by simp only [List.length_cons]; omega)]
    rw [if_neg (by simpa [hlast] using hl),if_pos hl,hs]
    rfl
  · rw [if_pos (by simp; omega),if_neg hl]

private theorem parseAccount_fields {a : Account} (h : a.Valid) :
    parseAccount a.entry.name.bytes (numeral a.entry.uid.toNat) (numeral a.entry.gid.toNat)
      (numeral a.entry.flags.toNat) (numeral a.entry.capabilities.toNat) a.entry.home.bytes
      a.entry.shell.bytes a.passwordHash.bytes = .ok a := by
  simp only [parseAccount,except_bind_eq_ok]
  refine ⟨_,h.name,_,parseU32_numeral _,_,parseU32_numeral _,_,parseU32_numeral _,(),?_,
    _,parseU64_numeral _,(),?_,_,h.home,_,h.shell,(),h.hash,_,toText_bytes _,rfl⟩
  · exact reject_eq_ok.mpr (bne_eq_false_iff_eq.mpr h.flags)
  · exact reject_eq_ok.mpr (bne_eq_false_iff_eq.mpr h.capabilities)

private theorem foldlM_parseMember_eq {members : List Text} (hv : ∀ m ∈ members, m.ValidName)
    (hl : members.length ≤ maxUsers) :
    (members.map (·.bytes)).foldlM parseMember [] = .ok members := by
  have key : ∀ rest done : List Text, (∀ m ∈ rest, m.ValidName) →
      done.length + rest.length ≤ maxUsers →
      (rest.map (·.bytes)).foldlM parseMember done = .ok (done ++ rest) := by
    intro rest
    induction rest with
    | nil => intro done _ _; simp; rfl
    | cons m rest ih =>
      intro done hv hl
      rw [List.length_cons] at hl
      have hm : parseMember done m.bytes = .ok (done ++ [m]) := by
        have hne : (done.length == maxUsers) = false := by simp; omega
        have hname : parseName m.bytes = .ok m := hv m List.mem_cons_self
        simp only [parseMember,hne,hname]
        rfl
      rw [List.map_cons,List.foldlM_cons,hm]
      have := ih (done ++ [m]) (fun x hx => hv x (List.mem_cons_of_mem _ hx))
        (by rw [List.length_append,List.length_singleton]; omega)
      rw [List.append_assoc,List.singleton_append] at this
      exact this
  exact key members [] hv (by simpa using hl)

/-- What loading makes of a group: a lone member named like the marker is lost. -/
def GroupEntry.asLoaded (group : GroupEntry) : GroupEntry :=
  if group.members.map (·.bytes) = [emptyMembers] then { group with members := [] } else group

def Database.asLoaded (d : Database) : Database := { d with groups := d.groups.map (·.asLoaded) }

@[simp] theorem asLoaded_name (g : GroupEntry) : g.asLoaded.name = g.name := by
  unfold GroupEntry.asLoaded; split <;> rfl

@[simp] theorem asLoaded_gid (g : GroupEntry) : g.asLoaded.gid = g.gid := by
  unfold GroupEntry.asLoaded; split <;> rfl

theorem GroupEntry.Valid.members_split {g : GroupEntry} (h : g.Valid) (hne : g.members ≠ []) :
    ([comma].intercalate (g.members.map (·.bytes))).splitOn comma = g.members.map (·.bytes) := by
  refine List.splitOn_intercalate comma ?_ (by simpa using hne)
  intro part hpart hc
  obtain ⟨m,hm,rfl⟩ := List.mem_map.mp hpart
  exact (isNameByte_ne ((h.members m hm).bytes.2 comma hc)).2.2.2 rfl

private theorem parseMembers_field {g : GroupEntry} (h : g.Valid) :
    parseMembers g.memberField = .ok g.asLoaded.members := by
  by_cases hnil : g.members = []
  · simp [hnil,GroupEntry.memberField,parseMembers,GroupEntry.asLoaded]
  have hsplit := h.members_split hnil
  rw [GroupEntry.memberField,if_neg (by simpa using hnil),parseMembers]
  by_cases hlone : g.members.map (·.bytes) = [emptyMembers]
  · rw [GroupEntry.asLoaded,if_pos hlone,hlone,List.intercalate_singleton,if_pos (by simp)]
  · have hfield : [comma].intercalate (g.members.map (·.bytes)) ≠ emptyMembers := by
      intro he
      rw [he] at hsplit
      exact hlone (hsplit.symm.trans (by decide))
    rw [GroupEntry.asLoaded,if_neg hlone,if_neg (by simpa using hfield),hsplit]
    exact foldlM_parseMember_eq h.members h.length

private theorem parseGroup_fields {g : GroupEntry} (h : g.Valid) :
    parseGroup g.name.bytes (numeral g.gid.toNat) g.memberField = .ok g.asLoaded := by
  simp only [parseGroup,except_bind_eq_ok]
  refine ⟨_,h.name,_,parseU32_numeral _,_,parseMembers_field h,?_⟩
  unfold GroupEntry.asLoaded
  split <;> rfl

private theorem addLine_account {d : Database} {a : Account} (h : a.Valid) :
    d.addLine (recordLine a.fields) =
      if (recordLine a.fields).length ≤ maxLineBytes then d.addAccount a else .error .invalidLine := by
  have hline := addLine_recordLine (d := d) h.fields_plain (by decide) (by simp)
  have hrecord : d.addRecord a.fields = d.addAccount a := by
    simp only [Account.fields,Database.addRecord,decimal_toNat32,decimal_toNat64,parseAccount_fields h]
    rfl
  rw [← hrecord]
  exact hline

private theorem addLine_group {d : Database} {g : GroupEntry} (h : g.Valid) :
    d.addLine (recordLine g.fields) =
      if (recordLine g.fields).length ≤ maxLineBytes then d.addGroup g.asLoaded
      else .error .invalidLine := by
  have hline := addLine_recordLine (d := d) h.fields_plain (by decide) (by simp)
  have hrecord : d.addRecord g.fields = d.addGroup g.asLoaded := by
    simp only [GroupEntry.fields,Database.addRecord,decimal_toNat32,parseGroup_fields h]
    rfl
  rw [← hrecord]
  exact hline

/-- Loading the lines of accounts that go together appends exactly these accounts. -/
theorem foldlM_account_lines {accounts : List Account} {d d' : Database}
    (hnames : ((d.accounts ++ accounts).map (·.entry.name)).Nodup)
    (huids : ((d.accounts ++ accounts).map (·.entry.uid)).Nodup)
    (hlimit : (d.accounts ++ accounts).length ≤ maxUsers) (hv : ∀ a ∈ accounts, a.Valid) :
    (accounts.map fun a => recordLine a.fields).foldlM Database.addLine d = .ok d' ↔
      (∀ a ∈ accounts, (recordLine a.fields).length ≤ maxLineBytes) ∧
        d' = Database.mk (d.accounts ++ accounts) d.groups := by
  induction accounts generalizing d with
  | nil => simp [pure,Except.pure,eq_comm]
  | cons a accounts ih =>
    have hfirst : d.addAccount a = .ok (Database.mk (d.accounts ++ [a]) d.groups) := by
      refine addAccount_eq_ok.mpr ⟨?_,?_,rfl⟩
      · simp only [List.length_append,List.length_cons] at hlimit
        omega
      · intro x hx
        simp only [List.map_append,List.map_cons,List.nodup_append] at hnames huids
        exact ⟨hnames.2.2 _ (List.mem_map_of_mem hx) _ List.mem_cons_self,
          huids.2.2 _ (List.mem_map_of_mem hx) _ List.mem_cons_self⟩
    have ih := ih (d := Database.mk (d.accounts ++ [a]) d.groups) (by simpa using hnames)
      (by simpa using huids) (by simpa using hlimit) (fun x hx => hv x (List.mem_cons_of_mem _ hx))
    rw [List.map_cons,List.foldlM_cons,except_bind_eq_ok,addLine_account (hv a List.mem_cons_self)]
    by_cases hlen : (recordLine a.fields).length ≤ maxLineBytes
    · rw [if_pos hlen,hfirst]
      simpa [hlen] using ih
    · rw [if_neg hlen]
      simp [hlen]

theorem foldlM_group_lines {groups : List GroupEntry} {d d' : Database}
    (hnames : ((d.groups ++ groups).map (·.name)).Nodup) (hgids : ((d.groups ++ groups).map (·.gid)).Nodup)
    (hlimit : (d.groups ++ groups).length ≤ maxGroups) (hv : ∀ g ∈ groups, g.Valid) :
    (groups.map fun g => recordLine g.fields).foldlM Database.addLine d = .ok d' ↔
      (∀ g ∈ groups, (recordLine g.fields).length ≤ maxLineBytes) ∧
        d' = Database.mk d.accounts (d.groups ++ groups.map (·.asLoaded)) := by
  induction groups generalizing d with
  | nil => simp [pure,Except.pure,eq_comm]
  | cons g groups ih =>
    have hfirst : d.addGroup g.asLoaded = .ok (Database.mk d.accounts (d.groups ++ [g.asLoaded])) := by
      refine addGroup_eq_ok.mpr ⟨?_,?_,rfl⟩
      · simp only [List.length_append,List.length_cons] at hlimit
        omega
      · intro x hx
        simp only [List.map_append,List.map_cons,List.nodup_append] at hnames hgids
        rw [asLoaded_name,asLoaded_gid]
        exact ⟨hnames.2.2 _ (List.mem_map_of_mem hx) _ List.mem_cons_self,
          hgids.2.2 _ (List.mem_map_of_mem hx) _ List.mem_cons_self⟩
    have ih := ih (d := Database.mk d.accounts (d.groups ++ [g.asLoaded])) (by simpa using hnames)
      (by simpa using hgids) (by simpa using hlimit) (fun x hx => hv x (List.mem_cons_of_mem _ hx))
    rw [List.map_cons,List.foldlM_cons,except_bind_eq_ok,addLine_group (hv g List.mem_cons_self)]
    by_cases hlen : (recordLine g.fields).length ≤ maxLineBytes
    · rw [if_pos hlen,hfirst]
      simpa [hlen] using ih
    · rw [if_neg hlen]
      simp [hlen]

theorem lines_newline {d : Database} (hd : d.Storable) {line : Bytes} (hline : line ∈ d.lines) :
    newline ∉ line := by
  rcases List.mem_append.mp hline with hline | hline
  · obtain ⟨a,ha,rfl⟩ := List.mem_map.mp hline
    exact fun hn => (recordLine_plain (hd.accounts a ha).fields_plain hn).1 rfl
  · obtain ⟨g,hg,rfl⟩ := List.mem_map.mp hline
    exact fun hn => (recordLine_plain (hd.groups g hg).fields_plain hn).1 rfl

/-- Loading what was written succeeds exactly when no line is too long, and then loses
only the members of the groups that look empty. -/
theorem parse_contents {d d' : Database} (hd : d.Storable)
    (hsize : d.contents.length ≤ maxDatabaseBytes) :
    Database.parse d.contents = .ok d' ↔
      (∀ line ∈ d.lines, line.length ≤ maxLineBytes) ∧ d' = d.asLoaded := by
  have hsplit : d.contents.splitOn newline = formatHeader :: (d.lines ++ [[]]) := by
    rw [Database.contents,List.append_assoc,List.singleton_append,
      List.splitOn_append_cons_self_of_not_mem (by decide),
      splitOn_lines fun line h => lines_newline hd h]
  have hne : d.contents ≠ [] := by simp [Database.contents]
  have hempty : ∀ r : Database, [[]].foldlM Database.addLine r = .ok r := fun _ => rfl
  rw [Database.parse,if_neg (by simpa using hne),if_neg (by omega),hsplit]
  simp only [beq_self_eq_true,ite_true,foldlM_append_eq_ok,hempty,Except.ok.injEq,exists_eq_right,
    Database.lines]
  constructor
  · rintro ⟨r,hr,h⟩
    obtain ⟨hlen,rfl⟩ := (foldlM_account_lines (by simpa using hd.names) (by simpa using hd.uids)
      (by simpa using hd.accountLimit) hd.accounts).mp hr
    obtain ⟨hlen',rfl⟩ := (foldlM_group_lines (by simpa using hd.groupNames) (by simpa using hd.gids)
      (by simpa using hd.groupLimit) hd.groups).mp h
    refine ⟨?_,by simp [Database.asLoaded]⟩
    rintro line hline
    rcases List.mem_append.mp hline with hline | hline
    · obtain ⟨a,ha,rfl⟩ := List.mem_map.mp hline
      exact hlen a ha
    · obtain ⟨g,hg,rfl⟩ := List.mem_map.mp hline
      exact hlen' g hg
  · rintro ⟨hlen,rfl⟩
    refine ⟨_,(foldlM_account_lines (by simpa using hd.names) (by simpa using hd.uids)
      (by simpa using hd.accountLimit) hd.accounts).mpr ⟨?_,rfl⟩,?_⟩
    · exact fun a ha => hlen _ (List.mem_append_left _ (List.mem_map_of_mem ha))
    · refine (foldlM_group_lines (by simpa using hd.groupNames) (by simpa using hd.gids)
        (by simpa using hd.groupLimit) hd.groups).mpr ⟨?_,by simp [Database.asLoaded]⟩
      exact fun g hg => hlen _ (List.mem_append_right _ (List.mem_map_of_mem hg))

private theorem foldlM_appendFields {α : Type} {f : α → List Bytes} {l : List α} {output bytes : Bytes}
    (h : output.length ≤ maxDatabaseBytes) :
    l.foldlM (fun output a => appendFields output (f a)) output = .ok bytes ↔
      bytes = output ++ l.flatMap (fun a => recordLine (f a) ++ [newline]) ∧
        bytes.length ≤ maxDatabaseBytes := by
  induction l generalizing output with
  | nil =>
    simp only [List.foldlM_nil,List.flatMap_nil,List.append_nil,pure,Except.pure,Except.ok.injEq]
    exact ⟨fun he => ⟨he.symm,he ▸ h⟩,fun ⟨he,_⟩ => he.symm⟩
  | cons a l ih =>
    have happ : appendFields output (f a) =
        if (output ++ (recordLine (f a) ++ [newline])).length > maxDatabaseBytes then .error .tooLarge
        else .ok (output ++ (recordLine (f a) ++ [newline])) := by
      rw [← List.append_assoc]
      rfl
    rw [List.foldlM_cons,happ,List.flatMap_cons]
    by_cases hlong : (output ++ (recordLine (f a) ++ [newline])).length > maxDatabaseBytes
    · rw [if_pos hlong]
      refine ⟨nofun,?_⟩
      rintro ⟨rfl,hle⟩
      simp only [List.length_append] at hle hlong
      omega
    · have ih := @ih (output ++ (recordLine (f a) ++ [newline])) (by omega)
      rw [List.append_assoc output] at ih
      rw [if_neg hlong]
      exact ih

/-- What is written, and when writing succeeds. -/
theorem serializeForStorage_eq_ok {d : Database} {bytes : Bytes} :
    d.serializeForStorage = .ok bytes ↔ bytes = d.contents ∧ bytes.length ≤ maxDatabaseBytes := by
  have hcontents : d.contents = formatHeader ++ [newline] ++
      d.accounts.flatMap (fun a => recordLine a.fields ++ [newline]) ++
        d.groups.flatMap (fun g => recordLine g.fields ++ [newline]) := by
    simp [Database.contents,Database.lines,List.flatMap_append,List.flatMap_map]
  simp only [Database.serializeForStorage,except_bind_eq_ok,
    foldlM_appendFields (l := d.accounts) (show (formatHeader ++ [newline]).length ≤ maxDatabaseBytes by decide),
    reject_eq_ok,decide_eq_false_iff_not,not_lt,exists_const,hcontents]
  constructor
  · rintro ⟨_,⟨rfl,hle⟩,_,h,_,hfinal⟩
    obtain ⟨rfl,hle'⟩ := (foldlM_appendFields hle).mp h
    cases hfinal
    exact ⟨rfl,hle'⟩
  · rintro ⟨rfl,hle⟩
    refine ⟨_,⟨rfl,?_⟩,_,(foldlM_appendFields ?_).mpr ⟨rfl,hle⟩,hle,rfl⟩
    all_goals
      rw [List.length_append] at hle
      omega

/-- The bytes a record takes in the file, its line end apart. -/
def Account.recordBytes (account : Account) : Nat :=
  account.entry.name.bytes.length + (numeral account.entry.uid.toNat).length +
    (numeral account.entry.gid.toNat).length + (numeral account.entry.flags.toNat).length +
    (numeral account.entry.capabilities.toNat).length + account.entry.home.bytes.length +
    account.entry.shell.bytes.length + account.passwordHash.bytes.length + 9

def GroupEntry.recordBytes (group : GroupEntry) : Nat :=
  group.name.bytes.length + (numeral group.gid.toNat).length +
    (if group.members.isEmpty then 1
      else (group.members.map (·.bytes.length)).sum + (group.members.length - 1)) + 4

theorem length_intercalate {sep : UInt8} (parts : List Bytes) :
    ([sep].intercalate parts).length = (parts.map List.length).sum + (parts.length - 1) := by
  induction parts with
  | nil => rfl
  | cons part parts ih =>
    cases parts with
    | nil => simp
    | cons next parts =>
      rw [List.intercalate_cons_cons,List.length_append,List.length_append,ih]
      simp only [List.length_cons,List.length_nil,List.map_cons,List.sum_cons]
      omega

theorem recordLine_account_length (a : Account) :
    (recordLine a.fields).length = a.recordBytes := by
  have hkind : (ascii "u").length = 1 := rfl
  simp only [recordLine,length_intercalate,Account.fields,Account.recordBytes,List.map_cons,
    List.map_nil,List.sum_cons,List.sum_nil,decimal_toNat32,decimal_toNat64,List.length_cons,
    List.length_nil,hkind]
  omega

theorem recordLine_group_length (g : GroupEntry) :
    (recordLine g.fields).length = g.recordBytes := by
  have hkind : (ascii "g").length = 1 := rfl
  have hempty : emptyMembers.length = 1 := rfl
  have hmembers : g.memberField.length = if g.members.isEmpty then 1
      else (g.members.map (·.bytes.length)).sum + (g.members.length - 1) := by
    simp only [GroupEntry.memberField,apply_ite List.length,hempty,length_intercalate,List.map_map,
      List.length_map]
    rfl
  simp only [recordLine,length_intercalate,GroupEntry.fields,GroupEntry.recordBytes,List.map_cons,
    List.map_nil,List.sum_cons,List.sum_nil,decimal_toNat32,List.length_cons,List.length_nil,hkind,
    hmembers]
  omega

/-- The databases that survive being stored: every record fits a line, and no group
consists of the one member named like the marker of an empty list. -/
structure Database.FitsFormat (d : Database) : Prop where
  accounts : ∀ account ∈ d.accounts, account.recordBytes ≤ maxLineBytes
  groups : ∀ group ∈ d.groups, group.recordBytes ≤ maxLineBytes
  members : ∀ group ∈ d.groups, group.members.map (·.bytes) ≠ [emptyMembers]

theorem asLoaded_eq_self {d : Database} :
    d.asLoaded = d ↔ ∀ g ∈ d.groups, g.members.map (·.bytes) ≠ [emptyMembers] := by
  have key : ∀ g : GroupEntry, g.asLoaded = g ↔ g.members.map (·.bytes) ≠ [emptyMembers] := by
    intro g
    unfold GroupEntry.asLoaded
    split
    · rename_i h
      refine ⟨fun he => ?_,fun hne => absurd h hne⟩
      rw [← he] at h
      cases h
    · rename_i h
      exact ⟨fun _ => h,fun _ => rfl⟩
  have hmap : d.asLoaded = d ↔ d.groups.map (·.asLoaded) = d.groups.map id := by
    cases d; simp [Database.asLoaded]
  rw [hmap,List.map_inj_left]
  exact forall₂_congr fun g _ => key g

/-- What a storable database comes back as. -/
theorem parse_serialized {d : Database} {bytes : Bytes} (hd : d.Storable)
    (h : d.serializeForStorage = .ok bytes) : Database.parse bytes = .ok d ↔ d.FitsFormat := by
  obtain ⟨rfl,hsize⟩ := serializeForStorage_eq_ok.mp h
  rw [parse_contents hd hsize,eq_comm,asLoaded_eq_self]
  constructor
  · rintro ⟨hlen,hm⟩
    refine ⟨fun a ha => ?_,fun g hg => ?_,hm⟩
    · rw [← recordLine_account_length]
      exact hlen _ (List.mem_append_left _ (List.mem_map_of_mem ha))
    · rw [← recordLine_group_length]
      exact hlen _ (List.mem_append_right _ (List.mem_map_of_mem hg))
  · rintro ⟨ha,hg,hm⟩
    refine ⟨fun line hline => ?_,hm⟩
    rcases List.mem_append.mp hline with hline | hline
    · obtain ⟨a,hmem,rfl⟩ := List.mem_map.mp hline
      exact recordLine_account_length a ▸ ha a hmem
    · obtain ⟨g,hmem,rfl⟩ := List.mem_map.mp hline
      exact recordLine_group_length g ▸ hg g hmem

/-- A database some session can hold: a loaded one, after successful calls. -/
inductive Reachable : Database → Prop where
  | parsed {bytes : Bytes} {d : Database} (h : Database.parse bytes = .ok d) : Reachable d
  | called {c : Call} {d d' : Database} (hd : Reachable d) (h : c.run d = .ok () d') : Reachable d'

theorem Reachable.storable {d : Database} (h : Reachable d) : d.Storable := by
  induction h with
  | parsed h => exact parse_storable h
  | called _ h ih => exact Call.run_storable h ih

theorem usersDatabase_reachable : Reachable (Database.mk [] [usersGroup]) :=
  .called (c := .createGroup rootSession usersGroup.name (some 1000) [])
    (.parsed (show Database.parse (formatHeader ++ [newline]) = .ok ⟨[],[]⟩ from rfl)) rfl

/-- A stored database loads back unchanged exactly when its records fit the format. -/
theorem stored_database_loads_back (d : Database) (hd : Reachable d) (bytes : Bytes)
    (h : d.serializeForStorage = .ok bytes) : Database.parse bytes = .ok d ↔ d.FitsFormat :=
  parse_serialized hd.storable h

theorem usersDatabase_fitsFormat : (Database.mk [] [usersGroup]).FitsFormat where
  accounts := by simp
  groups := by simpa using show usersGroup.recordBytes ≤ maxLineBytes by decide
  members := by simpa using show usersGroup.members.map (·.bytes) ≠ [emptyMembers] by decide

/-- A user who is a member of the group. -/
def memberSpec : UserSpec :=
  ⟨⟨ascii "bob",bob_utf8⟩,none,some 1000,[usersGroup.name],some ⟨ascii "/users/bob",bobHome_utf8⟩,some ⟨ascii "/bin/nsh",nsh_utf8⟩,0,0⟩

def memberDatabase : Database :=
  ⟨[⟨⟨⟨ascii "bob",bob_utf8⟩,1000,1000,flagLocked,0,⟨ascii "/users/bob",bobHome_utf8⟩,⟨ascii "/bin/nsh",nsh_utf8⟩⟩,lockedPasswordHash⟩],
    [{ usersGroup with members := [⟨ascii "bob",bob_utf8⟩] }]⟩

theorem memberDatabase_reachable : Reachable memberDatabase :=
  .called (c := .createLockedUser rootSession memberSpec) usersDatabase_reachable rfl

theorem memberDatabase_fitsFormat : memberDatabase.FitsFormat where
  accounts := by decide +kernel
  groups := by decide +kernel
  members := by decide +kernel

theorem stored_database_loads_back_users : Database.parse memberDatabase.contents = .ok memberDatabase :=
  (stored_database_loads_back _ memberDatabase_reachable _
    (serializeForStorage_eq_ok.mpr ⟨rfl,by decide +kernel⟩)).mpr memberDatabase_fitsFormat

def hyphen : Text := ⟨ascii "-",by decide⟩

def hyphenSpec : UserSpec :=
  ⟨hyphen,some 1000,some 1000,[],some ⟨ascii "/users",by decide⟩,some ⟨ascii "/bin/sh",by decide⟩,0,0⟩

def hyphenAccount : Account :=
  ⟨⟨hyphen,1000,1000,flagLocked,0,⟨ascii "/users",by decide⟩,⟨ascii "/bin/sh",by decide⟩⟩,
    lockedPasswordHash⟩

def hyphenGroup : GroupEntry := { usersGroup with members := [hyphen] }

private theorem hyphenDatabase_reachable : Reachable ⟨[hyphenAccount],[hyphenGroup]⟩ := by
  have hcreated : Reachable ⟨[hyphenAccount],[usersGroup]⟩ :=
    .called (c := .createLockedUser rootSession hyphenSpec) usersDatabase_reachable rfl
  exact .called (c := .modifyGroup rootSession 1000 { members := some [hyphen] }) hcreated rfl

/-- The one member of a group may be called like the marker of an empty list. -/
theorem lone_hyphen_member_is_lost : ¬ ∀ d, Reachable d → ∀ bytes,
    d.serializeForStorage = .ok bytes → Database.parse bytes = .ok d := by
  intro h
  have hser : (Database.mk [hyphenAccount] [hyphenGroup]).serializeForStorage = .ok _ :=
    serializeForStorage_eq_ok.mpr ⟨rfl,by decide +kernel⟩
  have hfits := (parse_serialized hyphenDatabase_reachable.storable hser).mp
    (h _ hyphenDatabase_reachable _ hser)
  exact hfits.members hyphenGroup List.mem_cons_self rfl

end UserDb.Norx
