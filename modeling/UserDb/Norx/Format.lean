import UserDb.Norx.Integrity

/-! The stored file: the loader with its limits, and the writer. -/
namespace UserDb.Norx
open UserDb.Base UserDb.Base.Outcomes

def splitFields (line : Bytes) : Except ParseError (List Bytes) :=
  if (line.splitOn colon).length > 9 then .error .invalidLine else .ok (line.splitOn colon)

def parseAccount (name uid gid flags capabilities home shell hash : Bytes) :
    Except ParseError Account := do
  let name ← parseName name
  let uid ← parseU32 uid
  let gid ← parseU32 gid
  let flags ← parseU32 flags
  reject (flags &&& ~~~knownFlags != 0) .unknownFlags
  let capabilities ← parseU64 capabilities
  reject (capabilities &&& ~~~knownCapabilities != 0) .unknownCapabilities
  let home ← parsePath home
  let shell ← parsePath shell
  validatePasswordHash hash
  let passwordHash ← toText hash
  pure ⟨UserEntry.mk name uid gid flags capabilities home shell,passwordHash⟩

/-- The marker that stands for a group without members. -/
def emptyMembers : Bytes := ascii "-"

def parseMember (members : List Text) (member : Bytes) : Except ParseError (List Text) := do
  reject (members.length == maxUsers) .limit
  let name ← parseName member
  pure (members ++ [name])

def parseMembers (field : Bytes) : Except ParseError (List Text) :=
  if field == emptyMembers then .ok [] else (field.splitOn comma).foldlM parseMember []

def parseGroup (name gid members : Bytes) : Except ParseError GroupEntry := do
  let name ← parseName name
  let gid ← parseU32 gid
  let members ← parseMembers members
  pure ⟨name,gid,members⟩

def Database.addAccount (self : Database) (account : Account) : Except ParseError Database :=
  if self.accounts.length == maxUsers || self.accounts.any (fun existing =>
      existing.entry.name == account.entry.name || existing.entry.uid == account.entry.uid) then
    .error (if self.accounts.length == maxUsers then .limit else .duplicate)
  else .ok { self with accounts := self.accounts ++ [account] }

def Database.addGroup (self : Database) (group : GroupEntry) : Except ParseError Database :=
  if self.groups.length == maxGroups || self.groups.any (fun existing =>
      existing.name == group.name || existing.gid == group.gid) then
    .error (if self.groups.length == maxGroups then .limit else .duplicate)
  else .ok { self with groups := self.groups ++ [group] }

/-- One record: nine fields after a `u`, four after a `g`, nothing else. -/
def Database.addRecord (self : Database) : List Bytes → Except ParseError Database
  | [kind,name,uid,gid,flags,capabilities,home,shell,hash] =>
    if kind == ascii "u" then do
      let account ← parseAccount name uid gid flags capabilities home shell hash
      self.addAccount account
    else .error .invalidLine
  | [kind,name,gid,members] =>
    if kind == ascii "g" then do
      let group ← parseGroup name gid members
      self.addGroup group
    else .error .invalidLine
  | _ => .error .invalidLine

def Database.addLine (self : Database) (line : Bytes) : Except ParseError Database :=
  if line.isEmpty then .ok self
  else if line.length > maxLineBytes || line.getLast? == some 13 then .error .invalidLine
  else do
    let fields ← splitFields line
    self.addRecord fields

def Database.parse (bytes : Bytes) : Except ParseError Database :=
  if bytes.isEmpty then .error .empty
  else if bytes.length > maxDatabaseBytes then .error .tooLarge
  else
    match bytes.splitOn newline with
    | header :: lines =>
      if header == formatHeader then lines.foldlM Database.addLine ⟨[],[]⟩
      else if (ascii "NORX-USERDB ").isPrefixOf header then .error .unsupportedVersion
      else .error .invalidHeader
    | [] => .error .invalidHeader

/-- Digits are written towards the front of a buffer with `index` places left. -/
def decimalFrom : Nat → Nat → Bytes → Bytes
  | 0, _, written => written
  | index + 1, value, written =>
    if value / 10 = 0 then digit (value % 10) :: written
    else decimalFrom index (value / 10) (digit (value % 10) :: written)

def decimal (value : Nat) : Bytes := decimalFrom 20 value []

def appendFields (output : Bytes) (fields : List Bytes) : Except SerializeError Bytes :=
  let output := output ++ [colon].intercalate fields ++ [newline]
  if output.length > maxDatabaseBytes then .error .tooLarge else .ok output

def Account.fields (account : Account) : List Bytes :=
  [ascii "u",account.entry.name.bytes,decimal account.entry.uid.toNat,decimal account.entry.gid.toNat,
    decimal account.entry.flags.toNat,decimal account.entry.capabilities.toNat,
    account.entry.home.bytes,account.entry.shell.bytes,account.passwordHash.bytes]

def GroupEntry.memberField (group : GroupEntry) : Bytes :=
  if group.members.isEmpty then emptyMembers else [comma].intercalate (group.members.map (·.bytes))

def GroupEntry.fields (group : GroupEntry) : List Bytes :=
  [ascii "g",group.name.bytes,decimal group.gid.toNat,group.memberField]

def Database.serializeForStorage (self : Database) : Except SerializeError Bytes := do
  let output ← self.accounts.foldlM (fun output account => appendFields output account.fields)
    (formatHeader ++ [newline])
  let output ← self.groups.foldlM (fun output group => appendFields output group.fields) output
  reject (output.length > maxDatabaseBytes) .tooLarge
  pure output

/-! What loading guarantees. -/

private theorem parseAccount_valid {name uid gid flags capabilities home shell hash : Bytes} {account : Account}
    (h : parseAccount name uid gid flags capabilities home shell hash = .ok account) :
    account.Valid := by
  simp only [parseAccount,except_bind_eq_ok,reject_eq_ok,bne_eq_false_iff_eq] at h
  obtain ⟨name,hn,uid,_,gid,_,flags,_,_,hf,capabilities,_,_,hc,home,hh,shell,hs,_,hv,text,ht,h⟩ := h
  cases h
  refine ⟨(parseName_eq_ok.mp hn).2,hf,hc,(parsePath_eq_ok.mp hh).2,(parsePath_eq_ok.mp hs).2,?_⟩
  rw [Text.ValidHash,← toText_eq_ok.mp ht]
  exact hv

theorem parseMember_ok {members result : List Text} {member : Bytes}
    (h : parseMember members member = .ok result) :
    ∃ name : Text, result = members ++ [name] ∧ name.ValidName ∧ member = name.bytes ∧
      members.length ≠ maxUsers := by
  simp only [parseMember,except_bind_eq_ok,reject_eq_ok,beq_eq_false_iff_ne] at h
  obtain ⟨_,hl,name,hn,h⟩ := h
  cases h
  exact ⟨name,rfl,(parseName_eq_ok.mp hn).2,(parseName_eq_ok.mp hn).1,hl⟩

private theorem parseMembers_valid {field : Bytes} {members : List Text}
    (h : parseMembers field = .ok members) :
    (∀ m ∈ members, m.ValidName) ∧ members.length ≤ maxUsers := by
  unfold parseMembers at h
  split at h
  · cases h; simp
  refine foldlM_preserves (P := fun members : List Text =>
    (∀ m ∈ members, m.ValidName) ∧ members.length ≤ maxUsers) ?_ h (by simp)
  rintro members member _ ⟨hv,hl⟩ h
  obtain ⟨t,rfl,ht,_,hne⟩ := parseMember_ok h
  refine ⟨?_,by rw [List.length_append,List.length_singleton]; omega⟩
  intro m hm
  rcases List.mem_append.mp hm with hm | hm
  · exact hv m hm
  · exact (List.mem_singleton.mp hm) ▸ ht

private theorem parseGroup_valid {name gid members : Bytes} {group : GroupEntry}
    (h : parseGroup name gid members = .ok group) : group.Valid := by
  simp only [parseGroup,except_bind_eq_ok] at h
  obtain ⟨name,hn,gid,_,list,hm,h⟩ := h
  cases h
  exact ⟨(parseName_eq_ok.mp hn).2,(parseMembers_valid hm).1,(parseMembers_valid hm).2⟩

theorem addAccount_eq_ok {d d' : Database} {account : Account} :
    d.addAccount account = .ok d' ↔
      d.accounts.length ≠ maxUsers ∧
      (∀ a ∈ d.accounts, a.entry.name ≠ account.entry.name ∧ a.entry.uid ≠ account.entry.uid) ∧
      d' = { d with accounts := d.accounts ++ [account] } := by
  unfold Database.addAccount
  split
  · rename_i h
    simp only [Bool.or_eq_true,beq_iff_eq,List.any_eq_true] at h
    refine ⟨fun he => (by cases he),?_⟩
    rintro ⟨hl,hd,_⟩
    rcases h with h | ⟨a,ha,h | h⟩
    · exact absurd h hl
    · exact absurd h (hd a ha).1
    · exact absurd h (hd a ha).2
  · rename_i h
    simp only [Bool.or_eq_true,beq_iff_eq,List.any_eq_true,not_or,not_exists,not_and] at h
    refine ⟨fun he => ⟨h.1,h.2,by cases he; rfl⟩,?_⟩
    rintro ⟨_,_,rfl⟩
    rfl

theorem addGroup_eq_ok {d d' : Database} {group : GroupEntry} :
    d.addGroup group = .ok d' ↔
      d.groups.length ≠ maxGroups ∧
      (∀ g ∈ d.groups, g.name ≠ group.name ∧ g.gid ≠ group.gid) ∧
      d' = { d with groups := d.groups ++ [group] } := by
  unfold Database.addGroup
  split
  · rename_i h
    simp only [Bool.or_eq_true,beq_iff_eq,List.any_eq_true] at h
    refine ⟨fun he => (by cases he),?_⟩
    rintro ⟨hl,hd,_⟩
    rcases h with h | ⟨g,hg,h | h⟩
    · exact absurd h hl
    · exact absurd h (hd g hg).1
    · exact absurd h (hd g hg).2
  · rename_i h
    simp only [Bool.or_eq_true,beq_iff_eq,List.any_eq_true,not_or,not_exists,not_and] at h
    refine ⟨fun he => ⟨h.1,h.2,by cases he; rfl⟩,?_⟩
    rintro ⟨_,_,rfl⟩
    rfl

theorem Database.Storable.addAccount {d d' : Database} {account : Account} (hd : d.Storable)
    (ha : account.Valid) (h : d.addAccount account = .ok d') : d'.Storable := by
  obtain ⟨hl,hne,rfl⟩ := addAccount_eq_ok.mp h
  have := hd.accountLimit
  exact { hd with
    names := nodup_map_append _ hd.names fun a h => (hne a h).1
    uids := nodup_map_append _ hd.uids fun a h => (hne a h).2
    accounts := by simpa [or_imp,forall_and] using ⟨hd.accounts,ha⟩
    accountLimit := by simp only [List.length_append,List.length_singleton]; omega }

theorem Database.Storable.addGroup {d d' : Database} {group : GroupEntry} (hd : d.Storable)
    (hg : group.Valid) (h : d.addGroup group = .ok d') : d'.Storable := by
  obtain ⟨hl,hne,rfl⟩ := addGroup_eq_ok.mp h
  have := hd.groupLimit
  exact { hd with
    groupNames := nodup_map_append _ hd.groupNames fun g h => (hne g h).1
    gids := nodup_map_append _ hd.gids fun g h => (hne g h).2
    groups := by simpa [or_imp,forall_and] using ⟨hd.groups,hg⟩
    groupLimit := by simp only [List.length_append,List.length_singleton]; omega }

private theorem addRecord_storable {d d' : Database} {fields : List Bytes} (hd : d.Storable)
    (h : d.addRecord fields = .ok d') : d'.Storable := by
  unfold Database.addRecord at h
  split at h
  · split at h
    · obtain ⟨account,ha,h⟩ := except_bind_eq_ok.mp h
      exact hd.addAccount (parseAccount_valid ha) h
    · cases h
  · split at h
    · obtain ⟨group,hg,h⟩ := except_bind_eq_ok.mp h
      exact hd.addGroup (parseGroup_valid hg) h
    · cases h
  · cases h

private theorem addLine_storable {d d' : Database} {line : Bytes} (hd : d.Storable)
    (h : d.addLine line = .ok d') : d'.Storable := by
  unfold Database.addLine at h
  split at h
  · cases h; exact hd
  split at h
  · cases h
  obtain ⟨fields,_,h⟩ := except_bind_eq_ok.mp h
  exact addRecord_storable hd h

private theorem empty_storable : (Database.mk [] []).Storable := by
  constructor <;> simp

/-- Every loaded database satisfies what loading alone can promise. -/
theorem parse_storable {bytes : Bytes} {d : Database} (h : Database.parse bytes = .ok d) :
    d.Storable := by
  unfold Database.parse at h
  split at h
  · cases h
  split at h
  · cases h
  split at h
  · split at h
    · exact foldlM_preserves (fun _ _ _ hd h => addLine_storable hd h) h empty_storable
    · split at h <;> cases h
  · cases h

end UserDb.Norx
