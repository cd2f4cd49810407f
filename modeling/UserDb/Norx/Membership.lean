import UserDb.Norx.RoundTrip

/-! Who is a member of what after a call on a user. A rename without a list is the
one call that leaves a name alone which some group listed for no account. -/
namespace UserDb.Norx
open UserDb.Base UserDb.Base.Outcomes

/-- The account a call names by its uid. -/
def Database.accountOf (self : Database) (uid : UInt32) : Option Account :=
  self.accounts.find? (fun account => account.entry.uid == uid)

/-- What a call on a user asks of the groups: the account's name before and after, and
the supplementary groups where the call lists them. -/
structure MembershipRequest where
  oldName : Text
  newName : Text
  supplementary : Option (List Text)
  deriving DecidableEq

def Call.membershipRequest (d : Database) : Call → Option MembershipRequest
  | .createUser _ spec _ _ => some ⟨spec.name,spec.name,some spec.supplementaryGroups⟩
  | .createLockedUser _ spec => some ⟨spec.name,spec.name,some spec.supplementaryGroups⟩
  | .modifyUser _ targetUid update => (d.accountOf targetUid).map fun account =>
    ⟨account.entry.name,update.name.getD account.entry.name,update.supplementaryGroups⟩
  | _ => none

/-- A member list without the two names a request is about. -/
def MembershipRequest.others (request : MembershipRequest) (members : List Text) : List Text :=
  members.filter fun member => member != request.oldName && member != request.newName

/-- Whether the account is to be a member of the group afterwards. -/
def MembershipRequest.Grants (request : MembershipRequest) (group : GroupEntry) : Prop :=
  match request.supplementary with
  | some names => group.name ∈ names
  | none => request.oldName ∈ group.members

/-- The membership law for one group, as it stood and as it stands. -/
structure MembershipRequest.Lawful (request : MembershipRequest) (before after : GroupEntry) : Prop where
  name : after.name = before.name
  gid : after.gid = before.gid
  granted : request.newName ∈ after.members ↔ request.Grants before
  retired : request.oldName ≠ request.newName → request.oldName ∉ after.members
  others : request.others after.members = request.others before.members

/-- No group lists the new name of an account renamed without a list of groups, unless
it lists the old one too. -/
def MembershipRequest.Fresh (request : MembershipRequest) (d : Database) : Prop :=
  request.supplementary = none → ∀ group ∈ d.groups,
    request.newName ∈ group.members → request.oldName ∈ group.members

section Rewrites
variable {oldName newName : Text} {names : List Text} {group : GroupEntry}

private theorem newName_mem_renameMember :
    newName ∈ (renameMember oldName newName group).members ↔
      oldName ∈ group.members ∨ newName ∈ group.members := by
  simp only [renameMember,List.mem_map]
  constructor
  · rintro ⟨member,hm,he⟩
    by_cases ho : member = oldName
    · exact Or.inl (ho ▸ hm)
    · rw [if_neg (by simpa using ho)] at he
      exact Or.inr (he ▸ hm)
  · rintro (hm | hm)
    · exact ⟨oldName,hm,by simp⟩
    · refine ⟨newName,hm,?_⟩
      split <;> rfl

private theorem oldName_notMem_renameMember (h : oldName ≠ newName) :
    oldName ∉ (renameMember oldName newName group).members := by
  intro hm
  rcases mem_renameMember hm with ⟨he,_⟩ | ⟨_,hne⟩
  · exact h he
  · exact hne rfl

private theorem others_renameMember (request : MembershipRequest) :
    request.others (renameMember request.oldName request.newName group).members =
      request.others group.members := by
  simp only [MembershipRequest.others,renameMember]
  induction group.members with
  | nil => rfl
  | cons member members ih =>
    rw [List.map_cons,List.filter_cons,List.filter_cons,ih]
    by_cases ho : member = request.oldName
    · simp [ho]
    · simp [ho]

theorem others_withMembership (request : MembershipRequest) {user : Text}
    (h : user = request.oldName ∨ user = request.newName) :
    request.others (withMembership user names group).members = request.others group.members := by
  have hkept : request.others (group.members.filter fun member => member != user) =
      request.others group.members := by
    simp only [MembershipRequest.others,List.filter_filter]
    refine List.filter_congr fun member _ => ?_
    rcases h with rfl | rfl
    · cases member != request.oldName <;> simp
    · cases member != request.newName <;> simp
  have huser : request.others [user] = [] := by
    rcases h with rfl | rfl <;> simp [MembershipRequest.others]
  unfold withMembership
  split
  · have happend := List.filter_append (p := fun member =>
      member != request.oldName && member != request.newName)
      (group.members.filter fun member => member != user) [user]
    exact happend.trans (by
      change request.others _ ++ request.others [user] = _
      rw [hkept,huser,List.append_nil])
  · exact hkept

end Rewrites

/-- What regrouping does to each group, and when that is the membership law. -/
theorem regroup_lawful_iff {groups result : List GroupEntry} {request : MembershipRequest}
    (h : regroup groups request.oldName request.newName request.supplementary = .ok result) :
    List.Forall₂ request.Lawful groups result ↔
      (request.supplementary = none → ∀ group ∈ groups,
        request.newName ∈ group.members → request.oldName ∈ group.members) := by
  obtain ⟨oldName,newName,supplementary⟩ := request
  cases supplementary with
  | some names =>
    simp only [regroup,except_bind_eq_ok,setMembership_eq_ok] at h
    obtain ⟨_,⟨rfl,_⟩,rfl,_⟩ := h
    refine ⟨fun _ h => (by cases h),fun _ => ?_⟩
    rw [List.map_map,List.forall₂_map_right_iff,List.forall₂_same]
    refine fun group _ => ⟨rfl,rfl,?_,?_,?_⟩
    · simp [mem_withMembership,MembershipRequest.Grants]
    · intro hne hm
      simp [mem_withMembership,hne] at hm
    · exact (others_withMembership _ (Or.inr rfl)).trans (others_withMembership _ (Or.inl rfl))
  | none =>
    simp only [regroup,Except.ok.injEq] at h
    subst h
    have hlaw : ∀ group : GroupEntry,
        (MembershipRequest.mk oldName newName none).Lawful group
            (if oldName != newName then renameMember oldName newName group else group) ↔
          (newName ∈ group.members → oldName ∈ group.members) := by
      intro group
      by_cases hne : oldName = newName
      · subst hne
        simp only [bne_self_eq_false,Bool.false_eq_true,if_false,imp_self,iff_true]
        exact ⟨rfl,rfl,Iff.rfl,fun h => absurd rfl h,rfl⟩
      · rw [if_pos (by simpa using hne)]
        constructor
        · intro hl hm
          exact hl.granted.mp (newName_mem_renameMember.mpr (Or.inr hm))
        · intro himp
          refine ⟨rfl,rfl,?_,fun _ => oldName_notMem_renameMember hne,
            others_renameMember (MembershipRequest.mk oldName newName none)⟩
          rw [newName_mem_renameMember,or_iff_left_of_imp himp]
          rfl
    have hmap : (if oldName != newName then groups.map (renameMember oldName newName) else groups) =
        groups.map fun group => if oldName != newName then renameMember oldName newName group else group := by
      split <;> simp
    rw [hmap,List.forall₂_map_right_iff,List.forall₂_same]
    simp only [hlaw,forall_const]

/-- The groups a creation leaves are those of a request with the list it was given. -/
theorem Database.Created.lawful {d d' : Database} {spec : UserSpec} {encoded : Text} {uid : UInt32}
    (h : d.Created spec encoded uid d') :
    List.Forall₂ (MembershipRequest.mk spec.name spec.name (some spec.supplementaryGroups)).Lawful
      d.groups d'.groups := by
  obtain ⟨_,_,_,_,_,_,_,_,_,_,_,_,_,_,_,_,_,rfl⟩ := h
  rw [List.forall₂_map_right_iff,List.forall₂_same]
  refine fun group _ => ⟨rfl,rfl,?_,fun h => absurd rfl h,others_withMembership _ (Or.inl rfl)⟩
  simp [mem_withMembership,MembershipRequest.Grants]

private theorem modifyUser_regroup {actor : SessionCredentials} {targetUid : UInt32} {update : UserUpdate}
    {u : Unit} {d d' : Database} {account : Account} (ha : d.accountOf targetUid = some account)
    (h : Database.modifyUser actor targetUid update d = .ok u d') :
    regroup d.groups account.entry.name (update.name.getD account.entry.name)
      update.supplementaryGroups = .ok d'.groups := by
  simp only [Database.modifyUser,lift_bind_eq_ok,get_bind_eq_ok,refuse_bind_eq_ok,
    orRefuse_bind_eq_ok,set_eq_ok] at h
  obtain ⟨_,_,index,hi,current,hc,_,_,_,_,_,_,_,groups,hr,rfl⟩ := h
  have hfound : d.accountOf targetUid = some current := by
    rw [Database.accountOf,List.find?_eq_bind_findIdx?_getElem?,hi]
    exact hc
  cases ha.symm.trans hfound
  exact hr

/-- The membership law holds of a successful call on a user exactly when the new name of
an account renamed without a list stands in no group that the old one is missing from. -/
theorem user_call_memberships (c : Call) (d d' : Database) (request : MembershipRequest)
    (hr : c.membershipRequest d = some request) (h : c.run d = .ok () d') :
    List.Forall₂ request.Lawful d.groups d'.groups ↔ request.Fresh d := by
  cases c with
  | createUser actor spec password hasher =>
    obtain ⟨_,h⟩ := relabel_eq_ok.mp h
    obtain ⟨_,h⟩ := createUser_ok h
    cases hr
    exact ⟨fun _ hnone => (by cases hnone),fun _ => h.lawful⟩
  | createLockedUser actor spec =>
    obtain ⟨_,h⟩ := relabel_eq_ok.mp h
    cases hr
    exact ⟨fun _ hnone => (by cases hnone),fun _ => (createLockedUser_ok h).lawful⟩
  | modifyUser actor targetUid update =>
    obtain ⟨_,h⟩ := relabel_eq_ok.mp h
    obtain ⟨account,ha,rfl⟩ := Option.map_eq_some_iff.mp hr
    exact @regroup_lawful_iff _ _ ⟨_,_,_⟩ (modifyUser_regroup ha h)
  | _ => cases hr

def aliceName : Text := ⟨ascii "alice",by decide⟩

def bobName : Text := ⟨ascii "bob",bob_utf8⟩

/-- A loaded file whose one group lists a name that no account has, once alice exists. -/
def strayDatabase : Database :=
  ⟨[⟨⟨aliceName,1000,1000,flagLocked,0,⟨ascii "/users/alice",by decide⟩,⟨ascii "/bin/nsh",nsh_utf8⟩⟩,
      lockedPasswordHash⟩],[{ usersGroup with members := [bobName] }]⟩

private theorem strayDatabase_reachable : Reachable strayDatabase := by
  have hparsed : Reachable ⟨[],[{ usersGroup with members := [bobName] }]⟩ :=
    .parsed (show Database.parse (ascii "NORX-USERDB 1\ng:users:1000:bob\n") = .ok _ from rfl)
  exact .called (c := .createLockedUser rootSession
    ⟨aliceName,none,some 1000,[],some ⟨ascii "/users/alice",by decide⟩,
      some ⟨ascii "/bin/nsh",by decide⟩,0,0⟩) hparsed rfl

theorem user_call_memberships_rename :
    List.Forall₂ (MembershipRequest.mk aliceName hyphen none).Lawful strayDatabase.groups
      strayDatabase.groups :=
  (user_call_memberships (.modifyUser rootSession 1000 { name := some hyphen }) strayDatabase
    ⟨[⟨⟨hyphen,1000,1000,flagLocked,0,⟨ascii "/users/alice",by decide⟩,⟨ascii "/bin/nsh",by decide⟩⟩,
      lockedPasswordHash⟩],strayDatabase.groups⟩ _ rfl rfl).mpr
    fun _ => show ∀ group ∈ strayDatabase.groups, hyphen ∈ group.members → aliceName ∈ group.members by
      decide

/-- A renamed account takes over a membership listed under its new name. -/
theorem rename_takes_stray_membership : ¬ ∀ d, Reachable d → ∀ (c : Call) (d' : Database)
    (request : MembershipRequest), c.membershipRequest d = some request →
    c.run d = .ok () d' → List.Forall₂ request.Lawful d.groups d'.groups := by
  intro h
  have hlaw := h strayDatabase strayDatabase_reachable
    (.modifyUser rootSession 1000 { name := some bobName })
    ⟨[⟨⟨bobName,1000,1000,flagLocked,0,⟨ascii "/users/alice",by decide⟩,⟨ascii "/bin/nsh",by decide⟩⟩,
      lockedPasswordHash⟩],strayDatabase.groups⟩ ⟨aliceName,bobName,none⟩ rfl rfl
  obtain ⟨hl,_⟩ := List.forall₂_cons.mp hlaw
  have hmember : aliceName ∈ [bobName] := hl.granted.mp List.mem_cons_self
  exact absurd hmember (by decide)

end UserDb.Norx
