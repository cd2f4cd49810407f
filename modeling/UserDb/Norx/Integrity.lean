import UserDb.Norx.AdminSteps

/-! The integrity invariant of the account store. `Storable` is what loading alone
guarantees; `WellFormed` adds the references between accounts and groups. -/
namespace UserDb.Norx
open UserDb.Base UserDb.Base.Outcomes

structure Account.Valid (account : Account) : Prop where
  name : account.entry.name.ValidName
  flags : ValidFlags account.entry.flags
  capabilities : ValidCapabilities account.entry.capabilities
  home : account.entry.home.ValidPath
  shell : account.entry.shell.ValidPath
  hash : account.passwordHash.ValidHash

structure GroupEntry.Valid (group : GroupEntry) : Prop where
  name : group.name.ValidName
  members : ∀ member ∈ group.members, member.ValidName
  length : group.members.length ≤ maxUsers

structure Database.Storable (d : Database) : Prop where
  names : (d.accounts.map (·.entry.name)).Nodup
  uids : (d.accounts.map (·.entry.uid)).Nodup
  groupNames : (d.groups.map (·.name)).Nodup
  gids : (d.groups.map (·.gid)).Nodup
  accounts : ∀ account ∈ d.accounts, account.Valid
  groups : ∀ group ∈ d.groups, group.Valid
  accountLimit : d.accounts.length ≤ maxUsers
  groupLimit : d.groups.length ≤ maxGroups

structure Database.WellFormed (d : Database) : Prop extends d.Storable where
  primary : ∀ account ∈ d.accounts, ∃ group ∈ d.groups, group.gid = account.entry.gid
  members : ∀ group ∈ d.groups, ∀ member ∈ group.members,
    ∃ account ∈ d.accounts, account.entry.name = member
  membersOnce : ∀ group ∈ d.groups, group.members.Nodup

/-! Replacing one element of a list. -/
section Replace
variable {α β : Type} {l : List α} {i : Nat} {a b : α}

theorem mem_set_cases (h : l[i]? = some a) {x : α} (hx : x ∈ l.set i b) :
    x = b ∨ x ∈ l.eraseIdx i := by
  obtain ⟨hlt,_⟩ := List.getElem?_eq_some_iff.mp h
  exact List.mem_cons.mp ((List.set_perm_cons_eraseIdx hlt b).mem_iff.mp hx)

theorem mem_eraseIdx_or_eq (h : l[i]? = some a) {x : α} (hx : x ∈ l) :
    x = a ∨ x ∈ l.eraseIdx i := by
  obtain ⟨hlt,rfl⟩ := List.getElem?_eq_some_iff.mp h
  exact List.mem_cons.mp ((List.getElem_cons_eraseIdx_perm hlt).mem_iff.mpr hx)

theorem mem_set_of_eraseIdx (h : l[i]? = some a) {x : α} (hx : x = b ∨ x ∈ l.eraseIdx i) :
    x ∈ l.set i b := by
  obtain ⟨hlt,_⟩ := List.getElem?_eq_some_iff.mp h
  exact (List.set_perm_cons_eraseIdx hlt b).mem_iff.mpr (List.mem_cons.mpr hx)

/-- Keys stay distinct when the replacement's key is not one of the others. -/
theorem nodup_map_set (f : α → β) (h : l[i]? = some a) (hl : (l.map f).Nodup)
    (hb : ∀ x ∈ l.eraseIdx i, f x ≠ f b) : ((l.set i b).map f).Nodup := by
  obtain ⟨hlt,rfl⟩ := List.getElem?_eq_some_iff.mp h
  rw [((List.set_perm_cons_eraseIdx hlt b).map f).nodup_iff,List.map_cons,List.nodup_cons]
  have hperm := ((List.getElem_cons_eraseIdx_perm hlt).map f).nodup_iff.mpr hl
  refine ⟨?_,(List.nodup_cons.mp hperm).2⟩
  rintro hm
  obtain ⟨x,hx,he⟩ := List.mem_map.mp hm
  exact hb x hx he

theorem map_set_of_eq (f : α → β) (h : l[i]? = some a) (he : f b = f a) :
    (l.set i b).map f = l.map f := by
  obtain ⟨hlt,rfl⟩ := List.getElem?_eq_some_iff.mp h
  rw [List.map_set,he]
  exact List.ext_getElem (by simp) fun n h₁ h₂ => by
    rw [List.getElem_set]; split <;> simp_all

theorem nodup_map_append (f : α → β) (hl : (l.map f).Nodup) (hb : ∀ x ∈ l, f x ≠ f b) :
    ((l ++ [b]).map f).Nodup := by
  rw [List.map_append,List.nodup_append]
  refine ⟨hl,by simp,?_⟩
  intro k hk y hy he
  obtain ⟨x,hx,rfl⟩ := List.mem_map.mp hk
  rw [List.map_singleton,List.mem_singleton] at hy
  exact hb x hx (he.trans hy)

end Replace

/-! Membership rewrites. -/

@[simp] theorem withMembership_name (user : Text) (s : List Text) (g : GroupEntry) :
    (withMembership user s g).name = g.name := rfl

@[simp] theorem withMembership_gid (user : Text) (s : List Text) (g : GroupEntry) :
    (withMembership user s g).gid = g.gid := rfl

theorem mem_withMembership {user m : Text} {s : List Text} {g : GroupEntry} :
    m ∈ (withMembership user s g).members ↔
      m ∈ g.members ∧ m ≠ user ∨ m = user ∧ g.name ∈ s := by
  simp only [withMembership]
  split
  · rename_i h
    have h : g.name ∈ s := by simpa using h
    simp [h]
  · rename_i h
    have h : g.name ∉ s := by simpa using h
    simp [h]

theorem withMembership_nodup {user : Text} {s : List Text} {g : GroupEntry} (h : g.members.Nodup) :
    (withMembership user s g).members.Nodup := by
  have hk : (g.members.filter fun m => m != user).Nodup := h.filter _
  simp only [withMembership]
  split
  · rw [List.nodup_append]
    refine ⟨hk,by simp,?_⟩
    rintro x hx _ hy rfl
    rw [List.mem_singleton.mp hy] at hx
    simp at hx
  · exact hk

/-- A rewritten list stays within the limit: either the user was there before, or the
list was not full. -/
theorem withMembership_length {user : Text} {s : List Text} {g : GroupEntry}
    (h : g.members.length ≤ maxUsers)
    (hfull : g.name ∈ s → user ∉ g.members → g.members.length ≠ maxUsers) :
    (withMembership user s g).members.length ≤ maxUsers := by
  have hk := List.length_filter_le (fun m => m != user) g.members
  simp only [withMembership]
  split
  · rename_i hs
    have hs : g.name ∈ s := by simpa using hs
    rw [List.length_append,List.length_singleton]
    by_cases hu : user ∈ g.members
    · have : (g.members.filter fun m => m != user).length < g.members.length :=
        List.length_filter_lt_length_iff_exists.mpr ⟨user,hu,by simp⟩
      omega
    · have := hfull hs hu
      omega
  · omega

theorem withMembership_valid {user : Text} {s : List Text} {g : GroupEntry} (hu : user.ValidName)
    (h : g.Valid) (hfull : g.name ∈ s → user ∉ g.members → g.members.length ≠ maxUsers) :
    (withMembership user s g).Valid where
  name := h.name
  members m hm := by
    rcases mem_withMembership.mp hm with ⟨hm,_⟩ | ⟨rfl,_⟩
    · exact h.members m hm
    · exact hu
  length := withMembership_length h.length hfull

theorem mem_renameMember {o n m : Text} {g : GroupEntry} (h : m ∈ (renameMember o n g).members) :
    m = n ∧ o ∈ g.members ∨ m ∈ g.members ∧ m ≠ o := by
  obtain ⟨x,hx,he⟩ := List.mem_map.mp h
  by_cases hxo : x = o
  · subst hxo
    simp only [beq_self_eq_true,ite_true] at he
    exact Or.inl ⟨he.symm,hx⟩
  · rw [if_neg (by simpa using hxo)] at he
    subst he
    exact Or.inr ⟨hx,hxo⟩

private theorem renameMember_valid {o n : Text} {g : GroupEntry} (hn : n.ValidName) (h : g.Valid) :
    (renameMember o n g).Valid where
  name := h.name
  members m hm := by
    rcases mem_renameMember hm with ⟨rfl,_⟩ | ⟨hm,_⟩
    · exact hn
    · exact h.members m hm
  length := by simpa [renameMember] using h.length

private theorem renameMember_nodup {o n : Text} {g : GroupEntry} (hn : n ∉ g.members)
    (h : g.members.Nodup) : (renameMember o n g).members.Nodup := by
  refine h.map_on fun x hx y hy he => ?_
  by_cases hxo : x = o <;> by_cases hyo : y = o
  · rw [hxo,hyo]
  · simp only [hxo,beq_self_eq_true,ite_true,beq_iff_eq,hyo,ite_false] at he
    exact absurd (he ▸ hy) hn
  · simp only [hyo,beq_self_eq_true,ite_true,beq_iff_eq,hxo,ite_false] at he
    exact absurd (he ▸ hx) hn
  · simpa [hxo,hyo] using he

/-- Regrouping maps every group, keeping its name and gid, and keeps the groups valid. -/
theorem regroup_ok {groups result : List GroupEntry} {oldName newName : Text}
    {supplementary : Option (List Text)} (ho : oldName.ValidName) (hn : newName.ValidName)
    (hv : ∀ group ∈ groups, group.Valid)
    (h : regroup groups oldName newName supplementary = .ok result) :
    ∃ f : GroupEntry → GroupEntry, result = groups.map f ∧
      (∀ g, (f g).name = g.name ∧ (f g).gid = g.gid) ∧ (∀ g ∈ groups, (f g).Valid) ∧
      (∀ g, ∀ m ∈ (f g).members, m = newName ∨ m ∈ g.members ∧ m ≠ oldName) ∧
      (∀ g, g.members.Nodup → (newName = oldName ∨ newName ∉ g.members) → (f g).members.Nodup) := by
  cases supplementary with
  | some s =>
    simp only [regroup,except_bind_eq_ok,setMembership_eq_ok] at h
    obtain ⟨_,⟨rfl,hfull⟩,rfl,hfull'⟩ := h
    refine ⟨fun g => withMembership newName s (withMembership oldName [] g),by simp,
      fun g => ⟨rfl,rfl⟩,?_,?_,fun g hg _ => withMembership_nodup (withMembership_nodup hg)⟩
    · intro g hg
      exact withMembership_valid hn (withMembership_valid ho (hv g hg) (by simp))
        (hfull' _ (List.mem_map_of_mem hg))
    · intro g m hm
      rcases mem_withMembership.mp hm with ⟨hm,_⟩ | ⟨rfl,_⟩
      · rcases mem_withMembership.mp hm with hm | ⟨_,hm⟩
        · exact Or.inr hm
        · cases hm
      · exact Or.inl rfl
  | none =>
    simp only [regroup,Except.ok.injEq] at h
    by_cases he : oldName = newName
    · subst he
      rw [if_neg (by simp)] at h
      refine ⟨id,by simp [← h],fun g => ⟨rfl,rfl⟩,hv,fun g m hm => ?_,fun g hg _ => hg⟩
      by_cases hm' : m = oldName
      · exact Or.inl hm'
      · exact Or.inr ⟨hm,hm'⟩
    · rw [if_pos (by simpa using he)] at h
      refine ⟨renameMember oldName newName,h.symm,fun g => ⟨rfl,rfl⟩,
        fun g hg => renameMember_valid hn (hv g hg),fun g m hm => ?_,fun g hg hn => ?_⟩
      · exact (mem_renameMember hm).imp_left And.left
      · exact renameMember_nodup (hn.resolve_left fun h => he h.symm) hg

/-! Preservation, one call at a time. -/
section Preservation
variable {actor : SessionCredentials} {d d' : Database}

theorem createGroup_storable {name : Text} {gid : Option UInt32} {members : List Text} {g : UInt32}
    (h : Database.createGroup actor name gid members d = .ok g d') (hd : d.Storable) :
    d'.Storable := by
  obtain ⟨_,hn,hfresh,hm,hg,hl,rfl⟩ := createGroup_ok h
  refine { hd with
    groupNames := nodup_map_append _ hd.groupNames hfresh
    gids := nodup_map_append _ hd.gids hg
    groups := ?_, groupLimit := ?_ }
  · intro group hgroup
    rcases List.mem_append.mp hgroup with hgroup | hgroup
    · exact hd.groups group hgroup
    · rw [List.mem_singleton.mp hgroup]
      exact ⟨hn,fun m hmem => (hm.2.1 m hmem).1,hm.1⟩
  · have := hd.groupLimit
    simp only [List.length_append,List.length_singleton]
    omega

theorem createGroup_wellFormed {name : Text} {gid : Option UInt32} {members : List Text}
    {g : UInt32} (h : Database.createGroup actor name gid members d = .ok g d')
    (hd : d.WellFormed) : d'.WellFormed := by
  have hs := createGroup_storable h hd.toStorable
  obtain ⟨_,hn,hfresh,hm,hg,hl,rfl⟩ := createGroup_ok h
  refine { hs with primary := ?_, members := ?_, membersOnce := ?_ }
  · intro account ha
    obtain ⟨group,hgroup,he⟩ := hd.primary account ha
    exact ⟨group,List.mem_append_left _ hgroup,he⟩
  · intro group hgroup
    rcases List.mem_append.mp hgroup with hgroup | hgroup
    · exact hd.members group hgroup
    · rw [List.mem_singleton.mp hgroup]
      exact fun m hmem => (hm.2.1 m hmem).2
  · intro group hgroup
    rcases List.mem_append.mp hgroup with hgroup | hgroup
    · exact hd.membersOnce group hgroup
    · rw [List.mem_singleton.mp hgroup]
      exact hm.2.2

theorem modifyGroup_storable {gid : UInt32} {update : GroupUpdate} {u : Unit}
    (h : Database.modifyGroup actor gid update d = .ok u d') (hd : d.Storable) : d'.Storable := by
  obtain ⟨index,current,hc,hn,hfresh,hm,rfl⟩ := modifyGroup_ok h
  refine { hd with
    groupNames := nodup_map_set _ hc hd.groupNames hfresh
    gids := (map_set_of_eq (·.gid) hc (show (update.applyTo current).gid = current.gid from rfl)).symm ▸ hd.gids
    groups := ?_, groupLimit := by simpa using hd.groupLimit }
  intro group hgroup
  rcases mem_set_cases hc hgroup with rfl | hgroup
  · exact ⟨hn,fun m hmem => (hm.2.1 m hmem).1,hm.1⟩
  · exact hd.groups group (List.mem_of_mem_eraseIdx hgroup)

theorem modifyGroup_wellFormed {gid : UInt32} {update : GroupUpdate} {u : Unit}
    (h : Database.modifyGroup actor gid update d = .ok u d') (hd : d.WellFormed) :
    d'.WellFormed := by
  have hs := modifyGroup_storable h hd.toStorable
  obtain ⟨index,current,hc,hn,hfresh,hm,rfl⟩ := modifyGroup_ok h
  refine { hs with primary := ?_, members := ?_, membersOnce := ?_ }
  · intro account ha
    obtain ⟨group,hgroup,he⟩ := hd.primary account ha
    rcases mem_eraseIdx_or_eq hc hgroup with rfl | hgroup
    · exact ⟨_,mem_set_of_eraseIdx hc (Or.inl rfl),he⟩
    · exact ⟨group,mem_set_of_eraseIdx hc (Or.inr hgroup),he⟩
  · intro group hgroup
    rcases mem_set_cases hc hgroup with rfl | hgroup
    · exact fun m hmem => (hm.2.1 m hmem).2
    · exact hd.members group (List.mem_of_mem_eraseIdx hgroup)
  · intro group hgroup
    rcases mem_set_cases hc hgroup with rfl | hgroup
    · exact hm.2.2
    · exact hd.membersOnce group (List.mem_of_mem_eraseIdx hgroup)

theorem deleteGroup_storable {gid : UInt32} {u : Unit}
    (h : Database.deleteGroup actor gid d = .ok u d') (hd : d.Storable) : d'.Storable := by
  obtain ⟨index,current,hc,_,_,_,rfl⟩ := deleteGroup_ok h
  have hsub := List.eraseIdx_sublist d.groups index
  exact { hd with
    groupNames := hd.groupNames.sublist (hsub.map _)
    gids := hd.gids.sublist (hsub.map _)
    groups := fun group hg => hd.groups group (List.mem_of_mem_eraseIdx hg)
    groupLimit := hsub.length_le.trans hd.groupLimit }

/-- No account refers to the deleted group, so every reference survives. -/
theorem deleteGroup_wellFormed {gid : UInt32} {u : Unit}
    (h : Database.deleteGroup actor gid d = .ok u d') (hd : d.WellFormed) : d'.WellFormed := by
  have hs := deleteGroup_storable h hd.toStorable
  obtain ⟨index,current,hc,hgid,hfree,_,rfl⟩ := deleteGroup_ok h
  refine { hs with
    primary := ?_
    members := fun group hg => hd.members group (List.mem_of_mem_eraseIdx hg)
    membersOnce := fun group hg => hd.membersOnce group (List.mem_of_mem_eraseIdx hg) }
  intro account ha
  obtain ⟨group,hgroup,he⟩ := hd.primary account ha
  rcases mem_eraseIdx_or_eq hc hgroup with rfl | hgroup
  · exact absurd (he.symm.trans hgid) (hfree account ha)
  · exact ⟨group,hgroup,he⟩

theorem Database.Created.storable {spec : UserSpec} {encoded : Text} {uid : UInt32}
    (h : d.Created spec encoded uid d') (hd : d.Storable) : d'.Storable := by
  obtain ⟨gid,home,shell,_,_,_,hl,hn,hf,hc,hhome,hshell,hhash,hfresh,huid,_,hfull,rfl⟩ := h
  refine {
    names := nodup_map_append _ hd.names hfresh
    uids := nodup_map_append _ hd.uids huid
    groupNames := by simpa [Function.comp_def] using hd.groupNames
    gids := by simpa [Function.comp_def] using hd.gids
    accounts := ?_, groups := ?_, accountLimit := ?_
    groupLimit := by simpa using hd.groupLimit }
  · intro account ha
    rcases List.mem_append.mp ha with ha | ha
    · exact hd.accounts account ha
    · rw [List.mem_singleton.mp ha]
      exact ⟨hn,hf,hc,hhome,hshell,hhash⟩
  · intro group hgroup
    obtain ⟨g,hg,rfl⟩ := List.mem_map.mp hgroup
    exact withMembership_valid hn (hd.groups g hg) (hfull g hg)
  · have := hd.accountLimit
    simp only [List.length_append,List.length_singleton]
    omega

theorem Database.Created.wellFormed {spec : UserSpec} {encoded : Text} {uid : UInt32}
    (h : d.Created spec encoded uid d') (hd : d.WellFormed) : d'.WellFormed := by
  have hs := h.storable hd.toStorable
  obtain ⟨gid,home,shell,_,_,_,hl,hn,hf,hc,hhome,hshell,hhash,hfresh,huid,hgid,hfull,rfl⟩ := h
  refine { hs with primary := ?_, members := ?_, membersOnce := ?_ }
  · intro account ha
    have hex : ∃ group ∈ d.groups, group.gid = account.entry.gid := by
      rcases List.mem_append.mp ha with ha | ha
      · exact hd.primary account ha
      · rw [List.mem_singleton.mp ha]
        exact hgid
    obtain ⟨group,hgroup,he⟩ := hex
    exact ⟨_,List.mem_map_of_mem hgroup,he⟩
  · intro group hgroup m hm
    obtain ⟨g,hg,rfl⟩ := List.mem_map.mp hgroup
    rcases mem_withMembership.mp hm with ⟨hm,_⟩ | ⟨rfl,_⟩
    · obtain ⟨account,ha,he⟩ := hd.members g hg m hm
      exact ⟨account,List.mem_append_left _ ha,he⟩
    · exact ⟨_,List.mem_append_right _ List.mem_cons_self,rfl⟩
  · intro group hgroup
    obtain ⟨g,hg,rfl⟩ := List.mem_map.mp hgroup
    exact withMembership_nodup (hd.membersOnce g hg)

theorem modifyUser_storable {targetUid : UInt32} {update : UserUpdate} {u : Unit}
    (h : Database.modifyUser actor targetUid update d = .ok u d') (hd : d.Storable) :
    d'.Storable := by
  obtain ⟨index,account,groups,hc,hn,hf,hcap,hhome,hshell,hfresh,_,hr,rfl⟩ := modifyUser_ok h
  have hold := hd.accounts account (List.mem_of_getElem? hc)
  obtain ⟨f,rfl,hkeep,hvalid,_,_⟩ := regroup_ok hold.name hn hd.groups hr
  refine {
    names := nodup_map_set _ hc hd.names hfresh
    uids := by
      rw [map_set_of_eq (·.entry.uid) hc (show (Account.mk (update.applyTo account.entry) account.passwordHash).entry.uid =
        account.entry.uid from rfl)]
      exact hd.uids
    groupNames := by simpa [Function.comp_def,hkeep] using hd.groupNames
    gids := by simpa [Function.comp_def,hkeep] using hd.gids
    accounts := ?_, groups := ?_
    accountLimit := by simpa using hd.accountLimit
    groupLimit := by simpa using hd.groupLimit }
  · intro x hx
    rcases mem_set_cases hc hx with rfl | hx
    · exact ⟨hn,hf,hcap,hhome,hshell,hold.hash⟩
    · exact hd.accounts x (List.mem_of_mem_eraseIdx hx)
  · intro group hgroup
    obtain ⟨g,hg,rfl⟩ := List.mem_map.mp hgroup
    exact hvalid g hg

/-- A renamed account keeps its memberships: its new name was nobody's, so no member
list held it, and every other member is an account that is still there. -/
theorem modifyUser_wellFormed {targetUid : UInt32} {update : UserUpdate} {u : Unit}
    (h : Database.modifyUser actor targetUid update d = .ok u d') (hd : d.WellFormed) :
    d'.WellFormed := by
  have hs := modifyUser_storable h hd.toStorable
  obtain ⟨index,account,groups,hc,hn,_,_,_,_,hfresh,hgid,hr,rfl⟩ := modifyUser_ok h
  have hold := hd.accounts account (List.mem_of_getElem? hc)
  obtain ⟨f,rfl,hkeep,_,hmem,honce⟩ := regroup_ok hold.name hn hd.groups hr
  refine { hs with primary := ?_, members := ?_, membersOnce := ?_ }
  · intro x hx
    have hex : ∃ group ∈ d.groups, group.gid = x.entry.gid := by
      rcases mem_set_cases hc hx with rfl | hx
      · cases hp : update.primaryGid with
        | none => simpa [UserUpdate.applyTo,hp] using hd.primary account (List.mem_of_getElem? hc)
        | some gid => simpa [UserUpdate.applyTo,hp] using hgid gid hp
      · exact hd.primary x (List.mem_of_mem_eraseIdx hx)
    obtain ⟨group,hgroup,he⟩ := hex
    exact ⟨f group,List.mem_map_of_mem hgroup,(hkeep group).2.trans he⟩
  · intro group hgroup m hm
    obtain ⟨g,hg,rfl⟩ := List.mem_map.mp hgroup
    rcases hmem g m hm with rfl | ⟨hm,hne⟩
    · exact ⟨_,mem_set_of_eraseIdx hc (Or.inl rfl),rfl⟩
    · obtain ⟨x,hx,rfl⟩ := hd.members g hg m hm
      have hx := (mem_eraseIdx_or_eq hc hx).resolve_left fun he => hne (by rw [he])
      exact ⟨x,mem_set_of_eraseIdx hc (Or.inr hx),rfl⟩
  · intro group hgroup
    obtain ⟨g,hg,rfl⟩ := List.mem_map.mp hgroup
    refine honce g (hd.membersOnce g hg) (or_iff_not_imp_left.mpr fun hne hin => ?_)
    obtain ⟨x,hx,he⟩ := hd.members g hg _ hin
    have hx := (mem_eraseIdx_or_eq hc hx).resolve_left fun hxa => hne (by rw [← he,hxa])
    exact hfresh x hx he

theorem deleteUser_storable {targetUid : UInt32} {u : Unit}
    (h : Database.deleteUser actor targetUid d = .ok u d') (hd : d.Storable) : d'.Storable := by
  obtain ⟨index,account,hc,rfl⟩ := deleteUser_ok h
  have hsub := List.eraseIdx_sublist d.accounts index
  refine {
    names := hd.names.sublist (hsub.map _)
    uids := hd.uids.sublist (hsub.map _)
    groupNames := by simpa [Function.comp_def] using hd.groupNames
    gids := by simpa [Function.comp_def] using hd.gids
    accounts := fun x hx => hd.accounts x (List.mem_of_mem_eraseIdx hx)
    groups := ?_
    accountLimit := hsub.length_le.trans hd.accountLimit
    groupLimit := by simpa using hd.groupLimit }
  intro group hgroup
  obtain ⟨g,hg,rfl⟩ := List.mem_map.mp hgroup
  have hv := hd.groups g hg
  exact ⟨hv.name,fun m hm => hv.members m (List.mem_of_mem_filter hm),
    (List.length_filter_le _ _).trans hv.length⟩

theorem deleteUser_wellFormed {targetUid : UInt32} {u : Unit}
    (h : Database.deleteUser actor targetUid d = .ok u d') (hd : d.WellFormed) :
    d'.WellFormed := by
  have hs := deleteUser_storable h hd.toStorable
  obtain ⟨index,account,hc,rfl⟩ := deleteUser_ok h
  refine { hs with primary := ?_, members := ?_, membersOnce := ?_ }
  · intro x hx
    obtain ⟨group,hgroup,he⟩ := hd.primary x (List.mem_of_mem_eraseIdx hx)
    exact ⟨_,List.mem_map_of_mem hgroup,he⟩
  · intro group hgroup m hm
    obtain ⟨g,hg,rfl⟩ := List.mem_map.mp hgroup
    obtain ⟨hm,hne⟩ := List.mem_filter.mp hm
    obtain ⟨x,hx,rfl⟩ := hd.members g hg m hm
    have hx := (mem_eraseIdx_or_eq hc hx).resolve_left fun he => by simp [he] at hne
    exact ⟨x,hx,rfl⟩
  · intro group hgroup
    obtain ⟨g,hg,rfl⟩ := List.mem_map.mp hgroup
    exact (hd.membersOnce g hg).filter _

/-- Replacing an account by one with the same name, uid and primary group keeps both
invariants as long as the replacement is valid itself. -/
theorem Database.Storable.replace {index : Nat} {account x : Account} (hd : d.Storable)
    (hc : d.accounts[index]? = some account) (hname : x.entry.name = account.entry.name)
    (huid : x.entry.uid = account.entry.uid) (hx : x.Valid) :
    ({ d with accounts := d.accounts.set index x } : Database).Storable := by
  refine { hd with
    names := by rw [map_set_of_eq (·.entry.name) hc hname]; exact hd.names
    uids := by rw [map_set_of_eq (·.entry.uid) hc huid]; exact hd.uids
    accounts := ?_
    accountLimit := by simpa using hd.accountLimit }
  intro y hy
  rcases mem_set_cases hc hy with rfl | hy
  · exact hx
  · exact hd.accounts y (List.mem_of_mem_eraseIdx hy)

theorem Database.WellFormed.replace {index : Nat} {account x : Account} (hd : d.WellFormed)
    (hc : d.accounts[index]? = some account) (hname : x.entry.name = account.entry.name)
    (huid : x.entry.uid = account.entry.uid) (hgid : x.entry.gid = account.entry.gid)
    (hx : x.Valid) : ({ d with accounts := d.accounts.set index x } : Database).WellFormed := by
  refine { hd.toStorable.replace hc hname huid hx with
    primary := ?_, members := ?_, membersOnce := hd.membersOnce }
  · intro y hy
    rcases mem_set_cases hc hy with rfl | hy
    · rw [hgid]
      exact hd.primary account (List.mem_of_getElem? hc)
    · exact hd.primary y (List.mem_of_mem_eraseIdx hy)
  · intro group hgroup m hm
    obtain ⟨y,hy,he⟩ := hd.members group hgroup m hm
    rcases mem_eraseIdx_or_eq hc hy with rfl | hy
    · exact ⟨x,mem_set_of_eraseIdx hc (Or.inl rfl),hname.trans he⟩
    · exact ⟨y,mem_set_of_eraseIdx hc (Or.inr hy),he⟩

theorem Account.Valid.withHash {account : Account} {encoded : Text} (h : account.Valid)
    (he : encoded.ValidHash) : ({ account with passwordHash := encoded } : Account).Valid :=
  { h with hash := he }

private theorem or_and_eq_zero {a b c : UInt32} (ha : a &&& c = 0) (hb : b &&& c = 0) :
    (a ||| b) &&& c = 0 := by
  have ha := congrArg UInt32.toBitVec ha
  have hb := congrArg UInt32.toBitVec hb
  apply UInt32.toBitVec_inj.mp
  simp only [UInt32.toBitVec_and,UInt32.toBitVec_or] at *
  rw [BitVec.and_or_distrib_right,ha,hb]
  rfl

/-- The lock flag is a known flag, so setting or clearing it leaves only known flags. -/
theorem Account.Valid.withLock {account : Account} (h : account.Valid) (locked : Bool) :
    (account.withLock locked).Valid := by
  refine { h with flags := ?_ }
  have hf := h.flags
  unfold ValidFlags at hf ⊢
  have hk : flagLocked &&& ~~~knownFlags = 0 := by decide
  cases locked
  · change (account.entry.flags &&& ~~~flagLocked) &&& ~~~knownFlags = 0
    rw [UInt32.and_assoc,UInt32.and_comm (~~~flagLocked),← UInt32.and_assoc,hf,UInt32.zero_and]
  · change (account.entry.flags ||| flagLocked) &&& ~~~knownFlags = 0
    exact or_and_eq_zero hf hk

end Preservation
end UserDb.Norx
