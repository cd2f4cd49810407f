import UserDb.Homes.CopyTreeSpec

/-! The table of links along a run, and the copy that the run leaves. -/
namespace UserDb.Homes
open UserDb.Base

/-- What holds when the names `done` of files are copied: their copies are there, one for each
file, and the table knows those that may have more names. -/
structure Progress (call : CopyCall) (info : FileId → FileInfo) (done : List (List Name × FileId)) (s : CopyState) : Prop where
  placed : ∀ q id, (q,id) ∈ done → ∃ i < s.fresh, s.dst q = some (.file i) ∧ CopyOf call (info id) (s.inodes i)
  shared : ∀ q id q' id', (q,id) ∈ done → (q',id') ∈ done → (s.dst q = s.dst q' ↔ id = id')
  named : ∀ l ∈ s.links, (l.name,l.id) ∈ done
  known : ∀ q id, (q,id) ∈ done → (info id).nlink ≠ 1 → ∃ l ∈ s.links, l.id = id
  counted : ∀ l ∈ s.links, (info l.id).nlink + 1 ≤ l.count + (done.map Prod.snd).count l.id

/-- What a part of the run does to the rest of the destination: nothing. -/
structure Elsewhere (inside : List Name → Prop) (s s' : CopyState) : Prop where
  dst : ∀ p, ¬ inside p → s'.dst p = s.dst p
  fresh : s.fresh ≤ s'.fresh
  inodes : ∀ i < s.fresh, s'.inodes i = s.inodes i

section Table
variable {call : CopyCall} {info : FileId → FileInfo} {path : List Name} {s : CopyState} {done : List (List Name × FileId)} {id : FileId}

private theorem mem_useLink {links : List LinkName} {l : LinkName} (h : l ∈ useLink id links) :
    ∃ l' ∈ links, l.name = l'.name ∧ l.id = l'.id ∧ (l = l' ∨ (l'.id = id ∧ l.count = l'.count - 1)) := by
  induction links with
  | nil => cases h
  | cons first links ih =>
    rw [useLink] at h
    split at h
    · rename_i hid
      split at h
      · exact ⟨l,List.mem_cons_of_mem _ h,rfl,rfl,.inl rfl⟩
      · rcases List.mem_cons.mp h with rfl | h
        · exact ⟨first,List.mem_cons_self,rfl,rfl,.inr ⟨hid,rfl⟩⟩
        · exact ⟨l,List.mem_cons_of_mem _ h,rfl,rfl,.inl rfl⟩
    · rcases List.mem_cons.mp h with rfl | h
      · exact ⟨l,List.mem_cons_self,rfl,rfl,.inl rfl⟩
      · obtain ⟨l',hl',hrest⟩ := ih h
        exact ⟨l',List.mem_cons_of_mem _ hl',hrest⟩

/-- No name is forgotten while every count is two at least. -/
theorem exists_mem_useLink {links : List LinkName} {l : LinkName} (h : l ∈ links) (hcount : ∀ l ∈ links, l.id = id → 2 ≤ l.count) :
    ∃ l' ∈ useLink id links, l'.id = l.id := by
  induction links with
  | nil => cases h
  | cons first links ih =>
    rw [useLink]
    by_cases hid : first.id = id
    · have htwo := hcount first List.mem_cons_self hid
      rw [if_pos hid,if_neg (by omega)]
      rcases List.mem_cons.mp h with rfl | h
      · exact ⟨_,List.mem_cons_self,rfl⟩
      · exact ⟨l,List.mem_cons_of_mem _ h,rfl⟩
    · rw [if_neg hid]
      rcases List.mem_cons.mp h with rfl | h
      · exact ⟨l,List.mem_cons_self,rfl⟩
      · obtain ⟨l',hl',heq⟩ := ih h fun x hx => hcount x (List.mem_cons_of_mem _ hx)
        exact ⟨l',List.mem_cons_of_mem _ hl',heq⟩

theorem Progress.notMem_done (hinv : Progress call info done s) (hfree : s.dst path = none) : ∀ q id, (q,id) ∈ done → q ≠ path := by
  rintro q id hq rfl
  obtain ⟨i,_,hi,_⟩ := hinv.placed q id hq
  rw [hfree] at hi
  cases hi

/-- A change under a free path that makes no file leaves the progress. -/
theorem Progress.update (hinv : Progress call info done s) (hfree : s.dst path = none) (obj : DstObj) :
    Progress call info done { s with dst := Function.update s.dst path (some obj) } := by
  have hne := hinv.notMem_done hfree
  have hsame : ∀ q id, (q,id) ∈ done → Function.update s.dst path (some obj) q = s.dst q :=
    fun q id hq => Function.update_of_ne (hne q id hq) _ _
  refine ⟨fun q id hq => ?_,fun q id q' id' hq hq' => ?_,hinv.named,hinv.known,hinv.counted⟩
  · simp only [hsame q id hq]
    exact hinv.placed q id hq
  · simp only [hsame q id hq,hsame q' id' hq']
    exact hinv.shared q id q' id' hq hq'

/-- Another name of a copied file. -/
theorem Progress.link (hinv : Progress call info done s) (hfree : s.dst path = none) {q : List Name} (hq : (q,id) ∈ done)
    (hroom : (done.map Prod.snd).count id + 1 ≤ (info id).nlink) {obj : DstObj} (hobj : s.dst q = some obj) :
    Progress call info (done ++ [(path,id)])
      { s with dst := Function.update s.dst path (some obj), links := useLink id s.links } := by
  have hne := hinv.notMem_done hfree
  have hsame : ∀ q id, (q,id) ∈ done → Function.update s.dst path (some obj) q = s.dst q :=
    fun q id hq => Function.update_of_ne (hne q id hq) _ _
  have hnew : Function.update s.dst path (some obj) path = some obj := Function.update_self _ _ _
  have htwo : ∀ l ∈ s.links, l.id = id → 2 ≤ l.count := by
    rintro l hl rfl
    have hcount := hinv.counted l hl
    omega
  constructor
  · intro q' id' hq'
    rcases List.mem_append.mp hq' with hq' | hq'
    · simp only [hsame q' id' hq']
      exact hinv.placed q' id' hq'
    · cases List.mem_singleton.mp hq'
      obtain ⟨i,hi,hdst,hcopy⟩ := hinv.placed q id hq
      rw [hobj] at hdst
      exact ⟨i,hi,hnew.trans hdst,hcopy⟩
  · intro p k p' k' hp hp'
    simp only
    rcases List.mem_append.mp hp with hp | hp
    · rw [hsame p k hp]
      rcases List.mem_append.mp hp' with hp' | hp'
      · rw [hsame p' k' hp']
        exact hinv.shared p k p' k' hp hp'
      · cases List.mem_singleton.mp hp'
        rw [hnew,← hobj]
        exact hinv.shared p k q id hp hq
    · cases List.mem_singleton.mp hp
      rcases List.mem_append.mp hp' with hp' | hp'
      · rw [hsame p' k' hp',hnew,← hobj]
        exact hinv.shared q id p' k' hq hp'
      · cases List.mem_singleton.mp hp'
        exact iff_of_true rfl rfl
  · intro l hl
    obtain ⟨l',hl',hname,hid,_⟩ := mem_useLink hl
    rw [hname,hid]
    exact List.mem_append_left _ (hinv.named l' hl')
  · intro p k hp hlink
    have hold : ∃ l ∈ s.links, l.id = k := by
      rcases List.mem_append.mp hp with hp | hp
      · exact hinv.known p k hp hlink
      · cases List.mem_singleton.mp hp
        exact hinv.known q id hq hlink
    obtain ⟨l,hl,rfl⟩ := hold
    exact exists_mem_useLink hl htwo
  · intro l hl
    obtain ⟨l',hl',_,hid,hsteps⟩ := mem_useLink hl
    have hcount := hinv.counted l' hl'
    rw [List.map_append,List.count_append,hid]
    rcases hsteps with rfl | ⟨heq,hminus⟩
    · omega
    · have hone : (List.map Prod.snd [(path,id)]).count l'.id = 1 := by rw [heq]; simp
      have := htwo l' hl' heq
      omega

/-- The first name of a file. -/
theorem Progress.new (hinv : Progress call info done s) (hfree : s.dst path = none) (hnew : ∀ q, (q,id) ∉ done) {file : DstFile}
    (hcopy : CopyOf call (info id) file) :
    Progress call info (done ++ [(path,id)])
      { s with dst := Function.update s.dst path (some (.file s.fresh)), inodes := Function.update s.inodes s.fresh file,
               fresh := s.fresh + 1, links := if (info id).nlink = 1 then s.links else ⟨id,(info id).nlink,path⟩ :: s.links } := by
  have hne := hinv.notMem_done hfree
  have hsame : ∀ q id, (q,id) ∈ done → Function.update s.dst path (some (.file s.fresh)) q = s.dst q :=
    fun q id hq => Function.update_of_ne (hne q id hq) _ _
  have hself : Function.update s.dst path (some (.file s.fresh)) path = some (.file s.fresh) := Function.update_self _ _ _
  have hother : ∀ q id', (q,id') ∈ done → s.dst q ≠ some (.file s.fresh) := by
    intro q id' hq heq
    obtain ⟨i,hi,hdst,_⟩ := hinv.placed q id' hq
    rw [hdst] at heq
    cases heq
    exact Nat.lt_irrefl _ hi
  have hids : ∀ q id', (q,id') ∈ done → id' ≠ id := fun q id' hq heq => hnew q (heq ▸ hq)
  constructor
  · intro q' id' hq'
    rcases List.mem_append.mp hq' with hq' | hq'
    · obtain ⟨i,hi,hdst,hcopy'⟩ := hinv.placed q' id' hq'
      refine ⟨i,Nat.lt_succ_of_lt hi,(hsame q' id' hq').trans hdst,?_⟩
      simp only [Function.update_of_ne (Nat.ne_of_lt hi)]
      exact hcopy'
    · cases List.mem_singleton.mp hq'
      refine ⟨s.fresh,Nat.lt_succ_self _,hself,?_⟩
      simp only [Function.update_self]
      exact hcopy
  · intro p k p' k' hp hp'
    simp only
    rcases List.mem_append.mp hp with hp | hp
    · rw [hsame p k hp]
      rcases List.mem_append.mp hp' with hp' | hp'
      · rw [hsame p' k' hp']
        exact hinv.shared p k p' k' hp hp'
      · cases List.mem_singleton.mp hp'
        rw [hself]
        exact iff_of_false (hother p k hp) (hids p k hp)
    · cases List.mem_singleton.mp hp
      rw [hself]
      rcases List.mem_append.mp hp' with hp' | hp'
      · rw [hsame p' k' hp']
        exact iff_of_false (hother p' k' hp').symm (hids p' k' hp').symm
      · cases List.mem_singleton.mp hp'
        rw [hself]
        exact iff_of_true rfl rfl
  · intro l hl
    simp only at hl
    split at hl
    · exact List.mem_append_left _ (hinv.named l hl)
    · rcases List.mem_cons.mp hl with rfl | hl
      · exact List.mem_append_right _ (List.mem_singleton_self _)
      · exact List.mem_append_left _ (hinv.named l hl)
  · intro p k hp hlink
    simp only
    rcases List.mem_append.mp hp with hp | hp
    · obtain ⟨l,hl,hid⟩ := hinv.known p k hp hlink
      split
      · exact ⟨l,hl,hid⟩
      · exact ⟨l,List.mem_cons_of_mem _ hl,hid⟩
    · cases List.mem_singleton.mp hp
      rw [if_neg hlink]
      exact ⟨_,List.mem_cons_self,rfl⟩
  · intro l hl
    simp only at hl
    have hold : ∀ l ∈ s.links, (info l.id).nlink + 1 ≤ l.count + ((done ++ [(path,id)]).map Prod.snd).count l.id := by
      intro l hl
      have hcount := hinv.counted l hl
      rw [List.map_append,List.count_append]
      omega
    split at hl
    · exact hold l hl
    · rcases List.mem_cons.mp hl with rfl | hl
      · rw [List.map_append,List.count_append]
        simp
      · exact hold l hl

/-- An entry for a file is copied, as another name or as a file of its own. -/
theorem copyEntryFile_spec (hinv : Progress call info done s) (hfree : s.dst path = none)
    (hdir : ∃ st, s.dst path.dropLast = some (.dir st)) (hroom : (done.map Prod.snd).count id + 1 ≤ (info id).nlink) :
    ∃ s', copyEntryFile call info path id s = some s' ∧ Progress call info (done ++ [(path,id)]) s' ∧ Elsewhere (· = path) s s' := by
  rw [copyEntryFile,hfree]
  simp only [Option.isSome_none,Bool.false_eq_true,if_false]
  unfold checkLink
  cases hfind : s.links.find? fun l => l.id == id with
  | some l =>
    have hl := List.mem_of_find?_eq_some hfind
    have hid : l.id = id := by simpa using List.find?_some hfind
    have hdone := hinv.named l hl
    rw [hid] at hdone
    obtain ⟨i,hi,hdst,_⟩ := hinv.placed l.name id hdone
    simp only [copyHardlink,hdst]
    rw [create_eq hfree hdir]
    refine ⟨_,rfl,?_,fun p hp => ?_,le_rfl,fun _ _ => rfl⟩
    · rw [hid]
      exact hinv.link hfree hdone hroom hdst
    · exact Function.update_of_ne hp _ _
  | none =>
    have hnew : ∀ q, (q,id) ∉ done := by
      intro q hq
      by_cases hlink : (info id).nlink = 1
      · have hpos : 0 < (done.map Prod.snd).count id := List.count_pos_iff.mpr (List.mem_map.mpr ⟨_,hq,rfl⟩)
        omega
      · obtain ⟨l,hl,hid⟩ := hinv.known q id hq hlink
        exact absurd (List.find?_eq_none.mp hfind l hl) (by simp [hid])
    have hlinks : (if (info id).nlink = 1 then ((none : Option LinkName),s.links) else (none,⟨id,(info id).nlink,path⟩ :: s.links)) =
        (none,if (info id).nlink = 1 then s.links else ⟨id,(info id).nlink,path⟩ :: s.links) := by
      split <;> rfl
    simp only [hlinks]
    obtain ⟨file,hrun,hcopy⟩ := copyNew_eq call info path id
      { s with links := if (info id).nlink = 1 then s.links else ⟨id,(info id).nlink,path⟩ :: s.links } hfree hdir
    refine ⟨_,hrun,hinv.new hfree hnew hcopy,fun p hp => ?_,Nat.le_succ _,fun i hi => ?_⟩
    · exact Function.update_of_ne hp _ _
    · exact Function.update_of_ne (Nat.ne_of_lt hi) _ _

end Table

end UserDb.Homes
