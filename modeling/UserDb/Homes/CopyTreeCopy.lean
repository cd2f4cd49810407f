import UserDb.Homes.CopyTreeRun

/-! The copy of a whole tree, entry by entry. -/
namespace UserDb.Homes
open UserDb.Base

section Paths
variable {path p : List Name} {name n : Name} {r : List Name}

theorem prefix_append_cons : path ++ [name] <+: path ++ n :: r ↔ n = name := by
  rw [List.prefix_append_right_inj]
  constructor
  · rintro ⟨more,hmore⟩
    exact (List.cons.inj hmore).1.symm
  · rintro rfl
    exact ⟨r,rfl⟩

theorem not_prefix_self : ¬ path ++ [name] <+: path := by
  intro h
  have hlength := h.length_le
  rw [List.length_append,List.length_singleton] at hlength
  omega

end Paths

section Relations
variable {call : CopyCall} {info : FileId → FileInfo} {inside inside' : List Name → Prop} {s s' s'' : CopyState}

theorem Elsewhere.trans (h : Elsewhere inside s s') (h' : Elsewhere inside' s' s'') : Elsewhere (fun p => inside p ∨ inside' p) s s'' where
  dst p hp := by
    rw [not_or] at hp
    rw [h'.dst p hp.2,h.dst p hp.1]
  fresh := h.fresh.trans h'.fresh
  inodes i hi := by rw [h'.inodes i (Nat.lt_of_lt_of_le hi h.fresh),h.inodes i hi]

theorem Elsewhere.weaken (h : Elsewhere inside s s') (himp : ∀ p, inside p → inside' p) : Elsewhere inside' s s' where
  dst p hp := h.dst p (mt (himp p) hp)
  fresh := h.fresh
  inodes := h.inodes

/-- An object of the source and its copy, with an inode that was given out. -/
def Copied (call : CopyCall) (info : FileId → FileInfo) (s : CopyState) (src : Option SrcObj) (dst : Option DstObj) : Prop :=
  Matches call info (fun target target' => target' = copiedTarget call target) s src dst ∧ ∀ i, dst = some (.file i) → i < s.fresh

/-- What comes later leaves a copy alone. -/
theorem Copied.later {src : Option SrcObj} {dst : Option DstObj} (h : Copied call info s src dst) (hlater : Elsewhere inside s s') :
    Copied call info s' src dst := by
  obtain ⟨hmatches,hfresh⟩ := h
  refine ⟨?_,fun i hi => Nat.lt_of_lt_of_le (hfresh i hi) hlater.fresh⟩
  unfold Matches at hmatches ⊢
  split at hmatches
  · trivial
  · exact hmatches
  · exact hmatches
  · rename_i id i
    rw [hlater.inodes i (hfresh i rfl)]
    exact hmatches
  · exact hmatches

private theorem copied_none : Copied call info s none none := ⟨trivial,nofun⟩

theorem lookup_of_notMem {es : Listing} {n : Name} (h : n ∉ es.names) (r : List Name) : es.lookup (n :: r) = none := by
  induction es with
  | nil => rfl
  | dir name st inside rest _ ih =>
    simp only [Listing.names,List.mem_cons,not_or] at h
    rw [Listing.lookup,Listing.step,if_neg h.1,ih h.2]
  | symlink name st target rest ih =>
    simp only [Listing.names,List.mem_cons,not_or] at h
    rw [Listing.lookup,Listing.step,if_neg h.1,ih h.2]
  | file name id rest ih =>
    simp only [Listing.names,List.mem_cons,not_or] at h
    rw [Listing.lookup,Listing.step,if_neg h.1,ih h.2]

end Relations

/-- What the run over the entries of a directory does. -/
def CopiesListing (call : CopyCall) (info : FileId → FileInfo) (es : Listing) (path : List Name) (done : List (List Name × FileId))
    (s : CopyState) : Prop :=
  ∃ s', copyListing call info es path s = some s' ∧ Progress call info (done ++ es.files path) s' ∧
    Elsewhere (fun p => ∃ n ∈ es.names, path ++ [n] <+: p) s s' ∧
    ∀ n ∈ es.names, ∀ r, Copied call info s' (es.lookup (n :: r)) (s'.dst (path ++ n :: r))

/-- What has to be there before. -/
structure Ready (call : CopyCall) (info : FileId → FileInfo) (es : Listing) (path : List Name) (done : List (List Name × FileId))
    (s : CopyState) : Prop where
  progress : Progress call info done s
  dir : ∃ st, s.dst path = some (.dir st)
  free : ∀ n ∈ es.names, ∀ r, s.dst (path ++ n :: r) = none
  distinct : es.Distinct
  room : ∀ id, ((done ++ es.files path).map Prod.snd).count id ≤ (info id).nlink

section Run
variable {call : CopyCall} {info : FileId → FileInfo} {path : List Name} {done : List (List Name × FileId)} {s : CopyState}

/-- One entry is copied; the others then are. -/
theorem CopiesListing.cons (new : List (List Name × FileId)) (s' : CopyState) {name : Name} {es rest : Listing} {here : SrcObj}
    {below : List Name → Option SrcObj}
    (hready : Ready call info es path done s)
    (hrest : ∀ done' s', Ready call info rest path done' s' → CopiesListing call info rest path done' s')
    (hnames : es.names = name :: rest.names) (hlookup : ∀ p, es.lookup p = Listing.step name here below (rest.lookup p) p)
    (hfiles : es.files path = new ++ rest.files path) (hname : name ∉ rest.names) (hdistinct : rest.Distinct)
    (hrun : copyListing call info es path s = copyListing call info rest path s')
    (hprogress : Progress call info (done ++ new) s') (helsewhere : Elsewhere (path ++ [name] <+: ·) s s')
    (hcopied : ∀ r, Copied call info s' (if r = [] then some here else below r) (s'.dst (path ++ name :: r))) :
    CopiesListing call info es path done s := by
  have hother : ∀ n ∈ rest.names, n ≠ name := fun n hn heq => hname (heq ▸ hn)
  have hready' : Ready call info rest path (done ++ new) s' := by
    refine ⟨hprogress,?_,?_,hdistinct,?_⟩
    · obtain ⟨st,hst⟩ := hready.dir
      exact ⟨st,(helsewhere.dst path not_prefix_self).trans hst⟩
    · intro n hn r
      rw [helsewhere.dst _ fun h => hother n hn (prefix_append_cons.mp h)]
      exact hready.free n (hnames ▸ List.mem_cons_of_mem _ hn) r
    · intro id
      have hroom := hready.room id
      rwa [hfiles,← List.append_assoc] at hroom
  obtain ⟨s'',hrun',hprogress',helsewhere',hcopied'⟩ := hrest _ _ hready'
  refine ⟨s'',hrun.trans hrun',?_,?_,?_⟩
  · rw [hfiles,← List.append_assoc]
    exact hprogress'
  · apply (helsewhere.trans helsewhere').weaken
    rw [hnames]
    rintro p (hp | ⟨n,hn,hp⟩)
    · exact ⟨name,List.mem_cons_self,hp⟩
    · exact ⟨n,List.mem_cons_of_mem _ hn,hp⟩
  · intro n hn r
    rw [hlookup,Listing.step]
    rw [hnames] at hn
    by_cases heq : n = name
    · subst heq
      have hsame : s''.dst (path ++ n :: r) = s'.dst (path ++ n :: r) := by
        apply helsewhere'.dst
        rintro ⟨m,hm,hp⟩
        exact hother m hm (prefix_append_cons.mp hp).symm
      rw [if_pos rfl,hsame]
      exact (hcopied r).later helsewhere'
    · rw [if_neg heq]
      rcases List.mem_cons.mp hn with hn | hn
      · exact absurd hn heq
      · exact hcopied' n hn r

/-- The entries of a directory are copied, whatever they are. -/
theorem copyListing_spec (es : Listing) (path : List Name) (done : List (List Name × FileId)) (s : CopyState)
    (hready : Ready call info es path done s) : CopiesListing call info es path done s := by
  induction es generalizing path done s with
  | nil =>
    refine ⟨s,rfl,?_,⟨fun _ _ => rfl,le_rfl,fun _ _ => rfl⟩,nofun⟩
    rw [Listing.files,List.append_nil]
    exact hready.progress
  | dir name st inside rest ihInside ihRest =>
    obtain ⟨hname,hinside,hrestDistinct⟩ := hready.distinct
    have hfree : s.dst (path ++ [name]) = none := hready.free name List.mem_cons_self []
    have hdir : ∃ st, s.dst (path ++ [name]).dropLast = some (.dir st) := by
      rw [List.dropLast_concat]
      exact hready.dir
    obtain ⟨st',hrun,howned,hmode⟩ := copyDir_eq call st (copyListing call info inside (path ++ [name])) hfree hdir
    set s₁ : CopyState := { s with dst := Function.update s.dst (path ++ [name]) (some (.dir st')) } with hs₁
    have hself : s₁.dst (path ++ [name]) = some (.dir st') := Function.update_self _ _ _
    have hmade : Elsewhere (path ++ [name] <+: ·) s s₁ := by
      refine ⟨fun p hp => Function.update_of_ne ?_ _ _,le_rfl,fun _ _ => rfl⟩
      rintro rfl
      exact hp (List.prefix_refl _)
    have hbelow : ∀ n r, s₁.dst (path ++ [name] ++ n :: r) = none := by
      intro n r
      have hne : path ++ [name] ++ n :: r ≠ path ++ [name] := by simp
      have hfree' := hready.free name List.mem_cons_self (n :: r)
      rw [hs₁]
      simp only [Function.update_of_ne hne]
      rw [List.append_assoc]
      exact hfree'
    have hready₁ : Ready call info inside (path ++ [name]) done s₁ := by
      refine ⟨hready.progress.update hfree _,⟨st',hself⟩,fun n _ r => hbelow n r,hinside,?_⟩
      intro id
      have hroom := hready.room id
      rw [Listing.files,← List.append_assoc,List.map_append,List.count_append] at hroom
      omega
    obtain ⟨s₂,hrun₂,hprogress₂,helsewhere₂,hcopied₂⟩ := ihInside _ _ _ hready₁
    have helsewhere : Elsewhere (path ++ [name] <+: ·) s s₂ := by
      apply (hmade.trans helsewhere₂).weaken
      rintro p (hp | ⟨n,_,hp⟩)
      · exact hp
      · exact (List.prefix_append _ _).trans hp
    refine CopiesListing.cons _ s₂ hready (fun done' s' => ihRest path done' s') rfl (fun p => rfl) rfl hname hrestDistinct
      ?_ hprogress₂ helsewhere ?_
    · rw [copyListing,hrun,hrun₂]
      rfl
    · intro r
      cases r with
      | nil =>
        have hsame : s₂.dst (path ++ [name]) = some (.dir st') := by
          rw [helsewhere₂.dst _ fun ⟨n,_,hp⟩ => not_prefix_self hp]
          exact hself
        rw [if_pos rfl,hsame]
        exact ⟨⟨howned,hmode⟩,nofun⟩
      | cons n r =>
        rw [if_neg (List.cons_ne_nil _ _)]
        have hpath : path ++ name :: n :: r = path ++ [name] ++ n :: r := by simp
        rw [hpath]
        by_cases hn : n ∈ inside.names
        · exact hcopied₂ n hn r
        · have hsame : s₂.dst (path ++ [name] ++ n :: r) = none := by
            rw [helsewhere₂.dst _ fun ⟨m,hm,hp⟩ => hn (prefix_append_cons.mp hp ▸ hm)]
            exact hbelow n r
          rw [lookup_of_notMem hn,hsame]
          exact copied_none
  | symlink name st target rest ih =>
    obtain ⟨hname,hrestDistinct⟩ := hready.distinct
    have hfree : s.dst (path ++ [name]) = none := hready.free name List.mem_cons_self []
    have hdir : ∃ st, s.dst (path ++ [name]).dropLast = some (.dir st) := by
      rw [List.dropLast_concat]
      exact hready.dir
    obtain ⟨st',hrun,howned⟩ := copySymlink_eq call st target hfree hdir
    set s₁ : CopyState :=
      { s with dst := Function.update s.dst (path ++ [name]) (some (.symlink st' (copiedTarget call target))) } with hs₁
    have hself : s₁.dst (path ++ [name]) = some (.symlink st' (copiedTarget call target)) := Function.update_self _ _ _
    have hmade : Elsewhere (path ++ [name] <+: ·) s s₁ := by
      refine ⟨fun p hp => Function.update_of_ne ?_ _ _,le_rfl,fun _ _ => rfl⟩
      rintro rfl
      exact hp (List.prefix_refl _)
    refine CopiesListing.cons [] s₁ hready (fun done' s' => ih path done' s') rfl (fun p => rfl) rfl hname hrestDistinct
      ?_ ?_ hmade ?_
    · rw [copyListing,copyEntrySymlink,hfree]
      simp only [Option.isSome_none,Bool.false_eq_true,if_false]
      rw [hrun]
      rfl
    · rw [List.append_nil]
      exact hready.progress.update hfree _
    · intro r
      cases r with
      | nil =>
        rw [if_pos rfl,hself]
        exact ⟨⟨howned,rfl⟩,nofun⟩
      | cons n r =>
        have hne : path ++ name :: n :: r ≠ path ++ [name] := by simp
        have hsame : s₁.dst (path ++ name :: n :: r) = none := by
          rw [hs₁]
          simp only [Function.update_of_ne hne]
          exact hready.free name List.mem_cons_self (n :: r)
        rw [if_neg (List.cons_ne_nil _ _),hsame]
        exact copied_none
  | file name id rest ih =>
    obtain ⟨hname,hrestDistinct⟩ := hready.distinct
    have hfree : s.dst (path ++ [name]) = none := hready.free name List.mem_cons_self []
    have hdir : ∃ st, s.dst (path ++ [name]).dropLast = some (.dir st) := by
      rw [List.dropLast_concat]
      exact hready.dir
    have hroom : (done.map Prod.snd).count id + 1 ≤ (info id).nlink := by
      have hroom := hready.room id
      rw [Listing.files,List.map_append,List.map_cons,List.count_append,List.count_cons_self] at hroom
      omega
    obtain ⟨s₁,hrun,hprogress₁,hmade⟩ := copyEntryFile_spec hready.progress hfree hdir hroom
    refine CopiesListing.cons [(path ++ [name],id)] s₁ hready (fun done' s' => ih path done' s') rfl (fun p => rfl) rfl hname
      hrestDistinct ?_ hprogress₁ (hmade.weaken fun p hp => hp ▸ List.prefix_refl _) ?_
    · rw [copyListing,hrun]
      rfl
    · intro r
      cases r with
      | nil =>
        obtain ⟨i,hi,hdst,hcopy⟩ := hprogress₁.placed (path ++ [name]) id (by simp)
        rw [if_pos rfl,hdst]
        refine ⟨hcopy,fun j hj => ?_⟩
        cases hj
        exact hi
      | cons n r =>
        have hsame : s₁.dst (path ++ name :: n :: r) = none := by
          rw [hmade.dst _ (by simp)]
          exact hready.free name List.mem_cons_self (n :: r)
        rw [if_neg (List.cons_ne_nil _ _),hsame]
        exact copied_none

private theorem mem_files_of_lookup {es : Listing} {p : List Name} {id : FileId} (h : es.lookup p = some (.file id)) (path : List Name) :
    (path ++ p,id) ∈ es.files path := by
  induction es generalizing p path with
  | nil => cases h
  | dir name st inside rest ihInside ihRest =>
    rw [Listing.lookup] at h
    rw [Listing.files,List.mem_append]
    cases p with
    | nil => cases h
    | cons n p =>
      rw [Listing.step] at h
      by_cases heq : n = name
      · rw [if_pos heq] at h
        split at h
        · cases h
        · left
          subst heq
          have hmem := ihInside h (path ++ [n])
          rwa [List.append_assoc,List.singleton_append] at hmem
      · rw [if_neg heq] at h
        exact .inr (ihRest h path)
  | symlink name st target rest ih =>
    rw [Listing.lookup] at h
    cases p with
    | nil => cases h
    | cons n p =>
      rw [Listing.step] at h
      by_cases heq : n = name
      · rw [if_pos heq] at h
        split at h <;> cases h
      · rw [if_neg heq] at h
        exact ih h path
  | file name id' rest ih =>
    rw [Listing.lookup] at h
    rw [Listing.files]
    cases p with
    | nil => cases h
    | cons n p =>
      rw [Listing.step] at h
      by_cases heq : n = name
      · rw [if_pos heq] at h
        split at h
        · rename_i hp
          cases h
          rw [heq,hp]
          exact List.mem_cons_self
        · cases h
      · rw [if_neg heq] at h
        exact List.mem_cons_of_mem _ (ih h path)

/-- The copy is faithful, with the targets of links as they are rewritten. -/
theorem copyTree_faithful (call : CopyCall) (src : SourceTree) (hs : StartsEmpty s) :
    ∃ s', copyListing call src.info src.listing [] s = some s' ∧
      FaithfulCopy call src.info (fun target target' => target' = copiedTarget call target) src.listing s' := by
  have hready : Ready call src.info src.listing [] [] s := by
    refine ⟨⟨nofun,nofun,?_,nofun,?_⟩,hs.root,fun n _ r => hs.empty _ (List.cons_ne_nil _ _),src.distinct,src.linked⟩
    · rw [hs.noLinks]
      nofun
    · rw [hs.noLinks]
      nofun
  obtain ⟨s',hrun,hprogress,helsewhere,hcopied⟩ := copyListing_spec src.listing [] [] s hready
  refine ⟨s',hrun,?_,?_⟩
  · intro p hp
    obtain ⟨n,r,rfl⟩ := List.exists_cons_of_ne_nil hp
    by_cases hn : n ∈ src.listing.names
    · exact (hcopied n hn r).1
    · have hnone : s'.dst (n :: r) = none := by
        rw [helsewhere.dst]
        · exact hs.empty _ hp
        · rintro ⟨m,hm,hbegins⟩
          have hbelow : ([] : List Name) ++ [m] <+: [] ++ n :: r := hbegins
          exact hn (prefix_append_cons.mp hbelow ▸ hm)
      rw [lookup_of_notMem hn,hnone]
      trivial
  · intro p q id id' i j hp hq hi hj
    rw [← hprogress.shared p id q id' (mem_files_of_lookup hp []) (mem_files_of_lookup hq []),hi,hj,Option.some.injEq,DstObj.file.injEq]

end Run

end UserDb.Homes
