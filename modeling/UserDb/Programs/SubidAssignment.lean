import UserDb.Programs.Newusers
import UserDb.Programs.Useradd
import UserDb.Subid.Queries

/-! To whom `newusers` and `useradd` give subordinate ids. The test whether a user has ids asks the
name service, which does not know the users that the run itself made. -/
namespace UserDb.Programs
open UserDb.Base UserDb.Base.Outcomes UserDb.Commonio UserDb.Subid UserDb.Ids

/-- A user has ids: under the name, under the number, or under another name of the number. -/
def HasIds (pws : List Passwd) (user : Bytes) (uid : UInt32) (rs : List SubordinateRange) : Prop :=
  ∃ r ∈ rs, r.owner = user ∨ r.owner = numeral uid.toNat ∨ ∃ pw ∈ pws, pw.name = r.owner ∧ pw.uid = uid

/-- A step adds a range. -/
def Appends (db db' : Db SubordinateRange) : Prop := ∃ r, (entriesIn db').Perm (r :: entriesIn db)

theorem not_appends {db db' : Db SubordinateRange} (h : (entriesIn db').Perm (entriesIn db)) : ¬ Appends db db' := by
  rintro ⟨r,hr⟩
  have hlength := hr.length_eq.symm.trans h.length_eq
  rw [List.length_cons] at hlength
  omega

/-- A database whose ranges are found along its links. -/
structure RangesOpen (db : Db SubordinateRange) : Prop where
  chained : ∃ l, Chained db l
  isopen : db.isopen = true

theorem RangesOpen.reordered {db db' : Db SubordinateRange} {l : List Nat} (hchained : Chained db l) (hopen : db.isopen = true)
    (h : Reordered db db' l) : RangesOpen db' ∧ (entriesIn db').Perm (entriesIn db) := by
  obtain ⟨l',hchained',hperm⟩ := h.chained
  refine ⟨⟨⟨l',hchained'⟩,h.isopen.trans hopen⟩,?_⟩
  rw [entriesIn_chain hchained'.toChain,entriesIn_chain hchained.toChain,h.record]
  exact (hperm.map _).filterMap _

theorem entriesOf_append_edited {rs : List (Record SubordinateRange)} {r : SubordinateRange} :
    entriesOf (rs ++ [editedRecord none r]) = entriesOf rs ++ [r] := by
  rw [entriesOf,List.filterMap_append]
  rfl

namespace Newusers
variable (e : NewusersEnv) (files : NewusersFiles)

/-- The interval that the search gives is one that the user has already. -/
def SlotCovered (kind : IdKind) (s : Newusers) (user : Bytes) (uid : UInt32) : Prop :=
  ∃ start count db, findNewRange e.qsort (e.memory s.line 8) kind e.defs uid (rangeExists e.accounts (s.subids kind) user).2 =
      (some (start,count),db) ∧ CoveredFor kind e.accounts e.defs user db start count

/-- A line of a run from `s` that follows `done`: the user's entry, the state before the subordinate
ids are given, and the one after. -/
def LineAt (s : Newusers) (lines done : List Bytes) (f : LineFields) (pw : Passwd) (s₁ s₂ : Newusers) : Prop :=
  ∃ line rest s₀, lines = done ++ line :: rest ∧ addLines e files s done = .ok s₀ ∧ addLine e files s₀ line = .ok s₂ ∧
    lineFields line = some f ∧ storeUser e files { s₀ with line := s₀.line + 1 } f = .ok (pw,s₁)

/-- Ranges go to users that have none, and at most one to each. -/
structure OnlyWithoutIds (kind : IdKind) (s : Newusers) (lines : List Bytes) : Prop where
  without : ∀ done f pw s₁ s₂, LineAt e files s lines done f pw s₁ s₂ → Appends (s₁.subids kind) (s₂.subids kind) →
    ¬ HasIds (entriesIn s₁.passwd) f.name pw.uid (entriesIn (s₁.subids kind))
  once : ∀ done f pw s₁ s₂ done' f' pw' s₁' s₂', LineAt e files s lines done f pw s₁ s₂ →
    LineAt e files s lines done' f' pw' s₁' s₂' → f'.name = f.name → Appends (s₁.subids kind) (s₂.subids kind) →
    Appends (s₁'.subids kind) (s₂'.subids kind) → done' = done

/-- Where a user has ids, the name service knows that of a range there is, or nothing would be new. -/
def Known (kind : IdKind) (s : Newusers) (lines : List Bytes) : Prop :=
  ∀ done f pw s₁ s₂, LineAt e files s lines done f pw s₁ s₂ → isSub e files kind = true →
    HasIds (entriesIn s₁.passwd) f.name pw.uid (entriesIn (s₁.subids kind)) →
      Recognized e.accounts f.name (entriesIn (s₁.subids kind)) ∨ SlotCovered e kind s₁ f.name pw.uid

variable {e files} {kind : IdKind} {s s₁ s₂ : Newusers} {lines done : List Bytes} {f : LineFields} {pw : Passwd}

/-- Giving ids: the user is recognized or the interval covered, or a range is appended. -/
theorem assignSubids_cases {user : Bytes} {uid : UInt32} {db' : Db SubordinateRange} (hused : isSub e files kind = true)
    (hranges : RangesOpen (s.subids kind)) (h : assignSubids e files kind s.line (s.subids kind) user uid = .ok db') :
    RangesOpen db' ∧
      (((Recognized e.accounts user (entriesIn (s.subids kind)) ∨ SlotCovered e kind s user uid) ∧
          (entriesIn db').Perm (entriesIn (s.subids kind))) ∨
        (¬ Recognized e.accounts user (entriesIn (s.subids kind)) ∧ ¬ SlotCovered e kind s user uid ∧
          ∃ r, ownerSpelling kind e.accounts e.defs user = some r.owner ∧ (entriesIn db').Perm (r :: entriesIn (s.subids kind)))) := by
  obtain ⟨⟨l,hchained⟩,hopen⟩ := hranges
  unfold assignSubids at h
  rw [hused,if_neg (by simp)] at h
  obtain ⟨hexists,hmoved⟩ := rangeExists_spec hchained hopen e.accounts user
  rw [← entriesIn_chain hchained.toChain] at hexists
  rcases hrun : rangeExists e.accounts (s.subids kind) user with ⟨_ | _,db₁⟩
  · rw [hrun] at h hexists hmoved
    have hnot : ¬ Recognized e.accounts user (entriesIn (s.subids kind)) := fun hrec => Bool.false_ne_true (hexists.mpr hrec)
    have hchained₁ := hmoved.chained hchained
    have hopen₁ : db₁.isopen = true := hmoved.flags.1.trans hopen
    have hreordered := findNewRange_reordered hchained₁ hopen₁ e.qsort (e.memory s.line 8) kind e.defs uid
    have hperm₁ := (RangesOpen.reordered hchained hopen (reordered_of_moved hmoved hchained)).2
    simp only at h
    rcases hfind : findNewRange e.qsort (e.memory s.line 8) kind e.defs uid db₁ with ⟨_ | ⟨start,count⟩,db₂⟩
    · rw [hfind] at h
      cases h
    · rw [hfind] at h hreordered
      have hperm₂ := (RangesOpen.reordered hchained₁ hopen₁ hreordered).2.trans hperm₁
      obtain ⟨⟨l₂,hchained₂⟩,hopen₂⟩ := (RangesOpen.reordered hchained₁ hopen₁ hreordered).1
      have hslot : SlotCovered e kind s user uid ↔ CoveredFor kind e.accounts e.defs user db₂ start count := by
        unfold SlotCovered
        rw [hrun,hfind]
        constructor
        · rintro ⟨_,_,_,heq,hcovered⟩
          cases heq
          exact hcovered
        · intro hcovered
          exact ⟨start,count,db₂,rfl,hcovered⟩
      simp only at h
      split at h
      · cases h
      · cases h
      · rename_i db₃ hadd
        cases h
        rcases subidAdd_cases hchained₂ hopen₂ hadd with ⟨hcovered,hmoved₃⟩ | ⟨hfree,hopen₃,owner,l₃,howner,hchained₃,hrecord⟩
        · obtain ⟨hranges₃,hperm₃⟩ := RangesOpen.reordered hchained₂ hopen₂ (reordered_of_moved hmoved₃ hchained₂)
          exact ⟨hranges₃,.inl ⟨.inr (hslot.mpr hcovered),hperm₃.trans hperm₂⟩⟩
        · refine ⟨⟨⟨l₃,hchained₃⟩,hopen₃⟩,.inr ⟨hnot,fun hc => hfree (hslot.mp hc),⟨owner,start.toUInt64,count⟩,howner,?_⟩⟩
          rw [entriesIn_chain hchained₃.toChain,hrecord,entriesOf_append_edited,← entriesIn_chain hchained₂.toChain]
          exact (List.perm_append_singleton _ _).trans (hperm₂.cons _)
  · rw [hrun] at h hexists hmoved
    cases h
    obtain ⟨hranges',hperm⟩ := RangesOpen.reordered hchained hopen (reordered_of_moved hmoved hchained)
    exact ⟨hranges',.inl ⟨.inl (hexists.mp rfl),hperm⟩⟩

/-- The databases that are in use. -/
def SubidsOpen (e : NewusersEnv) (files : NewusersFiles) (s : Newusers) : Prop :=
  ∀ kind, isSub e files kind = true → RangesOpen (s.subids kind)

/-- A line keeps the databases open, and every range stays. -/
theorem SubidsOpen.addLine {s' : Newusers} {line : Bytes} (hopen : SubidsOpen e files s) (h : addLine e files s line = .ok s') :
    SubidsOpen e files s' ∧ ∀ kind, isSub e files kind = true → ∀ r ∈ entriesIn (s.subids kind), r ∈ entriesIn (s'.subids kind) := by
  obtain ⟨f,newpw,s₁,_,hstore,hassign⟩ := addLine_eq_ok h
  have hsubids : s₁.subids = s.subids := by simpa using storeUser_subids hstore
  have hcases : ∀ kind, isSub e files kind = true → RangesOpen (s'.subids kind) ∧
      ∀ r ∈ entriesIn (s.subids kind), r ∈ entriesIn (s'.subids kind) := by
    intro kind hused
    obtain ⟨hranges,hresult⟩ := assignSubids_cases hused (hsubids ▸ hopen kind hused) (hassign kind)
    rw [hsubids] at hresult
    refine ⟨hranges,?_⟩
    intro r hr
    rcases hresult with ⟨_,hperm⟩ | ⟨_,_,_,_,hperm⟩
    · exact hperm.mem_iff.mpr hr
    · exact hperm.mem_iff.mpr (List.mem_cons_of_mem _ hr)
  exact ⟨fun kind hused => (hcases kind hused).1,fun kind hused => (hcases kind hused).2⟩

/-- So do the lines of a run. -/
theorem SubidsOpen.addLines {s' : Newusers} (hopen : SubidsOpen e files s) (h : addLines e files s lines = .ok s') :
    SubidsOpen e files s' ∧ ∀ kind, isSub e files kind = true → ∀ r ∈ entriesIn (s.subids kind), r ∈ entriesIn (s'.subids kind) := by
  refine foldlM_preserves (P := fun s' => SubidsOpen e files s' ∧ ∀ kind, isSub e files kind = true →
    ∀ r ∈ entriesIn (s.subids kind), r ∈ entriesIn (s'.subids kind)) ?_ h ⟨hopen,fun _ _ _ hr => hr⟩
  rintro b line b' ⟨hb,hkept⟩ hline
  obtain ⟨hb',hkept'⟩ := hb.addLine hline
  exact ⟨hb',fun kind hused r hr => hkept' kind hused r (hkept kind hused r hr)⟩

theorem LineAt.assigned (h : LineAt e files s lines done f pw s₁ s₂) (kind : IdKind) :
    assignSubids e files kind s₁.line (s₁.subids kind) f.name pw.uid = .ok (s₂.subids kind) := by
  obtain ⟨line,rest,s₀,_,_,hline,hfields,hstore⟩ := h
  obtain ⟨f',pw',s₁',hfields',hstore',hassign⟩ := addLine_eq_ok hline
  obtain rfl := Option.some.inj (hfields.symm.trans hfields')
  obtain ⟨rfl,rfl⟩ := Prod.mk.inj (Except.ok.inj (hstore.symm.trans hstore'))
  exact hassign kind

theorem LineAt.open (hopen : SubidsOpen e files s) (h : LineAt e files s lines done f pw s₁ s₂) : SubidsOpen e files s₁ := by
  obtain ⟨line,rest,s₀,_,hbefore,_,_,hstore⟩ := h
  have hsubids : s₁.subids = s₀.subids := by simpa using storeUser_subids hstore
  intro kind hused
  rw [hsubids]
  exact (hopen.addLines hbefore).1 kind hused

/-- When a range is appended. -/
theorem LineAt.appends_iff (hopen : SubidsOpen e files s) (h : LineAt e files s lines done f pw s₁ s₂)
    (hused : isSub e files kind = true) : Appends (s₁.subids kind) (s₂.subids kind) ↔
      ¬ Recognized e.accounts f.name (entriesIn (s₁.subids kind)) ∧ ¬ SlotCovered e kind s₁ f.name pw.uid := by
  obtain ⟨_,⟨hkept,hperm⟩ | ⟨hnot,hfree,r,_,hperm⟩⟩ := assignSubids_cases hused (h.open hopen kind hused) (h.assigned kind)
  · refine iff_of_false (not_appends hperm) ?_
    rintro ⟨hnot,hfree⟩
    rcases hkept with hrec | hcovered
    · exact hnot hrec
    · exact hfree hcovered
  · exact iff_of_true ⟨r,hperm⟩ ⟨hnot,hfree⟩

/-- Nothing is appended to a file that is not in use. -/
theorem LineAt.used (h : LineAt e files s lines done f pw s₁ s₂) (happends : Appends (s₁.subids kind) (s₂.subids kind)) :
    isSub e files kind = true := by
  by_contra hunused
  have hassign := h.assigned kind
  unfold assignSubids at hassign
  rw [Bool.not_eq_true] at hunused
  rw [hunused,if_pos (by rfl)] at hassign
  have hsame := Except.ok.inj hassign
  exact not_appends (.refl _) (hsame ▸ happends)

/-- A user that was given a range before has ids, and without its name the name service knows it. -/
theorem LineAt.again (hacc : e.accounts.Consistent) (hopen : SubidsOpen e files s) {done' : List Bytes} {f' : LineFields} {pw' : Passwd}
    {s₁' s₂' : Newusers} (h : LineAt e files s lines done f pw s₁ s₂) (h' : LineAt e files s lines done' f' pw' s₁' s₂')
    (hname : f'.name = f.name) (hlt : done.length < done'.length) (happends : Appends (s₁.subids kind) (s₂.subids kind)) :
    HasIds (entriesIn s₁'.passwd) f'.name pw'.uid (entriesIn (s₁'.subids kind)) ∨
      Recognized e.accounts f'.name (entriesIn (s₁'.subids kind)) := by
  have hused := h.used happends
  obtain ⟨_,⟨_,hperm⟩ | ⟨_,_,r,howner,hperm⟩⟩ := assignSubids_cases hused (h.open hopen kind hused) (h.assigned kind)
  · exact absurd happends (not_appends hperm)
  have hr : r ∈ entriesIn (s₂.subids kind) := hperm.mem_iff.mpr List.mem_cons_self
  obtain ⟨line,rest,s₀,hlines,hbefore,hline,_,_⟩ := h
  obtain ⟨line',rest',s₀',hlines',hbefore',_,_,hstore'⟩ := h'
  -- the later line has the earlier one in front of it
  obtain ⟨between,hdone'⟩ : ∃ between, done' = done ++ line :: between := by
    have hearlier : done ++ [line] <+: lines := ⟨rest,by rw [hlines]; simp⟩
    have hprefix : done ++ [line] <+: done' := by
      apply List.prefix_of_prefix_length_le hearlier ⟨line' :: rest',hlines'.symm⟩
      rw [List.length_append,List.length_singleton]
      omega
    obtain ⟨between,heq⟩ := hprefix
    exact ⟨between,by rw [← heq]; simp⟩
  have hr' : r ∈ entriesIn (s₁'.subids kind) := by
    rw [hdone',Newusers.addLines,foldlM_append_eq_ok] at hbefore'
    obtain ⟨c,hc,hbefore'⟩ := hbefore'
    obtain rfl := Except.ok.inj (hbefore.symm.trans hc)
    rw [List.foldlM_cons,except_bind_eq_ok] at hbefore'
    obtain ⟨c,hc,hbefore'⟩ := hbefore'
    obtain rfl := Except.ok.inj (hline.symm.trans hc)
    have hopen₂ := ((hopen.addLines hbefore).1.addLine hline).1
    have hsubids : s₁'.subids = s₀'.subids := by simpa using storeUser_subids hstore'
    rw [hsubids]
    exact (hopen₂.addLines hbefore').2 kind hused r hr
  unfold ownerSpelling at howner
  split at howner
  · right
    obtain ⟨found,hfound,howner⟩ := Option.map_eq_some_iff.mp howner
    refine ⟨r,hr',?_⟩
    rw [← howner,hname]
    exact isSameUser_numeral hacc hfound
  · left
    exact ⟨r,hr',.inl (hname ▸ (Option.some.inj howner).symm)⟩

/-- Over a run, the ranges go to users without ids exactly where the name service recognizes a user
that has some. -/
theorem onlyWithoutIds_iff (hacc : e.accounts.Consistent) (hopen : SubidsOpen e files s) (kind : IdKind) (lines : List Bytes) :
    OnlyWithoutIds e files kind s lines ↔ Known e files kind s lines := by
  constructor
  · rintro ⟨hwithout,_⟩ done f pw s₁ s₂ h hused hids
    by_contra hnot
    rw [not_or] at hnot
    exact hwithout done f pw s₁ s₂ h ((h.appends_iff hopen hused).mpr hnot) hids
  · intro hknown
    have hwithout : ∀ done f pw s₁ s₂, LineAt e files s lines done f pw s₁ s₂ → Appends (s₁.subids kind) (s₂.subids kind) →
        ¬ HasIds (entriesIn s₁.passwd) f.name pw.uid (entriesIn (s₁.subids kind)) := by
      intro done f pw s₁ s₂ h happends hids
      have hused := h.used happends
      obtain ⟨hnot,hfree⟩ := (h.appends_iff hopen hused).mp happends
      rcases hknown done f pw s₁ s₂ h hused hids with hrec | hcovered
      · exact hnot hrec
      · exact hfree hcovered
    have hfirst : ∀ {done f pw s₁ s₂ done' f' pw' s₁' s₂'}, LineAt e files s lines done f pw s₁ s₂ →
        LineAt e files s lines done' f' pw' s₁' s₂' → f'.name = f.name → Appends (s₁.subids kind) (s₂.subids kind) →
        Appends (s₁'.subids kind) (s₂'.subids kind) → done'.length ≤ done.length := by
      intro done f pw s₁ s₂ done' f' pw' s₁' s₂' h h' hname happends happends'
      by_contra hlt
      rcases h.again hacc hopen h' hname (Nat.lt_of_not_le hlt) happends with hids | hrec
      · exact hwithout done' f' pw' s₁' s₂' h' happends' hids
      · exact ((h'.appends_iff hopen (h'.used happends')).mp happends').1 hrec
    refine ⟨hwithout,?_⟩
    intro done f pw s₁ s₂ done' f' pw' s₁' s₂' h h' hname happends happends'
    have hlength := Nat.le_antisymm (hfirst h h' hname happends happends') (hfirst h' h hname.symm happends' happends)
    obtain ⟨line,rest,_,hlines,_⟩ := h
    obtain ⟨line',rest',_,hlines',_⟩ := h'
    exact (List.append_inj (hlines'.symm.trans hlines) hlength).1

end Newusers

theorem openFirst_ranges {file : Option Bytes} {read memory : Bool} {db : Db SubordinateRange}
    (h : openFirst subidStorage.toStorage .rdwr true file read memory = (true,db)) : RangesOpen db := by
  unfold openFirst at h
  cases read with
  | true =>
    obtain ⟨l,hrep,hopen,_⟩ := commonioOpen_ranges h
    exact ⟨⟨l,hrep.chained⟩,hopen⟩
  | false => cases h

theorem Newusers.openUsed_ranges {file : Option Bytes} {calls : Bool × Bool} {db : Db SubordinateRange}
    (h : openUsed subidStorage.toStorage true file calls = .ok db) : RangesOpen db := by
  unfold openUsed at h
  rw [Bool.not_true,if_neg Bool.false_ne_true] at h
  split at h
  · cases h
  · rename_i hopen
    cases h
    exact openFirst_ranges hopen

/-- A run starts with open databases. -/
theorem Newusers.openFiles_open {e : NewusersEnv} {files : NewusersFiles} {s : Newusers} (h : openFiles e files = .ok s) :
    SubidsOpen e files s := by
  unfold openFiles at h
  split at h
  · cases h
  · obtain ⟨_,_,h⟩ := except_bind_eq_ok.mp h
    obtain ⟨_,_,h⟩ := except_bind_eq_ok.mp h
    obtain ⟨_,_,h⟩ := except_bind_eq_ok.mp h
    obtain ⟨_,_,h⟩ := except_bind_eq_ok.mp h
    obtain ⟨_,huid,h⟩ := except_bind_eq_ok.mp h
    obtain ⟨_,hgid,h⟩ := except_bind_eq_ok.mp h
    cases h
    intro kind hused
    cases kind with
    | uid =>
      rw [hused] at huid
      exact openUsed_ranges huid
    | gid =>
      rw [hused] at hgid
      exact openUsed_ranges hgid

namespace Useradd
variable {e : UseraddEnv} {o : UseraddOptions} {files : IdKind → Option Bytes} {kind : IdKind} {u u' : Useradd}

/-- The databases that are in use. -/
def SubidsOpen (e : UseraddEnv) (o : UseraddOptions) (files : IdKind → Option Bytes) (u : Useradd) : Prop :=
  ∀ kind, shouldAssignSubid e o kind (files kind) u.userId = true → RangesOpen (u.subids kind)

/-- The ranges are looked for in a database that is open, and stays open. -/
theorem findSubids_open {file : Option Bytes} {uid : UInt32} {db db' : Db SubordinateRange} {range : UInt32 × UInt64}
    (hused : shouldAssignSubid e o kind file uid = true) (hopen : openSubids e o kind file uid = .ok db)
    (hfind : findSubids e o kind file uid db = .ok (range,db')) : RangesOpen db' := by
  unfold openSubids at hopen
  rw [hused,Bool.not_true,if_neg Bool.false_ne_true] at hopen
  split at hopen
  · cases hopen
  · split at hopen
    · cases hopen
    · rename_i hfirst
      cases hopen
      obtain ⟨⟨l,hchained⟩,hisopen⟩ := openFirst_ranges hfirst
      have hreordered := findNewRange_reordered hchained hisopen e.qsort (e.subidMemory kind 0) kind e.defs uid
      unfold findSubids at hfind
      rw [hused,Bool.not_true,if_neg Bool.false_ne_true] at hfind
      split at hfind
      · cases hfind
      · rename_i hnew
        cases hfind
        rw [hnew] at hreordered
        exact (RangesOpen.reordered hchained hisopen hreordered).1

private theorem prepare_open {passwd : Option Bytes} (h : prepare e o passwd files = .ok u) : SubidsOpen e o files u := by
  unfold prepare at h
  split at h
  · cases h
  · split at h
    · cases h
    · split at h
      · cases h
      · obtain ⟨⟨uid,_⟩,_,h⟩ := except_bind_eq_ok.mp h
        obtain ⟨_,hopenUid,h⟩ := except_bind_eq_ok.mp h
        obtain ⟨_,hopenGid,h⟩ := except_bind_eq_ok.mp h
        obtain ⟨⟨_,_⟩,hfindUid,h⟩ := except_bind_eq_ok.mp h
        obtain ⟨⟨_,_⟩,hfindGid,h⟩ := except_bind_eq_ok.mp h
        cases h
        intro kind hused
        cases kind with
        | uid => exact findSubids_open hused hopenUid hfindUid
        | gid => exact findSubids_open hused hopenGid hfindGid

/-- Whether the user has the interval already, once the test for a range has gone over the database. -/
def SlotCovered (e : UseraddEnv) (o : UseraddOptions) (kind : IdKind) (u : Useradd) : Prop :=
  CoveredFor kind e.accounts e.defs o.userName (rangeExists e.accounts (u.subids kind) o.userName).2 (u.ranges kind).1 (u.ranges kind).2

/-- When a range is appended. -/
theorem appends_iff (hopen : SubidsOpen e o files u) (hused : shouldAssignSubid e o kind (files kind) u.userId = true)
    (h : addSubids e o kind (files kind) u.userId (u.subids kind) (u.ranges kind) = .ok (u'.subids kind)) :
    Appends (u.subids kind) (u'.subids kind) ↔
      ¬ Recognized e.accounts o.userName (entriesIn (u.subids kind)) ∧ ¬ SlotCovered e o kind u := by
  obtain ⟨⟨l,hchained⟩,hisopen⟩ := hopen kind hused
  unfold addSubids at h
  rw [hused,Bool.not_true,if_neg Bool.false_ne_true] at h
  obtain ⟨hexists,hmoved⟩ := rangeExists_spec hchained hisopen e.accounts o.userName
  rw [← entriesIn_chain hchained.toChain] at hexists
  unfold SlotCovered
  rcases hrun : rangeExists e.accounts (u.subids kind) o.userName with ⟨_ | _,db₁⟩
  · rw [hrun] at h hexists
    have hmoved : MovedCursor (u.subids kind) db₁ l := by simpa [hrun] using hmoved
    have hnot : ¬ Recognized e.accounts o.userName (entriesIn (u.subids kind)) := fun hrec => Bool.false_ne_true (hexists.mpr hrec)
    have hreordered := reordered_of_moved hmoved hchained
    have hperm := (RangesOpen.reordered hchained hisopen hreordered).2
    have hchained₁ := hmoved.chained hchained
    have hisopen₁ : db₁.isopen = true := hmoved.flags.1.trans hisopen
    simp only at h
    split at h
    · cases h
    · cases h
    · rename_i db₂ hadd
      have hdb₂ := Except.ok.inj h
      rw [← hdb₂]
      rcases subidAdd_cases hchained₁ hisopen₁ hadd with ⟨hcovered,hmoved₂⟩ | ⟨hfree,hisopen₂,owner,l₂,_,hchained₂,hrecord⟩
      · have hperm₂ := (RangesOpen.reordered hchained₁ hisopen₁ (reordered_of_moved hmoved₂ hchained₁)).2
        exact iff_of_false (not_appends (hperm₂.trans hperm)) fun hfree => hfree.2 hcovered
      · refine iff_of_true ⟨⟨owner,(u.ranges kind).1.toUInt64,(u.ranges kind).2⟩,?_⟩ ⟨hnot,hfree⟩
        rw [entriesIn_chain hchained₂.toChain,hrecord,entriesOf_append_edited,← entriesIn_chain hchained₁.toChain]
        exact (List.perm_append_singleton _ _).trans (hperm.cons _)
  · rw [hrun] at h hexists hmoved
    have hdb₁ := Except.ok.inj h
    rw [← hdb₁]
    have hperm := (RangesOpen.reordered hchained hisopen (reordered_of_moved hmoved hchained)).2
    exact iff_of_false (not_appends hperm) fun hnot => hnot.1 (hexists.mp rfl)

private theorem usrUpdate_subids (h : usrUpdate e o files u = .ok u') (kind : IdKind) :
    addSubids e o kind (files kind) u.userId (u.subids kind) (u.ranges kind) = .ok (u'.subids kind) := by
  unfold usrUpdate at h
  split at h
  · cases h
  · obtain ⟨subuid,huid,h⟩ := except_bind_eq_ok.mp h
    obtain ⟨subgid,hgid,h⟩ := except_bind_eq_ok.mp h
    cases h
    cases kind with
    | uid => exact huid
    | gid => exact hgid

end Useradd

/-- Both programs give a range to users without ids only, and no more than one, exactly where a user
that has ids is known to the name service, with a range of the user, or gets an interval that the user has. -/
theorem subids_only_without_ids_iff (kind : IdKind) :
    (∀ (e : NewusersEnv) (files : NewusersFiles) (lines : List Bytes) (s : Newusers), e.accounts.Consistent →
      Newusers.openFiles e files = .ok s →
        (Newusers.OnlyWithoutIds e files kind s lines ↔ Newusers.Known e files kind s lines)) ∧
    ∀ (e : UseraddEnv) (o : UseraddOptions) (passwd : Option Bytes) (files : IdKind → Option Bytes) (u u' : Useradd),
      Useradd.prepare e o passwd files = .ok u → Useradd.usrUpdate e o files u = .ok u' →
        ((Appends (u.subids kind) (u'.subids kind) →
            ¬ HasIds (entriesIn u'.passwd) o.userName u.userId (entriesIn (u.subids kind))) ↔
          (Useradd.shouldAssignSubid e o kind (files kind) u.userId = true →
            HasIds (entriesIn u'.passwd) o.userName u.userId (entriesIn (u.subids kind)) →
              Recognized e.accounts o.userName (entriesIn (u.subids kind)) ∨ Useradd.SlotCovered e o kind u)) := by
  constructor
  · intro e files lines s hacc hopen
    exact Newusers.onlyWithoutIds_iff hacc (Newusers.openFiles_open hopen) kind lines
  · intro e o passwd files u u' hprepare hupdate
    have hopen := Useradd.prepare_open hprepare
    have hadd := Useradd.usrUpdate_subids hupdate kind
    cases hused : Useradd.shouldAssignSubid e o kind (files kind) u.userId with
    | false =>
      refine iff_of_true ?_ nofun
      intro happends
      unfold Useradd.addSubids at hadd
      rw [hused,if_pos (by rfl)] at hadd
      have hsame := Except.ok.inj hadd
      exact absurd (hsame ▸ happends) (not_appends (.refl _))
    | true =>
      have happends := Useradd.appends_iff hopen hused hadd
      rw [happends]
      tauto

def rootEntry : Passwd := ⟨ascii "root",[120],0,0,[],ascii "/root",ascii "/bin/sh"⟩

private theorem accountsOf_consistent (pws : List Passwd) : (accountsOf pws).Consistent where
  uid uid pw h := by simpa using List.find?_some h
  name name pw h := by
    have hpw : pw ∈ pws := List.mem_of_find?_eq_some h
    exact List.find?_isSome.mpr ⟨pw,hpw,beq_self_eq_true _⟩

/-- Files with root only, and empty files of subordinate ids. -/
def rootFiles : NewusersFiles :=
  ⟨some (ascii "root:x:0:0::/root:/bin/sh\n"),none,some (ascii "root:x:0:\n"),none,fun _ => some []⟩

def plainNewusersEnv : NewusersEnv where
  bflg := false
  rflg := false
  pam := false
  bufsiz := 8192
  loginNameMax := 256
  groupNameMaxLength := 32
  tools := plainTools
  accounts := accountsOf [rootEntry]
  getgrnam _ := none
  getgrgid _ := none
  nss := false
  defs _ := none
  aging := defaultDefs
  qsort := insertionSort
  fuel := 0
  locks := true
  opens _ := (true,true)
  memory _ _ := true
  crypt _ password := some password
  home _ := ⟨true,true,false,true⟩

/-- A new user with a number of its own. -/
def newLine : Bytes := ascii "a::5000:5000:::"

def plainUseraddEnv : UseraddEnv where
  tools := plainTools
  isShadowPwd := false
  accounts := accountsOf [rootEntry]
  prefixAccounts := accountsOf [rootEntry]
  nss := false
  defs _ := none
  qsort := insertionSort
  fuel := 0
  lock := true
  subidLock _ := true
  passwdOpen := (true,true)
  subidOpen _ := (true,true)
  memory _ := true
  subidMemory _ _ := true

def newUser : UseraddOptions := ⟨ascii "a",some 5000,false,false,false,[33],5000,[],ascii "/home/a",ascii "/bin/sh"⟩

/-- What a run of `useradd` finds and leaves in the file of one kind. -/
def useraddRanges (kind : IdKind) (subids : Bytes) : Option (List SubordinateRange × List SubordinateRange) :=
  (do
    let u ← Useradd.prepare plainUseraddEnv newUser rootFiles.passwd fun _ => some subids
    let u' ← Useradd.usrUpdate plainUseraddEnv newUser (fun _ => some subids) u
    return (entriesIn (u.subids kind),entriesIn (u'.subids kind)) : Except Exit _).toOption

private theorem useraddRanges_eq_some {kind : IdKind} {subids : Bytes} {rs rs' : List SubordinateRange}
    (h : useraddRanges kind subids = some (rs,rs')) :
    ∃ u u', Useradd.prepare plainUseraddEnv newUser rootFiles.passwd (fun _ => some subids) = .ok u ∧
      Useradd.usrUpdate plainUseraddEnv newUser (fun _ => some subids) u = .ok u' ∧ entriesIn (u.subids kind) = rs ∧
      entriesIn (u'.subids kind) = rs' := by
  unfold useraddRanges at h
  rcases hprepare : Useradd.prepare plainUseraddEnv newUser rootFiles.passwd (fun _ => some subids) with _ | u
  · rw [hprepare] at h
    cases h
  · rw [hprepare] at h
    rcases hupdate : Useradd.usrUpdate plainUseraddEnv newUser (fun _ => some subids) u with _ | u'
    · simp [hupdate,Bind.bind,Except.bind,Except.toOption] at h
    · simp only [hupdate,Bind.bind,Except.bind,Pure.pure,Except.pure,Except.toOption,Option.some.injEq,Prod.mk.injEq] at h
      exact ⟨u,u',rfl,hupdate,h.1,h.2⟩

/-- What the rounds over a line that comes twice leave in the file. -/
def twoRounds : Option (List SubordinateRange × List SubordinateRange) :=
  (do
    let s ← Newusers.openFiles plainNewusersEnv rootFiles
    let s₀ ← s.addLine plainNewusersEnv rootFiles newLine
    let s₁ ← s₀.addLine plainNewusersEnv rootFiles newLine
    return (entriesIn (s₀.subids .uid),entriesIn (s₁.subids .uid)) : Except Exit _).toOption

private theorem twoRounds_eq : twoRounds = some ([⟨ascii "a",100000,65536⟩],[⟨ascii "a",100000,65536⟩,⟨ascii "a",165536,65536⟩]) := by
  decide +kernel

/-- A user that is named twice gets two ranges. -/
theorem one_user_gets_two_ranges : ∃ s, Newusers.openFiles plainNewusersEnv rootFiles = .ok s ∧
    ¬ Newusers.OnlyWithoutIds plainNewusersEnv rootFiles .uid s [newLine,newLine] := by
  have hrun : twoRounds.isSome := by rw [twoRounds_eq]; rfl
  have hentries := twoRounds_eq
  unfold twoRounds at hentries
  rcases hopen : Newusers.openFiles plainNewusersEnv rootFiles with _ | s
  · rw [hopen] at hentries
    cases hentries
  refine ⟨s,rfl,?_⟩
  rw [hopen] at hentries
  rcases hfirst : s.addLine plainNewusersEnv rootFiles newLine with _ | s₀
  · simp [hfirst,Bind.bind,Except.bind,Except.toOption] at hentries
  rcases hsecond : s₀.addLine plainNewusersEnv rootFiles newLine with _ | s₁
  · simp [hfirst,hsecond,Bind.bind,Except.bind,Except.toOption] at hentries
  simp only [hfirst,hsecond,Bind.bind,Except.bind,Pure.pure,Except.pure,Except.toOption,Option.some.injEq,Prod.mk.injEq] at hentries
  obtain ⟨hbefore,hafter⟩ := hentries
  obtain ⟨f,pw,s',hfields,hstore,_⟩ := Newusers.addLine_eq_ok hsecond
  have hsubids : s'.subids = s₀.subids := by simpa using Newusers.storeUser_subids hstore
  have hname : f.name = ascii "a" := by
    have hcomputed : (lineFields newLine).map LineFields.name = some (ascii "a") := by decide +kernel
    rw [hfields] at hcomputed
    exact Option.some.inj hcomputed
  have hline : Newusers.LineAt plainNewusersEnv rootFiles s [newLine,newLine] [newLine] f pw s' s₁ := by
    refine ⟨newLine,[],s₀,rfl,?_,hsecond,hfields,hstore⟩
    rw [Newusers.addLines,List.foldlM_cons,hfirst]
    rfl
  intro honly
  refine honly.without _ f pw s' s₁ hline ⟨⟨ascii "a",165536,65536⟩,?_⟩ ⟨⟨ascii "a",100000,65536⟩,?_,.inl hname.symm⟩
  · rw [hsubids,hbefore,hafter]
    exact List.Perm.swap _ _ _
  · rw [hsubids,hbefore]
    exact List.mem_singleton_self _

/-- Root has ids already, and comes before a new user. -/
def rootRanges : NewusersFiles := { rootFiles with subids := fun _ => some (ascii "root:100000:65536\n") }
def rootRange : SubordinateRange := ⟨ascii "root",100000,65536⟩
def rootLine : Bytes := ascii "root::0:0::/root:/bin/sh"
def newFields : LineFields := ⟨ascii "a",[],ascii "5000",ascii "5000",[],[],[]⟩

/-- The ranges at the start, behind the line for root and behind the one for the new user, and the accounts that stand there. -/
def rootThenNew : Option (List (List SubordinateRange) × List (Bytes × UInt32)) :=
  (do
    let s ← Newusers.openFiles plainNewusersEnv rootRanges
    let s₀ ← s.addLine plainNewusersEnv rootRanges rootLine
    let stored ← Newusers.storeUser plainNewusersEnv rootRanges { s₀ with line := s₀.line + 1 } newFields
    let s₂ ← s₀.addLine plainNewusersEnv rootRanges newLine
    return ([entriesIn (s.subids .uid),entriesIn (s₀.subids .uid),entriesIn (s₂.subids .uid)],
      (stored.1 :: entriesIn stored.2.passwd).map fun pw => (pw.name,pw.uid)) : Except Exit _).toOption

private theorem rootThenNew_run : ∃ s s₀ pw s₁ s₂, Newusers.openFiles plainNewusersEnv rootRanges = .ok s ∧
    s.addLine plainNewusersEnv rootRanges rootLine = .ok s₀ ∧ s₀.addLine plainNewusersEnv rootRanges newLine = .ok s₂ ∧
    Newusers.storeUser plainNewusersEnv rootRanges { s₀ with line := s₀.line + 1 } newFields = .ok (pw,s₁) ∧
    entriesIn (s.subids .uid) = [rootRange] ∧ entriesIn (s₀.subids .uid) = [rootRange] ∧
    (pw :: entriesIn s₁.passwd).map (fun pw => (pw.name,pw.uid)) = [(ascii "a",5000),(ascii "root",0),(ascii "a",5000)] ∧
    entriesIn (s₂.subids .uid) = [rootRange,⟨ascii "a",165536,65536⟩] := by
  have hcomputed : rootThenNew = some ([[rootRange],[rootRange],[rootRange,⟨ascii "a",165536,65536⟩]],
      [(ascii "a",5000),(ascii "root",0),(ascii "a",5000)]) := by decide +kernel
  unfold rootThenNew at hcomputed
  rcases hopen : Newusers.openFiles plainNewusersEnv rootRanges with _ | s
  · rw [hopen] at hcomputed
    cases hcomputed
  rw [hopen] at hcomputed
  rcases hroot : s.addLine plainNewusersEnv rootRanges rootLine with _ | s₀
  · simp [hroot,Bind.bind,Except.bind,Except.toOption] at hcomputed
  rcases hstore : Newusers.storeUser plainNewusersEnv rootRanges { s₀ with line := s₀.line + 1 } newFields with _ | ⟨pw,s₁⟩
  · simp [hroot,hstore,Bind.bind,Except.bind,Except.toOption] at hcomputed
  rcases hnew : s₀.addLine plainNewusersEnv rootRanges newLine with _ | s₂
  · simp [hroot,hstore,hnew,Bind.bind,Except.bind,Except.toOption] at hcomputed
  simp only [hroot,hstore,hnew,Bind.bind,Except.bind,Pure.pure,Except.pure,Except.toOption,Option.some.injEq,Prod.mk.injEq,
    List.cons.injEq] at hcomputed
  obtain ⟨⟨hstart,hbefore,hafter,_⟩,hnames⟩ := hcomputed
  exact ⟨s,s₀,pw,s₁,s₂,rfl,hroot,hnew,hstore,hstart,hbefore,by simpa using hnames,hafter⟩

/-- A line for a user with ids gives nothing to it, and one for a new user a range; a new user gets its range in both
programs. -/
theorem subids_only_without_ids_first :
    (∃ s s₂, Newusers.openFiles plainNewusersEnv rootRanges = .ok s ∧
      Newusers.addLines plainNewusersEnv rootRanges s [rootLine,newLine] = .ok s₂ ∧
      Recognized plainNewusersEnv.accounts (ascii "root") (entriesIn (s.subids .uid)) ∧
      entriesIn (s₂.subids .uid) = [rootRange,⟨ascii "a",165536,65536⟩] ∧
      Newusers.OnlyWithoutIds plainNewusersEnv rootRanges .uid s [rootLine,newLine]) ∧
      ∃ u u', Useradd.prepare plainUseraddEnv newUser rootFiles.passwd (fun _ => some []) = .ok u ∧
        Useradd.usrUpdate plainUseraddEnv newUser (fun _ => some []) u = .ok u' ∧ Appends (u.subids .uid) (u'.subids .uid) ∧
        ¬ HasIds (entriesIn u'.passwd) (ascii "a") u.userId (entriesIn (u.subids .uid)) := by
  constructor
  · obtain ⟨s,s₀,pw,s₁,s₂,hopen,hroot,hnew,hstore,hstart,hbefore,hnames,hafter⟩ := rootThenNew_run
    have hrun : Newusers.addLines plainNewusersEnv rootRanges s [rootLine,newLine] = .ok s₂ := by
      rw [Newusers.addLines,List.foldlM_cons,hroot]
      exact (congrArg (· >>= pure) hnew).trans (by rfl)
    have hrecognized : Recognized plainNewusersEnv.accounts (ascii "root") (entriesIn (s.subids .uid)) := by
      rw [hstart]
      exact ⟨rootRange,List.mem_singleton_self _,by decide +kernel⟩
    refine ⟨s,s₂,hopen,hrun,hrecognized,hafter,?_⟩
    refine ((subids_only_without_ids_iff _).1 _ _ _ s (accountsOf_consistent [rootEntry]) hopen).mpr ?_
    rintro done f pw' t₁ t₂ ⟨line,rest,t₀,hlines,hdone,_,hfields,hstored⟩ _ hids
    rcases done with _ | ⟨first,_ | ⟨second,done⟩⟩
    · -- the line for root
      obtain ⟨rfl,_⟩ := List.cons.inj hlines
      obtain rfl := Except.ok.inj (show Except.ok s = Except.ok t₀ from hdone)
      have hname : f.name = ascii "root" := by
        have hcomputed : (lineFields rootLine).map LineFields.name = some (ascii "root") := by decide +kernel
        rw [hfields] at hcomputed
        exact Option.some.inj hcomputed
      have hsubids : t₁.subids = s.subids := by simpa using Newusers.storeUser_subids hstored
      rw [hname,hsubids]
      exact .inl hrecognized
    · -- the line for the new user, who has no ids
      obtain ⟨rfl,hrest⟩ := List.cons.inj hlines
      obtain ⟨hnewLine,_⟩ := List.cons.inj hrest
      rw [Newusers.addLines,List.foldlM_cons,hroot] at hdone
      obtain rfl := Except.ok.inj (show Except.ok s₀ = Except.ok t₀ from hdone)
      have hline : lineFields newLine = some newFields := by rfl
      rw [← hnewLine,hline] at hfields
      obtain rfl := Option.some.inj hfields
      rw [hstore] at hstored
      obtain ⟨rfl,rfl⟩ := Prod.mk.inj (Except.ok.inj hstored)
      have hsubids : s₁.subids = s₀.subids := by simpa using Newusers.storeUser_subids hstore
      obtain ⟨hpw,hnames⟩ := List.cons.inj hnames
      obtain ⟨_,huid⟩ := Prod.mk.inj hpw
      obtain ⟨r,hr,howner⟩ := hids
      rw [hsubids,hbefore,List.mem_singleton] at hr
      rw [hr,huid] at howner
      rcases howner with hname | hnumber | ⟨pw',hpw',hname,hnumber⟩
      · exact absurd hname (by decide)
      · exact absurd hnumber (by decide +kernel)
      · have hmem : (pw'.name,pw'.uid) ∈ [(ascii "root",(0 : UInt32)),(ascii "a",5000)] := hnames ▸ List.mem_map_of_mem hpw'
        rw [hname,hnumber] at hmem
        exact absurd hmem (by decide)
    · simp at hlines
  · have hcomputed : useraddRanges .uid [] = some ([],[⟨ascii "a",100000,65536⟩]) := by decide +kernel
    obtain ⟨u,u',hprepare,hupdate,hbefore,hafter⟩ := useraddRanges_eq_some hcomputed
    have happends : Appends (u.subids .uid) (u'.subids .uid) := by
      refine ⟨⟨ascii "a",100000,65536⟩,?_⟩
      rw [hbefore,hafter]
    refine ⟨u,u',hprepare,hupdate,happends,?_⟩
    refine ((subids_only_without_ids_iff .uid).2 plainUseraddEnv newUser _ _ u u' hprepare hupdate).mpr ?_ happends
    intro _ hids
    rw [hbefore] at hids
    obtain ⟨r,hr,_⟩ := hids
    cases hr

end UserDb.Programs
