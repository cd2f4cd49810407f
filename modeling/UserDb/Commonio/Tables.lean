import UserDb.Commonio.GroupFile
import UserDb.Commonio.Passwd
import UserDb.Commonio.Shadow

/-! Databases in which no name stands twice, as finite tables from names to entries: each call
changes the table at one name, and closing stores the table. -/
namespace UserDb.Commonio
open UserDb.Base UserDb.Atoi

variable {α : Type}

/-- One kind of file, with what holds of the entries that are read from it (`Text`), and of an
entry and what it is read back as once it was written (`Same`). -/
structure Storage (α : Type) where
  ops : Ops α
  closeOps : CloseOps α
  Text : α → Prop
  Same : α → α → Prop
  entryLines : α → List Bytes
  parts : ops.NamesParts
  refl : ∀ a, Same a a
  read : ∀ r, IsRead ops r → ∀ a ∈ r.eptr, Text a
  writes : WritesLines closeOps Text (RereadsAs ops Same entryLines) entryLines

/-- No name has two records. -/
def UniqueNames (ops : Ops α) (rs : List (Record α)) : Prop := ∀ name, (named ops name rs).length ≤ 1

/-- An open database, and the file that it was read from. -/
structure Held (s : Storage α) (file : Option Bytes) (db : Db α) (l : List Nat) (stale : Bool) : Prop where
  loaded : Loaded s.ops db l stale
  isopen : db.isopen = true
  text : ∀ r ∈ l.map db.record, ∀ a ∈ r.eptr, s.Text a
  unchanged : db.changed = false → readFile s.ops file = some (l.map db.record)
  writable : db.changed = true → db.readonly = false

/-- An open database that holds the entries of a table. -/
structure Table (s : Storage α) (file : Option Bytes) (db : Db α) (l : List Nat) (stale : Bool)
    (t : Bytes → Option α) : Prop extends Held s file db l stale where
  unique : UniqueNames s.ops (l.map db.record)
  table : lookup s.ops (l.map db.record) = t

/-- A file with the entries of a table, or such that they are read as. -/
def Stores (s : Storage α) (t : Bytes → Option α) (file : Option Bytes) : Prop :=
  ∃ rs, readFile s.ops file = some rs ∧ UniqueNames s.ops rs ∧ ∀ name, Option.Rel s.Same (t name) (lookup s.ops rs name)

/-- In a file each name stands once. -/
def UniqueFile (ops : Ops α) (file : Option Bytes) : Prop := ∀ rs, readFile ops file = some rs → UniqueNames ops rs

/-- The entry of a name in a file. -/
def fileEntry (ops : Ops α) (file : Option Bytes) (name : Bytes) : Option α :=
  (readFile ops file).bind fun rs => lookup ops rs name

section Names
variable {ops : Ops α} {rs rs' : List (Record α)} {r : Record α} {name : Bytes} {a : α} {e : Edit α}

theorem mem_named : r ∈ named ops name rs ↔ r ∈ rs ∧ r.name ops = some name := by
  rw [named,List.mem_filter,beq_iff_eq]

private theorem length_named (rs : List (Record α)) : (named ops name rs).length = (rs.filterMap (Record.name ops)).count name := by
  induction rs with
  | nil => rfl
  | cons r rs ih =>
    rw [named,List.filter_cons]
    rw [named] at ih
    cases hr : r.name ops with
    | none => simpa [List.filterMap_cons,hr] using ih
    | some n =>
      by_cases hn : n = name
      · simp [hr,hn,ih]
      · simp [hr,hn,ih]

theorem uniqueNames_of_nodup (h : (rs.filterMap (Record.name ops)).Nodup) : UniqueNames ops rs := fun name => by
  rw [length_named]
  exact List.nodup_iff_count_le_one.mp h name

theorem uniqueFile_of_names {file : Option Bytes} (hread : readFile ops file = some rs)
    (hnodup : (rs.filterMap (Record.name ops)).Nodup) : UniqueFile ops file := by
  intro qs hqs
  obtain rfl := Option.some.inj (hread.symm.trans hqs)
  exact uniqueNames_of_nodup hnodup

theorem fileEntry_none (ops : Ops α) (name : Bytes) : fileEntry ops none name = none := by
  have hread : readFile ops none = some [] := congrArg some merged_nil
  rw [fileEntry,hread]
  rfl

/-- The record of a name is the only one. -/
theorem UniqueNames.named_eq (h : UniqueNames ops rs) (hr : r ∈ rs) (hname : r.name ops = some name) :
    named ops name rs = [r] := by
  have hm : r ∈ named ops name rs := mem_named.mpr ⟨hr,hname⟩
  obtain ⟨q,hq⟩ := List.length_eq_one_iff.mp (Nat.le_antisymm (h name) (List.length_pos_of_mem hm))
  rw [hq,List.mem_singleton] at hm
  rw [hq,hm]

theorem UniqueNames.lookup (h : UniqueNames ops rs) (hr : r ∈ rs) (ha : r.eptr = some a) :
    lookup ops rs (ops.getname a) = some a := by
  have hname : r.name ops = some (ops.getname a) := by rw [Record.name,ha,Option.map_some]
  rw [lookup_eq,h.named_eq hr hname,List.head?_cons,Option.bind_some,ha]

theorem lookup_eq_none : lookup ops rs name = none ↔ named ops name rs = [] := by
  constructor
  · intro h
    by_contra hne
    obtain ⟨r,qs,hq⟩ := List.exists_cons_of_ne_nil hne
    obtain ⟨_,hname⟩ := mem_named.mp (hq ▸ List.mem_cons_self : r ∈ named ops name rs)
    obtain ⟨a,ha,_⟩ := Option.map_eq_some_iff.mp hname
    rw [lookup_eq,hq,List.head?_cons,Option.bind_some,ha] at h
    cases h
  · intro h
    rw [lookup_eq,h]
    rfl

/-- What an edit leaves under its name. -/
def Edit.stored : Edit α → Option α
  | .update a => some a
  | .remove _ => none

theorem EditStep.named_ne (he : EditStep ops rs e rs') (hne : name ≠ e.name ops) :
    Commonio.named ops name rs' = Commonio.named ops name rs := by
  obtain ⟨xs,old,new,ys,rfl,rfl,hold,_,hnew,_⟩ := he.cases
  have hdrop : ∀ qs : List (Record α), (∀ q ∈ qs, q.name ops = some (e.name ops)) → Commonio.named ops name qs = [] :=
    fun qs hqs => named_of_ne fun q hq heq => hne (Option.some.inj (heq.symm.trans (hqs q hq)))
  have hnew' : ∀ q ∈ new, q.name ops = some (e.name ops) := fun q hq => by
    obtain ⟨_,a,rfl,ha⟩ := hnew q hq
    rw [Record.name,ha]
    rfl
  rw [named_append,named_append,named_append,named_append,hdrop old hold,hdrop new hnew']

theorem EditStep.named_self (he : EditStep ops rs e rs') :
    ∃ new, Commonio.named ops (e.name ops) rs' = new ∧ new.length ≤ 1 ∧ new.head?.bind Record.eptr = e.stored := by
  obtain ⟨xs,old,new,ys,rfl,rfl,_,hne,hnew,hupdate,hremove⟩ := he.cases
  have hxs := named_of_ne fun q hq => hne q (List.mem_append_left ys hq)
  have hys := named_of_ne fun q hq => hne q (List.mem_append_right xs hq)
  have hself : Commonio.named ops (e.name ops) new = new := named_of_eq fun q hq => by
    obtain ⟨_,a,rfl,ha⟩ := hnew q hq
    rw [Record.name,ha]
    rfl
  refine ⟨new,?_,?_⟩
  · rw [named_append,named_append,hxs,hys,hself,List.nil_append,List.append_nil]
  · cases e with
    | update a =>
      obtain ⟨r,rfl⟩ := hupdate a rfl
      obtain ⟨_,a',heq,ha⟩ := hnew r List.mem_cons_self
      cases heq
      exact ⟨le_rfl,ha⟩
    | remove name =>
      rw [hremove name rfl]
      exact ⟨Nat.zero_le 1,rfl⟩

/-- An edit changes what is found under one name. -/
theorem EditStep.lookup (he : EditStep ops rs e rs') :
    lookup ops rs' = Function.update (lookup ops rs) (e.name ops) e.stored := by
  funext name
  by_cases hname : name = e.name ops
  · obtain ⟨new,hnew,_,hhead⟩ := he.named_self
    rw [hname,Function.update_self,lookup_eq,hnew,hhead]
  · rw [Function.update_of_ne hname,lookup_eq,lookup_eq,he.named_ne hname]

theorem EditStep.unique (he : EditStep ops rs e rs') (h : UniqueNames ops rs) : UniqueNames ops rs' := by
  intro name
  by_cases hname : name = e.name ops
  · obtain ⟨new,hnew,hlen,_⟩ := he.named_self
    rw [hname,hnew]
    exact hlen
  · rw [he.named_ne hname]
    exact h name

theorem EditStep.entry_mem (he : EditStep ops rs e rs') (hr : r ∈ rs') (ha : r.eptr = some a) : r ∈ rs ∨ e = .update a := by
  obtain ⟨xs,old,new,ys,rfl,rfl,_,_,hnew,_⟩ := he.cases
  simp only [List.mem_append] at hr ⊢
  rcases hr with (hr | hr) | hr
  · exact .inl (.inl (.inl hr))
  · obtain ⟨_,a',rfl,ha'⟩ := hnew r hr
    cases ha.symm.trans ha'
    exact .inr rfl
  · exact .inl (.inr hr)

end Names

section Calls
variable {s : Storage α} {file : Option Bytes} {db db' : Db α} {l : List Nat} {stale : Bool} {t : Bytes → Option α}

/-- Opening a file for the first time. -/
theorem commonioOpen_held {db₀ : Db α} {access : AccessMode} {create memory : Bool}
    (h : commonioOpen s.ops db₀ access create (fileState file) memory = (true,db)) :
    ∃ l stale, Held s file db l stale ∧ readFile s.ops file = some (l.map db.record) ∧ db.changed = false ∧
      (s.ops.openHook = none → stale = false) := by
  obtain ⟨l,stale,hread,hloaded,hisopen,hstale⟩ := commonioOpen_loaded s.parts h
  have hch : db.changed = false := congrArg Prod.fst (commonioOpen_flags h)
  refine ⟨l,stale,⟨hloaded,hisopen,fun r hr => s.read r (readFile_isRead s.parts hread r hr).1,fun _ => hread,fun h => ?_⟩,
    hread,hch,hstale⟩
  rw [hch] at h
  cases h

theorem Held.withCursor (h : Held s file db l stale) {c : Option Nat} (hc : ∀ p, c = some p → p ∈ l) :
    Held s file { db with cursor := c } l stale :=
  ⟨h.loaded.congr (h.loaded.rep.withCursor hc) rfl,h.isopen,h.text,h.unchanged,h.writable⟩

theorem Table.withCursor (h : Table s file db l stale t) {c : Option Nat} (hc : ∀ p, c = some p → p ∈ l) :
    Table s file { db with cursor := c } l stale t :=
  ⟨h.toHeld.withCursor hc,h.unique,h.table⟩

theorem Held.locate (h : Held s file db l stale) (name : Bytes) :
    (commonioLocate s.ops db name).1 = lookup s.ops (l.map db.record) name ∧
      ∃ c, (commonioLocate s.ops db name).2 = { db with cursor := c } ∧ ∀ p, c = some p → p ∈ l := by
  refine ⟨h.loaded.locate h.isopen name,?_⟩
  have hrep : Rep (commonioLocate s.ops db name).2 l stale := h.loaded.rep.commonioLocate name
  obtain ⟨c,hc⟩ : ∃ c, (commonioLocate s.ops db name).2 = { db with cursor := c } := commonioLocate_db db name
  refine ⟨c,hc,fun p hp => ?_⟩
  have hcursor := hrep.cursor p
  rw [hc] at hcursor
  exact hcursor hp

theorem Table.located (h : Table s file db l stale t) (name : Bytes) :
    (commonioLocate s.ops db name).1 = t name ∧ Table s file (commonioLocate s.ops db name).2 l stale t := by
  obtain ⟨hfound,c,hdb,hc⟩ := h.toHeld.locate name
  refine ⟨hfound.trans (congrFun h.table name),?_⟩
  rw [hdb]
  exact h.withCursor hc

theorem Held.rewind (h : Held s file db l stale) : commonioRewind db = (true,{ db with cursor := none }) := by
  rw [commonioRewind,h.isopen]
  rfl

/-- An edit that succeeds, where the tail is in the list. -/
theorem Held.edit (h : Held s file db l stale) {e : Edit α} (hrun : db.edit s.ops e = (true,db'))
    (hlinked : EditIsLinked s.ops db e) (htext : ∀ a, e = .update a → s.Text a) :
    ∃ l' stale', Held s file db' l' stale' ∧ (stale = false → stale' = false) ∧
      EditStep s.ops (l.map db.record) e (l'.map db'.record) ∧ db'.changed = true := by
  obtain ⟨l',stale',hloaded,hstale,hstep,hch⟩ := h.loaded.edit hrun hlinked
  obtain ⟨hisopen,hwrite⟩ := edit_flags hrun
  refine ⟨l',stale',⟨hloaded,hisopen,fun r hr a ha => ?_,fun hf => ?_,fun _ => hwrite⟩,hstale,hstep,hch⟩
  · rcases hstep.entry_mem hr ha with hr | he
    · exact h.text r hr a ha
    · exact htext a he
  · rw [hch] at hf
    cases hf

theorem Table.edit (h : Table s file db l stale t) {e : Edit α} (hrun : db.edit s.ops e = (true,db'))
    (hlinked : EditIsLinked s.ops db e) (htext : ∀ a, e = .update a → s.Text a) :
    ∃ l' stale', Table s file db' l' stale' (Function.update t (e.name s.ops) e.stored) ∧ (stale = false → stale' = false) ∧
      db'.changed = true := by
  obtain ⟨l',stale',hheld,hstale,hstep,hch⟩ := h.toHeld.edit hrun hlinked htext
  exact ⟨l',stale',⟨hheld,hstep.unique h.unique,by rw [hstep.lookup,h.table]⟩,hstale,hch⟩

/-- Removing an entry takes one address from the list. -/
theorem Table.remove (h : Table s file db l false t) {name : Bytes} (hrun : commonioRemove s.ops db name = (true,db')) :
    ∃ l', Table s file db' l' false (Function.update t name none) ∧ l.length = l'.length + 1 := by
  rcases commonioRemove_cases h.loaded.rep name hrun with ⟨hf,_⟩ | ⟨_,_,xs,p,ys,hl,_,_,hrep,_⟩
  · cases hf
  · have hedit : db.edit s.ops (.remove name) = (true,db') := hrun
    obtain ⟨l',stale',htable,hstale,_⟩ := h.edit hedit trivial nofun
    obtain rfl := hstale rfl
    have hsame : l' = xs ++ ys := htable.loaded.rep.from_head.symm.trans hrep.from_head
    refine ⟨l',htable,?_⟩
    rw [hl,hsame]
    simp only [List.length_append,List.length_cons]
    omega

theorem Table.update (h : Table s file db l false t) {a : α} {memory : Bool}
    (hrun : commonioUpdate s.ops db a memory = (true,db')) (htext : s.Text a) :
    ∃ l', Table s file db' l' false (Function.update t (s.ops.getname a) (some a)) := by
  obtain ⟨l',stale',htable,hstale,_⟩ := h.edit (edit_of_update hrun) (h.loaded.rep.editIsLinked _) fun b hb => by
    cases hb
    exact htext
  obtain rfl := hstale rfl
  exact ⟨l',htable⟩

/-- What is found has the name, and is an entry of the file or one that was stored. -/
theorem Table.found (h : Table s file db l stale t) {name : Bytes} {a : α} (ha : t name = some a) :
    s.ops.getname a = name ∧ s.Text a := by
  rw [← h.table] at ha
  obtain ⟨r,hr,hra,hname⟩ := lookup_eq_some ha
  exact ⟨hname,h.text r hr a hra⟩

/-- The entry at an address is the one under its name. -/
theorem Table.entry (h : Table s file db l stale t) {p : Nat} (hp : p ∈ l) {a : α} (ha : (db.record p).eptr = some a) :
    t (s.ops.getname a) = some a := by
  rw [← h.table]
  exact h.unique.lookup (List.mem_map_of_mem hp) ha

/-- A name stands at one address only. -/
theorem Table.address (h : Table s file db l stale t) {p q : Nat} {name : Bytes} (hp : p ∈ l) (hq : q ∈ l)
    (hpn : (db.record p).name s.ops = some name) (hqn : (db.record q).name s.ops = some name) : p = q := by
  have hlen : (l.filter fun p => (db.record p).name s.ops == some name).length ≤ 1 := by
    have hunique := h.unique name
    rwa [named,List.filter_map,List.length_map] at hunique
  have hp' : p ∈ l.filter fun p => (db.record p).name s.ops == some name := List.mem_filter.mpr ⟨hp,by simp [hpn]⟩
  have hq' : q ∈ l.filter fun p => (db.record p).name s.ops == some name := List.mem_filter.mpr ⟨hq,by simp [hqn]⟩
  obtain ⟨x,hx⟩ := List.length_eq_one_iff.mp (Nat.le_antisymm hlen (List.length_pos_of_mem hp'))
  rw [hx,List.mem_singleton] at hp' hq'
  rw [hp',hq']

theorem commonioUpdate_cursor {ops : Ops α} {a : α} {memory : Bool} {p : Nat}
    (hrun : commonioUpdate ops db a memory = (true,db')) (hp : db.findEntryByName ops (ops.getname a) = some p) :
    db'.cursor = some p := by
  unfold commonioUpdate at hrun
  split at hrun
  · cases hrun
  · rw [hp] at hrun
    simp only at hrun
    split at hrun
    · cases hrun
    · cases hrun
      rfl

/-- Storing an entry in the place of one of its name: the list stays, with the cursor there. -/
theorem Table.update_at (h : Table s file db l stale t) {p : Nat} {a a' : α} {memory : Bool} (hp : p ∈ l)
    (ha : (db.record p).eptr = some a) (hname : s.ops.getname a' = s.ops.getname a) (htext : s.Text a')
    (hrun : commonioUpdate s.ops db a' memory = (true,db')) :
    Table s file db' l stale (Function.update t (s.ops.getname a) (some a')) ∧ db'.cursor = some p ∧
      db'.record = Function.update db.record p (editedRecord (db.record p).line a') := by
  have hpname : (db.record p).name s.ops = some (s.ops.getname a') := by rw [Record.name,ha,Option.map_some,hname]
  rcases commonioUpdate_cases h.loaded.rep a' memory hrun with
    ⟨hf,_⟩ | ⟨_,_,xs,q,ys,hl,_,hne,hrep,hrec⟩ | ⟨_,_,hne,_⟩
  · cases hf
  · have hpq : p = q := by
      rw [hl] at hp
      by_contra hpq
      have hm : p ∈ xs ++ ys := by
        rcases List.mem_append.mp hp with hx | hx
        · exact List.mem_append_left ys hx
        · exact List.mem_append_right xs (List.mem_of_ne_of_mem hpq hx)
      exact hne p hm hpname
    subst hpq
    have hfind : db.findEntryByName s.ops (s.ops.getname a') = some p := by
      rw [h.loaded.rep.findEntryByName,hl,List.find?_append,List.find?_eq_none.mpr,Option.none_or,List.find?_cons,hpname,
        BEq.rfl]
      exact fun q hq => by simpa using hne q (List.mem_append_left ys hq)
    have hedit := edit_of_update hrun
    obtain ⟨l',stale',htable,_,_⟩ := h.edit hedit (.inl (by rw [hfind]; rfl)) fun b hb => by
      cases hb
      exact htext
    have hsame : l' = l := htable.loaded.rep.from_head.symm.trans hrep.from_head
    subst hsame
    have hself : (Edit.update a').name s.ops = s.ops.getname a := hname
    rw [hself] at htable
    exact ⟨⟨⟨⟨hrep,htable.loaded.read,htable.loaded.stored⟩,htable.isopen,htable.text,htable.unchanged,htable.writable⟩,
      htable.unique,htable.table⟩,commonioUpdate_cursor hrun hfind,hrec⟩
  · exact absurd hpname (hne p hp)

end Calls

section Closing
variable {s : Storage α} {file : Option Bytes} {db : Db α} {l : List Nat} {stale : Bool} {t : Bytes → Option α}
  {selinux : Bool} {steps : CloseSteps} {old : Option Bytes} {disk : Disk}

theorem commonioClose_unchanged (closeOps : CloseOps α) (hch : db.changed = false) :
    (commonioClose selinux closeOps steps db old disk).2.2 = disk := by
  unfold commonioClose
  simp only [hch,Bool.not_false,Bool.true_or,if_true]
  split <;> rfl

/-- Closing leaves the file, or puts the lines of the records there. -/
theorem Held.close (h : Held s file db l stale) :
    (((commonioClose selinux s.closeOps steps db old disk).1 = true → db.changed = false) ∧
      (commonioClose selinux s.closeOps steps db old disk).2.2.file = disk.file) ∨
    diskLines (commonioClose selinux s.closeOps steps db old disk).2.2.file =
        some ((l.map db.record).flatMap (writtenLines s.entryLines)) ∧
      ∀ r ∈ l.map db.record, r.changed = true → ∃ a, r.eptr = some a ∧ RereadsAs s.ops s.Same s.entryLines a := by
  cases hch : db.changed with
  | false => exact .inl ⟨fun _ => rfl,by rw [commonioClose_unchanged s.closeOps hch]⟩
  | true =>
    rcases commonioClose_cases selinux s.closeOps steps db old disk h.isopen hch (h.writable hch) with
      ⟨hf,hfile⟩ | ⟨db₁,bytes,hhook,hall,_,hdisk⟩
    · exact .inl ⟨fun hok => absurd (hf.symm.trans hok) Bool.false_ne_true,hfile⟩
    · have hholds : Db.Holds { db with isopen := false } (l.map db.record) := Db.Holds.withClosed ⟨l,stale,h.loaded.rep,rfl⟩
      obtain ⟨hbytes,hgood⟩ := s.writes _ _ _ _ _ hholds (fun r hr _ a ha => h.text r hr a ha) hhook hall
      refine .inr ⟨?_,fun r hr hch => ?_⟩
      · rw [hdisk,hbytes]
        exact h.loaded.diskLines_written fun r hr hch a ha => (hgood r hr hch a ha).2
      · obtain ⟨a,ha⟩ := Option.isSome_iff_exists.mp (h.loaded.stored r hr hch)
        exact ⟨a,ha,(hgood r hr hch a ha).1⟩

theorem Storage.rel_refl (s : Storage α) (a : Option α) : Option.Rel s.Same a a := by
  cases a with
  | none => exact .none
  | some a => exact .some (s.refl a)

theorem Stores.of_read (h : UniqueNames s.ops (l.map db.record)) (hread : readFile s.ops file = some (l.map db.record)) :
    Stores s (lookup s.ops (l.map db.record)) file :=
  ⟨_,hread,h,fun _ => s.rel_refl _⟩

theorem Stores.entry (h : Stores s t file) (name : Bytes) : Option.Rel s.Same (t name) (fileEntry s.ops file name) := by
  obtain ⟨rs,hrs,_,hrel⟩ := h
  rw [fileEntry,hrs]
  exact hrel name

/-- The file of the lines of records has a record where they have one. -/
theorem Stores.of_written {rs : List (Record α)} (h : UniqueNames s.ops rs)
    (hread : ∀ r ∈ rs, r.changed = false → IsRead s.ops r)
    (hstored : ∀ r ∈ rs, r.changed = true → ∃ a, r.eptr = some a ∧ RereadsAs s.ops s.Same s.entryLines a)
    (hlines : diskLines file = some (rs.flatMap (writtenLines s.entryLines))) : Stores s (lookup s.ops rs) file := by
  refine ⟨_,by rw [readFile,hlines]; rfl,fun name => ?_,fun name => ?_⟩
  all_goals rcases hname : named s.ops name rs with _ | ⟨r,rest⟩
  · rw [named_written_none s.parts hread hstored hname]
    exact Nat.zero_le 1
  · obtain ⟨hr,hrname⟩ := mem_named.mp (hname ▸ List.mem_cons_self : r ∈ named s.ops name rs)
    obtain ⟨a,ha,_⟩ := Option.map_eq_some_iff.mp hrname
    obtain ⟨r',b,hr',_,_,_⟩ := named_written_single s.parts s.refl hread hstored (h.named_eq hr hrname) ha
    rw [hr']
    exact le_rfl
  · rw [lookup_eq_none.mpr hname,lookup_eq_none.mpr (named_written_none s.parts hread hstored hname)]
    exact .none
  · obtain ⟨hr,hrname⟩ := mem_named.mp (hname ▸ List.mem_cons_self : r ∈ named s.ops name rs)
    obtain ⟨a,ha,_⟩ := Option.map_eq_some_iff.mp hrname
    obtain ⟨r',b,hr',hb,hsame,_⟩ := named_written_single s.parts s.refl hread hstored (h.named_eq hr hrname) ha
    rw [lookup_eq,lookup_eq,h.named_eq hr hrname,hr',List.head?_cons,List.head?_cons,Option.bind_some,Option.bind_some,ha,hb]
    exact .some hsame

/-- Closing fails and leaves the file as it is, or the table is stored. -/
theorem Table.close (h : Table s disk.file db l stale t) :
    ((commonioClose selinux s.closeOps steps db old disk).1 = false ∧
      (commonioClose selinux s.closeOps steps db old disk).2.2.file = disk.file) ∨
    Stores s t (commonioClose selinux s.closeOps steps db old disk).2.2.file := by
  rw [← h.table]
  rcases h.toHeld.close with
    ⟨hch,hfile⟩ | ⟨hlines,hstored⟩
  · cases hok : (commonioClose selinux s.closeOps steps db old disk).1 with
    | false => exact .inl ⟨rfl,hfile⟩
    | true =>
      rw [hfile]
      exact .inr (Stores.of_read h.unique (h.unchanged (hch hok)))
  · exact .inr (Stores.of_written h.unique h.loaded.read hstored hlines)

end Closing

end UserDb.Commonio
