import UserDb.Programs.Setup
import UserDb.Commonio.Kept

/-! The walk through a database that `pwck` and `grpck` make: entries that did not parse and
doubled entries are deleted under way, and each that stays is looked at once. -/
namespace UserDb.Programs
open UserDb.Base UserDb.Commonio

/-- A walk through `db`; the other database is part of `rest`. -/
structure Walk (α σ : Type) where
  db : Db α
  rest : σ
  changed : Bool
  questions : Nat

namespace Walk
variable {α σ : Type} (answers : Nat → Bool) (ops : Ops α)

def ask (w : Walk α σ) : Bool × Walk α σ := (answers w.questions,{ w with questions := w.questions + 1 })

/-- One question for each of `n` other entries of a name, until the answer is yes. -/
def askEach : Nat → Walk α σ → Bool × Walk α σ
  | 0, w => (false,w)
  | n + 1, w =>
    let (yes,w) := w.ask answers
    if yes then (true,w) else askEach n w

def delete (w : Walk α σ) (p : Nat) : Walk α σ := { w with db := commonioDelEntry w.db p, changed := true }

/-- The other entries of a name. -/
def others (w : Walk α σ) (p : Nat) (name : Bytes) : List Nat :=
  (w.db.from w.db.head).filter fun q => q != p && (w.db.record q).name ops == some name

/-- One round of the walk. -/
def checkEntry (skip : Record α → Bool) (body : Nat → α → Walk α σ → Except (Exit × Nat) (Walk α σ)) (p : Nat) (w : Walk α σ) :
    Except (Exit × Nat) (Walk α σ) :=
  if skip (w.db.record p) then .ok w
  else
    match (w.db.record p).eptr with
    | none =>
      let (yes,w) := w.ask answers
      .ok (if yes then w.delete p else w)
    | some a =>
      let (yes,w) := w.askEach answers (w.others ops p (ops.getname a)).length
      if yes then .ok (w.delete p) else body p a w

/-- The walk goes on from an entry through its own link, also where the entry was deleted. An
error comes with the number of questions that were asked. -/
def checkFrom (skip : Record α → Bool) (body : Nat → α → Walk α σ → Except (Exit × Nat) (Walk α σ)) :
    Nat → Option Nat → Walk α σ → Except (Exit × Nat) (Walk α σ)
  | _, none, w => .ok w
  | 0, some _, w => .error (.endless,w.questions)
  | fuel + 1, some p, w =>
    match w.checkEntry answers ops skip body p with
    | .error e => .error e
    | .ok w => checkFrom skip body fuel (w.db.nextOf p) w

/-- The whole walk. -/
def checkAll (skip : Record α → Bool) (body : Nat → α → Walk α σ → Except (Exit × Nat) (Walk α σ)) (w : Walk α σ) :
    Except (Exit × Nat) (Walk α σ) :=
  w.checkFrom answers ops skip body w.db.fresh w.db.head

end Walk

/-- An entry that no other one shares its name with. -/
def Alone {α : Type} (ops : Ops α) (db : Db α) (l : List Nat) (q : Nat) : Prop :=
  ∃ a, (db.record q).eptr = some a ∧ ∀ q' ∈ l, q' ≠ q → (db.record q').name ops ≠ some (ops.getname a)

/-- An entry that is alone does not share its name with one that stands elsewhere. -/
theorem Alone.name_ne {α : Type} {ops : Ops α} {db : Db α} {l : List Nat} {p q : Nat} (h : Alone ops db l q) (hp : p ∈ l) (hne : p ≠ q) :
    (db.record p).name ops ≠ (db.record q).name ops := by
  obtain ⟨a,ha,halone⟩ := h
  have hname : (db.record q).name ops = some (ops.getname a) := by rw [Record.name,ha,Option.map_some]
  rw [hname]
  exact halone p hp hne

section Repair
variable {α σ : Type} {answers : Nat → Bool} {ops : Ops α} {skip : Record α → Bool}
  {body : Nat → α → Walk α σ → Except (Exit × Nat) (Walk α σ)} {H : Db α → List Nat → Prop} {J : σ → Bool → Prop}
  {Start : Record α → Prop} {Done : σ → Record α → Prop}

/-- What is known of a database (`H`) and of the rest (`J`) during a walk, of the entries before
they are looked at (`Start`) and after it (`Done`), and that a round keeps all of it. Of two entries of a name
the one further up goes. -/
structure Repairs (ops : Ops α) (skip : Record α → Bool) (body : Nat → α → Walk α σ → Except (Exit × Nat) (Walk α σ))
    (H : Db α → List Nat → Prop) (J : σ → Bool → Prop) (Start : Record α → Prop) (Done : σ → Record α → Prop) : Prop where
  rep : ∀ db l, H db l → Rep db l false
  skipped : ∀ db l, H db l → ∀ q ∈ l, skip (db.record q) = true → (db.record q).eptr = none ∨ Alone ops db l q
  delete : ∀ db xs p ys, H db (xs ++ p :: ys) →
    ((db.record p).eptr = none ∨ ∃ q ∈ ys, (db.record q).name ops = (db.record p).name ops) →
    H (commonioDelEntry db p) (xs ++ ys)
  keeps : ∀ ρ c, J ρ c → J ρ true
  round : ∀ (w : Walk α σ) p xs ys a, H w.db (xs ++ p :: ys) → J w.rest w.changed →
    (w.db.changed = true → w.changed = true) → Start (w.db.record p) → (w.db.record p).eptr = some a →
    skip (w.db.record p) = false → (∀ q ∈ xs ++ ys, (w.db.record q).name ops ≠ some (ops.getname a)) →
    (∃ code n, 0 < code ∧ body p a w = .error (.status code,n)) ∨
    ∃ w', body p a w = .ok w' ∧ J w'.rest w'.changed ∧ (w'.db.changed = true → w'.changed = true) ∧
      (∀ r, Done w.rest r → Done w'.rest r) ∧
      ((w'.db = commonioDelEntry w.db p ∧ H w'.db (xs ++ ys)) ∨
        (H w'.db (xs ++ p :: ys) ∧ (∀ q, q ≠ p → w'.db.record q = w.db.record q) ∧
          (w'.db.record p).name ops = some (ops.getname a) ∧ Done w'.rest (w'.db.record p)))

/-- An entry that the walk left behind: one that it skips, or one that is alone under its name. -/
def Settled (ops : Ops α) (skip : Record α → Bool) (Start : Record α → Prop) (Done : σ → Record α → Prop) (w : Walk α σ)
    (l : List Nat) (q : Nat) : Prop :=
  (skip (w.db.record q) = true ∧ Start (w.db.record q)) ∨
    ∃ a, (w.db.record q).eptr = some a ∧ Done w.rest (w.db.record q) ∧
      ∀ q' ∈ l, q' ≠ q → (w.db.record q').name ops ≠ some (ops.getname a)

/-- Entries stay settled where other entries keep their names or go. -/
theorem Settled.mono {w w' : Walk α σ} {l l' : List Nat} {q : Nat} (h : Settled ops skip Start Done w l q)
    (hrecord : w'.db.record q = w.db.record q) (hdone : ∀ r, Done w.rest r → Done w'.rest r) (hsub : ∀ q' ∈ l', q' ∈ l)
    (hnames : ∀ q' ∈ l', (w'.db.record q').name ops = (w.db.record q').name ops) : Settled ops skip Start Done w' l' q := by
  unfold Settled
  rw [hrecord]
  rcases h with h | ⟨a,ha,hd,hother⟩
  · exact .inl h
  · refine .inr ⟨a,ha,hdone _ hd,fun q' hq' hne => ?_⟩
    rw [hnames q' hq']
    exact hother q' (hsub q' hq') hne

/-- No other entry has the name of a settled one. -/
theorem Settled.name_ne {w : Walk α σ} {l : List Nat} {p q : Nat} (h : Settled ops skip Start Done w l q)
    (hskipped : skip (w.db.record q) = true → (w.db.record q).eptr = none ∨ Alone ops w.db l q) (hp : p ∈ l) (hne : p ≠ q)
    (hname : (w.db.record p).name ops ≠ none) : (w.db.record p).name ops ≠ (w.db.record q).name ops := by
  rcases h with ⟨hskip,_⟩ | ⟨a,ha,_,halone⟩
  · rcases hskipped hskip with hnone | halone
    · have hnoname : (w.db.record q).name ops = none := by
        rw [Record.name,hnone]
        rfl
      rw [hnoname]
      exact hname
    · exact halone.name_ne hp hne
  · exact Alone.name_ne ⟨a,ha,halone⟩ hp hne

private theorem askEach_yes (hyes : ∀ n, answers n = true) {n : Nat} (hn : n ≠ 0) (w : Walk α σ) :
    w.askEach answers n = (true,{ w with questions := w.questions + 1 }) := by
  obtain ⟨m,rfl⟩ := Nat.exists_eq_succ_of_ne_zero hn
  rw [Walk.askEach,Walk.ask,hyes]
  rfl

/-- A walk where every answer is yes ends, and leaves settled entries only. -/
theorem checkFrom_repairs (h : Repairs ops skip body H J Start Done) (hyes : ∀ n, answers n = true) {fuel : Nat}
    {w : Walk α σ} {xs ys : List Nat} (hdb : H w.db (xs ++ ys)) (hrest : J w.rest w.changed)
    (hchanged : w.db.changed = true → w.changed = true) (hstart : ∀ q ∈ ys, Start (w.db.record q))
    (hxs : ∀ q ∈ xs, Settled ops skip Start Done w (xs ++ ys) q) (hfuel : ys.length ≤ fuel) :
    (∃ code n, 0 < code ∧ w.checkFrom answers ops skip body fuel ys.head? = .error (.status code,n)) ∨
    ∃ w' l, w.checkFrom answers ops skip body fuel ys.head? = .ok w' ∧ H w'.db l ∧ J w'.rest w'.changed ∧
      (w'.db.changed = true → w'.changed = true) ∧ ∀ q ∈ l, Settled ops skip Start Done w' l q := by
  induction ys generalizing w xs fuel with
  | nil =>
    rw [List.append_nil] at hdb hxs
    exact .inr ⟨w,xs,by rw [List.head?_nil,Walk.checkFrom],hdb,hrest,hchanged,hxs⟩
  | cons p vs ih =>
    obtain ⟨fuel,rfl⟩ := Nat.exists_eq_succ_of_ne_zero (Nat.pos_iff_ne_zero.mp (Nat.lt_of_lt_of_le (Nat.succ_pos vs.length) hfuel))
    have hlen : vs.length ≤ fuel := by simpa using hfuel
    have hrep := h.rep _ _ hdb
    have hnodup := hrep.nodup
    have hp : p ∉ xs ++ vs := (List.nodup_cons.mp (List.nodup_middle.mp hnodup)).1
    have hnext : w.db.nextOf p = vs.head? := by rw [hrep.linked.next_eq,Option.or_none]
    have hlist : xs ++ p :: vs = (xs ++ [p]) ++ vs := by simp
    have hsub : ∀ q ∈ xs ++ vs, q ∈ xs ++ p :: vs := fun q hq => List.perm_middle.mem_iff.mpr (List.mem_cons_of_mem p hq)
    -- the walk goes on behind an entry that was deleted
    have hdeleted : ∀ w' : Walk α σ, w'.db = commonioDelEntry w.db p → H w'.db (xs ++ vs) → J w'.rest w'.changed →
        (w'.db.changed = true → w'.changed = true) → (∀ r, Done w.rest r → Done w'.rest r) →
        (∃ code n, 0 < code ∧ w'.checkFrom answers ops skip body fuel (w'.db.nextOf p) = .error (.status code,n)) ∨
        ∃ w'' l, w'.checkFrom answers ops skip body fuel (w'.db.nextOf p) = .ok w'' ∧ H w''.db l ∧ J w''.rest w''.changed ∧
          (w''.db.changed = true → w''.changed = true) ∧ ∀ q ∈ l, Settled ops skip Start Done w'' l q := by
      intro w' hw' hH hJ hch hdone
      have hrecord : w'.db.record = w.db.record := by rw [hw',record_commonioDelEntry]
      have hnext' : w'.db.nextOf p = vs.head? := by
        rw [hw',nextOf_commonioDelEntry hrep.toCore fun hx => hp (List.mem_append_left vs hx),hnext]
      rw [hnext']
      refine ih hH hJ hch (fun q hq => ?_) (fun q hq => ?_) hlen
      · rw [hrecord]
        exact hstart q (List.mem_cons_of_mem p hq)
      · exact (hxs q hq).mono (by rw [hrecord]) hdone hsub fun q' _ => by rw [hrecord]
    rw [List.head?_cons,Walk.checkFrom,Walk.checkEntry]
    by_cases hskip : skip (w.db.record p) = true
    · simp only [hskip,if_true,hnext]
      refine ih (hlist ▸ hdb) hrest hchanged (fun q hq => hstart q (List.mem_cons_of_mem p hq)) (fun q hq => ?_) hlen
      rw [← hlist]
      rcases List.mem_append.mp hq with hq | hq
      · exact hxs q hq
      · rw [List.mem_singleton.mp hq]
        exact .inl ⟨hskip,hstart p List.mem_cons_self⟩
    · rw [if_neg hskip]
      cases heptr : (w.db.record p).eptr with
      | none =>
        simp only [Walk.ask,hyes,if_true]
        exact hdeleted _ rfl (h.delete _ _ _ _ hdb (.inl heptr)) (h.keeps _ _ hrest) (fun _ => rfl) fun _ => id
      | some a =>
        simp only
        by_cases hothers : (w.others ops p (ops.getname a)).length = 0
        · -- the entry is alone under its name
          have hunique : ∀ q ∈ xs ++ vs, (w.db.record q).name ops ≠ some (ops.getname a) := fun q hq hname => by
            have hin : q ∈ w.others ops p (ops.getname a) := by
              refine List.mem_filter.mpr ⟨by rw [hrep.from_head]; exact hsub q hq,?_⟩
              rw [Bool.and_eq_true]
              exact ⟨by simpa using ne_of_mem_of_not_mem hq hp,by simp [hname]⟩
            rw [List.length_eq_zero_iff.mp hothers] at hin
            cases hin
          rw [hothers]
          simp only [Walk.askEach,Bool.false_eq_true,if_false]
          rcases h.round w p xs vs a hdb hrest hchanged (hstart p List.mem_cons_self) heptr (by simpa using hskip) hunique with
            ⟨code,n,hcode,herr⟩ | ⟨w',hok,hJ,hch,hdone,hw'⟩
          · rw [herr]
            exact .inl ⟨code,n,hcode,rfl⟩
          · rw [hok]
            simp only
            rcases hw' with ⟨hw',hH⟩ | ⟨hdb',hrecord,hname,hdone'⟩
            · exact hdeleted w' hw' hH hJ hch hdone
            · have hnext' : w'.db.nextOf p = vs.head? := by rw [(h.rep _ _ hdb').linked.next_eq,Option.or_none]
              have hnames : ∀ q, (w'.db.record q).name ops = (w.db.record q).name ops := fun q => by
                by_cases hq : q = p
                · rw [hq,hname,Record.name,heptr,Option.map_some]
                · rw [hrecord q hq]
              rw [hnext']
              refine ih (hlist ▸ hdb') hJ hch (fun q hq => ?_) (fun q hq => ?_) hlen
              · rw [hrecord q (ne_of_mem_of_not_mem (List.mem_append_right xs hq) hp)]
                exact hstart q (List.mem_cons_of_mem p hq)
              · rw [← hlist]
                rcases List.mem_append.mp hq with hq | hq
                · exact (hxs q hq).mono (hrecord q (ne_of_mem_of_not_mem (List.mem_append_left vs hq) hp)) hdone
                    (fun _ => id) fun q' _ => hnames q'
                · obtain rfl := List.mem_singleton.mp hq
                  obtain ⟨a',ha',hname'⟩ := Option.map_eq_some_iff.mp hname
                  refine .inr ⟨a',ha',hdone',fun q' hq' hne => ?_⟩
                  rw [hnames q',hname']
                  refine hunique q' ?_
                  rcases List.mem_append.mp hq' with hq' | hq'
                  · exact List.mem_append_left vs hq'
                  · exact List.mem_append_right xs (List.mem_of_ne_of_mem hne hq')
        · rw [askEach_yes hyes hothers]
          simp only [if_true]
          obtain ⟨q,hq⟩ := List.length_pos_iff_exists_mem.mp (Nat.pos_iff_ne_zero.mpr hothers)
          obtain ⟨hql,hqp⟩ := List.mem_filter.mp hq
          simp only [Bool.and_eq_true,bne_iff_ne,ne_eq,beq_iff_eq] at hqp
          rw [hrep.from_head] at hql
          have hpname : (w.db.record p).name ops = some (ops.getname a) := by rw [Record.name,heptr,Option.map_some]
          have hsame : (w.db.record q).name ops = (w.db.record p).name ops := hqp.2.trans hpname.symm
          -- entries further up are settled, so that the other one of the name stands behind
          have hlater : q ∈ vs := by
            rcases List.mem_append.mp hql with hq' | hq'
            · refine absurd hsame.symm ((hxs q hq').name_ne (h.skipped _ _ hdb q hql) (by simp) (Ne.symm hqp.1) ?_)
              rw [hpname]
              exact Option.some_ne_none _
            · exact (List.mem_cons.mp hq').resolve_left hqp.1
          exact hdeleted _ rfl (h.delete _ _ _ _ hdb (.inr ⟨q,hlater,hsame⟩)) (h.keeps _ _ hrest) (fun _ => rfl) fun _ => id

/-- The walk through a whole database. -/
theorem checkAll_repairs (h : Repairs ops skip body H J Start Done) (hyes : ∀ n, answers n = true) {w : Walk α σ}
    {l : List Nat} (hdb : H w.db l) (hrest : J w.rest w.changed) (hchanged : w.db.changed = true → w.changed = true)
    (hstart : ∀ q ∈ l, Start (w.db.record q)) :
    (∃ code n, 0 < code ∧ w.checkAll answers ops skip body = .error (.status code,n)) ∨
    ∃ w' l', w.checkAll answers ops skip body = .ok w' ∧ H w'.db l' ∧ J w'.rest w'.changed ∧
      (w'.db.changed = true → w'.changed = true) ∧ ∀ q ∈ l', Settled ops skip Start Done w' l' q := by
  have hrep := h.rep _ _ hdb
  have hstart' : H w.db ([] ++ l) := hdb
  rw [Walk.checkAll,hrep.head]
  exact checkFrom_repairs h hyes hstart' hrest hchanged hstart nofun hrep.length_le

end Repair

section Quiet
variable {α σ : Type} {ops : Ops α} {skip : Record α → Bool} {body : Nat → α → Walk α σ → Except (Exit × Nat) (Walk α σ)}
  {G : Db α → Prop} {K : σ → Prop} {l xs ys : List Nat}

/-- A walk that asks nothing: what is known of the database (`G`) leaves every entry to be skipped or
alone under its name, and no round asks. -/
structure Quiet (ops : Ops α) (skip : Record α → Bool) (body : Nat → α → Walk α σ → Except (Exit × Nat) (Walk α σ))
    (G : Db α → Prop) (K : σ → Prop) (l : List Nat) : Prop where
  rep : ∀ db, G db → Rep db l false
  alone : ∀ db, G db → ∀ q ∈ l, skip (db.record q) = true ∨ Alone ops db l q
  round : ∀ (w : Walk α σ) p a, G w.db → K w.rest → p ∈ l → (w.db.record p).eptr = some a →
    ∃ w', body p a w = .ok w' ∧ G w'.db ∧ K w'.rest ∧ w'.questions = w.questions

private theorem checkFrom_quiet (answers : Nat → Bool) (h : Quiet ops skip body G K l) {w : Walk α σ} (hdb : G w.db) (hrest : K w.rest)
    {fuel : Nat} (hl : l = xs ++ ys) (hfuel : ys.length ≤ fuel) :
    ∃ w', w.checkFrom answers ops skip body fuel ys.head? = .ok w' ∧ G w'.db ∧ K w'.rest ∧ w'.questions = w.questions := by
  induction ys generalizing w xs fuel with
  | nil => exact ⟨w,by rw [List.head?_nil,Walk.checkFrom],hdb,hrest,rfl⟩
  | cons p vs ih =>
    obtain ⟨fuel,rfl⟩ := Nat.exists_eq_succ_of_ne_zero (Nat.pos_iff_ne_zero.mp (Nat.lt_of_lt_of_le (Nat.succ_pos vs.length) hfuel))
    have hp : p ∈ l := by simp [hl]
    have hnext : ∀ db, G db → db.nextOf p = vs.head? := fun db hG => by
      have hlinked := (h.rep db hG).linked
      rw [hl] at hlinked
      rw [hlinked.next_eq,Option.or_none]
    have hlist : l = (xs ++ [p]) ++ vs := by simp [hl]
    have hlen : vs.length ≤ fuel := by simpa using hfuel
    rw [List.head?_cons,Walk.checkFrom,Walk.checkEntry]
    by_cases hskip : skip (w.db.record p) = true
    · rw [if_pos hskip]
      simp only [hnext w.db hdb]
      exact ih hdb hrest hlist hlen
    · obtain ⟨a,ha,halone⟩ := (h.alone w.db hdb p hp).resolve_left hskip
      have hothers : w.others ops p (ops.getname a) = [] := by
        refine List.filter_eq_nil_iff.mpr fun q hq => ?_
        rw [(h.rep _ hdb).from_head] at hq
        intro hboth
        simp only [Bool.and_eq_true,bne_iff_ne,ne_eq,beq_iff_eq] at hboth
        exact halone q hq hboth.1 hboth.2
      obtain ⟨w',hrun,hdb',hrest',hasked⟩ := h.round w p a hdb hrest hp ha
      rw [if_neg hskip]
      simp only [ha,hothers,List.length_nil,Walk.askEach,Bool.false_eq_true,if_false,hrun,hnext w'.db hdb']
      obtain ⟨w'',hrun',hdb'',hrest'',hasked'⟩ := ih hdb' hrest' hlist hlen
      exact ⟨w'',hrun',hdb'',hrest'',hasked'.trans hasked⟩

theorem checkAll_quiet (answers : Nat → Bool) (h : Quiet ops skip body G K l) {w : Walk α σ} (hdb : G w.db) (hrest : K w.rest) :
    ∃ w', w.checkAll answers ops skip body = .ok w' ∧ G w'.db ∧ K w'.rest ∧ w'.questions = w.questions := by
  have hrep := h.rep w.db hdb
  rw [Walk.checkAll,hrep.head]
  exact checkFrom_quiet answers h hdb hrest (List.nil_append l).symm hrep.length_le

end Quiet

/-- An entry is edited in its place, and marked where it has to be written. -/
def setEntry {α : Type} (db : Db α) (p : Nat) (a : α) (changed : Bool) : Db α :=
  { db.store p { db.entries p with eptr := some a, changed := (db.entries p).changed || changed } with
    changed := db.changed || changed }

/-- A line that stands for a network service. -/
def isNisLine {α : Type} (r : Record α) : Bool := r.line.any nameIsNis

/-- Every line stands for a network service or is an entry, and no name stands twice. -/
structure Tidy {α : Type} (ops : Ops α) (rs : List (Record α)) : Prop where
  parsed : ∀ r ∈ rs, isNisLine r = true ∨ r.eptr.isSome = true
  distinct : (rs.filterMap (Record.name ops)).Nodup

/-- A database that is being checked: entries have the property `Entry`, those that are not written
are like what their lines are read as, and the names stay. -/
structure Checked {α : Type} (s : LineStorage α) (file : Option Bytes) (R : α → α → Prop) (Entry : α → Prop)
    (names : Set Bytes) (db : Db α) (l : List Nat) : Prop where
  kept : Kept s file db l
  same : ∀ r ∈ l.map db.record, r.changed = false → Option.Rel R r.eptr (s.again r).eptr
  nis : ∀ r ∈ l.map db.record, isNisLine r = true → r.eptr = none
  entry : ∀ r ∈ l.map db.record, ∀ a ∈ r.eptr, Entry a
  names : ∀ name ∈ names, ∃ q ∈ l, (db.record q).name s.ops = some name

/-- A file is read as these records. -/
structure Rewritten {α : Type} (s : LineStorage α) (R : α → α → Prop) (rs : List (Record α)) (file : Option Bytes) : Prop where
  read : readFile s.ops file = some (rs.map s.again)
  rel : ∀ r ∈ rs, Option.Rel R r.eptr (s.again r).eptr

/-- The last of some records with a name. -/
def lastNamed {α : Type} (ops : Ops α) (name : Bytes) (rs : List (Record α)) : Option α :=
  (rs.filterMap fun r => r.eptr.filter (ops.getname · == name)).getLast?

/-- The last entry of each name comes from the last one that the file had of it. -/
def LastsFrom {α : Type} (ops : Ops α) (From : Option α → α → Prop) (P : List (Record α)) (db : Db α) (l : List Nat) : Prop :=
  ∀ name a, lastNamed ops name (l.map db.record) = some a → From (lastNamed ops name P) a

section Lasts
variable {α : Type} {ops : Ops α} {From : Option α → α → Prop} {P rs ss : List (Record α)} {r : Record α} {db db' : Db α}
  {xs ys : List Nat} {p : Nat} {name : Bytes} {a a' : α}

theorem entryNamed_eq_none : r.eptr.filter (ops.getname · == name) = none ↔ r.name ops ≠ some name := by
  unfold Record.name
  cases r.eptr with
  | none => simp
  | some a => simp [Option.filter_some]

theorem lastNamed_append :
    lastNamed ops name (rs ++ ss) = (lastNamed ops name ss).or (lastNamed ops name rs) := by
  unfold lastNamed
  rw [List.filterMap_append,List.getLast?_append]

theorem lastNamed_middle : lastNamed ops name (rs ++ r :: ss) =
    (lastNamed ops name ss).or ((r.eptr.filter (ops.getname · == name)).or (lastNamed ops name rs)) := by
  have hone : lastNamed ops name [r] = r.eptr.filter (ops.getname · == name) := by
    rw [lastNamed,List.filterMap_cons]
    cases r.eptr.filter (ops.getname · == name) <;> rfl
  rw [List.append_cons,lastNamed_append,lastNamed_append,hone]

theorem lastNamed_eq_none : lastNamed ops name rs = none ↔ ∀ r ∈ rs, r.name ops ≠ some name := by
  unfold lastNamed
  rw [List.getLast?_eq_none_iff,List.filterMap_eq_nil_iff]
  exact forall₂_congr fun r _ => entryNamed_eq_none

private theorem lastNamed_some (h : lastNamed ops name rs = some a) : ∃ r ∈ rs, r.eptr = some a ∧ ops.getname a = name := by
  obtain ⟨r,hr,hfilter⟩ := List.mem_filterMap.mp (List.mem_of_getLast? h)
  obtain ⟨ha,hname⟩ := Option.filter_eq_some_iff.mp hfilter
  exact ⟨r,hr,ha,eq_of_beq hname⟩

/-- An entry that is alone is the last of its name. -/
theorem Alone.lastNamed {l : List Nat} {q : Nat} (h : Alone ops db l q) (hq : q ∈ l) (hl : l.Nodup) (ha : (db.record q).eptr = some a) :
    lastNamed ops (ops.getname a) (l.map db.record) = some a := by
  obtain ⟨a',ha',halone⟩ := h
  cases ha.symm.trans ha'
  obtain ⟨xs,ys,rfl⟩ := List.append_of_mem hq
  have hqys : q ∉ ys := fun hin => (List.nodup_cons.mp (List.nodup_middle.mp hl)).1 (List.mem_append_right xs hin)
  have hbehind : Programs.lastNamed ops (ops.getname a) (ys.map db.record) = none := by
    refine lastNamed_eq_none.mpr fun r hr => ?_
    obtain ⟨q',hq',rfl⟩ := List.mem_map.mp hr
    exact halone q' (by simp [hq']) (ne_of_mem_of_not_mem hq' hqys)
  rw [List.map_append,List.map_cons,lastNamed_middle,hbehind,ha,Option.filter_some,if_pos (beq_self_eq_true _)]
  rfl

theorem LastsFrom.of_records {l : List Nat} (h : l.map db.record = P) (hrefl : ∀ a, From (some a) a) : LastsFrom ops From P db l := by
  intro name a ha
  rw [h] at ha
  rw [ha]
  exact hrefl a

/-- An entry goes with one of its name behind it, or with none elsewhere. -/
theorem LastsFrom.delete (h : LastsFrom ops From P db (xs ++ p :: ys))
    (hgo : ∀ name, (db.record p).name ops = some name →
      (∃ q ∈ ys, (db.record q).name ops = some name) ∨ ∀ q ∈ xs ++ ys, (db.record q).name ops ≠ some name) :
    LastsFrom ops From P (commonioDelEntry db p) (xs ++ ys) := by
  intro name a ha
  rw [record_commonioDelEntry,List.map_append,lastNamed_append] at ha
  refine h name a ?_
  rw [List.map_append,List.map_cons,lastNamed_middle]
  cases hbehind : lastNamed ops name (ys.map db.record) with
  | some b =>
    rw [hbehind,Option.some_or] at ha
    rw [Option.some_or,ha]
  | none =>
    rw [hbehind,Option.none_or] at ha
    rw [Option.none_or]
    have hother : (db.record p).name ops ≠ some name := by
      intro hname
      rcases hgo name hname with ⟨q,hq,hqname⟩ | hnone
      · exact lastNamed_eq_none.mp hbehind _ (List.mem_map_of_mem hq) hqname
      · obtain ⟨r,hr,hra,hrname⟩ := lastNamed_some ha
        obtain ⟨q,hq,rfl⟩ := List.mem_map.mp hr
        refine hnone q (List.mem_append_left ys hq) ?_
        rw [Record.name,hra,Option.map_some,hrname]
    rw [entryNamed_eq_none.mpr hother,Option.none_or,ha]

/-- An entry goes that did not parse, or has one of its name behind it. -/
theorem LastsFrom.deleteDoubled (h : LastsFrom ops From P db (xs ++ p :: ys))
    (hgo : (db.record p).eptr = none ∨ ∃ q ∈ ys, (db.record q).name ops = (db.record p).name ops) :
    LastsFrom ops From P (commonioDelEntry db p) (xs ++ ys) := by
  refine h.delete fun name hname => ?_
  rcases hgo with hnone | ⟨q,hq,hsame⟩
  · rw [Record.name,hnone] at hname
    cases hname
  · exact .inl ⟨q,hq,hsame.trans hname⟩

/-- An entry comes that is alone under its name; the others stay. -/
theorem LastsFrom.put {l : List Nat} (h : LastsFrom ops From P db l) (hold : ∀ q ∈ xs ++ ys, db'.record q = db.record q)
    (hl : ∀ name ≠ ops.getname a', lastNamed ops name (l.map db.record) = lastNamed ops name ((xs ++ ys).map db.record))
    (ha' : (db'.record p).eptr = some a') (halone : ∀ q ∈ xs ++ ys, (db.record q).name ops ≠ some (ops.getname a'))
    (hfrom : From (lastNamed ops (ops.getname a') P) a') : LastsFrom ops From P db' (xs ++ p :: ys) := by
  have hmap : ∀ zs : List Nat, zs ⊆ xs ++ ys → zs.map db'.record = zs.map db.record := fun zs hzs =>
    List.map_congr_left fun q hq => hold q (hzs hq)
  intro name a ha
  rw [List.map_append,List.map_cons,lastNamed_middle,hmap xs (List.subset_append_left xs ys),hmap ys (List.subset_append_right xs ys),
    ha',Option.filter_some] at ha
  by_cases hname : name = ops.getname a'
  · have hbehind : lastNamed ops name (ys.map db.record) = none := by
      refine lastNamed_eq_none.mpr fun r hr => ?_
      obtain ⟨q,hq,rfl⟩ := List.mem_map.mp hr
      exact hname ▸ halone q (List.mem_append_right xs hq)
    rw [hbehind,hname,if_pos (beq_self_eq_true _)] at ha
    cases ha
    rw [hname]
    exact hfrom
  · rw [if_neg (by simpa using Ne.symm hname),Option.none_or] at ha
    refine h name a ?_
    rw [hl name hname,List.map_append,lastNamed_append,ha]

/-- An entry takes the place of the only one of its name. -/
theorem LastsFrom.replace (h : LastsFrom ops From P db (xs ++ p :: ys)) (hnodup : (xs ++ p :: ys).Nodup)
    (hother : ∀ q, q ≠ p → db'.record q = db.record q) (ha : (db.record p).eptr = some a) (ha' : (db'.record p).eptr = some a')
    (hname : ops.getname a' = ops.getname a) (halone : ∀ q ∈ xs ++ ys, (db.record q).name ops ≠ some (ops.getname a))
    (hfrom : From (lastNamed ops (ops.getname a) P) a → From (lastNamed ops (ops.getname a) P) a') :
    LastsFrom ops From P db' (xs ++ p :: ys) := by
  have hp : p ∉ xs ++ ys := (List.nodup_cons.mp (List.nodup_middle.mp hnodup)).1
  have hlast := Alone.lastNamed ⟨a,ha,fun q hq hne => halone q ?_⟩ (by simp) hnodup ha
  · refine h.put (fun q hq => hother q (ne_of_mem_of_not_mem hq hp)) (fun name hne => ?_) ha' (hname ▸ halone) ?_
    · have hnot : (db.record p).name ops ≠ some name := by
        rw [Record.name,ha,Option.map_some,← hname]
        exact fun heq => hne (Option.some.inj heq).symm
      rw [List.map_append,List.map_cons,lastNamed_middle,entryNamed_eq_none.mpr hnot,Option.none_or,List.map_append,lastNamed_append]
    · rw [hname]
      exact hfrom (h _ _ hlast)
  · exact (List.mem_cons.mp (List.perm_middle.mem_iff.mp hq)).resolve_left hne

end Lasts

section Checked
variable {α : Type} {s : LineStorage α} {file : Option Bytes} {R : α → α → Prop} {Entry : α → Prop} {names : Set Bytes} {db db' : Db α}
  {l xs ys : List Nat} {p : Nat}

/-- Names stand once in a list of addresses where no two addresses have the same. -/
theorem nodup_names_iff {f : Nat → Option Bytes} (hl : l.Nodup) :
    (l.filterMap f).Nodup ↔ ∀ p ∈ l, ∀ q ∈ l, q ≠ p → ∀ name, f p = some name → f q ≠ some name := by
  unfold List.Nodup
  rw [List.pairwise_filterMap]
  constructor
  · intro h p hp q hq hne name hpn hqn
    have hsymm : Std.Symm fun p q => ∀ b, f p = some b → ∀ b', f q = some b' → b ≠ b' :=
      ⟨fun p q h b hb b' hb' heq => h b' hb' b hb heq.symm⟩
    exact h.forall hq hp hne name hqn name hpn rfl
  · intro h
    refine hl.imp_of_mem fun {p q} hp hq hne b hb b' hb' heq => ?_
    exact h p hp q hq hne.symm b hb (heq ▸ hb')

private theorem rel_refl_of {R : α → α → Prop} (hR : ∀ a, R a a) : ∀ a : Option α, Option.Rel R a a
  | none => .none
  | some a => .some (hR a)

/-- Opening a file to check it. -/
theorem Checked.of_open (hR : ∀ a, R a a) {create memory : Bool} {db₀ : Db α} {rs : List (Record α)}
    (hopen : commonioOpen s.ops db₀ .rdwr create (fileState file) memory = (true,db)) (hread : readFile s.ops file = some rs)
    (hentry : ∀ r ∈ rs, ∀ a ∈ r.eptr, Entry a) (hnames : ∀ name ∈ names, ∃ r ∈ rs, r.name s.ops = some name) :
    ∃ l, Checked s file R Entry names db l ∧ l.map db.record = rs ∧ db.changed = false := by
  obtain ⟨l,hkept,hread',hch⟩ := commonioOpen_kept hopen
  obtain rfl := Option.some.inj (hread.symm.trans hread')
  have hlines := s.record_line hread
  refine ⟨l,⟨hkept,fun r hr _ => ?_,fun r hr hnis => ?_,hentry,fun name hname => ?_⟩,rfl,hch⟩
  · obtain ⟨line,_,rfl⟩ := hlines r hr
    exact rel_refl_of hR _
  · obtain ⟨line,_,rfl⟩ := hlines r hr
    exact if_pos (show nameIsNis line = true from hnis)
  · obtain ⟨r,hr,hrn⟩ := hnames name hname
    obtain ⟨q,hq,rfl⟩ := List.mem_map.mp hr
    exact ⟨q,hq,hrn⟩

theorem Checked.withCursor (h : Checked s file R Entry names db l) {c : Option Nat} (hc : ∀ p, c = some p → p ∈ l) :
    Checked s file R Entry names { db with cursor := c } l :=
  ⟨h.kept.withCursor hc,h.same,h.nis,h.entry,h.names⟩

/-- An entry goes that did not parse, is doubled, or has a name that need not stay. -/
theorem Checked.delete (h : Checked s file R Entry names db (xs ++ p :: ys))
    (hgo : ∀ name ∈ names, (db.record p).name s.ops = some name → ∃ q ∈ xs ++ ys, (db.record q).name s.ops = some name) :
    Checked s file R Entry names (commonioDelEntry db p) (xs ++ ys) := by
  have hsub : ∀ r ∈ (xs ++ ys).map db.record, r ∈ (xs ++ p :: ys).map db.record := fun r hr => by
    simp only [List.map_append,List.map_cons,List.mem_append,List.mem_cons] at hr ⊢
    tauto
  have hrecord := record_commonioDelEntry db p
  refine ⟨h.kept.delete,?_,?_,?_,?_⟩
  · rw [hrecord]
    exact fun r hr => h.same r (hsub r hr)
  · rw [hrecord]
    exact fun r hr => h.nis r (hsub r hr)
  · rw [hrecord]
    exact fun r hr => h.entry r (hsub r hr)
  · rw [hrecord]
    intro name hname
    obtain ⟨q,hq,hqn⟩ := h.names name hname
    rcases List.mem_cons.mp (List.perm_middle.mem_iff.mp hq) with rfl | hq
    · exact hgo name hname hqn
    · exact ⟨q,hq,hqn⟩

/-- An entry is stored in the place of the one of its name. -/
theorem Checked.update_at (h : Checked s file R Entry names db (xs ++ p :: ys)) {a : α} {memory : Bool}
    (hname : (db.record p).name s.ops = some (s.ops.getname a)) (hentry : Entry a) (htext : s.Text a)
    (hrun : commonioUpdate s.ops db a memory = (true,db')) :
    Checked s file R Entry names db' (xs ++ p :: ys) ∧ db'.record = Function.update db.record p (editedRecord (db.record p).line a) := by
  obtain ⟨hkept,hrecord⟩ := h.kept.update_at hname htext hrun
  have hp : db.record p ∈ (xs ++ p :: ys).map db.record := List.mem_map_of_mem (by simp)
  have hcases : ∀ r ∈ (xs ++ p :: ys).map db'.record,
      r = editedRecord (db.record p).line a ∨ r ∈ (xs ++ p :: ys).map db.record := fun r hr => by
    obtain ⟨q,hq,rfl⟩ := List.mem_map.mp hr
    by_cases hqp : q = p
    · exact .inl (by rw [hrecord,hqp,Function.update_self])
    · exact .inr (by rw [hrecord,Function.update_of_ne hqp]; exact List.mem_map_of_mem hq)
  refine ⟨⟨hkept,fun r hr hch => ?_,fun r hr hnis => ?_,fun r hr b hb => ?_,fun name hn => ?_⟩,hrecord⟩
  · rcases hcases r hr with rfl | hr
    · cases hch
    · exact h.same r hr hch
  · rcases hcases r hr with rfl | hr
    · have hnone := h.nis _ hp hnis
      rw [Record.name,hnone] at hname
      cases hname
    · exact h.nis r hr hnis
  · rcases hcases r hr with rfl | hr
    · cases hb
      exact hentry
    · exact h.entry r hr b hb
  · obtain ⟨q,hq,hqn⟩ := h.names name hn
    refine ⟨q,hq,?_⟩
    by_cases hqp : q = p
    · rw [hrecord,hqp,Function.update_self,← hqn,hqp,hname]
      rfl
    · rw [hrecord,Function.update_of_ne hqp,hqn]

theorem record_setEntry (db : Db α) (p : Nat) (a : α) (changed : Bool) :
    (setEntry db p a changed).record =
      Function.update db.record p ⟨(db.record p).line,some a,(db.record p).changed || changed⟩ :=
  record_store _

theorem rep_setEntry (h : Rep db l false) (p : Nat) (a : α) (changed : Bool) : Rep (setEntry db p a changed) l false := by
  have hstore := h.store (p := p)
    (e := { db.entries p with eptr := some a, changed := (db.entries p).changed || changed }) rfl rfl
  exact hstore.withFlags (db.changed || changed) db.isopen db.readonly db.locked

/-- An entry is edited in its place. -/
theorem Checked.setEntry (h : Checked s file R Entry names db (xs ++ p :: ys)) {a a' : α} {changed : Bool}
    (ha : (db.record p).eptr = some a) (hname : s.ops.getname a' = s.ops.getname a) (hentry : Entry a') (htext : s.Text a')
    (hsame : changed = false → (db.record p).changed = false → Option.Rel R (some a') (s.again (db.record p)).eptr) :
    Checked s file R Entry names (setEntry db p a' changed) (xs ++ p :: ys) := by
  have hp : db.record p ∈ (xs ++ p :: ys).map db.record := List.mem_map_of_mem (by simp)
  have hrecord := record_setEntry db p a' changed
  have hcases : ∀ r ∈ (xs ++ p :: ys).map (Programs.setEntry db p a' changed).record,
      r = ⟨(db.record p).line,some a',(db.record p).changed || changed⟩ ∨ r ∈ (xs ++ p :: ys).map db.record := fun r hr => by
    obtain ⟨q,hq,rfl⟩ := List.mem_map.mp hr
    by_cases hqp : q = p
    · exact .inl (by rw [hrecord,hqp,Function.update_self])
    · exact .inr (by rw [hrecord,Function.update_of_ne hqp]; exact List.mem_map_of_mem hq)
  -- a record that is not marked has the line that it had
  have hagain : (db.record p).changed = false → changed = false →
      s.again ⟨(db.record p).line,some a',(db.record p).changed || changed⟩ = s.again (db.record p) := fun hch hch' => by
    rw [LineStorage.again,LineStorage.again,hch,hch']
    rfl
  refine ⟨h.kept.replace (rep_setEntry h.kept.rep p a' changed) ⟨h.kept.isopen,h.kept.writable⟩ hrecord (fun hch => ?_)
    (fun _ => ⟨a',rfl,htext⟩) (fun hch => ?_),fun r hr hch => ?_,fun r hr hnis => ?_,fun r hr b hb => ?_,fun name hn => ?_⟩
  · exact h.kept.lines (db.record p) hp (Bool.or_eq_false_iff.mp hch).1
  · obtain ⟨hdb,hch⟩ := Bool.or_eq_false_iff.mp hch
    have hpch := (h.kept.unchanged hdb).2 _ hp
    exact ⟨hdb,Bool.or_eq_false_iff.mpr ⟨hpch,hch⟩,hagain hpch hch⟩
  · rcases hcases r hr with rfl | hr
    · obtain ⟨hpch,hch⟩ := Bool.or_eq_false_iff.mp hch
      rw [hagain hpch hch]
      exact hsame hch hpch
    · exact h.same r hr hch
  · rcases hcases r hr with rfl | hr
    · cases (h.nis _ hp hnis).symm.trans ha
    · exact h.nis r hr hnis
  · rcases hcases r hr with rfl | hr
    · cases hb
      exact hentry
    · exact h.entry r hr b hb
  · obtain ⟨q,hq,hqn⟩ := h.names name hn
    refine ⟨q,hq,?_⟩
    by_cases hqp : q = p
    · rw [hqp,Record.name,ha] at hqn
      rw [hrecord,hqp,Function.update_self,← hqn]
      exact congrArg some hname
    · rw [hrecord,Function.update_of_ne hqp,hqn]

/-- An entry is stored under a new name. -/
theorem Checked.update_new (h : Checked s file R Entry names db l) {a : α} {memory : Bool}
    (hne : ∀ q ∈ l, (db.record q).name s.ops ≠ some (s.ops.getname a)) (hentry : Entry a) (htext : s.Text a)
    (hrun : commonioUpdate s.ops db a memory = (true,db')) :
    ∃ xs p ys, l = xs ++ ys ∧ p ∉ l ∧ Checked s file R Entry names db' (xs ++ p :: ys) ∧
      db'.record = Function.update db.record p (editedRecord none a) := by
  obtain ⟨xs,p,ys,rfl,hp,hkept,hrecord⟩ := h.kept.update_new hne htext hrun
  have hold : ∀ q ∈ xs ++ ys, db'.record q = db.record q := fun q hq => by
    rw [hrecord,Function.update_of_ne (ne_of_mem_of_not_mem hq hp)]
  have hcases : ∀ r ∈ (xs ++ p :: ys).map db'.record, r = editedRecord none a ∨ r ∈ (xs ++ ys).map db.record := fun r hr => by
    obtain ⟨q,hq,rfl⟩ := List.mem_map.mp hr
    rcases List.mem_cons.mp (List.perm_middle.mem_iff.mp hq) with rfl | hq
    · exact .inl (by rw [hrecord,Function.update_self])
    · exact .inr (by rw [hold q hq]; exact List.mem_map_of_mem hq)
  refine ⟨xs,p,ys,rfl,hp,⟨hkept,fun r hr hch => ?_,fun r hr hnis => ?_,fun r hr b hb => ?_,fun name hn => ?_⟩,hrecord⟩
  · rcases hcases r hr with rfl | hr
    · cases hch
    · exact h.same r hr hch
  · rcases hcases r hr with rfl | hr
    · cases hnis
    · exact h.nis r hr hnis
  · rcases hcases r hr with rfl | hr
    · cases hb
      exact hentry
    · exact h.entry r hr b hb
  · obtain ⟨q,hq,hqn⟩ := h.names name hn
    exact ⟨q,List.perm_middle.mem_iff.mpr (List.mem_cons_of_mem p hq),by rw [hold q hq,hqn]⟩

theorem Checked.stored (h : Checked s file R Entry names db l) (hR : ∀ a b, s.Same a b → R a b) {selinux : Bool}
    {steps : CloseSteps} {old : Option Bytes} {disk : Disk} (hdisk : disk.file = file)
    (hok : (commonioClose selinux s.closeOps steps db old disk).1 = true) :
    Rewritten s R (l.map db.record) (commonioClose selinux s.closeOps steps db old disk).2.2.file := by
  obtain ⟨hread,hchanged⟩ := h.kept.close hdisk hok
  refine ⟨hread,fun r hr => ?_⟩
  cases hch : r.changed with
  | false => exact h.same r hr hch
  | true =>
    obtain ⟨a,b,ha,hb,hsame⟩ := hchanged r hr hch
    rw [ha,hb]
    exact .some (hR a b hsame)

/-- A database without changes is in its file. -/
theorem Checked.untouched (h : Checked s file R Entry names db l) (hch : db.changed = false) :
    Rewritten s R (l.map db.record) file := by
  obtain ⟨hread,hunchanged⟩ := h.kept.unchanged hch
  exact ⟨hread,fun r hr => h.same r hr (hunchanged r hr)⟩

/-- The entry that is found in a written file is one of the database. -/
theorem entry_of_rewritten {name : Bytes} {b : α} (h : Rewritten s R (l.map db.record) file) (hb : fileEntry s.ops file name = some b) :
    ∃ q ∈ l, ∃ a, (db.record q).eptr = some a ∧ R a b ∧ s.ops.getname b = name := by
  rw [fileEntry,h.read,Option.bind_some] at hb
  obtain ⟨r',hr',hrb,hname⟩ := lookup_eq_some hb
  obtain ⟨r,hr,rfl⟩ := List.mem_map.mp hr'
  obtain ⟨q,hq,rfl⟩ := List.mem_map.mp hr
  have hrel := h.rel _ hr
  rw [hrb] at hrel
  generalize heptr : (db.record q).eptr = a at hrel
  cases hrel with
  | some hsame => exact ⟨q,hq,_,heptr,hsame,hname⟩

theorem Checked.withNames (h : Checked s file R Entry names db l) {names' : Set Bytes}
    (hnames : ∀ name ∈ names', ∃ q ∈ l, (db.record q).name s.ops = some name) : Checked s file R Entry names' db l :=
  ⟨h.kept,h.same,h.nis,h.entry,hnames⟩

variable (hsame : ∀ a b, R a b → s.ops.getname b = s.ops.getname a)
  (hrel : ∀ r ∈ l.map db.record, Option.Rel R r.eptr (s.again r).eptr)
include hsame hrel

theorem name_again : ∀ r ∈ l.map db.record, (s.again r).name s.ops = r.name s.ops := by
  intro r hr
  unfold Record.name
  have h := hrel r hr
  generalize r.eptr = a at h
  generalize (s.again r).eptr = b at h
  cases h with
  | none => rfl
  | some h => exact congrArg some (hsame _ _ h)

theorem exists_name_again {name : Bytes} : (∃ r ∈ (l.map db.record).map s.again, r.name s.ops = some name) ↔
    ∃ q ∈ l, (db.record q).name s.ops = some name := by
  constructor
  · rintro ⟨r',hr',hname⟩
    obtain ⟨r,hr,rfl⟩ := List.mem_map.mp hr'
    obtain ⟨q,hq,rfl⟩ := List.mem_map.mp hr
    exact ⟨q,hq,(name_again hsame hrel _ hr).symm.trans hname⟩
  · rintro ⟨q,hq,hname⟩
    have hr := List.mem_map_of_mem (f := db.record) hq
    exact ⟨_,List.mem_map_of_mem hr,(name_again hsame hrel _ hr).trans hname⟩

/-- A checked database is tidy where it is read again. -/
theorem Checked.tidy (h : Checked s file R Entry names db l)
    (hall : ∀ q ∈ l, isNisLine (db.record q) = true ∨ Alone s.ops db l q) : Tidy s.ops ((l.map db.record).map s.again) := by
  constructor
  · intro r' hr'
    obtain ⟨r,hr,rfl⟩ := List.mem_map.mp hr'
    obtain ⟨q,hq,rfl⟩ := List.mem_map.mp hr
    rcases hall q hq with hnis | ⟨a,ha,_⟩
    · have hch : (db.record q).changed = false := by
        by_contra hch
        obtain ⟨a,ha,_⟩ := h.kept.text _ hr (by simpa using hch)
        cases ha.symm.trans (h.nis _ hr hnis)
      obtain ⟨line,hline,_⟩ := h.kept.lines _ hr hch
      left
      rw [isNisLine,LineStorage.again,hch,if_neg Bool.false_ne_true,hline]
      rw [isNisLine,hline] at hnis
      exact hnis
    · have hrel := hrel _ hr
      rw [ha] at hrel
      right
      generalize (s.again (db.record q)).eptr = b at hrel
      cases hrel
      rfl
  · rw [List.filterMap_map,List.filterMap_map]
    refine (nodup_names_iff h.kept.rep.nodup).mpr fun p hp q hq hne name hpn => ?_
    have hname : ∀ q ∈ l, (s.again (db.record q)).name s.ops = (db.record q).name s.ops := fun q hq =>
      name_again hsame hrel _ (List.mem_map_of_mem hq)
    have hpn : (s.again (db.record p)).name s.ops = some name := hpn
    show (s.again (db.record q)).name s.ops ≠ some name
    rw [hname p hp] at hpn
    rw [hname q hq]
    rcases hall p hp with hnis | ⟨a,ha,halone⟩
    · rw [Record.name,h.nis _ (List.mem_map_of_mem hp) hnis] at hpn
      cases hpn
    · rw [Record.name,ha,Option.map_some] at hpn
      exact Option.some.inj hpn ▸ halone q hq hne

omit hsame hrel in
theorem Tidy.alone (hl : l.Nodup) (h : Tidy s.ops (l.map db.record)) {q : Nat} (hq : q ∈ l) :
    isNisLine (db.record q) = true ∨ Alone s.ops db l q := by
  rcases h.parsed _ (List.mem_map_of_mem hq) with hnis | hsome
  · exact .inl hnis
  · obtain ⟨a,ha⟩ := Option.isSome_iff_exists.mp hsome
    have hdistinct := h.distinct
    rw [List.filterMap_map] at hdistinct
    refine .inr ⟨a,ha,fun q' hq' hne => ?_⟩
    refine (nodup_names_iff hl).mp hdistinct q hq q' hq' hne _ ?_
    show (db.record q).name s.ops = _
    rw [Record.name,ha,Option.map_some]

omit hsame hrel in
/-- What a walk leaves behind is alone under its name, where what it skips is. -/
theorem alone_of_settled {σ : Type} {skip : Record α → Bool} {Start : Record α → Prop} {Done : σ → Record α → Prop}
    {w : Walk α σ} (hskip : ∀ q ∈ l, skip (w.db.record q) = true → isNisLine (w.db.record q) = true ∨ Alone s.ops w.db l q)
    (hsettled : ∀ q ∈ l, Settled s.ops skip Start Done w l q) :
    ∀ q ∈ l, isNisLine (w.db.record q) = true ∨ Alone s.ops w.db l q := by
  intro q hq
  rcases hsettled q hq with ⟨hs,_⟩ | ⟨a,ha,_,halone⟩
  · exact hskip q hq hs
  · exact .inr ⟨a,ha,halone⟩

end Checked

section Other
variable {α : Type} {s : LineStorage α} {file : Option Bytes} {xs ys : List Nat} {p : Nat}

/-- A doubled or broken entry may go. -/
theorem doubled_goes {names : Set Bytes} {db : Db α}
    (h : (db.record p).eptr = none ∨ ∃ q ∈ ys, (db.record q).name s.ops = (db.record p).name s.ops) :
    ∀ name ∈ names, (db.record p).name s.ops = some name → ∃ q ∈ xs ++ ys, (db.record q).name s.ops = some name := by
  intro name _ hname
  rcases h with hnone | ⟨q,hq,hsame⟩
  · rw [Record.name,hnone] at hname
    cases hname
  · exact ⟨q,List.mem_append_right xs hq,hsame.trans hname⟩

/-- The other database during a walk that stores nothing there: only its cursor moves. -/
def OnlyCursor (db₀ : Db α) (l : List Nat) (db : Db α) : Prop :=
  ∃ c, db = { db₀ with cursor := c } ∧ ∀ p, c = some p → p ∈ l

/-- A name that the other file has is found there, and only the cursor moves. -/
theorem OnlyCursor.locate {db₀ db : Db α} {l : List Nat}
    (h : OnlyCursor db₀ l db) (hkept : Kept s file db₀ l) {name : Bytes}
    (hin : ∃ q ∈ l, (db₀.record q).name s.ops = some name) :
    ∃ a db', commonioLocate s.ops db name = (some a,db') ∧ OnlyCursor db₀ l db' := by
  obtain ⟨c,rfl,hc⟩ := h
  obtain ⟨found,c',hlocate,hc',hfound⟩ := (hkept.withCursor hc).locate name
  cases found with
  | some a => exact ⟨a,_,hlocate,c',rfl,hc'⟩
  | none =>
    obtain ⟨q,hq,hqn⟩ := hin
    exact absurd hqn (hfound.mp rfl q hq)

/-- A database whose entries were edited under their names at most. -/
structure SameNames (ops : Ops α) (db₀ : Db α) (l : List Nat) (db : Db α) : Prop where
  rep : Rep db l false
  isopen : db.isopen = true
  names : ∀ q ∈ l, (db.record q).name ops = (db₀.record q).name ops

section SameNames
variable {ops : Ops α} {db₀ db : Db α} {l : List Nat}

theorem SameNames.of_kept (h : Kept s file db l) : SameNames s.ops db l db := ⟨h.rep,h.isopen,fun _ _ => rfl⟩

theorem SameNames.locate (h : SameNames ops db₀ l db) {name : Bytes} (hin : ∃ q ∈ l, (db₀.record q).name ops = some name) :
    ∃ a c, commonioLocate ops db name = (some a,{ db with cursor := c }) ∧ SameNames ops db₀ l { db with cursor := c } := by
  obtain ⟨found,c,hlocate,hc,hfound⟩ := h.rep.locate h.isopen name
  cases found with
  | some a => exact ⟨a,c,hlocate,h.rep.withCursor hc,h.isopen,h.names⟩
  | none =>
    obtain ⟨q,hq,hqn⟩ := hin
    exact absurd ((h.names q hq).trans hqn) (hfound.mp rfl q hq)

theorem SameNames.setEntry (h : SameNames ops db₀ l db) {a a' : α} {changed : Bool} (ha : (db.record p).eptr = some a)
    (hname : ops.getname a' = ops.getname a) : SameNames ops db₀ l (setEntry db p a' changed) := by
  refine ⟨rep_setEntry h.rep p a' changed,h.isopen,fun q hq => ?_⟩
  rw [← h.names q hq,record_setEntry]
  by_cases hqp : q = p
  · rw [hqp,Function.update_self,Record.name,Record.name,ha,Option.map_some,Option.map_some,hname]
  · rw [Function.update_of_ne hqp]

/-- Whether an entry is alone depends on the names only. -/
theorem Alone.of_names {q : Nat} (h : Alone ops db₀ l q) (hq : q ∈ l)
    (hnames : ∀ q ∈ l, (db.record q).name ops = (db₀.record q).name ops) : Alone ops db l q := by
  obtain ⟨a,ha,halone⟩ := h
  have hname := hnames q hq
  rw [Record.name,Record.name,ha,Option.map_some] at hname
  obtain ⟨a',ha',haa'⟩ := Option.map_eq_some_iff.mp hname
  refine ⟨a',ha',fun q' hq' hne => ?_⟩
  rw [haa',hnames q' hq']
  exact halone q' hq' hne

end SameNames

private theorem openFirst_open {s : Storage α} {access : AccessMode} {create read memory : Bool}
    {db : Db α} (h : openFirst s access create file read memory = (true,db)) :
    ∃ db₀, commonioOpen s.ops db₀ access create (fileState file) memory = (true,db) := by
  unfold openFirst at h
  cases read with
  | true => exact ⟨_,h⟩
  | false =>
    exfalso
    unfold commonioOpen at h
    simp only [Bool.false_eq_true,if_false] at h
    split at h
    · cases h
    · split at h <;> cases h

end Other

section Pair
variable {α β : Type}

/-- Both databases are locked and opened for writing; the shadow only where it is used. -/
def openPair (env : Env) (isShadow create : Bool) (main : Storage α) (shadow : Storage β) (files : Files) : Except Exit (Db α × Db β) :=
  if !env.mainLock then .error (.status 4)
  else if isShadow && !env.shadowLock then .error (.status 4)
  else
    match openFirst main .rdwr create files.main.file env.mainRead env.mainMemory with
    | (false,_) => .error (.status 3)
    | (true,mainDb) =>
      if !isShadow then .ok (mainDb,Db.initial (fun _ => ⟨none,none,none,none,false⟩) 0 false)
      else
        match openFirst shadow .rdwr create files.shadow.file env.shadowRead env.shadowMemory with
        | (false,_) => .error (.status 3)
        | (true,shadowDb) => .ok (mainDb,shadowDb)

/-- Files without changes are not closed, and stay as they were. -/
def closePair (env : Env) (isShadow : Bool) (main : CloseOps α) (shadow : CloseOps β) (changed : Bool) (mainDb : Db α)
    (shadowDb : Db β) (files : Files) : Except Exit Files :=
  if !changed then .ok files
  else
    match commonioClose env.selinux main env.mainSteps mainDb files.main.file files.main with
    | (false,_,_) => .error (.status 5)
    | (true,_,mainDisk) =>
      if !isShadow then .ok { files with main := mainDisk }
      else
        match commonioClose env.selinux shadow env.shadowSteps shadowDb files.shadow.file files.shadow with
        | (false,_,_) => .error (.status 5)
        | (true,_,shadowDisk) => .ok ⟨mainDisk,shadowDisk⟩

theorem openPair_cases (env : Env) (isShadow create : Bool) (main : Storage α) (shadow : Storage β) (files : Files) :
    (∃ code, 0 < code ∧ openPair env isShadow create main shadow files = .error (.status code)) ∨
    ∃ mainDb shadowDb, openPair env isShadow create main shadow files = .ok (mainDb,shadowDb) ∧
      (∃ db₀, commonioOpen main.ops db₀ .rdwr create (fileState files.main.file) env.mainMemory = (true,mainDb)) ∧
      (isShadow = true →
        ∃ db₀, commonioOpen shadow.ops db₀ .rdwr create (fileState files.shadow.file) env.shadowMemory = (true,shadowDb)) := by
  unfold openPair
  split
  · exact .inl ⟨4,by decide,rfl⟩
  · split
    · exact .inl ⟨4,by decide,rfl⟩
    · cases hmain : openFirst main .rdwr create files.main.file env.mainRead env.mainMemory with
      | mk ok mainDb =>
        cases ok with
        | false => exact .inl ⟨3,by decide,rfl⟩
        | true =>
          cases isShadow with
          | false => exact .inr ⟨mainDb,_,rfl,openFirst_open hmain,nofun⟩
          | true =>
            cases hshadow : openFirst shadow .rdwr create files.shadow.file env.shadowRead env.shadowMemory with
            | mk ok shadowDb =>
              cases ok with
              | false => exact .inl ⟨3,by decide,rfl⟩
              | true => exact .inr ⟨mainDb,shadowDb,rfl,openFirst_open hmain,fun _ => openFirst_open hshadow⟩

/-- What closing leaves: the records of both databases, or the files as they were. -/
theorem closePair_cases {s : LineStorage α} {t : LineStorage β} {Q : α → α → Prop} {R : β → β → Prop} {D : α → Prop} {E : β → Prop}
    {M N : Set Bytes} {files : Files} {mainDb : Db α} {shadowDb : Db β} {ml sl : List Nat} (env : Env) (isShadow : Bool)
    {changed : Bool} (hQ : ∀ a b, s.Same a b → Q a b) (hR : ∀ a b, t.Same a b → R a b)
    (hmain : Checked s files.main.file Q D M mainDb ml) (hmainch : mainDb.changed = true → changed = true)
    (hshadow : isShadow = true → Checked t files.shadow.file R E N shadowDb sl)
    (hshadowch : isShadow = true → shadowDb.changed = true → changed = true) :
    (∃ code, 0 < code ∧ closePair env isShadow s.closeOps t.closeOps changed mainDb shadowDb files = .error (.status code)) ∨
    ∃ files', closePair env isShadow s.closeOps t.closeOps changed mainDb shadowDb files = .ok files' ∧
      Rewritten s Q (ml.map mainDb.record) files'.main.file ∧
      (isShadow = true → Rewritten t R (sl.map shadowDb.record) files'.shadow.file) ∧
      (isShadow = false → files'.shadow = files.shadow) := by
  unfold closePair
  cases changed with
  | false =>
    refine .inr ⟨files,rfl,hmain.untouched ?_,fun h => (hshadow h).untouched ?_,fun _ => rfl⟩
    · by_contra hch
      cases hmainch (by simpa using hch)
    · by_contra hch
      cases hshadowch h (by simpa using hch)
  | true =>
    rw [Bool.not_true,if_neg Bool.false_ne_true]
    rcases hclose : commonioClose env.selinux s.closeOps env.mainSteps mainDb files.main.file files.main with
      ⟨_ | _,mainDb',mainDisk⟩
    · exact .inl ⟨5,by decide,rfl⟩
    · have hwritten := hmain.stored hQ rfl (congrArg Prod.fst hclose)
      rw [hclose] at hwritten
      cases isShadow with
      | false => exact .inr ⟨_,rfl,hwritten,nofun,fun _ => rfl⟩
      | true =>
        rcases hclose' : commonioClose env.selinux t.closeOps env.shadowSteps shadowDb files.shadow.file files.shadow with
          ⟨_ | _,shadowDb',shadowDisk⟩
        · exact .inl ⟨5,by decide,by simp only [Bool.not_true,Bool.false_eq_true,if_false]⟩
        · simp only [Bool.not_true,Bool.false_eq_true,if_false]
          have hwritten' := (hshadow rfl).stored hR rfl (congrArg Prod.fst hclose')
          rw [hclose'] at hwritten'
          exact .inr ⟨_,rfl,hwritten,fun _ => hwritten',nofun⟩

end Pair

end UserDb.Programs
