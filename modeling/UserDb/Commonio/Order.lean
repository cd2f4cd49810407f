import UserDb.Base.Comparison
import UserDb.Commonio.Passwd
import UserDb.Commonio.Shadow

/-! What a sort leaves of a database: by a comparison, in front of the NIS lines, and in the order
of the names of another database. -/
namespace UserDb.Commonio
open UserDb.Base UserDb.Base.LinkedList

variable {α : Type}

/-- By a comparison of what was parsed, with what did not parse behind it. -/
def nullLast (c : α → α → Int) (ce1 ce2 : Entry α) : Int :=
  match ce1.eptr, ce2.eptr with
  | none, _ => 1
  | some _, none => -1
  | some a, some b => c a b

section Sorts
variable {db : Db α} {c : α → α → Int} {le : α → α → Prop} {regular rest sorted l : List Nat} {e₁ e₂ : Entry α}

theorem nullLast_unparsed (h : e₁.eptr = none) : nullLast c e₁ e₂ = 1 := by
  unfold nullLast
  rw [h]

theorem nullLast_parsed {a : α} (h₁ : e₁.eptr = some a) (h₂ : e₂.eptr = none) : nullLast c e₁ e₂ = -1 := by
  unfold nullLast
  rw [h₁,h₂]

theorem nullLast_both {a b : α} (h₁ : e₁.eptr = some a) (h₂ : e₂.eptr = some b) : nullLast c e₁ e₂ = c a b := by
  unfold nullLast
  rw [h₁,h₂]

end Sorts

/-- Names are taken one after the other: each takes the first entry that is left and has it. The entries that
were taken, in this order, and those that were not. -/
def pickNames (named : Bytes → Nat → Bool) : List Bytes → List Nat → List Nat × List Nat
  | [], l => ([],l)
  | name :: names, l =>
    match l.find? (named name) with
    | none => pickNames named names l
    | some p =>
      let (picked,left) := pickNames named names (l.erase p)
      (p :: picked,left)

section SortWrt
variable {ops : Ops α} {shadow : Db α} {content : Nat → Record α} {named : Bytes → Nat → Bool} {taken : Option Nat} {l rem tk : List Nat}

private theorem pickNames_perm (named : Bytes → Nat → Bool) (names : List Bytes) (l : List Nat) :
    ((pickNames named names l).1 ++ (pickNames named names l).2).Perm l ∧ (pickNames named names l).2.Sublist l := by
  induction names generalizing l with
  | nil => exact ⟨List.Perm.refl l,List.Sublist.refl l⟩
  | cons name names ih =>
    unfold pickNames
    cases hfind : l.find? (named name) with
    | none => exact ih l
    | some p =>
      obtain ⟨hperm,hsub⟩ := ih (l.erase p)
      refine ⟨?_,hsub.trans (List.erase_sublist)⟩
      exact (hperm.cons p).trans (List.perm_cons_erase (List.mem_of_find?_eq_some hfind)).symm

/-- The loop takes the entries that are picked, the last one first. -/
theorem Taking.picks (ops : Ops α) (h : Taking content shadow taken rem tk) (names : List Bytes) :
    Taking content (names.foldl (sortWrtStep ops) (shadow,taken)).1 (names.foldl (sortWrtStep ops) (shadow,taken)).2
      (pickNames (isNamed ops content) names rem).2 ((pickNames (isNamed ops content) names rem).1.reverse ++ tk) := by
  induction names generalizing shadow taken rem tk with
  | nil => exact h
  | cons name names ih =>
    unfold pickNames
    rw [List.foldl_cons]
    rcases h.step_find ops name with ⟨hfind,heq⟩ | ⟨p,xs,ys,hfind,hrem,htaking⟩
    · rw [hfind,heq]
      exact ih h
    · rw [hfind]
      simp only [List.reverse_cons,List.append_assoc,List.singleton_append]
      have hp : p ∉ xs := fun hm => by
        have hn := (List.nodup_append.mp h.nodup).1
        rw [hrem] at hn
        exact List.disjoint_of_nodup_append hn hm List.mem_cons_self
      have herase : rem.erase p = xs ++ ys := by
        rw [hrem,List.erase_append_right _ hp,List.erase_cons_head]
      rw [herase]
      exact ih htaking

private theorem record_putBack (fuel : Nat) (taken : Option Nat) (shadow : Db α) : (shadow.putBack fuel taken).record = shadow.record := by
  induction fuel generalizing taken shadow with
  | zero => rfl
  | succ fuel ih =>
    cases taken with
    | none => rfl
    | some p =>
      rw [Db.putBack,ih]
      show ((shadow.setPrevAt shadow.head (some p)).setNext p shadow.head).record = _
      rw [record_setNext]
      exact (setPrevAt_shell shadow shadow.head (some p)).record

/-- What the order of another database makes of a list: the same entries, those that are picked in front, the
others as they stood, and all linked both ways. -/
structure SortedWrt (shadow db : Db α) (l picked left : List Nat) : Prop where
  reached : db.from db.head = picked ++ left
  perm : (picked ++ left).Perm l
  order : left.Sublist l
  linked : Linked db.nextOf db.prevOf none (picked ++ left) none
  record : db.record = shadow.record

/-- The entries of `shadow` in the order of the names of `passwd`. -/
theorem commonioSortWrt_order {β : Type} (ops : Ops α) (passwdOps : Ops β) {passwd : Db β} {m : List Nat} {stale : Bool}
    (h : Rep shadow l false) (hpasswd : Rep passwd m stale) :
    SortedWrt shadow (commonioSortWrt ops shadow passwdOps passwd) l
      (pickNames (isNamed ops shadow.record) (m.filterMap fun p => (passwd.record p).name passwdOps) l).1
      (pickNames (isNamed ops shadow.record) (m.filterMap fun p => (passwd.record p).name passwdOps) l).2 := by
  have hnames : m.filterMap (fun p => (passwd.record p).name passwdOps) = passwd.names passwdOps := by
    rw [Db.names,hpasswd.from_head]
    rfl
  rw [hnames]
  obtain ⟨hperm,hsub⟩ := pickNames_perm (isNamed ops shadow.record) (passwd.names passwdOps) l
  unfold commonioSortWrt
  by_cases hhead : shadow.head = none
  · -- an empty database is left alone
    obtain rfl : l = [] := List.head?_eq_none_iff.mp (h.head.symm.trans hhead)
    have hnil := List.perm_nil.mp hperm
    rw [if_pos hhead]
    refine ⟨?_,hperm,hsub,?_,rfl⟩
    · rw [h.from_head,hnil]
    · rw [hnil]
      trivial
  · rw [if_neg hhead]
    have htaking : Taking shadow.record shadow none l [] :=
      ⟨h,by simpa using h.nodup,by simpa using h.bound,rfl,trivial,rfl⟩
    have hrun := htaking.picks ops (passwd.names passwdOps)
    rw [List.append_nil] at hrun
    obtain ⟨hcore,_⟩ := hrun.finish
    rw [List.reverse_reverse] at hcore
    refine ⟨hcore.from_head,hperm,hsub,hcore.linked,?_⟩
    set run := (passwd.names passwdOps).foldl (sortWrtStep ops) (shadow,none)
    show ((run.1.putBack run.1.fresh run.2).setPrevAt (run.1.putBack run.1.fresh run.2).head none).record = _
    rw [(setPrevAt_shell _ _ _).record,record_putBack,hrun.content]

def passwdLinesFile : Bytes := ascii "a:x:1:1::/:\nbroken\nb:x:2:2::/:\nc:x:3:3::/:\n"

def shadowLinesFile : Bytes := ascii "b:1:::::::\nbroken\na:2:::::::\nb:3:::::::\n+\n"

def orderedPasswd : Db Passwd :=
  (commonioOpen passwdOps (Db.initial (fun _ => ⟨none,none,none,none,false⟩) 0 true) .rdwr false (fileState (some passwdLinesFile)) true).2

def unorderedShadow : Db Spwd :=
  (commonioOpen shadowOps (Db.initial (fun _ => ⟨none,none,none,none,false⟩) 0 true) .rdwr false (fileState (some shadowLinesFile)) true).2

/-- A doubled name, lines that did not parse and a NIS line: the first entries of the names come first, the others stay. -/
theorem commonioSortWrt_order_doubled :
    ∃ picked left, SortedWrt unorderedShadow (commonioSortWrt shadowOps unorderedShadow passwdOps orderedPasswd)
        (unorderedShadow.from unorderedShadow.head) picked left ∧
      picked.map (fun p => (unorderedShadow.record p).line) = [some (ascii "a:2:::::::"),some (ascii "b:1:::::::")] ∧
      left.map (fun p => (unorderedShadow.record p).line) =
        [some (ascii "broken"),some (ascii "b:3:::::::"),some (ascii "+")] := by
  have hshadow : commonioOpen shadowOps (Db.initial (fun _ => ⟨none,none,none,none,false⟩) 0 true) .rdwr false
      (fileState (some shadowLinesFile)) true = (true,unorderedShadow) := Prod.ext (by decide +kernel) rfl
  have hpasswd : commonioOpen passwdOps (Db.initial (fun _ => ⟨none,none,none,none,false⟩) 0 true) .rdwr false
      (fileState (some passwdLinesFile)) true = (true,orderedPasswd) := Prod.ext (by decide +kernel) rfl
  obtain ⟨l,_,_,hloaded,_,hstale⟩ := commonioOpen_loaded (namesParts_of_no_hook rfl) hshadow
  obtain ⟨m,_,_,hloaded',_,_⟩ := commonioOpen_loaded (namesParts_of_no_hook rfl) hpasswd
  obtain rfl := hstale rfl
  have hsorted := commonioSortWrt_order shadowOps passwdOps hloaded.rep hloaded'.rep
  rw [← hloaded.rep.from_head,← hloaded'.rep.from_head] at hsorted
  refine ⟨_,_,hsorted,?_,?_⟩
  · decide +kernel
  · decide +kernel

end SortWrt

end UserDb.Commonio
