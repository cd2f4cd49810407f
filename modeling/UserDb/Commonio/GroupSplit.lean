import UserDb.Commonio.Close
import UserDb.Commonio.Group

/-! Groups with too many members are split over several entries when the file is closed. -/
namespace UserDb.Commonio
open UserDb.Base UserDb.Base.LinkedList

/-- The first members stay in the entry, and a new entry behind it takes the rest. -/
def Db.splitOne (maxMembers : Nat) (db : Db Group) (gr : Nat) (gptr : Group) : Db Group :=
  ((db.store gr { db.entries gr with eptr := some { gptr with members := gptr.members.take maxMembers } }).allocate
    ⟨none,some { gptr with members := gptr.members.drop maxMembers },some gr,db.nextOf gr,true⟩).setNext gr
      (some db.fresh)

/-- One pass over the entries; a new part is looked at next, and may be split again. -/
def Db.splitGroups (maxMembers : Nat) : Nat → Option Nat → Db Group → Db Group
  | fuel + 1, some gr, db =>
    match (db.entries gr).eptr with
    | some gptr =>
      if (db.entries gr).changed && maxMembers < gptr.members.length then
        let db := db.splitOne maxMembers gr gptr
        db.splitGroups maxMembers fuel (db.nextOf gr)
      else db.splitGroups maxMembers fuel (db.nextOf gr)
    | none => db.splitGroups maxMembers fuel (db.nextOf gr)
  | _, _, db => db

/-- A bound on the steps of the pass: every entry, and every member for a part of its own. -/
def Db.splitSteps (db : Db Group) : Nat :=
  ((db.from db.head).map fun p => 1 + ((db.entries p).eptr.elim 0 fun gptr => gptr.members.length)).sum

/-- Without the memory for a new part the hook fails. -/
def groupCloseHook (maxMembers : Nat) (db : Db Group) (memory : Bool) : Option (Db Group) :=
  if maxMembers = 0 then some db
  else if memory then some (db.splitGroups maxMembers db.splitSteps db.head)
  else none

def groupCloseOps (maxMembers : Nat) (putgrent : Putgrent) (memory : Bool) : CloseOps Group where
  put := groupPut putgrent
  closeHook db := groupCloseHook maxMembers db memory

/-- The parts of a group, in the order in which they are written. -/
def splitGroup (maxMembers : Nat) (gr : Group) : List Group :=
  if 0 < maxMembers ∧ maxMembers < gr.members.length then
    { gr with members := gr.members.take maxMembers } ::
      splitGroup maxMembers { gr with members := gr.members.drop maxMembers }
  else [gr]
  termination_by gr.members.length
  decreasing_by
    rw [List.length_drop]
    omega

/-- The records that stand for a record after the close hook: a new part has no line. -/
def splitRecord (maxMembers : Nat) (r : Record Group) : List (Record Group) :=
  match r.changed, r.eptr with
  | true, some gr =>
    match splitGroup maxMembers gr with
    | first :: rest => { r with eptr := some first } :: rest.map fun part => ⟨none,some part,true⟩
    | [] => []
  | _, _ => [r]

section Splitting
variable {maxMembers : Nat}

private theorem splitGroup_small {gr : Group} (h : gr.members.length ≤ maxMembers) : splitGroup maxMembers gr = [gr] := by
  rw [splitGroup,if_neg (by omega)]

private theorem splitGroup_large {gr : Group} (hm : 0 < maxMembers) (h : maxMembers < gr.members.length) :
    splitGroup maxMembers gr = { gr with members := gr.members.take maxMembers } ::
      splitGroup maxMembers { gr with members := gr.members.drop maxMembers } := by
  rw [splitGroup,if_pos ⟨hm,h⟩]

theorem splitGroup_ne_nil (maxMembers : Nat) (gr : Group) : splitGroup maxMembers gr ≠ [] := by
  rw [splitGroup]
  split <;> simp

/-- One split of a changed record. -/
theorem splitRecord_large {r : Record Group} {gr : Group} (hm : 0 < maxMembers) (hc : r.changed = true)
    (hr : r.eptr = some gr) (h : maxMembers < gr.members.length) :
    splitRecord maxMembers r =
      { r with eptr := some { gr with members := gr.members.take maxMembers } } ::
        splitRecord maxMembers ⟨none,some { gr with members := gr.members.drop maxMembers },true⟩ := by
  obtain ⟨first,rest,hrest⟩ := List.exists_cons_of_ne_nil
    (splitGroup_ne_nil maxMembers { gr with members := gr.members.drop maxMembers })
  simp only [splitRecord,hc,hr,splitGroup_large hm h,hrest,List.map_cons]

private theorem splitRecord_small {r : Record Group}
    (h : r.changed = true → ∀ gr ∈ r.eptr, gr.members.length ≤ maxMembers) : splitRecord maxMembers r = [r] := by
  obtain ⟨line,eptr,changed⟩ := r
  cases changed <;> cases eptr <;> try rfl
  rename_i gr
  simp [splitRecord,splitGroup_small (h rfl gr rfl)]

/-- What the pass may have to do for an entry. -/
def splitCost (r : Record Group) : Nat := 1 + (r.eptr.elim 0 fun gr => gr.members.length)

private theorem nextOf_splitOne (maxMembers : Nat) (db : Db Group) {gr : Nat} (gptr : Group) (hgr : gr ≠ db.fresh) :
    (db.splitOne maxMembers gr gptr).nextOf =
      Function.update (Function.update db.nextOf db.fresh (db.nextOf gr)) gr (some db.fresh) := by
  rw [Db.splitOne,nextOf_setNext]
  congr 1
  funext p
  by_cases hp : p = db.fresh
  · subst hp
    simp [Db.nextOf,Db.allocate,Db.store]
  · rw [Function.update_of_ne hp]
    by_cases hpg : p = gr
    · subst hpg
      simp [Db.nextOf,Db.allocate,Db.store,hgr]
    · simp [Db.nextOf,Db.allocate,Db.store,hp,hpg]

private theorem record_splitOne (maxMembers : Nat) (db : Db Group) (gr : Nat) (gptr : Group) :
    (db.splitOne maxMembers gr gptr).record =
      Function.update (Function.update db.record gr
        { db.record gr with eptr := some { gptr with members := gptr.members.take maxMembers } })
        db.fresh ⟨none,some { gptr with members := gptr.members.drop maxMembers },true⟩ := by
  rw [Db.splitOne,record_setNext,record_allocate,record_store]
  rfl

/-- A pass over `ys` behind the entries `xs`, which it leaves alone. -/
theorem splitGroups_spec {db : Db Group} {xs ys : List Nat} (hm : 0 < maxMembers)
    (hc : Forward db.nextOf (xs ++ ys)) (hn : (xs ++ ys).Nodup) (hb : ∀ p ∈ xs ++ ys, p < db.fresh) {fuel : Nat}
    (hfuel : (ys.map fun p => splitCost (db.record p)).sum ≤ fuel) :
    ∃ ys', Forward (db.splitGroups maxMembers fuel ys.head?).nextOf (xs ++ ys') ∧ (xs ++ ys').Nodup ∧
      (∀ p ∈ xs ++ ys', p < (db.splitGroups maxMembers fuel ys.head?).fresh) ∧
      ys'.map (db.splitGroups maxMembers fuel ys.head?).record =
        (ys.map db.record).flatMap (splitRecord maxMembers) ∧
      (∀ p ∈ xs, (db.splitGroups maxMembers fuel ys.head?).record p = db.record p) ∧
      (db.splitGroups maxMembers fuel ys.head?).head = db.head ∧ ys'.head? = ys.head? := by
  induction fuel generalizing db xs ys with
  | zero =>
    cases ys with
    | nil => exact ⟨[],hc,hn,hb,rfl,fun _ _ => rfl,rfl,rfl⟩
    | cons gr ys =>
      rw [List.map_cons,List.sum_cons,splitCost] at hfuel
      omega
  | succ fuel ih =>
    cases ys with
    | nil => exact ⟨[],hc,hn,hb,rfl,fun _ _ => rfl,rfl,rfl⟩
    | cons gr ys =>
      have hnext := hc.next_eq
      rw [List.map_cons,List.sum_cons] at hfuel
      by_cases hsplit : (db.record gr).changed = true ∧ ∃ gptr ∈ (db.record gr).eptr, maxMembers < gptr.members.length
      · obtain ⟨hch,gptr,hg,hlt⟩ := hsplit
        have hfresh : db.fresh ∉ xs ++ gr :: ys := fun hm => lt_irrefl _ (hb _ hm)
        have hgr : gr ≠ db.fresh := ne_of_mem_of_not_mem (by simp) hfresh
        have hnotgr : ∀ p ∈ xs ++ ys, p ≠ gr := by
          have hnd := (List.nodup_cons.mp (List.nodup_middle.mp hn)).1
          exact fun p hp => ne_of_mem_of_not_mem hp hnd
        have hnext' := nextOf_splitOne maxMembers db gptr hgr
        have hrec' := record_splitOne maxMembers db gr gptr
        have hkeep : ∀ p ∈ xs ++ ys, (db.splitOne maxMembers gr gptr).record p = db.record p := fun p hp => by
          have hpf : p ≠ db.fresh := ne_of_mem_of_not_mem (by
            rcases List.mem_append.mp hp with hp | hp <;> simp [hp]) hfresh
          rw [hrec',Function.update_of_ne hpf,Function.update_of_ne (hnotgr p hp)]
        have hstep : db.splitGroups maxMembers (fuel+1) (gr :: ys).head? =
            (db.splitOne maxMembers gr gptr).splitGroups maxMembers fuel (db.fresh :: ys).head? := by
          have hg : (db.entries gr).eptr = some gptr := hg
          have hch : (db.entries gr).changed = true := hch
          have hfirst : (db.splitOne maxMembers gr gptr).nextOf gr = some db.fresh := by
            rw [hnext',Function.update_self]
          rw [List.head?_cons,List.head?_cons,← hfirst,Db.splitGroups]
          simp only [hg,hch,Bool.true_and,hlt,decide_true,if_true]
        have hc1 : Forward (db.splitOne maxMembers gr gptr).nextOf ((xs ++ [gr]) ++ db.fresh :: ys) := by
          rw [hnext',List.append_assoc]
          exact hc.insertAfter hn hfresh
        have hn1 : ((xs ++ [gr]) ++ db.fresh :: ys).Nodup := by
          refine List.nodup_middle.mpr (List.nodup_cons.mpr ⟨?_,?_⟩)
          · simpa using hfresh
          · simpa using hn
        have hb1 : ∀ p ∈ (xs ++ [gr]) ++ db.fresh :: ys, p < (db.splitOne maxMembers gr gptr).fresh := fun p hp => by
          show p < db.fresh + 1
          rcases List.mem_cons.mp (List.perm_middle.mem_iff.mp hp) with rfl | hp
          · exact Nat.lt_succ_self _
          · exact Nat.lt_succ_of_lt (hb p (by simpa using hp))
        have hcost : ((db.fresh :: ys).map fun p => splitCost ((db.splitOne maxMembers gr gptr).record p)).sum
            ≤ fuel := by
          have hys : (ys.map fun p => splitCost ((db.splitOne maxMembers gr gptr).record p)) =
              ys.map fun p => splitCost (db.record p) :=
            List.map_congr_left fun p hp => by rw [hkeep p (List.mem_append_right xs hp)]
          have hg : (db.record gr).eptr = some gptr := hg
          rw [List.map_cons,List.sum_cons,hys,hrec',Function.update_self]
          simp only [splitCost,hg,Option.elim_some,List.length_drop] at hfuel ⊢
          omega
        obtain ⟨ys',hc',hn',hb',hmap,hxs,hhead,_⟩ := ih hc1 hn1 hb1 hcost
        rw [← List.append_cons] at hc' hn' hb'
        rw [hstep]
        refine ⟨gr :: ys',hc',hn',hb',?_,fun p hp => ?_,hhead,rfl⟩
        · have hgr1 : (db.splitOne maxMembers gr gptr).record gr =
              { db.record gr with eptr := some { gptr with members := gptr.members.take maxMembers } } := by
            rw [hrec',Function.update_of_ne hgr,Function.update_self]
          have hys : ys.map (db.splitOne maxMembers gr gptr).record = ys.map db.record :=
            List.map_congr_left fun p hp => hkeep p (List.mem_append_right xs hp)
          have hnew : (db.splitOne maxMembers gr gptr).record db.fresh =
              ⟨none,some { gptr with members := gptr.members.drop maxMembers },true⟩ := by
            rw [hrec',Function.update_self]
          rw [List.map_cons,hmap,hxs gr (List.mem_append_right xs List.mem_cons_self),hgr1,List.map_cons,
            hnew,hys,List.map_cons,List.flatMap_cons,List.flatMap_cons,splitRecord_large hm hch hg hlt,
            List.cons_append]
        · rw [hxs p (List.mem_append_left _ hp),hkeep p (List.mem_append_left ys hp)]
      · have hsmall : splitRecord maxMembers (db.record gr) = [db.record gr] :=
          splitRecord_small fun hch gptr hg => Nat.le_of_not_lt fun hlt => hsplit ⟨hch,gptr,hg,hlt⟩
        have hstep : db.splitGroups maxMembers (fuel+1) (gr :: ys).head? =
            db.splitGroups maxMembers fuel ys.head? := by
          rw [List.head?_cons,Db.splitGroups,hnext]
          cases hg : (db.entries gr).eptr with
          | none => rfl
          | some gptr =>
            refine if_neg fun h => hsplit ?_
            obtain ⟨hch,hlt⟩ := Bool.and_eq_true_iff.mp h
            exact ⟨hch,gptr,hg,of_decide_eq_true hlt⟩
        rw [List.append_cons] at hc hn hb
        have hcost : (ys.map fun p => splitCost (db.record p)).sum ≤ fuel := by
          unfold splitCost at hfuel ⊢
          omega
        obtain ⟨ys',hc',hn',hb',hmap,hxs,hhead,_⟩ := ih hc hn hb hcost
        rw [← List.append_cons] at hc' hn' hb'
        rw [hstep]
        refine ⟨gr :: ys',hc',hn',hb',?_,fun p hp => hxs p (List.mem_append_left _ hp),hhead,rfl⟩
        rw [List.map_cons,hmap,hxs gr (List.mem_append_right xs List.mem_cons_self),List.map_cons,
          List.flatMap_cons,hsmall,List.singleton_append]

private theorem splitGroups_isopen (fuel : Nat) (pos : Option Nat) (db : Db Group) :
    (db.splitGroups maxMembers fuel pos).isopen = db.isopen := by
  induction fuel generalizing pos db with
  | zero => rfl
  | succ fuel ih =>
    cases pos with
    | none => rfl
    | some gr =>
      rw [Db.splitGroups]
      split
      · split
        · exact ih _ _
        · exact ih _ _
      · exact ih _ _

private theorem groupCloseHook_isopen {memory : Bool} {db db₁ : Db Group} (h : groupCloseHook maxMembers db memory = some db₁) :
    db₁.isopen = db.isopen := by
  unfold groupCloseHook at h
  split at h
  · cases h
    rfl
  · split at h
    · cases h
      exact splitGroups_isopen _ _ _
    · cases h

end Splitting

/-- Closing any of the databases, with the hook of the group file or without one. -/
theorem close_is_all_or_nothing :
    (∀ (α : Type) (put : α → Option Bytes), ClosesTruthfully (plainCloseOps put)) ∧
      ∀ (maxMembers : Nat) (putgrent : Putgrent) (memory : Bool),
        ClosesTruthfully (groupCloseOps maxMembers putgrent memory) := by
  refine ⟨fun α put => closesTruthfully_of_hook fun db₁ db₂ h => ?_,
    fun maxMembers putgrent memory => closesTruthfully_of_hook fun db₁ db₂ h => groupCloseHook_isopen h⟩
  rw [Option.some.inj h]

end UserDb.Commonio
