import Mathlib

/-! Paths as texts: their components, whether one lies below another, and what becomes of both when
texts are put together. -/
namespace UserDb.Base
namespace Paths
variable {α : Type} [DecidableEq α] (sep : α)

/-- What stands between separators. -/
def components (p : List α) : List (List α) := (p.splitOn sep).filter fun c => !c.isEmpty

def isAbsolute (p : List α) : Bool := p.head? == some sep

/-- Two texts for one path. -/
def Same (p q : List α) : Prop := isAbsolute sep p = isAbsolute sep q ∧ components sep p = components sep q

/-- The root itself, or a path below it. -/
def Below (root p : List α) : Prop := isAbsolute sep root = isAbsolute sep p ∧ components sep root <+: components sep p

/-- A path below one root becomes that below another one; any other path stays. -/
def Moved (root root' p p' : List α) : Prop :=
  (Below sep root p → ∃ rest, components sep p = components sep root ++ rest ∧ isAbsolute sep p' = isAbsolute sep root' ∧
    components sep p' = components sep root' ++ rest) ∧
  (¬ Below sep root p → p' = p)

variable {sep} {a b root root' p rest : List α} {x y : α}

@[simp] theorem components_nil : components sep [] = [] := rfl

theorem components_append_sep (a b : List α) : components sep (a ++ sep :: b) = components sep a ++ components sep b := by
  unfold components
  rw [List.splitOn_eq_splitOnP,List.splitOn_eq_splitOnP,List.splitOn_eq_splitOnP,
    List.splitOnP_append_cons (p := (· == sep)) a b (beq_self_eq_true sep),List.filter_append]

private theorem components_concat_sep (a : List α) : components sep (a ++ [sep]) = components sep a := by
  rw [components_append_sep,components_nil,List.append_nil]

private theorem components_single (h : sep ∉ a) (hne : a ≠ []) : components sep a = [a] := by
  unfold components
  rw [List.splitOn_eq_singleton h]
  simp [hne]

/-- What ends in a separator is followed by further components. -/
theorem components_append_of_end (h : a = [] ∨ a.getLast? = some sep) (b : List α) :
    components sep (a ++ b) = components sep a ++ components sep b := by
  rcases h with rfl | h
  · rfl
  · obtain ⟨front,rfl⟩ := List.getLast?_eq_some_iff.mp h
    rw [List.append_assoc,List.singleton_append,components_append_sep,components_concat_sep]

theorem components_append_of_start (h : b = [] ∨ b.head? = some sep) (a : List α) :
    components sep (a ++ b) = components sep a ++ components sep b := by
  rcases h with rfl | h
  · rw [List.append_nil,components_nil,List.append_nil]
  · obtain ⟨back,rfl⟩ := List.head?_eq_some_iff.mp h
    have hsep : components sep (sep :: back) = components sep back := components_append_sep [] back
    rw [components_append_sep,hsep]

/-- The last component of a text that does not end in a separator. -/
theorem exists_last (hx : a.getLast? = some x) (hne : x ≠ sep) :
    ∃ front last, a = front ++ last ∧ (front = [] ∨ front.getLast? = some sep) ∧ sep ∉ last ∧ last ≠ [] := by
  refine ⟨a.rdropWhile (· ≠ sep),a.rtakeWhile (· ≠ sep),List.rdropWhile_append_rtakeWhile.symm,?_,?_,?_⟩
  · by_cases hnil : a.rdropWhile (· ≠ sep) = []
    · exact .inl hnil
    · right
      have hlast := List.rdropWhile_last_not _ _ hnil
      rw [List.getLast?_eq_some_getLast hnil]
      simpa using hlast
  · intro hmem
    have hnot := List.mem_rtakeWhile_imp hmem
    simp at hnot
  · obtain ⟨front,rfl⟩ := List.getLast?_eq_some_iff.mp hx
    rw [List.rtakeWhile_concat,if_pos (by simpa using hne)]
    simp

/-- The first component of a text that does not begin with a separator. -/
theorem exists_first (hy : b.head? = some y) (hne : y ≠ sep) :
    ∃ first back, b = first ++ back ∧ (back = [] ∨ back.head? = some sep) ∧ sep ∉ first ∧ first ≠ [] := by
  refine ⟨b.takeWhile (· ≠ sep),b.dropWhile (· ≠ sep),List.takeWhile_append_dropWhile.symm,?_,?_,?_⟩
  · cases hdrop : b.dropWhile (· ≠ sep) with
    | nil => exact .inl rfl
    | cons c back =>
      right
      have hnot := List.head?_dropWhile_not (fun x => decide (x ≠ sep)) b
      rw [hdrop] at hnot
      simpa using hnot
  · intro hmem
    have hnot := List.mem_takeWhile_imp hmem
    simp at hnot
  · obtain ⟨back,rfl⟩ := List.head?_eq_some_iff.mp hy
    rw [List.takeWhile_cons,if_pos (by simpa using hne)]
    exact List.cons_ne_nil _ _

/-- Where neither text has a separator at the seam, two components become one. -/
theorem components_glue (hx : a.getLast? = some x) (hxne : x ≠ sep) (hy : b.head? = some y) (hyne : y ≠ sep) :
    ∃ front last first back, components sep a = front ++ [last] ∧ components sep b = first :: back ∧ first ≠ [] ∧
      components sep (a ++ b) = front ++ (last ++ first) :: back := by
  obtain ⟨front,last,rfl,hfront,hlast,hlastne⟩ := exists_last hx hxne
  obtain ⟨first,back,rfl,hback,hfirst,hfirstne⟩ := exists_first hy hyne
  refine ⟨components sep front,last,first,components sep back,?_,?_,hfirstne,?_⟩
  · rw [components_append_of_end hfront,components_single hlast hlastne]
  · rw [components_append_of_start hback,components_single hfirst hfirstne]
    rfl
  · have hseam : sep ∉ last ++ first := by
      rw [List.mem_append,not_or]
      exact ⟨hlast,hfirst⟩
    have hwhole : front ++ last ++ (first ++ back) = front ++ ((last ++ first) ++ back) := by simp
    rw [hwhole,components_append_of_end hfront,components_append_of_start hback,components_single hseam (by simp [hlastne])]
    rfl

theorem isAbsolute_append (hne : a ≠ []) (b : List α) : isAbsolute sep (a ++ b) = isAbsolute sep a := by
  unfold isAbsolute
  rw [List.head?_append_of_ne_nil _ hne]

/-- The text of one root at the beginning of a path is replaced by that of another one. -/
def replaceRoot (root root' p : List α) : List α := if root <+: p then root' ++ p.drop root.length else p

/-- When replacing the text is moving the path: the text ends where a component ends, or the roots
are the same; and no path below the root is written in another way. -/
def MovesText (sep : α) (root root' p : List α) : Prop :=
  (∀ rest, p = root ++ rest →
    rest = [] ∨ rest.head? = some sep ∨ (root.getLast? = some sep ∧ root'.getLast? = some sep) ∨ root = root') ∧
  (¬ root <+: p → Below sep root p → Same sep root root')

private theorem replaceRoot_append (root root' rest : List α) : replaceRoot root root' (root ++ rest) = root' ++ rest := by
  rw [replaceRoot,if_pos (List.prefix_append _ _),List.drop_left]

/-- A root with components behind it. -/
theorem moved_of_components (hne : root ≠ []) (hne' : root' ≠ [])
    (h : components sep (root ++ rest) = components sep root ++ components sep rest)
    (h' : components sep (root' ++ rest) = components sep root' ++ components sep rest) :
    Moved sep root root' (root ++ rest) (root' ++ rest) := by
  refine ⟨fun _ => ⟨components sep rest,h,isAbsolute_append hne' rest,h'⟩,fun hnot => absurd ?_ hnot⟩
  exact ⟨(isAbsolute_append hne rest).symm,h ▸ List.prefix_append _ _⟩

/-- Replacing the text moves the path exactly under that condition. -/
theorem moved_replaceRoot_iff (hne : root ≠ []) (hne' : root' ≠ []) (p : List α) :
    Moved sep root root' p (replaceRoot root root' p) ↔ MovesText sep root root' p := by
  by_cases hprefix : root <+: p
  · obtain ⟨rest,rfl⟩ := hprefix
    rw [replaceRoot_append]
    have htext : MovesText sep root root' (root ++ rest) ↔
        (rest = [] ∨ rest.head? = some sep ∨ (root.getLast? = some sep ∧ root'.getLast? = some sep) ∨ root = root') := by
      constructor
      · exact fun h => h.1 rest rfl
      · intro h
        refine ⟨fun rest' heq => ?_,fun hnot => absurd (List.prefix_append _ _) hnot⟩
        rw [← List.append_cancel_left heq]
        exact h
    rw [htext]
    by_cases hstart : rest = [] ∨ rest.head? = some sep
    · exact iff_of_true (moved_of_components hne hne' (components_append_of_start hstart root) (components_append_of_start hstart root'))
        (hstart.elim .inl fun h => .inr (.inl h))
    · rw [not_or] at hstart
      obtain ⟨y,more,rfl⟩ := List.exists_cons_of_ne_nil hstart.1
      have hyne : y ≠ sep := fun h => hstart.2 (by rw [h]; rfl)
      simp only [hstart.1,hstart.2,false_or]
      obtain ⟨x,hx⟩ : ∃ x, root.getLast? = some x := ⟨_,List.getLast?_eq_some_getLast hne⟩
      obtain ⟨x',hx'⟩ : ∃ x', root'.getLast? = some x' := ⟨_,List.getLast?_eq_some_getLast hne'⟩
      by_cases hsep : x = sep
      · subst hsep
        have hcomponents := components_append_of_end (.inr hx) (y :: more)
        by_cases hsep' : x' = x
        · subst hsep'
          exact iff_of_true (moved_of_components hne hne' hcomponents (components_append_of_end (.inr hx') _)) (.inl ⟨hx,hx'⟩)
        · refine iff_of_false ?_ ?_
          · rintro ⟨hbelow,-⟩
            obtain ⟨rest,hrest,-,hrest'⟩ := hbelow ⟨(isAbsolute_append hne _).symm,hcomponents ▸ List.prefix_append _ _⟩
            rw [hcomponents] at hrest
            obtain ⟨front,last,first,back,hroot,hbehind,_,hglue⟩ := components_glue hx' hsep' (b := y :: more) rfl hyne
            rw [hglue,← List.append_cancel_left hrest,hroot,hbehind] at hrest'
            have hlength := congrArg List.length hrest'
            simp only [List.length_append,List.length_cons,List.length_nil] at hlength
            omega
          · rintro (⟨_,h⟩ | rfl)
            · rw [hx'] at h
              exact hsep' (Option.some.inj h)
            · rw [hx] at hx'
              exact hsep' (Option.some.inj hx').symm
      · obtain ⟨front,last,first,back,hroot,_,hfirst,hglue⟩ := components_glue hx hsep (b := y :: more) rfl hyne
        have hnot : ¬ Below sep root (root ++ y :: more) := by
          rintro ⟨-,hcomponents⟩
          rw [hroot,hglue,List.prefix_append_right_inj] at hcomponents
          obtain ⟨tail,htail⟩ := hcomponents
          have heq : last = last ++ first := (List.cons.inj htail).1
          exact hfirst (List.self_eq_append_right.mp heq)
        constructor
        · intro h
          exact .inr (List.append_cancel_right (h.2 hnot)).symm
        · rintro (⟨h,_⟩ | rfl)
          · rw [hx] at h
            exact absurd (Option.some.inj h) hsep
          · exact ⟨fun h => absurd h hnot,fun _ => rfl⟩
  · have hsame : replaceRoot root root' p = p := if_neg hprefix
    rw [hsame]
    constructor
    · intro h
      refine ⟨fun rest heq => absurd (heq ▸ List.prefix_append root rest) hprefix,fun _ hbelow => ?_⟩
      obtain ⟨rest,hrest,habsolute,hrest'⟩ := h.1 hbelow
      rw [hrest] at hrest'
      exact ⟨hbelow.1.trans habsolute,List.append_cancel_right hrest'⟩
    · rintro ⟨-,h⟩
      refine ⟨fun hbelow => ?_,fun _ => rfl⟩
      obtain ⟨habsolute,hcomponents⟩ := h hprefix hbelow
      obtain ⟨rest,hrest⟩ := hbelow.2
      exact ⟨rest,hrest.symm,hbelow.1.symm.trans habsolute,hcomponents ▸ hrest.symm⟩

end Paths

end UserDb.Base
