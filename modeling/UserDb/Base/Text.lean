import UserDb.Base.Bytes

/-! Text as C programs cut it up: up to its end, without the blanks around it, and at separators. -/
namespace UserDb.Base

def isBlank (b : UInt8) : Bool := b == 32 || b == 9

/-- A file as `fopen` finds it. -/
inductive ConfigFile where
  | absent
  | unreadable
  | opened (content : Bytes)

/-- What a buffer holds as a string. -/
def cstring (b : Bytes) : Bytes := b.takeWhile (· != 0)

theorem cstring_eq_self {b : Bytes} (h : 0 ∉ b) : cstring b = b :=
  List.takeWhile_eq_self_iff.mpr fun x hx => by simpa using ne_of_mem_of_not_mem hx h

/-- A string ends in front of its first zero. -/
theorem cstring_zero {front : Bytes} (h : 0 ∉ front) (back : Bytes) : cstring (front ++ 0 :: back) = front := by
  rw [cstring,List.takeWhile_append_of_pos fun x hx => by simpa using ne_of_mem_of_not_mem hx h]
  simp

theorem cstring_subset (b : Bytes) : cstring b ⊆ b := (List.takeWhile_prefix _).subset

section Trim
variable {α : Type} (p : α → Bool)

/-- Without what satisfies `p` at either end. -/
def trim (s : List α) : List α := (s.rdropWhile p).dropWhile p

variable {p} {lead core trail : List α}

theorem rdropWhile_append_all (s : List α) (h : ∀ x ∈ trail, p x = true) : (s ++ trail).rdropWhile p = s.rdropWhile p := by
  induction trail using List.reverseRecOn with
  | nil => rw [List.append_nil]
  | append_singleton trail x ih =>
    rw [← List.append_assoc,List.rdropWhile_concat_pos _ _ _ (h x (by simp)),ih fun y hy => h y (List.mem_append_left _ hy)]

theorem dropWhile_append_all (s : List α) (h : ∀ x ∈ lead, p x = true) : (lead ++ s).dropWhile p = s.dropWhile p := by
  rw [List.dropWhile_append,List.dropWhile_eq_nil_iff.mpr h]
  rfl

theorem rdropWhile_congr {q : α → Bool} (s : List α) (h : ∀ x ∈ s, p x = q x) : s.rdropWhile p = s.rdropWhile q := by
  induction s using List.reverseRecOn with
  | nil => rfl
  | append_singleton s x ih =>
    rw [List.rdropWhile_concat,List.rdropWhile_concat,h x (by simp),ih fun y hy => h y (List.mem_append_left _ hy)]

/-- Nothing is taken from a text that neither begins nor ends with what satisfies `p`. -/
theorem trim_eq (hlead : ∀ x ∈ lead, p x = true) (htrail : ∀ x ∈ trail, p x = true)
    (hfirst : ∀ x, core.head? = some x → p x = false) (hlast : ∀ x, core.getLast? = some x → p x = false) :
    trim p (lead ++ core ++ trail) = core := by
  have hend : core.rdropWhile p = core := by
    apply List.rdropWhile_eq_self_iff.mpr
    intro hne
    rw [hlast _ (List.getLast?_eq_some_getLast hne)]
    exact Bool.false_ne_true
  unfold trim
  rw [rdropWhile_append_all _ htrail]
  cases core with
  | nil => rw [List.append_nil,List.rdropWhile_eq_nil_iff.mpr hlead,List.dropWhile_nil]
  | cons x core =>
    have hstart : (lead ++ x :: core).rdropWhile p = lead ++ x :: core := by
      apply List.rdropWhile_eq_self_iff.mpr
      intro hne
      rw [List.getLast_append_of_ne_nil _ (List.cons_ne_nil x core),hlast _ (List.getLast?_eq_some_getLast _)]
      exact Bool.false_ne_true
    rw [hstart,dropWhile_append_all _ hlead]
    simp [hfirst x rfl]

/-- What is left of a text stands in it between ends that satisfy `p`. -/
theorem exists_trim (s : List α) :
    ∃ lead trail, s = lead ++ trim p s ++ trail ∧ (∀ x ∈ lead, p x = true) ∧ ∀ x ∈ trail, p x = true := by
  refine ⟨(s.rdropWhile p).takeWhile p,s.rtakeWhile p,?_,fun x hx => List.mem_takeWhile_imp hx,fun x hx => List.mem_rtakeWhile_imp hx⟩
  unfold trim
  rw [List.takeWhile_append_dropWhile,List.rdropWhile_append_rtakeWhile]

theorem trim_head {s : List α} {x : α} (h : (trim p s).head? = some x) : p x = false := by
  have hnot := List.head?_dropWhile_not p (s.rdropWhile p)
  rw [trim] at h
  rw [h] at hnot
  exact hnot

theorem trim_getLast {s : List α} {x : α} (h : (trim p s).getLast? = some x) : p x = false := by
  have hwhole : (s.rdropWhile p).getLast? = some x := by
    rw [← List.takeWhile_append_dropWhile (p := p) (l := s.rdropWhile p),List.getLast?_append]
    rw [trim] at h
    rw [h]
    rfl
  have hne : s.rdropWhile p ≠ [] := by
    intro hnil
    rw [hnil] at hwhole
    cases hwhole
  rw [List.getLast?_eq_some_getLast hne,Option.some.injEq] at hwhole
  rw [← hwhole]
  exact Bool.eq_false_iff.mpr (List.rdropWhile_last_not _ _ hne)

end Trim

section Split
variable {sep : UInt8}

/-- Two separators cut a text in three. -/
theorem splitOn_three {a b c : Bytes} (ha : sep ∉ a) (hb : sep ∉ b) (hc : sep ∉ c) :
    (a ++ sep :: (b ++ sep :: c)).splitOn sep = [a,b,c] := by
  rw [List.splitOn_append_cons_self_of_not_mem ha,List.splitOn_append_cons_self_of_not_mem hb,List.splitOn_eq_singleton hc]

theorem of_splitOn_three {text a b c : Bytes} (h : text.splitOn sep = [a,b,c]) :
    text = a ++ sep :: (b ++ sep :: c) ∧ sep ∉ a ∧ sep ∉ b ∧ sep ∉ c := by
  refine ⟨?_,?_,?_,?_⟩
  · have hjoin : [sep].intercalate (text.splitOn sep) = text := List.intercalate_splitOn sep
    rw [h] at hjoin
    rw [← hjoin]
    simp
  · exact notMem_of_mem_splitOn (h ▸ List.mem_cons_self)
  · have hb : b ∈ text.splitOn sep := by simp [h]
    exact notMem_of_mem_splitOn hb
  · have hc : c ∈ text.splitOn sep := by simp [h]
    exact notMem_of_mem_splitOn hc

/-- A text has one first separator. -/
theorem cut_unique {a a' b b' : Bytes} (ha : sep ∉ a) (ha' : sep ∉ a') (h : a ++ sep :: b = a' ++ sep :: b') :
    a = a' ∧ b = b' := by
  induction a generalizing a' with
  | nil =>
    cases a' with
    | nil => exact ⟨rfl,(List.cons.inj h).2⟩
    | cons x a' => exact absurd ((List.cons.inj h).1 ▸ List.mem_cons_self) ha'
  | cons x a ih =>
    cases a' with
    | nil => exact absurd ((List.cons.inj h).1 ▸ List.mem_cons_self) ha
    | cons y a' =>
      simp only [List.cons_append,List.cons.injEq] at h
      obtain ⟨rfl,h⟩ := h
      obtain ⟨rfl,rfl⟩ := ih (fun hm => ha (List.mem_cons_of_mem _ hm)) (fun hm => ha' (List.mem_cons_of_mem _ hm)) h
      exact ⟨rfl,rfl⟩

end Split

end UserDb.Base
