import Mathlib

/-! A file of lines, some of which set the value of a key: reading the values, and writing them back
in the place of those lines. -/
namespace UserDb.Base
namespace KeyedLines
variable {Line Key : Type} [DecidableEq Key] {Value : Key → Type} (keyOf : Line → Option Key)

section Reading
variable (read : (k : Key) → Value k → Line → Value k)

/-- A line of a key changes the value of that key only. -/
def readLine (d : (k : Key) → Value k) (line : Line) : (k : Key) → Value k :=
  match keyOf line with
  | none => d
  | some k => Function.update d k (read k (d k) line)

variable {keyOf read} {d : (k : Key) → Value k} {line : Line} {lines : List Line} {k : Key}

theorem readLine_silent (h : keyOf line ≠ some k) : readLine keyOf read d line k = d k := by
  unfold readLine
  cases hkey : keyOf line with
  | none => rfl
  | some k' => exact Function.update_of_ne (fun heq : k = k' => h (by rw [hkey,heq])) _ _

theorem readLine_self (h : keyOf line = some k) : readLine keyOf read d line k = read k (d k) line := by
  unfold readLine
  rw [h]
  exact Function.update_self k _ d

theorem foldl_silent (h : ∀ line ∈ lines, keyOf line ≠ some k) : lines.foldl (readLine keyOf read) d k = d k := by
  induction lines generalizing d with
  | nil => rfl
  | cons line lines ih =>
    rw [List.foldl_cons,ih fun l hl => h l (List.mem_cons_of_mem _ hl),readLine_silent (h line List.mem_cons_self)]

/-- One line of a key gives it its value. -/
theorem foldl_once {before after : List Line} (hbefore : ∀ l ∈ before, keyOf l ≠ some k) (hline : keyOf line = some k)
    (hafter : ∀ l ∈ after, keyOf l ≠ some k) : (before ++ line :: after).foldl (readLine keyOf read) d k = read k (d k) line := by
  rw [List.foldl_append,List.foldl_cons,foldl_silent hafter,readLine_self hline,foldl_silent hbefore]

/-- What a key has at the end, some line of it has given it, if there is one. -/
theorem foldl_last (h : ∃ line ∈ lines, keyOf line = some k) :
    ∃ line ∈ lines, keyOf line = some k ∧ ∃ cur, lines.foldl (readLine keyOf read) d k = read k cur line := by
  induction lines using List.reverseRecOn with
  | nil =>
    obtain ⟨line,hline,_⟩ := h
    cases hline
  | append_singleton lines line ih =>
    rw [List.foldl_append,List.foldl_cons,List.foldl_nil]
    by_cases hline : keyOf line = some k
    · exact ⟨line,by simp,hline,_,readLine_self hline⟩
    · rw [readLine_silent hline]
      obtain ⟨l,hl,hkey⟩ := h
      rcases List.mem_append.mp hl with hl | hl
      · obtain ⟨l',hl',hlast⟩ := ih ⟨l,hl,hkey⟩
        exact ⟨l',List.mem_append_left _ hl',hlast⟩
      · exact absurd ((List.mem_singleton.mp hl) ▸ hkey) hline

end Reading

section Writing
variable (shown : Key → Line) (keys : List Key)

/-- The first line of each key is replaced, further ones stay, and those of the other keys are added. -/
def rewrite : List Line → List Key → List Line
  | [], out => (keys.filter (· ∉ out)).map shown
  | line :: lines, out =>
    match keyOf line with
    | none => line :: rewrite lines out
    | some k => if k ∈ out then line :: rewrite lines out else shown k :: rewrite lines (k :: out)

/-- How many lines a key has. -/
def count (k : Key) (lines : List Line) : Nat := lines.countP fun line => keyOf line = some k

/-- The lines of no key. -/
def others (lines : List Line) : List Line := lines.filter fun line => keyOf line = none

variable {keyOf shown keys} {lines : List Line} {line : Line} {k : Key} {out : List Key}

theorem count_cons (k : Key) (line : Line) (lines : List Line) :
    count keyOf k (line :: lines) = count keyOf k lines + if keyOf line = some k then 1 else 0 := by
  rw [count,List.countP_cons,count]
  simp

theorem count_eq_zero : count keyOf k lines = 0 ↔ ∀ line ∈ lines, keyOf line ≠ some k := by
  rw [count,List.countP_eq_zero]
  simp

theorem count_append (k : Key) (lines lines' : List Line) : count keyOf k (lines ++ lines') = count keyOf k lines + count keyOf k lines' :=
  List.countP_append

/-- The lines of a key that are added at the end. -/
theorem count_missing (hshown : ∀ k, keyOf (shown k) = some k) (hnodup : keys.Nodup) (hk : k ∈ keys) (out : List Key) :
    count keyOf k ((keys.filter (· ∉ out)).map shown) = if k ∈ out then 0 else 1 := by
  have hcount : count keyOf k ((keys.filter (· ∉ out)).map shown) = (keys.filter (· ∉ out)).count k := by
    rw [count,List.countP_map,List.count]
    apply List.countP_congr
    intro k' _
    simp [hshown]
  rw [hcount]
  by_cases hout : k ∈ out
  · rw [if_pos hout,List.count_eq_zero]
    simp [hout]
  · rw [if_neg hout]
    exact List.count_eq_one_of_mem (hnodup.filter _) (by simp [hk,hout])

/-- A key has one line at least, and more only where it had more. -/
theorem count_rewrite (hshown : ∀ k, keyOf (shown k) = some k) (hnodup : keys.Nodup) (hk : k ∈ keys) (lines : List Line) (out : List Key) :
    count keyOf k (rewrite keyOf shown keys lines out) =
      if k ∈ out then count keyOf k lines else max 1 (count keyOf k lines) := by
  induction lines generalizing out with
  | nil => exact count_missing hshown hnodup hk out
  | cons line lines ih =>
    rw [rewrite,count_cons]
    split
    · rename_i hnone
      rw [count_cons,ih,hnone]
      simp
    · rename_i k' hk'
      by_cases hout : k' ∈ out
      · rw [if_pos hout,count_cons,ih,hk']
        by_cases heq : k' = k
        · subst heq
          simp [hout]
        · simp [heq]
      · rw [if_neg hout,count_cons,ih,hk',hshown]
        by_cases heq : k' = k
        · subst heq
          simp [hout]
        · have hne : k ≠ k' := Ne.symm heq
          simp [heq,hne]

theorem others_rewrite (hshown : ∀ k, keyOf (shown k) = some k) (lines : List Line) (out : List Key) :
    others keyOf (rewrite keyOf shown keys lines out) = others keyOf lines := by
  induction lines generalizing out with
  | nil =>
    rw [rewrite,others,List.filter_eq_nil_iff.mpr,others,List.filter_nil]
    intro line hline
    obtain ⟨k,_,rfl⟩ := List.mem_map.mp hline
    simp [hshown]
  | cons line lines ih =>
    have ih' := fun out => ih out
    unfold others at ih' ⊢
    rw [rewrite]
    split
    · rename_i hnone
      rw [List.filter_cons_of_pos (by simpa using hnone),List.filter_cons_of_pos (by simpa using hnone),ih']
    · rename_i k hk
      rw [List.filter_cons_of_neg (by simp [hk])]
      split
      · rw [List.filter_cons_of_neg (by simp [hk]),ih']
      · rw [List.filter_cons_of_neg (by simp [hshown]),ih']

/-- Each key that is not out yet gets its line. -/
theorem shown_mem_rewrite (hk : k ∈ keys) (hout : k ∉ out) : shown k ∈ rewrite keyOf shown keys lines out := by
  induction lines generalizing out with
  | nil => exact List.mem_map.mpr ⟨k,by simp [hk,hout],rfl⟩
  | cons line lines ih =>
    rw [rewrite]
    split
    · exact List.mem_cons_of_mem _ (ih hout)
    · rename_i k' hk'
      split
      · exact List.mem_cons_of_mem _ (ih hout)
      · by_cases heq : k = k'
        · rw [heq]
          exact List.mem_cons_self
        · apply List.mem_cons_of_mem
          apply ih
          rw [List.mem_cons,not_or]
          exact ⟨heq,hout⟩

/-- Where each line is of one key or of none, the lines add up. -/
theorem length_eq [Fintype Key] (lines : List Line) : lines.length = (others keyOf lines).length + ∑ k, count keyOf k lines := by
  induction lines with
  | nil => simp [others,count]
  | cons line lines ih =>
    have hcount : ∀ k, count keyOf k (line :: lines) = count keyOf k lines + if keyOf line = some k then 1 else 0 :=
      fun k => count_cons k line lines
    simp only [hcount,Finset.sum_add_distrib,List.length_cons,ih]
    cases hline : keyOf line with
    | none => simp [others,hline]; omega
    | some k => simp [others,hline]; omega

/-- A key with one line has it at one place. -/
theorem exists_of_count_eq_one (h : count keyOf k lines = 1) :
    ∃ before line after, lines = before ++ line :: after ∧ keyOf line = some k ∧ (∀ l ∈ before, keyOf l ≠ some k) ∧
      ∀ l ∈ after, keyOf l ≠ some k := by
  have hpos : ∃ line ∈ lines, keyOf line = some k := by
    by_contra hnone
    push Not at hnone
    rw [count_eq_zero.mpr hnone] at h
    cases h
  obtain ⟨line,hmem,hline⟩ := hpos
  obtain ⟨before,after,rfl⟩ := List.append_of_mem hmem
  rw [count_append,count_cons,if_pos hline] at h
  refine ⟨before,line,after,rfl,hline,count_eq_zero.mp (by omega),count_eq_zero.mp (by omega)⟩

/-- What is written is what was there, or the line of a key. -/
theorem mem_rewrite (h : line ∈ rewrite keyOf shown keys lines out) : line ∈ lines ∨ ∃ k, line = shown k := by
  induction lines generalizing out with
  | nil =>
    obtain ⟨k,_,rfl⟩ := List.mem_map.mp h
    exact .inr ⟨k,rfl⟩
  | cons l lines ih =>
    rw [rewrite] at h
    have hstep : ∀ {l' out'}, line ∈ l' :: rewrite keyOf shown keys lines out' → (l' = l ∨ ∃ k, l' = shown k) →
        line ∈ l :: lines ∨ ∃ k, line = shown k := by
      intro l' out' hmem hl'
      rcases List.mem_cons.mp hmem with rfl | hmem
      · rcases hl' with rfl | hl'
        · exact .inl List.mem_cons_self
        · exact .inr hl'
      · exact (ih hmem).imp (List.mem_cons_of_mem _) id
    split at h
    · exact hstep h (.inl rfl)
    · split at h
      · exact hstep h (.inl rfl)
      · exact hstep h (.inr ⟨_,rfl⟩)

end Writing

end KeyedLines

end UserDb.Base
