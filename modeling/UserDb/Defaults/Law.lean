import UserDb.Defaults.Kept

/-! When the defaults file stays consistent. -/
namespace UserDb.Defaults
open UserDb.Base UserDb.Commonio

section Written
variable {e : DefaultsEnv} {r : Replacements e} {f : DefaultsFile} {d : Values} {k : DefKey} {l : Bytes}

theorem replaceValues_some {v : k.Value} (h : r.value k = some v) (d : Values) : replaceValues r d k = v := by
  rw [replaceValues,h]
  rfl

theorem replaceValues_none (h : r.value k = none) (d : Values) : replaceValues r d k = d k := by
  rw [replaceValues,h]
  rfl

theorem SameEffect.refl (k : DefKey) (v : k.Value) : SameEffect k v v := by
  cases k <;> rfl

/-- A value that was read can be written again; of the skeleton directories the prefix is a part. -/
theorem writes_old (e : DefaultsEnv) (hprefixDir : k = .skel ∨ k = .usrskel → e.prefixDir.val = [])
    (h : KeyedLines.count keyOf k (fileLines f.content) ≤ 1) : Writes k (showValue k (getDefaults e f.content k)) := by
  rcases getDefaults_cases e f h with ⟨hvalue,_⟩ | ⟨line,hline,hkey,hvalue⟩
  · rw [hvalue]
    exact writes_builtin k
  · rw [hvalue]
    exact writes_readValue hprefixDir (writes_builtin k) (writes_of_line hline hkey)

theorem writes_new (hprefixDir : k = .skel ∨ k = .usrskel → e.prefixDir.val = [])
    (hcount : KeyedLines.count keyOf k (fileLines f.content) ≤ 1)
    (hfits : ∀ v, r.value k = some v → (k.name ++ equals :: showValue k v).length < bufSize) :
    Writes k (showValue k (replaceValues r (getDefaults e f.content) k)) := by
  cases hvalue : r.value k with
  | none =>
    rw [replaceValues_none hvalue]
    exact writes_old e hprefixDir hcount
  | some v =>
    rw [replaceValues_some hvalue]
    exact writes_replaced hvalue (hfits v hvalue)

theorem Writes.line (h : Writes k (showValue k (d k))) :
    (shownLine d k).length < bufSize ∧ newline ∉ shownLine d k ∧ 0 ∉ shownLine d k := by
  have hmem : ∀ b : UInt8, b ∉ k.name → b ≠ equals → b ∉ showValue k (d k) → b ∉ shownLine d k := by
    intro b hname hequals htext
    rw [shownLine,List.mem_append,List.mem_cons,not_or,not_or]
    exact ⟨hname,hequals,htext⟩
  exact ⟨h.fits,hmem _ k.newline_notMem_name (by decide) h.noNewline,hmem _ k.zero_notMem_name (by decide) h.noZero⟩

/-- An old line that is copied is shorter than the buffer. -/
theorem old_line (hl : l ∈ (fileLines f.content).map cstring) : l.length < bufSize ∧ newline ∉ l ∧ 0 ∉ l := by
  obtain ⟨line,hline,rfl⟩ := List.mem_map.mp hl
  obtain ⟨hnewline,hfits,_⟩ := mem_fileLines hline
  have hlength := (List.takeWhile_sublist (p := (· != 0)) (l := line)).length_le
  refine ⟨Nat.lt_of_le_of_lt hlength hfits,fun h => hnewline (cstring_subset line h),?_⟩
  intro h
  have hnot := List.mem_takeWhile_imp h
  simp at hnot

theorem new_line (hw : ∀ k, Writes k (showValue k (d k))) (hl : l ∈ newLines d f.content) :
    l.length < bufSize ∧ newline ∉ l ∧ 0 ∉ l := by
  rcases KeyedLines.mem_rewrite hl with hl | ⟨k,rfl⟩
  · exact old_line hl
  · exact (hw k).line

/-- What is read again from the line of a key is what was there, up to the further groups of a list. -/
theorem sameEffect_reread_iff (hprefixDir : e.prefixDir.val = []) (hcount : KeyedLines.count keyOf k (fileLines f.content) ≤ 1) :
    SameEffect k (getDefaults e f.content k) (reread e k (getDefaults e f.content k)) ↔
      (k = .groups → ∀ line ∈ fileLines f.content, keyOf line = some .groups → OneGroup e (cstring (textOf line))) := by
  rcases getDefaults_cases e f hcount with ⟨hvalue,hsilent⟩ | ⟨line,hline,hkey,hvalue⟩
  · rw [hvalue,reread_builtin hprefixDir]
    refine iff_of_true (SameEffect.refl k _) ?_
    rintro rfl line hline hkey
    exact absurd hkey (hsilent line hline)
  · rw [hvalue]
    by_cases hk : k = .groups
    · subst hk
      rw [reread_groups]
      constructor
      · intro h _ line' hline' hkey'
        obtain ⟨before,l,after,hlines,_,hbefore,hafter⟩ := KeyedLines.exists_of_count_eq_one (Nat.le_antisymm hcount
          (Nat.one_le_iff_ne_zero.mpr fun hzero => KeyedLines.count_eq_zero.mp hzero line hline hkey))
        have hunique : ∀ x ∈ fileLines f.content, keyOf x = some .groups → x = l := by
          intro x hx hkeyx
          rw [hlines,List.mem_append,List.mem_cons] at hx
          rcases hx with hx | rfl | hx
          · exact absurd hkeyx (hbefore x hx)
          · rfl
          · exact absurd hkeyx (hafter x hx)
        rw [hunique line' hline' hkey',← hunique line hline hkey]
        exact h
      · exact fun h => h rfl line hline hkey
    · rw [reread_readValue hprefixDir hk]
      exact iff_of_true (SameEffect.refl k _) fun h => absurd h hk

private theorem others_copied (h : ∀ line ∈ fileLines f.content, keyOf line = none → 0 ∉ line) :
    (KeyedLines.others keyOf (fileLines f.content)).map cstring = KeyedLines.others keyOf (fileLines f.content) := by
  have hself : ∀ line ∈ KeyedLines.others keyOf (fileLines f.content), cstring line = id line := by
    intro line hline
    obtain ⟨hmem,hnone⟩ := List.mem_filter.mp hline
    exact cstring_eq_self (h line hmem (of_decide_eq_true hnone))
  rw [List.map_congr_left hself,List.map_id]

/-- The file that is written when the conditions hold. -/
theorem Keeps.consistent (h : Keeps e r f.content) :
    ∃ content', setDefaults e (replaceValues r (getDefaults e f.content)) f.content = some content' ∧
      Consistent e r f.content content' := by
  have hw : ∀ k, Writes k (showValue k (replaceValues r (getDefaults e f.content) k)) :=
    fun k => writes_new (fun _ => h.noPrefix) (h.once k) (h.fits k)
  have hlines := fun l (hl : l ∈ newLines (replaceValues r (getDefaults e f.content)) f.content) => new_line hw hl
  have honce : ∀ k, KeyedLines.count keyOf k (newLines (replaceValues r (getDefaults e f.content)) f.content) = 1 := by
    intro k
    rw [count_newLines]
    exact max_eq_left (h.once k)
  have hread := getDefaults_newLines (e := e) honce hlines
  have hcomplete : ∀ line ∈ Fgets.lines newline f.content, Complete line := by
    intro line hline
    rw [complete_iff hline]
    exact (h.copyable line hline).imp id fun hlast => ⟨hlast.1,hlast.2.1⟩
  have hname : (defaultFile e).length + 1 < bufSize := by
    rw [defaultFile,if_pos h.noPrefix]
    decide +kernel
  refine ⟨_,setDefaults_eq_some.mpr ⟨hcomplete,hname,rfl⟩,?_,?_,?_,?_⟩
  · intro k v hv
    rw [hread,replaceValues_some hv]
    exact reread_replaced hv
  · intro k hk
    rw [hread,replaceValues_none hk]
    exact (sameEffect_reread_iff h.noPrefix (h.once k)).mpr fun _ => h.oneGroup
  · intro k
    rw [fileLines_plain fun l hl => (hlines l hl).2.1]
    exact honce k
  · rw [fileLines_plain fun l hl => (hlines l hl).2.1,others_newLines]
    apply others_copied
    intro line hline hnone hzero
    obtain ⟨whole,hwhole,rfl⟩ := List.mem_map.mp hline
    have hzero' : 0 ∈ whole := (List.takeWhile_sublist _).subset hzero
    rcases h.copyable whole hwhole with ⟨_,hplain⟩ | ⟨hlast,_,hkey⟩
    · exact hplain hzero'
    · rw [takeWhile_whole hlast] at hnone
      exact hkey hzero' hnone

end Written

end UserDb.Defaults
