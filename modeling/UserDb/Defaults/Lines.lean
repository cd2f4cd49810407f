import UserDb.Defaults.Values

/-! The lines of a defaults file: which key one is of, and how the file is copied line by line. -/
namespace UserDb.Defaults
open UserDb.Base UserDb.Commonio

section Key
variable {line name text : Bytes} {k k' : DefKey}

namespace DefKey

private theorem name_injective (h : k.name = k'.name) : k = k' := by
  revert k k'
  decide +kernel

theorem equals_notMem_name (k : DefKey) : equals ∉ k.name := by
  cases k <;> decide +kernel

theorem newline_notMem_name (k : DefKey) : newline ∉ k.name := by
  cases k <;> decide +kernel

theorem zero_notMem_name (k : DefKey) : 0 ∉ k.name := by
  cases k <;> decide +kernel

private theorem ofName_iff : ofName name = some k ↔ name = k.name := by
  unfold ofName
  constructor
  · intro h
    have hname := List.find?_some (p := fun k : DefKey => k.name == name) h
    exact (eq_of_beq hname).symm
  · rintro rfl
    cases hfind : all.find? fun k' => k'.name == k.name with
    | none =>
      have hnone := List.find?_eq_none.mp hfind k (mem_all k)
      simp at hnone
    | some k' =>
      have hname := List.find?_some (p := fun k' : DefKey => k'.name == k.name) hfind
      rw [name_injective (eq_of_beq hname)]

end DefKey

theorem stpsep_of_notMem {sep : UInt8} (h : sep ∉ line) : stpsep sep line = (line,none) := by
  have hdrop : line.dropWhile (· != sep) = [] := List.dropWhile_eq_nil_iff.mpr fun b hb => by simpa using ne_of_mem_of_not_mem hb h
  rw [stpsep,hdrop]

theorem stpsep_append {sep : UInt8} (h : sep ∉ name) (text : Bytes) : stpsep sep (name ++ sep :: text) = (name,some text) := by
  have hall : ∀ b ∈ name, (b != sep) = true := fun b hb => by simpa using ne_of_mem_of_not_mem hb h
  have hdrop : (name ++ sep :: text).dropWhile (· != sep) = sep :: text := by
    rw [List.dropWhile_append_of_pos hall]
    simp
  have htake : (name ++ sep :: text).takeWhile (· != sep) = name := by
    rw [List.takeWhile_append_of_pos hall]
    simp
  rw [stpsep,hdrop,htake]

/-- A text has a separator, or has not. -/
theorem stpsep_cases (sep : UInt8) (line : Bytes) :
    (sep ∉ line ∧ stpsep sep line = (line,none)) ∨
      ∃ name text, sep ∉ name ∧ line = name ++ sep :: text ∧ stpsep sep line = (name,some text) := by
  by_cases hmem : sep ∈ line
  · obtain ⟨name,text,heq,hname⟩ := List.eq_append_cons_of_mem hmem
    exact .inr ⟨name,text,hname,heq,heq ▸ stpsep_append hname text⟩
  · exact .inl ⟨hmem,stpsep_of_notMem hmem⟩

theorem stpsep_cons (sep b : UInt8) (s : Bytes) :
    stpsep sep (b :: s) = if b = sep then ([],some s) else (b :: (stpsep sep s).1,(stpsep sep s).2) := by
  unfold stpsep
  by_cases hb : b = sep
  · simp [hb]
  · have hne : (fun c => c != sep) b = true := by simpa using hb
    rw [if_neg hb,List.dropWhile_cons_of_pos (p := fun c => c != sep) hne,List.takeWhile_cons_of_pos (p := fun c => c != sep) hne]
    cases s.dropWhile (· != sep) with
    | nil => rfl
    | cons c rest => rfl

theorem stpsep_notMem (sep : UInt8) (s : Bytes) : sep ∉ (stpsep sep s).1 := by
  rcases stpsep_cases sep s with ⟨hnone,heq⟩ | ⟨name,text,hname,_,heq⟩
  · rw [heq]
    exact hnone
  · rw [heq]
    exact hname

theorem stpsep_length (sep : UInt8) (s : Bytes) : (stpsep sep s).1.length ≤ s.length := by
  rcases stpsep_cases sep s with ⟨_,heq⟩ | ⟨name,text,_,rfl,heq⟩
  · rw [heq]
  · rw [heq,List.length_append]
    exact Nat.le_add_right _ _

theorem keyOf_of_notMem (h : equals ∉ line) : keyOf line = none := by
  rw [keyOf,stpsep_of_notMem h]

theorem keyOf_append (h : equals ∉ name) (text : Bytes) : keyOf (name ++ equals :: text) = DefKey.ofName name := by
  rw [keyOf,stpsep_append h]

/-- A line of a key begins with its name and an equals sign. -/
theorem keyOf_iff : keyOf line = some k ↔ ∃ text, line = k.name ++ equals :: text := by
  constructor
  · intro h
    rcases stpsep_cases equals line with ⟨hmem,_⟩ | ⟨name,text,hname,rfl,_⟩
    · rw [keyOf_of_notMem hmem] at h
      cases h
    · rw [keyOf_append hname,DefKey.ofName_iff] at h
      exact ⟨text,by rw [h]⟩
  · rintro ⟨text,rfl⟩
    rw [keyOf_append k.equals_notMem_name,DefKey.ofName_iff]

theorem textOf_append (k : DefKey) (text : Bytes) : textOf (k.name ++ equals :: text) = text := by
  rw [textOf,stpsep_append k.equals_notMem_name]
  rfl

theorem eq_of_keyOf (h : keyOf line = some k) : line = k.name ++ equals :: textOf line := by
  obtain ⟨text,rfl⟩ := keyOf_iff.mp h
  rw [textOf_append]

theorem keyOf_shownLine (d : Values) (k : DefKey) : keyOf (shownLine d k) = some k := keyOf_iff.mpr ⟨_,rfl⟩

theorem textOf_shownLine (d : Values) (k : DefKey) : textOf (shownLine d k) = showValue k (d k) := textOf_append k _

/-- The key stands in the part of a line in front of a byte that no name has. -/
theorem keyOf_front {b : UInt8} (hb : b ≠ equals) (hname : ∀ k : DefKey, b ∉ k.name) (front back : Bytes) :
    keyOf (front ++ b :: back) = some k ↔ keyOf front = some k := by
  rw [keyOf_iff,keyOf_iff]
  constructor
  · rintro ⟨text,heq⟩
    have hwhole : b ∉ k.name ++ [equals] := by
      rw [List.mem_append,List.mem_singleton,not_or]
      exact ⟨hname k,hb⟩
    have heq' : front ++ b :: back = (k.name ++ [equals]) ++ text := by simpa using heq
    rcases List.append_eq_append_iff.mp heq' with ⟨more,hkey,htail⟩ | ⟨more,hfront,_⟩
    · cases more with
      | nil => exact ⟨[],by simpa using hkey.symm⟩
      | cons c more =>
        have hc : b = c := (List.cons.inj htail).1
        exact absurd (hkey ▸ by simp [hc]) hwhole
    · exact ⟨more,by simpa using hfront⟩
  · rintro ⟨text,rfl⟩
    exact ⟨text ++ b :: back,by simp⟩

end Key

section Copy
variable {d : Values} {buf line body : Bytes} {pieces ls : List Bytes} {out : List DefKey}

/-- A buffer that `set_defaults` takes for a line. -/
def Complete (buf : Bytes) : Prop := newline ∈ cstring buf ∨ atEof buf = true

private theorem stpsep_rest_none (h : (stpsep newline (cstring buf)).2 = none) : newline ∉ cstring buf := by
  rcases stpsep_cases newline (cstring buf) with ⟨hmem,_⟩ | ⟨name,text,_,_,heq⟩
  · exact hmem
  · rw [heq] at h
    cases h

theorem not_complete_iff : ((stpsep newline (cstring buf)).2 = none ∧ atEof buf = false) ↔ ¬ Complete buf := by
  unfold Complete
  rw [not_or,Bool.not_eq_true]
  constructor
  · rintro ⟨h,heof⟩
    exact ⟨stpsep_rest_none h,heof⟩
  · rintro ⟨h,heof⟩
    rw [stpsep_of_notMem h]
    exact ⟨rfl,heof⟩

private theorem copyLines_cons (d : Values) (buf : Bytes) (pieces : List Bytes) (out : List DefKey) (h : Complete buf) :
    copyLines d (buf :: pieces) out =
      match keyOf (lineOf buf) with
      | none => (copyLines d pieces out).map (lineOf buf :: ·)
      | some k =>
        if k ∈ out then (copyLines d pieces out).map (lineOf buf :: ·) else (copyLines d pieces (k :: out)).map (shownLine d k :: ·) := by
  rw [copyLines]
  simp only
  rw [if_neg fun hnot => not_complete_iff.mp hnot h]
  have hline : lineOf buf = (stpsep newline (cstring buf)).1 := rfl
  rw [← hline]
  rcases stpsep_cases equals (lineOf buf) with ⟨hmem,heq⟩ | ⟨name,text,hname,hbuf,heq⟩
  · rw [heq,keyOf_of_notMem hmem]
  · rw [heq,hbuf,keyOf_append hname]
    cases hname' : DefKey.ofName name with
    | none => simp only [hname']
    | some k =>
      simp only [hname']
      by_cases hout : k ∈ out <;> simp [hout]

/-- The file is copied where every buffer is a line, and then it is rewritten key by key. -/
theorem copyLines_eq_some :
    copyLines d pieces out = some ls ↔
      (∀ buf ∈ pieces, Complete buf) ∧ ls = KeyedLines.rewrite keyOf (shownLine d) DefKey.all (pieces.map lineOf) out := by
  induction pieces generalizing ls out with
  | nil =>
    rw [copyLines,Option.some.injEq]
    exact ⟨fun h => ⟨nofun,h.symm⟩,fun h => h.2.symm⟩
  | cons buf pieces ih =>
    by_cases hbuf : Complete buf
    · have hstep : ∀ out' line, (copyLines d pieces out').map (line :: ·) = some ls ↔
          (∀ buf ∈ pieces, Complete buf) ∧
            ls = line :: KeyedLines.rewrite keyOf (shownLine d) DefKey.all (pieces.map lineOf) out' := by
        intro out' line
        rw [Option.map_eq_some_iff]
        constructor
        · rintro ⟨ls',hls',rfl⟩
          obtain ⟨hpieces,rfl⟩ := ih.mp hls'
          exact ⟨hpieces,rfl⟩
        · rintro ⟨hpieces,rfl⟩
          exact ⟨_,ih.mpr ⟨hpieces,rfl⟩,rfl⟩
      rw [copyLines_cons d buf pieces out hbuf,List.forall_mem_cons,List.map_cons,KeyedLines.rewrite]
      cases hkey : keyOf (lineOf buf) with
      | none =>
        simp only [hbuf,true_and]
        exact hstep out _
      | some k =>
        simp only [hbuf,true_and]
        split
        · exact hstep out _
        · exact hstep (k :: out) _
    · constructor
      · intro h
        rw [copyLines] at h
        simp only at h
        rw [if_pos (not_complete_iff.mpr hbuf)] at h
        cases h
      · rintro ⟨hpieces,_⟩
        exact absurd (hpieces buf List.mem_cons_self) hbuf

end Copy

end UserDb.Defaults
