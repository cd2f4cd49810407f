import UserDb.Defaults.Lines

/-! What it means that the defaults file stays consistent when some values are replaced, and when it does. -/
namespace UserDb.Defaults
open UserDb.Base UserDb.Atoi UserDb.Commonio

/-- A text that stands in one line. -/
abbrev FieldText := { text : Bytes // newline ∉ text ∧ 0 ∉ text }

/-- The values that `useradd -D` is asked to replace. -/
structure Replacements (e : DefaultsEnv) where
  group : Option { gid : UInt32 // ∃ grp ∈ e.groupFile, grp.gid = gid }
  home : Option FieldText
  inactive : Option { n : Int // -1 ≤ n ∧ n ≤ 2^63 - 1 }
  expire : Option FieldText
  shell : Option FieldText

section Replace
variable {e : DefaultsEnv} (r : Replacements e)

def Replacements.value : (k : DefKey) → Option k.Value
  | .group => r.group.map Subtype.val
  | .home => r.home.map Subtype.val
  | .inactive => r.inactive.map Subtype.val
  | .expire => r.expire.map Subtype.val
  | .shell => r.shell.map Subtype.val
  | .groups | .skel | .usrskel | .createMailSpool | .btrfsSubvolumeHome | .btrfsSubvolumeSystem | .logInit => none

def replaceValues (d : Values) : Values := fun k => (r.value k).getD (d k)

end Replace

/-- The lines of a file, without their ends. -/
def fileLines (content : Bytes) : List Bytes := (Fgets.lines newline content).map fun line => line.takeWhile (· != newline)

/-- A file with lines that the buffer holds. -/
structure DefaultsFile where
  content : Bytes
  fits : ∀ line ∈ Fgets.lines newline content, line.length < bufSize

/-- Two values that are used in the same way: of the supplementary groups only the list is used. -/
def SameEffect : (k : DefKey) → k.Value → k.Value → Prop
  | .groups, v, v' => SupplementaryGroups.names v = SupplementaryGroups.names v'
  | _, v, v' => v = v'

/-- The new file against the old one. -/
structure Consistent (e : DefaultsEnv) (r : Replacements e) (content content' : Bytes) : Prop where
  replaced : ∀ k v, r.value k = some v → getDefaults e content' k = v
  kept : ∀ k, r.value k = none → SameEffect k (getDefaults e content k) (getDefaults e content' k)
  once : ∀ k, KeyedLines.count keyOf k (fileLines content') = 1
  others : KeyedLines.others keyOf (fileLines content') = KeyedLines.others keyOf (fileLines content)

/-- A list of which no group is found but the first one. -/
def OneGroup (e : DefaultsEnv) (list : Bytes) : Prop :=
  list = [] ∨ e.sysNgroups = 0 ∨ (∀ name ∈ list.splitOn comma, groupByText e name = none) ∨
    (cutList list ≠ [] ∧ (groupByText e (cutList list)).isSome ∧
      (e.sysNgroups = 1 ∨ ∀ name ∈ (list.splitOn comma).tail, groupByText e name = none))

/-- A line that can be copied: a zero byte stands in none, except in a last line without end of which
only the key is used; and that line does not fill the buffer. -/
def Copyable (line : Bytes) : Prop :=
  (newline ∈ line ∧ 0 ∉ line) ∨ (newline ∉ line ∧ line.length < bufSize - 1 ∧ (0 ∈ line → keyOf line ≠ none))

/-- When a file is kept consistent. -/
structure Keeps (e : DefaultsEnv) (r : Replacements e) (content : Bytes) : Prop where
  noPrefix : e.prefixDir.val = []
  once : ∀ k, KeyedLines.count keyOf k (fileLines content) ≤ 1
  copyable : ∀ line ∈ Fgets.lines newline content, Copyable line
  oneGroup : ∀ line ∈ fileLines content, keyOf line = some .groups → OneGroup e (cstring (textOf line))
  fits : ∀ k v, r.value k = some v → (k.name ++ equals :: showValue k v).length < bufSize

section Lines
variable {body line : Bytes} {k : DefKey} {content : Bytes}

theorem takeWhile_body (hbody : newline ∉ body) (rest : Bytes) : (body ++ newline :: rest).takeWhile (· != newline) = body := by
  rw [List.takeWhile_append_of_pos fun b hb => by simpa using ne_of_mem_of_not_mem hb hbody]
  simp

theorem takeWhile_whole (hbody : newline ∉ body) : body.takeWhile (· != newline) = body :=
  List.takeWhile_eq_self_iff.mpr fun b hb => by simpa using ne_of_mem_of_not_mem hb hbody

/-- The key of a line does not depend on what is behind a zero byte. -/
theorem keyOf_cstring (body : Bytes) : keyOf (cstring body) = keyOf body := by
  by_cases hzero : 0 ∈ body
  · obtain ⟨front,back,rfl,hfront⟩ := List.eq_append_cons_of_mem hzero
    rw [cstring_zero hfront]
    apply Option.ext
    intro k
    exact (keyOf_front (by decide) DefKey.zero_notMem_name front back).symm
  · rw [cstring_eq_self hzero]

theorem textOf_cstring (h : keyOf body = some k) : textOf (cstring body) = cstring (textOf body) := by
  obtain ⟨text,rfl⟩ := keyOf_iff.mp h
  have hname : ∀ b ∈ k.name ++ [equals], (b != 0) = true := by
    intro b hb
    rcases List.mem_append.mp hb with hb | hb
    · simpa using ne_of_mem_of_not_mem hb k.zero_notMem_name
    · rw [List.mem_singleton.mp hb]
      decide
  have hcut : cstring (k.name ++ equals :: text) = k.name ++ equals :: cstring text := by
    have hsplit : ∀ t, k.name ++ equals :: t = (k.name ++ [equals]) ++ t := fun t => by simp
    rw [hsplit text,hsplit (cstring text)]
    exact List.takeWhile_append_of_pos hname
  rw [hcut,textOf_append,textOf_append]

/-- The line in a buffer. -/
theorem lineOf_eq (hbody : newline ∉ body) (hline : line = body ∨ line = body ++ [newline]) : lineOf line = cstring body := by
  have hcut : newline ∉ cstring body := fun h => hbody (cstring_subset body h)
  rw [lineOf]
  rcases hline with rfl | rfl
  · rw [stpsep_of_notMem hcut]
  · by_cases hzero : 0 ∈ body
    · obtain ⟨front,back,rfl,hfront⟩ := List.eq_append_cons_of_mem hzero
      rw [List.append_assoc,List.cons_append,cstring_zero hfront,cstring_zero hfront]
      rw [cstring_zero hfront] at hcut
      rw [stpsep_of_notMem hcut]
    · have hzero' : (0 : UInt8) ∉ body ++ [newline] := by
        rw [List.mem_append,List.mem_singleton,not_or]
        exact ⟨hzero,by decide⟩
      rw [cstring_eq_self hzero',cstring_eq_self hzero,stpsep_append hbody]

/-- The lines of the file are the buffers that are read. -/
theorem pieces_eq_lines (h : ∀ line ∈ Fgets.lines newline content, line.length < bufSize) :
    Fgets.pieces newline bufSize content = Fgets.lines newline content := by
  rw [Fgets.pieces_eq (by decide)]
  have hsingle : ∀ line ∈ Fgets.lines newline content, Fgets.pieces newline bufSize line = [line] :=
    fun line hline => Fgets.pieces_fits (by decide) hline (h line hline)
  rw [List.flatMap_congr hsingle,List.flatMap_singleton']

private theorem lineOf_mem_lines (hline : line ∈ Fgets.lines newline content) : lineOf line = cstring (line.takeWhile (· != newline)) := by
  obtain ⟨body,hbody,rfl | ⟨rfl,_⟩⟩ := Fgets.mem_lines hline
  · rw [takeWhile_body hbody]
    exact lineOf_eq hbody (.inr rfl)
  · rw [takeWhile_whole hbody]
    exact lineOf_eq hbody (.inl rfl)

theorem map_lineOf (content : Bytes) : (Fgets.lines newline content).map lineOf = (fileLines content).map cstring := by
  rw [fileLines,List.map_map]
  exact List.map_congr_left fun line hline => lineOf_mem_lines hline

/-- A line is taken for one where no zero byte hides its end, or where the file ends with it. -/
theorem complete_iff (hline : line ∈ Fgets.lines newline content) :
    Complete line ↔ (newline ∈ line ∧ 0 ∉ line) ∨ (newline ∉ line ∧ line.length < bufSize - 1) := by
  unfold Complete atEof
  obtain ⟨body,hbody,rfl | ⟨rfl,_⟩⟩ := Fgets.mem_lines hline
  · have hmem : newline ∈ body ++ [newline] := by simp
    by_cases hzero : 0 ∈ body
    · obtain ⟨front,back,rfl,hfront⟩ := List.eq_append_cons_of_mem hzero
      have hcut : newline ∉ cstring (front ++ 0 :: back ++ [newline]) := by
        rw [List.append_assoc,List.cons_append,cstring_zero hfront]
        exact fun h => hbody (List.mem_append_left _ h)
      refine iff_of_false ?_ ?_
      · rintro (h | h)
        · exact hcut h
        · simp at h
      · rintro (⟨_,h⟩ | ⟨h,_⟩)
        · exact h (List.mem_append_left _ hzero)
        · exact h hmem
    · have hzero' : (0 : UInt8) ∉ body ++ [newline] := by
        rw [List.mem_append,List.mem_singleton,not_or]
        exact ⟨hzero,by decide⟩
      rw [cstring_eq_self hzero']
      simp [hzero]
      decide
  · have hcut : newline ∉ cstring line := fun h => hbody (cstring_subset line h)
    simp [hcut,hbody]

end Lines

end UserDb.Defaults
