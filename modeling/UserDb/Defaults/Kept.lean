import UserDb.Defaults.Rereading

/-! The new defaults file: its lines, and what is read from them. -/
namespace UserDb.Defaults
open UserDb.Base UserDb.Commonio

section Old
variable {e : DefaultsEnv} {k : DefKey} {content line : Bytes} {lines : List Bytes}

private theorem count_cstring (k : DefKey) (lines : List Bytes) :
    KeyedLines.count keyOf k (lines.map cstring) = KeyedLines.count keyOf k lines := by
  unfold KeyedLines.count
  rw [List.countP_map]
  apply List.countP_congr
  intro line _
  simp [keyOf_cstring]

private theorem others_cstring (lines : List Bytes) :
    KeyedLines.others keyOf (lines.map cstring) = (KeyedLines.others keyOf lines).map cstring := by
  unfold KeyedLines.others
  rw [List.filter_map]
  have hpred : ((fun line => decide (keyOf line = none)) ∘ cstring) = fun line => decide (keyOf line = none) := by
    funext line
    simp [keyOf_cstring]
  rw [hpred]

theorem foldl_defaultsLine_once (d : Values) {before after : List Bytes} (hbefore : ∀ l ∈ before, keyOf l ≠ some k)
    (hline : keyOf line = some k) (hafter : ∀ l ∈ after, keyOf l ≠ some k) :
    (before ++ line :: after).foldl (defaultsLine e) d k = readValue e k (d k) (textOf line) :=
  KeyedLines.foldl_once hbefore hline hafter

/-- The values are those of the lines. -/
theorem getDefaults_eq (e : DefaultsEnv) (f : DefaultsFile) :
    getDefaults e f.content = ((fileLines f.content).map cstring).foldl (defaultsLine e) builtin := by
  rw [getDefaults,pieces_eq_lines f.fits,← map_lineOf,List.foldl_map]

/-- A line of a file that fits, without its end. -/
theorem mem_fileLines {f : DefaultsFile} (h : line ∈ fileLines f.content) :
    newline ∉ line ∧ line.length < bufSize ∧ ((line ++ [newline] ∈ Fgets.lines newline f.content ∧ line.length + 1 < bufSize) ∨
      line ∈ Fgets.lines newline f.content) := by
  obtain ⟨whole,hwhole,rfl⟩ := List.mem_map.mp h
  have hfits := f.fits whole hwhole
  obtain ⟨body,hbody,rfl | ⟨rfl,_⟩⟩ := Fgets.mem_lines hwhole
  · rw [List.length_append,List.length_singleton] at hfits
    rw [takeWhile_body hbody]
    exact ⟨hbody,by omega,.inl ⟨hwhole,hfits⟩⟩
  · rw [takeWhile_whole hbody]
    exact ⟨hbody,hfits,.inr hwhole⟩

theorem writes_of_line {f : DefaultsFile} (h : line ∈ fileLines f.content) (hkey : keyOf line = some k) :
    Writes k (cstring (textOf line)) := by
  obtain ⟨hnewline,hfits,_⟩ := mem_fileLines h
  rw [eq_of_keyOf hkey] at hnewline hfits
  refine ⟨?_,?_,?_⟩
  · have hlength := (List.takeWhile_sublist (p := (· != 0)) (l := textOf line)).length_le
    rw [List.length_append,List.length_cons] at hfits ⊢
    rw [cstring]
    omega
  · intro hmem
    exact hnewline (List.mem_append_right _ (List.mem_cons_of_mem _ (cstring_subset _ hmem)))
  · intro hmem
    have hnot := List.mem_takeWhile_imp hmem
    simp at hnot

/-- A key with one line at most has the value of that line, or the one without a file. -/
theorem getDefaults_cases (e : DefaultsEnv) (f : DefaultsFile) (h : KeyedLines.count keyOf k (fileLines f.content) ≤ 1) :
    (getDefaults e f.content k = builtin k ∧ ∀ line ∈ fileLines f.content, keyOf line ≠ some k) ∨
      ∃ line ∈ fileLines f.content, keyOf line = some k ∧
        getDefaults e f.content k = readValue e k (builtin k) (cstring (textOf line)) := by
  rw [getDefaults_eq]
  rcases Nat.le_one_iff_eq_zero_or_eq_one.mp h with hzero | hone
  · have hsilent := KeyedLines.count_eq_zero.mp hzero
    refine .inl ⟨?_,hsilent⟩
    apply KeyedLines.foldl_silent
    intro line hline
    obtain ⟨body,hbody,rfl⟩ := List.mem_map.mp hline
    rw [keyOf_cstring]
    exact hsilent body hbody
  · obtain ⟨before,line,after,hlines,hkey,hbefore,hafter⟩ := KeyedLines.exists_of_count_eq_one hone
    have hother : ∀ ls : List Bytes, (∀ l ∈ ls, keyOf l ≠ some k) → ∀ l ∈ ls.map cstring, keyOf l ≠ some k := by
      intro ls hls l hl
      obtain ⟨body,hbody,rfl⟩ := List.mem_map.mp hl
      rw [keyOf_cstring]
      exact hls body hbody
    refine .inr ⟨line,by simp [hlines],hkey,?_⟩
    rw [hlines,List.map_append,List.map_cons]
    rw [← textOf_cstring hkey]
    exact foldl_defaultsLine_once builtin (hother before hbefore) ((keyOf_cstring line).trans hkey) (hother after hafter)

end Old

section New
variable {d : Values} {e : DefaultsEnv} {k : DefKey} {ls : List Bytes} {l : Bytes}

/-- The lines of what is written, where ends of lines may stand within it. -/
theorem fileLines_written (ls : List Bytes) : fileLines (ls.flatMap (· ++ [newline])) = ls.flatMap (List.splitOn newline ·) := by
  have hbody : ∀ l rest, fileLines (l ++ newline :: rest) = l.splitOn newline ++ fileLines rest := by
    intro l
    induction hn : l.length using Nat.strong_induction_on generalizing l with
    | _ n ih =>
      intro rest
      by_cases hmem : newline ∈ l
      · obtain ⟨front,back,rfl,hfront⟩ := List.eq_append_cons_of_mem hmem
        have hlength : back.length < n := by
          rw [← hn,List.length_append,List.length_cons]
          omega
        rw [List.append_assoc,List.cons_append,fileLines,Fgets.lines_line hfront,List.map_cons,takeWhile_body hfront,
          List.splitOn_append_cons_self_of_not_mem hfront,List.cons_append]
        exact congrArg _ (ih back.length hlength back rfl rest)
      · rw [fileLines,Fgets.lines_line hmem,List.map_cons,takeWhile_body hmem,List.splitOn_eq_singleton hmem]
        rfl
  induction ls with
  | nil => rfl
  | cons l ls ih =>
    rw [List.flatMap_cons,List.flatMap_cons,List.append_assoc,List.singleton_append,hbody,ih]

/-- Lines without further ends are read as they are written. -/
theorem fileLines_plain (h : ∀ l ∈ ls, newline ∉ l) : fileLines (ls.flatMap (· ++ [newline])) = ls := by
  rw [fileLines_written,List.flatMap_congr fun l hl => List.splitOn_eq_singleton (h l hl),List.flatMap_singleton']

/-- A line that the buffer holds without its end is one line for `get_defaults`; an end that did not fit is none. -/
theorem foldl_pieces_line (e : DefaultsEnv) (d : Values) (hfits : l.length < bufSize) (hnewline : newline ∉ l) (hzero : 0 ∉ l) :
    (Fgets.pieces newline bufSize (l ++ [newline])).foldl (fun d buf => defaultsLine e d (lineOf buf)) d = defaultsLine e d l := by
  have hline : ∀ buf, buf = l ∨ buf = l ++ [newline] → lineOf buf = l := by
    intro buf hbuf
    rw [lineOf_eq hnewline hbuf,cstring_eq_self hzero]
  rcases Nat.lt_or_ge (l.length + 1) bufSize with hshort | hlong
  · rw [Fgets.pieces_line (by decide) hnewline hshort,Fgets.pieces_nil]
    rw [List.foldl_cons,List.foldl_nil,hline _ (.inr rfl)]
  · have hlength : l.length = bufSize - 1 := by omega
    have htake : (l ++ [newline]).take (bufSize - 1) = l := by rw [← hlength,List.take_left]
    have hdrop : (l ++ [newline]).drop (bufSize - 1) = [newline] := by rw [← hlength,List.drop_left]
    have hend : Fgets.pieces newline bufSize [newline] = [[newline]] := rfl
    have hempty : defaultsLine e (defaultsLine e d l) (lineOf [newline]) = defaultsLine e d l := rfl
    rw [Fgets.pieces_full (by decide) (by rwa [htake]) (by simp),htake,hdrop,hend]
    rw [List.foldl_cons,List.foldl_cons,List.foldl_nil,hline l (.inl rfl),hempty]

private theorem getDefaults_written (h : ∀ l ∈ ls, l.length < bufSize ∧ newline ∉ l ∧ 0 ∉ l) :
    getDefaults e (ls.flatMap (· ++ [newline])) = ls.foldl (defaultsLine e) builtin := by
  unfold getDefaults
  generalize builtin = d
  induction ls generalizing d with
  | nil => rfl
  | cons l ls ih =>
    obtain ⟨hfits,hnewline,hzero⟩ := h l List.mem_cons_self
    rw [List.flatMap_cons,List.append_assoc,List.singleton_append,Fgets.pieces_append (by decide) hnewline,List.foldl_append,
      foldl_pieces_line e d hfits hnewline hzero,List.foldl_cons,ih fun l hl => h l (List.mem_cons_of_mem _ hl)]

/-- The lines that are written for a file. -/
def newLines (d : Values) (content : Bytes) : List Bytes :=
  KeyedLines.rewrite keyOf (shownLine d) DefKey.all ((fileLines content).map cstring) []

theorem count_newLines (d : Values) (k : DefKey) (content : Bytes) :
    KeyedLines.count keyOf k (newLines d content) = max 1 (KeyedLines.count keyOf k (fileLines content)) := by
  rw [newLines,KeyedLines.count_rewrite (keyOf_shownLine d) DefKey.nodup_all k.mem_all,if_neg List.not_mem_nil,count_cstring]

theorem others_newLines (d : Values) (content : Bytes) :
    KeyedLines.others keyOf (newLines d content) = (KeyedLines.others keyOf (fileLines content)).map cstring := by
  rw [newLines,KeyedLines.others_rewrite (keyOf_shownLine d),others_cstring]

theorem shownLine_mem_newLines (d : Values) (k : DefKey) (content : Bytes) : shownLine d k ∈ newLines d content :=
  KeyedLines.shown_mem_rewrite k.mem_all List.not_mem_nil

/-- The one line of a key is the one that is written for its value. -/
theorem eq_shownLine {content : Bytes} (h : KeyedLines.count keyOf k (newLines d content) = 1) (hl : l ∈ newLines d content)
    (hkey : keyOf l = some k) : l = shownLine d k := by
  obtain ⟨before,line,after,hlines,_,hbefore,hafter⟩ := KeyedLines.exists_of_count_eq_one h
  have hunique : ∀ l' ∈ newLines d content, keyOf l' = some k → l' = line := by
    intro l' hl' hkey'
    rw [hlines,List.mem_append,List.mem_cons] at hl'
    rcases hl' with hl' | rfl | hl'
    · exact absurd hkey' (hbefore l' hl')
    · rfl
    · exact absurd hkey' (hafter l' hl')
  rw [hunique l hl hkey,hunique _ (shownLine_mem_newLines d k content) (keyOf_shownLine d k)]

/-- `set_defaults` writes the new lines where each of the old ones is complete. -/
theorem setDefaults_eq_some {f : DefaultsFile} {content' : Bytes} :
    setDefaults e d f.content = some content' ↔
      (∀ line ∈ Fgets.lines newline f.content, Complete line) ∧ (defaultFile e).length + 1 < bufSize ∧
        content' = (newLines d f.content).flatMap (· ++ [newline]) := by
  have hcopy : ∀ ls, copyLines d (Fgets.pieces newline bufSize f.content) [] = some ls ↔
      (∀ line ∈ Fgets.lines newline f.content, Complete line) ∧ ls = newLines d f.content := by
    intro ls
    rw [pieces_eq_lines f.fits,copyLines_eq_some,map_lineOf]
    rfl
  unfold setDefaults
  rw [Option.bind_eq_bind,Option.bind_eq_some_iff]
  constructor
  · rintro ⟨ls,hls,hwritten⟩
    obtain ⟨hcomplete,rfl⟩ := (hcopy ls).mp hls
    split at hwritten
    · rename_i hname
      exact ⟨hcomplete,hname,(Option.some.inj hwritten).symm⟩
    · cases hwritten
  · rintro ⟨hcomplete,hname,rfl⟩
    exact ⟨_,(hcopy _).mpr ⟨hcomplete,rfl⟩,if_pos hname⟩

/-- Where all lines can be read again, each key has its value from the line that was written for it. -/
theorem getDefaults_newLines {content : Bytes} (honce : ∀ k, KeyedLines.count keyOf k (newLines d content) = 1)
    (h : ∀ l ∈ newLines d content, l.length < bufSize ∧ newline ∉ l ∧ 0 ∉ l) (k : DefKey) :
    getDefaults e ((newLines d content).flatMap (· ++ [newline])) k = reread e k (d k) := by
  rw [getDefaults_written h]
  obtain ⟨before,line,after,hlines,hkey,hbefore,hafter⟩ := KeyedLines.exists_of_count_eq_one (honce k)
  have hline : line = shownLine d k := eq_shownLine (honce k) (by rw [hlines]; simp) hkey
  rw [hlines,reread,← textOf_shownLine d k,← hline]
  exact foldl_defaultsLine_once builtin hbefore hkey hafter

end New

end UserDb.Defaults
