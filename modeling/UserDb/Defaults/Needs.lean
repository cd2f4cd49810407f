import UserDb.Defaults.Law

/-! A defaults file that stays consistent meets every one of the conditions. -/
namespace UserDb.Defaults
open UserDb.Base UserDb.Commonio

section Lines
variable {e : DefaultsEnv} {k : DefKey} {l line buf : Bytes} {ls : List Bytes}

theorem length_lineOf_le (buf : Bytes) : (lineOf buf).length ≤ buf.length := by
  have hcut : (cstring buf).length ≤ buf.length := (List.takeWhile_sublist _).length_le
  rw [lineOf]
  rcases stpsep_cases newline (cstring buf) with ⟨_,heq⟩ | ⟨name,text,_,hline,heq⟩
  · rw [heq]
    exact hcut
  · rw [heq]
    rw [hline,List.length_append] at hcut
    exact Nat.le_trans (Nat.le_add_right _ _) hcut

theorem length_of_keyOf (h : keyOf line = some k) : line.length = k.name.length + 1 + (textOf line).length := by
  have hlength := congrArg List.length (eq_of_keyOf h)
  rw [List.length_append,List.length_cons] at hlength
  omega

/-- A line has as many lines of a key as it is of the key, or more. -/
theorem count_splitOn (k : DefKey) (l : Bytes) : (if keyOf l = some k then 1 else 0) ≤ KeyedLines.count keyOf k (l.splitOn newline) := by
  by_cases hmem : newline ∈ l
  · obtain ⟨front,back,rfl,hfront⟩ := List.eq_append_cons_of_mem hmem
    have hiff : keyOf (front ++ newline :: back) = some k ↔ keyOf front = some k :=
      keyOf_front (by decide) DefKey.newline_notMem_name front back
    rw [List.splitOn_append_cons_self_of_not_mem hfront,KeyedLines.count_cons]
    simp only [hiff]
    exact Nat.le_add_left _ _
  · rw [List.splitOn_eq_singleton hmem,KeyedLines.count_cons]
    exact Nat.le_add_left _ _

private theorem count_flatMap_splitOn (k : DefKey) (ls : List Bytes) :
    KeyedLines.count keyOf k ls ≤ KeyedLines.count keyOf k (ls.flatMap (List.splitOn newline ·)) := by
  induction ls with
  | nil => exact le_rfl
  | cons l ls ih =>
    rw [List.flatMap_cons,KeyedLines.count_cons,KeyedLines.count_append]
    have hfirst := count_splitOn k l
    omega

private theorem splitOn_length_pos (l : Bytes) : 1 ≤ (l.splitOn newline).length :=
  List.length_pos_iff.mpr (List.splitOn_ne_nil newline l)

/-- Where there are no more parts than lines, no line has an end in it. -/
theorem notMem_of_length (h : (ls.flatMap (List.splitOn newline ·)).length ≤ ls.length) : ∀ l ∈ ls, newline ∉ l := by
  have hmore : ∀ ls : List Bytes, ls.length ≤ (ls.flatMap (List.splitOn newline ·)).length := by
    intro ls
    induction ls with
    | nil => exact le_rfl
    | cons l ls ih =>
      have hpos := splitOn_length_pos l
      rw [List.flatMap_cons,List.length_append,List.length_cons]
      omega
  induction ls with
  | nil => exact nofun
  | cons l ls ih =>
    have hpos := splitOn_length_pos l
    have hrest := hmore ls
    rw [List.flatMap_cons,List.length_append,List.length_cons] at h
    intro l' hl'
    rcases List.mem_cons.mp hl' with rfl | hl'
    · intro hmem
      obtain ⟨front,back,rfl,hfront⟩ := List.eq_append_cons_of_mem hmem
      have hback := splitOn_length_pos back
      rw [List.splitOn_append_cons_self_of_not_mem hfront,List.length_cons] at h
      omega
    · exact ih (by omega) l' hl'

theorem pieces_written (h : ∀ l ∈ ls, newline ∉ l) :
    Fgets.pieces newline bufSize (ls.flatMap (· ++ [newline])) = ls.flatMap fun l => Fgets.pieces newline bufSize (l ++ [newline]) := by
  induction ls with
  | nil => rfl
  | cons l ls ih =>
    rw [List.flatMap_cons,List.append_assoc,List.singleton_append,Fgets.pieces_append (by decide) (h l List.mem_cons_self),
      List.flatMap_cons,ih fun l' hl' => h l' (List.mem_cons_of_mem _ hl')]

private theorem getDefaults_foldl (e : DefaultsEnv) (content : Bytes) :
    getDefaults e content = ((Fgets.pieces newline bufSize content).map lineOf).foldl (defaultsLine e) builtin := by
  rw [getDefaults,List.foldl_map]

/-- A value is what it is without a file, or read from one of the buffers. -/
theorem getDefaults_last (e : DefaultsEnv) (content : Bytes) (k : DefKey) :
    ((∀ buf ∈ Fgets.pieces newline bufSize content, keyOf (lineOf buf) ≠ some k) ∧ getDefaults e content k = builtin k) ∨
      ∃ buf ∈ Fgets.pieces newline bufSize content, keyOf (lineOf buf) = some k ∧
        ∃ cur, getDefaults e content k = readValue e k cur (textOf (lineOf buf)) := by
  rw [getDefaults_foldl]
  by_cases h : ∃ line ∈ (Fgets.pieces newline bufSize content).map lineOf, keyOf line = some k
  · obtain ⟨line,hline,hkey,cur,hlast⟩ := KeyedLines.foldl_last (d := builtin) h
    obtain ⟨buf,hbuf,rfl⟩ := List.mem_map.mp hline
    exact .inr ⟨buf,hbuf,hkey,cur,hlast⟩
  · have hsilent : ∀ line ∈ (Fgets.pieces newline bufSize content).map lineOf, keyOf line ≠ some k :=
      fun line hline hkey => h ⟨line,hline,hkey⟩
    exact .inl ⟨fun buf hbuf => hsilent _ (List.mem_map_of_mem hbuf),KeyedLines.foldl_silent hsilent⟩

/-- A text that is taken as it stands comes out of a buffer. -/
theorem text_fits (hread : ∀ cur text, showValue k (readValue e k cur text) = text) (content : Bytes) :
    (k.name ++ equals :: showValue k (getDefaults e content k)).length < bufSize := by
  rcases getDefaults_last e content k with ⟨_,hvalue⟩ | ⟨buf,hbuf,hkey,cur,hvalue⟩
  · rw [hvalue]
    exact (writes_builtin k).fits
  · rw [hvalue,hread,← eq_of_keyOf hkey]
    exact Nat.lt_of_le_of_lt (length_lineOf_le buf) (Fgets.length_of_mem_pieces (by decide) hbuf).2

end Lines

section Conditions
variable {e : DefaultsEnv} {r : Replacements e} {f : DefaultsFile} {k : DefKey} {d : Values} {content' : Bytes}

theorem Consistent.count_le (hc : Consistent e r f.content ((newLines d f.content).flatMap (· ++ [newline]))) (k : DefKey) :
    KeyedLines.count keyOf k (fileLines f.content) ≤ 1 := by
  have hmore := count_flatMap_splitOn k (newLines d f.content)
  rw [← fileLines_written,hc.once k,count_newLines] at hmore
  exact le_of_max_le_right hmore

theorem Consistent.count_newLines_eq (hc : Consistent e r f.content ((newLines d f.content).flatMap (· ++ [newline]))) (k : DefKey) :
    KeyedLines.count keyOf k (newLines d f.content) = 1 := by
  rw [count_newLines]
  exact max_eq_left (hc.count_le k)

/-- No end of a line is written within a line: there would be more lines than there are. -/
theorem Consistent.plain (hc : Consistent e r f.content ((newLines d f.content).flatMap (· ++ [newline]))) :
    ∀ l ∈ newLines d f.content, newline ∉ l := by
  apply notMem_of_length
  have hlength : ∀ ls : List Bytes, ls.length = (KeyedLines.others keyOf ls).length + ∑ k, KeyedLines.count keyOf k ls :=
    fun ls => KeyedLines.length_eq ls
  have hnew := hlength (newLines d f.content)
  have hfile := hlength (fileLines ((newLines d f.content).flatMap (· ++ [newline])))
  rw [hc.others,Finset.sum_congr rfl fun k _ => hc.once k] at hfile
  rw [others_newLines,List.length_map,Finset.sum_congr rfl fun k _ => hc.count_newLines_eq k] at hnew
  rw [← fileLines_written,hfile,hnew]

theorem Consistent.copyable (hc : Consistent e r f.content ((newLines d f.content).flatMap (· ++ [newline])))
    (hcomplete : ∀ line ∈ Fgets.lines newline f.content, Complete line) : ∀ line ∈ Fgets.lines newline f.content, Copyable line := by
  have hothers := hc.others
  rw [fileLines_plain hc.plain,others_newLines] at hothers
  have hself : ∀ line ∈ KeyedLines.others keyOf (fileLines f.content), cstring line = id line := by
    apply List.map_inj_left.mp
    rw [hothers,List.map_id]
  intro line hline
  rcases (complete_iff hline).mp (hcomplete line hline) with h | ⟨hlast,hlength⟩
  · exact .inl h
  · refine .inr ⟨hlast,hlength,fun hzero hnone => ?_⟩
    have hmem : line ∈ fileLines f.content := List.mem_map.mpr ⟨line,hline,takeWhile_whole hlast⟩
    have hcut : cstring line = line := hself line (List.mem_filter.mpr ⟨hmem,decide_eq_true hnone⟩)
    rw [← hcut] at hzero
    have hnot := List.mem_takeWhile_imp hzero
    simp at hnot

/-- A replaced value that is read again has fitted in the buffer. -/
theorem Consistent.fits (hc : Consistent e r f.content content') :
    ∀ k v, r.value k = some v → (k.name ++ equals :: showValue k v).length < bufSize := by
  intro k v hv
  have hread := hc.replaced k v hv
  cases k with
  | group => exact (writes_numeral (Nat.lt_of_lt_of_le (UInt32.toNat_lt _) (by decide))).fits
  | inactive =>
    obtain ⟨n,_,rfl⟩ := Option.map_eq_some_iff.mp hv
    exact (writes_inactive n.property.1 n.property.2).fits
  | home | expire | shell =>
    rw [← hread]
    exact text_fits (fun _ _ => rfl) content'
  | _ => cases hv

end Conditions

section Prefix
variable {e : DefaultsEnv} {r : Replacements e} {f : DefaultsFile} {k : DefKey} {d : Values} {dflt l buf : Bytes}

/-- What the two skeleton directories have in common. -/
structure Skeleton (e : DefaultsEnv) (k : DefKey) (dflt : Bytes) : Prop where
  read : ∀ cur text, showValue k (readValue e k cur text) = prefixed e (orElse text dflt)
  builtin : showValue k (builtin k) = dflt
  effect : ∀ v v', SameEffect k v v' → showValue k v = showValue k v'
  value : ∀ r : Replacements e, r.value k = none
  short : 0 < dflt.length ∧ dflt.length ≤ 13 ∧ 4 ≤ k.name.length ∧ k.name.length ≤ 7 ∧ k.name.length + dflt.length ≤ 20
  noZero : 0 ∉ dflt

private theorem skeleton_skel (e : DefaultsEnv) : Skeleton e .skel skelDir :=
  ⟨fun _ _ => rfl,rfl,fun _ _ h => h,fun _ => rfl,by decide +kernel,by decide +kernel⟩

private theorem skeleton_usrskel (e : DefaultsEnv) : Skeleton e .usrskel usrSkelDir :=
  ⟨fun _ _ => rfl,rfl,fun _ _ h => h,fun _ => rfl,by decide +kernel,by decide +kernel⟩

theorem length_prefixed (hne : e.prefixDir.val ≠ []) (dir : Bytes) :
    (prefixed e dir).length = e.prefixDir.val.length + 1 + dir.length := by
  rw [prefixed,if_neg hne,List.length_append,List.length_cons]
  omega

theorem length_orElse (text dflt : Bytes) : (orElse text dflt).length = if text.length = 0 then dflt.length else text.length := by
  unfold orElse
  split
  · rename_i hnil
    rw [hnil,List.length_nil,if_pos rfl]
  · rename_i hne
    rw [if_neg (mt List.eq_nil_of_length_eq_zero hne)]

/-- A line that `set_defaults` reads leaves room for its end. -/
theorem old_line_short (hcomplete : ∀ line ∈ Fgets.lines newline f.content, Complete line) {line : Bytes}
    (hline : line ∈ fileLines f.content) : line.length + 1 < bufSize := by
  obtain ⟨hnewline,_,⟨_,hshort⟩ | hlast⟩ := mem_fileLines hline
  · exact hshort
  · rcases (complete_iff hlast).mp (hcomplete line hlast) with ⟨h,_⟩ | ⟨_,h⟩
    · exact absurd h hnewline
    · omega

/-- The first reading of a skeleton directory: the prefix is in front of one that the file has. -/
theorem Skeleton.bound (hk : Skeleton e k dflt) (hne : e.prefixDir.val ≠ [])
    (hcomplete : ∀ line ∈ Fgets.lines newline f.content, Complete line) (hcount : KeyedLines.count keyOf k (fileLines f.content) ≤ 1) :
    0 ∉ showValue k (getDefaults e f.content k) ∧ ((showValue k (getDefaults e f.content k)).length = dflt.length ∨
      (e.prefixDir.val.length + 1 ≤ (showValue k (getDefaults e f.content k)).length ∧
        (showValue k (getDefaults e f.content k)).length + k.name.length ≤ e.prefixDir.val.length + 1022)) := by
  have hshort := hk.short
  rcases getDefaults_cases e f hcount with ⟨hvalue,_⟩ | ⟨line,hline,hkey,hvalue⟩
  · rw [hvalue,hk.builtin]
    exact ⟨hk.noZero,.inl rfl⟩
  · have hlength := length_of_keyOf hkey
    have hfits := old_line_short hcomplete hline
    have hcut : (cstring (textOf line)).length ≤ (textOf line).length := (List.takeWhile_sublist _).length_le
    have hsize : bufSize = 1024 := rfl
    rw [hvalue,hk.read]
    refine ⟨?_,.inr ?_⟩
    · have hdir : 0 ∉ orElse (cstring (textOf line)) dflt := by
        unfold orElse
        split
        · exact hk.noZero
        · exact (writes_of_line hline hkey).noZero
      rw [prefixed,if_neg hne,List.mem_append,List.mem_cons,not_or,not_or]
      exact ⟨e.prefixDir.property,by decide,hdir⟩
    · rw [length_prefixed hne,length_orElse]
      split <;> omega

/-- Where a buffer with a skeleton directory comes from: the beginning of its own line, or the rest of a
line that is too long. -/
theorem Skeleton.source (hk : Skeleton e k dflt) (honce : KeyedLines.count keyOf k (newLines d f.content) = 1)
    (hplain : ∀ l ∈ newLines d f.content, newline ∉ l ∧ 0 ∉ l)
    (hcomplete : ∀ line ∈ Fgets.lines newline f.content, Complete line)
    (hw : ∀ k', k' ≠ .skel → k' ≠ .usrskel → Writes k' (showValue k' (d k')))
    (hbuf : buf ∈ Fgets.pieces newline bufSize ((newLines d f.content).flatMap (· ++ [newline]))) (hkey : keyOf (lineOf buf) = some k) :
    (textOf (lineOf buf)).length = min (showValue k (d k)).length (1022 - k.name.length) ∨
      ∃ k', (k' = .skel ∨ k' = .usrskel) ∧
        k.name.length + (textOf (lineOf buf)).length + 1022 ≤ k'.name.length + (showValue k' (d k')).length := by
  have hshort := hk.short
  have hsize : bufSize = 1024 := rfl
  rw [pieces_written fun l hl => (hplain l hl).1] at hbuf
  obtain ⟨l,hl,hbuf⟩ := List.mem_flatMap.mp hbuf
  obtain ⟨hnewline,hzero⟩ := hplain l hl
  have hlength := length_of_keyOf hkey
  rcases Nat.lt_or_ge (l.length + 1) bufSize with hfits | hlong
  · -- the whole line
    left
    rw [Fgets.pieces_line (by decide) hnewline hfits,Fgets.pieces_nil,List.mem_singleton] at hbuf
    have hline : lineOf buf = l := by
      rw [hbuf,lineOf_eq hnewline (.inr rfl),cstring_eq_self hzero]
    rw [hline] at hkey hlength ⊢
    obtain rfl := eq_shownLine honce hl hkey
    rw [textOf_shownLine] at hlength ⊢
    omega
  · have hlast : (l ++ [newline]).take (bufSize - 1) = l.take (bufSize - 1) := List.take_append_of_le_length (by omega)
    have hfull : newline ∉ (l ++ [newline]).take (bufSize - 1) := by
      rw [hlast]
      exact fun h => hnewline (List.mem_of_mem_take h)
    rw [Fgets.pieces_full (by decide) hfull (by simp),hlast] at hbuf
    rcases List.mem_cons.mp hbuf with rfl | hbuf
    · -- the beginning
      left
      have htake : newline ∉ l.take (bufSize - 1) := fun h => hnewline (List.mem_of_mem_take h)
      have hline : lineOf (l.take (bufSize - 1)) = l.take (bufSize - 1) := by
        rw [lineOf_eq htake (.inl rfl),cstring_eq_self fun h => hzero (List.mem_of_mem_take h)]
      rw [hline] at hkey hlength ⊢
      have hkey' : keyOf l = some k := by
        obtain ⟨text,htext⟩ := keyOf_iff.mp hkey
        rw [← List.take_append_drop (bufSize - 1) l,htext]
        exact keyOf_iff.mpr ⟨text ++ l.drop (bufSize - 1),by simp⟩
      obtain rfl := eq_shownLine honce hl hkey'
      have hwhole := length_of_keyOf hkey'
      rw [textOf_shownLine] at hwhole
      rw [List.length_take] at hlength
      omega
    · -- the rest
      right
      have hrest := (Fgets.length_of_mem_pieces (by decide) hbuf).1
      have hle := length_lineOf_le buf
      rw [List.length_drop,List.length_append,List.length_singleton] at hrest
      rcases KeyedLines.mem_rewrite hl with hold | ⟨k',rfl⟩
      · obtain ⟨line,hline,rfl⟩ := List.mem_map.mp hold
        have hcut : (cstring line).length ≤ line.length := (List.takeWhile_sublist _).length_le
        have hroom := old_line_short hcomplete hline
        omega
      · have hwhole := length_of_keyOf (keyOf_shownLine d k')
        rw [textOf_shownLine] at hwhole
        by_cases hskel : k' = .skel ∨ k' = .usrskel
        · exact ⟨k',hskel,by omega⟩
        · rw [not_or] at hskel
          have hfits := (hw k' hskel.1 hskel.2).line.1
          omega

/-- The text of a skeleton directory that is read again has the prefix in front of it once more. -/
theorem Skeleton.again (hk : Skeleton e k dflt) (hne : e.prefixDir.val ≠ [])
    (hc : Consistent e r f.content ((newLines d f.content).flatMap (· ++ [newline])))
    (hd : d k = getDefaults e f.content k)
    (hplain : ∀ l ∈ newLines d f.content, newline ∉ l ∧ 0 ∉ l)
    (hcomplete : ∀ line ∈ Fgets.lines newline f.content, Complete line)
    (hw : ∀ k', k' ≠ .skel → k' ≠ .usrskel → Writes k' (showValue k' (d k'))) :
    ∃ n : Nat, (showValue k (d k)).length = e.prefixDir.val.length + 1 + (if n = 0 then dflt.length else n) ∧
      (n = min (showValue k (d k)).length (1022 - k.name.length) ∨
        ∃ k', (k' = .skel ∨ k' = .usrskel) ∧ k.name.length + n + 1022 ≤ k'.name.length + (showValue k' (d k')).length) := by
  have hsame := hk.effect _ _ (hc.kept k (hk.value r))
  rw [← hd] at hsame
  rcases getDefaults_last e ((newLines d f.content).flatMap (· ++ [newline])) k with ⟨hsilent,_⟩ | ⟨buf,hbuf,hkey,cur,hvalue⟩
  · have hmem := shownLine_mem_newLines d k f.content
    have hshort := hk.short
    have hfirst : ∃ buf ∈ Fgets.pieces newline bufSize (shownLine d k ++ [newline]), keyOf (lineOf buf) = some k := by
      obtain ⟨hnewline,hzero⟩ := hplain _ hmem
      rcases Nat.lt_or_ge ((shownLine d k).length + 1) bufSize with hfits | hlong
      · rw [Fgets.pieces_line (by decide) hnewline hfits]
        refine ⟨_,List.mem_cons_self,?_⟩
        rw [lineOf_eq hnewline (.inr rfl),cstring_eq_self hzero,keyOf_shownLine]
      · have hlast : (shownLine d k ++ [newline]).take (bufSize - 1) = (shownLine d k).take (bufSize - 1) :=
          List.take_append_of_le_length (by omega)
        have htake : newline ∉ (shownLine d k).take (bufSize - 1) := fun h => hnewline (List.mem_of_mem_take h)
        rw [Fgets.pieces_full (by decide) (by rwa [hlast]) (by simp),hlast]
        refine ⟨_,List.mem_cons_self,?_⟩
        rw [lineOf_eq htake (.inl rfl),cstring_eq_self fun h => hzero (List.mem_of_mem_take h),keyOf_iff]
        refine ⟨(showValue k (d k)).take (bufSize - 1 - k.name.length - 1),?_⟩
        have hroom : bufSize - 1 - k.name.length = (bufSize - 1 - k.name.length - 1) + 1 := by
          have hsize : bufSize = 1024 := rfl
          omega
        have hname : k.name.length ≤ bufSize - 1 := by
          have hsize : bufSize = 1024 := rfl
          omega
        rw [shownLine,List.take_append,List.take_of_length_le hname,hroom,List.take_succ_cons]
        rfl
    obtain ⟨buf,hbuf,hkey⟩ := hfirst
    rw [pieces_written fun l hl => (hplain l hl).1] at hsilent
    exact absurd hkey (hsilent buf (List.mem_flatMap.mpr ⟨_,hmem,hbuf⟩))
  · refine ⟨(textOf (lineOf buf)).length,?_,hk.source (hc.count_newLines_eq k) hplain hcomplete hw hbuf hkey⟩
    rw [hsame,hvalue,hk.read,length_prefixed hne,length_orElse]

/-- With a prefix one of the skeleton directories is another one when it is read again. -/
theorem Consistent.noPrefix (hd : ∀ k, r.value k = none → d k = getDefaults e f.content k)
    (hc : Consistent e r f.content ((newLines d f.content).flatMap (· ++ [newline])))
    (hcomplete : ∀ line ∈ Fgets.lines newline f.content, Complete line) (hname : (defaultFile e).length + 1 < bufSize)
    (hw : ∀ k', k' ≠ .skel → k' ≠ .usrskel → Writes k' (showValue k' (d k'))) : e.prefixDir.val = [] := by
  by_contra hne
  have hbound := fun k dflt (hk : Skeleton e k dflt) => hk.bound hne hcomplete (hc.count_le k)
  have hzero : ∀ l ∈ newLines d f.content, 0 ∉ l := by
    intro l hl
    rcases KeyedLines.mem_rewrite hl with hold | ⟨k,rfl⟩
    · exact (old_line hold).2.2
    · have htext : 0 ∉ showValue k (d k) := by
        by_cases hskel : k = .skel
        · subst hskel
          rw [hd _ rfl]
          exact (hbound _ _ (skeleton_skel e)).1
        · by_cases husrskel : k = .usrskel
          · subst husrskel
            rw [hd _ rfl]
            exact (hbound _ _ (skeleton_usrskel e)).1
          · exact (hw k hskel husrskel).noZero
      rw [shownLine,List.mem_append,List.mem_cons,not_or,not_or]
      exact ⟨k.zero_notMem_name,by decide,htext⟩
  have hplain : ∀ l ∈ newLines d f.content, newline ∉ l ∧ 0 ∉ l := fun l hl => ⟨hc.plain l hl,hzero l hl⟩
  have hprefixLength : e.prefixDir.val.length ≤ 1001 := by
    have hsuffix : (ascii "/etc/default/useradd").length = 20 := by decide +kernel
    have hsize : bufSize = 1024 := rfl
    rw [defaultFile,if_neg hne,List.length_append,List.length_cons,hsuffix] at hname
    omega
  have hpos := List.length_pos_iff.mpr hne
  obtain ⟨n,hn,hsource⟩ := (skeleton_skel e).again hne hc (hd _ rfl) hplain hcomplete hw
  obtain ⟨m,hm,hsource'⟩ := (skeleton_usrskel e).again hne hc (hd _ rfl) hplain hcomplete hw
  have hskel := (hbound _ _ (skeleton_skel e)).2
  have husrskel := (hbound _ _ (skeleton_usrskel e)).2
  rw [← hd _ rfl] at hskel husrskel
  have hlengths : DefKey.skel.name.length = 4 ∧ DefKey.usrskel.name.length = 7 ∧ skelDir.length = 9 ∧ usrSkelDir.length = 13 := by
    decide +kernel
  obtain ⟨h4,h7,h9,h13⟩ := hlengths
  have hrest : ∀ c : Nat, (∃ k', (k' = DefKey.skel ∨ k' = .usrskel) ∧ c ≤ k'.name.length + (showValue k' (d k')).length) →
      c ≤ 4 + (showValue .skel (d .skel)).length ∨ c ≤ 7 + (showValue .usrskel (d .usrskel)).length := by
    rintro c ⟨k',rfl | rfl,hc'⟩
    · exact .inl (h4 ▸ hc')
    · exact .inr (h7 ▸ hc')
  have hsource := hsource.imp id (hrest _)
  have hsource' := hsource'.imp id (hrest _)
  rw [h4] at hsource hskel
  rw [h7] at hsource' husrskel
  rw [h9] at hn hskel
  rw [h13] at hm husrskel
  generalize (showValue .skel (d .skel)).length = a at *
  generalize (showValue .usrskel (d .usrskel)).length = b at *
  generalize e.prefixDir.val.length = p at *
  clear hc hw hplain hzero hbound hd hcomplete hname hrest
  split at hn <;> split at hm <;> omega

end Prefix

section Main
variable {e : DefaultsEnv} {r : Replacements e} {f : DefaultsFile} {content' : Bytes}

/-- A file that stays consistent meets the conditions. -/
theorem Consistent.keeps (hrun : setDefaults e (replaceValues r (getDefaults e f.content)) f.content = some content')
    (hc : Consistent e r f.content content') : Keeps e r f.content := by
  obtain ⟨hcomplete,hname,rfl⟩ := setDefaults_eq_some.mp hrun
  have hw : ∀ k, (k = .skel ∨ k = .usrskel → e.prefixDir.val = []) →
      Writes k (showValue k (replaceValues r (getDefaults e f.content) k)) :=
    fun k hprefixDir => writes_new hprefixDir (hc.count_le k) (hc.fits k)
  have hnoPrefix : e.prefixDir.val = [] := by
    apply hc.noPrefix (fun k hk => replaceValues_none hk _) hcomplete hname
    intro k hskel husrskel
    exact hw k fun h => absurd h (not_or.mpr ⟨hskel,husrskel⟩)
  refine ⟨hnoPrefix,hc.count_le,hc.copyable hcomplete,?_,hc.fits⟩
  have hlines := fun l (hl : l ∈ newLines (replaceValues r (getDefaults e f.content)) f.content) =>
    new_line (fun k => hw k fun _ => hnoPrefix) hl
  have hkept := hc.kept .groups rfl
  have hold : replaceValues r (getDefaults e f.content) .groups = getDefaults e f.content .groups := replaceValues_none rfl _
  rw [getDefaults_newLines hc.count_newLines_eq hlines,hold] at hkept
  exact (sameEffect_reread_iff hnoPrefix (hc.count_le .groups)).mp hkept rfl

end Main

/-- The values, their replacements and all other lines survive exactly under the conditions. -/
theorem useradd_defaults_iff (e : DefaultsEnv) (r : Replacements e) (f : DefaultsFile) :
    (∃ content', setDefaults e (replaceValues r (getDefaults e f.content)) f.content = some content' ∧
      Consistent e r f.content content') ↔ Keeps e r f.content :=
  ⟨fun ⟨_,hrun,hc⟩ => hc.keeps hrun,Keeps.consistent⟩

section Duplicate

/-- Two lines for the home directories. -/
def twoHomes : DefaultsFile where
  content := ascii "HOME=/home\nHOME=/old\n"
  fits := by decide +kernel

def plainEnv : DefaultsEnv := ⟨⟨[],List.not_mem_nil⟩,[],65536⟩

/-- `useradd -D -b /new` -/
def newHome : Replacements plainEnv := ⟨none,some ⟨ascii "/new",by decide +kernel⟩,none,none,none⟩

/-- The second line stays, and the old value with it. -/
theorem twoHomes_not_consistent :
    ¬ ∃ content', setDefaults plainEnv (replaceValues newHome (getDefaults plainEnv twoHomes.content)) twoHomes.content = some content' ∧
      Consistent plainEnv newHome twoHomes.content content' := by
  rintro ⟨content',hrun,hc⟩
  have hcount := (hc.keeps hrun).once .home
  revert hcount
  decide +kernel

end Duplicate

end UserDb.Defaults
