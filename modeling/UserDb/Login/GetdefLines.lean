import UserDb.Login.Getdef

/-! The configuration file by its lines, and when the items have the values that the lines give them. -/
namespace UserDb.Login
open UserDb.Base

section Load
variable {build : DefsBuild} {item : Bytes} {v : Option Bytes}

private theorem foldl_loadPiece_names (pieces : List Bytes) (defs : Defs) :
    (pieces.foldl (loadPiece build) defs).table.map Itemdef.name = defs.table.map Itemdef.name := by
  induction pieces generalizing defs with
  | nil => rfl
  | cons piece pieces ih => rw [List.foldl_cons,ih,loadPiece_names]

/-- An item has the value of the last piece about it. -/
theorem foldl_loadPiece (pieces : List Bytes) (hitem : item ∈ (defTable build).map Itemdef.name)
    (hpieces : ∀ piece ∈ pieces, ∃ body, newline ∉ body ∧ (piece = body ∨ piece = body ++ [newline])) :
    LastDefinition (pieces.map fun piece => lineText (cstring piece)) item v ↔
      v = getdefStr (pieces.foldl (loadPiece build) ⟨defTable build,[]⟩) item := by
  induction pieces using List.reverseRecOn generalizing v with
  | nil =>
    have hnone : getdefStr ⟨defTable build,[]⟩ item = none := by
      obtain ⟨d,hd,_⟩ := defFind_isSome hitem
      obtain ⟨name,_,rfl⟩ := List.mem_map.mp (List.mem_of_find?_eq_some hd)
      rw [getdefStr,hd]
      rfl
    rw [List.foldl_nil,hnone]
    exact lastDefinition_nil
  | append_singleton pieces piece ih =>
    have ih := ih (v := v) fun p hp => hpieces p (List.mem_append_left _ hp)
    obtain ⟨body,hbody,hpiece⟩ := hpieces piece (by simp)
    have hnames : item ∈ (pieces.foldl (loadPiece build) ⟨defTable build,[]⟩).table.map Itemdef.name := by
      rw [foldl_loadPiece_names]
      exact hitem
    rw [List.map_append,List.map_singleton,List.foldl_append,List.foldl_cons,List.foldl_nil]
    cases hread : defsPiece piece with
    | none =>
      have hsilent : ∀ value, ¬ Defines (lineText (cstring piece)) item value := by
        intro value hvalue
        rw [(defsPiece_iff hbody hpiece).mpr hvalue] at hread
        cases hread
      rw [lastDefinition_silent_one hsilent,ih,loadPiece,hread]
    | some fields =>
      obtain ⟨name,value⟩ := fields
      have hdefines := (defsPiece_iff hbody hpiece).mp hread
      have hload : ∀ defs, loadPiece build defs piece = putdefStr build name value defs := by
        intro defs
        rw [loadPiece,hread]
      rw [hload,getdefStr_putdefStr hnames]
      by_cases hname : name = item
      · rw [if_pos hname]
        exact lastDefinition_defines (hname ▸ hdefines)
      · rw [if_neg hname,lastDefinition_silent_one,ih]
        exact fun value' hvalue' => hname (hdefines.unique hvalue').1

end Load

section Lines
variable {content line item : Bytes} {lines : List Bytes}

/-- A plain line is shown as it stands. -/
theorem shownTexts_plain (h : line ∈ Fgets.lines newline content) (hplain : IsPlainLine line) : shownTexts line = [lineText line] := by
  rw [shownTexts,Fgets.pieces_fits (by decide) h hplain.1,List.map_singleton,cstring_eq_self hplain.2]

/-- Both readings agree about an item exactly where the last line about it is read in one piece. -/
theorem readings_agree_iff (hlines : ∀ line ∈ lines, IsPlainLine line → shownTexts line = [lineText line]) :
    (∀ v, LastDefinition (lines.map lineText) item v ↔ LastDefinition (lines.flatMap shownTexts) item v) ↔ ReadInOnePiece lines item := by
  constructor
  · rintro h before line after rfl hplain hsays hsilent v
    have hsplit : before ++ line :: after = (before ++ [line]) ++ after := by simp
    rw [hsplit,List.map_append,List.flatMap_append] at h
    have hmap : ∀ text ∈ after.map lineText, ∀ value, ¬ Defines text item value := by
      intro text htext
      obtain ⟨other,hother,rfl⟩ := List.mem_map.mp htext
      exact hsilent other hother _ List.mem_cons_self
    have hflat : ∀ text ∈ after.flatMap shownTexts, ∀ value, ¬ Defines text item value := by
      intro text htext
      obtain ⟨other,hother,htext⟩ := List.mem_flatMap.mp htext
      exact hsilent other hother _ (List.mem_cons_of_mem _ htext)
    rw [← lastDefinition_silent hmap,h,lastDefinition_silent hflat]
  · intro h
    induction lines using List.reverseRecOn with
    | nil => exact fun _ => Iff.rfl
    | append_singleton lines line ih =>
      intro v
      by_cases hsays : ∃ value, ∃ text ∈ lineText line :: shownTexts line, Defines text item value
      · by_cases hplain : IsPlainLine line
        · have hshown := hlines line (by simp) hplain
          rw [hshown] at hsays
          obtain ⟨value,text,htext,hdefines⟩ := hsays
          have htext : text = lineText line := by simpa using htext
          rw [htext] at hdefines
          rw [List.map_append,List.flatMap_append,List.map_singleton,List.flatMap_singleton,hshown,
            lastDefinition_defines hdefines,lastDefinition_defines hdefines]
        · exact h lines line [] (by simp) hplain hsays nofun v
      · have hsilent : ∀ text ∈ lineText line :: shownTexts line, ∀ value, ¬ Defines text item value :=
          fun text htext value hdefines => hsays ⟨value,text,htext,hdefines⟩
        rw [List.map_append,List.flatMap_append,List.map_singleton,List.flatMap_singleton,
          lastDefinition_silent_one (hsilent _ List.mem_cons_self),
          lastDefinition_silent fun text htext => hsilent text (List.mem_cons_of_mem _ htext)]
        apply ih fun l hl => hlines l (List.mem_append_left _ hl)
        intro before line' after heq hplain hsays' hsilent' v'
        refine h before line' (after ++ [line]) (by rw [heq]; simp) hplain hsays' ?_ v'
        intro other hother
        rcases List.mem_append.mp hother with hother | hother
        · exact hsilent' other hother
        · rw [List.mem_singleton.mp hother]
          exact hsilent

end Lines

/-- Every item has the value of the last line about it exactly where, for every item, that line or
the last piece about it is read in one piece. -/
theorem login_defs_by_lines_iff (build : DefsBuild) (content : Bytes) :
    (∃ defs, defLoad build (.opened content) = some defs ∧ ∀ item ∈ (defTable build).map Itemdef.name,
        LastDefinition ((Fgets.lines newline content).map lineText) item (getdefStr defs item)) ↔
      ∀ item ∈ (defTable build).map Itemdef.name, ReadInOnePiece (Fgets.lines newline content) item := by
  have hagree : ∀ item, _ ↔ ReadInOnePiece (Fgets.lines newline content) item :=
    fun item => readings_agree_iff fun line hline => shownTexts_plain hline
  have hshown : (Fgets.lines newline content).flatMap shownTexts =
      (Fgets.pieces newline defsSize content).map fun piece => lineText (cstring piece) := by
    rw [Fgets.pieces_eq (by decide) content,List.map_flatMap]
    rfl
  have hload : ∀ item ∈ (defTable build).map Itemdef.name, ∀ v, LastDefinition ((Fgets.lines newline content).flatMap shownTexts) item v ↔
      v = getdefStr ((Fgets.pieces newline defsSize content).foldl (loadPiece build) ⟨defTable build,[]⟩) item := by
    intro item hitem v
    rw [hshown]
    exact foldl_loadPiece _ hitem fun piece hpiece => Fgets.mem_pieces (by decide) hpiece
  constructor
  · rintro ⟨defs,hdefs,hvalues⟩ item hitem
    cases hdefs
    apply (hagree item).mp
    intro v
    obtain ⟨w,hw⟩ := lastDefinition_exists_unique ((Fgets.lines newline content).map lineText) item
    rw [hload item hitem,hw,← (hw _).mp (hvalues item hitem)]
  · intro h
    refine ⟨_,rfl,fun item hitem => ?_⟩
    exact ((hagree item).mpr (h item hitem) _).mpr ((hload item hitem _).mpr rfl)

/-- A comment defines nothing. -/
theorem not_defines_comment {lead rest name value : Bytes} (hlead : ∀ b ∈ lead, isBlank b = true) :
    ¬ Defines (lead ++ 35 :: rest) name value := by
  rintro ⟨⟨lead',gap,trail,heq,hlead',_⟩,hword,hnamed,hcomment,_,_⟩
  obtain ⟨c,name,rfl⟩ := List.exists_cons_of_ne_nil hnamed
  have hdrop := congrArg (List.dropWhile isBlank) heq
  have hstart : (35 :: rest : Bytes).dropWhile isBlank = 35 :: rest := rfl
  rw [dropWhile_append_all _ hlead,hstart] at hdrop
  simp only [List.append_assoc] at hdrop
  rw [dropWhile_append_all _ hlead',List.cons_append,List.dropWhile_cons,hword c List.mem_cons_self] at hdrop
  exact hcomment (congrArg List.head? hdrop).symm

/-- A comment of 1023 bytes, and one definition behind it in the same line. -/
def longDefsComment : Bytes := 35 :: (List.replicate 1022 120 ++ ascii "UMASK 000")

theorem longDefsComment_line : newline ∉ longDefsComment := by
  have hdefinition : newline ∉ ascii "UMASK 000" := by decide +kernel
  unfold longDefsComment
  simp only [List.mem_cons,List.mem_append,List.mem_replicate,not_or]
  exact ⟨by decide,fun h => absurd h.2 (by decide),hdefinition⟩

private theorem longDefsComment_pieces :
    ∃ comment, Fgets.pieces newline defsSize longDefsComment = [comment,ascii "UMASK 000"] := by
  have htake : newline ∉ longDefsComment.take (defsSize - 1) := fun h => longDefsComment_line (List.mem_of_mem_take h)
  have hsize : defsSize - 1 = 1022 + 1 := rfl
  have hdrop : longDefsComment.drop (defsSize - 1) = ascii "UMASK 000" := by
    rw [hsize,longDefsComment,List.drop_succ_cons,List.drop_append_of_le_length (by rw [List.length_replicate]),
      List.drop_of_length_le (by rw [List.length_replicate]),List.nil_append]
  refine ⟨longDefsComment.take (defsSize - 1),?_⟩
  rw [Fgets.pieces_full (by decide) htake (List.cons_ne_nil _ _),hdrop,
    Fgets.pieces_short (by decide) (by decide +kernel) (by decide +kernel) (by decide +kernel)]

/-- A comment that is too long sets the umask. -/
theorem long_comment_defines :
    ¬ ∃ defs, defLoad ⟨true,false,false,false⟩ (.opened longDefsComment) = some defs ∧
      ∀ item ∈ (defTable ⟨true,false,false,false⟩).map Itemdef.name,
        LastDefinition ((Fgets.lines newline longDefsComment).map lineText) item (getdefStr defs item) := by
  rintro ⟨defs,hdefs,hvalues⟩
  have hitem : ascii "UMASK" ∈ (defTable ⟨true,false,false,false⟩).map Itemdef.name := by
    rw [defTable,List.map_map,List.mem_map]
    exact ⟨"UMASK",by simp [defNames],rfl⟩
  obtain ⟨comment,hpieces⟩ := longDefsComment_pieces
  have hload := foldl_loadPiece (v := some (ascii "000")) (Fgets.pieces newline defsSize longDefsComment) hitem
    fun piece hpiece => Fgets.mem_pieces (by decide) hpiece
  have hvalue : some (ascii "000") = getdefStr defs (ascii "UMASK") := by
    rw [← Option.some.inj hdefs,← hload,hpieces]
    refine ⟨[lineText (cstring comment)],ascii "UMASK 000",[],rfl,?_,nofun⟩
    exact defsFields_iff.mp (by decide +kernel)
  have hlast := hvalues _ hitem
  rw [← hvalue,Fgets.lines_last longDefsComment_line (List.cons_ne_nil _ _)] at hlast
  obtain ⟨before,text,after,htexts,hdefines,_⟩ := hlast
  have htext : text = longDefsComment := by
    have hmem : text ∈ [longDefsComment].map lineText := htexts ▸ by simp
    rw [List.map_singleton,List.mem_singleton] at hmem
    rw [hmem,lineText]
    exact List.takeWhile_eq_self_iff.mpr fun b hb => by simpa using ne_of_mem_of_not_mem hb longDefsComment_line
  rw [htext] at hdefines
  have hnot : ¬ Defines ([] ++ longDefsComment) (ascii "UMASK") (ascii "000") :=
    not_defines_comment (fun b hb => absurd hb List.not_mem_nil)
  exact hnot hdefines

end UserDb.Login
