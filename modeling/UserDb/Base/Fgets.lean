import Mathlib

/-! Reading a stream into a buffer of fixed size: a piece ends behind a terminator, or where the
buffer is full. Short lines are pieces; a long one comes in several. -/
namespace UserDb.Base
namespace Fgets
variable {α : Type} [DecidableEq α] (nl : α) (size : Nat)

/-- A piece of a stream, and what is left of it. One place of the buffer is for the end of the string. -/
def fgets (stream : List α) : Option (List α × List α) :=
  if stream = [] then none
  else
    let read := ((stream.take (size - 1)).takeWhile (· ≠ nl)).length
    some ((stream.take (size - 1)).take (read + 1),stream.drop ((stream.take (size - 1)).take (read + 1)).length)

/-- The pieces up to the end of the stream. Each call takes one element at least. -/
def piecesFrom : Nat → List α → List (List α)
  | 0, _ => []
  | fuel + 1, stream =>
    match fgets nl size stream with
    | none => []
    | some (piece,rest) => piece :: piecesFrom fuel rest

def pieces (stream : List α) : List (List α) := piecesFrom nl size stream.length stream

/-- What of a line is in its last piece. -/
def overhang (body : List α) : List α := body.drop ((size - 1) * (body.length / (size - 1)))

/-- The lines of a stream, each with its terminator, if it has one. -/
def lines : List α → List (List α)
  | [] => []
  | a :: rest =>
    if a = nl then [a] :: lines rest
    else
      match lines rest with
      | [] => [[a]]
      | line :: more => (a :: line) :: more

variable {nl size} {stream line piece rest body : List α} {fuel : Nat}

private theorem fgets_eq_none : fgets nl size stream = none ↔ stream = [] := by
  unfold fgets
  split
  · rename_i hnil
    exact iff_of_true rfl hnil
  · rename_i hne
    exact iff_of_false nofun hne

/-- A piece is taken from the front of the stream, and is not empty. -/
theorem fgets_eq_some (hsize : 2 ≤ size) (h : fgets nl size stream = some (piece,rest)) : stream = piece ++ rest ∧ piece ≠ [] := by
  unfold fgets at h
  split at h
  · cases h
  · rename_i hne
    obtain ⟨a,stream,rfl⟩ := List.exists_cons_of_ne_nil hne
    have hroom : size - 1 = (size - 2) + 1 := by omega
    simp only [Option.some.injEq,Prod.mk.injEq] at h
    obtain ⟨hpiece,hrest⟩ := h
    rw [hpiece] at hrest
    have hprefix : piece <+: a :: stream := by
      rw [← hpiece]
      exact (List.take_prefix _ _).trans (List.take_prefix _ _)
    obtain ⟨rest',hrest'⟩ := hprefix
    refine ⟨?_,?_⟩
    · rw [← hrest',← hrest,← hrest',List.drop_left]
    · rw [← hpiece,hroom,List.take_succ_cons,List.take_succ_cons]
      exact List.cons_ne_nil _ _

private theorem piecesFrom_enough (hsize : 2 ≤ size) {fuel' : Nat} (h : stream.length ≤ fuel) (h' : stream.length ≤ fuel') :
    piecesFrom nl size fuel stream = piecesFrom nl size fuel' stream := by
  induction fuel generalizing fuel' stream with
  | zero =>
    obtain rfl := List.eq_nil_of_length_eq_zero (Nat.le_zero.mp h)
    cases fuel' with
    | zero => rfl
    | succ fuel' => rfl
  | succ fuel ih =>
    cases fuel' with
    | zero =>
      obtain rfl := List.eq_nil_of_length_eq_zero (Nat.le_zero.mp h')
      rfl
    | succ fuel' =>
      rw [piecesFrom,piecesFrom]
      rcases hread : fgets nl size stream with _ | ⟨piece,rest⟩
      · rfl
      · obtain ⟨hstream,hne⟩ := fgets_eq_some hsize hread
        have hlength := congrArg List.length hstream
        rw [List.length_append] at hlength
        have hpos := List.length_pos_iff.mpr hne
        exact congrArg _ (ih (by omega) (by omega))

theorem pieces_nil : pieces nl size [] = [] := rfl

/-- The pieces of a stream are its first one and those of the rest. -/
theorem pieces_of_fgets (hsize : 2 ≤ size) (h : fgets nl size stream = some (piece,rest)) :
    pieces nl size stream = piece :: pieces nl size rest := by
  obtain ⟨hstream,hne⟩ := fgets_eq_some hsize h
  have hlength := congrArg List.length hstream
  rw [List.length_append] at hlength
  have hpos := List.length_pos_iff.mpr hne
  obtain ⟨n,hn⟩ : ∃ n, stream.length = n + 1 := ⟨stream.length - 1,by omega⟩
  unfold pieces
  rw [hn,piecesFrom,h]
  exact congrArg _ (piecesFrom_enough hsize (by omega) le_rfl)

/-- What fits in the buffer up to a terminator is one piece. -/
theorem fgets_line (hbody : nl ∉ body) (hfits : body.length + 1 < size) (rest : List α) :
    fgets nl size (body ++ nl :: rest) = some (body ++ [nl],rest) := by
  have hne : body ++ nl :: rest ≠ [] := by simp
  have htake : (body ++ nl :: rest).take (size - 1) = body ++ nl :: rest.take (size - 1 - body.length - 1) := by
    rw [List.take_append,List.take_of_length_le (by omega)]
    have hroom : size - 1 - body.length = (size - 1 - body.length - 1) + 1 := by omega
    rw [hroom,List.take_succ_cons]
    rfl
  have hwhile : (body ++ nl :: rest.take (size - 1 - body.length - 1)).takeWhile (· ≠ nl) = body := by
    rw [List.takeWhile_append_of_pos fun a ha => by simpa using fun heq : a = nl => hbody (heq ▸ ha)]
    simp
  have hpiece : (body ++ nl :: rest.take (size - 1 - body.length - 1)).take (body.length + 1) = body ++ [nl] := by
    rw [List.take_append,List.take_of_length_le (by omega)]
    simp
  unfold fgets
  simp only [if_neg hne,htake,hwhile,hpiece,List.length_append,List.length_singleton]
  have hdrop : (body ++ nl :: rest).drop (body.length + 1) = rest := by
    rw [List.drop_append]
    simp
  rw [hdrop]

/-- Without a terminator the buffer is filled. -/
theorem fgets_full (hbody : nl ∉ stream.take (size - 1)) (hne : stream ≠ []) :
    fgets nl size stream = some (stream.take (size - 1),stream.drop (size - 1)) := by
  have hwhile : (stream.take (size - 1)).takeWhile (· ≠ nl) = stream.take (size - 1) := by
    rw [List.takeWhile_eq_self_iff]
    intro a ha
    simpa using fun heq : a = nl => hbody (heq ▸ ha)
  unfold fgets
  simp only [if_neg hne,hwhile]
  rw [List.take_of_length_le (Nat.le_succ _)]
  simp only [Option.some.injEq,Prod.mk.injEq,true_and]
  rw [List.length_take]
  rcases Nat.le_total (size - 1) stream.length with hle | hle
  · rw [Nat.min_eq_left hle]
  · rw [Nat.min_eq_right hle,List.drop_length,List.drop_of_length_le hle]

theorem pieces_line (hsize : 2 ≤ size) (hbody : nl ∉ body) (hfits : body.length + 1 < size) (rest : List α) :
    pieces nl size (body ++ nl :: rest) = (body ++ [nl]) :: pieces nl size rest :=
  pieces_of_fgets hsize (fgets_line hbody hfits rest)

theorem pieces_full (hsize : 2 ≤ size) (hbody : nl ∉ stream.take (size - 1)) (hne : stream ≠ []) :
    pieces nl size stream = stream.take (size - 1) :: pieces nl size (stream.drop (size - 1)) :=
  pieces_of_fgets hsize (fgets_full hbody hne)

/-- Text without a terminator that the buffer holds is one piece. -/
theorem pieces_short (hsize : 2 ≤ size) (hbody : nl ∉ body) (hfits : body.length < size) (hne : body ≠ []) :
    pieces nl size body = [body] := by
  rw [pieces_full hsize (fun h => hbody (List.mem_of_mem_take h)) hne,List.take_of_length_le (by omega),
    List.drop_of_length_le (by omega),pieces_nil]

/-- The pieces of a line do not depend on what follows it. -/
theorem pieces_append (hsize : 2 ≤ size) (hbody : nl ∉ body) (rest : List α) :
    pieces nl size (body ++ nl :: rest) = pieces nl size (body ++ [nl]) ++ pieces nl size rest := by
  induction hn : body.length using Nat.strong_induction_on generalizing body with
  | _ n ih =>
    rcases Nat.lt_or_ge (body.length + 1) size with hfits | hlong
    · rw [pieces_line hsize hbody hfits,pieces_line hsize hbody hfits []]
      rfl
    · have hfull : ∀ more, pieces nl size (body ++ more) = body.take (size - 1) :: pieces nl size (body.drop (size - 1) ++ more) := by
        intro more
        have htake : (body ++ more).take (size - 1) = body.take (size - 1) := List.take_append_of_le_length (by omega)
        have hdrop : (body ++ more).drop (size - 1) = body.drop (size - 1) ++ more := List.drop_append_of_le_length (by omega)
        have hne : body ++ more ≠ [] := by
          intro hnil
          have hlength := congrArg List.length (List.append_eq_nil_iff.mp hnil).1
          rw [List.length_nil] at hlength
          omega
        rw [pieces_full hsize (by rw [htake]; exact fun h => hbody (List.mem_of_mem_take h)) hne,htake,hdrop]
      rw [hfull,hfull,ih (body.drop (size - 1)).length (by rw [List.length_drop]; omega) (fun h => hbody (List.mem_of_mem_drop h)) rfl]
      rfl

omit [DecidableEq α] in
theorem overhang_short (hfits : body.length + 1 < size) : overhang size body = body := by
  rw [overhang,Nat.div_eq_of_lt (by omega),Nat.mul_zero,List.drop_zero]

omit [DecidableEq α] in
private theorem overhang_long (hsize : 2 ≤ size) (hlong : size - 1 ≤ body.length) :
    overhang size body = overhang size (body.drop (size - 1)) := by
  have hdiv : body.length / (size - 1) = (body.length - (size - 1)) / (size - 1) + 1 := by
    rw [Nat.div_eq_sub_div (by omega) hlong]
  rw [overhang,overhang,List.drop_drop,List.length_drop,hdiv,Nat.mul_succ,Nat.add_comm]

/-- Of the pieces of a line only the last one has the terminator. -/
theorem pieces_terminated (size : Nat) (hsize : 2 ≤ size) (hbody : nl ∉ body) :
    ∃ front, pieces nl size (body ++ [nl]) = front ++ [overhang size body ++ [nl]] ∧ ∀ piece ∈ front, nl ∉ piece := by
  induction hn : body.length using Nat.strong_induction_on generalizing body with
  | _ n ih =>
    rcases Nat.lt_or_ge (body.length + 1) size with hfits | hlong
    · exact ⟨[],by rw [pieces_line hsize hbody hfits,overhang_short hfits]; rfl,nofun⟩
    · have htake : (body ++ [nl]).take (size - 1) = body.take (size - 1) := List.take_append_of_le_length (by omega)
      have hdrop : (body ++ [nl]).drop (size - 1) = body.drop (size - 1) ++ [nl] := List.drop_append_of_le_length (by omega)
      have hfront : nl ∉ body.take (size - 1) := fun h => hbody (List.mem_of_mem_take h)
      obtain ⟨front,heq,hnone⟩ :=
        ih (body.drop (size - 1)).length (by rw [List.length_drop]; omega) (fun h => hbody (List.mem_of_mem_drop h)) rfl
      refine ⟨body.take (size - 1) :: front,?_,?_⟩
      · rw [pieces_full hsize (by rwa [htake]) (by simp),htake,hdrop,heq,← overhang_long hsize (by omega)]
        rfl
      · intro piece hpiece
        rcases List.mem_cons.mp hpiece with rfl | hpiece
        · exact hfront
        · exact hnone piece hpiece

/-- Without a terminator in the stream, none is in a piece. -/
theorem notMem_pieces (hsize : 2 ≤ size) (hbody : nl ∉ stream) : ∀ piece ∈ pieces nl size stream, nl ∉ piece := by
  induction hn : stream.length using Nat.strong_induction_on generalizing stream with
  | _ n ih =>
    intro piece hpiece
    by_cases hne : stream = []
    · rw [hne,pieces_nil] at hpiece
      cases hpiece
    · have hpos := List.length_pos_iff.mpr hne
      rw [pieces_full hsize (fun h => hbody (List.mem_of_mem_take h)) hne] at hpiece
      rcases List.mem_cons.mp hpiece with rfl | hpiece
      · exact fun h => hbody (List.mem_of_mem_take h)
      · exact ih (stream.drop (size - 1)).length (by rw [List.length_drop]; omega) (fun h => hbody (List.mem_of_mem_drop h)) rfl
          piece hpiece

/-- A stream is empty, a last line without terminator, or a line in front of the rest. -/
theorem stream_cases (nl : α) (stream : List α) :
    stream = [] ∨ (nl ∉ stream ∧ stream ≠ []) ∨ ∃ body rest, nl ∉ body ∧ stream = body ++ nl :: rest := by
  by_cases hmem : nl ∈ stream
  · obtain ⟨body,rest,heq,hbody⟩ := List.eq_append_cons_of_mem hmem
    exact .inr (.inr ⟨body,rest,hbody,heq⟩)
  · by_cases hnil : stream = []
    · exact .inl hnil
    · exact .inr (.inl ⟨hmem,hnil⟩)

omit [DecidableEq α] in
theorem notMem_overhang (size : Nat) (hbody : nl ∉ body) : nl ∉ overhang size body := fun h => hbody (List.mem_of_mem_drop h)

/-- In a piece a terminator stands at the end. -/
theorem mem_pieces (hsize : 2 ≤ size) (h : piece ∈ pieces nl size stream) : ∃ body, nl ∉ body ∧ (piece = body ∨ piece = body ++ [nl]) := by
  induction hn : stream.length using Nat.strong_induction_on generalizing stream with
  | _ n ih =>
    rcases stream_cases nl stream with rfl | ⟨hnone,_⟩ | ⟨body,rest,hbody,rfl⟩
    · cases h
    · exact ⟨piece,notMem_pieces hsize hnone piece h,.inl rfl⟩
    · rw [pieces_append hsize hbody,List.mem_append] at h
      rcases h with h | h
      · obtain ⟨front,heq,hfront⟩ := pieces_terminated size hsize hbody
        rw [heq,List.mem_append,List.mem_singleton] at h
        rcases h with h | h
        · exact ⟨piece,hfront piece h,.inl rfl⟩
        · exact ⟨_,notMem_overhang size hbody,.inr h⟩
      · refine ih rest.length ?_ h rfl
        rw [← hn,List.length_append,List.length_cons]
        omega

/-- A piece is no longer than the stream, and fits in the buffer. -/
theorem length_of_mem_pieces (hsize : 2 ≤ size) (h : piece ∈ pieces nl size stream) :
    piece.length ≤ stream.length ∧ piece.length < size := by
  induction hn : stream.length using Nat.strong_induction_on generalizing stream with
  | _ n ih =>
    rcases hread : fgets nl size stream with _ | ⟨first,rest⟩
    · rw [fgets_eq_none.mp hread,pieces_nil] at h
      cases h
    · obtain ⟨hstream,hne⟩ := fgets_eq_some hsize hread
      have hlength := congrArg List.length hstream
      rw [List.length_append] at hlength
      have hpos := List.length_pos_iff.mpr hne
      rw [pieces_of_fgets hsize hread] at h
      rcases List.mem_cons.mp h with rfl | h
      · have hfits : piece.length ≤ size - 1 := by
          unfold fgets at hread
          split at hread
          · cases hread
          · simp only [Option.some.injEq,Prod.mk.injEq] at hread
            rw [← hread.1,List.length_take,List.length_take]
            omega
        omega
      · have hrest := ih rest.length (by omega) h rfl
        omega

theorem lines_line (hbody : nl ∉ body) (rest : List α) : lines nl (body ++ nl :: rest) = (body ++ [nl]) :: lines nl rest := by
  induction body with
  | nil => simp [lines]
  | cons a body ih =>
    have ha : a ≠ nl := fun heq => hbody (heq ▸ List.mem_cons_self)
    rw [List.cons_append,lines,if_neg ha,ih fun h => hbody (List.mem_cons_of_mem _ h)]
    rfl

theorem lines_last (hbody : nl ∉ body) (hne : body ≠ []) : lines nl body = [body] := by
  induction body with
  | nil => exact absurd rfl hne
  | cons a body ih =>
    have ha : a ≠ nl := fun heq => hbody (heq ▸ List.mem_cons_self)
    rw [lines,if_neg ha]
    by_cases hbody' : body = []
    · rw [hbody']
      rfl
    · rw [ih (fun h => hbody (List.mem_cons_of_mem _ h)) hbody']

/-- A line ends in the terminator, or is the last one, which is not empty. -/
theorem mem_lines (h : line ∈ lines nl stream) : ∃ body, nl ∉ body ∧ (line = body ++ [nl] ∨ (line = body ∧ body ≠ [])) := by
  induction hn : stream.length using Nat.strong_induction_on generalizing stream with
  | _ n ih =>
    rcases stream_cases nl stream with rfl | ⟨hnone,hne⟩ | ⟨body,rest,hbody,rfl⟩
    · cases h
    · rw [lines_last hnone hne,List.mem_singleton] at h
      exact ⟨stream,hnone,.inr ⟨h,hne⟩⟩
    · rw [lines_line hbody] at h
      rcases List.mem_cons.mp h with rfl | h
      · exact ⟨body,hbody,.inl rfl⟩
      · refine ih rest.length ?_ h rfl
        rw [← hn,List.length_append,List.length_cons]
        omega

/-- A line that the buffer holds is one piece. -/
theorem pieces_fits (hsize : 2 ≤ size) (h : line ∈ lines nl stream) (hfits : line.length < size) : pieces nl size line = [line] := by
  obtain ⟨body,hbody,rfl | ⟨rfl,hne⟩⟩ := mem_lines h
  · rw [List.length_append] at hfits
    rw [pieces_line hsize hbody hfits,pieces_nil]
  · exact pieces_short hsize hbody hfits hne

/-- The pieces of a stream are those of its lines. -/
theorem pieces_eq (hsize : 2 ≤ size) (stream : List α) : pieces nl size stream = (lines nl stream).flatMap (pieces nl size) := by
  induction hn : stream.length using Nat.strong_induction_on generalizing stream with
  | _ n ih =>
    rcases stream_cases nl stream with rfl | ⟨hnone,hne⟩ | ⟨body,rest,hbody,rfl⟩
    · rfl
    · rw [lines_last hnone hne]
      simp
    · rw [pieces_append hsize hbody,lines_line hbody,List.flatMap_cons,ih rest.length ?_ rest rfl]
      rw [← hn,List.length_append,List.length_cons]
      omega

end Fgets

end UserDb.Base
