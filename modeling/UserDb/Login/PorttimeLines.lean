import UserDb.Login.PorttimePeriods

/-! The port time file by its lines, and when a user is let in as they say. -/
namespace UserDb.Login
open UserDb.Base

/-- A well-formed line: ports, users and periods. -/
structure PortEntry where
  names : List Bytes
  users : List Bytes
  times : List Period
  timesText : Bytes
  namesCount : names ≠ [] ∧ names.length ≤ portTtyMax
  usersCount : users ≠ [] ∧ users.length ≤ portIdsMax
  clean : ∀ name ∈ names ++ users, ∀ b ∈ name, b ≠ colon ∧ b ≠ comma ∧ b ≠ newline ∧ b ≠ 0
  periods : Periods times timesText
  notComment : ([comma].intercalate names).head? ≠ some 35

namespace PortEntry

def text (e : PortEntry) : Bytes := [comma].intercalate e.names ++ colon :: ([comma].intercalate e.users ++ colon :: e.timesText)

def matchesUser (e : PortEntry) (tty user : Bytes) : Bool :=
  e.names.any (portcmp · tty) && e.users.any fun name => name == user || name == ascii "*"

/-- Some period contains the time. Without periods nobody is let in. -/
def allows (e : PortEntry) (tm : Tm) : Bool := e.times.any (Period.contains · tm)

end PortEntry

/-- An unknown abbreviation stands where the reader still takes periods. -/
def StopsSearch (body : Bytes) : Prop :=
  body.head? ≠ some 35 ∧ ∃ names users ps more, body.splitOn colon = [names,users,beforeMore ps ++ more] ∧
    (names.splitOn comma).length ≤ portTtyMax ∧ (users.splitOn comma).length ≤ portIdsMax ∧
    ps.length < portTimesMax ∧ UnknownDay more

/-- Behind as many periods as the reader takes comes something else. -/
def Overfull (body : Bytes) : Prop :=
  ∃ names users ps more, body.splitOn colon = [names,users,beforeMore ps ++ more] ∧ ps.length = portTimesMax ∧ more ≠ []

/-- A line that the reader sees as a whole and as it stands. -/
structure Plain (body : Bytes) : Prop where
  fits : body.length + 1 < bufsiz
  noZero : 0 ∉ body
  noLongNumber : ¬ HasLongNumber body
  notOverfull : ¬ Overfull body

/-- A line, and what it means, if it is well-formed. -/
structure AnyLine where
  body : Bytes
  line : newline ∉ body
  meaning : Option PortEntry
  correct : match meaning with
    | some e => e.text = body
    | none => ∀ e : PortEntry, e.text ≠ body

/-- A well-formed line that fits in the buffer, a plain line that is not well-formed, or any other one. -/
inductive PortLine where
  | entry (e : PortEntry) (h : e.text.length + 1 < bufsiz)
  | malformed (body : Bytes) (hline : newline ∉ body) (hplain : Plain body) (h : ∀ e : PortEntry, e.text ≠ body)
  | other (l : AnyLine) (hplain : ¬ Plain l.body) (hlong : l.meaning.isSome → bufsiz ≤ l.body.length + 1)

namespace PortLine

def body : PortLine → Bytes
  | .entry e _ => e.text
  | .malformed body _ _ _ => body
  | .other l _ _ => l.body

def meaning : PortLine → Option PortEntry
  | .entry e _ => some e
  | .malformed _ _ _ _ => none
  | .other l _ _ => l.meaning

end PortLine

/-- The lines of a file, and what stands behind the last newline. -/
structure PortFile where
  lines : List PortLine
  tail : Option AnyLine

def portText (lines : List PortLine) (tail : Option AnyLine) : Bytes :=
  lines.flatMap (fun line => line.body ++ [newline]) ++ (tail.map AnyLine.body).getD []

namespace PortFile

def text (file : PortFile) : Bytes := portText file.lines file.tail

def entries (file : PortFile) : List PortEntry := file.lines.filterMap PortLine.meaning ++ (file.tail.bind AnyLine.meaning).toList

/-- The first entry for the port and the user decides; without one everybody is let in. -/
def allows (file : PortFile) (tty user : Bytes) (tm : Tm) : Bool :=
  match file.entries.find? (PortEntry.matchesUser · tty user) with
  | none => true
  | some e => e.allows tm

end PortFile

/-- A line in a memory, up to a newline or the end of the string: no comment, three fields, and room for the names. -/
structure InBuffer (m names users times behind : Bytes) : Prop where
  line : ∃ line sep, m = line ++ sep :: behind ∧ (sep = newline ∨ sep = 0) ∧ newline ∉ line ∧ 0 ∉ line ∧ line.head? ≠ some 35 ∧
    line.splitOn colon = [names,users,times]
  namesRoom : (names.splitOn comma).length ≤ portTtyMax
  usersRoom : (users.splitOn comma).length ≤ portIdsMax

/-- A line with zeros for the separators at which it is taken apart, as far as that goes. -/
def takenApart (line : Bytes) : Bytes :=
  match line.splitOn colon with
  | [names,users,times] =>
    zeroSeparators comma (portTtyMax + 1) names ++ 0 ::
      ((if (names.splitOn comma).length ≤ portTtyMax then zeroSeparators comma (portIdsMax + 1) users else users) ++ 0 :: times)
  | _ => zeroSeparators colon 3 line

/-- What the buffer holds after the line in it, which ends at a newline or at the end of the string. -/
def leftBehind (m : Bytes) : Bytes :=
  if m.head? = some 35 then m
  else
    let line := m.takeWhile fun b => b != newline && b != 0
    takenApart line ++ 0 :: m.drop (line.length + 1)

/-- The memory at each piece: the piece, the end of its string, and what the pieces before it left behind that. -/
def buffers : List Bytes → Bytes → List Bytes
  | [], _ => []
  | piece :: pieces, mem => fill piece mem :: buffers pieces (leftBehind (fill piece mem))

def bufferAfter (pieces : List Bytes) (mem : Bytes) : Bytes := pieces.foldl (fun mem piece => leftBehind (fill piece mem)) mem

section Format
variable (tty user : Bytes) (tm : Tm)

/-- An unknown abbreviation stands in the memory where periods are taken from: everybody is let in. -/
def Stops (m : Bytes) : Prop :=
  ∃ names users times behind, InBuffer m names users times behind ∧ times ≠ [] ∧ Held portTimesMax (times ++ 0 :: behind) none

/-- Some period contains the time; they end at a start of -1. -/
def heldAllows (ws : List Written) : Bool := (ws.takeWhile fun w => short (wrapped w.start) != -1).any (Written.contains · tm)

/-- An entry for the port and the user stands in the memory. -/
def Answers (m : Bytes) (answer : Bool) : Prop :=
  ∃ names users times behind, InBuffer m names users times behind ∧
    ((names.splitOn comma).any (portcmp · tty) && (users.splitOn comma).any fun name => name == user || name == ascii "*") = true ∧
    (times = [] ∧ answer = false ∨
      times ≠ [] ∧ ∃ ws, Held portTimesMax (times ++ 0 :: behind) (some ws) ∧ answer = heldAllows tm ws)

def Says (m : Bytes) (answer : Bool) : Prop := Stops m ∧ answer = true ∨ Answers tty user tm m answer

/-- The first of the memories that says something. -/
def FirstSays : List Bytes → Bool → Prop
  | [], _ => False
  | m :: ms, answer => Says tty user tm m answer ∨ (∀ other, ¬ Says tty user tm m other) ∧ FirstSays ms answer

/-- What a line says to the port and the user, if it is an entry for them. -/
def entrySays (meaning : Option PortEntry) : Option Bool :=
  (meaning.filter (PortEntry.matchesUser · tty user)).map (PortEntry.allows · tm)

/-- What some lines of a file say together. -/
def linesAllow (lines : List PortLine) (tail : Option AnyLine) : Bool := (PortFile.mk lines tail).allows tty user tm

/-- The lines are read as they say, `due` being the verdict of an entry in front of them that was not seen. Up to the
line that decides: an entry is not let in by its periods behind the last one for which there is room; a plain line with
an unknown abbreviation stands only where everybody is let in anyway; and what the memories of any other line say, with
what earlier lines left there, is what it and the lines behind it say. -/
def AsWritten : Option Bool → Bytes → List PortLine → Option AnyLine → Prop
  | due, _, [], none => due.getD true = true
  | due, mem, [], some tail =>
    (∀ answer, FirstSays tty user tm (buffers (Fgets.pieces newline bufsiz tail.body) mem) answer →
      answer = due.getD (linesAllow tty user tm [] (some tail))) ∧
    ((∀ answer, ¬ FirstSays tty user tm (buffers (Fgets.pieces newline bufsiz tail.body) mem) answer) →
      due.getD (linesAllow tty user tm [] (some tail)) = true)
  | due, mem, .entry e _ :: lines, tail =>
    if e.matchesUser tty user then (e.times.take portTimesMax).any (Period.contains · tm) = due.getD (e.allows tm)
    else AsWritten due (leftBehind (fill (e.text ++ [newline]) mem)) lines tail
  | due, mem, .malformed body _ _ _ :: lines, tail =>
    (StopsSearch body → due.getD (linesAllow tty user tm lines tail) = true) ∧
      (¬ StopsSearch body → AsWritten due (leftBehind (fill (body ++ [newline]) mem)) lines tail)
  | due, mem, .other l _ _ :: lines, tail =>
    (∀ answer, FirstSays tty user tm (buffers (Fgets.pieces newline bufsiz (l.body ++ [newline])) mem) answer →
      answer = (due.or (entrySays tty user tm l.meaning)).getD (linesAllow tty user tm lines tail)) ∧
    ((∀ answer, ¬ FirstSays tty user tm (buffers (Fgets.pieces newline bufsiz (l.body ++ [newline])) mem) answer) →
      AsWritten (due.or (entrySays tty user tm l.meaning)) (bufferAfter (Fgets.pieces newline bufsiz (l.body ++ [newline])) mem) lines
        tail)

end Format

/-- A well-formed line with no more periods than there is room for, or a plain one that is not well-formed and has no
unknown abbreviation where periods are taken from. -/
def PortLine.Clean : PortLine → Prop
  | .entry e _ => e.times.length ≤ portTimesMax
  | .malformed body _ _ _ => ¬ StopsSearch body
  | .other _ _ _ => False

/-- A file of such lines, each with its newline. -/
structure PortFile.Clean (file : PortFile) : Prop where
  lines : ∀ line ∈ file.lines, line.Clean
  tail : file.tail = none

section Line
variable {body : Bytes}

private theorem zeroSeparators_one {sep : UInt8} (hbody : sep ∉ body) (rest : Bytes) :
    zeroSeparators sep 1 (body ++ sep :: rest) = body ++ 0 :: rest := by
  induction body with
  | nil =>
    rw [List.nil_append,zeroSeparators,if_pos rfl]
    cases rest <;> rfl
  | cons b body ih =>
    have hb : b ≠ sep := fun heq => hbody (heq ▸ List.mem_cons_self)
    rw [List.cons_append,zeroSeparators,if_neg hb,ih fun h => hbody (List.mem_cons_of_mem _ h)]
    rfl

private theorem zeroSeparators_none {sep : UInt8} (n : Nat) (hbody : sep ∉ body) : zeroSeparators sep n body = body := by
  cases n with
  | zero => cases body <;> rfl
  | succ n =>
    induction body with
    | nil => rfl
    | cons b body ih =>
      have hb : b ≠ sep := fun heq => hbody (heq ▸ List.mem_cons_self)
      rw [zeroSeparators,if_neg hb,ih fun h => hbody (List.mem_cons_of_mem _ h)]

/-- A line is taken apart as a string, whether it ends at a newline or at the end of one. -/
theorem portLine_eq {sep : UInt8} (hsep : sep = newline ∨ sep = 0) (hline : newline ∉ body) (hzero : 0 ∉ body)
    (hcomment : body.head? ≠ some 35) (behind : Bytes) : portLine (body ++ sep :: behind) = portFields (body ++ 0 :: behind) := by
  have hhead : (body ++ sep :: behind).head? ≠ some 35 := by
    cases body with
    | nil =>
      rcases hsep with rfl | rfl
      · exact fun h => absurd (Option.some.inj h) (by decide)
      · exact fun h => absurd (Option.some.inj h) (by decide)
    | cons b body => exact hcomment
  rw [portLine,if_neg hhead]
  congr 1
  rcases hsep with rfl | rfl
  · have hstring : cstring (body ++ newline :: behind) = body ++ newline :: cstring behind := by
      unfold cstring
      rw [List.takeWhile_append_of_pos fun b hb => by simpa using ne_of_mem_of_not_mem hb hzero]
      rfl
    obtain ⟨s,back,hsplit,hs⟩ : ∃ s back, behind = s ++ back ∧ cstring behind = s := ⟨_,_,List.takeWhile_append_dropWhile.symm,rfl⟩
    have hwhole : body ++ newline :: behind = (body ++ newline :: s) ++ back := by
      rw [hsplit]
      simp
    rw [hstring,hs,zeroSeparators_one hline,hwhole,List.drop_left,hsplit]
    simp
  · rw [cstring_zero hzero behind,zeroSeparators_none 1 hline,List.drop_left]

/-- A line with its newline is read from a buffer in which two zeros stand behind it. -/
theorem portLine_line (hline : newline ∉ body) (hzero : 0 ∉ body) (hcomment : body.head? ≠ some 35) (mem : Bytes) :
    ∃ m, portLine (fill (body ++ [newline]) mem) = portFields (body ++ 0 :: 0 :: m) := by
  refine ⟨mem.drop ((body ++ [newline]).length + 1),?_⟩
  rw [← portLine_eq (.inl rfl) hline hzero hcomment]
  simp [fill]

private theorem portLine_comment (hcomment : body.head? = some 35) (mem : Bytes) :
    (portLine (fill (body ++ [newline]) mem)).1 = .next := by
  obtain ⟨b,rest,rfl⟩ : ∃ b rest, body = b :: rest := by
    cases body with
    | nil => cases hcomment
    | cons b rest => exact ⟨b,rest,rfl⟩
  cases hcomment
  rfl

/-- What the reader gets from a line of the buffer. -/
theorem portFields_read (hzero : 0 ∉ body) (m : Bytes) : (portFields (body ++ 0 :: m)).1 =
    match body.splitOn colon with
    | [names,users,times] =>
      if portTtyMax < (names.splitOn comma).length ∨ portIdsMax < (users.splitOn comma).length then .next
      else if times = [] then .entry ⟨names.splitOn comma,users.splitOn comma,none⟩
      else
        match portTimes portTimesMax (times ++ 0 :: m) with
        | none => .error
        | some none => .next
        | some (some l) => .entry ⟨names.splitOn comma,users.splitOn comma,some l⟩
    | _ => .next := by
  have hstring : cstring (body ++ 0 :: m) = body := cstring_zero hzero m
  unfold portFields
  simp only [hstring]
  by_cases hthree : ∃ names users times, body.splitOn colon = [names,users,times]
  · obtain ⟨names,users,times,hsplit⟩ := hthree
    obtain ⟨hbody,_⟩ := of_splitOn_three hsplit
    have hcp : (body ++ 0 :: m).drop (names.length + 1 + (users.length + 1)) = times ++ 0 :: m := by
      have hwhole : body ++ 0 :: m = (names ++ [colon]) ++ ((users ++ [colon]) ++ (times ++ 0 :: m)) := by
        rw [hbody]
        simp
      have hdrop : (names ++ [colon]).length = names.length + 1 ∧ (users ++ [colon]).length = users.length + 1 := by simp
      rw [hwhole,← List.drop_drop,← hdrop.1,List.drop_left,← hdrop.2,List.drop_left]
    have hhead : (times ++ 0 :: m).headD 0 = 0 ↔ times = [] := by
      cases times with
      | nil => exact iff_of_true rfl rfl
      | cons b times =>
        refine iff_of_false (fun hb : b = 0 => hzero ?_) (List.cons_ne_nil b times)
        rw [hbody,hb]
        simp
    simp only [hsplit,hcp,hhead]
    by_cases hnames : portTtyMax < (names.splitOn comma).length
    · rw [if_pos hnames,if_pos (.inl hnames)]
    · rw [if_neg hnames]
      by_cases husers : portIdsMax < (users.splitOn comma).length
      · rw [if_pos husers,if_pos (.inr husers)]
      · rw [if_neg husers,if_neg (not_or.mpr ⟨hnames,husers⟩)]
        split
        · rfl
        · split <;> simp_all
  · generalize body.splitOn colon = parts at hthree
    rcases parts with _ | ⟨a,_ | ⟨b,_ | ⟨c,_ | ⟨d,parts⟩⟩⟩⟩
    · rfl
    · rfl
    · rfl
    · exact absurd ⟨a,b,c,rfl⟩ hthree
    · rfl

/-- The buffer after the line. -/
theorem portFields_left (hzero : 0 ∉ body) (m : Bytes) : (portFields (body ++ 0 :: m)).2 = takenApart body ++ 0 :: m := by
  have hstring : cstring (body ++ 0 :: m) = body := cstring_zero hzero m
  unfold portFields takenApart
  simp only [hstring]
  by_cases hthree : ∃ names users times, body.splitOn colon = [names,users,times]
  · obtain ⟨names,users,times,hsplit⟩ := hthree
    obtain ⟨hbody,_⟩ := of_splitOn_three hsplit
    have hcp : (body ++ 0 :: m).drop (names.length + 1 + (users.length + 1)) = times ++ 0 :: m := by
      have hwhole : body ++ 0 :: m = (names ++ [colon]) ++ ((users ++ [colon]) ++ (times ++ 0 :: m)) := by
        rw [hbody]
        simp
      have hdrop : (names ++ [colon]).length = names.length + 1 ∧ (users ++ [colon]).length = users.length + 1 := by simp
      rw [hwhole,← List.drop_drop,← hdrop.1,List.drop_left,← hdrop.2,List.drop_left]
    simp only [hsplit,hcp]
    by_cases hnames : portTtyMax < (names.splitOn comma).length
    · rw [if_pos hnames,if_neg (Nat.not_le.mpr hnames)]
      simp
    · rw [if_neg hnames,if_pos (Nat.not_lt.mp hnames)]
      split
      · simp
      · split
        · simp
        · split <;> simp
  · have hdrop : (body ++ 0 :: m).drop body.length = 0 :: m := List.drop_left
    rw [hdrop]
    generalize body.splitOn colon = parts at hthree
    rcases parts with _ | ⟨a,_ | ⟨b,_ | ⟨c,_ | ⟨d,parts⟩⟩⟩⟩
    · rfl
    · rfl
    · rfl
    · exact absurd ⟨a,b,c,rfl⟩ hthree
    · rfl

end Line

section Entry

theorem Period.text_clean (p : Period) : ∀ b ∈ p.text, b ≠ colon ∧ b ≠ newline ∧ b ≠ 0 := by
  have hdigit : ∀ b : UInt8, isDigit b = true → b ≠ colon ∧ b ≠ newline ∧ b ≠ 0 := by
    intro b hb
    refine ⟨?_,?_,?_⟩
    all_goals
      rintro rfl
      revert hb
      decide
  intro b hb
  simp only [Period.text,List.mem_append,List.mem_cons,List.mem_flatMap] at hb
  rcases hb with ⟨d,_,hb⟩ | hb | rfl | hb
  · have hday : ∀ b ∈ d.text, b ≠ colon ∧ b ≠ newline ∧ b ≠ 0 := by cases d <;> decide +kernel
    exact hday b hb
  · exact hdigit b (p.start.areDigits b hb)
  · decide
  · exact hdigit b (p.stop.areDigits b hb)

theorem Periods.text_clean {ps : List Period} {text : Bytes} (h : Periods ps text) : ∀ b ∈ text, b ≠ colon ∧ b ≠ newline ∧ b ≠ 0 := by
  induction h with
  | nil =>
    intro b hb
    cases hb
  | last p => exact p.text_clean
  | more p h ih =>
    intro b hb
    rcases List.mem_append.mp hb with hb | hb
    · exact p.text_clean b hb
    · rcases List.mem_cons.mp hb with rfl | hb
      · decide
      · exact ih b hb

theorem Periods.eq_nil_iff {ps : List Period} {text : Bytes} (h : Periods ps text) : text = [] ↔ ps = [] := by
  have hne : ∀ (p : Period) (m : Bytes), p.text ++ m ≠ [] := fun p m hnil => p.text_head m (by rw [hnil]; rfl)
  cases h with
  | nil => exact iff_of_true rfl rfl
  | last p => exact iff_of_false (fun hnil => hne p [] (by rw [hnil]; rfl)) (List.cons_ne_nil _ _)
  | more p h => exact iff_of_false (hne p _) (List.cons_ne_nil _ _)

namespace PortEntry
variable (e : PortEntry)

theorem joined_clean {names : List Bytes} (h : ∀ name ∈ names, ∀ b ∈ name, b ≠ colon ∧ b ≠ comma ∧ b ≠ newline ∧ b ≠ 0) :
    ∀ b ∈ [comma].intercalate names, b ≠ colon ∧ b ≠ newline ∧ b ≠ 0 := by
  intro b hb
  rcases mem_intercalate hb with rfl | ⟨name,hname,hb⟩
  · decide
  · obtain ⟨hcolon,_,hline,hzero⟩ := h name hname b hb
    exact ⟨hcolon,hline,hzero⟩

theorem names_clean : ∀ name ∈ e.names, ∀ b ∈ name, b ≠ colon ∧ b ≠ comma ∧ b ≠ newline ∧ b ≠ 0 :=
  fun name hname => e.clean name (List.mem_append_left _ hname)

theorem users_clean : ∀ name ∈ e.users, ∀ b ∈ name, b ≠ colon ∧ b ≠ comma ∧ b ≠ newline ∧ b ≠ 0 :=
  fun name hname => e.clean name (List.mem_append_right _ hname)

theorem text_clean : newline ∉ e.text ∧ 0 ∉ e.text ∧ e.text.head? ≠ some 35 := by
  have hnames := joined_clean e.names_clean
  have husers := joined_clean e.users_clean
  have htimes := e.periods.text_clean
  have hmem : ∀ b ∈ e.text, b ≠ newline ∧ b ≠ 0 := by
    intro b hb
    unfold text at hb
    simp only [List.mem_append,List.mem_cons] at hb
    rcases hb with hb | rfl | hb | rfl | hb
    · exact (hnames b hb).2
    · decide
    · exact (husers b hb).2
    · decide
    · exact (htimes b hb).2
  refine ⟨fun h => (hmem _ h).1 rfl,fun h => (hmem _ h).2 rfl,?_⟩
  have hcomment := e.notComment
  unfold text
  cases hjoined : [comma].intercalate e.names with
  | nil => exact fun h => absurd (Option.some.inj h) (by decide)
  | cons b rest =>
    rw [hjoined] at hcomment
    exact hcomment

private theorem splitOn_text : e.text.splitOn colon = [[comma].intercalate e.names,[comma].intercalate e.users,e.timesText] :=
  splitOn_three (fun h => (joined_clean e.names_clean _ h).1 rfl) (fun h => (joined_clean e.users_clean _ h).1 rfl)
    (fun h => (e.periods.text_clean _ h).1 rfl)

private theorem splitOn_names :
    ([comma].intercalate e.names).splitOn comma = e.names ∧ ([comma].intercalate e.users).splitOn comma = e.users :=
  ⟨List.splitOn_intercalate comma (fun name hname hc => (e.names_clean name hname _ hc).2.1 rfl) e.namesCount.1,
    List.splitOn_intercalate comma (fun name hname hc => (e.users_clean name hname _ hc).2.1 rfl) e.usersCount.1⟩

/-- What the reader makes of an entry. -/
def asRead : Port := ⟨e.names,e.users,if e.times = [] then none else some ((e.times.take portTimesMax).map Period.asRead)⟩

theorem portLine_read (mem : Bytes) : (portLine (fill (e.text ++ [newline]) mem)).1 = .entry e.asRead := by
  obtain ⟨hline,hzero,hcomment⟩ := e.text_clean
  obtain ⟨m,hm⟩ := portLine_line hline hzero hcomment mem
  have hroom : ¬ (portTtyMax < e.names.length ∨ portIdsMax < e.users.length) := by
    rw [not_or,Nat.not_lt,Nat.not_lt]
    exact ⟨e.namesCount.2,e.usersCount.2⟩
  rw [hm,portFields_read hzero,e.splitOn_text]
  simp only [e.splitOn_names]
  rw [if_neg hroom]
  by_cases hnil : e.times = []
  · rw [if_pos (e.periods.eq_nil_iff.mpr hnil),asRead,if_pos hnil]
  · rw [if_neg (mt e.periods.eq_nil_iff.mp hnil),portTimes_periods e.periods,asRead,if_neg hnil]

end PortEntry

theorem Day.bits_testBit (d : Day) : ∀ wday : Fin 7, d.bits.testBit wday = d.contains wday := by
  cases d <;> decide +kernel

private theorem foldl_bits_testBit (days : List Day) (bits : Nat) (wday : Fin 7) :
    (days.foldl (fun bits d => bits ||| d.bits) bits).testBit wday = (bits.testBit wday || days.any (Day.contains · wday)) := by
  induction days generalizing bits with
  | nil => simp
  | cons d days ih =>
    rw [List.foldl_cons,ih,Nat.testBit_or,d.bits_testBit,List.any_cons,Bool.or_assoc]

/-- What is read covers the times that it is written to contain. -/
theorem Written.covers_asRead (w : Written) (tm : Tm) : w.asRead.covers tm = w.contains tm := by
  have hdays : w.asRead.days.testBit tm.wday = (w.days.isEmpty || w.days.any (Day.contains · tm.wday)) := by
    unfold Written.asRead
    cases hnil : w.days with
    | nil =>
      have hall : ∀ wday : Fin 7, (0x7f : Nat).testBit wday = true := by decide
      simp [hall tm.wday]
    | cons d days =>
      rw [if_neg (List.cons_ne_nil _ _),foldl_bits_testBit]
      simp
  have hcast : ((tm.hour : Int) * 100 + tm.min) = ((tm.hour * 100 + tm.min : Nat) : Int) := by
    push_cast
    rfl
  unfold PtTime.covers Written.contains
  rw [hdays,hcast,w.asRead_start,w.asRead_stop]

/-- What is read of a period covers the times that the period contains. -/
theorem Period.covers_asRead (p : Period) (tm : Tm) : p.asRead.covers tm = p.contains tm := by
  rw [← p.written_asRead,Written.covers_asRead]
  unfold Written.contains Period.contains Period.written
  rw [wrapped_clock,wrapped_clock,(isDaytime_clock p.start).2,(isDaytime_clock p.stop).2]
  simp only [Nat.cast_le]

/-- What is read of a list gives access at the times that the list does. -/
theorem heldAllows_asRead (names users : List Bytes) (ws : List Written) (tm : Tm) :
    (Port.mk names users (some (ws.map Written.asRead))).allows tm = heldAllows tm ws := by
  have hends : ((fun t : PtTime => t.start != -1) ∘ Written.asRead) = fun w => short (wrapped w.start) != -1 := by
    funext w
    rw [Function.comp_apply,w.asRead_start]
  have hcovers : (PtTime.covers tm ∘ Written.asRead) = (Written.contains · tm) := funext fun w => w.covers_asRead tm
  unfold Port.allows heldAllows
  simp only
  rw [List.takeWhile_map,List.any_map,hends,hcovers]

theorem PortEntry.asRead_allows (e : PortEntry) (tm : Tm) :
    e.asRead.allows tm = (e.times.take portTimesMax).any (Period.contains · tm) := by
  unfold Port.allows PortEntry.asRead
  by_cases hnil : e.times = []
  · simp [hnil]
  · simp only [if_neg hnil]
    have hall : ((e.times.take portTimesMax).map Period.asRead).takeWhile (fun t => t.start != -1) =
        (e.times.take portTimesMax).map Period.asRead := by
      rw [List.takeWhile_eq_self_iff]
      intro t ht
      obtain ⟨p,_,rfl⟩ := List.mem_map.mp ht
      rw [bne_iff_ne]
      unfold Period.asRead
      simp only
      omega
    rw [hall,List.any_map]
    congr 1
    funext p
    exact p.covers_asRead tm

end Entry

section Malformed
variable {body : Bytes}

/-- Three fields with room for their names, and a list of periods: that is an entry. -/
theorem exists_entry {names users times : Bytes} {ps : List Period} (hline : newline ∉ body) (hzero : 0 ∉ body)
    (hcomment : body.head? ≠ some 35) (hsplit : body.splitOn colon = [names,users,times])
    (hnames : (names.splitOn comma).length ≤ portTtyMax) (husers : (users.splitOn comma).length ≤ portIdsMax) (hps : Periods ps times) :
    ∃ e : PortEntry, e.text = body := by
  obtain ⟨hbody,hnamesColon,husersColon,_⟩ := of_splitOn_three hsplit
  have hjoin : ∀ s : Bytes, [comma].intercalate (s.splitOn comma) = s := fun s => List.intercalate_splitOn comma
  have hclean : ∀ s : Bytes, colon ∉ s → s ⊆ body → ∀ name ∈ s.splitOn comma, ∀ b ∈ name, b ≠ colon ∧ b ≠ comma ∧ b ≠ newline ∧ b ≠ 0 := by
    intro s hcolon hsub name hname b hb
    have hmem := mem_of_mem_splitOn hname hb
    exact ⟨ne_of_mem_of_not_mem hmem hcolon,ne_of_mem_of_not_mem hb (notMem_of_mem_splitOn hname),
      ne_of_mem_of_not_mem (hsub hmem) hline,ne_of_mem_of_not_mem (hsub hmem) hzero⟩
  refine ⟨⟨names.splitOn comma,users.splitOn comma,ps,times,⟨List.splitOn_ne_nil _ _,hnames⟩,⟨List.splitOn_ne_nil _ _,husers⟩,?_,
    hps,?_⟩,?_⟩
  · intro name hname
    rcases List.mem_append.mp hname with hname | hname
    · exact hclean names hnamesColon (fun b hb => by rw [hbody]; simp [hb]) name hname
    · exact hclean users husersColon (fun b hb => by rw [hbody]; simp [hb]) name hname
  · rw [hjoin]
    rw [hbody] at hcomment
    cases names with
    | nil => nofun
    | cons b names => exact hcomment
  · unfold PortEntry.text
    simp only [hjoin]
    exact hbody.symm

/-- A plain line that is no entry ends the search, or is left out. -/
theorem portLine_malformed (hline : newline ∉ body) (hplain : Plain body) (h : ∀ e : PortEntry, e.text ≠ body) (mem : Bytes) :
    (StopsSearch body → (portLine (fill (body ++ [newline]) mem)).1 = .error) ∧
      (¬ StopsSearch body → (portLine (fill (body ++ [newline]) mem)).1 = .next) := by
  by_cases hcomment : body.head? = some 35
  · exact ⟨fun hstops => absurd hcomment hstops.1,fun _ => portLine_comment hcomment mem⟩
  · obtain ⟨m,hm⟩ := portLine_line hline hplain.noZero hcomment mem
    rw [hm,portFields_read hplain.noZero]
    constructor
    · rintro ⟨_,names,users,ps,more,hsplit,hnames,husers,hps,hmore⟩
      rw [hsplit]
      have hne : beforeMore ps ++ more ≠ [] := by
        obtain ⟨days,a,b,rest,rfl,_⟩ := hmore
        simp
      simp only
      rw [if_neg (by omega),if_neg hne,portTimes_unknownDay hps hmore]
    · intro hnot
      split
      · rename_i names users times hsplit
        split
        · rfl
        · rename_i hroom
          rw [not_or,Nat.not_lt,Nat.not_lt] at hroom
          have hentry : ∀ ps, ¬ Periods ps times := by
            intro ps hps
            obtain ⟨e,he⟩ := exists_entry hline hplain.noZero hcomment hsplit hroom.1 hroom.2 hps
            exact h e he
          have hne : times ≠ [] := by
            rintro rfl
            exact hentry [] .nil
          rw [if_neg hne]
          obtain ⟨hbody,_⟩ := of_splitOn_three hsplit
          have hzero : 0 ∉ times := fun hz => hplain.noZero (by rw [hbody]; simp [hz])
          have hlong : ¬ HasLongNumber times := by
            intro hlong
            have hwhole := (hlong.append (users ++ [colon])).append (names ++ [colon])
            refine hplain.noLongNumber ?_
            rw [hbody]
            simpa using hwhole
          rcases portTimes_string hzero hlong portTimesMax m with ⟨_,ps,more,rfl,hps,hday⟩ | hnone | ⟨ps,hps⟩ | ⟨ps,more,rfl,hps,hmore⟩
          · exact absurd ⟨hcomment,names,users,ps,more,hsplit,hroom.1,hroom.2,hps,hday⟩ hnot
          · rw [hnone]
          · exact absurd hps (hentry ps)
          · exact absurd ⟨names,users,ps,more,hsplit,hps,hmore⟩ hplain.notOverfull
      · rfl

end Malformed

section Buffers
variable {tty user : Bytes} {tm : Tm} {m mem : Bytes}

/-- What the reader says of a memory, if it says something. -/
def PortRead.verdict (tty user : Bytes) (tm : Tm) : PortRead → Option Bool
  | .next => none
  | .error => some true
  | .entry port => if portFits tty user port then some (port.allows tm) else none

@[simp]
theorem verdict_next : PortRead.next.verdict tty user tm = none := rfl

@[simp]
theorem verdict_error : PortRead.error.verdict tty user tm = some true := rfl

@[simp]
theorem verdict_entry (port : Port) :
    (PortRead.entry port).verdict tty user tm = if portFits tty user port then some (port.allows tm) else none := rfl

/-- A memory with the end of a string in it begins with a line. -/
theorem exists_line (hm : 0 ∈ m) :
    ∃ line sep behind, m = line ++ sep :: behind ∧ (sep = newline ∨ sep = 0) ∧ newline ∉ line ∧ 0 ∉ line := by
  obtain ⟨s,rest,rfl,hs⟩ := List.eq_append_cons_of_mem hm
  by_cases hline : newline ∈ s
  · obtain ⟨line,behind,rfl,hnot⟩ := List.eq_append_cons_of_mem hline
    exact ⟨line,newline,behind ++ 0 :: rest,by simp,.inl rfl,hnot,fun h => hs (List.mem_append_left _ h)⟩
  · exact ⟨s,0,rest,rfl,.inr rfl,hline,hs⟩

/-- What the reader leaves in the memory is what the text says. -/
theorem portLine_left (hm : 0 ∈ m) : (portLine m).2 = leftBehind m := by
  obtain ⟨line,sep,behind,rfl,hsep,hline,hzero⟩ := exists_line hm
  unfold leftBehind
  by_cases hcomment : (line ++ sep :: behind).head? = some 35
  · rw [portLine,if_pos hcomment,if_pos hcomment]
  · have hhead : line.head? ≠ some 35 := by
      intro h
      obtain ⟨rest,rfl⟩ := List.head?_eq_some_iff.mp h
      exact hcomment rfl
    have htake : (line ++ sep :: behind).takeWhile (fun b => b != newline && b != 0) = line := by
      rw [List.takeWhile_append_of_pos fun b hb => by simpa using ⟨ne_of_mem_of_not_mem hb hline,ne_of_mem_of_not_mem hb hzero⟩]
      rcases hsep with rfl | rfl <;> simp
    have hdrop : (line ++ sep :: behind).drop (line.length + 1) = behind := by simp
    rw [if_neg hcomment,portLine_eq hsep hline hzero hhead,portFields_left hzero]
    simp only [htake,hdrop]

theorem InBuffer.read {names users times behind : Bytes} (h : InBuffer m names users times behind) : (portLine m).1 =
    if times = [] then .entry ⟨names.splitOn comma,users.splitOn comma,none⟩
    else
      match portTimes portTimesMax (times ++ 0 :: behind) with
      | none => .error
      | some none => .next
      | some (some l) => .entry ⟨names.splitOn comma,users.splitOn comma,some l⟩ := by
  obtain ⟨line,sep,rfl,hsep,hline,hzero,hcomment,hsplit⟩ := h.line
  have hroom : ¬ (portTtyMax < (names.splitOn comma).length ∨ portIdsMax < (users.splitOn comma).length) :=
    not_or.mpr ⟨Nat.not_lt.mpr h.namesRoom,Nat.not_lt.mpr h.usersRoom⟩
  rw [portLine_eq hsep hline hzero hcomment,portFields_read hzero,hsplit]
  exact if_neg hroom

private theorem portLine_next_or (hm : 0 ∈ m) :
    (portLine m).1 = .next ∨ ∃ names users times behind, InBuffer m names users times behind := by
  obtain ⟨line,sep,behind,rfl,hsep,hline,hzero⟩ := exists_line hm
  by_cases hcomment : line.head? = some 35
  · left
    obtain ⟨rest,rfl⟩ := List.head?_eq_some_iff.mp hcomment
    rfl
  · rw [portLine_eq hsep hline hzero hcomment,portFields_read hzero]
    split
    · rename_i names users times hsplit
      split
      · exact .inl rfl
      · rename_i hroom
        rw [not_or,Nat.not_lt,Nat.not_lt] at hroom
        exact .inr ⟨names,users,times,behind,⟨line,sep,rfl,hsep,hline,hzero,hcomment,hsplit⟩,hroom.1,hroom.2⟩
    · exact .inl rfl

/-- What the reader says of a memory is what stands there. -/
theorem says_iff (hm : 0 ∈ m) (answer : Bool) : Says tty user tm m answer ↔ (portLine m).1.verdict tty user tm = some answer := by
  constructor
  · rintro (⟨⟨names,users,times,behind,hin,hne,hheld⟩,rfl⟩ |
      ⟨names,users,times,behind,hin,hfits,⟨rfl,rfl⟩ | ⟨hne,ws,hheld,rfl⟩⟩)
    · rw [hin.read,if_neg hne,hheld.read]
      rfl
    · rw [hin.read,if_pos rfl]
      exact if_pos hfits
    · rw [hin.read,if_neg hne,hheld.read]
      exact (if_pos hfits).trans (congrArg some (heldAllows_asRead _ _ ws tm))
  · intro h
    rcases portLine_next_or hm with hnext | ⟨names,users,times,behind,hin⟩
    · rw [hnext] at h
      cases h
    · rw [hin.read] at h
      by_cases hnil : times = []
      · rw [if_pos hnil] at h
        obtain ⟨hfits,hanswer⟩ := Option.ite_none_right_eq_some.mp h
        exact .inr ⟨names,users,times,behind,hin,hfits,.inl ⟨hnil,(Option.some.inj hanswer).symm⟩⟩
      · rw [if_neg hnil] at h
        rcases held_or_bad portTimesMax (times ++ 0 :: behind) with hbad | ⟨_ | ws,hheld⟩
        · rw [hbad] at h
          cases h
        · rw [hheld.read] at h
          exact .inl ⟨⟨names,users,times,behind,hin,hnil,hheld⟩,(Option.some.inj h).symm⟩
        · rw [hheld.read] at h
          obtain ⟨hfits,hanswer⟩ := Option.ite_none_right_eq_some.mp h
          have hallows := heldAllows_asRead (names.splitOn comma) (users.splitOn comma) ws tm
          exact .inr ⟨names,users,times,behind,hin,hfits,.inr ⟨hnil,ws,hheld,(Option.some.inj hanswer).symm.trans hallows⟩⟩

/-- The first memory that says something says what the search finds. -/
theorem firstSays_iff {ms : List Bytes} (hms : ∀ m ∈ ms, 0 ∈ m) (answer : Bool) :
    FirstSays tty user tm ms answer ↔ ms.findSome? (fun m => (portLine m).1.verdict tty user tm) = some answer := by
  induction ms with
  | nil => exact iff_of_false id fun h => by cases h
  | cons m ms ih =>
    obtain ⟨hm,hms⟩ := List.forall_mem_cons.mp hms
    rw [FirstSays,ih hms,List.findSome?_cons]
    simp only [says_iff hm]
    cases (portLine m).1.verdict tty user tm with
    | none => simp
    | some said => simp

private theorem silent_iff {ms : List Bytes} (hms : ∀ m ∈ ms, 0 ∈ m) :
    (∀ answer, ¬ FirstSays tty user tm ms answer) ↔ ms.findSome? (fun m => (portLine m).1.verdict tty user tm) = none := by
  simp only [firstSays_iff hms]
  exact Option.eq_none_iff_forall_ne_some.symm

private theorem mem_buffers {pieces : List Bytes} (hm : m ∈ buffers pieces mem) : 0 ∈ m := by
  induction pieces generalizing mem with
  | nil => cases hm
  | cons piece pieces ih =>
    rcases List.mem_cons.mp hm with rfl | hm
    · simp [fill]
    · exact ih hm

private theorem buffers_append (front back : List Bytes) (mem : Bytes) :
    buffers (front ++ back) mem = buffers front mem ++ buffers back (bufferAfter front mem) := by
  induction front generalizing mem with
  | nil => rfl
  | cons piece front ih => exact congrArg (List.cons _) (ih _)

/-- The search and the answer, in one. -/
theorem isttytime_eq (content : Bytes) : isttytime tty user tm mem (.opened content) =
    ((buffers (Fgets.pieces newline bufsiz content) mem).findSome? fun m => (portLine m).1.verdict tty user tm).getD true := by
  unfold isttytime
  simp only
  generalize Fgets.pieces newline bufsiz content = pieces
  induction pieces generalizing mem with
  | nil => rfl
  | cons piece pieces ih =>
    rw [getttyuser,buffers,List.findSome?_cons,← portLine_left (by simp [fill])]
    rcases portLine (fill piece mem) with ⟨_ | _ | port,mem'⟩
    · exact ih
    · rfl
    · simp only [PortRead.verdict]
      cases portFits tty user port with
      | true => rfl
      | false => exact ih

end Buffers

section Run
variable {tty user : Bytes} {tm : Tm} {mem : Bytes} {due : Option Bool}

private theorem linesAllow_cons (line : PortLine) (lines : List PortLine) (tail : Option AnyLine) :
    linesAllow tty user tm (line :: lines) tail = (entrySays tty user tm line.meaning).getD (linesAllow tty user tm lines tail) := by
  unfold linesAllow PortFile.allows PortFile.entries entrySays
  cases hmeaning : line.meaning with
  | none =>
    rw [List.filterMap_cons_none hmeaning]
    rfl
  | some e =>
    rw [List.filterMap_cons_some hmeaning,List.cons_append,List.find?_cons,Option.filter_some]
    cases e.matchesUser tty user with
    | true => rfl
    | false => rfl

/-- What is found is due where what is found, or what is due behind it, is. -/
theorem asWritten_iff (lines : List PortLine) (tail : Option AnyLine) :
    ((buffers (Fgets.pieces newline bufsiz (portText lines tail)) mem).findSome? fun m => (portLine m).1.verdict tty user tm).getD true =
        due.getD (linesAllow tty user tm lines tail) ↔
      AsWritten tty user tm due mem lines tail := by
  induction lines generalizing mem due with
  | nil =>
    cases tail with
    | none =>
      rw [AsWritten]
      exact eq_comm
    | some tail =>
      have htext : portText [] (some tail) = tail.body := rfl
      rw [htext,AsWritten,silent_iff fun m => mem_buffers]
      simp only [firstSays_iff fun m => mem_buffers]
      cases (buffers (Fgets.pieces newline bufsiz tail.body) mem).findSome? fun m => (portLine m).1.verdict tty user tm with
      | none => exact ⟨fun h => ⟨fun _ hanswer => (Option.some_ne_none _ hanswer.symm).elim,fun _ => h.symm⟩,fun h => (h.2 rfl).symm⟩
      | some answer => simp
  | cons line lines ih =>
    have htext : portText (line :: lines) tail = line.body ++ newline :: portText lines tail := by simp [portText]
    rw [htext,linesAllow_cons]
    cases line with
    | entry e h =>
      rw [AsWritten,PortLine.body,Fgets.pieces_line (by decide) e.text_clean.1 h,buffers,List.findSome?_cons,e.portLine_read]
      have hfits : portFits tty user e.asRead = e.matchesUser tty user := rfl
      simp only [verdict_entry,hfits,e.asRead_allows,PortLine.meaning,entrySays,Option.filter_some]
      cases e.matchesUser tty user with
      | true => simp
      | false => simpa using ih
    | malformed body hline hplain h =>
      obtain ⟨hstops,hnot⟩ := portLine_malformed hline hplain h mem
      rw [AsWritten,PortLine.body,Fgets.pieces_line (by decide) hline hplain.fits,buffers,List.findSome?_cons]
      by_cases hstop : StopsSearch body
      · rw [hstops hstop]
        simp [hstop,PortLine.meaning,entrySays]
      · rw [hnot hstop]
        simpa [hstop,PortLine.meaning,entrySays] using ih
    | other l hplain hlong =>
      rw [AsWritten,PortLine.body,Fgets.pieces_append (by decide) l.line (portText lines tail),buffers_append,List.findSome?_append,
        silent_iff fun m => mem_buffers,← ih]
      simp only [firstSays_iff fun m => mem_buffers,PortLine.meaning]
      cases (buffers (Fgets.pieces newline bufsiz (l.body ++ [newline])) mem).findSome? fun m => (portLine m).1.verdict tty user tm with
      | none => simp
      | some answer => simp

end Run

/-- Every content is that of a file of such lines. -/
theorem exists_portFile (content : Bytes) : ∃ file : PortFile, file.text = content := by
  classical
  have hmeaning : ∀ body : Bytes, newline ∉ body → ∃ l : AnyLine, l.body = body ∧ (l.meaning.isSome → ∃ e : PortEntry, e.text = body) := by
    intro body hline
    by_cases h : ∃ e : PortEntry, e.text = body
    · obtain ⟨e,he⟩ := h
      exact ⟨⟨body,hline,some e,he⟩,rfl,fun _ => ⟨e,he⟩⟩
    · exact ⟨⟨body,hline,none,not_exists.mp h⟩,rfl,nofun⟩
  have hclass : ∀ body : Bytes, newline ∉ body → ∃ line : PortLine, line.body = body := by
    intro body hline
    obtain ⟨l,hl,hsome⟩ := hmeaning body hline
    by_cases h : ∃ e : PortEntry, e.text = body
    · obtain ⟨e,he⟩ := h
      by_cases hfits : body.length + 1 < bufsiz
      · exact ⟨.entry e (he ▸ hfits),he⟩
      · exact ⟨.other l (hl ▸ fun hplain => hfits hplain.fits) (hl ▸ fun _ => Nat.not_lt.mp hfits),hl⟩
    · by_cases hplain : Plain body
      · exact ⟨.malformed body hline hplain (not_exists.mp h),rfl⟩
      · exact ⟨.other l (hl ▸ hplain) (fun hmeaning => absurd (hsome hmeaning) h),hl⟩
  induction hn : content.length using Nat.strong_induction_on generalizing content with
  | _ n ih =>
    rcases Fgets.stream_cases newline content with rfl | ⟨hline,_⟩ | ⟨body,rest,hline,rfl⟩
    · exact ⟨⟨[],none⟩,rfl⟩
    · obtain ⟨l,hl,_⟩ := hmeaning content hline
      exact ⟨⟨[],some l⟩,hl⟩
    · have hlength : rest.length < n := by
        rw [← hn,List.length_append,List.length_cons]
        omega
      obtain ⟨file,hfile⟩ := ih rest.length hlength rest rfl
      obtain ⟨line,hbody⟩ := hclass body hline
      refine ⟨⟨line :: file.lines,file.tail⟩,?_⟩
      rw [← hfile]
      simp [PortFile.text,portText,hbody]

private theorem asWritten_of_clean {tty user : Bytes} {tm : Tm} {mem : Bytes} {lines : List PortLine} (h : ∀ line ∈ lines, line.Clean) :
    AsWritten tty user tm none mem lines none := by
  induction lines generalizing mem with
  | nil => rfl
  | cons line lines ih =>
    obtain ⟨hline,hlines⟩ := List.forall_mem_cons.mp h
    cases line with
    | entry e hfits =>
      rw [AsWritten,List.take_of_length_le hline]
      split
      · rfl
      · exact ih hlines
    | malformed body hbody hplain hnot => exact ⟨fun hstops => absurd hstops hline,fun _ => ih hlines⟩
    | other l hplain hlong => exact hline.elim

/-- A user is let in as the lines of the file say exactly where what stands in the buffer does not disturb them, and a
clean file is not disturbed, whatever stood there before. -/
theorem isttytime_iff (tty user : Bytes) (tm : Tm) (mem : Bytes) (file : PortFile) :
    (isttytime tty user tm mem (.opened file.text) = file.allows tty user tm ↔
      AsWritten tty user tm none mem file.lines file.tail) ∧
    (file.Clean → AsWritten tty user tm none mem file.lines file.tail) := by
  constructor
  · rw [isttytime_eq]
    exact @asWritten_iff tty user tm mem none file.lines file.tail
  · rintro ⟨hlines,htail⟩
    rw [htail]
    exact asWritten_of_clean hlines

/-- Nobody may log in, says the line for everybody. -/
def closedEntry : PortEntry where
  names := [ascii "*"]
  users := [ascii "*"]
  times := []
  timesText := []
  namesCount := ⟨List.cons_ne_nil _ _,by decide⟩
  usersCount := ⟨List.cons_ne_nil _ _,by decide⟩
  clean := by decide +kernel
  periods := .nil
  notComment := by decide +kernel

private theorem decimalValue_lt {digits : Bytes} (h : ∀ b ∈ digits, isDigit b = true) : decimalValue digits < 10^digits.length := by
  induction digits using List.reverseRecOn with
  | nil => decide
  | append_singleton digits b ih =>
    have ih := ih fun x hx => h x (List.mem_append_left _ hx)
    have hb := isDigit_iff.mp (h b (by simp))
    have hvalue : digitValue b < 10 := by
      unfold digitValue
      omega
    rw [decimalValue_concat,List.length_append,List.length_singleton,Nat.pow_succ]
    omega

/-- A line that is short, and has few digits, is plain. -/
theorem plain_of_short {body : Bytes} (hlength : body.length < portTimesMax) (hdigits : body.countP isDigit < 10) (hzero : 0 ∉ body) :
    Plain body where
  fits := Nat.lt_of_lt_of_le (Nat.succ_lt_succ hlength) (by decide)
  noZero := hzero
  noLongNumber := by
    rintro ⟨front,digits,back,rfl,hall,hvalue⟩
    have hcount : digits.countP isDigit = digits.length := List.countP_eq_length.mpr hall
    rw [List.countP_append,List.countP_append,hcount] at hdigits
    have hlt := decimalValue_lt hall
    have hpow : 10^digits.length ≤ 10^9 := Nat.pow_le_pow_right (by decide) (by omega)
    omega
  notOverfull := by
    rintro ⟨names,users,ps,more,hsplit,hps,_⟩
    obtain ⟨hbody,_⟩ := of_splitOn_three hsplit
    have hbefore : ps.length ≤ (beforeMore ps).length := by
      unfold beforeMore
      rw [List.length_flatMap]
      calc ps.length = (ps.map fun _ => 1).sum := by simp
        _ ≤ (ps.map fun p => (p.text ++ [comma]).length).sum := by
          apply List.sum_le_sum
          intro p _
          simp
    have hwhole := congrArg List.length hbody
    simp only [List.length_append,List.length_cons] at hwhole
    omega

/-- Bob may work on Mondays. -/
def workEntry : PortEntry where
  names := [ascii "tty1"]
  users := [ascii "bob"]
  times := [⟨[.mo],⟨ascii "0900",by decide +kernel,by decide +kernel,by decide +kernel⟩,
    ⟨ascii "1700",by decide +kernel,by decide +kernel,by decide +kernel⟩⟩]
  timesText := ascii "Mo0900-1700"
  namesCount := ⟨List.cons_ne_nil _ _,by decide⟩
  usersCount := ⟨List.cons_ne_nil _ _,by decide⟩
  clean := by decide +kernel
  periods := .last _
  notComment := by decide +kernel

/-- A comment is not well-formed, and stops nothing. -/
def commentBody : Bytes := ascii "# hours"

def workFile : PortFile where
  lines := [.malformed commentBody (by decide +kernel) (plain_of_short (by decide +kernel) (by decide +kernel) (by decide +kernel))
      fun e he => e.text_clean.2.2 (by rw [he]; rfl),
    .entry workEntry (by decide +kernel),.entry closedEntry (by decide +kernel)]
  tail := none

theorem isttytime_iff_work : isttytime (ascii "tty1") (ascii "bob") ⟨1,9,30⟩ (ascii "x:y:Al") (.opened workFile.text) = true ∧
    isttytime (ascii "tty1") (ascii "eve") ⟨1,9,30⟩ (ascii "x:y:Al") (.opened workFile.text) = false := by
  have hclean : workFile.Clean := by
    refine ⟨fun line hline => ?_,rfl⟩
    simp only [workFile,List.mem_cons,List.not_mem_nil,or_false] at hline
    rcases hline with rfl | rfl | rfl
    · exact fun hstops => hstops.1 rfl
    · exact (by decide : 1 ≤ portTimesMax)
    · exact Nat.zero_le _
  obtain ⟨hbob,hclean'⟩ := isttytime_iff (ascii "tty1") (ascii "bob") ⟨1,9,30⟩ (ascii "x:y:Al") workFile
  obtain ⟨heve,hclean''⟩ := isttytime_iff (ascii "tty1") (ascii "eve") ⟨1,9,30⟩ (ascii "x:y:Al") workFile
  rw [hbob.mpr (hclean' hclean),heve.mpr (hclean'' hclean)]
  decide +kernel

/-- Line one has an abbreviation that stands for no day. -/
def unknownDayBody : Bytes := ascii "tty1:bob:Xx0900-1700"

private theorem unknownDay_no_entry : ∀ e : PortEntry, e.text ≠ unknownDayBody := by
  intro e he
  have hread := e.portLine_read []
  have herror : (portLine (fill (unknownDayBody ++ [newline]) [])).1 = .error := by decide +kernel
  rw [he,herror] at hread
  cases hread

def unknownDayFile : PortFile where
  lines := [.malformed unknownDayBody (by decide +kernel) (plain_of_short (by decide +kernel) (by decide +kernel) (by decide +kernel))
      unknownDay_no_entry,
    .entry closedEntry (by decide +kernel)]
  tail := none

/-- Behind a line with an unknown abbreviation everybody is let in, though nobody should be. -/
theorem unknown_day_lets_everybody_in :
    isttytime (ascii "tty2") (ascii "alice") ⟨1,3,0⟩ [] (.opened unknownDayFile.text) ≠
      unknownDayFile.allows (ascii "tty2") (ascii "alice") ⟨1,3,0⟩ := by
  have hlets : isttytime (ascii "tty2") (ascii "alice") ⟨1,3,0⟩ [] (.opened unknownDayFile.text) = true := by decide +kernel
  have hdenies : unknownDayFile.allows (ascii "tty2") (ascii "alice") ⟨1,3,0⟩ = false := by decide +kernel
  rw [hlets,hdenies]
  exact Bool.false_ne_true.symm

end UserDb.Login
