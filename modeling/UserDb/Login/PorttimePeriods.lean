import UserDb.Login.Porttime

/-! The list of the periods of an entry: its format, and how it is read. -/
namespace UserDb.Login
open UserDb.Base

/-- The abbreviations for days. -/
inductive Day where
  | su | mo | tu | we | th | fr | sa | wk | al
  deriving DecidableEq

def Day.text : Day → Bytes
  | .su => ascii "Su"
  | .mo => ascii "Mo"
  | .tu => ascii "Tu"
  | .we => ascii "We"
  | .th => ascii "Th"
  | .fr => ascii "Fr"
  | .sa => ascii "Sa"
  | .wk => ascii "Wk"
  | .al => ascii "Al"

/-- The days of the week that an abbreviation stands for, from Sunday on. -/
def Day.contains (d : Day) (wday : Fin 7) : Bool :=
  match d with
  | .su => wday == 0
  | .mo => wday == 1
  | .tu => wday == 2
  | .we => wday == 3
  | .th => wday == 4
  | .fr => wday == 5
  | .sa => wday == 6
  | .wk => 1 ≤ wday && wday ≤ 5
  | .al => true

def Day.bits : Day → Nat
  | .su => 0x01
  | .mo => 0x02
  | .tu => 0x04
  | .we => 0x08
  | .th => 0x10
  | .fr => 0x20
  | .sa => 0x40
  | .wk => 0x3e
  | .al => 0x7f

/-- A time of day as hours and minutes. -/
structure Clock where
  digits : Bytes
  areDigits : ∀ b ∈ digits, isDigit b = true
  hours : decimalValue digits ≤ 2400
  minutes : decimalValue digits % 100 ≤ 59

def Clock.value (c : Clock) : Nat := decimalValue c.digits

/-- Days, and a pair of times. Without days it is every day. -/
structure Period where
  days : List Day
  start : Clock
  stop : Clock

namespace Period

def text (p : Period) : Bytes := p.days.flatMap Day.text ++ (p.start.digits ++ 45 :: p.stop.digits)

/-- From the start to the stop, over midnight if the start is later. -/
def contains (p : Period) (tm : Tm) : Bool :=
  (p.days.isEmpty || p.days.any (Day.contains · tm.wday)) &&
    if p.start.value ≤ p.stop.value then
      decide (p.start.value ≤ tm.hour * 100 + tm.min) && decide (tm.hour * 100 + tm.min ≤ p.stop.value)
    else decide (p.start.value ≤ tm.hour * 100 + tm.min) || decide (tm.hour * 100 + tm.min ≤ p.stop.value)

/-- What the reader makes of it. -/
def asRead (p : Period) : PtTime :=
  ⟨if p.days = [] then 0x7f else p.days.foldl (fun bits d => bits ||| d.bits) 0,p.start.value,p.stop.value⟩

end Period

/-- Periods with a comma between them; one behind the last is allowed. -/
inductive Periods : List Period → Bytes → Prop where
  | nil : Periods [] []
  | last (p : Period) : Periods [p] p.text
  | more (p : Period) {ps : List Period} {text : Bytes} (h : Periods ps text) : Periods (p :: ps) (p.text ++ comma :: text)

/-- Periods that are each followed by a comma. -/
def beforeMore (ps : List Period) : Bytes := ps.flatMap fun p => p.text ++ [comma]

/-- A run of digits that an `int` does not hold. -/
def HasLongNumber (text : Bytes) : Prop :=
  ∃ front digits back, text = front ++ digits ++ back ∧ (∀ b ∈ digits, isDigit b = true) ∧ 2^31 ≤ decimalValue digits

/-- Where an abbreviation is expected stands something else that begins with a letter. -/
def UnknownDay (text : Bytes) : Prop :=
  ∃ days a b rest, text = List.flatMap Day.text days ++ a :: b :: rest ∧ isAlphaByte a = true ∧ b ≠ 0 ∧ dayBits a b = none

/-- Days and two runs of digits, whatever numbers these are. -/
structure Written where
  days : List Day
  start : Bytes
  stop : Bytes
  areDigits : ∀ b ∈ start ++ stop, isDigit b = true

/-- The number that an `int` makes of digits. -/
def wrapped (digits : Bytes) : Int := (decimalValue digits : Int).bmod (2^32)

namespace Written

def text (w : Written) : Bytes := w.days.flatMap Day.text ++ (w.start ++ 45 :: w.stop)

def Accepted (w : Written) : Prop := isDaytime (wrapped w.start) = true ∧ isDaytime (wrapped w.stop) = true

instance (w : Written) : Decidable w.Accepted := inferInstanceAs (Decidable (_ ∧ _))

/-- As for a period, with the numbers that a `short` makes of the digits. -/
def contains (w : Written) (tm : Tm) : Bool :=
  (w.days.isEmpty || w.days.any (Day.contains · tm.wday)) &&
    if short (wrapped w.start) ≤ short (wrapped w.stop) then
      decide (short (wrapped w.start) ≤ (tm.hour * 100 + tm.min : Nat)) && decide ((tm.hour * 100 + tm.min : Nat) ≤ short (wrapped w.stop))
    else
      decide (short (wrapped w.start) ≤ (tm.hour * 100 + tm.min : Nat)) || decide ((tm.hour * 100 + tm.min : Nat) ≤ short (wrapped w.stop))

/-- What the reader makes of it. -/
def asRead (w : Written) : PtTime :=
  ⟨if w.days = [] then 0x7f else w.days.foldl (fun bits d => bits ||| d.bits) 0,short (wrapped w.start),short (wrapped w.stop)⟩

theorem asRead_start (w : Written) : w.asRead.start = short (wrapped w.start) := by rw [asRead]

theorem asRead_stop (w : Written) : w.asRead.stop = short (wrapped w.stop) := by rw [asRead]

end Written

/-- What a memory holds in the place of periods, of which there is room for so many: each has a comma or the end of
a string behind it, and what comes then is taken for the next one. They end where a string is empty, or, with no
result, at an unknown abbreviation. -/
inductive Held : Nat → Bytes → Option (List Written) → Prop where
  | full (m : Bytes) : Held 0 m (some [])
  | ended (n : Nat) {m : Bytes} (h : m.headD 0 = 0) : Held n m (some [])
  | unknown (n : Nat) {m : Bytes} (h : UnknownDay m) : Held (n + 1) m none
  | last (n : Nat) {w : Written} (hw : w.Accepted) : Held (n + 1) w.text (some [w])
  | more {n : Nat} {w : Written} {sep : UInt8} {m : Bytes} {ws : Option (List Written)} (hw : w.Accepted) (hsep : sep = comma ∨ sep = 0)
      (h : Held n m ws) : Held (n + 1) (w.text ++ sep :: m) (ws.map (w :: ·))

section Days
variable {a b : UInt8} {bits : Nat} {cp : Bytes}

theorem dayBits_eq_some : dayBits a b = some bits ↔ ∃ d : Day, d.text = [a,b] ∧ d.bits = bits := by
  constructor
  · intro h
    unfold dayBits at h
    split_ifs at h with hsu hmo htu hwe hth hfr hsa hwk hal
    · exact ⟨.su,hsu.symm,Option.some.inj h⟩
    · exact ⟨.mo,hmo.symm,Option.some.inj h⟩
    · exact ⟨.tu,htu.symm,Option.some.inj h⟩
    · exact ⟨.we,hwe.symm,Option.some.inj h⟩
    · exact ⟨.th,hth.symm,Option.some.inj h⟩
    · exact ⟨.fr,hfr.symm,Option.some.inj h⟩
    · exact ⟨.sa,hsa.symm,Option.some.inj h⟩
    · exact ⟨.wk,hwk.symm,Option.some.inj h⟩
    · exact ⟨.al,hal.symm,Option.some.inj h⟩
  · rintro ⟨d,htext,rfl⟩
    unfold dayBits
    rw [← htext]
    cases d <;> decide +kernel

/-- An abbreviation is a letter and something else. -/
theorem Day.text_eq (d : Day) : ∃ a b, d.text = [a,b] ∧ isAlphaByte a = true ∧ b ≠ 0 ∧ dayBits a b = some d.bits := by
  have hlength : d.text.length = 2 := by cases d <;> rfl
  obtain ⟨a,b,hab⟩ := List.length_eq_two.mp hlength
  refine ⟨a,b,hab,?_,?_,dayBits_eq_some.mpr ⟨d,hab,rfl⟩⟩
  · have ha : ∀ x, d.text.head? = some x → isAlphaByte x = true := by cases d <;> decide +kernel
    exact ha a (by rw [hab]; rfl)
  · have hb : ∀ x, d.text.getLast? = some x → x ≠ 0 := by cases d <;> decide +kernel
    exact hb b (by rw [hab]; rfl)

private theorem portDays_text (days : List Day) {rest : Bytes}
    (hrest : ∀ a b more, rest = a :: b :: more → (isAlphaByte a && b != 0) = false) :
    portDays bits (days.flatMap Day.text ++ rest) = some (days.foldl (fun bits d => bits ||| d.bits) bits,rest) := by
  induction days generalizing bits with
  | nil =>
    match rest, hrest with
    | [], _ => rfl
    | [_], _ => rfl
    | a :: b :: more, hrest =>
      rw [List.flatMap_nil,List.nil_append,portDays,if_neg (by rw [hrest a b more rfl]; exact Bool.false_ne_true)]
      rfl
  | cons d days ih =>
    obtain ⟨a,b,hab,ha,hb,hbits⟩ := d.text_eq
    rw [List.flatMap_cons,hab]
    simp only [List.cons_append,List.nil_append]
    rw [portDays,if_pos (by simp [ha,hb]),hbits]
    exact ih

/-- The reader stands behind the abbreviations, or in front of an unknown one. -/
theorem portDays_cases (bits : Nat) (cp : Bytes) :
    (portDays bits cp = none ∧ UnknownDay cp) ∨
      ∃ (days : List Day) (rest : Bytes), cp = days.flatMap Day.text ++ rest ∧
        portDays bits cp = some (days.foldl (fun bits d => bits ||| d.bits) bits,rest) ∧
        ∀ a b more, rest = a :: b :: more → (isAlphaByte a && b != 0) = false := by
  induction hn : cp.length using Nat.strong_induction_on generalizing cp bits with
  | _ n ih =>
    match cp, hn with
    | [], _ => exact .inr ⟨[],[],rfl,rfl,nofun⟩
    | [a], _ => exact .inr ⟨[],[a],rfl,rfl,nofun⟩
    | a :: b :: rest, hn =>
      cases hpair : isAlphaByte a && b != 0 with
      | false =>
        refine .inr ⟨[],a :: b :: rest,rfl,?_,?_⟩
        · rw [portDays,if_neg (by rw [hpair]; exact Bool.false_ne_true)]
          rfl
        · intro a' b' more heq
          cases heq
          exact hpair
      | true =>
        have hpair' := hpair
        rw [Bool.and_eq_true,bne_iff_ne] at hpair'
        cases hbits : dayBits a b with
        | none =>
          refine .inl ⟨?_,[],a,b,rest,rfl,hpair'.1,hpair'.2,hbits⟩
          rw [portDays,if_pos hpair,hbits]
        | some more =>
          obtain ⟨d,htext,rfl⟩ := dayBits_eq_some.mp hbits
          have hstep : portDays bits (a :: b :: rest) = portDays (bits ||| d.bits) rest := by
            rw [portDays,if_pos hpair,hbits]
          rw [hstep]
          rcases ih rest.length (by rw [← hn]; simp) (bits ||| d.bits) rest rfl with ⟨hnone,days,a',b',rest',heq,hrest⟩ |
            ⟨days,rest',heq,hread,hstop⟩
          · refine .inl ⟨hnone,d :: days,a',b',rest',?_,hrest⟩
            rw [List.flatMap_cons,htext,heq]
            rfl
          · refine .inr ⟨d :: days,rest',?_,hread,hstop⟩
            rw [List.flatMap_cons,htext,heq]
            rfl

private theorem flatMap_text_eq_nil {days : List Day} : days.flatMap Day.text = [] ↔ days = [] := by
  cases days with
  | nil => simp
  | cons d days =>
    obtain ⟨a,b,hab,_⟩ := d.text_eq
    rw [List.flatMap_cons,hab]
    simp

end Days

section Numbers
variable {digits rest : Bytes}

/-- The loop over the digits keeps the number as an `int` does. -/
theorem foldl_bmod (digits : Bytes) :
    digits.foldl (fun (dtime : Int) b => (dtime * 10 + digitValue b).bmod (2^32)) 0 = wrapped digits := by
  induction digits using List.reverseRecOn with
  | nil => rfl
  | append_singleton digits b ih =>
    rw [List.foldl_append,List.foldl_cons,List.foldl_nil,ih]
    unfold wrapped
    rw [decimalValue_concat,← Int.bmod_add_bmod,Int.bmod_mul_bmod,Int.bmod_add_bmod]
    push_cast
    rfl

/-- A number that an `int` holds is read as it stands. -/
theorem wrapped_eq (h : decimalValue digits < 2^31) : wrapped digits = decimalValue digits := by
  apply Int.bmod_eq_of_le
  · norm_num
  · norm_num
    omega

theorem portNumber_wrapped (cp : Bytes) : portNumber cp = (wrapped (cp.takeWhile isDigit),cp.dropWhile isDigit) := by
  rw [portNumber,foldl_bmod]

/-- Digits in front of something else. -/
theorem portNumber_digits (hdigits : ∀ b ∈ digits, isDigit b = true) (hrest : ∀ b, rest.head? = some b → isDigit b = false) :
    portNumber (digits ++ rest) = (wrapped digits,rest) := by
  have htake : (digits ++ rest).takeWhile isDigit = digits := by
    rw [List.takeWhile_append_of_pos hdigits]
    cases rest with
    | nil => simp
    | cons b rest => simp [hrest b rfl]
  have hdrop : (digits ++ rest).dropWhile isDigit = rest := by
    rw [dropWhile_append_all _ hdigits]
    cases rest with
    | nil => rfl
    | cons b rest => simp [hrest b rfl]
  rw [portNumber_wrapped,htake,hdrop]

theorem tmod_hundred (n : Nat) : (n : Int).tmod 100 = ((n % 100 : Nat) : Int) := (Int.ofNat_tmod n 100).symm

theorem wrapped_clock (c : Clock) : wrapped c.digits = c.value := by
  have hhours := c.hours
  exact wrapped_eq (by omega)

theorem isDaytime_clock (c : Clock) : isDaytime c.value = true ∧ short c.value = c.value := by
  have hhours := c.hours
  have hminutes := c.minutes
  unfold Clock.value
  constructor
  · unfold isDaytime
    rw [Bool.and_eq_true,decide_eq_true_iff,decide_eq_true_iff,tmod_hundred]
    exact ⟨by exact_mod_cast hhours,by exact_mod_cast hminutes⟩
  · unfold short
    apply Int.bmod_eq_of_le
    · norm_num
    · norm_num
      omega

/-- A period is written so, and then the numbers are those of its times. -/
def Period.written (p : Period) : Written :=
  ⟨p.days,p.start.digits,p.stop.digits,fun b hb => (List.mem_append.mp hb).elim (p.start.areDigits b) (p.stop.areDigits b)⟩

theorem Period.written_accepted (p : Period) : p.written.Accepted := by
  unfold Written.Accepted Period.written
  rw [wrapped_clock,wrapped_clock]
  exact ⟨(isDaytime_clock p.start).1,(isDaytime_clock p.stop).1⟩

theorem Period.written_asRead (p : Period) : p.written.asRead = p.asRead := by
  unfold Written.asRead Period.asRead Period.written
  rw [wrapped_clock,wrapped_clock,(isDaytime_clock p.start).2,(isDaytime_clock p.stop).2]

/-- What passes as a time of day is one. -/
theorem exists_clock (hdigits : ∀ b ∈ digits, isDigit b = true) (h : isDaytime (decimalValue digits) = true) :
    ∃ c : Clock, c.digits = digits := by
  unfold isDaytime at h
  rw [Bool.and_eq_true,decide_eq_true_iff,decide_eq_true_iff,tmod_hundred] at h
  exact ⟨⟨digits,hdigits,by exact_mod_cast h.1,by exact_mod_cast h.2⟩,rfl⟩

theorem HasLongNumber.append (front : Bytes) (h : HasLongNumber rest) : HasLongNumber (front ++ rest) := by
  obtain ⟨front',digits,back,rfl,hdigits,hvalue⟩ := h
  exact ⟨front ++ front',digits,back,by simp,hdigits,hvalue⟩

theorem HasLongNumber.append_right (h : HasLongNumber rest) (back : Bytes) : HasLongNumber (rest ++ back) := by
  obtain ⟨front,digits,back',rfl,hdigits,hvalue⟩ := h
  exact ⟨front,digits,back' ++ back,by simp,hdigits,hvalue⟩

end Numbers

section Memory
variable {text s m : Bytes}

/-- A string in front of the end of another one begins it. -/
theorem prefix_of_string {r : Bytes} (h : s ++ r = text ++ 0 :: m) (hs : 0 ∉ s) : ∃ more, text = s ++ more ∧ r = more ++ 0 :: m := by
  rcases List.append_eq_append_iff.mp h with ⟨more,htext,hr⟩ | ⟨more,hs',hm⟩
  · exact ⟨more,htext,hr⟩
  · cases more with
    | nil => exact ⟨[],by simpa using hs'.symm,by simpa using hm.symm⟩
    | cons b more =>
      simp only [List.cons_append,List.cons.injEq] at hm
      exact absurd (by rw [hs',← hm.1]; simp) hs

theorem flatMap_text_ne_zero (days : List Day) : 0 ∉ days.flatMap Day.text := by
  intro h
  obtain ⟨d,_,hd⟩ := List.mem_flatMap.mp h
  revert hd
  cases d <;> decide +kernel

theorem UnknownDay.read (h : UnknownDay text) (m : Bytes) : portTime (text ++ m) = .unknownDay := by
  obtain ⟨days,a,b,rest,rfl,ha,hb,hbits⟩ := h
  have hdays : ∀ bits, portDays bits (days.flatMap Day.text ++ a :: b :: (rest ++ m)) = none := by
    induction days with
    | nil =>
      intro bits
      rw [List.flatMap_nil,List.nil_append,portDays,if_pos (by simp [ha,hb]),hbits]
    | cons d days ih =>
      intro bits
      obtain ⟨a',b',hab,ha',hb',hbits'⟩ := d.text_eq
      rw [List.flatMap_cons,hab]
      simp only [List.cons_append,List.nil_append]
      rw [portDays,if_pos (by simp [ha',hb']),hbits']
      exact ih _
  have htext : days.flatMap Day.text ++ a :: b :: rest ++ m = days.flatMap Day.text ++ a :: b :: (rest ++ m) := by simp
  rw [portTime,htext,hdays]

/-- Nothing that begins with the digits of a time or its minus is taken for an abbreviation. -/
theorem Written.days_stop (w : Written) {rest : Bytes} :
    ∀ a b more, w.start ++ 45 :: rest = a :: b :: more → (isAlphaByte a && b != 0) = false := by
  intro a b more heq
  have ha : isAlphaByte a = false := by
    have hhead := congrArg List.head? heq
    cases hdigits : w.start with
    | nil =>
      rw [hdigits] at hhead
      cases hhead
      rfl
    | cons c digits =>
      rw [hdigits] at hhead
      cases hhead
      have hc := w.areDigits a (by rw [hdigits]; exact List.mem_cons_self)
      rw [isDigit_iff] at hc
      simp only [isAlphaByte,UInt8.le_iff_toNat_le,Bool.or_eq_false_iff,Bool.and_eq_false_iff,decide_eq_false_iff_not]
      exact ⟨.inl (Nat.not_le.mpr (Nat.lt_of_le_of_lt hc.2 (by decide))),.inl (Nat.not_le.mpr (Nat.lt_of_le_of_lt hc.2 (by decide)))⟩
  rw [ha]
  rfl

/-- What is written as a period is read where it ends, if its numbers pass. -/
theorem portTime_written {w : Written} (hw : w.Accepted) {rest : Bytes}
    (hrest : rest = [] ∨ rest.head? = some comma ∨ rest.head? = some 0) :
    portTime (w.text ++ rest) = .read w.asRead rest.tail := by
  have htext : w.text ++ rest = w.days.flatMap Day.text ++ (w.start ++ 45 :: (w.stop ++ rest)) := by
    simp [Written.text]
  have hlength : (w.start ++ 45 :: (w.stop ++ rest)).length = (w.text ++ rest).length ↔ w.days = [] := by
    have hwhole : (w.text ++ rest).length = (w.days.flatMap Day.text).length + (w.start ++ 45 :: (w.stop ++ rest)).length := by
      rw [htext]
      exact List.length_append
    rw [hwhole,← flatMap_text_eq_nil,← List.length_eq_zero_iff]
    omega
  have hstart := @portNumber_digits w.start (45 :: (w.stop ++ rest)) (fun b hb => w.areDigits b (List.mem_append_left _ hb))
    fun b hb => by cases hb; rfl
  have hstop := @portNumber_digits w.stop rest (fun b hb => w.areDigits b (List.mem_append_right _ hb)) (by
    intro b hb
    rcases hrest with rfl | h | h
    · cases hb
    · rw [h] at hb
      cases hb
      rfl
    · rw [h] at hb
      cases hb
      rfl)
  have hend : ¬ (rest.head? ≠ some comma ∧ rest.headD 0 ≠ 0) := by
    rw [List.headD_eq_head?_getD]
    rcases hrest with rfl | h | h
    · simp
    · simp [h]
    · simp [h]
  rw [portTime,htext,portDays_text w.days w.days_stop]
  simp only [hstart,hstop,List.head?_cons,List.tail_cons,hw.1,hw.2,← htext,hlength,hend]
  simp [Written.asRead]

/-- A period in front of a separator is read. -/
theorem portTime_period (p : Period) {sep : UInt8} (hsep : sep = comma ∨ sep = 0) (m : Bytes) :
    portTime (p.text ++ sep :: m) = .read p.asRead m := by
  rw [← p.written_asRead]
  exact portTime_written p.written_accepted (hsep.elim (fun h => .inr (.inl (h ▸ rfl))) fun h => .inr (.inr (h ▸ rfl)))

/-- What the reader makes of a memory: it stops, it leaves the line, or something is written as a period there. -/
theorem portTime_cases (cp : Bytes) :
    (portTime cp = .unknownDay ∧ UnknownDay cp) ∨ portTime cp = .bad ∨
      ∃ (w : Written) (rest : Bytes), cp = w.text ++ rest ∧ w.Accepted ∧ (rest = [] ∨ rest.head? = some comma ∨ rest.head? = some 0) := by
  rcases portDays_cases 0 cp with ⟨hnone,hday⟩ | ⟨days,rest,heq,hread,-⟩
  · exact .inl ⟨by rw [portTime,hnone],hday⟩
  · right
    have hstart := portNumber_wrapped rest
    have hrest : rest = rest.takeWhile isDigit ++ rest.dropWhile isDigit := List.takeWhile_append_dropWhile.symm
    have hstartDigits : ∀ b ∈ rest.takeWhile isDigit, isDigit b = true := fun b hb => List.mem_takeWhile_imp hb
    generalize rest.takeWhile isDigit = digits₁ at hstart hrest hstartDigits
    generalize rest.dropWhile isDigit = rest₁ at hstart hrest
    rw [portTime,hread]
    simp only [hstart]
    by_cases hbad : rest₁.head? ≠ some 45 ∨ isDaytime (wrapped digits₁) = false
    · exact .inl (if_pos hbad)
    · rw [if_neg hbad]
      rw [not_or,not_not,Bool.not_eq_false] at hbad
      obtain ⟨hminus,hday₁⟩ := hbad
      obtain ⟨rest₂,rfl⟩ := List.head?_eq_some_iff.mp hminus
      have hstop := portNumber_wrapped rest₂
      have hrest₂ : rest₂ = rest₂.takeWhile isDigit ++ rest₂.dropWhile isDigit := List.takeWhile_append_dropWhile.symm
      have hstopDigits : ∀ b ∈ rest₂.takeWhile isDigit, isDigit b = true := fun b hb => List.mem_takeWhile_imp hb
      rw [List.tail_cons]
      generalize rest₂.takeWhile isDigit = digits₂ at hstop hrest₂ hstopDigits
      generalize rest₂.dropWhile isDigit = rest₃ at hstop hrest₂
      simp only [hstop]
      by_cases hbad₂ : (rest₃.head? ≠ some comma ∧ rest₃.headD 0 ≠ 0) ∨ isDaytime (wrapped digits₂) = false
      · exact .inl (if_pos hbad₂)
      · rw [not_or,Bool.not_eq_false] at hbad₂
        obtain ⟨hend,hday₂⟩ := hbad₂
        refine .inr ⟨⟨days,digits₁,digits₂,fun b hb => (List.mem_append.mp hb).elim (hstartDigits b) (hstopDigits b)⟩,rest₃,?_,
          ⟨hday₁,hday₂⟩,?_⟩
        · rw [heq,hrest,hrest₂,Written.text]
          simp
        · cases rest₃ with
          | nil => exact .inl rfl
          | cons c rest₃ =>
            right
            by_contra hnot
            rw [not_or] at hnot
            exact hend ⟨hnot.1,fun hc => hnot.2 (by rw [List.head?_cons]; exact congrArg some hc)⟩

/-- What passes with numbers that an `int` holds is a period. -/
theorem Written.exists_period {w : Written} (hw : w.Accepted) (hlong : ¬ HasLongNumber w.text) : ∃ p : Period, p.text = w.text := by
  have hsmall : ∀ front digits back, w.text = front ++ digits ++ back → (∀ b ∈ digits, isDigit b = true) → decimalValue digits < 2^31 :=
    fun front digits back heq hall => Nat.not_le.mp fun hle => hlong ⟨front,digits,back,heq,hall,hle⟩
  have hstart := hsmall (w.days.flatMap Day.text) w.start (45 :: w.stop) (by simp [Written.text]) fun b hb => w.areDigits b (by simp [hb])
  have hstop := hsmall (w.days.flatMap Day.text ++ w.start ++ [45]) w.stop [] (by simp [Written.text]) fun b hb =>
    w.areDigits b (by simp [hb])
  obtain ⟨hday,hday'⟩ := hw
  rw [wrapped_eq hstart] at hday
  rw [wrapped_eq hstop] at hday'
  obtain ⟨start,hstartEq⟩ := exists_clock (fun b hb => w.areDigits b (by simp [hb])) hday
  obtain ⟨stop,hstopEq⟩ := exists_clock (fun b hb => w.areDigits b (by simp [hb])) hday'
  exact ⟨⟨w.days,start,stop⟩,by rw [Period.text,Written.text,hstartEq,hstopEq]⟩

theorem Written.text_ne_zero (w : Written) : 0 ∉ w.text := by
  intro h
  simp only [Written.text,List.mem_append,List.mem_cons] at h
  rcases h with h | h | h | h
  · exact flatMap_text_ne_zero _ h
  · exact absurd (w.areDigits 0 (List.mem_append_left _ h)) (by decide)
  · cases h
  · exact absurd (w.areDigits 0 (List.mem_append_right _ h)) (by decide)

/-- An unknown abbreviation stands in front of the end of the string. -/
theorem UnknownDay.of_string (h : UnknownDay (text ++ 0 :: m)) : UnknownDay text := by
  obtain ⟨days,a,b,rest,heq,ha,hb,hbits⟩ := h
  have hfront : (0 : UInt8) ∉ days.flatMap Day.text ++ [a,b] := by
    have ha' : (0 : UInt8) ≠ a := by
      rintro rfl
      cases ha
    simp only [List.mem_append,List.mem_cons,List.not_mem_nil,or_false,not_or]
    exact ⟨flatMap_text_ne_zero days,ha',hb.symm⟩
  obtain ⟨more,htext,-⟩ := prefix_of_string (s := days.flatMap Day.text ++ [a,b]) (r := rest) (by rw [heq]; simp) hfront
  exact ⟨days,a,b,more,by rw [htext]; simp,ha,hb,hbits⟩

/-- One step of the reader on a string. -/
theorem portTime_string (hzero : 0 ∉ text) (hlong : ¬ HasLongNumber text) (m : Bytes) :
    (portTime (text ++ 0 :: m) = .unknownDay ∧ UnknownDay text) ∨ portTime (text ++ 0 :: m) = .bad ∨
      (∃ p : Period, text = p.text ∧ portTime (text ++ 0 :: m) = .read p.asRead m) ∨
      ∃ (p : Period) (more : Bytes), text = p.text ++ comma :: more ∧ portTime (text ++ 0 :: m) = .read p.asRead (more ++ 0 :: m) := by
  rcases portTime_cases (text ++ 0 :: m) with ⟨hread,hday⟩ | hbad | ⟨w,rest,heq,hw,hrest⟩
  · exact .inl ⟨hread,hday.of_string⟩
  · exact .inr (.inl hbad)
  · obtain ⟨more,rfl,hmore⟩ := prefix_of_string heq.symm w.text_ne_zero
    obtain ⟨p,hp⟩ := Written.exists_period hw fun h => hlong (h.append_right more)
    rw [← hp]
    cases more with
    | nil =>
      rw [List.append_nil]
      exact .inr (.inr (.inl ⟨p,rfl,portTime_period p (.inr rfl) m⟩))
    | cons c more =>
      rw [hmore] at hrest
      have hc : c = comma := by
        rcases hrest.resolve_left (List.cons_ne_nil _ _) with hc | hc
        · exact Option.some.inj hc
        · exact absurd (Option.some.inj hc) fun hc => hzero (by simp [hc])
      rw [hc]
      refine .inr (.inr (.inr ⟨p,more,rfl,?_⟩))
      rw [List.append_assoc]
      exact portTime_period p (.inl rfl) _

end Memory

section List
variable {ps : List Period} {text more : Bytes} {n : Nat}

theorem Written.text_head (w : Written) (m : Bytes) : (w.text ++ m).headD 0 ≠ 0 := by
  have hbytes : ∀ b, w.text.head? = some b → b ≠ 0 := by
    rintro b hb rfl
    exact w.text_ne_zero (List.mem_of_head? hb)
  cases htext : w.text with
  | nil =>
    have hlength := congrArg List.length htext
    simp [Written.text] at hlength
  | cons b text => exact hbytes b (by rw [htext]; rfl)

theorem Period.text_head (p : Period) (m : Bytes) : (p.text ++ m).headD 0 ≠ 0 := p.written.text_head m

theorem UnknownDay.head (h : UnknownDay text) (m : Bytes) : (text ++ m).headD 0 ≠ 0 := by
  obtain ⟨days,a,b,rest,rfl,ha,_,_⟩ := h
  have hletter : ∀ c : UInt8, isAlphaByte c = true → c ≠ 0 := by
    rintro c hc rfl
    cases hc
  cases days with
  | nil => exact hletter a ha
  | cons d days =>
    obtain ⟨a',b',hab,ha',_⟩ := d.text_eq
    rw [List.flatMap_cons,hab]
    exact hletter a' ha'

private theorem portTimes_end (n : Nat) (m : Bytes) : portTimes n (0 :: m) = some (some []) := by
  cases n with
  | zero => rfl
  | succ n => rfl

/-- Of a list of periods, as many are read as there is room for. -/
theorem portTimes_periods (h : Periods ps text) (n : Nat) (m : Bytes) :
    portTimes n (text ++ 0 :: 0 :: m) = some (some ((ps.take n).map Period.asRead)) := by
  induction h generalizing n with
  | nil =>
    rw [List.nil_append,portTimes_end,List.take_nil]
    rfl
  | last p =>
    cases n with
    | zero => rfl
    | succ n =>
      rw [portTimes,if_neg (p.text_head _),portTime_period p (.inr rfl),List.take_succ_cons,List.take_nil]
      simp only [portTimes_end]
      rfl
  | more p h ih =>
    cases n with
    | zero => rfl
    | succ n =>
      rw [List.append_assoc,portTimes,if_neg (p.text_head _),List.cons_append,portTime_period p (.inl rfl),List.take_succ_cons]
      simp only [ih]
      rfl

/-- An unknown abbreviation where there is still room for a period ends the reading. -/
theorem portTimes_unknownDay (hps : ps.length < n) (hmore : UnknownDay more) (m : Bytes) :
    portTimes n (beforeMore ps ++ more ++ m) = none := by
  induction ps generalizing n with
  | nil =>
    obtain ⟨n,rfl⟩ : ∃ k, n = k + 1 := ⟨n - 1,by simp at hps; omega⟩
    have hfront : beforeMore [] ++ more ++ m = more ++ m := rfl
    rw [hfront,portTimes,if_neg (hmore.head m),hmore.read]
  | cons p ps ih =>
    obtain ⟨n,rfl⟩ : ∃ k, n = k + 1 := ⟨n - 1,by simp at hps; omega⟩
    have htext : beforeMore (p :: ps) ++ more ++ m = p.text ++ comma :: (beforeMore ps ++ more ++ m) := by simp [beforeMore]
    rw [htext,portTimes,if_neg (p.text_head _),portTime_period p (.inl rfl)]
    simp only [ih (by simpa using hps)]
    rfl

/-- What is read of any other string: an end at an unknown abbreviation, nothing, or as many
periods as there is room for. -/
theorem portTimes_string (hzero : 0 ∉ text) (hlong : ¬ HasLongNumber text) (n : Nat) (m : Bytes) :
    (portTimes n (text ++ 0 :: 0 :: m) = none ∧ ∃ ps more, text = beforeMore ps ++ more ∧ ps.length < n ∧ UnknownDay more) ∨
      portTimes n (text ++ 0 :: 0 :: m) = some none ∨ (∃ ps, Periods ps text) ∨
      ∃ ps more, text = beforeMore ps ++ more ∧ ps.length = n ∧ more ≠ [] := by
  induction n generalizing text with
  | zero =>
    right; right
    by_cases hnil : text = []
    · exact .inl ⟨[],hnil ▸ .nil⟩
    · exact .inr ⟨[],text,rfl,rfl,hnil⟩
  | succ n ih =>
    by_cases hnil : text = []
    · exact .inr (.inr (.inl ⟨[],hnil ▸ .nil⟩))
    · have hhead : (text ++ 0 :: 0 :: m).headD 0 ≠ 0 := by
        obtain ⟨b,text,rfl⟩ := List.exists_cons_of_ne_nil hnil
        intro hb
        exact hzero (hb ▸ List.mem_cons_self)
      rw [portTimes,if_neg hhead]
      rcases portTime_string hzero hlong (0 :: m) with ⟨hread,hday⟩ | hread | ⟨p,heq,hread⟩ | ⟨p,more,heq,hread⟩
      · exact .inl ⟨by rw [hread],[],text,rfl,Nat.succ_pos n,hday⟩
      · exact .inr (.inl (by rw [hread]))
      · exact .inr (.inr (.inl ⟨[p],heq ▸ .last p⟩))
      · rw [hread]
        have hzero' : 0 ∉ more := fun h => hzero (by rw [heq]; simp [h])
        have hlong' : ¬ HasLongNumber more := fun h => hlong (by
          rw [heq]
          exact (HasLongNumber.append [comma] h).append p.text)
        have hbefore : ∀ ps tail, more = beforeMore ps ++ tail → text = beforeMore (p :: ps) ++ tail := by
          intro ps tail h
          rw [heq,h]
          simp [beforeMore]
        rcases ih hzero' hlong' with ⟨hnone,ps,tail,htail,hlength,hday⟩ | hnone | ⟨ps,hps⟩ | ⟨ps,tail,htail,hlength,hne⟩
        · exact .inl ⟨by simp [hnone],p :: ps,tail,hbefore ps tail htail,by simpa using hlength,hday⟩
        · exact .inr (.inl (by simp [hnone]))
        · exact .inr (.inr (.inl ⟨p :: ps,heq ▸ .more p hps⟩))
        · exact .inr (.inr (.inr ⟨p :: ps,tail,hbefore ps tail htail,by simpa using hlength,hne⟩))

/-- What a memory holds is what is read of it. -/
theorem Held.read {m : Bytes} {ws : Option (List Written)} (h : Held n m ws) :
    portTimes n m = ws.map fun ws => some (ws.map Written.asRead) := by
  induction h with
  | full m => rfl
  | ended n h =>
    cases n with
    | zero => rfl
    | succ n => exact if_pos h
  | @unknown n m h =>
    have hhead := h.head []
    have hday := h.read []
    rw [List.append_nil] at hhead hday
    rw [portTimes,if_neg hhead,hday]
    rfl
  | @last n w hw =>
    have hhead := w.text_head []
    have hread := portTime_written hw (.inl rfl)
    rw [List.append_nil] at hhead hread
    rw [portTimes,if_neg hhead,hread]
    cases n with
    | zero => rfl
    | succ n => rfl
  | @more n w sep m ws hw hsep h ih =>
    have hread := @portTime_written w hw (sep :: m) (hsep.elim (fun h => .inr (.inl (h ▸ rfl))) fun h => .inr (.inr (h ▸ rfl)))
    rw [portTimes,if_neg (w.text_head _),hread]
    simp only [List.tail_cons,ih]
    cases ws with
    | none => rfl
    | some ws => rfl

/-- The reader leaves a line only where its memory holds nothing. -/
theorem held_or_bad (n : Nat) (cp : Bytes) : portTimes n cp = some none ∨ ∃ ws, Held n cp ws := by
  induction n generalizing cp with
  | zero => exact .inr ⟨_,.full cp⟩
  | succ n ih =>
    by_cases hend : cp.headD 0 = 0
    · exact .inr ⟨_,.ended _ hend⟩
    · rcases portTime_cases cp with ⟨_,hday⟩ | hbad | ⟨w,rest,rfl,hw,hrest⟩
      · exact .inr ⟨_,.unknown n hday⟩
      · left
        rw [portTimes,if_neg hend,hbad]
      · cases rest with
        | nil =>
          rw [List.append_nil]
          exact .inr ⟨_,.last n hw⟩
        | cons sep m =>
          rcases ih m with hbad | ⟨ws,hws⟩
          · left
            rw [portTimes,if_neg hend,portTime_written hw hrest]
            simp only [List.tail_cons,hbad]
            rfl
          · refine .inr ⟨_,.more hw ?_ hws⟩
            exact (hrest.resolve_left (List.cons_ne_nil _ _)).imp Option.some.inj Option.some.inj

end List

end UserDb.Login
