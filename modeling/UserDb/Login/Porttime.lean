import UserDb.Base.Fgets
import UserDb.Base.Text

/-! When a user may log in on a port: the port time file, read into a buffer that stays from line
to line. -/
namespace UserDb.Login
open UserDb.Base

/-- A period of time: bits for the days of the week, and the first and the last minute. -/
structure PtTime where
  days : Nat
  start : Int
  stop : Int
  deriving DecidableEq, Repr

/-- An entry of the file; without times where its field was empty. -/
structure Port where
  names : List Bytes
  users : List Bytes
  times : Option (List PtTime)
  deriving DecidableEq, Repr

/-- The local time, as far as it is looked at. -/
structure Tm where
  wday : Fin 7
  hour : Nat
  min : Nat
  deriving DecidableEq, Repr

def portTimesMax : Nat := 24
def portTtyMax : Nat := 64
def portIdsMax : Nat := 64
def bufsiz : Nat := 8192

def isAlphaByte (b : UInt8) : Bool := (65 ≤ b && b ≤ 90) || (97 ≤ b && b ≤ 122)

/-- The bits of an abbreviation. -/
def dayBits (a b : UInt8) : Option Nat :=
  if [a,b] = ascii "Su" then some 0x01
  else if [a,b] = ascii "Mo" then some 0x02
  else if [a,b] = ascii "Tu" then some 0x04
  else if [a,b] = ascii "We" then some 0x08
  else if [a,b] = ascii "Th" then some 0x10
  else if [a,b] = ascii "Fr" then some 0x20
  else if [a,b] = ascii "Sa" then some 0x40
  else if [a,b] = ascii "Wk" then some 0x3e
  else if [a,b] = ascii "Al" then some 0x7f
  else none

/-- The loop over the abbreviations; without a result at one that is not known. Here and below
`cp` is the memory from a place of the buffer on. -/
def portDays (days : Nat) (cp : Bytes) : Option (Nat × Bytes) :=
  match cp with
  | a :: b :: rest =>
    if isAlphaByte a && b != 0 then
      match dayBits a b with
      | some bits => portDays (days ||| bits) rest
      | none => none
    else some (days,cp)
  | _ => some (days,cp)

/-- A number as an `int` takes it up, and what stands behind it. -/
def portNumber (cp : Bytes) : Int × Bytes :=
  ((cp.takeWhile isDigit).foldl (fun dtime b => (dtime * 10 + digitValue b).bmod (2^32)) 0,cp.dropWhile isDigit)

def isDaytime (dtime : Int) : Bool := dtime ≤ 2400 && dtime.tmod 100 ≤ 59

/-- A `short`. -/
def short (dtime : Int) : Int := dtime.bmod (2^16)

/-- How reading one period ends: with an unknown abbreviation, with something else that is wrong,
or with a period and the memory from behind its separator on. -/
inductive TimeRead where
  | unknownDay
  | bad
  | read (t : PtTime) (cp : Bytes)

def portTime (cp : Bytes) : TimeRead :=
  match portDays 0 cp with
  | none => .unknownDay
  | some (days,rest) =>
    -- no days are all days
    let days := if rest.length = cp.length then 0x7f else days
    match portNumber rest with
    | (start,rest) =>
      if rest.head? ≠ some 45 ∨ isDaytime start = false then .bad
      else
        match portNumber rest.tail with
        | (stop,rest) =>
          -- the memory ends like a string
          if (rest.head? ≠ some comma ∧ rest.headD 0 ≠ 0) ∨ isDaytime stop = false then .bad
          else .read ⟨days,short start,short stop⟩ rest.tail

/-- How reading a line ends. -/
inductive PortRead where
  | next
  | error
  | entry (port : Port)
  deriving DecidableEq

/-- The loop over the periods, behind the end of the string where the last period ended there. -/
def portTimes : Nat → Bytes → Option (Option (List PtTime))
  | 0, _ => some (some [])
  | n + 1, cp =>
    if cp.headD 0 = 0 then some (some [])
    else
      match portTime cp with
      | .unknownDay => none
      | .bad => some none
      | .read t cp => (portTimes n cp).map (·.map (t :: ·))

/-- `strsep` leaves zeros in the place of the first separators. -/
def zeroSeparators (sep : UInt8) : Nat → Bytes → Bytes
  | 0, s => s
  | _, [] => []
  | n + 1, b :: s => if b = sep then 0 :: zeroSeparators sep n s else b :: zeroSeparators sep (n + 1) s

/-- The fields of the line in the buffer, and what the buffer is afterwards. -/
def portFields (mem : Bytes) : PortRead × Bytes :=
  let line := cstring mem
  match line.splitOn colon with
  | [names,users,_] =>
    let cp := mem.drop (names.length + 1 + (users.length + 1))
    if portTtyMax < (names.splitOn comma).length then
      (.next,zeroSeparators comma (portTtyMax + 1) names ++ 0 :: (users ++ 0 :: cp))
    else
      let mem := zeroSeparators comma (portTtyMax + 1) names ++ 0 :: (zeroSeparators comma (portIdsMax + 1) users ++ 0 :: cp)
      if portIdsMax < (users.splitOn comma).length then (.next,mem)
      else if cp.headD 0 = 0 then (.entry ⟨names.splitOn comma,users.splitOn comma,none⟩,mem)
      else
        match portTimes portTimesMax cp with
        | none => (.error,mem)
        | some none => (.next,mem)
        | some (some times) => (.entry ⟨names.splitOn comma,users.splitOn comma,some times⟩,mem)
  | _ => (.next,zeroSeparators colon 3 line ++ mem.drop line.length)

/-- One line in the buffer. -/
def portLine (mem : Bytes) : PortRead × Bytes :=
  if mem.head? = some 35 then (.next,mem)
  else portFields (zeroSeparators newline 1 (cstring mem) ++ mem.drop (cstring mem).length)

/-- What `fgets` leaves in the memory from the buffer on. -/
def fill (piece mem : Bytes) : Bytes := piece ++ 0 :: mem.drop (piece.length + 1)

/-- The loop of `portcmp`, for a port that is `su` or not. -/
def portcmpFrom (su : Bool) : Bytes → Bytes → Bool
  | [], [] => true
  | [], _ :: _ => false
  | p :: _, [] => !su && p == 42
  | p :: pattern, q :: port => if p = q then portcmpFrom su pattern port else !su && p == 42

def portcmp (pattern port : Bytes) : Bool := portcmpFrom (port == ascii "SU") pattern port

section Search
variable (tty user : Bytes) (tm : Tm)

def portFits (port : Port) : Bool :=
  port.names.any (portcmp · tty) && port.users.any fun name => name == user || name == ascii "*"

/-- `getttyuser`: the pieces of the file one after the other. An error ends the search. -/
def getttyuser : List Bytes → Bytes → Option Port × Bytes
  | [], mem => (none,mem)
  | piece :: pieces, mem =>
    match portLine (fill piece mem) with
    | (.next,mem) => getttyuser pieces mem
    | (.error,mem) => (none,mem)
    | (.entry port,mem) => if portFits tty user port then (some port,mem) else getttyuser pieces mem

def PtTime.covers (t : PtTime) : Bool :=
  let dtime : Int := tm.hour * 100 + tm.min
  t.days.testBit tm.wday &&
    if t.start ≤ t.stop then decide (t.start ≤ dtime) && decide (dtime ≤ t.stop)
    else decide (t.start ≤ dtime) || decide (dtime ≤ t.stop)

/-- What an entry says about a time. Its periods end at a start of -1. -/
def Port.allows (port : Port) : Bool :=
  match port.times with
  | none => false
  | some times => (times.takeWhile fun t => t.start != -1).any (PtTime.covers tm)

/-- `isttytime`, from the memory that the last call left. -/
def isttytime (mem : Bytes) (file : ConfigFile) : Bool :=
  match file with
  | .absent | .unreadable => true
  | .opened content =>
    match (getttyuser tty user (Fgets.pieces newline bufsiz content) mem).1 with
    | none => true
    | some port => port.allows tm

end Search

end UserDb.Login
