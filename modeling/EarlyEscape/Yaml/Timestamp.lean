import EarlyEscape.Yaml.Number

/-!
# Times in a YAML text

A date has a year of four digits, and the month and the day may have one.  The time of day follows
the letter `T`, in either case, with a zone, or a blank and no zone; it may have a fraction.

## Main definitions

* `Timestamp` : a date with a time of day.
* `Timestamp.of?` : the time that a text stands for.
* `Timestamp.isSame` : whether two times are the same.
-/

namespace EarlyEscape.Yaml

/-! ### Times -/

/-- Where a time of day is told. -/
inductive Zone where
  | universal
  /-- A zone by the seconds that it is ahead. -/
  | offset (seconds : Int)
deriving DecidableEq, Repr

/-- Whether a zone is in use: full hours, from twelve behind to fourteen ahead. -/
def Zone.isCommon : Zone → Bool
  | .universal => true
  | .offset s => s % 3600 == 0 && -12 * 3600 ≤ s && s ≤ 14 * 3600

/-- A date. -/
structure Date where
  year : Nat
  month : Nat
  day : Nat
deriving DecidableEq, Repr

/-- A time of day. -/
structure Clock where
  hour : Nat := 0
  minute : Nat := 0
  second : Nat := 0
  nanosecond : Nat := 0
deriving DecidableEq, Repr

/-- A date with a time of day. -/
structure Timestamp where
  date : Date
  clock : Clock := {}
  zone : Zone := .universal
deriving DecidableEq, Repr

/-- Whether two times are the same.  A zone that is not in use is one of its own wherever it is
written. -/
def Timestamp.isSame (s t : Timestamp) : Bool := s == t && s.zone.isCommon

/-! ### Texts -/

/-- A number of one or two digits, and what follows it. -/
def shortNumber? : List Char → Option (Nat × List Char)
  | c :: d :: cs =>
    if !c.isDigit then none
    else if d.isDigit then some (10 * decimalDigit c + decimalDigit d, cs)
    else some (decimalDigit c, d :: cs)
  | [c] => if c.isDigit then some (decimalDigit c, []) else none
  | [] => none

/-- What follows a given character. -/
def behind? (c : Char) : List Char → Option (List Char)
  | d :: cs => if c == d then some cs else none
  | [] => none

/-- The number of days in a month. -/
def daysIn (year month : Nat) : Nat :=
  if month == 2 then
    if year % 4 == 0 && (year % 100 != 0 || year % 400 == 0) then 29 else 28
  else if [4, 6, 9, 11].contains month then 30
  else 31

/-- A date, year, month and day, and what follows it. -/
def date? (cs : List Char) : Option (Date × List Char) := do
  let digits := cs.takeWhile Char.isDigit
  if digits.length != 4 then none
  let year := decimal digits
  let cs ← behind? '-' (cs.drop 4)
  let (month, cs) ← shortNumber? cs
  let cs ← behind? '-' cs
  let (day, cs) ← shortNumber? cs
  if 1 ≤ month && month ≤ 12 && 1 ≤ day && day ≤ daysIn year month then
    some ({ year, month, day }, cs)
  else none

/-- The nanoseconds of a fraction, of which the first nine digits count. -/
def nanoseconds (digits : List Char) : Nat :=
  (List.range 9).foldl (fun n i => 10 * n + (digits[i]?.map decimalDigit).getD 0) 0

/-- The nanoseconds of a fraction, if there is one, and what follows it. -/
def fraction : List Char → Nat × List Char
  | c :: d :: cs =>
    if (c == '.' || c == ',') && d.isDigit then
      (nanoseconds ((d :: cs).takeWhile Char.isDigit), cs.dropWhile Char.isDigit)
    else (0, c :: d :: cs)
  | cs => (0, cs)

/-- A time of day, hour, minute and second, and what follows it. -/
def clock? (cs : List Char) : Option (Clock × List Char) := do
  let (hour, cs) ← shortNumber? cs
  let cs ← behind? ':' cs
  let (minute, cs) ← shortNumber? cs
  let cs ← behind? ':' cs
  let (second, cs) ← shortNumber? cs
  if hour < 24 && minute < 60 && second < 60 then
    let (nanosecond, cs) := fraction cs
    some ({ hour, minute, second, nanosecond }, cs)
  else none

/-- A zone: the letter `Z`, or a sign, hours and minutes. -/
def zone? : List Char → Option Zone
  | ['Z'] => some .universal
  | [sign, a, b, ':', c, d] =>
    let hours := 10 * decimalDigit a + decimalDigit b
    let minutes := 10 * decimalDigit c + decimalDigit d
    let seconds : Int := 60 * (60 * hours + minutes)
    if [a, b, c, d].all Char.isDigit && hours ≤ 24 && minutes ≤ 60 then
      if sign == '+' then some (.offset seconds)
      else if sign == '-' then some (.offset (-seconds))
      else none
    else none
  | _ => none

/-- The time that a text stands for. -/
def Timestamp.of? (text : List Char) : Option Timestamp := do
  let (date, cs) ← date? text
  match cs with
  | [] => return { date }
  | c :: cs =>
    if c == 'T' || c == 't' then
      let (clock, cs) ← clock? cs
      return { date, clock, zone := ← zone? cs }
    else if c == ' ' then
      let (clock, cs) ← clock? (cs.dropWhile (· == ' '))
      if cs.isEmpty then return { date, clock } else none
    else none

end EarlyEscape.Yaml
