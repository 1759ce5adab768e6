import PostBlocks.Calendar.DateTime
import PostBlocks.Json.Number
import PostBlocks.Text.Blank

/-!
# Dates and times of TOML

A moment is a date, a time of day, or both, and in that last case it may say how far it is from
UTC. All parts have a fixed number of digits; only the fraction of a second takes as many as there
are, of which nine count. A date has to be one of the calendar, a minute may have a sixty-first
second, and the day ends before hour 24.

A moment is written in one way only: `T` between date and time, no zeros at the end of a fraction,
and `Z` for UTC unless the distance was given in hours and minutes.
-/

namespace PostBlocks.Toml

/-- The value of digits of a base. -/
def ofDigits (base : Nat) (ds : List Nat) : Nat :=
  ds.foldl (fun n d ↦ base * n + d) 0

/-- A day of the calendar. -/
structure Day where
  year : Nat
  month : Nat
  day : Nat
deriving DecidableEq, Repr, Inhabited

/-- A time of day. -/
structure Clock where
  hour : Nat
  minute : Nat
  second : Nat
  nanosecond : Nat
deriving DecidableEq, Repr, Inhabited

/-- How far a time is from UTC: not at all, or by a number of minutes. -/
inductive Offset where
  | utc
  | minutes (m : Int)
deriving DecidableEq, Repr, Inhabited

/-- A date, a time of day, or both. -/
inductive Moment where
  | day (d : Day)
  | clock (t : Clock)
  | full (d : Day) (t : Clock) (offset : Option Offset)
deriving DecidableEq, Repr, Inhabited

/-! ### Reading -/

/-- The number that the first `count` characters of a text are the digits of. -/
def takeFixed? (count : Nat) (cs : List Char) : Option (Nat × List Char) :=
  let ds := cs.take count
  if ds.length = count ∧ ds.all Char.isDigit then
    some (ofDigits 10 (ds.map Json.digitValue), cs.drop count)
  else none

/-- A number of two digits within bounds. -/
def takeWithin? (low high : Nat) (cs : List Char) : Option (Nat × List Char) :=
  (takeFixed? 2 cs).filter fun (n, _) ↦ low ≤ n && n ≤ high

/-- Year, month and day with hyphens between them. -/
def Day.take? (cs : List Char) : Option (Day × List Char) := do
  let (year, cs) ← takeFixed? 4 cs
  let cs ← Text.after? ['-'] cs
  let (month, cs) ← takeWithin? 1 12 cs
  let cs ← Text.after? ['-'] cs
  let (day, cs) ← takeWithin? 1 (DateTime.daysInMonth year month) cs
  return (⟨year, month, day⟩, cs)

/-- A point and a fraction of a second, in nanoseconds. -/
def takeFraction (cs : List Char) : Nat × List Char :=
  match cs with
  | '.' :: rest =>
    match rest.takeWhile Char.isDigit with
    | [] => (0, cs)
    | ds =>
      (ofDigits 10 ((ds.map Json.digitValue ++ List.replicate 9 0).take 9),
        rest.dropWhile Char.isDigit)
  | _ => (0, cs)

/-- Hour, minute and second with colons between them, and a fraction of a second if there is one. -/
def Clock.take? (cs : List Char) : Option (Clock × List Char) := do
  let (hour, cs) ← takeWithin? 0 23 cs
  let cs ← Text.after? [':'] cs
  let (minute, cs) ← takeWithin? 0 59 cs
  let cs ← Text.after? [':'] cs
  let (second, cs) ← takeWithin? 0 60 cs
  let (nanosecond, cs) := takeFraction cs
  return (⟨hour, minute, second, nanosecond⟩, cs)

/-- Hours and minutes, in minutes. -/
def Offset.takeMinutes? (cs : List Char) : Option (Nat × List Char) := do
  let (hour, cs) ← takeWithin? 0 23 cs
  let cs ← Text.after? [':'] cs
  let (minute, cs) ← takeWithin? 0 59 cs
  return (60 * hour + minute, cs)

/-- The distance from UTC, if there is one; a sign needs hours and minutes after it. -/
def Offset.take? (cs : List Char) : Option (Option Offset × List Char) :=
  match cs with
  | 'Z' :: cs | 'z' :: cs => some (some .utc, cs)
  | '+' :: cs => (takeMinutes? cs).map fun (n, cs) ↦ (some (.minutes n), cs)
  | '-' :: cs => (takeMinutes? cs).map fun (n, cs) ↦ (some (.minutes (-n)), cs)
  | cs => some (none, cs)

/-- What follows the character between a date and a time. -/
def afterDay? : List Char → Option (List Char)
  | 'T' :: cs | 't' :: cs | ' ' :: cs => some cs
  | _ => none

namespace Moment

/-- The moment at the front of a text, and what follows it. -/
def take? (cs : List Char) : Option (Moment × List Char) :=
  match Day.take? cs with
  | some (d, rest) =>
    match (afterDay? rest).bind Clock.take? with
    | some (t, rest) => (Offset.take? rest).map fun (offset, rest) ↦ (.full d t offset, rest)
    | none => some (.day d, rest)
  | none => (Clock.take? cs).map fun (t, rest) ↦ (.clock t, rest)

end Moment

/-! ### Writing -/

open DateTime (padded)

/-- Year, month and day. -/
def Day.chars (d : Day) : List Char :=
  padded 4 d.year ++ '-' :: padded 2 d.month ++ '-' :: padded 2 d.day

/-- A fraction of a second without the zeros at its end; nothing where there is none. -/
def fractionChars (nanosecond : Nat) : List Char :=
  if nanosecond = 0 then []
  else '.' :: ((padded 9 nanosecond).reverse.dropWhile (· == '0')).reverse

/-- Hour, minute, second and fraction. -/
def Clock.chars (t : Clock) : List Char :=
  padded 2 t.hour ++ ':' :: padded 2 t.minute ++ ':' :: padded 2 t.second
    ++ fractionChars t.nanosecond

/-- A distance from UTC; one of no minutes has a plus sign. -/
def Offset.chars : Offset → List Char
  | utc => ['Z']
  | minutes m =>
    (if m < 0 then '-' else '+') :: padded 2 (m.natAbs / 60) ++ ':' :: padded 2 (m.natAbs % 60)

namespace Moment

/-- A moment as it is written. -/
def chars : Moment → List Char
  | day d => d.chars
  | clock t => t.chars
  | full d t offset => d.chars ++ 'T' :: t.chars ++ (offset.elim [] Offset.chars)

/-- `chars` as a string. -/
def text (m : Moment) : String :=
  .ofList m.chars

end Moment

end PostBlocks.Toml
