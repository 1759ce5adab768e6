import PostBlocks.Json.Printer

/-!
# Dates of the proleptic Gregorian calendar

A timestamp counts seconds from the start of 1970 in UTC, without leap seconds. `DateTime.ofSeconds`
gives its date and time in the calendar of today, extended to all years, year zero and negative
years among them, and `DateTime.toSeconds` counts back.

Days are counted in years that start on the first of March, so that a leap day ends its year. Four
hundred years always have the same number of days; within them a century, four years and a year are
found by division.
-/

namespace PostBlocks

/-- A date and a time of day. -/
structure DateTime where
  year : Int
  month : Nat
  day : Nat
  hour : Nat
  minute : Nat
  second : Nat
deriving DecidableEq, Repr, Inhabited

namespace DateTime

/-- A year of the calendar has a leap day. -/
def isLeap (year : Int) : Bool :=
  year % 4 == 0 && (year % 100 != 0 || year % 400 == 0)

/-- The number of days of a month. -/
def daysInMonth (year : Int) (month : Nat) : Nat :=
  if month = 2 then if isLeap year then 29 else 28
  else if month = 4 ∨ month = 6 ∨ month = 9 ∨ month = 11 then 30
  else 31

/-- Dates that the calendar has, with a time of day. -/
def IsValid (d : DateTime) : Prop :=
  1 ≤ d.month ∧ d.month ≤ 12 ∧ 1 ≤ d.day ∧ d.day ≤ daysInMonth d.year d.month ∧
    d.hour < 24 ∧ d.minute < 60 ∧ d.second < 60

instance (d : DateTime) : Decidable d.IsValid :=
  inferInstanceAs (Decidable (_ ∧ _))

/-- The days of four hundred years. -/
def daysPerEra : Nat := 146097

/-- The days from the first of March of year zero to the start of 1970. -/
def epochOffset : Nat := 719468

/-- The year, month and day that are a number of days after the start of 1970. -/
def civilOfDays (days : Int) : Int × Nat × Nat :=
  let shifted := days + epochOffset
  let era := shifted / (daysPerEra : Int)
  let dayOfEra := (shifted % (daysPerEra : Int)).toNat
  let yearOfEra :=
    (dayOfEra - dayOfEra / 1460 + dayOfEra / 36524 - dayOfEra / 146096) / 365
  let dayOfYear := dayOfEra - (365 * yearOfEra + yearOfEra / 4 - yearOfEra / 100)
  let shiftedMonth := (5 * dayOfYear + 2) / 153
  let day := dayOfYear - (153 * shiftedMonth + 2) / 5 + 1
  let month := if shiftedMonth < 10 then shiftedMonth + 3 else shiftedMonth - 9
  let year := era * 400 + yearOfEra + (if month ≤ 2 then 1 else 0)
  (year, month, day)

/-- The days from the start of 1970 to a date. -/
def daysOfCivil (year : Int) (month day : Nat) : Int :=
  let shiftedYear := if month ≤ 2 then year - 1 else year
  let era := shiftedYear / 400
  let yearOfEra := (shiftedYear % 400).toNat
  let shiftedMonth := if month ≤ 2 then month + 9 else month - 3
  let dayOfYear := (153 * shiftedMonth + 2) / 5 + day - 1
  let dayOfEra := 365 * yearOfEra + yearOfEra / 4 - yearOfEra / 100 + dayOfYear
  era * daysPerEra + dayOfEra - epochOffset

/-- The date and time of a timestamp. -/
def ofSeconds (seconds : Int) : DateTime :=
  let (year, month, day) := civilOfDays (seconds / 86400)
  let rest := (seconds % 86400).toNat
  ⟨year, month, day, rest / 3600, rest / 60 % 60, rest % 60⟩

/-- The timestamp of a date and time. -/
def toSeconds (d : DateTime) : Int :=
  daysOfCivil d.year d.month d.day * 86400 + d.hour * 3600 + d.minute * 60 + d.second

/-- The first and the last timestamp that have a date: the start of the year -262143 and the end of
the year 262142. -/
def bounds : Int × Int :=
  (-8334601228800, 8210266876799)

/-- The date and time of a timestamp within bounds. -/
def ofSeconds? (seconds : Int) : Option DateTime :=
  if bounds.1 ≤ seconds ∧ seconds ≤ bounds.2 then some (ofSeconds seconds) else none

/-! ### Writing -/

/-- A number with zeros in front, up to a width. -/
def padded (width : Nat) (n : Nat) : List Char :=
  let ds := Json.decimalChars n
  List.replicate (width - ds.length) '0' ++ ds

/-- A year in four digits or more; outside of four digits it has a sign. -/
def yearChars (year : Int) : List Char :=
  if 0 ≤ year ∧ year ≤ 9999 then padded 4 year.toNat
  else (if year < 0 then '-' else '+') :: padded 4 year.natAbs

/-- The date and the time, each with its parts in order of size. -/
def chars (d : DateTime) : List Char :=
  yearChars d.year ++ '-' :: padded 2 d.month ++ '-' :: padded 2 d.day
    ++ ' ' :: padded 2 d.hour ++ ':' :: padded 2 d.minute ++ ':' :: padded 2 d.second

/-- `chars` as a string. -/
def text (d : DateTime) : String :=
  .ofList d.chars

end DateTime

end PostBlocks
