import Mathlib.Algebra.BigOperators.Group.Finset.Basic
import Mathlib.Data.Int.Basic
import Mathlib.Tactic.IntervalCases
import PostBlocks.Calendar.DateTime

/-!
# Dates count seconds

How far a date is from the start of 1970 is a matter of counting: the days of the years between, of
the months before, and of the month (`sinceEpoch`). That count needs nothing but the lengths of
years and months. It agrees with the days that are found by division (`daysOfCivil_eq`), and the
date of a timestamp is a date of the calendar that counts that many seconds
(`isValid_ofSeconds`, `sinceEpoch_ofSeconds`).

Division is by years that start in March. Then the leap days of a number of years are a matter of
division alone (`marchDays`), and a day of four hundred years is told by its century, the four years
in that, the year in those and the day in the year (`Place`).
-/

namespace PostBlocks.DateTime

/-! ### Counting -/

/-- The number of days of a year. -/
def daysInYear (year : Int) : Int :=
  if isLeap year then 366 else 365

/-- The days from the start of 1970 to the start of a year: those of the years between, counted
down for a year before 1970. -/
def daysToYear (year : Int) : Int :=
  ∑ i ∈ Finset.range (year - 1970).toNat, daysInYear (1970 + i)
    - ∑ i ∈ Finset.range (1970 - year).toNat, daysInYear (year + i)

/-- The days from the start of a year to the start of one of its months. -/
def daysToMonth (year : Int) (month : Nat) : Nat :=
  ∑ i ∈ Finset.range (month - 1), daysInMonth year (i + 1)

/-- The seconds from the start of 1970 to a date and time. -/
def sinceEpoch (d : DateTime) : Int :=
  (daysToYear d.year + daysToMonth d.year d.month + (d.day - 1)) * 86400
    + d.hour * 3600 + d.minute * 60 + d.second

/-! ### Years -/

/-- The days of a number of years that start in March, the first of them in year zero. -/
def marchDays (years : Int) : Int :=
  365 * years + years / 4 - years / 100 + years / 400

/-- Leap years by division alone, which is what arithmetic can work with. -/
theorem isLeap_iff (year : Int) :
    isLeap year = true ↔ year % 4 = 0 ∧ (year % 100 ≠ 0 ∨ year % 400 = 0) := by
  simp [isLeap]

/-- A year that starts in March ends with the February of the next one. -/
theorem marchDays_succ (years : Int) :
    marchDays (years + 1) = marchDays years + daysInYear (years + 1) := by
  unfold marchDays daysInYear
  split
  · next h =>
    have := (isLeap_iff _).1 h
    omega
  · next h =>
    have := mt (isLeap_iff (years + 1)).2 h
    omega

theorem daysToYear_succ (year : Int) :
    daysToYear (year + 1) = daysToYear year + daysInYear year := by
  unfold daysToYear
  rcases le_or_gt 1970 year with h | h
  · have hcount : (year + 1 - 1970).toNat = (year - 1970).toNat + 1 := by omega
    have hlast : 1970 + ((year - 1970).toNat : Int) = year := by omega
    have hnone : (1970 - year).toNat = 0 ∧ (1970 - (year + 1)).toNat = 0 := by omega
    simp only [hcount, Finset.sum_range_succ, hlast, hnone.1, hnone.2, Finset.sum_range_zero]
    omega
  · have hcount : (1970 - year).toNat = (1970 - (year + 1)).toNat + 1 := by omega
    have hnext (i : Nat) : year + ((i + 1 : Nat) : Int) = year + 1 + i := by omega
    have hnone : (year - 1970).toNat = 0 ∧ (year + 1 - 1970).toNat = 0 := by omega
    simp only [hcount, Finset.sum_range_succ', hnext, hnone.1, hnone.2, Finset.sum_range_zero,
      Nat.cast_zero, add_zero]
    omega

/-- The years from the start of 1970 have the days of as many years that start in March. -/
theorem daysToYear_eq (year : Int) :
    daysToYear year = marchDays (year - 1) + 306 - epochOffset := by
  refine Int.inductionOn' year 1970 ?start (fun year _ ih ↦ ?later) fun year _ ih ↦ ?earlier
  case start => rfl
  case later =>
    have hmarch := marchDays_succ (year - 1)
    rw [Int.sub_add_cancel] at hmarch
    rw [daysToYear_succ, ih, Int.add_sub_cancel, hmarch]
    omega
  case earlier =>
    have hyear := daysToYear_succ (year - 1)
    have hmarch := marchDays_succ (year - 1 - 1)
    rw [Int.sub_add_cancel] at hyear hmarch
    rw [ih, hmarch] at hyear
    omega

/-! ### Days found by division -/

/-- Four hundred years always have the same days, so only the years beyond the last four hundred
count. -/
theorem marchDays_eq (years : Int) :
    marchDays years = years / 400 * daysPerEra
      + (365 * (years % 400).toNat + (years % 400).toNat / 4
        - (years % 400).toNat / 100 : Nat) := by
  unfold marchDays daysPerEra
  omega

theorem daysInMonth_feb (year : Int) :
    (daysInMonth year 2 : Int) = daysInYear year - 337 := by
  unfold daysInMonth daysInYear
  cases isLeap year <;> rfl

/-- The months behind February have thirty and thirty-one days in turns that repeat after five. -/
theorem daysToMonth_eq (year : Int) {month : Nat} (hlow : 1 ≤ month) (hhigh : month ≤ 12) :
    daysToMonth year month
      = if month ≤ 2 then 31 * (month - 1)
        else 31 + daysInMonth year 2 + (153 * (month - 3) + 2) / 5 := by
  unfold daysToMonth
  interval_cases month <;> simp [Finset.sum_range_succ, daysInMonth, Nat.add_assoc]

/-- Days found by division are the days that are counted. -/
theorem daysOfCivil_eq {year : Int} {month day : Nat} (hlow : 1 ≤ month) (hhigh : month ≤ 12)
    (hday : 1 ≤ day) :
    daysOfCivil year month day = daysToYear year + daysToMonth year month + (day - 1) := by
  have hyear := marchDays_succ (year - 1)
  rw [Int.sub_add_cancel] at hyear
  have hfeb := daysInMonth_feb year
  rw [daysToMonth_eq year hlow hhigh, daysToYear_eq]
  have hdays : daysOfCivil year month day
      = marchDays (if month ≤ 2 then year - 1 else year)
        + ((153 * (if month ≤ 2 then month + 9 else month - 3) + 2) / 5 + day - 1 : Nat)
        - epochOffset := by
    rw [marchDays_eq, daysOfCivil]
    push_cast
    omega
  rw [hdays]
  split <;> omega

/-! ### The date of a day -/

/-- A day of four hundred years that start in March, by its place: its century, the four years in
that, the year in those and the day of that year. -/
structure Place where
  century : Nat
  cycle : Nat
  year : Nat
  day : Nat

namespace Place

/-- The years in front of the place. -/
def years (p : Place) : Nat :=
  100 * p.century + 4 * p.cycle + p.year

/-- The days in front of the place. -/
def days (p : Place) : Nat :=
  36524 * p.century + 1461 * p.cycle + 365 * p.year + p.day

/-- The place is one of the four hundred years. Only the last of four years has a leap day, and
where they end a century only the last century has it. -/
structure IsValid (p : Place) : Prop where
  century : p.century < 4
  cycle : p.cycle < 25
  year : p.year < 4
  day : p.day ≤ 365
  leap : p.day = 365 → p.year = 3 ∧ (p.cycle = 24 → p.century = 3)

/-- Every day of four hundred years has a place, found by dividing by the days of a century, of four
years and of a year. The last century and the last year are longer, so these quotients are cut at
three. -/
theorem exists_days_eq {d : Nat} (h : d < daysPerEra) :
    ∃ p : Place, p.IsValid ∧ d = p.days := by
  have hdays : d < 146097 := h
  -- the quotients are cut at three, so that a day at the very end has a place
  obtain ⟨century, rest, hcentury, hrest, hlast, rfl⟩ : ∃ century rest, century < 4 ∧
      rest < 36525 ∧ (rest = 36524 → century = 3) ∧ d = 36524 * century + rest :=
    ⟨min 3 (d / 36524), d - 36524 * min 3 (d / 36524), by omega, by omega, by omega, by omega⟩
  clear h hdays
  obtain ⟨year, day, hyear, hday, hleap, hparts⟩ : ∃ year day, year < 4 ∧ day ≤ 365 ∧
      (day = 365 → year = 3) ∧ rest % 1461 = 365 * year + day :=
    ⟨min 3 (rest % 1461 / 365), rest % 1461 - 365 * min 3 (rest % 1461 / 365),
      by omega, by omega, by omega, by omega⟩
  exact ⟨⟨century, rest / 1461, year, day⟩,
    ⟨hcentury, by dsimp only; omega, hyear, hday, by dsimp only; omega⟩,
    by unfold days; dsimp only; omega⟩

variable {p : Place} (h : p.IsValid)
include h

theorem years_lt : p.years < 400 := by
  obtain ⟨hcentury, hcycle, hyear, -, -⟩ := h
  unfold years
  omega

/-- The year after the one of a leap day is a leap year: the day is in its February. -/
theorem isLeap_of_day_eq (era : Int) (hday : p.day = 365) :
    isLeap (era * 400 + p.years + 1) = true := by
  obtain ⟨hcentury, hcycle, -, -, hleap⟩ := h
  obtain ⟨hyear, hlast⟩ := hleap hday
  rw [isLeap_iff, years, hyear]
  omega

/-- A century has its days but for the last day of the last. -/
theorem days_div_century : p.days / 36524 = p.century + p.days / 146096 := by
  obtain ⟨hcentury, hcycle, hyear, hday, hleap⟩ := h
  have hdays : p.days = 36524 * p.century + (1461 * p.cycle + 365 * p.year + p.day) := by
    unfold days
    omega
  have hrest : 1461 * p.cycle + 365 * p.year + p.day < 36524 ∨
      p.century = 3 ∧ 1461 * p.cycle + 365 * p.year + p.day = 36524 := by
    omega
  clear hcycle hyear hday hleap
  omega

/-- The year is found by division once the leap days are left out. -/
theorem years_eq :
    (p.days - p.days / 1460 + p.days / 36524 - p.days / 146096) / 365 = p.years := by
  have hcenturies := days_div_century h
  obtain ⟨hcentury, hcycle, hyear, hday, hleap⟩ := h
  have hdays : p.days = 36524 * p.century + 1461 * p.cycle + 365 * p.year + p.day := rfl
  generalize p.days = d at *
  have hcycles : d / 1460 = 25 * p.century + p.cycle
      + (24 * p.century + p.cycle + 365 * p.year + p.day) / 1460 := by
    omega
  unfold years
  omega

theorem days_eq : p.days = 365 * p.years + p.years / 4 - p.years / 100 + p.day := by
  obtain ⟨hcentury, hcycle, hyear, -, -⟩ := h
  unfold days years
  omega

end Place

/-- Within a year that starts in March, a day is told by its month, the months from March on, and
its day of the month. -/
theorem month_day {dayOfYear : Nat} (h : dayOfYear ≤ 365) :
    (5 * dayOfYear + 2) / 153 ≤ 11 ∧
      (153 * ((5 * dayOfYear + 2) / 153) + 2) / 5 ≤ dayOfYear ∧
      dayOfYear < (153 * ((5 * dayOfYear + 2) / 153 + 1) + 2) / 5 := by
  omega

/-- The date of a day by its place, for the month counted from March. -/
theorem exists_civilOfDays_eq (days : Int) : ∃ (era : Int) (p : Place) (m : Nat), p.IsValid ∧
    days = era * daysPerEra + p.days - epochOffset ∧
    m ≤ 11 ∧ (153 * m + 2) / 5 ≤ p.day ∧ p.day < (153 * (m + 1) + 2) / 5 ∧
    civilOfDays days = (era * 400 + p.years + (if m < 10 then 0 else 1),
      if m < 10 then m + 3 else m - 9, p.day - (153 * m + 2) / 5 + 1) := by
  have hdays : ((days + epochOffset) % (daysPerEra : Int)).toNat < daysPerEra := by
    unfold daysPerEra
    omega
  obtain ⟨p, hp, hplace⟩ := Place.exists_days_eq hdays
  obtain ⟨hm, hlow, hhigh⟩ := month_day hp.day
  refine ⟨(days + epochOffset) / (daysPerEra : Int), p, (5 * p.day + 2) / 153, hp, ?_,
    hm, hlow, hhigh, ?_⟩
  · rw [← hplace]
    unfold daysPerEra
    omega
  · have hday : p.days - (365 * p.years + p.years / 4 - p.years / 100) = p.day := by
      have := Place.days_eq hp
      omega
    unfold civilOfDays
    simp only [hplace, Place.years_eq hp, hday]
    congr 2
    split <;> split <;> omega

/-- The month of a day of the year has that day. -/
theorem le_daysInMonth {year : Int} {m day : Nat} (hm : m ≤ 11) (hday : day ≤ 365)
    (hhigh : day < (153 * (m + 1) + 2) / 5) (hleap : day = 365 → isLeap year = true) :
    day - (153 * m + 2) / 5 + 1
      ≤ daysInMonth year (if m < 10 then m + 3 else m - 9) := by
  rcases Nat.lt_or_eq_of_le hm with hm | rfl
  · interval_cases m <;> simp [daysInMonth] <;> omega
  · -- February is the last month of the year.
    change day - 337 + 1 ≤ if isLeap year then 29 else 28
    split
    · omega
    · have := mt hleap ‹_›
      omega

/-- Every day has a date of the calendar, and that date is so many days from the start of 1970. -/
theorem civilOfDays_spec {days year : Int} {month day : Nat}
    (h : civilOfDays days = (year, month, day)) :
    1 ≤ month ∧ month ≤ 12 ∧ 1 ≤ day ∧ day ≤ daysInMonth year month ∧
      daysOfCivil year month day = days := by
  obtain ⟨era, p, m, hp, rfl, hm, hlow, hhigh, heq⟩ := exists_civilOfDays_eq days
  rw [heq, Prod.mk.injEq, Prod.mk.injEq] at h
  obtain ⟨rfl, rfl, rfl⟩ := h
  refine ⟨by split <;> omega, by split <;> omega, by omega, ?valid, ?back⟩
  case valid =>
    refine le_daysInMonth hm hp.day hhigh fun hday ↦ ?_
    have hlast : ¬m < 10 := by omega
    rw [if_neg hlast]
    exact Place.isLeap_of_day_eq hp era hday
  case back =>
    have hyears := Place.years_lt hp
    have hera : (era * 400 + p.years) / 400 = era := by omega
    have hyear : ((era * 400 + p.years) % 400).toNat = p.years := by omega
    have hday : (153 * m + 2) / 5 + (p.day - (153 * m + 2) / 5 + 1) - 1 = p.day := by omega
    rw [Place.days_eq hp]
    unfold daysOfCivil
    -- January and February belong to the year before, counted from March
    rcases Nat.lt_or_ge m 10 with hten | hten
    · have hmonth : ¬m + 3 ≤ 2 := by omega
      simp only [if_pos hten, if_neg hmonth, Int.add_zero, Nat.add_sub_cancel, hera, hyear, hday]
    · have hmonth : m - 9 ≤ 2 := by omega
      simp only [if_neg (Nat.not_lt.2 hten), if_pos hmonth, Int.add_sub_cancel,
        Nat.sub_add_cancel (show 9 ≤ m by omega), hera, hyear, hday]

/-! ### The date of a timestamp -/

theorem isValid_ofSeconds (seconds : Int) : (ofSeconds seconds).IsValid := by
  rcases h : civilOfDays (seconds / 86400) with ⟨year, month, day⟩
  obtain ⟨hmonth, hyear, hday, hlength, -⟩ := civilOfDays_spec h
  rw [ofSeconds, h]
  exact ⟨hmonth, hyear, hday, hlength, by dsimp only; omega, by dsimp only; omega,
    by dsimp only; omega⟩

/-- The count agrees with the seconds that are found by division. -/
theorem sinceEpoch_eq_toSeconds {d : DateTime} (h : d.IsValid) : d.sinceEpoch = d.toSeconds := by
  rw [sinceEpoch, toSeconds, daysOfCivil_eq h.1 h.2.1 h.2.2.1]

/-- The date of a timestamp is as many seconds from the start of 1970 as the timestamp says. -/
theorem sinceEpoch_ofSeconds (seconds : Int) : (ofSeconds seconds).sinceEpoch = seconds := by
  rw [sinceEpoch_eq_toSeconds (isValid_ofSeconds seconds)]
  rcases h : civilOfDays (seconds / 86400) with ⟨year, month, day⟩
  obtain ⟨-, -, -, -, hdays⟩ := civilOfDays_spec h
  rw [toSeconds, ofSeconds, h]
  simp only [hdays]
  omega

example : ofSeconds 951782400 = ⟨2000, 2, 29, 0, 0, 0⟩ := by decide

/-- The bounds of timestamps are the first second of a year and the last of another. -/
theorem bounds_eq :
    bounds = (sinceEpoch ⟨-262143, 1, 1, 0, 0, 0⟩, sinceEpoch ⟨262142, 12, 31, 23, 59, 59⟩) := by
  rw [sinceEpoch_eq_toSeconds (by decide), sinceEpoch_eq_toSeconds (by decide)]
  rfl

end PostBlocks.DateTime
