import PostBlocks.Proofs.Json.Numeral
import PostBlocks.Toml.Moment

/-!
# Written dates read back

A date is written with its year in four digits, or with a sign and as many digits as it takes, and
with two digits for every other part. Reading goes by these widths and the separators (`ofChars?`),
and it gives back each date that was written (`ofChars?_chars`): a year with a sign ends at the
hyphen behind its digits.
-/

namespace PostBlocks.DateTime

/-! ### Reading -/

/-- A year: four digits, or a sign and digits. -/
def takeYear? : List Char → Option (Int × List Char)
  | [] => none
  | c :: cs =>
    if c = '-' then
      (Json.takeDigits? cs).map fun read ↦ (-(Json.Numeral.ofDigits read.1 : Int), read.2)
    else if c = '+' then
      (Json.takeDigits? cs).map fun read ↦ ((Json.Numeral.ofDigits read.1 : Int), read.2)
    else (Toml.takeFixed? 4 (c :: cs)).map fun read ↦ ((read.1 : Int), read.2)

/-- A number of two digits behind a separator. -/
def takePart? (separator : Char) (cs : List Char) : Option (Nat × List Char) :=
  (Text.after? [separator] cs).bind (Toml.takeFixed? 2)

/-- The date and time that a text is, as a whole. -/
def ofChars? (cs : List Char) : Option DateTime := do
  let (year, cs) ← takeYear? cs
  let (month, cs) ← takePart? '-' cs
  let (day, cs) ← takePart? '-' cs
  let (hour, cs) ← takePart? ' ' cs
  let (minute, cs) ← takePart? ':' cs
  let (second, cs) ← takePart? ':' cs
  if cs = [] then some ⟨year, month, day, hour, minute, second⟩ else none

/-! ### Numbers of a width -/

section

variable {width n : Nat}

theorem isDigit_of_mem_padded {c : Char} (h : c ∈ padded width n) : c.isDigit = true := by
  rcases List.mem_append.1 h with h | h
  · rw [List.eq_of_mem_replicate h]
    rfl
  · exact Json.isDigit_of_mem_decimalChars h

theorem padded_ne_nil (width n : Nat) : padded width n ≠ [] :=
  List.append_ne_nil_of_right_ne_nil _ (Json.decimalChars_ne_nil n)

/-- The zeros in front do not change the number. -/
theorem ofDigits_padded : Json.Numeral.ofDigits ((padded width n).map Json.digitValue) = n := by
  simp only [padded, List.map_append, List.map_replicate]
  exact (Json.ofDigits_zeros_append _ _).trans (Json.ofDigits_decimalChars n)

/-- A number that fits the width is written with exactly that many digits. One that does not is
written longer, so the bound is needed. -/
theorem length_padded (hwidth : 0 < width) (h : n < 10 ^ width) :
    (padded width n).length = width := by
  have := Json.length_decimalChars_le hwidth h
  simp only [padded, List.length_append, List.length_replicate]
  omega

/-- A field of a fixed width is read back whatever follows, even another digit. -/
theorem takeFixed?_padded (hwidth : 0 < width) (h : n < 10 ^ width) (rest : List Char) :
    Toml.takeFixed? width (padded width n ++ rest) = some (n, rest) := by
  have hlength := length_padded hwidth h
  have hall : (padded width n).all Char.isDigit = true :=
    List.all_eq_true.2 fun c hc ↦ isDigit_of_mem_padded hc
  have hvalue : Toml.ofDigits 10 ((padded width n).map Json.digitValue) = n := ofDigits_padded
  simp only [Toml.takeFixed?, List.take_left' hlength, List.drop_left' hlength, hlength, hall,
    hvalue, and_self, if_true]

/-- The parts of a date behind its year have two digits each. -/
theorem takePart?_padded (h : n < 100) (separator : Char) (rest : List Char) :
    takePart? separator (separator :: (padded 2 n ++ rest)) = some (n, rest) := by
  have hafter : Text.after? [separator] (separator :: (padded 2 n ++ rest))
      = some (padded 2 n ++ rest) := Text.after?_eq_some_iff.2 rfl
  rw [takePart?, hafter, Option.bind_some, takeFixed?_padded (by decide) h]

end

/-! ### Dates -/

/-- The year ends where its digits do. -/
theorem takeYear?_yearChars (year : Int) (rest : List Char)
    (hr : ∀ c ∈ rest.head?, c.isDigit = false) :
    takeYear? (yearChars year ++ rest) = some (year, rest) := by
  have hsigned : Json.takeDigits? (padded 4 year.natAbs ++ rest)
      = some ((padded 4 year.natAbs).map Json.digitValue, rest) :=
    Json.takeDigits?_append (fun c hc ↦ isDigit_of_mem_padded hc) (padded_ne_nil _ _) hr
  unfold yearChars
  split
  · next hrange =>
    -- four digits, the first of which is no sign
    have hunsigned := takeFixed?_padded (by decide) (show year.toNat < 10 ^ 4 by omega) rest
    obtain ⟨c, cs, hcs⟩ := List.exists_cons_of_ne_nil (padded_ne_nil 4 year.toNat)
    have hc : c.isDigit = true := isDigit_of_mem_padded (hcs ▸ List.mem_cons_self)
    have hminus : c ≠ '-' := by rintro rfl; cases hc
    have hplus : c ≠ '+' := by rintro rfl; cases hc
    rw [hcs, List.cons_append] at hunsigned ⊢
    rw [takeYear?, if_neg hminus, if_neg hplus, hunsigned, Option.map_some,
      Int.toNat_of_nonneg hrange.1]
  · rw [List.cons_append, takeYear?, hsigned]
    simp only [Option.map_some, ofDigits_padded]
    split
    · next hneg =>
      rw [if_pos rfl]
      congr 2
      omega
    · next hnonneg =>
      rw [if_neg (by decide), if_pos rfl]
      congr 2
      omega

/-- So a day fits two digits. -/
theorem daysInMonth_le (year : Int) (month : Nat) : daysInMonth year month ≤ 31 := by
  unfold daysInMonth
  split
  · split <;> decide
  · split <;> decide

/-- A written date is read back. -/
theorem ofChars?_chars {d : DateTime} (h : d.IsValid) : ofChars? d.chars = some d := by
  obtain ⟨-, hmonth, -, hday, hhour, hminute, hsecond⟩ := h
  have hlength := daysInMonth_le d.year d.month
  have hyear := takeYear?_yearChars d.year ('-' :: (padded 2 d.month ++ '-' :: (padded 2 d.day
      ++ ' ' :: (padded 2 d.hour ++ ':' :: (padded 2 d.minute
        ++ ':' :: (padded 2 d.second ++ [])))))) (by rintro c ⟨⟩; rfl)
  have hchars : d.chars = yearChars d.year ++ '-' :: (padded 2 d.month ++ '-' :: (padded 2 d.day
      ++ ' ' :: (padded 2 d.hour ++ ':' :: (padded 2 d.minute
        ++ ':' :: (padded 2 d.second ++ []))))) := by
    simp [chars]
  rw [hchars, ofChars?, hyear]
  simp only [Option.bind_eq_bind, Option.bind_some,
    takePart?_padded (show d.month < 100 by omega), takePart?_padded (show d.day < 100 by omega),
    takePart?_padded (show d.hour < 100 by omega), takePart?_padded (show d.minute < 100 by omega),
    takePart?_padded (show d.second < 100 by omega), if_true]

end PostBlocks.DateTime
