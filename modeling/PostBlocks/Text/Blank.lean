/-!
# Blank characters and the ends of a text

Texts are lists of characters, one entry per Unicode scalar value. A character is *blank* when it
has the Unicode property `White_Space`; the table is written out, because the character classes
of the core library stop at ASCII.

* `after? lead cs` — what follows `lead` in a text that starts with it;
* `skipBlank? cs` — what follows a run of at least one blank character;
* `trim cs` — the text without the blank characters at its ends;
* `byteSize cs` — the length of the text in UTF-8, the unit of every reported offset.
-/

namespace PostBlocks.Text

/-- A character is blank when it has the Unicode property `White_Space`. -/
def isBlank (c : Char) : Bool :=
  let n := c.toNat
  (9 ≤ n && n ≤ 13) || n == 0x20 || n == 0x85 || n == 0xA0 || n == 0x1680
    || (0x2000 ≤ n && n ≤ 0x200A) || n == 0x2028 || n == 0x2029 || n == 0x202F
    || n == 0x205F || n == 0x3000

/-- What follows `lead` in a text that starts with `lead`. -/
def after? : (lead cs : List Char) → Option (List Char)
  | [], cs => some cs
  | l :: ls, c :: cs => if l = c then after? ls cs else none
  | _ :: _, [] => none

/-- A text has something after `lead` exactly when it is `lead` with that something appended. -/
theorem after?_eq_some_iff {lead cs rest : List Char} :
    after? lead cs = some rest ↔ cs = lead ++ rest := by
  induction lead generalizing cs with
  | nil => simp [after?]
  | cons l ls ih =>
    cases cs with
    | nil => simp [after?]
    | cons c cs =>
      by_cases h : l = c
      · simp [after?, h, ih]
      · simp [after?, h, Ne.symm h]

/-- What follows the blank characters at the front of a text that starts with one. -/
def skipBlank? : List Char → Option (List Char)
  | [] => none
  | c :: cs => if isBlank c then some (cs.dropWhile isBlank) else none

/-- One blank character is required, and all that follow it are skipped as well. -/
theorem skipBlank?_eq_some_iff {cs rest : List Char} : skipBlank? cs = some rest ↔
    ∃ c ds, cs = c :: ds ∧ isBlank c = true ∧ ds.dropWhile isBlank = rest := by
  constructor
  · intro h
    cases cs with
    | nil => cases h
    | cons c ds =>
      rw [skipBlank?, Option.ite_none_right_eq_some, Option.some.injEq] at h
      exact ⟨c, ds, rfl, h⟩
  · rintro ⟨c, ds, rfl, hc, rfl⟩
    rw [skipBlank?, if_pos hc]

/-- The text without the blank characters at its end. -/
def trimEnd (cs : List Char) : List Char :=
  (cs.reverse.dropWhile isBlank).reverse

/-- The text without the blank characters at its two ends. -/
def trim (cs : List Char) : List Char :=
  trimEnd (cs.dropWhile isBlank)

/-- The length of a text in UTF-8. -/
def byteSize : List Char → Nat
  | [] => 0
  | c :: cs => c.utf8Size + byteSize cs

@[simp]
theorem byteSize_nil : byteSize [] = 0 :=
  rfl

@[simp]
theorem byteSize_cons (c : Char) (cs : List Char) :
    byteSize (c :: cs) = c.utf8Size + byteSize cs :=
  rfl

/-- Offsets add up over the parts of a text. -/
@[simp]
theorem byteSize_append (cs ds : List Char) : byteSize (cs ++ ds) = byteSize cs + byteSize ds := by
  induction cs with
  | nil => simp
  | cons c cs ih => simp [ih, Nat.add_assoc]

end PostBlocks.Text
