/-!
# JSON numbers

A number is an integer or a double, kept apart as they are written: `1` and `1.0` are different
numbers. Integers are those of a signed or an unsigned 64-bit word. A double is kept as its 64-bit
pattern, so that two numbers are equal exactly when they print alike.

A written number without fraction and exponent is an integer if a word holds it. Every other one is
a double, read as follows: its digits form a significand as long as that fits into an unsigned
word, further digits before the point count into the exponent and further ones behind it are
dropped; then the double nearest to the significand is multiplied by, or divided by, the double
nearest to the power of ten. The result is not always the nearest double, and that is the rule.
-/

namespace PostBlocks.Json

/-- A number: an integer, or a double by its bit pattern. -/
inductive Number where
  | int (value : Int)
  | double (bits : UInt64)
deriving DecidableEq, Repr, Inhabited

namespace Number

/-- Integers that fit into a signed or an unsigned 64-bit word. -/
def IsWord (i : Int) : Prop :=
  -9223372036854775808 ≤ i ∧ i < 18446744073709551616

instance (i : Int) : Decidable (IsWord i) :=
  inferInstanceAs (Decidable (_ ∧ _))

/-- The number as an unsigned 64-bit word. -/
def unsigned? : Number → Option Nat
  | int i => if 0 ≤ i ∧ i < 18446744073709551616 then some i.toNat else none
  | double _ => none

/-- The number as a signed 64-bit word. -/
def signed? : Number → Option Int
  | int i => if -9223372036854775808 ≤ i ∧ i < 9223372036854775808 then some i else none
  | double _ => none

/-- Equality of values: doubles compare as numbers, so the two zeros are equal. -/
def same : Number → Number → Bool
  | int i, int j => i == j
  | double a, double b => Float.ofBits a == Float.ofBits b
  | _, _ => false

end Number

/-! ### Decimal scaling -/

/-- The double nearest to a power of ten. -/
def powerOfTen (n : Nat) : Float :=
  Float.ofScientific 1 false n

/-- A double times a power of ten, in steps of at most 308 places; `none` where the result is too
large for a double. -/
def scale? (f : Float) (places : Int) : Option Float :=
  if places.natAbs ≤ 308 then
    if 0 ≤ places then
      let g := f * powerOfTen places.natAbs
      if g.isInf then none else some g
    else some (f / powerOfTen places.natAbs)
  else if f == 0.0 then some f
  else if 0 ≤ places then none
  else scale? (f / powerOfTen 308) (places + 308)
termination_by places.natAbs

/-! ### Written numbers -/

/-- The parts of a written number, digits as values. -/
structure Numeral where
  negative : Bool
  whole : List Nat
  fraction : List Nat
  /-- The sign of the exponent and its digits. -/
  exponent : Option (Bool × List Nat)
deriving DecidableEq, Repr, Inhabited

/-- The value of an ASCII digit. -/
def digitValue (c : Char) : Nat :=
  c.toNat - '0'.toNat

/-- The digits at the front of a text, and what follows them. -/
def takeDigits (cs : List Char) : List Nat × List Char :=
  ((cs.takeWhile Char.isDigit).map digitValue, cs.dropWhile Char.isDigit)

/-- At least one digit. -/
def takeDigits? (cs : List Char) : Option (List Nat × List Char) :=
  match takeDigits cs with
  | ([], _) => none
  | (ds, rest) => some (ds, rest)

namespace Numeral

/-- The whole part: `0`, or digits that do not start with it. -/
def takeWhole? (cs : List Char) : Option (List Nat × List Char) :=
  match takeDigits cs with
  | ([], _) => none
  | (0 :: _ :: _, _) => none
  | (ds, rest) => some (ds, rest)

/-- The fraction, if there is a point; a point needs a digit after it. -/
def takeFraction? : List Char → Option (List Nat × List Char)
  | '.' :: cs => takeDigits? cs
  | cs => some ([], cs)

/-- The sign of an exponent. -/
def takeSign : List Char → Bool × List Char
  | '-' :: cs => (true, cs)
  | '+' :: cs => (false, cs)
  | cs => (false, cs)

/-- The exponent, if there is one; it needs a digit. -/
def takeExponent? (cs : List Char) : Option (Option (Bool × List Nat) × List Char) :=
  match cs with
  | [] => some (none, [])
  | c :: rest =>
    if c = 'e' ∨ c = 'E' then
      let (negative, rest) := takeSign rest
      (takeDigits? rest).map fun (ds, rest) ↦ (some (negative, ds), rest)
    else some (none, cs)

/-- The number at the front of a text, and what follows it. -/
def take? (cs : List Char) : Option (Numeral × List Char) := do
  let (negative, cs) := match cs with
    | '-' :: cs => (true, cs)
    | cs => (false, cs)
  let (whole, cs) ← takeWhole? cs
  let (fraction, cs) ← takeFraction? cs
  let (exponent, cs) ← takeExponent? cs
  return (⟨negative, whole, fraction, exponent⟩, cs)

/-- The value of a run of digits. -/
def ofDigits (ds : List Nat) : Nat :=
  ds.foldl (fun n d ↦ 10 * n + d) 0

/-- Appends digits to a significand while an unsigned 64-bit word holds it; the digits that did
not fit come second. -/
def gather (significand : Nat) : List Nat → Nat × List Nat
  | [] => (significand, [])
  | d :: ds =>
    if 10 * significand + d < 18446744073709551616 then gather (10 * significand + d) ds
    else (significand, d :: ds)

/-- The magnitude of a number that is read as a double. -/
def magnitude? (n : Numeral) : Option Float :=
  let (head, beyond) := gather 0 n.whole
  let (significand, dropped) := gather head n.fraction
  let places : Int := beyond.length - (n.fraction.length - dropped.length : Nat)
  match n.exponent with
  | none => scale? significand.toUInt64.toFloat places
  | some (negative, ds) =>
    let e := ofDigits ds
    if e < 2147483648 then
      scale? significand.toUInt64.toFloat (if negative then places - e else places + e)
    else if significand ≠ 0 ∧ ¬ negative then none
    else some 0.0

/-- The value of a written number; `none` where it is too large for a double. -/
def value? (n : Numeral) : Option Number :=
  let i := ofDigits n.whole
  let isWhole := n.fraction.isEmpty && n.exponent.isNone
  if isWhole ∧ ¬ n.negative ∧ i < 18446744073709551616 then some (.int i)
  else if isWhole ∧ n.negative ∧ 0 < i ∧ i ≤ 9223372036854775808 then some (.int (-i))
  else n.magnitude?.map fun f ↦ .double (if n.negative then -f else f).toBits

end Numeral

end PostBlocks.Json
