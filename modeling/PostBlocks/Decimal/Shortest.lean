/-!
# The shortest decimal of a double

A finite double is `m · 2 ^ q`. The decimals that read back as it are those in an interval around
it, half-way to its two neighbours; the ends belong to the interval when `m` is even. `shortest`
looks for a decimal `d · 10 ^ k` in that interval with as few digits as possible: for each number of
digits, from one up, it tests the two decimals next to the double and takes the nearer one if both
read back. Seventeen digits are always enough. Of two decimals that are equally near either may be
asked for, the even one or the larger: printers do not agree on this.

All arithmetic is exact, on natural numbers.
-/

namespace PostBlocks.Decimal

/-- The magnitude `mantissa · 2 ^ exponent`. -/
structure Dyadic where
  mantissa : Nat
  exponent : Int
deriving DecidableEq, Repr

/-- The magnitude `digits · 10 ^ exponent`. -/
structure Scaled where
  digits : Nat
  exponent : Int
deriving DecidableEq, Repr, Inhabited

/-- What to take of two decimals that are equally near. -/
inductive Tie where
  | toEven
  | up
deriving DecidableEq, Repr, Inhabited

/-- A tie between `d` and `d + 1` goes to `d`. -/
def Tie.goesDown (t : Tie) (d : Nat) : Bool :=
  match t with
  | toEven => d % 2 == 0
  | up => false

namespace Dyadic

/-- The leading bit of a mantissa, which is not stored. -/
def hidden : Nat := 4503599627370496

/-- The magnitude of a finite double. -/
def ofBits (bits : UInt64) : Dyadic :=
  let fraction : Nat := bits.toNat % hidden
  let biased : Nat := bits.toNat / hidden % 2048
  if biased = 0 then ⟨fraction, -1074⟩ else ⟨fraction + hidden, (biased : Int) - 1075⟩

/-- A quarter of the last binary place, in which half-way points are whole: the lower end of the
interval, the value and the upper end, to be scaled by `2 ^ (exponent - 2)`. The neighbour below a
power of two is nearer. -/
def quarters (x : Dyadic) : Nat × Nat × Nat :=
  let below := if x.mantissa = hidden ∧ -1074 < x.exponent then 1 else 2
  (4 * x.mantissa - below, 4 * x.mantissa, 4 * x.mantissa + 2)

end Dyadic

/-- Two numbers `a · 2 ^ s` and `d · 10 ^ k` on a common scale. -/
def onScale (a : Nat) (s : Int) (d : Nat) (k : Int) : Nat × Nat :=
  (a * Nat.pow 2 s.toNat * Nat.pow 10 (-k).toNat, d * Nat.pow 10 k.toNat * Nat.pow 2 (-s).toNat)

/-- The number of decimal digits. -/
def digitCount (n : Nat) : Nat :=
  (Nat.toDigits 10 n).length

/-- The exponent of ten of the leading digit of `a · 2 ^ s`, for `0 < a`. -/
def leadingExponent (a : Nat) (s : Int) : Int :=
  let numerator := a * Nat.pow 2 s.toNat
  let denominator := Nat.pow 2 (-s).toNat
  let guess : Int := digitCount numerator - digitCount denominator
  let (x, y) := onScale a s 1 guess
  if y ≤ x then guess else guess - 1

/-- The decimal with last place `10 ^ k` that reads back as `x`, the nearer one of two. -/
def onGrid? (tie : Tie) (x : Dyadic) (k : Int) : Option Scaled :=
  let s := x.exponent - 2
  let (low, value, high) := x.quarters
  let inside (d : Nat) : Bool :=
    let (l, y) := onScale low s d k
    let (h, _) := onScale high s d k
    if x.mantissa % 2 = 0 then l ≤ y && y ≤ h else l < y && y < h
  let (v, one) := onScale value s 1 k
  let d := v / one
  let past := v % one
  match inside d, inside (d + 1) with
  | false, false => none
  | true, false => some ⟨d, k⟩
  | false, true => some ⟨d + 1, k⟩
  | true, true =>
    if 2 * past < one ∨ (2 * past = one ∧ tie.goesDown d) then some ⟨d, k⟩ else some ⟨d + 1, k⟩

/-- The first of the grids with `count` digits, then one more, and so on, that has a decimal. -/
def firstOnGrid (tie : Tie) (x : Dyadic) (leading : Int) : (count fuel : Nat) → Scaled
  | _, 0 => ⟨0, 0⟩
  | count, fuel + 1 =>
    (onGrid? tie x (leading - count + 1)).getD (firstOnGrid tie x leading (count + 1) fuel)

/-- Without its trailing zeros. -/
def Scaled.trim (x : Scaled) : (fuel : Nat) → Scaled
  | 0 => x
  | fuel + 1 =>
    if x.digits ≠ 0 ∧ x.digits % 10 = 0 then Scaled.trim ⟨x.digits / 10, x.exponent + 1⟩ fuel
    else x

/-- The decimal of fewest digits that reads back as `x`, nearest to it among those. -/
def shortest (tie : Tie) (x : Dyadic) : Scaled :=
  (firstOnGrid tie x (leadingExponent (4 * x.mantissa) (x.exponent - 2)) 1 17).trim 18

end PostBlocks.Decimal
