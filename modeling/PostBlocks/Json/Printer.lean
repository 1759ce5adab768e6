import PostBlocks.Decimal.Shortest
import PostBlocks.Json.Basic

/-!
# Writing JSON

Two layouts of one value: `compact` without any space, and `pretty` with one entry a line and two
spaces of indentation a level, where empty containers stay on their line. Strings keep every
character but quotes, backslashes and control characters. Doubles are written with the fewest
digits that read back, a tie going to the even one: positionally from `1e-5` up to below `1e16`,
with at least one digit after the point, and with a signed exponent outside that range.
-/

namespace PostBlocks.Json

/-! ### Numbers -/

/-- The decimal digits of a natural number. -/
def decimalChars (n : Nat) : List Char :=
  if n < 10 then [Char.ofNat (48 + n)] else decimalChars (n / 10) ++ [Char.ofNat (48 + n % 10)]

/-- An integer in decimal. -/
def integerChars : Int → List Char
  | .ofNat n => decimalChars n
  | .negSucc n => '-' :: decimalChars (n + 1)

/-- The layout of `digits · 10 ^ exponent`, for `0 < digits`. -/
def layoutChars (x : Decimal.Scaled) : List Char :=
  let ds := decimalChars x.digits
  let leading : Int := x.exponent + ds.length - 1
  if -5 ≤ leading ∧ leading < 16 then
    if 0 ≤ x.exponent then ds ++ List.replicate x.exponent.toNat '0' ++ ".0".toList
    else if 0 ≤ leading then
      ds.take (leading.toNat + 1) ++ '.' :: ds.drop (leading.toNat + 1)
    else "0.".toList ++ List.replicate (-leading - 1).toNat '0' ++ ds
  else
    let point := match ds.drop 1 with
      | [] => []
      | tail => '.' :: tail
    ds.take 1 ++ point ++ 'e' :: (if leading < 0 then '-' else '+') :: decimalChars leading.natAbs

/-- A finite double, by its bit pattern. -/
def doubleChars (bits : UInt64) : List Char :=
  let x := Decimal.Dyadic.ofBits bits
  let magnitude := if x.mantissa = 0 then "0.0".toList else layoutChars (Decimal.shortest .toEven x)
  if bits.toNat < 9223372036854775808 then magnitude else '-' :: magnitude

/-- A number. -/
def Number.chars : Number → List Char
  | int i => integerChars i
  | double bits => doubleChars bits

/-! ### Strings -/

/-- A hexadecimal digit, in lower case. -/
def hexDigit (n : Nat) : Char :=
  if n < 10 then Char.ofNat (48 + n) else Char.ofNat (87 + n)

/-- The written form of one character of a string. -/
def stringChar (c : Char) : List Char :=
  if c = '"' then ['\\', '"']
  else if c = '\\' then ['\\', '\\']
  else if c = '\x08' then ['\\', 'b']
  else if c = '\t' then ['\\', 't']
  else if c = '\n' then ['\\', 'n']
  else if c = '\x0c' then ['\\', 'f']
  else if c = '\r' then ['\\', 'r']
  else if c.toNat < 0x20 then
    ['\\', 'u', '0', '0', hexDigit (c.toNat / 16), hexDigit (c.toNat % 16)]
  else [c]

/-- A string in quotes. -/
def quotedChars (s : String) : List Char :=
  '"' :: s.toList.flatMap stringChar ++ ['"']

/-! ### Compact layout -/

mutual

/-- A value without any space. -/
def compactChars : Json → List Char
  | null => "null".toList
  | bool true => "true".toList
  | bool false => "false".toList
  | number n => n.chars
  | string s => quotedChars s
  | array items => '[' :: compactItems items ++ [']']
  | object fs => '{' :: compactFields fs ++ ['}']

/-- Items between commas. -/
def compactItems : List Json → List Char
  | [] => []
  | [v] => v.compactChars
  | v :: vs => v.compactChars ++ ',' :: compactItems vs

/-- Fields between commas. -/
def compactFields : List (String × Json) → List Char
  | [] => []
  | [(k, v)] => quotedChars k ++ ':' :: v.compactChars
  | (k, v) :: fs => quotedChars k ++ ':' :: v.compactChars ++ ',' :: compactFields fs

end

/-- A value without any space, as a string. -/
def compact (v : Json) : String :=
  .ofList v.compactChars

/-! ### Pretty layout -/

/-- The start of a line at a level of nesting. -/
def newLine (level : Nat) : List Char :=
  '\n' :: List.replicate (2 * level) ' '

mutual

/-- A value over several lines, its first line started already. -/
def prettyChars (level : Nat) : Json → List Char
  | array [] => ['[', ']']
  | array (v :: vs) =>
    '[' :: newLine (level + 1) ++ v.prettyChars (level + 1) ++ prettyItems (level + 1) vs
      ++ newLine level ++ [']']
  | object [] => ['{', '}']
  | object ((k, v) :: fs) =>
    '{' :: newLine (level + 1) ++ quotedChars k ++ ':' :: ' ' :: v.prettyChars (level + 1)
      ++ prettyFields (level + 1) fs ++ newLine level ++ ['}']
  | null => "null".toList
  | bool true => "true".toList
  | bool false => "false".toList
  | number n => n.chars
  | string s => quotedChars s

/-- The items after the first, each on a line of its own. -/
def prettyItems (level : Nat) : List Json → List Char
  | [] => []
  | v :: vs => ',' :: newLine level ++ v.prettyChars level ++ prettyItems level vs

/-- The fields after the first, each on a line of its own. -/
def prettyFields (level : Nat) : List (String × Json) → List Char
  | [] => []
  | (k, v) :: fs =>
    ',' :: newLine level ++ quotedChars k ++ ':' :: ' ' :: v.prettyChars level
      ++ prettyFields level fs

end

/-- A value over several lines, as a string. -/
def pretty (v : Json) : String :=
  .ofList (v.prettyChars 0)

end PostBlocks.Json
