import PostBlocks.Json.Token
import PostBlocks.Toml.Moment

/-!
# TOML scalars

Strings, numbers, booleans and moments of TOML, each read from the front of a text. Strings come in
four kinds: in double quotes with escapes or in single quotes without, on one line or, in three
quotes, on several, where each line end counts as a line feed. Integers are signed 64-bit words. The
values are those of JSON; the value of a date or time is its text.
-/

namespace PostBlocks.Toml

/-- Space and tab, the blanks inside a line. -/
def isSpace (c : Char) : Bool :=
  c == ' ' || c == '\t'

/-- A character that may stand in a string or a comment as it is. -/
def isPlain (c : Char) : Bool :=
  c == '\t' || (0x20 ≤ c.toNat && c.toNat != 0x7F)

/-! ### Strings -/

/-- The character that hexadecimal digits name. -/
def scalar? (digits : List Char) : Option Char := do
  let n ← digits.foldlM (fun n c ↦ (Json.hexValue? c).map (16 * n + ·)) 0
  if n.isValidChar then some (Char.ofNat n) else none

/-- What an escape with a letter stands for. -/
def escaped? : Char → Option Char
  | '"' => some '"'
  | '\\' => some '\\'
  | 'b' => some '\x08'
  | 'f' => some '\x0c'
  | 'n' => some '\n'
  | 'r' => some '\r'
  | 't' => some '\t'
  | _ => none

/-- Puts a character in front of a string that has been read. -/
def push (c : Char) (s : List Char × List Char) : List Char × List Char :=
  (c :: s.1, s.2)

/-- The rest of a string in double quotes, and what follows it. -/
def takeBasic? : List Char → Option (List Char × List Char)
  | '"' :: cs => some ([], cs)
  | '\\' :: 'u' :: a :: b :: c :: d :: cs => do
    return push (← scalar? [a, b, c, d]) (← takeBasic? cs)
  | '\\' :: 'U' :: a :: b :: c :: d :: e :: f :: g :: h :: cs => do
    return push (← scalar? [a, b, c, d, e, f, g, h]) (← takeBasic? cs)
  | '\\' :: e :: cs => do return push (← escaped? e) (← takeBasic? cs)
  | c :: cs => if isPlain c then (takeBasic? cs).map (push c) else none
  | [] => none

/-- The rest of a string in single quotes, and what follows it. -/
def takeLiteral? : List Char → Option (List Char × List Char)
  | '\'' :: cs => some ([], cs)
  | c :: cs => if isPlain c then (takeLiteral? cs).map (push c) else none
  | [] => none

/-- A line ends here, after blanks at most. -/
def endsLine (cs : List Char) : Bool :=
  match cs.dropWhile isSpace with
  | '\n' :: _ => true
  | '\r' :: '\n' :: _ => true
  | _ => false

/-- The rest of a string in three double quotes, and what follows it. Up to two more quotes may
stand at its end. A backslash at the end of a line drops the blanks and line ends after it, as long
as `dropping` holds. -/
def takeBasicLines? (dropping : Bool) : List Char → Option (List Char × List Char)
  | '"' :: '"' :: '"' :: '"' :: '"' :: cs => some (['"', '"'], cs)
  | '"' :: '"' :: '"' :: '"' :: cs => some (['"'], cs)
  | '"' :: '"' :: '"' :: cs => some ([], cs)
  | '\\' :: 'u' :: a :: b :: c :: d :: cs => do
    return push (← scalar? [a, b, c, d]) (← takeBasicLines? false cs)
  | '\\' :: 'U' :: a :: b :: c :: d :: e :: f :: g :: h :: cs => do
    return push (← scalar? [a, b, c, d, e, f, g, h]) (← takeBasicLines? false cs)
  | '\\' :: e :: cs =>
    if endsLine (e :: cs) then takeBasicLines? true (e :: cs)
    else do return push (← escaped? e) (← takeBasicLines? false cs)
  | '\r' :: '\n' :: cs =>
    if dropping then takeBasicLines? true cs else (takeBasicLines? false cs).map (push '\n')
  | c :: cs =>
    if dropping && (isSpace c || c == '\n') then takeBasicLines? true cs
    else if isPlain c || c == '\n' then (takeBasicLines? false cs).map (push c)
    else none
  | [] => none

/-- The rest of a string in three single quotes, and what follows it. -/
def takeLiteralLines? : List Char → Option (List Char × List Char)
  | '\'' :: '\'' :: '\'' :: '\'' :: '\'' :: cs => some (['\'', '\''], cs)
  | '\'' :: '\'' :: '\'' :: '\'' :: cs => some (['\''], cs)
  | '\'' :: '\'' :: '\'' :: cs => some ([], cs)
  | '\r' :: '\n' :: cs => (takeLiteralLines? cs).map (push '\n')
  | c :: cs => if isPlain c || c == '\n' then (takeLiteralLines? cs).map (push c) else none
  | [] => none

/-- A line end right after three opening quotes is no part of the string. -/
def dropLineEnd : List Char → List Char
  | '\n' :: cs => cs
  | '\r' :: '\n' :: cs => cs
  | cs => cs

/-- The string at the front of a text, and what follows it. -/
def takeString? : List Char → Option (List Char × List Char)
  | '"' :: '"' :: '"' :: cs => takeBasicLines? false (dropLineEnd cs)
  | '"' :: cs => takeBasic? cs
  | '\'' :: '\'' :: '\'' :: cs => takeLiteralLines? (dropLineEnd cs)
  | '\'' :: cs => takeLiteral? cs
  | _ => none

/-! ### Numbers and booleans -/

/-- Digits of a base, with low lines between them. -/
def digits? (base : Nat) (cs : List Char) : Option (List Nat) :=
  let parts := cs.splitOn '_'
  if parts.any List.isEmpty then none
  else parts.flatten.mapM fun c ↦ (Json.hexValue? c).filter (· < base)

/-- Decimal digits that do not start with a zero they do not need. -/
def wholeDigits? (cs : List Char) : Option (List Nat) :=
  match digits? 10 cs with
  | some (0 :: _ :: _) => none
  | ds => ds

/-- An integer, if a signed 64-bit word holds it. -/
def word? (i : Int) : Option Json :=
  if -9223372036854775808 ≤ i ∧ i < 9223372036854775808 then some (.int i) else none

/-- The sign in front of a number. -/
def takeSign : List Char → Bool × List Char
  | '-' :: cs => (true, cs)
  | '+' :: cs => (false, cs)
  | cs => (false, cs)

/-- The double nearest to the magnitude that digits with a power of ten name. Those beyond the
largest double are infinite, and those far below the smallest are zero whatever their digits. -/
def magnitudeOf (digits : List Nat) (exponent : Int) : Float :=
  let n := ofDigits 10 digits
  let size : Int := Decimal.digitCount n + exponent
  if n = 0 ∨ size < -400 then 0.0
  else if 400 < size then 1.0 / 0.0
  else Float.ofScientific n (exponent < 0) exponent.natAbs

/-- The double of such a magnitude with a sign. One that is too large is refused, one that is too
small is negative infinity. -/
def doubleOf? (negative : Bool) (digits : List Nat) (exponent : Int) : Option Json :=
  let f := magnitudeOf digits exponent
  if negative then some (.number (.double (-f).toBits))
  else if f.isInf then none
  else some (.number (.double f.toBits))

/-- A decimal number: an integer, or a double if there is a point or an exponent. -/
def decimal? (cs : List Char) : Option Json := do
  let (negative, cs) := takeSign cs
  match cs with
  | ['i', 'n', 'f'] =>
    return .number (.double (if negative then -(1.0 / 0.0) else 1.0 / 0.0 : Float).toBits)
  | ['n', 'a', 'n'] => return .number (.double (0.0 / 0.0 : Float).toBits)
  | cs =>
    let (mantissa, exponent) := cs.span fun c ↦ c != 'e' && c != 'E'
    let (whole, fraction) := mantissa.span (· != '.')
    let ds ← wholeDigits? whole
    if fraction.isEmpty && exponent.isEmpty then
      let n : Int := ofDigits 10 ds
      word? (if negative then -n else n)
    else
      let fs ← if fraction.isEmpty then some [] else digits? 10 fraction.tail
      let e ← if exponent.isEmpty then some 0 else
        let (down, es) := takeSign exponent.tail
        (digits? 10 es).map fun es ↦
          let e : Int := ofDigits 10 es
          if down then -e else e
      doubleOf? negative (ds ++ fs) (e - fs.length)

/-- The scalar that a run of characters is. -/
def word (cs : List Char) : Option Json :=
  match cs with
  | ['t', 'r', 'u', 'e'] => some (.bool true)
  | ['f', 'a', 'l', 's', 'e'] => some (.bool false)
  | '0' :: 'x' :: cs => (digits? 16 cs).bind (word? <| ofDigits 16 ·)
  | '0' :: 'o' :: cs => (digits? 8 cs).bind (word? <| ofDigits 8 ·)
  | '0' :: 'b' :: cs => (digits? 2 cs).bind (word? <| ofDigits 2 ·)
  | cs => decimal? cs

/-- A character of a number or a boolean. -/
def isWordChar (c : Char) : Bool :=
  c.isAlphanum || c == '_' || c == '+' || c == '-' || c == '.'

/-- The scalar at the front of a text, and what follows it. -/
def takeScalar? (cs : List Char) : Option (Json × List Char) :=
  match cs with
  | '"' :: _ | '\'' :: _ => (takeString? cs).map fun (s, rest) ↦ (.string (.ofList s), rest)
  | _ =>
    match Moment.take? cs with
    | some (m, rest) => some (.string m.text, rest)
    | none => (word (cs.takeWhile isWordChar)).map (·, cs.dropWhile isWordChar)

end PostBlocks.Toml
