import PostBlocks.Json.Basic
import PostBlocks.Text.Blank

/-!
# JSON tokens

A text is cut into tokens: punctuation, the three words, numbers and strings. Cutting checks only
how a token is written. Two kinds of token are well written and still have no value, which is
recorded and left to the reader to judge: a number too large for a double, and a string that
names half of a surrogate pair.
-/

namespace PostBlocks.Json

/-- A token; a number or a string without a value carries `none`. -/
inductive Token where
  | openArray
  | closeArray
  | openObject
  | closeObject
  | comma
  | colon
  | null
  | bool (b : Bool)
  | number (n : Option Number)
  | string (s : Option String)
deriving DecidableEq, Repr, Inhabited

/-! ### Strings -/

/-- What a string is written with: characters, and the two halves of a surrogate pair. -/
inductive Piece where
  | char (c : Char)
  | lead (unit : Nat)
  | trail (unit : Nat)
deriving DecidableEq, Repr

/-- The value of a hexadecimal digit. -/
def hexValue? (c : Char) : Option Nat :=
  if c.isDigit then some (c.toNat - 48)
  else if 'a' ≤ c ∧ c ≤ 'f' then some (c.toNat - 87)
  else if 'A' ≤ c ∧ c ≤ 'F' then some (c.toNat - 55)
  else none

/-- What an escape with a code unit stands for. -/
def Piece.ofUnit (n : Nat) : Piece :=
  if 0xD800 ≤ n ∧ n < 0xDC00 then .lead n
  else if 0xDC00 ≤ n ∧ n < 0xE000 then .trail n
  else .char (Char.ofNat n)

/-- What an escape with a letter stands for. -/
def escaped? : Char → Option Char
  | '"' => some '"'
  | '\\' => some '\\'
  | '/' => some '/'
  | 'b' => some '\x08'
  | 'f' => some '\x0c'
  | 'n' => some '\n'
  | 'r' => some '\r'
  | 't' => some '\t'
  | _ => none

/-- The four hexadecimal digits of an escape, as a code unit. -/
def unit? (a b c d : Char) : Option Nat := do
  return 4096 * (← hexValue? a) + 256 * (← hexValue? b) + 16 * (← hexValue? c) + (← hexValue? d)

/-- The rest of a string after its opening quote, up to the closing one, and what follows. -/
def takePieces? : List Char → Option (List Piece × List Char)
  | '"' :: cs => some ([], cs)
  | '\\' :: 'u' :: a :: b :: c :: d :: cs => do
    let n ← unit? a b c d
    let (ps, rest) ← takePieces? cs
    return (.ofUnit n :: ps, rest)
  | '\\' :: e :: cs => do
    let c ← escaped? e
    let (ps, rest) ← takePieces? cs
    return (.char c :: ps, rest)
  | c :: cs =>
    if c.toNat < 0x20 then none
    else (takePieces? cs).map fun (ps, rest) ↦ (.char c :: ps, rest)
  | [] => none

/-- The characters that the pieces of a string make up; `none` when half of a pair stands alone. -/
def joinPieces? : List Piece → Option (List Char)
  | [] => some []
  | .char c :: ps => (joinPieces? ps).map (c :: ·)
  | .lead h :: .trail l :: ps =>
    (joinPieces? ps).map (Char.ofNat (0x10000 + (h - 0xD800) * 0x400 + (l - 0xDC00)) :: ·)
  | _ => none

/-! ### Cutting a text -/

/-- Space, tab, line feed and carriage return separate tokens. -/
def isSpace (c : Char) : Bool :=
  c == ' ' || c == '\t' || c == '\n' || c == '\r'

/-- The token that starts with `c` and goes on in `cs`, and what follows it. -/
def takeToken? (c : Char) (cs : List Char) : Option (Token × List Char) :=
  match c with
  | '[' => some (.openArray, cs)
  | ']' => some (.closeArray, cs)
  | '\x7b' => some (.openObject, cs)
  | '\x7d' => some (.closeObject, cs)
  | ',' => some (.comma, cs)
  | ':' => some (.colon, cs)
  | 'n' => (Text.after? "ull".toList cs).map (.null, ·)
  | 't' => (Text.after? "rue".toList cs).map (.bool true, ·)
  | 'f' => (Text.after? "alse".toList cs).map (.bool false, ·)
  | '"' => (takePieces? cs).map fun (ps, rest) ↦
      (.string ((joinPieces? ps).map String.ofList), rest)
  | c => (Numeral.take? (c :: cs)).map fun (n, rest) ↦ (.number n.value?, rest)

/-! A token takes at least its first character, so cutting ends. -/

/-- A string takes its closing quote at least. This and what follows is why cutting a text into
tokens ends. -/
theorem length_takePieces? {cs rest : List Char} {ps : List Piece}
    (h : takePieces? cs = some (ps, rest)) : rest.length < cs.length := by
  fun_induction takePieces? cs generalizing ps rest with
  | case1 cs =>
    simp only [Option.some.injEq, Prod.mk.injEq] at h
    simp [← h.2]
  | case2 a b c d cs ih =>
    simp only [bind, Option.bind_eq_some_iff, pure, Option.some.injEq, Prod.mk.injEq] at h
    obtain ⟨_, _, ⟨_, _⟩, hps, _, rfl⟩ := h
    have := ih hps
    simp only [List.length_cons]
    omega
  | case3 e cs _ ih =>
    simp only [bind, Option.bind_eq_some_iff, pure, Option.some.injEq, Prod.mk.injEq] at h
    obtain ⟨_, _, ⟨_, _⟩, hps, _, rfl⟩ := h
    have := ih hps
    simp only [List.length_cons]
    omega
  | case4 => simp at h
  | case5 c cs _ _ _ _ ih =>
    simp only [Option.map_eq_some_iff, Prod.mk.injEq] at h
    obtain ⟨⟨_, _⟩, hps, _, rfl⟩ := h
    have := ih hps
    simp only [List.length_cons]
    omega
  | case6 => simp at h

theorem length_takeDigits_le (cs : List Char) : (takeDigits cs).2.length ≤ cs.length :=
  (List.dropWhile_suffix _).length_le

/-- Digits are taken from the front of a text, however many there are. -/
theorem length_takeDigits?_le {cs rest : List Char} {ds : List Nat}
    (h : takeDigits? cs = some (ds, rest)) : rest.length ≤ cs.length := by
  have := length_takeDigits_le cs
  unfold takeDigits? at h
  split at h <;> simp_all

/-- A number takes one digit at least. -/
theorem Numeral.length_takeWhole? {cs rest : List Char} {ds : List Nat}
    (h : takeWhole? cs = some (ds, rest)) : rest.length < cs.length := by
  have hne : ds ≠ [] ∧ takeDigits cs = (ds, rest) := by
    unfold takeWhole? at h
    split at h <;> simp_all
  obtain ⟨hne, h⟩ := hne
  simp only [takeDigits, Prod.mk.injEq] at h
  have hlen := congrArg List.length (List.takeWhile_append_dropWhile (p := Char.isDigit) (l := cs))
  have hpos : 0 < (cs.takeWhile Char.isDigit).length := by
    rw [← List.length_map (f := digitValue), h.1]
    exact List.length_pos_iff.2 hne
  rw [List.length_append, h.2] at hlen
  omega

theorem Numeral.length_takeFraction?_le {cs rest : List Char} {ds : List Nat}
    (h : takeFraction? cs = some (ds, rest)) : rest.length ≤ cs.length := by
  unfold takeFraction? at h
  split at h
  · have := length_takeDigits?_le h
    simp only [List.length_cons]
    omega
  · simp_all

theorem Numeral.length_takeSign_le (cs : List Char) : (takeSign cs).2.length ≤ cs.length := by
  unfold takeSign
  split <;> simp

theorem Numeral.length_takeExponent?_le {cs rest : List Char} {e : Option (Bool × List Nat)}
    (h : takeExponent? cs = some (e, rest)) : rest.length ≤ cs.length := by
  cases cs with
  | nil => simp_all [takeExponent?]
  | cons c cs =>
    simp only [takeExponent?] at h
    split at h
    · simp only [Option.map_eq_some_iff, Prod.mk.injEq] at h
      obtain ⟨⟨_, _⟩, hds, _, rfl⟩ := h
      have := length_takeDigits?_le hds
      have := length_takeSign_le cs
      simp only [List.length_cons]
      omega
    · simp_all

/-- So a whole number is shorter than the text it is read from. -/
theorem Numeral.length_take? {cs rest : List Char} {n : Numeral}
    (h : take? cs = some (n, rest)) : rest.length < cs.length := by
  simp only [take?, bind, Option.bind_eq_some_iff, pure, Option.some.injEq, Prod.mk.injEq] at h
  obtain ⟨⟨_, _⟩, hw, ⟨_, _⟩, hf, ⟨_, _⟩, he, _, rfl⟩ := h
  have h₁ := length_takeWhole? hw
  have h₂ := length_takeFraction?_le hf
  have h₃ := length_takeExponent?_le he
  split at h₁ <;> simp_all <;> omega

theorem length_after? {lead cs rest : List Char} (h : Text.after? lead cs = some rest) :
    rest.length ≤ cs.length := by
  rw [Text.after?_eq_some_iff] at h
  simp [h]

/-- The character that starts a token has been taken already, so no more is asked here. -/
theorem length_takeToken?_le {c : Char} {cs rest : List Char} {t : Token}
    (h : takeToken? c cs = some (t, rest)) : rest.length ≤ cs.length := by
  unfold takeToken? at h
  split at h
  case h_7 | h_8 | h_9 =>
    simp only [Option.map_eq_some_iff, Prod.mk.injEq] at h
    obtain ⟨_, ha, _, rfl⟩ := h
    exact length_after? ha
  case h_10 =>
    simp only [Option.map_eq_some_iff, Prod.mk.injEq] at h
    obtain ⟨⟨_, _⟩, ha, _, rfl⟩ := h
    exact Nat.le_of_lt (length_takePieces? ha)
  case h_11 =>
    simp only [Option.map_eq_some_iff, Prod.mk.injEq] at h
    obtain ⟨⟨_, _⟩, ha, _, rfl⟩ := h
    exact Nat.le_of_lt_succ (Numeral.length_take? ha)
  all_goals simp_all

/-- The tokens of a text; `none` where some part of it starts no token. -/
def tokens? (cs : List Char) : Option (List Token) :=
  match cs with
  | [] => some []
  | c :: cs =>
    if isSpace c then tokens? cs
    else
      match _h : takeToken? c cs with
      | none => none
      | some (t, rest) => (tokens? rest).map (t :: ·)
termination_by cs.length
decreasing_by
  · simp
  · have := length_takeToken?_le _h
    simp only [List.length_cons]
    omega

end PostBlocks.Json
