import Mathlib.Algebra.Group.Nat.Defs
import PostBlocks.Json.Printer
import PostBlocks.Json.Token

/-!
# Written numbers read back

The text of a number has a sign, digits, a fraction and an exponent (`Numeral.Written`), and reading
it gives those parts again (`IsProper.take?_chars`). An integer of a 64-bit word has only a sign and
digits, and it is read as itself (`value?_ofInteger`). A number goes on as long as it can, so what
follows it must not be able to continue one: `StopsNumber` says that of a text, and everything that
JSON puts behind a value has it.
-/

namespace PostBlocks.Json

/-- A text that cannot continue a number. -/
def StopsNumber (cs : List Char) : Prop :=
  ∀ c ∈ cs.head?, c.isDigit = false ∧ c ≠ '.' ∧ c ≠ 'e' ∧ c ≠ 'E'

theorem StopsNumber.cons {c : Char} (cs : List Char)
    (h : c.isDigit = false ∧ c ≠ '.' ∧ c ≠ 'e' ∧ c ≠ 'E') : StopsNumber (c :: cs) := by
  simpa [StopsNumber] using h

/-! ### Digits -/

theorem toNat_digit {d : Nat} (h : d < 10) : (Char.ofNat (48 + d)).toNat = 48 + d := by
  have hall : ∀ e < 10, (Char.ofNat (48 + e)).toNat = 48 + e := by decide
  exact hall d h

/-- What a digit is written with is a digit, and it has that digit for its value
(`digitValue_digit`). -/
theorem isDigit_digit {d : Nat} (h : d < 10) : (Char.ofNat (48 + d)).isDigit = true := by
  rw [Char.isDigit_iff_toNat, toNat_digit h]
  exact ⟨Nat.le_add_right 48 d, by simpa using by omega⟩

theorem digitValue_digit {d : Nat} (h : d < 10) : digitValue (Char.ofNat (48 + d)) = d := by
  rw [digitValue, toNat_digit h]
  simp

theorem decimalChars_of_lt {n : Nat} (h : n < 10) : decimalChars n = [Char.ofNat (48 + n)] := by
  rw [decimalChars, if_pos h]

/-- A number is written with digits and nothing else, so no other character occurs in it. -/
theorem isDigit_of_mem_decimalChars {n : Nat} {c : Char} (hc : c ∈ decimalChars n) :
    c.isDigit = true := by
  fun_induction decimalChars n with
  | case1 n h =>
    rw [List.mem_singleton] at hc
    exact hc ▸ isDigit_digit h
  | case2 n h ih =>
    rcases List.mem_append.1 hc with hc | hc
    · exact ih hc
    · rw [List.mem_singleton] at hc
      exact hc ▸ isDigit_digit (Nat.mod_lt n (by omega))

/-- The digits of a number are its value. -/
theorem ofDigits_decimalChars (n : Nat) :
    Numeral.ofDigits ((decimalChars n).map digitValue) = n := by
  fun_induction decimalChars n with
  | case1 n h => simp [Numeral.ofDigits, digitValue_digit h]
  | case2 n h ih =>
    have hlast := digitValue_digit (Nat.mod_lt n (show 10 > 0 by omega))
    simp only [Numeral.ofDigits, List.map_append, List.map_cons, List.map_nil, List.foldl_append,
      List.foldl_cons, List.foldl_nil, hlast] at ih ⊢
    rw [ih]
    omega

/-- Zeros in front of digits do not count. -/
theorem ofDigits_zeros_append (k : Nat) (ds : List Nat) :
    Numeral.ofDigits (List.replicate k 0 ++ ds) = Numeral.ofDigits ds := by
  induction k with
  | zero => rfl
  | succ k ih => exact ih

/-- A number below a power of ten has at most as many digits as the power has zeros. -/
theorem length_decimalChars_le {n k : Nat} (hk : 0 < k) (h : n < 10 ^ k) :
    (decimalChars n).length ≤ k := by
  fun_induction decimalChars n generalizing k with
  | case1 n hlt => exact hk
  | case2 n hge ih =>
    obtain ⟨k, rfl⟩ : ∃ j, k = j + 1 := ⟨k - 1, by omega⟩
    rw [Nat.pow_succ] at h
    have hpos : 0 < k := Nat.pos_of_ne_zero fun hzero ↦ by
      rw [hzero] at h
      omega
    have := ih hpos (by omega)
    rw [List.length_append, List.length_singleton]
    omega

/-- A number is written without leading zeros: only zero itself starts with one. -/
theorem decimalChars_eq_cons (n : Nat) :
    ∃ d cs, decimalChars n = Char.ofNat (48 + d) :: cs ∧ d < 10 ∧ (d = 0 → n = 0 ∧ cs = []) := by
  fun_induction decimalChars n with
  | case1 n h => exact ⟨n, [], rfl, h, fun h0 ↦ ⟨h0, rfl⟩⟩
  | case2 n h ih =>
    obtain ⟨d, cs, hcs, hd, h0⟩ := ih
    refine ⟨d, cs ++ [Char.ofNat (48 + n % 10)], by rw [hcs, List.cons_append], hd, fun hd0 ↦ ?_⟩
    have := (h0 hd0).1
    omega

theorem decimalChars_ne_nil (n : Nat) : decimalChars n ≠ [] := by
  obtain ⟨d, cs, hcs, -⟩ := decimalChars_eq_cons n
  rw [hcs]
  exact List.cons_ne_nil _ _

/-- Reading digits stops at the first other character, and takes all in front of it. -/
theorem takeDigits_append {ds rest : List Char} (hds : ∀ c ∈ ds, c.isDigit = true)
    (hr : ∀ c ∈ rest.head?, c.isDigit = false) :
    takeDigits (ds ++ rest) = (ds.map digitValue, rest) := by
  have hstop : rest.takeWhile Char.isDigit = [] ∧ rest.dropWhile Char.isDigit = rest := by
    cases rest with
    | nil => simp
    | cons c cs => simp [hr c rfl]
  rw [takeDigits, List.takeWhile_append_of_pos hds, List.dropWhile_append_of_pos hds, hstop.1,
    hstop.2, List.append_nil]

theorem takeDigits?_append {ds rest : List Char} (hds : ∀ c ∈ ds, c.isDigit = true) (hne : ds ≠ [])
    (hr : ∀ c ∈ rest.head?, c.isDigit = false) :
    takeDigits? (ds ++ rest) = some (ds.map digitValue, rest) := by
  rw [takeDigits?, takeDigits_append hds hr]
  split
  · next h => simp_all
  · next h => rw [← h]

namespace Numeral

/-! ### Parts of a written number -/

/-- The parts of a written number, digits as characters. -/
structure Written where
  negative : Bool
  whole : List Char
  fraction : List Char
  /-- The sign of the exponent and its digits. -/
  exponent : Option (Bool × List Char)

namespace Written

/-- The fraction with its point, if there is one. -/
def fractionChars (w : Written) : List Char :=
  match w.fraction with
  | [] => []
  | ds => '.' :: ds

/-- The exponent with its sign, if there is one. -/
def exponentChars (w : Written) : List Char :=
  match w.exponent with
  | none => []
  | some (negative, ds) => 'e' :: (if negative then '-' else '+') :: ds

/-- The text of a number. -/
def chars (w : Written) : List Char :=
  (if w.negative then ['-'] else []) ++ w.whole ++ w.fractionChars ++ w.exponentChars

/-- The parts with digits as values. -/
def numeral (w : Written) : Numeral :=
  ⟨w.negative, w.whole.map digitValue, w.fraction.map digitValue,
    w.exponent.map fun (negative, ds) ↦ (negative, ds.map digitValue)⟩

/-- The parts have digits where they have to, and zero stands alone at the start. -/
structure IsProper (w : Written) : Prop where
  whole : ∀ c ∈ w.whole, c.isDigit = true
  whole_ne : w.whole ≠ []
  zero_alone : ∀ ds, w.whole.map digitValue = 0 :: ds → ds = []
  fraction : ∀ c ∈ w.fraction, c.isDigit = true
  exponent : ∀ e ∈ w.exponent, (∀ c ∈ e.2, c.isDigit = true) ∧ e.2 ≠ []

variable {w : Written} {rest : List Char}

/-- Behind the digits stands no digit. -/
theorem head?_exponentChars (hr : StopsNumber rest) :
    ∀ c ∈ (w.exponentChars ++ rest).head?, c.isDigit = false ∧ c ≠ '.' := by
  unfold exponentChars
  split
  · exact fun c hc ↦ ⟨(hr c hc).1, (hr c hc).2.1⟩
  · rintro c ⟨⟩
    decide

/-- Behind the whole part stands no digit, whichever of the other parts there are. -/
theorem head?_fractionChars (hr : StopsNumber rest) :
    ∀ c ∈ (w.fractionChars ++ (w.exponentChars ++ rest)).head?, c.isDigit = false := by
  unfold fractionChars
  split
  · exact fun c hc ↦ (head?_exponentChars hr c hc).1
  · rintro c ⟨⟩
    decide

/-- The whole part is read up to the point, the exponent or what follows the number. A zero at its
start is all of it, so reading does not stop too early. -/
theorem takeWhole?_whole (h : w.IsProper) (hr : StopsNumber rest) :
    takeWhole? (w.whole ++ (w.fractionChars ++ (w.exponentChars ++ rest)))
      = some (w.whole.map digitValue, w.fractionChars ++ (w.exponentChars ++ rest)) := by
  rw [takeWhole?, takeDigits_append h.whole (head?_fractionChars hr)]
  split
  · next heq => exact absurd (List.map_eq_nil_iff.1 (congrArg Prod.fst heq)) h.whole_ne
  · next heq => exact nomatch h.zero_alone _ (congrArg Prod.fst heq)
  · next heq => rw [← heq]

/-- A fraction is read if there is one; if there is none, what follows has no point to be taken for
it. -/
theorem takeFraction?_fractionChars (h : w.IsProper) (hr : StopsNumber rest) :
    takeFraction? (w.fractionChars ++ (w.exponentChars ++ rest))
      = some (w.fraction.map digitValue, w.exponentChars ++ rest) := by
  have hstop := head?_exponentChars (w := w) hr
  have hfraction := h.fraction
  unfold fractionChars
  split
  · next heq =>
    rw [heq, List.nil_append, takeFraction?.eq_def]
    split
    · next heq' =>
      rw [heq'] at hstop
      exact absurd rfl (hstop _ rfl).2
    · rfl
  · next hne =>
    exact takeDigits?_append hfraction hne fun c hc ↦ (hstop c hc).1

/-- An exponent is read if there is one; if there is none, what follows has no letter to be taken
for it. -/
theorem takeExponent?_exponentChars (h : w.IsProper) (hr : StopsNumber rest) :
    takeExponent? (w.exponentChars ++ rest)
      = some (w.exponent.map fun (negative, ds) ↦ (negative, ds.map digitValue), rest) := by
  have hexponent := h.exponent
  unfold exponentChars
  split
  · next heq =>
    rw [heq, List.nil_append]
    cases rest with
    | nil => rfl
    | cons c cs =>
      have h := hr c rfl
      simp [takeExponent?, h.2.2.1, h.2.2.2]
  · next negative ds heq =>
    obtain ⟨hds, hne⟩ := hexponent _ heq
    have htake := takeDigits?_append hds hne fun c hc ↦ (hr c hc).1
    cases negative <;> simp [takeExponent?, takeSign, htake, heq]

/-- A number starts with its sign, or else with a digit. -/
theorem chars_eq_cons (h : w.IsProper) : ∃ c cs, w.chars = c :: cs
    ∧ ((w.negative = true ∧ c = '-') ∨ w.negative = false ∧ c.isDigit = true) := by
  obtain ⟨d, ds, hwhole⟩ := List.exists_cons_of_ne_nil h.whole_ne
  unfold chars
  cases w.negative with
  | true => exact ⟨'-', _, rfl, .inl ⟨rfl, rfl⟩⟩
  | false =>
    have hd : d.isDigit = true := h.whole d (by rw [hwhole]; exact List.mem_cons_self)
    exact ⟨d, ds ++ w.fractionChars ++ w.exponentChars, by rw [hwhole]; rfl, .inr ⟨rfl, hd⟩⟩

/-- The parts of a number are read from its text. -/
theorem IsProper.take?_chars (h : w.IsProper) (hr : StopsNumber rest) :
    take? (w.chars ++ rest) = some (w.numeral, rest) := by
  have hwhole := takeWhole?_whole h hr
  have hfraction := takeFraction?_fractionChars h hr
  have hexponent := takeExponent?_exponentChars h hr
  cases hneg : w.negative with
  | true =>
    have hchars : w.chars ++ rest
        = '-' :: (w.whole ++ (w.fractionChars ++ (w.exponentChars ++ rest))) := by
      simp [chars, hneg]
    rw [hchars]
    simp [take?, hwhole, hfraction, hexponent, numeral, hneg]
  | false =>
    have hchars : w.chars ++ rest
        = w.whole ++ (w.fractionChars ++ (w.exponentChars ++ rest)) := by
      simp [chars, hneg]
    obtain ⟨c, cs, hcs, ⟨h', -⟩ | ⟨-, hc⟩⟩ := chars_eq_cons h
    · rw [hneg] at h'
      cases h'
    -- the first digit is not taken for a sign
    have hsign : c ≠ '-' := by
      rintro rfl
      exact absurd hc (by decide)
    rw [← hchars, hcs, List.cons_append] at hwhole
    rw [hcs, List.cons_append]
    simp [take?, hsign, hwhole, hfraction, hexponent, numeral, hneg]

/-- A number is one token. -/
theorem IsProper.takeToken?_chars (h : w.IsProper) (hr : StopsNumber rest) :
    ∃ c cs, w.chars ++ rest = c :: cs ∧ isSpace c = false
      ∧ takeToken? c cs = some (.number w.numeral.value?, rest) := by
  obtain ⟨c, cs, hcs, hc⟩ := chars_eq_cons h
  have htake := h.take?_chars hr
  rw [hcs, List.cons_append] at htake
  -- a text that starts with a sign or a digit is a number and no other token
  have hne : ∀ d : Char, d ≠ '-' → d.isDigit = false → c ≠ d := by
    rintro d hd hdd rfl
    rcases hc with ⟨-, rfl⟩ | ⟨-, hc⟩
    · exact hd rfl
    · rw [hdd] at hc
      cases hc
  refine ⟨c, cs ++ rest, by rw [hcs, List.cons_append], ?_, ?_⟩
  · simp [isSpace, hne ' ' (by decide) (by decide), hne '\t' (by decide) (by decide),
      hne '\n' (by decide) (by decide), hne '\r' (by decide) (by decide)]
  · unfold takeToken?
    split
    case h_11 => simp [htake]
    all_goals exact absurd rfl (hne _ (by decide) (by decide))

end Written

/-! ### Integers -/

/-- The parts of a written integer. -/
def Written.ofInteger (i : Int) : Written :=
  ⟨i < 0, decimalChars i.natAbs, [], none⟩

/-- The printer of integers writes those parts. -/
theorem Written.chars_ofInteger (i : Int) : (ofInteger i).chars = integerChars i := by
  have hnil : ∀ negative n, Written.chars ⟨negative, decimalChars n, [], none⟩
      = (if negative then ['-'] else []) ++ decimalChars n := fun negative n ↦ by
    simp [chars, fractionChars, exponentChars]
  rw [ofInteger, hnil]
  cases i with
  | ofNat n => simp [integerChars]
  | negSucc n => simp [integerChars]

/-- Zero is written as one digit, and no other integer starts with a zero. -/
theorem Written.IsProper.ofInteger (i : Int) : (Written.ofInteger i).IsProper := by
  obtain ⟨d, cs, hcs, hd, hzero⟩ := decimalChars_eq_cons i.natAbs
  refine ⟨fun c ↦ isDigit_of_mem_decimalChars, by simp [Written.ofInteger, hcs], fun ds hds ↦ ?_,
    (fun _ hc ↦ nomatch hc), (fun _ he ↦ nomatch he)⟩
  rw [Written.ofInteger, hcs, List.map_cons, digitValue_digit hd, List.cons.injEq] at hds
  rw [← hds.2, (hzero hds.1).2]
  rfl

/-- An integer of a word has itself as value. -/
theorem value?_ofInteger {i : Int} (h : Number.IsWord i) :
    (Written.ofInteger i).numeral.value? = some (.int i) := by
  obtain ⟨hlo, hhi⟩ := h
  simp only [value?, Written.numeral, Written.ofInteger, ofDigits_decimalChars, List.map_nil,
    List.isEmpty_nil, Option.map_none, Option.isNone_none, Bool.and_self, decide_eq_true_eq,
    true_and]
  rcases Int.lt_or_le i 0 with hneg | hpos
  · rw [if_neg (by omega), if_pos (by omega)]
    simp only [Option.some.injEq, Number.int.injEq]
    omega
  · rw [if_pos (by omega)]
    simp only [Option.some.injEq, Number.int.injEq]
    omega

end Numeral

end PostBlocks.Json
