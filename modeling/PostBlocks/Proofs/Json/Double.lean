import PostBlocks.Proofs.Decimal.Shortest
import PostBlocks.Proofs.Json.Scaling
import PostBlocks.Proofs.Json.Tree

/-!
# Written doubles read back

The text of a finite double is a number, whatever its layout, and it is read as a double again
(`exists_written_doubleChars`). Which double is left open: a reader that scales a significand by a
power of ten may miss the nearest one. What counts is that there is one at all, as a number without
a value would make a whole text unusable, and that it is not taken for an integer: so much holds of
all numbers that a value can have (`Number.readsAs_reread`). A compact text is then read as its
value but for the doubles (`parse?_compact`).
-/

namespace PostBlocks.Json

namespace Numeral

/-! ### Reading a magnitude -/

theorem le_foldl_digits (s : Nat) (ds : List Nat) : s ≤ ds.foldl (fun n d ↦ 10 * n + d) s := by
  induction ds generalizing s with
  | nil => exact Nat.le_refl s
  | cons d ds ih => exact Nat.le_trans (by omega) (ih (10 * s + d))

/-- Digits are gathered to the last where a word holds their value. -/
theorem gather_eq {s : Nat} {ds : List Nat}
    (h : ds.foldl (fun n d ↦ 10 * n + d) s < 18446744073709551616) :
    gather s ds = (ds.foldl (fun n d ↦ 10 * n + d) s, []) := by
  induction ds generalizing s with
  | nil => rfl
  | cons d ds ih =>
    rw [gather, if_pos (lt_of_le_of_lt (le_foldl_digits _ ds) h)]
    exact ih h

/-- A number of at most seventeen digits has a magnitude, if its exponent does not take it beyond
the largest double. -/
theorem isSome_magnitude? {n : Numeral} (hdigits : ofDigits (n.whole ++ n.fraction) ≤ 10 ^ 17)
    (hexponent : ∀ ds, n.exponent = some (false, ds) → ofDigits ds < 2147483648
      ∧ ofDigits (n.whole ++ n.fraction) * 10 ^ (ofDigits ds - n.fraction.length)
        ≤ Binary.largest) : n.magnitude?.isSome := by
  have hfold : ofDigits (n.whole ++ n.fraction)
      = n.fraction.foldl (fun m d ↦ 10 * m + d) (ofDigits n.whole) := List.foldl_append
  have hwhole : gather 0 n.whole = (ofDigits n.whole, []) :=
    gather_eq (lt_of_le_of_lt (le_foldl_digits _ n.fraction)
      (hfold ▸ lt_of_le_of_lt hdigits (by decide)))
  have hfraction : gather (ofDigits n.whole) n.fraction
      = (ofDigits (n.whole ++ n.fraction), []) := by
    rw [hfold]
    exact gather_eq (hfold ▸ lt_of_le_of_lt hdigits (by decide))
  -- without an exponent, or with a negative one, nothing is scaled up
  have hnone : ∀ places : Int, places ≤ 0 →
      (scale? (ofDigits (n.whole ++ n.fraction)).toUInt64.toFloat places).isSome := by
    intro places hplaces
    refine isSome_scale? hdigits ?_
    rw [show places.toNat = 0 by omega, Nat.pow_zero, Nat.mul_one]
    exact le_trans hdigits (by decide +kernel)
  simp only [magnitude?, hwhole, hfraction, List.length_nil, Nat.sub_zero]
  split
  · exact hnone _ (by omega)
  · next negative ds heq =>
    cases negative with
    | true =>
      split
      · exact hnone _ (by simp)
      · simp
    | false =>
      obtain ⟨hlt, hle⟩ := hexponent ds heq
      rw [if_pos hlt]
      refine isSome_scale? hdigits (le_of_eq_of_le ?_ hle)
      congr 2
      simp
      omega

/-- A number with a point or an exponent is a double, if it is a number at all. -/
theorem exists_value?_eq_double {n : Numeral} (h : n.fraction ≠ [] ∨ n.exponent.isSome)
    (hsome : n.magnitude?.isSome) : ∃ bits, n.value? = some (.double bits) := by
  obtain ⟨f, hf⟩ := Option.isSome_iff_exists.1 hsome
  have hwhole : (n.fraction.isEmpty && n.exponent.isNone) = false := by
    rcases h with h | h <;> simp [h]
  simp [value?, hwhole, hf]

end Numeral

/-! ### Digits of a number -/

theorem ofDigits_append_zeros (ds : List Nat) (k : Nat) :
    Numeral.ofDigits (ds ++ List.replicate k 0) = Numeral.ofDigits ds * 10 ^ k := by
  induction k with
  | zero => simp
  | succ k ih =>
    rw [List.replicate_succ', ← List.append_assoc, Numeral.ofDigits, List.foldl_append]
    show 10 * Numeral.ofDigits (ds ++ List.replicate k 0) + 0 = _
    rw [ih, Nat.pow_succ]
    ring

theorem lt_ten_pow_length (n : Nat) : n < 10 ^ (decimalChars n).length := by
  fun_induction decimalChars n with
  | case1 n h => exact h
  | case2 n h ih =>
    rw [List.length_append, List.length_singleton, Nat.pow_succ]
    omega

/-! ### Layouts -/

/-- The parts of a number that is read as a double, with either sign. -/
structure ReadsAsDouble (whole fraction : List Char) (exponent : Option (Bool × List Char)) :
    Prop where
  isProper : ∀ negative, Numeral.Written.IsProper ⟨negative, whole, fraction, exponent⟩
  isDouble : fraction ≠ [] ∨ exponent.isSome
  isSome : ∀ negative,
    (Numeral.Written.numeral ⟨negative, whole, fraction, exponent⟩).magnitude?.isSome

/-- The whole part of a number that is not zero and starts like its digits. -/
theorem zero_alone_of_pos {n : Nat} (h : 0 < n) {ds : List Char} (hds : ds <+: decimalChars n)
    (hne : ds ≠ []) (tail : List Char) (more : List Nat) :
    (ds ++ tail).map digitValue ≠ 0 :: more := by
  obtain ⟨d, cs, hcs, hd, hzero⟩ := decimalChars_eq_cons n
  obtain ⟨e, es, rfl⟩ := List.exists_cons_of_ne_nil hne
  rw [hcs, List.cons_prefix_cons] at hds
  rw [hds.1, List.cons_append, List.map_cons, digitValue_digit hd]
  intro heq
  have := hzero (List.cons.inj heq).1
  omega

section

variable {n : Nat}

theorem isDigit_of_mem_zeros {k : Nat} {c : Char} (h : c ∈ List.replicate k '0') :
    c.isDigit = true := by
  rw [List.eq_of_mem_replicate h]
  decide

/-- Digits, zeros and a point without a fraction. -/
theorem readsAsDouble_integer {k : Nat} (hzero : n = 0 → k = 0)
    (hlen : (decimalChars n).length + k ≤ 16) :
    ReadsAsDouble (decimalChars n ++ List.replicate k '0') ['0'] none := by
  refine ⟨fun negative ↦ ⟨fun c hc ↦ ?_, by simp [decimalChars_ne_nil], fun ds hds ↦ ?_,
    by simp, by simp⟩, .inl (by simp), fun negative ↦
    Numeral.isSome_magnitude? ?_ (fun _ h ↦ nomatch h)⟩
  · rcases List.mem_append.1 hc with hc | hc
    · exact isDigit_of_mem_decimalChars hc
    · exact isDigit_of_mem_zeros hc
  · rcases Nat.eq_zero_or_pos n with rfl | hpos
    · rw [hzero rfl, decimalChars, if_pos (by decide)] at hds
      exact (List.cons.inj hds).2.symm
    · exact absurd hds (zero_alone_of_pos hpos (List.prefix_refl _) (decimalChars_ne_nil n) _ ds)
  · -- the zero of the fraction is one more digit
    have hdigits : (decimalChars n ++ List.replicate k '0').map digitValue ++ ['0'].map digitValue
        = (decimalChars n).map digitValue ++ List.replicate (k + 1) 0 := by
      rw [List.map_append, List.map_replicate, List.append_assoc, List.replicate_succ']
      rfl
    show Numeral.ofDigits ((decimalChars n ++ List.replicate k '0').map digitValue
      ++ ['0'].map digitValue) ≤ 10 ^ 17
    rw [hdigits, ofDigits_append_zeros, ofDigits_decimalChars]
    calc n * 10 ^ (k + 1) ≤ 10 ^ (decimalChars n).length * 10 ^ (k + 1) :=
          Nat.mul_le_mul_right _ (Nat.le_of_lt (lt_ten_pow_length n))
      _ = 10 ^ ((decimalChars n).length + (k + 1)) := (Nat.pow_add _ _ _).symm
      _ ≤ 10 ^ 17 := Nat.pow_le_pow_right (by decide) (by omega)

/-- Some digits and the rest of them have the value of all. -/
theorem ofDigits_take_append_drop (i : Nat) (n : Nat) :
    Numeral.ofDigits (((decimalChars n).take i).map digitValue
      ++ ((decimalChars n).drop i).map digitValue) = n := by
  rw [← List.map_append, List.take_append_drop, ofDigits_decimalChars]

/-- The first digits of a number that is not zero can be a whole part. -/
theorem isProper_take {i : Nat} (hpos : 0 < n) (hi : 0 < i) {exponent : Option (Bool × List Char)}
    (hexponent : ∀ e ∈ exponent, (∀ c ∈ e.2, c.isDigit = true) ∧ e.2 ≠ []) (negative : Bool) :
    Numeral.Written.IsProper
      ⟨negative, (decimalChars n).take i, (decimalChars n).drop i, exponent⟩ := by
  have hne : (decimalChars n).take i ≠ [] := by
    have hlen := List.length_pos_iff.2 (decimalChars_ne_nil n)
    rw [← List.length_pos_iff, List.length_take]
    omega
  refine ⟨fun c hc ↦ isDigit_of_mem_decimalChars (List.mem_of_mem_take hc), hne, fun ds hds ↦ ?_,
    fun c hc ↦ isDigit_of_mem_decimalChars (List.mem_of_mem_drop hc), hexponent⟩
  have := zero_alone_of_pos hpos (List.take_prefix i _) hne [] ds
  rw [List.append_nil] at this
  exact absurd hds this

/-- Digits with a point between them. -/
theorem readsAsDouble_point {i : Nat} (hpos : 0 < n) (hn : n ≤ 10 ^ 17) (hi : 0 < i)
    (hlt : i < (decimalChars n).length) :
    ReadsAsDouble ((decimalChars n).take i) ((decimalChars n).drop i) none := by
  refine ⟨isProper_take hpos hi (fun _ h ↦ nomatch h), .inl fun hnil ↦ ?_, fun negative ↦
    Numeral.isSome_magnitude? ?_ (fun _ h ↦ nomatch h)⟩
  · have := List.drop_eq_nil_iff.1 hnil
    omega
  · exact le_of_eq_of_le (ofDigits_take_append_drop i n) hn

/-- Digits behind the point. -/
theorem readsAsDouble_fraction {k : Nat} (hn : n ≤ 10 ^ 17) :
    ReadsAsDouble ['0'] (List.replicate k '0' ++ decimalChars n) none := by
  refine ⟨fun negative ↦ ⟨by simp, by simp, fun ds hds ↦ ?_, fun c hc ↦ ?_, by simp⟩,
    .inl (by simp [decimalChars_ne_nil]), fun negative ↦
    Numeral.isSome_magnitude? ?_ (fun _ h ↦ nomatch h)⟩
  · exact (List.cons.inj hds).2.symm
  · rcases List.mem_append.1 hc with hc | hc
    · exact isDigit_of_mem_zeros hc
    · exact isDigit_of_mem_decimalChars hc
  · have hdigits : ['0'].map digitValue ++ (List.replicate k '0' ++ decimalChars n).map digitValue
        = List.replicate (k + 1) 0 ++ (decimalChars n).map digitValue := by
      rw [List.map_append, List.map_replicate, List.replicate_succ]
      rfl
    show Numeral.ofDigits (['0'].map digitValue
      ++ (List.replicate k '0' ++ decimalChars n).map digitValue) ≤ 10 ^ 17
    rwa [hdigits, ofDigits_zeros_append, ofDigits_decimalChars]

/-- A digit, a fraction and an exponent. -/
theorem readsAsDouble_exponent (negative : Bool) (e : Nat) (hpos : 0 < n) (hn : n ≤ 10 ^ 17)
    (hle : negative = false → e < 2147483648
      ∧ n * 10 ^ (e - ((decimalChars n).length - 1)) ≤ Binary.largest) :
    ReadsAsDouble ((decimalChars n).take 1) ((decimalChars n).drop 1)
      (some (negative, decimalChars e)) := by
  refine ⟨isProper_take hpos Nat.one_pos ?_, .inr rfl, fun sign ↦
    Numeral.isSome_magnitude? (le_of_eq_of_le (ofDigits_take_append_drop 1 n) hn) fun ds h ↦ ?_⟩
  · rintro _ ⟨⟩
    exact ⟨fun c ↦ isDigit_of_mem_decimalChars, decimalChars_ne_nil e⟩
  · cases h
    show Numeral.ofDigits ((decimalChars e).map digitValue) < 2147483648
      ∧ Numeral.ofDigits (((decimalChars n).take 1).map digitValue
        ++ ((decimalChars n).drop 1).map digitValue)
        * 10 ^ (Numeral.ofDigits ((decimalChars e).map digitValue)
          - (((decimalChars n).drop 1).map digitValue).length) ≤ Binary.largest
    rw [ofDigits_take_append_drop, ofDigits_decimalChars, List.length_map, List.length_drop]
    exact hle rfl

end

theorem fractionChars_of_ne_nil {w : Numeral.Written} (h : w.fraction ≠ []) :
    w.fractionChars = '.' :: w.fraction := by
  unfold Numeral.Written.fractionChars
  split
  · next heq => exact absurd heq h
  · rfl

/-- A decimal no larger than the largest double has an exponent within the powers of ten. -/
theorem exponent_le_of_le_largest {n : Nat} {k : Int} (hpos : 0 < n)
    (h : n * 10 ^ k.toNat ≤ Binary.largest) : k ≤ 308 := by
  by_contra hlt
  exact absurd (le_trans (Nat.le_mul_of_pos_left _ hpos) h)
    (Nat.not_le_of_lt (largest_lt_pow (by omega)))

/-- Each layout of a decimal that is not too large can be read. -/
theorem exists_readsAsDouble_layoutChars {x : Decimal.Scaled} (hdigits : x.digits ≤ 10 ^ 17)
    (hvalue : x.digits * 10 ^ x.exponent.toNat ≤ Binary.largest)
    (hzero : x.digits = 0 → x.exponent = 0) :
    ∃ whole fraction exponent, ReadsAsDouble whole fraction exponent
      ∧ Numeral.Written.chars ⟨false, whole, fraction, exponent⟩ = layoutChars x := by
  obtain ⟨n, k⟩ := x
  simp only at hdigits hvalue hzero
  have hlen : 0 < (decimalChars n).length := List.length_pos_iff.2 (decimalChars_ne_nil n)
  simp only [layoutChars]
  split
  · next hpositional =>
    split
    · next hk =>
      -- an integer, with a fraction of one zero
      refine ⟨_, _, _, readsAsDouble_integer (n := n) (k := k.toNat) (fun hn ↦ ?_) (by omega), ?_⟩
      · rw [hzero hn]
        rfl
      · simp [Numeral.Written.chars, Numeral.Written.fractionChars, Numeral.Written.exponentChars]
    · next hk =>
      have hpos : 0 < n := Nat.pos_of_ne_zero fun hn ↦ hk (by rw [hzero hn])
      split
      · next hleading =>
        -- a point among the digits
        have hpoint := readsAsDouble_point hpos hdigits
          (i := (k + (decimalChars n).length - 1).toNat + 1) (by omega) (by omega)
        refine ⟨_, _, _, hpoint, ?_⟩
        have hne := hpoint.isDouble.resolve_right (by simp)
        rw [Numeral.Written.chars, fractionChars_of_ne_nil hne]
        exact List.append_nil _
      · -- zeros between the point and the digits
        refine ⟨_, _, _, readsAsDouble_fraction
          (k := (-(k + (decimalChars n).length - 1) - 1).toNat) hdigits, ?_⟩
        rw [Numeral.Written.chars, fractionChars_of_ne_nil (by simp [decimalChars_ne_nil])]
        simp [Numeral.Written.exponentChars]
  · next hscientific =>
    have hpos : 0 < n := Nat.pos_of_ne_zero fun hn ↦ by
      have hk := hzero hn
      rw [hn, decimalChars, if_pos (by decide), hk] at hscientific
      exact hscientific (by decide)
    have hlen18 : (decimalChars n).length ≤ 18 := length_decimalChars_le (by decide) (by omega)
    have hexponent := exponent_le_of_le_largest hpos hvalue
    refine ⟨_, _, _, readsAsDouble_exponent (decide (k + (decimalChars n).length - 1 < 0))
      (k + (decimalChars n).length - 1).natAbs hpos hdigits fun hsign ↦ ?_, ?_⟩
    · have hsign := of_decide_eq_false hsign
      refine ⟨by omega, le_of_eq_of_le ?_ hvalue⟩
      congr 2
      omega
    · simp only [Numeral.Written.chars, Numeral.Written.exponentChars, decide_eq_true_eq]
      rfl

/-! ### Doubles -/

/-- The mantissa and the exponent of a finite double are within range. -/
theorem ofBits_bounds {bits : UInt64} (h : (Number.double bits).IsFinite) :
    (Decimal.Dyadic.ofBits bits).mantissa < 2 ^ 53
      ∧ (Decimal.Dyadic.ofBits bits).exponent ≤ 971 := by
  have h : bits.toNat / Decimal.Dyadic.hidden % 2048 ≠ 2047 := h
  have hfraction : bits.toNat % Decimal.Dyadic.hidden < 2 ^ 52 := Nat.mod_lt _ (by decide)
  have hbiased : bits.toNat / Decimal.Dyadic.hidden % 2048 < 2048 := Nat.mod_lt _ (by decide)
  simp only [Decimal.Dyadic.ofBits]
  generalize bits.toNat % Decimal.Dyadic.hidden = fraction at hfraction
  generalize bits.toNat / Decimal.Dyadic.hidden % 2048 = biased at h hbiased
  split
  · exact ⟨by show fraction < 2 ^ 53; omega, by show (-1074 : Int) ≤ 971; decide⟩
  · refine ⟨?_, by show (biased : Int) - 1075 ≤ 971; omega⟩
    show fraction + 4503599627370496 < 2 ^ 53
    omega

/-- A finite double is written as a number that is read as a double. -/
theorem exists_written_doubleChars {bits : UInt64}
    (h : (Number.double bits).IsFinite) :
    ∃ w : Numeral.Written, w.IsProper ∧ w.chars = doubleChars bits
      ∧ ∃ bits', w.numeral.value? = some (.double bits') := by
  obtain ⟨hmantissa, hexponent⟩ := ofBits_bounds h
  obtain ⟨whole, fraction, exponent, hreads, hchars⟩ : ∃ whole fraction exponent,
      ReadsAsDouble whole fraction exponent
        ∧ Numeral.Written.chars ⟨false, whole, fraction, exponent⟩
          = if (Decimal.Dyadic.ofBits bits).mantissa = 0 then "0.0".toList
            else layoutChars (Decimal.shortest .toEven (Decimal.Dyadic.ofBits bits)) := by
    split
    · exact ⟨_, _, _, readsAsDouble_integer (n := 0) (k := 0) (fun _ ↦ rfl) (by decide +kernel),
        by decide +kernel⟩
    · next hne =>
      obtain ⟨hdigits, hvalue, hzero⟩ :=
        Decimal.shortest_le (Nat.pos_of_ne_zero hne) hmantissa hexponent
      exact exists_readsAsDouble_layoutChars hdigits hvalue hzero
  refine ⟨⟨decide ¬bits.toNat < 9223372036854775808, whole, fraction, exponent⟩,
    hreads.isProper _, ?_, Numeral.exists_value?_eq_double ?_ (hreads.isSome _)⟩
  · simp only [doubleChars, ← hchars]
    split
    · next hsign =>
      rw [decide_eq_false (not_not_intro hsign)]
    · next hsign =>
      rw [decide_eq_true hsign]
      rfl
  · exact hreads.isDouble.imp (fun hne ↦ by simpa [Numeral.Written.numeral] using hne)
      fun hsome ↦ by simpa [Numeral.Written.numeral] using hsome

/-! ### Numbers -/

/-- The number that is read from the text of a number. -/
def Number.reread (n : Number) : Number :=
  ((Numeral.take? n.chars).bind (·.1.value?)).getD n

/-- A number that a value can have is written as a number that is read as one, and as an integer
only if it is that integer. -/
theorem Number.exists_written_chars {n : Number} (h : n.IsFinite) :
    ∃ w : Numeral.Written, w.IsProper ∧ w.chars = n.chars
      ∧ ∃ m, w.numeral.value? = some m ∧ m.unsigned? = n.unsigned? := by
  cases n with
  | int i =>
    exact ⟨.ofInteger i, .ofInteger i, Numeral.Written.chars_ofInteger i, .int i,
      Numeral.value?_ofInteger h, rfl⟩
  | double bits =>
    obtain ⟨w, hw, hchars, bits', hvalue⟩ := exists_written_doubleChars h
    exact ⟨w, hw, hchars, .double bits', hvalue, rfl⟩

theorem Number.readsAs_reread {n : Number} (h : n.IsFinite) :
    n.ReadsAs reread ∧ n.reread.unsigned? = n.unsigned? := by
  obtain ⟨w, hw, hchars, m, hvalue, hm⟩ := exists_written_chars h
  have hreread : n.reread = m := by
    have htake : Numeral.take? (w.chars ++ []) = _ := hw.take?_chars fun _ hc ↦ nomatch hc
    rw [List.append_nil, hchars] at htake
    rw [reread, htake, Option.bind_some, hvalue, Option.getD_some]
  refine ⟨fun rest hr ↦ ?_, hreread ▸ hm⟩
  rw [← hchars, tokens?_written hw hr, hvalue, hreread]

/-- A compact text is read as the tree of its value with each number as it is read. -/
theorem parse?_compact {v : Json} (hfinite : ∀ n ∈ v.numbers, n.IsFinite)
    (hd : v.depth ≤ maxDepth) :
    Node.parse? v.compact = some (v.mapNumbers Number.reread).toNode := by
  rw [Node.parse?, compact, String.toList_ofList]
  refine ofChars?_eq_toNode ?_ ((depth_mapNumbers _ v).trans_le hd)
  have h : tokens? (v.compactWith (·.flatMap stringChar) ++ []) = _ :=
    tokens?_compactWith_mapNumbers writes_flatMap_stringChar v
      (fun n hn ↦ (Number.readsAs_reread (hfinite n hn)).1) fun _ hc ↦ nomatch hc
  rwa [List.append_nil, compactWith_stringChar, tokens?, Option.map_some, List.append_nil] at h

end PostBlocks.Json
