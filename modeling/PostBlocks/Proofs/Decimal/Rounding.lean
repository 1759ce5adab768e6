import Mathlib
import PostBlocks.Json.Number

/-!
# Rounding of normal doubles

The product of two doubles, and the double nearest to a number, are mantissas that have more than 53
bits and are rounded. Where no bit is missing to begin with, the result has exactly 53 bits, and it
does not pass any number whose last bit is no smaller than its own (`exists_roundWithAccuracy`). A
mantissa of 53 bits is kept by packing as long as its exponent is in range (`unpack_pack`).

The bound is stated for any number whose last bit is no smaller, since the values that have to be
shown finite are not known themselves, only something that they do not exceed: the largest double,
or the next number with the same last bit. A product or a power of ten is rounded once, from its
exact value, and where rounding carries, the bit too many is dropped again
(`roundWithAccuracy_eq_finite`). Doubles with fewer than 53 bits are left out (`IsNormal`), and so
are exponents so small that bits would be lost.
-/

namespace PostBlocks.Binary

open Float.Model Float.Model.UnpackedFloat

/-! ### Dropping bits -/

/-- A mantissa of which nothing has been dropped. -/
def exact (m : Nat) : ExtendedMantissa :=
  ⟨m, false, false⟩

/-- Of an exact mantissa, dropping bits leaves the quotient, and a trace if the rest is not zero. -/
theorem shiftRight_exact (m k : Nat) :
    (exact m >>> k).mantissa = m / 2 ^ k
      ∧ ((exact m >>> k).roundBit = true
        ∨ (exact m >>> k).stickyBit = true → m % 2 ^ k ≠ 0) := by
  induction k with
  | zero => exact ⟨(Nat.div_one m).symm, fun h ↦ by rcases h with h | h <;> cases h⟩
  | succ k ih =>
    obtain ⟨hmantissa, hrest⟩ := ih
    have hstep : exact m >>> (k + 1)
        = (exact m >>> k).shiftRightOne := rfl
    rw [hstep, ExtendedMantissa.shiftRightOne, hmantissa, Nat.mod_pow_succ]
    refine ⟨by rw [Nat.div_div_eq_div_mul, Nat.pow_succ], ?_⟩
    rintro (hround | hsticky)
    · have hbit : m / 2 ^ k % 2 ≠ 0 := by simpa using hround
      have := Nat.mul_pos (Nat.two_pow_pos k) (Nat.pos_of_ne_zero hbit)
      omega
    · have := hrest (by simpa using hsticky)
      omega

/-- Rounding goes to the quotient or, if there is a rest, to the number after it. -/
theorem roundedMantissa_shiftRight (m k : Nat) :
    m / 2 ^ k ≤ (exact m >>> k).roundedMantissa
      ∧ ∀ n, m ≤ n * 2 ^ k →
        (exact m >>> k).roundedMantissa ≤ n := by
  obtain ⟨hmantissa, hrest⟩ := shiftRight_exact m k
  have hpos := Nat.two_pow_pos k
  have hle : ∀ n, m ≤ n * 2 ^ k → m / 2 ^ k ≤ n := fun n hn ↦ by
    simpa [hpos] using Nat.div_le_div_right (c := 2 ^ k) hn
  -- with a rest, the quotient does not reach the bound
  have hlt : m % 2 ^ k ≠ 0 → ∀ n, m ≤ n * 2 ^ k → m / 2 ^ k < n := fun hmod n hn ↦ by
    rw [Nat.div_lt_iff_lt_mul hpos]
    refine lt_of_le_of_ne hn fun heq ↦ hmod ?_
    rw [heq, Nat.mul_mod_left]
  generalize exact m >>> k = em at hmantissa hrest
  obtain ⟨mantissa, round, sticky⟩ := em
  subst hmantissa
  cases round
  · cases sticky <;> exact ⟨le_refl _, hle⟩
  · have hlt := hlt (hrest (.inl rfl))
    cases sticky
    · have hmod := Nat.mod_lt (m / 2 ^ k) (show 2 > 0 by decide)
      refine ⟨Nat.le_add_right _ _, fun n hn ↦ ?_⟩
      show m / 2 ^ k + m / 2 ^ k % 2 ≤ n
      have := hlt n hn
      omega
    · exact ⟨Nat.le_succ _, fun n hn ↦ hlt n hn⟩

/-- The first 53 bits of a number that has as many. -/
theorem div_two_pow_log2 {m : Nat} (hm : 2 ^ 52 ≤ m) :
    2 ^ 52 ≤ m / 2 ^ (m.log2 - 52) ∧ m / 2 ^ (m.log2 - 52) < 2 ^ 53 := by
  have hne : m ≠ 0 := by
    rintro rfl
    exact absurd hm (by decide)
  have hlog : 52 ≤ m.log2 := (Nat.le_log2 hne).2 hm
  have hpos := Nat.two_pow_pos (m.log2 - 52)
  rw [Nat.le_div_iff_mul_le hpos, Nat.div_lt_iff_lt_mul hpos, ← Nat.pow_add, ← Nat.pow_add,
    show 52 + (m.log2 - 52) = m.log2 by omega, show 53 + (m.log2 - 52) = m.log2 + 1 by omega]
  exact ⟨Nat.log2_self_le hne, Nat.lt_log2_self⟩

/-! ### Rounding -/

/-- A mantissa with 53 bits or more keeps the first 53 of them, unless the exponent is too small. -/
theorem shiftToTargetExponent_exact {m : Nat} {e : Int} (hm : 2 ^ 52 ≤ m) (he : -1074 ≤ e) :
    shiftToTargetExponent .binary64 m e .exact
      = (exact m >>> (m.log2 - 52), e + (m.log2 - 52 : Nat)) := by
  have hne : m ≠ 0 := by
    rintro rfl
    exact absurd hm (by decide)
  have hlog : 52 ≤ m.log2 := (Nat.le_log2 hne).2 hm
  have htarget : Format.targetExponent .binary64 (totalExponent m e) - e
      = (m.log2 - 52 : Nat) := by
    simp only [Format.targetExponent, totalExponent, Format.mantissaBits, Format.minExponent]
    omega
  simp only [shiftToTargetExponent, shiftToExponent, htarget]
  rfl

/-- Rounding in three steps: the mantissa is cut, rounded, and cut again, since rounding can carry.
-/
theorem roundWithAccuracy_eq_finite (s : Sign) {m r m₂ : Nat} {e e₁ e₂ : Int}
    {em₁ em₂ : ExtendedMantissa} (h₁ : shiftToTargetExponent .binary64 m e .exact = (em₁, e₁))
    (hr : em₁.roundedMantissa = r)
    (h₂ : shiftToTargetExponent .binary64 r e₁ .exact = (em₂, e₂)) (hm₂ : em₂.mantissa = m₂)
    (h : 0 < m₂) : roundWithAccuracy .binary64 s m e .exact = .finite s m₂ e₂ h := by
  subst hr hm₂
  unfold roundWithAccuracy
  rw [h₁]
  dsimp only
  rw [h₂]
  exact dif_neg (Nat.ne_of_gt h)

/-- A mantissa with 53 bits or more is rounded to one with 53, and does not pass a number that has
its last bit where the result has it. -/
theorem exists_roundWithAccuracy (s : Sign) {m : Nat} {e : Int} (hm : 2 ^ 52 ≤ m)
    (he : -1074 ≤ e) :
    ∃ m' e' h, roundWithAccuracy .binary64 s m e .exact = .finite s m' e' h
      ∧ 2 ^ 52 ≤ m' ∧ m' < 2 ^ 53 ∧ e ≤ e'
      ∧ ∀ n : Nat, m ≤ n → 2 ^ (m.log2 - 52) ∣ n → (m' : ℚ) * 2 ^ e' ≤ n * 2 ^ e := by
  obtain ⟨hfloor, hceil⟩ := roundedMantissa_shiftRight m (m.log2 - 52)
  generalize hr : (exact m >>> (m.log2 - 52)).roundedMantissa = r
    at hfloor hceil
  have hr52 : 2 ^ 52 ≤ r := le_trans (div_two_pow_log2 hm).1 hfloor
  -- rounding up may take one bit more, which is dropped in turn
  obtain ⟨hlo, hhi⟩ := div_two_pow_log2 hr52
  have hround := roundWithAccuracy_eq_finite s (shiftToTargetExponent_exact hm he) hr
    (shiftToTargetExponent_exact hr52 (by omega)) (shiftRight_exact r (r.log2 - 52)).1 (by omega)
  refine ⟨_, _, _, hround, hlo, hhi, by omega, fun n hle hdvd ↦ ?_⟩
  obtain ⟨c, rfl⟩ := hdvd
  have hrc : r / 2 ^ (r.log2 - 52) * 2 ^ (r.log2 - 52) ≤ c :=
    le_trans (Nat.div_mul_le_self _ _) (hceil c (by rwa [Nat.mul_comm]))
  have hcast : ((r / 2 ^ (r.log2 - 52) : Nat) : ℚ) * 2 ^ (r.log2 - 52) ≤ c := by
    exact_mod_cast hrc
  calc ((r / 2 ^ (r.log2 - 52) : Nat) : ℚ) * 2 ^ (e + (m.log2 - 52 : Nat) + (r.log2 - 52 : Nat))
      = (r / 2 ^ (r.log2 - 52) : Nat) * 2 ^ (r.log2 - 52) * (2 ^ (m.log2 - 52) * 2 ^ e) := by
        rw [zpow_add₀ two_ne_zero, zpow_add₀ two_ne_zero, zpow_natCast, zpow_natCast]
        ring
    _ ≤ c * (2 ^ (m.log2 - 52) * 2 ^ e) := mul_le_mul_of_nonneg_right hcast (by positivity)
    _ = (2 ^ (m.log2 - 52) * c : Nat) * 2 ^ e := by
        push_cast
        ring

/-! ### Packing -/

/-- A mantissa of 53 bits is kept when it is packed. -/
theorem unpack_pack (s : Sign) {m : Nat} {e : Int} (h : 0 < m) (hlo : 2 ^ 52 ≤ m) (hhi : m < 2 ^ 53)
    (he : -1074 ≤ e) (he' : e ≤ 971) :
    ∃ s', (Float.Model.pack (.finite s m e h)).unpack = .finite s' m e h := by
  have hlog : m.log2 = 52 := (Nat.log2_eq_iff (by omega)).2 ⟨hlo, hhi⟩
  -- the exponent as it is stored, which is neither of the two that are special
  obtain ⟨b, hb⟩ : ∃ b : Nat, (b : Int) = e + 1075 := ⟨(e + 1075).toNat, by omega⟩
  have hbits : UnpackedFloat.pack .binary64 (.finite s m e h)
      = packComponents .binary64 s (BitVec.ofNat 11 b) (BitVec.ofNat 52 m) := by
    simp only [UnpackedFloat.pack, Format.exponentBias, Format.mantissaBits, hlog]
    rw [if_neg (by omega), if_pos trivial]
    congr 2
    omega
  have hnat : (BitVec.ofNat 11 b).toNat = b := by
    rw [BitVec.toNat_ofNat]
    omega
  have hones : BitVec.ofNat 11 b ≠ -1#11 := fun heq ↦ by
    have := congrArg BitVec.toNat heq
    rw [hnat, show (-1#11).toNat = 2047 from rfl] at this
    omega
  have hzero : BitVec.ofNat 11 b ≠ 0#11 := fun heq ↦ by
    have := congrArg BitVec.toNat heq
    rw [hnat, show (0#11).toNat = 0 from rfl] at this
    omega
  have hmantissa : (1#1 ++ BitVec.ofNat 52 m).toNat = m := by
    rw [BitVec.toNat_append, ← Nat.shiftLeft_add_eq_or_of_lt (BitVec.isLt _), BitVec.toNat_ofNat]
    simp only [Nat.shiftLeft_eq]
    norm_num
    omega
  have hexponent : ((BitVec.ofNat 11 b).toNat : Int) - (Format.exponentBias .binary64 + (52 : Nat))
      = e := by
    rw [hnat]
    show (b : Int) - 1075 = e
    omega
  refine ⟨.ofBitVec (unpackSign (UnpackedFloat.pack .binary64 (.finite s m e h))), ?_⟩
  show UnpackedFloat.unpack .binary64 (UnpackedFloat.pack .binary64 (.finite s m e h)) = _
  rw [hbits, UnpackedFloat.unpack]
  simp only [unpackExponent_packComponents, unpackMantissa_packComponents, hones, hzero, if_false,
    hmantissa, hexponent]

/-! ### Doubles -/

/-- A power with an integer for its exponent, as a quotient of two with natural numbers. -/
theorem zpow_mul_pow_toNat {b : ℚ} (hb : b ≠ 0) (t : Int) :
    b ^ t * b ^ (-t).toNat = b ^ t.toNat := by
  rw [← zpow_natCast, ← zpow_natCast, ← zpow_add₀ hb]
  congr 1
  omega

/-- The double has 53 bits of mantissa, and is neither large nor small enough for the product of two
such doubles to lose some of them. -/
structure IsNormal (f : Float) (m : Nat) (e : Int) : Prop where
  unpack_eq : ∃ s h, f.toModel.unpack = .finite s m e h
  le_mantissa : 2 ^ 52 ≤ m
  mantissa_lt : m < 2 ^ 53
  le_exponent : -537 ≤ e

theorem add_lt_of_two_pow_le {m a : Nat} {e b : Int} (hm : 2 ^ a ≤ m)
    (hlt : (m : ℚ) * 2 ^ e < 2 ^ b) : a + e < b := by
  refine (zpow_lt_zpow_iff_right₀ (by norm_num : (1 : ℚ) < 2)).1 (lt_of_le_of_lt ?_ hlt)
  rw [zpow_add₀ two_ne_zero, zpow_natCast]
  exact mul_le_mul_of_nonneg_right (by exact_mod_cast hm) (by positivity)

/-- A mantissa with 53 bits or more is rounded and packed without overflow, if some number below
`2 ^ 1024` is not passed. -/
theorem exists_unpack_round (s : Sign) {m n : Nat} {e : Int} (hm : 2 ^ 52 ≤ m) (he : -1074 ≤ e)
    (hle : m ≤ n) (hdvd : 2 ^ (m.log2 - 52) ∣ n) (hlt : (n : ℚ) * 2 ^ e < 2 ^ (1024 : Int)) :
    ∃ s' m' e' h, (Float.Model.pack (roundWithAccuracy .binary64 s m e .exact)).unpack
        = .finite s' m' e' h
      ∧ 2 ^ 52 ≤ m' ∧ m' < 2 ^ 53 ∧ e ≤ e'
      ∧ (m' : ℚ) * 2 ^ e' ≤ n * 2 ^ e := by
  obtain ⟨m', e', h, hround, hlo, hhi, hle', hpass⟩ := exists_roundWithAccuracy s hm he
  have hpass := hpass n hle hdvd
  have hexponent := add_lt_of_two_pow_le hlo (lt_of_le_of_lt hpass hlt)
  obtain ⟨s', hunpack⟩ := unpack_pack s h hlo hhi (le_trans he hle') (by omega)
  exact ⟨s', m', e', h, by rw [hround, hunpack], hlo, hhi, hle', hpass⟩

/-- The largest finite double. -/
def largest : Nat := (2 ^ 53 - 1) * 2 ^ 971

theorem largest_lt : (largest : ℚ) < 2 ^ (1024 : Int) := by
  have h : largest < 2 ^ 1024 := by decide +kernel
  exact_mod_cast h

/-- Where the exact product is no larger than the largest double, the product is finite. -/
theorem isInf_mul_eq_false {f g : Float} {m n : Nat} {e k : Int} (hf : IsNormal f m e)
    (hg : IsNormal g n k) (hle : (m : ℚ) * 2 ^ e * (n * 2 ^ k) ≤ largest) :
    (f * g).isInf = false := by
  obtain ⟨s, h, hf'⟩ := hf.unpack_eq
  obtain ⟨t, h', hg'⟩ := hg.unpack_eq
  have hmul : (f * g).toModel
      = Float.Model.pack (roundWithAccuracy .binary64 (s * t) (m * n) (e + k) .exact) := by
    show Float.Model.pack (UnpackedFloat.mul .binary64 f.toModel.unpack g.toModel.unpack) = _
    rw [hf', hg']
    rfl
  have hbig : 2 ^ 52 ≤ m * n := le_trans (by decide) (Nat.mul_le_mul hf.le_mantissa hg.le_mantissa)
  have hle : ((m * n : Nat) : ℚ) * 2 ^ (e + k) ≤ largest := by
    rw [zpow_add₀ two_ne_zero]
    push_cast
    linarith
  have hlog : ((m * n).log2 : Int) + (e + k) < 1024 :=
    add_lt_of_two_pow_le (Nat.log2_self_le (by omega)) (lt_of_le_of_lt hle largest_lt)
  have hlog52 : 52 ≤ (m * n).log2 := (Nat.le_log2 (by omega)).2 hbig
  -- the last bit of the largest double is no smaller than that of the result
  obtain ⟨d, hd⟩ : ∃ d : Nat, (d : Int) = 971 - (e + k) := ⟨(971 - (e + k)).toNat, by omega⟩
  have hlargest : (((2 ^ 53 - 1) * 2 ^ d : Nat) : ℚ) * 2 ^ (e + k) = largest := by
    rw [Nat.cast_mul, Nat.cast_pow, mul_assoc, Nat.cast_ofNat, ← zpow_natCast,
      ← zpow_add₀ two_ne_zero, hd, sub_add_cancel]
    show (2 ^ 53 - 1 : Nat) * (2 : ℚ) ^ ((971 : Nat) : Int) = _
    rw [zpow_natCast, largest, Nat.cast_mul, Nat.cast_pow, Nat.cast_ofNat]
  have hn : m * n ≤ (2 ^ 53 - 1) * 2 ^ d := by
    rw [← hlargest] at hle
    exact_mod_cast le_of_mul_le_mul_right hle (by positivity)
  have hdvd : 2 ^ ((m * n).log2 - 52) ∣ (2 ^ 53 - 1) * 2 ^ d :=
    dvd_mul_of_dvd_right (Nat.pow_dvd_pow 2 (by omega)) _
  obtain ⟨s', m', e', h, hunpack, -⟩ := exists_unpack_round (s * t) hbig
    (by have := hf.le_exponent; have := hg.le_exponent; omega) hn hdvd (hlargest ▸ largest_lt)
  show (f * g).toModel.unpack.isInf = false
  rw [hmul, hunpack]
  rfl

theorem toModel_toFloat {s : Nat} (hs : 0 < s) (hlt : s < 2 ^ 64) :
    s.toUInt64.toFloat.toModel
      = Float.Model.pack (UnpackedFloat.round .binary64 .positive s 0) := by
  have hcompare : compare (s : Int) 0 = .gt := by
    simp only [compare, compareOfLessAndEq]
    rw [if_neg (by omega), if_neg (by omega)]
  show Float.Model.pack (UnpackedFloat.ofNat .binary64 s.toUInt64.toNat) = _
  rw [Nat.toUInt64, UInt64.toNat_ofNat', Nat.mod_eq_of_lt hlt, UnpackedFloat.ofNat,
    UnpackedFloat.ofInt, UnpackedFloat.normalize, hcompare]
  rfl

/-- A number of fewer than 53 bits is shifted to the left before it is rounded. -/
theorem round_natural {s : Nat} (hlt : s.log2 < 64) :
    UnpackedFloat.round .binary64 .positive s 0 = roundWithAccuracy .binary64 .positive
      (s * 2 ^ (52 - s.log2)) (-(52 - s.log2 : Nat)) .exact := by
  have htarget : ((0 : Int) - Format.targetExponent .binary64 (totalExponent s 0)).toNat
      = 52 - s.log2 := by
    simp only [Format.targetExponent, totalExponent, Format.mantissaBits, Format.minExponent]
    omega
  rw [UnpackedFloat.round, decreaseExponent, htarget, Nat.shiftLeft_eq, Int.zero_sub]

/-- The double nearest to a number does not pass a number of which 53 bits at most are in use. -/
theorem exists_isNormal_toFloat {s y : Nat} (hs : 0 < s) (hle : s ≤ y) (hy : y < 2 ^ 64)
    (hbits : 2 ^ (y.log2 - 52) ∣ y) :
    ∃ m e, IsNormal s.toUInt64.toFloat m e ∧ (m : ℚ) * 2 ^ e ≤ y := by
  have hne : s ≠ 0 := Nat.ne_of_gt hs
  have hlog : s.log2 ≤ y.log2 :=
    (Nat.le_log2 (by omega)).2 (le_trans (Nat.log2_self_le hne) hle)
  have hlog64 : s.log2 < 64 := (Nat.log2_lt hne).2 (lt_of_le_of_lt hle hy)
  generalize ha : 52 - s.log2 = a
  have hlogM : (s * 2 ^ a).log2 = s.log2 + a := by
    rw [Nat.log2_eq_iff (Nat.ne_of_gt (Nat.mul_pos hs (Nat.two_pow_pos a))), Nat.pow_add,
      Nat.add_right_comm, Nat.pow_add _ _ a]
    exact ⟨Nat.mul_le_mul_right _ (Nat.log2_self_le hne),
      Nat.mul_lt_mul_of_pos_right Nat.lt_log2_self (Nat.two_pow_pos a)⟩
  have hM : 2 ^ 52 ≤ s * 2 ^ a := by
    rw [← Nat.le_log2 (Nat.ne_of_gt (Nat.mul_pos hs (Nat.two_pow_pos a)))]
    omega
  have hdvd : 2 ^ ((s * 2 ^ a).log2 - 52) ∣ y * 2 ^ a := by
    rw [show (s * 2 ^ a).log2 - 52 = s.log2 - 52 by omega]
    exact dvd_mul_of_dvd_left (dvd_trans (Nat.pow_dvd_pow 2 (Nat.sub_le_sub_right hlog 52)) hbits) _
  have hvalue : ((y * 2 ^ a : Nat) : ℚ) * 2 ^ (-(a : Int)) = y := by
    rw [zpow_neg, zpow_natCast]
    push_cast
    exact mul_inv_cancel_right₀ (by positivity) _
  have hlt : (y : ℚ) < 2 ^ (1024 : Int) := by
    have h : y < 2 ^ 1024 := lt_trans hy (by decide +kernel)
    exact_mod_cast h
  obtain ⟨s', m', e', h, hunpack, hlo, hhi, hle', hpass⟩ := exists_unpack_round .positive hM
    (by omega) (Nat.mul_le_mul_right _ hle) hdvd (hvalue ▸ hlt)
  refine ⟨m', e', ⟨⟨s', h, ?_⟩, hlo, hhi, by omega⟩, hvalue ▸ hpass⟩
  rw [toModel_toFloat hs (lt_of_le_of_lt hle hy), round_natural hlog64, ha, hunpack]

/-! ### Powers of ten -/

/-- A power of ten beyond the table is rounded once, from its exact value. -/
theorem toModel_powerOfTen {p : Nat} (hlo : 22 < p) (hhi : p ≤ 2048) :
    (Json.powerOfTen p).toModel = Float.Model.pack
      (roundWithAccuracy .binary64 .positive (2 ^ 53 * 10 ^ p) (-53) .exact) := by
  rw [Json.powerOfTen, Float.ofScientific, dif_neg (by omega)]
  show Float.Model.pack (UnpackedFloat.ofScientific .binary64 1 (Int.ofNat p)) = _
  rw [UnpackedFloat.ofScientific, dif_neg (by decide), if_neg, if_neg, if_pos]
  · rfl
  · exact Int.natCast_nonneg p
  · have h : (0 : Int) ≤ (2 : Int) ^ Format.binary64.exponentBits + (Nat.log2 1 : Int) := by decide
    show ¬(p : Int) < _
    omega
  · show ¬(p : Int) > 2048
    omega

theorem ten_pow_le {p q : Nat} (h : p ≤ 3 * q) : 10 ^ p ≤ 2 ^ (10 * q) :=
  calc 10 ^ p ≤ 10 ^ (3 * q) := Nat.pow_le_pow_right (by decide) h
    _ = (10 ^ 3) ^ q := Nat.pow_mul 10 3 q
    _ ≤ (2 ^ 10) ^ q := Nat.pow_le_pow_left (by decide) q
    _ = 2 ^ (10 * q) := (Nat.pow_mul 2 10 q).symm

/-- A power of ten beyond the table of exact ones is rounded to less than its double. -/
theorem exists_isNormal_powerOfTen {p : Nat} (hlo : 22 < p) (hhi : p ≤ 3 * 97) :
    ∃ m e, IsNormal (Json.powerOfTen p) m e ∧ (m : ℚ) * 2 ^ e ≤ 2 * 10 ^ p := by
  generalize hM : 2 ^ 53 * 10 ^ p = M
  have hM52 : 2 ^ 52 ≤ M := by
    rw [← hM]
    exact le_trans (by decide) (Nat.le_mul_of_pos_right _ (Nat.pow_pos (by decide)))
  -- the next number with the same last bit
  have hlow : 2 ^ (M.log2 - 52) ≤ M :=
    le_trans (Nat.pow_le_pow_right (by decide) (Nat.sub_le _ _)) (Nat.log2_self_le (by omega))
  have hdiv := Nat.mul_div_le M (2 ^ (M.log2 - 52))
  have hnext := Nat.lt_mul_div_succ M (Nat.two_pow_pos (M.log2 - 52))
  have hvalue : ((2 ^ (M.log2 - 52) * (M / 2 ^ (M.log2 - 52) + 1) : Nat) : ℚ) * 2 ^ (-53 : Int)
      ≤ 2 * 10 ^ p := by
    have hnat : 2 ^ (M.log2 - 52) * (M / 2 ^ (M.log2 - 52) + 1) ≤ 2 * 10 ^ p * 2 ^ 53 := by
      linarith
    rw [zpow_neg, ← div_eq_mul_inv]
    exact (div_le_iff₀ (by positivity)).2 (by exact_mod_cast hnat)
  have hlt : (2 * 10 ^ p : ℚ) < 2 ^ (1024 : Int) := by
    have hpow : 10 ^ p ≤ 2 ^ (10 * 97) := ten_pow_le hhi
    have h : 2 * 10 ^ p < 2 ^ 1024 :=
      lt_of_le_of_lt (Nat.mul_le_mul_left 2 hpow) (by decide +kernel)
    exact_mod_cast h
  obtain ⟨s', m', e', h, hunpack, hlo', hhi', hle', hpass⟩ := exists_unpack_round .positive hM52
    (by decide) (Nat.le_of_lt hnext) (dvd_mul_right _ _) (lt_of_le_of_lt hvalue hlt)
  refine ⟨m', e', ⟨⟨s', h, ?_⟩, hlo', hhi', by omega⟩, le_trans hpass hvalue⟩
  rw [toModel_powerOfTen hlo (by omega), hM, hunpack]

end PostBlocks.Binary
