import PostBlocks.Proofs.Decimal.Rounding

/-!
# Scaled significands

A significand of at most seventeen digits is read as the nearest double and scaled by the double
nearest to a power of ten. Where the exact number is no larger than the largest double, this does
not overflow (`isSome_scale?`). Rounding errs three times on the way and may go up each time, so an
estimate of the error is not good enough. Instead there is, for each power of ten, a number of at
most 53 bits that the significand cannot exceed, so that its double cannot either
(`Binary.exists_isNormal_toFloat`); the product of that number and the power is within range for all
powers. A single significand is beyond this number, the one of the largest double itself.
-/

namespace PostBlocks.Json

open Binary (IsNormal largest)

/-! ### Powers of ten -/

/-- What a significand is at most, for its product with a power of ten to be a double. -/
def ceiling (p : Nat) : Nat :=
  if p ≤ 291 then 10 ^ 17 else if p = 292 then 17976931348623156 else largest / 10 ^ p

/-- The double of a power of ten is normal, and its product with the ceiling is a double. -/
def ceilingFits (p : Nat) : Bool :=
  match (powerOfTen p).toModel.unpack with
  | .finite _ n k _ =>
    decide (2 ^ 52 ≤ n ∧ n < 2 ^ 53 ∧ -537 ≤ k
      ∧ ceiling p * n * 2 ^ k.toNat ≤ largest * 2 ^ (-k).toNat)
  | _ => false

/-- The test says what is asked of a power, so it can be run for the powers at the ends. -/
theorem exists_isNormal_of_ceilingFits {p : Nat} (h : ceilingFits p = true) :
    ∃ n k, IsNormal (powerOfTen p) n k ∧ (ceiling p : ℚ) * (n * 2 ^ k) ≤ largest := by
  unfold ceilingFits at h
  split at h
  · next s n k hn hunpack =>
    obtain ⟨hlo, hhi, hk, hle⟩ := of_decide_eq_true h
    refine ⟨n, k, ⟨⟨s, hn, hunpack⟩, hlo, hhi, hk⟩, ?_⟩
    have hcast : (ceiling p * n * 2 ^ k.toNat : ℚ) ≤ largest * 2 ^ (-k).toNat := by
      exact_mod_cast hle
    refine le_of_mul_le_mul_right (a := (2 : ℚ) ^ (-k).toNat) ?_ (by positivity)
    calc (ceiling p : ℚ) * (n * 2 ^ k) * 2 ^ (-k).toNat
        = ceiling p * n * 2 ^ k.toNat := by rw [← Binary.zpow_mul_pow_toNat two_ne_zero k]; ring
      _ ≤ largest * 2 ^ (-k).toNat := hcast
  · cases h

/-- The product of the ceiling and the power is a double, for each power of ten. -/
theorem exists_isNormal_ceiling {p : Nat} (hp : p ≤ 308) :
    ∃ n k, IsNormal (powerOfTen p) n k ∧ (ceiling p : ℚ) * (n * 2 ^ k) ≤ largest := by
  by_cases hmid : 22 < p ∧ p ≤ 290
  · -- far from the ends a rough estimate will do
    obtain ⟨n, k, hnormal, hle⟩ := Binary.exists_isNormal_powerOfTen hmid.1 (by omega)
    refine ⟨n, k, hnormal, ?_⟩
    have hpow : 2 * 10 ^ 17 * 10 ^ p ≤ largest := by
      refine le_trans (Nat.mul_le_mul_left _ (Nat.pow_le_pow_right (by decide) hmid.2)) ?_
      decide +kernel
    have hcast : (2 * 10 ^ 17 * 10 ^ p : ℚ) ≤ largest := by exact_mod_cast hpow
    rw [ceiling, if_pos (by omega)]
    push_cast
    linarith
  · have hends : ∀ q ∈ List.range 23 ++ (List.range 18).map (291 + ·), ceilingFits q = true := by
      decide +kernel
    refine exists_isNormal_of_ceilingFits (hends p ?_)
    simp only [List.mem_append, List.mem_range, List.mem_map]
    by_cases hlow : p < 23
    · exact .inl hlow
    · exact .inr ⟨p - 291, by omega, by omega⟩

/-! ### Significands -/

/-- The quotients of the largest double by large powers of ten have 53 bits at most. -/
theorem largest_div_lt {p : Nat} (hp : 292 < p) : largest / 10 ^ p < 2 ^ 53 := by
  rw [Nat.div_lt_iff_lt_mul (Nat.pow_pos (by decide))]
  refine lt_of_lt_of_le ?_ (Nat.mul_le_mul_left _ (Nat.pow_le_pow_right (by decide) hp))
  decide +kernel

theorem largest_lt_pow {p : Nat} (hp : 308 < p) : largest < 10 ^ p := by
  refine lt_of_lt_of_le ?_ (Nat.pow_le_pow_right (by decide) hp)
  decide +kernel

/-- The ceiling has 53 bits at most in use, so it is a double itself. -/
theorem ceiling_bits (p : Nat) :
    ceiling p < 2 ^ 64 ∧ 2 ^ ((ceiling p).log2 - 52) ∣ ceiling p := by
  unfold ceiling
  split
  · decide +kernel
  · split
    · decide +kernel
    · have hlt := largest_div_lt (p := p) (by omega)
      have hlog : (largest / 10 ^ p).log2 < 53 := by
        by_cases hzero : largest / 10 ^ p = 0
        · rw [hzero]
          decide
        · exact (Nat.log2_lt hzero).2 hlt
      refine ⟨lt_trans hlt (by decide), ?_⟩
      rw [show (largest / 10 ^ p).log2 - 52 = 0 by omega]
      exact one_dvd _

/-- Only the significand of the largest double is above the ceiling. -/
theorem le_ceiling {s p : Nat} (hs : s ≤ 10 ^ 17) (hle : s * 10 ^ p ≤ largest) :
    s ≤ ceiling p ∨ s = 17976931348623157 ∧ p = 292 := by
  unfold ceiling
  split
  · exact .inl hs
  · split
    · next heq =>
      have hdiv : s ≤ largest / 10 ^ p := (Nat.le_div_iff_mul_le (Nat.pow_pos (by decide))).2 hle
      have hquotient : largest / 10 ^ p = 17976931348623157 := by
        rw [heq]
        decide +kernel
      rw [hquotient] at hdiv
      omega
    · exact .inl ((Nat.le_div_iff_mul_le (Nat.pow_pos (by decide))).2 hle)

/-- The product of a significand and a power of ten does not overflow. -/
theorem isInf_toFloat_mul {s p : Nat} (hpos : 0 < s) (hs : s ≤ 10 ^ 17) (hp : p ≤ 308)
    (hle : s * 10 ^ p ≤ largest) : (s.toUInt64.toFloat * powerOfTen p).isInf = false := by
  rcases le_ceiling hs hle with hceil | ⟨rfl, rfl⟩
  · obtain ⟨hlt, hbits⟩ := ceiling_bits p
    obtain ⟨m, e, hnormal, hvalue⟩ := Binary.exists_isNormal_toFloat hpos hceil hlt hbits
    obtain ⟨n, k, hnormal', hproduct⟩ := exists_isNormal_ceiling hp
    have hle : (m : ℚ) * 2 ^ e * (n * 2 ^ k) ≤ ceiling p * (n * 2 ^ k) :=
      mul_le_mul_of_nonneg_right hvalue (mul_nonneg n.cast_nonneg (zpow_nonneg zero_le_two k))
    exact Binary.isInf_mul_eq_false hnormal hnormal' (hle.trans hproduct)
  · decide +kernel

theorem isInf_zero_mul {p : Nat} (hp : p ≤ 308) :
    ((0 : Nat).toUInt64.toFloat * powerOfTen p).isInf = false := by
  obtain ⟨n, k, ⟨⟨s, hn, hunpack⟩, -⟩, -⟩ := exists_isNormal_ceiling hp
  have hzero : (0 : Nat).toUInt64.toFloat.toModel.unpack = .zero .positive := rfl
  have hmul : ((0 : Nat).toUInt64.toFloat * powerOfTen p).toModel
      = Float.Model.pack (.zero (.positive * s)) := by
    show Float.Model.pack (Float.Model.UnpackedFloat.mul .binary64
      (0 : Nat).toUInt64.toFloat.toModel.unpack (powerOfTen p).toModel.unpack) = _
    rw [hzero, hunpack]
    rfl
  show ((0 : Nat).toUInt64.toFloat * powerOfTen p).toModel.unpack.isInf = false
  rw [hmul]
  cases s <;> decide +kernel

/-! ### Scaling -/

/-- Scaling down always has a result. -/
theorem isSome_scale?_of_neg (f : Float) {places : Int} (h : places < 0) :
    (scale? f places).isSome := by
  fun_induction scale? f places with
  | case1 => omega
  | case2 => omega
  | case3 => rfl
  | case4 => rfl
  | case5 => omega
  | case6 f places _ _ _ ih => exact ih (by omega)

/-- A significand of at most seventeen digits can be scaled to any size up to the largest double. -/
theorem isSome_scale? {s : Nat} {places : Int} (hs : s ≤ 10 ^ 17)
    (hle : s * 10 ^ places.toNat ≤ largest) : (scale? s.toUInt64.toFloat places).isSome := by
  rcases Int.lt_or_le places 0 with hneg | hpos
  · exact isSome_scale?_of_neg _ hneg
  obtain ⟨p, rfl⟩ := Int.eq_ofNat_of_zero_le hpos
  rw [Int.toNat_natCast] at hle
  have hfinite : p ≤ 308 → (s.toUInt64.toFloat * powerOfTen p).isInf = false := fun hp ↦ by
    rcases Nat.eq_zero_or_pos s with rfl | hspos
    · exact isInf_zero_mul hp
    · exact isInf_toFloat_mul hspos hs hp hle
  unfold scale?
  rw [Int.natAbs_natCast]
  split
  · next hp =>
    show (if (s.toUInt64.toFloat * powerOfTen p).isInf = true then none else some _).isSome = true
    rw [hfinite hp]
    rfl
  · next hp =>
    -- a power of ten that large leaves room for zero alone
    have hzero : s = 0 := by
      by_contra hne
      have hle := le_trans (Nat.le_mul_of_pos_left _ (Nat.pos_of_ne_zero hne)) hle
      exact absurd hle (Nat.not_le_of_lt (largest_lt_pow (by omega)))
    subst hzero
    rw [if_pos (by decide +kernel)]
    rfl

end PostBlocks.Json
