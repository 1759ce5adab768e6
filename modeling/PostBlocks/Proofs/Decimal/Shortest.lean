import PostBlocks.Decimal.Shortest
import PostBlocks.Proofs.Decimal.Rounding

/-!
# The size of a shortest decimal

The shortest decimal of a double has at most seventeen digits, because the search starts with the
place of the leading digit (`lt_ten_pow_leadingExponent`) and stops after as many. It is no larger
than the largest double either (`shortest_le`): it lies in the interval of numbers that read back as
the double, whose upper end is half a place above the double. Only for the largest double is that
end too large; its shortest decimal is below it.
-/

namespace PostBlocks.Decimal

open Binary (largest)

/-! ### Common scales -/

/-- Both numbers of a common scale are multiplied by the same power of two and of ten. -/
theorem onScale_eq (a : Nat) (s : Int) (d : Nat) (k : Int) :
    ((onScale a s d k).1 : ℚ) = a * 2 ^ s * (2 ^ (-s).toNat * 10 ^ (-k).toNat)
      ∧ ((onScale a s d k).2 : ℚ) = d * 10 ^ k * (2 ^ (-s).toNat * 10 ^ (-k).toNat) := by
  have h2 := Binary.zpow_mul_pow_toNat two_ne_zero s
  have h10 := Binary.zpow_mul_pow_toNat (b := 10) (by norm_num) k
  constructor
  · show ((a * 2 ^ s.toNat * 10 ^ (-k).toNat : Nat) : ℚ) = _
    push_cast
    rw [← h2]
    ring
  · show ((d * 10 ^ k.toNat * 2 ^ (-s).toNat : Nat) : ℚ) = _
    push_cast
    rw [← h10]
    ring

/-- So numbers are compared by their integers on the scale. -/
theorem onScale_le_iff {a d : Nat} {s k : Int} :
    (onScale a s d k).2 ≤ (onScale a s d k).1 ↔ (d : ℚ) * 10 ^ k ≤ a * 2 ^ s := by
  obtain ⟨h1, h2⟩ := onScale_eq a s d k
  rw [← Nat.cast_le (α := ℚ), h1, h2]
  exact mul_le_mul_iff_of_pos_right (by positivity)

/-! ### The leading digit -/

theorem lt_ten_pow_digitCount (n : Nat) : n < 10 ^ digitCount n :=
  (Nat.length_toDigits_le_iff (by decide) Nat.length_toDigits_pos).1 (Nat.le_refl _)

theorem ten_pow_digitCount_le {n : Nat} (h : 0 < n) : 10 ^ (digitCount n - 1) ≤ n := by
  by_contra hlt
  have hpos : 0 < digitCount n := Nat.length_toDigits_pos
  rcases Nat.eq_zero_or_pos (digitCount n - 1) with hzero | hone
  · rw [hzero] at hlt
    omega
  · have hle := (Nat.length_toDigits_le_iff (by decide) hone).2 (Nat.lt_of_not_le hlt)
    rw [← digitCount] at hle
    omega

/-- A number is below the place before its leading digit. -/
theorem lt_ten_pow_leadingExponent (a : Nat) (s : Int) :
    (a : ℚ) * 2 ^ s < 10 ^ (leadingExponent a s + 1) := by
  generalize hnum : a * 2 ^ s.toNat = num
  generalize hden : 2 ^ (-s).toNat = den
  have hpos : 0 < den := hden ▸ Nat.two_pow_pos _
  have hvalue : (a : ℚ) * 2 ^ s * den = num := by
    rw [← hnum, ← hden]
    push_cast
    rw [mul_assoc, Binary.zpow_mul_pow_toNat two_ne_zero]
  have hleading : leadingExponent a s
      = if (onScale a s 1 (digitCount num - digitCount den)).2
          ≤ (onScale a s 1 (digitCount num - digitCount den)).1
        then (digitCount num : Int) - digitCount den
        else digitCount num - digitCount den - 1 := by
    rw [← hnum, ← hden]
    rfl
  rw [hleading]
  split
  · -- the first guess: the difference of the numbers of digits is not too small
    have hlo : (10 ^ (digitCount den - 1) : ℚ) ≤ den := by
      exact_mod_cast ten_pow_digitCount_le hpos
    have hhi : (num : ℚ) < 10 ^ digitCount num := by exact_mod_cast lt_ten_pow_digitCount num
    have hcount : 0 < digitCount den := Nat.length_toDigits_pos
    have hexponents : (10 : ℚ) ^ ((digitCount num : Int) - digitCount den + 1)
        * 10 ^ (digitCount den - 1) = 10 ^ digitCount num := by
      rw [← zpow_natCast, ← zpow_natCast, ← zpow_add₀ (by norm_num)]
      congr 1
      omega
    refine lt_of_mul_lt_mul_right (a := (den : ℚ)) ?_ den.cast_nonneg
    calc (a : ℚ) * 2 ^ s * den = num := hvalue
      _ < 10 ^ digitCount num := hhi
      _ = 10 ^ ((digitCount num : Int) - digitCount den + 1) * 10 ^ (digitCount den - 1) :=
        hexponents.symm
      _ ≤ 10 ^ ((digitCount num : Int) - digitCount den + 1) * den :=
        mul_le_mul_of_nonneg_left hlo (by positivity)
  · next hlt =>
    -- the guess was too large, which is what the comparison says
    rw [onScale_le_iff, not_le, Nat.cast_one, one_mul] at hlt
    rwa [sub_add_cancel]

/-! ### Decimals on a grid -/

/-- A decimal that is found on a grid is next to the double and inside of its interval. -/
theorem exists_of_onGrid? {tie : Tie} {x : Dyadic} {k : Int} {r : Scaled}
    (h : onGrid? tie x k = some r) :
    ∃ d, r = ⟨d, k⟩
      ∧ d ≤ (onScale (4 * x.mantissa) (x.exponent - 2) 1 k).1
        / (onScale (4 * x.mantissa) (x.exponent - 2) 1 k).2 + 1
      ∧ (onScale x.quarters.1 (x.exponent - 2) d k).1
        ≤ (onScale x.quarters.1 (x.exponent - 2) d k).2
      ∧ (onScale (4 * x.mantissa + 2) (x.exponent - 2) d k).2
        ≤ (onScale (4 * x.mantissa + 2) (x.exponent - 2) d k).1 := by
  have hinside : ∀ {p : Prop} [Decidable p] {l y h : Nat},
      (if p then decide (l ≤ y) && decide (y ≤ h) else decide (l < y) && decide (y < h)) = true →
        l ≤ y ∧ y ≤ h := by
    intro p _ l y h hp
    split at hp <;> simp only [Bool.and_eq_true, decide_eq_true_eq] at hp <;> omega
  simp only [onGrid?] at h
  split at h
  · cases h
  · next hdown _ =>
    cases h
    exact ⟨_, rfl, Nat.le_succ _, hinside hdown⟩
  · next _ hup =>
    cases h
    exact ⟨_, rfl, Nat.le_refl _, hinside hup⟩
  · next hdown hup =>
    split at h <;> cases h
    · exact ⟨_, rfl, Nat.le_succ _, hinside hdown⟩
    · exact ⟨_, rfl, Nat.le_refl _, hinside hup⟩

/-- A decimal of at most so many digits that is no larger than the upper end of a double's interval;
zero is written as such. -/
structure IsModerate (count : Nat) (x : Dyadic) (r : Scaled) : Prop where
  digits_le : r.digits ≤ 10 ^ count
  value_le : (r.digits : ℚ) * 10 ^ r.exponent ≤ (4 * x.mantissa + 2 : Nat) * 2 ^ (x.exponent - 2)
  exponent_eq : r.digits = 0 → r.exponent = 0

theorem IsModerate.mono {count count' : Nat} {x : Dyadic} {r : Scaled} (h : IsModerate count x r)
    (hle : count ≤ count') : IsModerate count' x r :=
  ⟨le_trans h.digits_le (Nat.pow_le_pow_right (by decide) hle), h.value_le, h.exponent_eq⟩

/-- A decimal on a grid has no more digits than the grid leaves the double. -/
theorem isModerate_of_onGrid? {tie : Tie} {x : Dyadic} {k : Int} {r : Scaled} {count : Nat}
    (h : onGrid? tie x k = some r) (hx : 0 < x.mantissa)
    (hcount : (4 * x.mantissa : Nat) * (2 : ℚ) ^ (x.exponent - 2) < 10 ^ (k + count)) :
    IsModerate count x r := by
  obtain ⟨d, rfl, hd, hlow, hhigh⟩ := exists_of_onGrid? h
  have hquotient : (onScale (4 * x.mantissa) (x.exponent - 2) 1 k).1
      / (onScale (4 * x.mantissa) (x.exponent - 2) 1 k).2 < 10 ^ count := by
    obtain ⟨h1, h2⟩ := onScale_eq (4 * x.mantissa) (x.exponent - 2) 1 k
    have hpos : 0 < (onScale (4 * x.mantissa) (x.exponent - 2) 1 k).2 :=
      Nat.mul_pos (Nat.mul_pos Nat.one_pos (Nat.pow_pos (by decide))) (Nat.pow_pos (by decide))
    rw [Nat.div_lt_iff_lt_mul hpos, ← Nat.cast_lt (α := ℚ), Nat.cast_mul, h1, h2]
    refine lt_of_lt_of_eq (mul_lt_mul_of_pos_right hcount (by positivity)) ?_
    rw [zpow_add₀ (by norm_num), zpow_natCast]
    push_cast
    ring
  refine ⟨show d ≤ 10 ^ count by omega, onScale_le_iff.1 hhigh, fun hzero ↦ ?_⟩
  -- zero is below the interval
  have hzero : d = 0 := hzero
  have hquarters : 0 < x.quarters.1 := by
    show 0 < 4 * x.mantissa - (if x.mantissa = Dyadic.hidden ∧ -1074 < x.exponent then 1 else 2)
    split <;> omega
  have hleft : 0 < (onScale x.quarters.1 (x.exponent - 2) d k).1 :=
    Nat.mul_pos (Nat.mul_pos hquarters (Nat.pow_pos (by decide))) (Nat.pow_pos (by decide))
  have hright : (onScale x.quarters.1 (x.exponent - 2) d k).2 = 0 := by
    simp [onScale, hzero]
  omega

/-! ### The search -/

/-- The search tries finer grids until one has a decimal, seventeen digits at the finest. The double
is below the power of ten behind its leading digit, which bounds the digits on every grid. -/
theorem isModerate_firstOnGrid {tie : Tie} {x : Dyadic} {leading : Int} (hx : 0 < x.mantissa)
    (hleading : (4 * x.mantissa : Nat) * (2 : ℚ) ^ (x.exponent - 2) < 10 ^ (leading + 1))
    (count fuel : Nat) (h : count + fuel ≤ 18) :
    IsModerate 17 x (firstOnGrid tie x leading count fuel) := by
  induction fuel generalizing count with
  | zero => exact ⟨by simp [firstOnGrid], by simp [firstOnGrid]; positivity, fun _ ↦ rfl⟩
  | succ fuel ih =>
    rw [firstOnGrid]
    cases hgrid : onGrid? tie x (leading - count + 1) with
    | none => exact ih (count + 1) (by omega)
    | some r =>
      have hmoderate : IsModerate count x r := by
        refine isModerate_of_onGrid? hgrid hx ?_
        rwa [show leading - count + 1 + count = leading + 1 by ring]
      exact hmoderate.mono (by omega)

/-- Trailing zeros do not matter. -/
theorem IsModerate.trim {count : Nat} {x : Dyadic} {r : Scaled} (h : IsModerate count x r)
    (fuel : Nat) : IsModerate count x (r.trim fuel) := by
  induction fuel generalizing r with
  | zero => exact h
  | succ fuel ih =>
    rw [Scaled.trim]
    split
    · next hdigits =>
      refine ih ⟨le_trans (Nat.div_le_self _ _) h.digits_le, ?_, fun hzero ↦ ?_⟩
      · refine le_of_eq_of_le ?_ h.value_le
        have hten : (r.digits : ℚ) = (r.digits / 10 : Nat) * 10 := by
          exact_mod_cast (Nat.div_mul_cancel (Nat.dvd_of_mod_eq_zero hdigits.2)).symm
        rw [hten, zpow_add₀ (by norm_num), zpow_one]
        ring
      · have hzero : r.digits / 10 = 0 := hzero
        omega
    · exact h

/-- What the search starts from is the place of the leading digit. -/
theorem isModerate_shortest (tie : Tie) {x : Dyadic} (hx : 0 < x.mantissa) :
    IsModerate 17 x (shortest tie x) :=
  (isModerate_firstOnGrid hx (lt_ten_pow_leadingExponent _ _) 1 17 (by decide)).trim 18

/-! ### Finite doubles -/

/-- The upper end of the interval of a finite double is no larger than the largest one, if the
double is not that one itself. -/
theorem upper_le_largest {x : Dyadic} (hm : x.mantissa < 2 ^ 53) (he : x.exponent ≤ 971)
    (hne : x ≠ ⟨2 ^ 53 - 1, 971⟩) :
    ((4 * x.mantissa + 2 : Nat) : ℚ) * 2 ^ (x.exponent - 2) ≤ largest := by
  have hlargest : (largest : ℚ) = (4 * (2 ^ 53 - 1) : Nat) * 2 ^ (969 : Int) := by
    have h : largest = 4 * (2 ^ 53 - 1) * 2 ^ 969 := by decide +kernel
    rw [h, Nat.cast_mul, Nat.cast_pow]
    rfl
  rw [hlargest]
  rcases Int.lt_or_le x.exponent 971 with hlt | hge
  · -- twice the mantissa makes room for the half place
    have hdouble : (4 * x.mantissa + 2 : Nat) ≤ 4 * (2 ^ 53 - 1) * 2 := by omega
    calc ((4 * x.mantissa + 2 : Nat) : ℚ) * 2 ^ (x.exponent - 2)
        ≤ (4 * (2 ^ 53 - 1) * 2 : Nat) * 2 ^ (968 : Int) := by
          refine mul_le_mul (by exact_mod_cast hdouble) ?_ (by positivity) (by positivity)
          exact zpow_le_zpow_right₀ one_le_two (by omega)
      _ = (4 * (2 ^ 53 - 1) : Nat) * 2 ^ (969 : Int) := by
          rw [show (969 : Int) = 1 + 968 by rfl, zpow_add₀ two_ne_zero, zpow_one, Nat.cast_mul,
            mul_assoc, Nat.cast_ofNat]
  · -- with the largest exponent, only the largest mantissa is out of range
    have hexponent : x.exponent = 971 := le_antisymm he hge
    have hmantissa : x.mantissa ≠ 2 ^ 53 - 1 := fun heq ↦ hne (by
      obtain ⟨m, e⟩ := x
      simp only at heq hexponent
      rw [heq, hexponent])
    have hle : 4 * x.mantissa + 2 ≤ 4 * (2 ^ 53 - 1) := by omega
    rw [hexponent]
    exact mul_le_mul_of_nonneg_right (by exact_mod_cast hle) (by positivity)

/-- The shortest decimal of a finite double has seventeen digits at most and is a double's size. -/
theorem shortest_le {x : Dyadic} (hx : 0 < x.mantissa) (hm : x.mantissa < 2 ^ 53)
    (he : x.exponent ≤ 971) :
    (shortest .toEven x).digits ≤ 10 ^ 17
      ∧ (shortest .toEven x).digits * 10 ^ (shortest .toEven x).exponent.toNat ≤ largest
      ∧ ((shortest .toEven x).digits = 0 → (shortest .toEven x).exponent = 0) := by
  by_cases hne : x = ⟨2 ^ 53 - 1, 971⟩
  · have hmax : shortest .toEven ⟨2 ^ 53 - 1, 971⟩ = ⟨17976931348623157, 292⟩ := by decide +kernel
    rw [hne, hmax]
    decide +kernel
  · obtain ⟨hdigits, hvalue, hzero⟩ := isModerate_shortest .toEven hx
    refine ⟨hdigits, ?_, hzero⟩
    generalize shortest .toEven x = r at *
    rcases Int.lt_or_le r.exponent 0 with hneg | hpos
    · rw [show r.exponent.toNat = 0 by omega, Nat.pow_zero, Nat.mul_one]
      exact le_trans hdigits (by decide +kernel)
    · have hle := le_trans hvalue (upper_le_largest hm he hne)
      rw [← Int.toNat_of_nonneg hpos, zpow_natCast] at hle
      exact_mod_cast hle

end PostBlocks.Decimal
