import ApiContract.Proofs.Number.Rounding

/-! # The digits of a float

The shortest digits of a float lie in its interval, so they read back as the float. The search for them ends
within seventeen digits: the grid of seventeen digits is finer than half of the interval.

* `decimalLength_bounds`, `pointPlace_le`: where the decimal point stands.
* `Binary64.Reach.holds_iff`, `Binary64.Reach.below_bounds`: the two tests that the search makes.
* `Binary64.isSome_onGrid`: a grid that is fine enough has a candidate.
* `Binary64.contains_shortest`: the digits lie in the interval.
* `Binary64.ofDecimal?_of_contains`: a decimal numeral in the interval of a float stands for the float. -/

set_option autoImplicit false

namespace ApiContract

/-! ## Places of the point -/

/-- A natural number lies between the powers of ten that its digits give. -/
theorem decimalLength_bounds {n : Nat} (hn : n ≠ 0) :
    (10 : ℚ) ^ ((decimalLength n : ℤ) - 1) ≤ n ∧ (n : ℚ) < 10 ^ (decimalLength n : ℤ) := by
  simp only [decimalLength, if_neg hn]
  have hlength : 0 < (Nat.toDigits 10 n).length := Nat.length_toDigits_pos
  have hlt : n < 10 ^ (Nat.toDigits 10 n).length := (Nat.length_toDigits_le_iff (by decide) hlength).1 le_rfl
  have hle : 10 ^ ((Nat.toDigits 10 n).length - 1) ≤ n := by
    by_contra h
    rcases Nat.eq_zero_or_pos ((Nat.toDigits 10 n).length - 1) with hzero | hpos
    · rw [hzero] at h
      omega
    · have := (Nat.length_toDigits_le_iff (by decide) hpos).2 (not_le.1 h)
      omega
  refine ⟨?_, by rw [zpow_natCast]; exact_mod_cast hlt⟩
  rw [← Nat.cast_one, ← Nat.cast_sub hlength, zpow_natCast]
  exact_mod_cast hle

namespace Binary64

section

variable {num den : Nat}

/-- The first digit stands in front of the place of the point, or further on. -/
theorem pointPlace_le (hnum : num ≠ 0) (hden : den ≠ 0) : (10 : ℚ) ^ (pointPlace num den - 1) ≤ num / den := by
  obtain ⟨hnumLow, -⟩ := decimalLength_bounds hnum
  obtain ⟨-, hdenHigh⟩ := decimalLength_bounds hden
  have hden' : (0 : ℚ) < den := by exact_mod_cast Nat.pos_of_ne_zero hden
  simp only [pointPlace]
  have hguess : (10 : ℚ) ^ ((decimalLength num : ℤ) - decimalLength den - 1) ≤ num / den := by
    rw [show (decimalLength num : ℤ) - decimalLength den - 1 = (decimalLength num - 1) - decimalLength den by ring,
      zpow_sub₀ (by norm_num)]
    exact div_le_div₀ (by positivity) hnumLow hden' hdenHigh.le
  generalize (decimalLength num : ℤ) - decimalLength den = guess at hguess ⊢
  have hcompare : (if 0 ≤ guess then decide (num < den * Nat.pow 10 guess.toNat)
      else decide (num * Nat.pow 10 (-guess).toNat < den)) = true ↔ (num : ℚ) < den * 10 ^ guess := by
    split
    · next h =>
      obtain ⟨k, rfl⟩ := Int.eq_ofNat_of_zero_le h
      rw [zpow_natCast, Int.toNat_natCast, decide_eq_true_eq]
      exact_mod_cast Iff.rfl
    · next h =>
      obtain ⟨k, hk⟩ := Int.eq_ofNat_of_zero_le (show 0 ≤ -guess by omega)
      obtain rfl : guess = -(k : ℤ) := by omega
      rw [zpow_neg, ← div_eq_mul_inv, lt_div_iff₀ (by positivity), zpow_natCast, neg_neg, Int.toNat_natCast,
        decide_eq_true_eq]
      exact_mod_cast Iff.rfl
  by_cases hbelow : (num : ℚ) < den * 10 ^ guess
  · rwa [if_pos (hcompare.2 hbelow)]
  · rw [if_neg fun h => hbelow (hcompare.1 h), add_sub_cancel_right, le_div_iff₀ hden', mul_comm]
    exact not_lt.1 hbelow

end

/-! ## Tests on a grid -/

namespace Reach

variable {r : Reach} {digits : Nat} {exponent : ℤ}

/-- A numeral is tested in whole numbers. -/
theorem holds_iff (hden : 0 < r.den) : r.holds digits exponent = true ↔ r.Contains (digits * 10 ^ exponent) := by
  have hden' : (0 : ℚ) < r.den := by exact_mod_cast hden
  have hvalue := mul_zpow_eq_ratio (b := 10) (by decide) digits exponent
  simp only [Nat.cast_ofNat, ← Nat.pow_eq] at hvalue
  have hdown : 0 < (if 0 ≤ exponent then 1 else Nat.pow 10 (-exponent).toNat) := by
    split
    · exact Nat.one_pos
    · exact Nat.pow_pos (by decide)
  simp only [holds, Contains, hvalue]
  generalize (if 0 ≤ exponent then digits * Nat.pow 10 exponent.toNat else digits) = up
  generalize (if 0 ≤ exponent then 1 else Nat.pow 10 (-exponent).toNat) = down at hdown
  have hdown' : (0 : ℚ) < down := by exact_mod_cast hdown
  have hlow : r.low * down ≤ up * r.den ↔ (r.low : ℚ) / r.den ≤ up / down := by
    rw [div_le_div_iff₀ hden' hdown']
    exact_mod_cast Iff.rfl
  have hhigh : up * r.den ≤ r.high * down ↔ (up : ℚ) / down ≤ r.high / r.den := by
    rw [div_le_div_iff₀ hdown' hden']
    exact_mod_cast Iff.rfl
  have hlowLt : r.low * down < up * r.den ↔ (r.low : ℚ) / r.den < up / down := by
    rw [div_lt_div_iff₀ hden' hdown']
    exact_mod_cast Iff.rfl
  have hhighLt : up * r.den < r.high * down ↔ (up : ℚ) / down < r.high / r.den := by
    rw [div_lt_div_iff₀ hdown' hden']
    exact_mod_cast Iff.rfl
  split <;> simp only [Bool.and_eq_true, decide_eq_true_eq, hlow, hhigh, hlowLt, hhighLt]

/-- The two neighbours of the float on a grid. -/
theorem below_bounds (exponent : ℤ) (hden : 0 < r.den) :
    ((r.below exponent).1 : ℚ) * 10 ^ exponent ≤ r.value / r.den ∧
      (r.value : ℚ) / r.den < ((r.below exponent).1 + 1) * 10 ^ exponent := by
  have hpow : (0 : ℚ) < 10 ^ exponent := by positivity
  have hvalue := div_zpow_eq_ratio (b := 10) (by decide) r.value r.den exponent
  simp only [Nat.cast_ofNat, ← Nat.pow_eq] at hvalue
  have hden' : 0 < (if 0 ≤ exponent then r.den * Nat.pow 10 exponent.toNat else r.den) := by
    split
    · exact Nat.mul_pos hden (Nat.pow_pos (by decide))
    · exact hden
  rw [← le_div_iff₀ hpow, ← div_lt_iff₀ hpow, hvalue]
  simp only [below]
  generalize (if 0 ≤ exponent then r.value else r.value * Nat.pow 10 (-exponent).toNat) = num
  generalize (if 0 ≤ exponent then r.den * Nat.pow 10 exponent.toNat else r.den) = den at hden'
  have hpos : (0 : ℚ) < den := by exact_mod_cast hden'
  rw [le_div_iff₀ hpos, div_lt_iff₀ hpos]
  exact ⟨by exact_mod_cast Nat.div_mul_le_self num den, by rw [mul_comm]; exact_mod_cast Nat.lt_mul_div_succ num hden'⟩

/-- A candidate is in the interval and is not zero. -/
theorem holds_of_onGrid (h : r.onGrid exponent = some digits) : 0 < digits ∧ r.holds digits exponent = true := by
  simp only [onGrid] at h
  split at h
  · next hlower hupper =>
    simp only [Bool.and_eq_true, decide_eq_true_eq] at hlower
    split at h
    · obtain rfl := Option.some.inj h
      exact ⟨Nat.succ_pos _, hupper⟩
    · obtain rfl := Option.some.inj h
      exact hlower
  · next hlower hupper =>
    simp only [Bool.and_eq_true, decide_eq_true_eq] at hlower
    obtain rfl := Option.some.inj h
    exact hlower
  · next hlower hupper =>
    obtain rfl := Option.some.inj h
    exact ⟨Nat.succ_pos _, hupper⟩
  · cases h

theorem isSome_onGrid_of_holds
    (h : (0 < (r.below exponent).1 ∧ r.holds (r.below exponent).1 exponent = true) ∨
      r.holds ((r.below exponent).1 + 1) exponent = true) : (r.onGrid exponent).isSome = true := by
  simp only [onGrid]
  split
  · rfl
  · rfl
  · rfl
  · next hlower hupper =>
    rcases h with ⟨hpos, hholds⟩ | hholds
    · rw [hholds, decide_eq_true hpos] at hlower
      cases hlower
    · rw [hupper] at hholds
      exact absurd hholds Bool.false_ne_true

/-- The search finds a candidate when one of its grids has one. -/
theorem holds_search {n k : Nat} (hk : k < n) (h : (r.onGrid (exponent - k)).isSome = true) :
    0 < (r.search n exponent).1 ∧ r.holds (r.search n exponent).1 (r.search n exponent).2 = true := by
  induction n generalizing k exponent with
  | zero => omega
  | succ n ih =>
    rw [search]
    split
    · next digits hgrid => exact holds_of_onGrid hgrid
    · next hgrid =>
      cases k with
      | zero => rw [Nat.cast_zero, sub_zero, hgrid] at h; cases h
      | succ k =>
        have hnext : (r.onGrid (exponent - 1 - (k : ℤ))).isSome = true := by
          rwa [show exponent - 1 - (k : ℤ) = exponent - (k + 1 : Nat) by push_cast; ring]
        exact ih (by omega) hnext

end Reach

/-! ## Seventeen digits -/

section

variable {x : Binary64} {exponent : ℤ}

theorem size_pos (hpos : 0 < x.significand) : 0 < x.size := by
  have : (0 : ℚ) < x.significand := by exact_mod_cast hpos
  unfold size
  positivity

/-- On a grid of seventeen digits, half a step is less than the interval goes to either side. -/
theorem half_step_lt (hx : x.IsCanonical) (hgrid : 10 ^ exponent * 10 ^ 16 ≤ x.size) :
    (10 : ℚ) ^ exponent / 2 < x.slack * 2 ^ x.exponent := by
  have hpow : (0 : ℚ) < 2 ^ x.exponent := by positivity
  have hlt : (x.significand : ℚ) + 1 ≤ 2 ^ 53 := by exact_mod_cast hx.significand_lt
  unfold size at hgrid
  unfold slack
  split
  · next hnarrow =>
    rw [hnarrow.1] at hgrid
    push_cast at hgrid
    linarith
  · nlinarith

/-- A grid of seventeen digits has a candidate: the neighbour that is nearer to the float. -/
theorem isSome_onGrid (hx : x.IsCanonical) (hpos : 0 < x.significand) (hgrid : 10 ^ exponent * 10 ^ 16 ≤ x.size) :
    (x.reach.onGrid exponent).isSome = true := by
  have hden := x.reach_den_pos
  obtain ⟨hlow, hvalue, hhigh⟩ := reach_values hpos
  obtain ⟨hbelow, habove⟩ := Reach.below_bounds exponent hden
  rw [hvalue] at hbelow habove
  have hstep := half_step_lt hx hgrid
  have hpow : (0 : ℚ) < 2 ^ x.exponent := by positivity
  have hten : (0 : ℚ) < 10 ^ exponent := by positivity
  have hinside : ∀ {digits : Nat}, |(digits : ℚ) * 10 ^ exponent - x.size| ≤ 10 ^ exponent / 2 →
      x.reach.holds digits exponent = true := by
    intro digits hnear
    obtain ⟨hleft, hright⟩ := abs_le.1 hnear
    have hslack := mul_le_mul_of_nonneg_right x.slack_le hpow.le
    have hlower : (x.significand - x.slack) * 2 ^ x.exponent < (digits : ℚ) * 10 ^ exponent := by
      rw [sub_mul, ← size]
      linarith
    have hupper : (digits : ℚ) * 10 ^ exponent < (x.significand + 1 / 2) * 2 ^ x.exponent := by
      rw [add_mul, ← size]
      linarith
    rw [Reach.holds_iff hden, Reach.Contains, hlow, hhigh]
    split
    · exact ⟨hlower.le, hupper.le⟩
    · exact ⟨hlower, hupper⟩
  refine Reach.isSome_onGrid_of_holds ?_
  generalize (x.reach.below exponent).1 = q at hbelow habove
  rcases le_total (x.size - q * 10 ^ exponent) (10 ^ exponent / 2) with hnear | hfar
  · refine .inl ⟨Nat.pos_of_ne_zero ?_, hinside (abs_le.2 ⟨by linarith, by linarith⟩)⟩
    rintro rfl
    rw [Nat.cast_zero, zero_add, one_mul] at habove
    linarith
  · refine .inr (hinside (abs_le.2 ?_))
    push_cast
    constructor <;> linarith

end

/-! ## The digits -/

section

variable {x : Binary64} {digits fuel : Nat} {exponent : ℤ}

theorem stripZeros_value : (stripZeros fuel digits exponent).1 * (10 : ℚ) ^ (stripZeros fuel digits exponent).2 =
    digits * 10 ^ exponent := by
  induction fuel generalizing digits exponent with
  | zero => rfl
  | succ fuel ih =>
    rw [stripZeros]
    split
    · next h =>
      have hdigits : (digits : ℚ) = (digits / 10 : Nat) * 10 := by
        exact_mod_cast (Nat.div_mul_cancel (Nat.dvd_of_mod_eq_zero h.2)).symm
      rw [ih, zpow_add_one₀ (by norm_num), hdigits]
      ring
    · rfl

theorem stripZeros_pos (hpos : 0 < digits) : 0 < (stripZeros fuel digits exponent).1 := by
  induction fuel generalizing digits exponent with
  | zero => exact hpos
  | succ fuel ih =>
    rw [stripZeros]
    split
    · exact ih (by omega)
    · exact hpos

/-- The shortest digits lie in the interval of the float. -/
theorem contains_shortest (hx : x.IsCanonical) (hpos : 0 < x.significand) :
    0 < x.shortest.1 ∧ x.reach.Contains (x.shortest.1 * 10 ^ x.shortest.2) := by
  have hden := x.reach_den_pos
  obtain ⟨-, hvalue, -⟩ := reach_values hpos
  have hvaluePos : x.reach.value ≠ 0 := by
    intro hzero
    rw [hzero, Nat.cast_zero, zero_div] at hvalue
    exact (size_pos hpos).ne hvalue
  have hpoint := pointPlace_le hvaluePos hden.ne'
  rw [hvalue] at hpoint
  have hgrid : (x.reach.onGrid (pointPlace x.reach.value x.reach.den - 1 - (16 : Nat))).isSome = true := by
    refine isSome_onGrid hx hpos ?_
    rwa [zpow_sub₀ (by norm_num), zpow_natCast, div_mul_cancel₀ _ (by norm_num)]
  obtain ⟨hfoundPos, hfound⟩ := Reach.holds_search (by decide : 16 < 17) hgrid
  have hnonzero : x.isZero = false := by
    rw [isZero, beq_eq_false_iff_ne]
    exact hpos.ne'
  simp only [shortest, hnonzero, Bool.false_eq_true, if_false, stripZeros_value]
  exact ⟨stripZeros_pos hfoundPos, (Reach.holds_iff hden).1 hfound⟩

/-! ## Numerals in the interval -/

theorem ten_pow_le_half_least : (10 : ℚ) ^ (-324 : ℤ) ≤ 1 / 2 * 2 ^ leastExponent := by
  have hpowers : 2 * 2 ^ 1074 ≤ 10 ^ 324 := by decide +kernel
  have hcast : (2 : ℚ) * 2 ^ 1074 ≤ 10 ^ 324 := by
    have h : ((2 * 2 ^ 1074 : Nat) : ℚ) ≤ (10 ^ 324 : Nat) := Nat.cast_le.2 hpowers
    rwa [Nat.cast_mul, Nat.cast_pow, Nat.cast_pow] at h
  rw [leastExponent, zpow_neg, zpow_neg, zpow_ofNat, zpow_ofNat, one_div, ← mul_inv]
  exact inv_anti₀ (by positivity) hcast

theorem greatest_lt_ten_pow : (2 : ℚ) ^ 53 * 2 ^ greatestExponent < 10 ^ (309 : ℤ) := by
  have hpowers : 2 ^ 53 * 2 ^ 971 < 10 ^ 309 := by decide +kernel
  have h : ((2 ^ 53 * 2 ^ 971 : Nat) : ℚ) < (10 ^ 309 : Nat) := Nat.cast_lt.2 hpowers
  rwa [Nat.cast_mul, Nat.cast_pow, Nat.cast_pow, Nat.cast_pow] at h

/-- Floats, and what rounds to them, have at most 309 digits before the point, and not many more zeros behind it. -/
theorem range_of_contains {value : ℚ} (hx : x.IsCanonical) (hpos : 0 < x.significand) (h : x.reach.Contains value) :
    (10 : ℚ) ^ (-324 : ℤ) ≤ value ∧ value < 10 ^ (309 : ℤ) := by
  obtain ⟨hlow, hhigh, -⟩ := contains_reach hpos h
  have hpow : (0 : ℚ) < 2 ^ x.exponent := by positivity
  have hone : (1 : ℚ) ≤ x.significand := by exact_mod_cast hpos
  have hmax : (x.significand : ℚ) + 1 ≤ 2 ^ 53 := by exact_mod_cast hx.significand_lt
  rw [le_div_iff₀ hpow] at hlow
  rw [div_le_iff₀ hpow] at hhigh
  have hslack := x.slack_le
  constructor
  · calc (10 : ℚ) ^ (-324 : ℤ) ≤ 1 / 2 * 2 ^ leastExponent := ten_pow_le_half_least
      _ ≤ 1 / 2 * 2 ^ x.exponent :=
        mul_le_mul_of_nonneg_left (zpow_le_zpow_right₀ (by norm_num) hx.least_le) (by norm_num)
      _ ≤ value := by nlinarith
  · calc value ≤ 2 ^ 53 * 2 ^ x.exponent := by nlinarith
      _ ≤ 2 ^ 53 * 2 ^ greatestExponent :=
        mul_le_mul_of_nonneg_left (zpow_le_zpow_right₀ (by norm_num) hx.le_greatest) (by norm_num)
      _ < 10 ^ (309 : ℤ) := greatest_lt_ten_pow

/-- A decimal numeral in the interval of a float stands for the float. -/
theorem ofDecimal?_of_contains (hx : x.IsCanonical) (hpos : 0 < x.significand) (hdigits : digits ≠ 0)
    (h : x.reach.Contains (digits * 10 ^ exponent)) : ofDecimal? x.negative digits exponent = some x := by
  obtain ⟨hleast, hgreatest⟩ := range_of_contains hx hpos h
  obtain ⟨hlow, hhigh⟩ := decimalLength_bounds hdigits
  have hten : (0 : ℚ) < 10 ^ exponent := by positivity
  have hplace : (10 : ℚ) ^ ((decimalLength digits : ℤ) + exponent - 1) ≤ digits * 10 ^ exponent := by
    rw [add_sub_right_comm, zpow_add₀ (by norm_num)]
    exact mul_le_mul_of_nonneg_right hlow hten.le
  have hplace' : (digits : ℚ) * 10 ^ exponent < 10 ^ ((decimalLength digits : ℤ) + exponent) := by
    rw [zpow_add₀ (by norm_num)]
    exact mul_lt_mul_of_pos_right hhigh hten
  have hbelow : (decimalLength digits : ℤ) + exponent - 1 < 309 :=
    (zpow_lt_zpow_iff_right₀ (by norm_num)).1 (lt_of_le_of_lt hplace hgreatest)
  have habove : -324 < (decimalLength digits : ℤ) + exponent :=
    (zpow_lt_zpow_iff_right₀ (by norm_num)).1 (lt_of_le_of_lt hleast hplace')
  simp only [ofDecimal?, if_neg hdigits]
  rw [if_neg (by omega), if_neg (by omega)]
  split
  · next hexponent =>
    obtain ⟨k, rfl⟩ := Int.eq_ofNat_of_zero_le hexponent
    refine ofRatio?_of_contains hx hpos (Nat.mul_ne_zero hdigits (Nat.pow_pos (by decide)).ne') Nat.one_pos ?_
    simpa using h
  · next hexponent =>
    obtain ⟨k, hk⟩ := Int.eq_ofNat_of_zero_le (show 0 ≤ -exponent by omega)
    obtain rfl : exponent = -(k : ℤ) := by omega
    refine ofRatio?_of_contains hx hpos hdigits (Nat.pow_pos (by decide)) ?_
    simpa [div_eq_mul_inv] using h

end

end Binary64

end ApiContract
