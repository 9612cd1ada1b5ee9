import Introspect.Decimal.Binary64
import Mathlib.Tactic.Positivity
import Mathlib.Tactic.Ring

/-!
Decimal numerals at both ends of the range. Far beyond the range the powers of ten are left out,
and this changes nothing: the nearest number is infinity there, or zero.
-/

namespace Introspect

namespace Binary64

variable {num den : Nat}

theorem div_le_roundHalfEven (num den : Nat) : num / den ≤ roundHalfEven num den := by
  simp only [roundHalfEven]
  split
  · exact Nat.le_succ _
  · exact le_refl _

/-- What is less than a half of the unit rounds down to nothing. -/
theorem roundHalfEven_eq_zero {j k : Nat} (hj : j ≤ k) (h : num * 2 ^ (k + 1) < den) :
    roundHalfEven (num * 2 ^ j) den = 0 := by
  have htwice : 2 * (num * 2 ^ j) < den :=
    calc 2 * (num * 2 ^ j)
        ≤ 2 * (num * 2 ^ k) :=
          Nat.mul_le_mul_left _ (Nat.mul_le_mul_left _ (Nat.pow_le_pow_right (by decide) hj))
      _ = num * 2 ^ (k + 1) := by rw [Nat.mul_left_comm, Nat.pow_succ']
      _ < den := h
  have hnum : num * 2 ^ j < den := by omega
  simp only [roundHalfEven, Nat.div_eq_of_lt hnum, Nat.mod_eq_of_lt hnum]
  split
  next hup =>
    simp only [Bool.or_eq_true, decide_eq_true_eq, Bool.and_eq_true, beq_iff_eq] at hup
    omega
  next => rfl

theorem binaryExponent_mem (num den : Nat) :
    binaryExponent num den = (num.log2 : Int) - den.log2 ∨
      binaryExponent num den = (num.log2 : Int) - den.log2 - 1 := by
  simp only [binaryExponent]
  split
  · exact .inl rfl
  · exact .inr rfl

/-- A quotient is at least the weight of its leading bit. -/
theorem scaled_binaryExponent (hnum : num ≠ 0) :
    (scaled num den (binaryExponent num den)).2 ≤ (scaled num den (binaryExponent num den)).1 := by
  simp only [binaryExponent]
  split
  next hguess => exact hguess
  next =>
    generalize hguess : (num.log2 : Int) - den.log2 - 1 = e
    have hbits : den.log2 + 1 + e.toNat = num.log2 + (-e).toNat := by omega
    simp only [scaled, Nat.shiftLeft_eq]
    calc den * 2 ^ e.toNat
        ≤ 2 ^ (den.log2 + 1) * 2 ^ e.toNat :=
          Nat.mul_le_mul_right _ (Nat.le_of_lt Nat.lt_log2_self)
      _ = 2 ^ num.log2 * 2 ^ (-e).toNat := by rw [← Nat.pow_add, hbits, Nat.pow_add]
      _ ≤ num * 2 ^ (-e).toNat := Nat.mul_le_mul_right _ (Nat.log2_self_le hnum)

theorem log2_add_le {k : Nat} (hden : den ≠ 0) (hnum : num ≠ 0) (h : den * 2 ^ k ≤ num) :
    den.log2 + k ≤ num.log2 := by
  refine (Nat.le_log2 hnum).mpr ?_
  rw [Nat.pow_add]
  exact le_trans (Nat.mul_le_mul_right _ (Nat.log2_self_le hden)) h

theorem nearestMagnitude_eq_infinity {k : Nat} (hden : den ≠ 0) (hnum : num ≠ 0) (hk : 1025 ≤ k)
    (h : den * 2 ^ k ≤ num) : nearestMagnitude num den = infinityMagnitude := by
  have hlog := log2_add_le hden hnum h
  have hbit := @scaled_binaryExponent num den hnum
  have hexp := binaryExponent_mem num den
  generalize he : binaryExponent num den = e at hbit hexp
  have hmax : max (e - 52) (-1074) = e - 52 := by omega
  have hsplit : e.toNat = (e - 52).toNat + 52 := by omega
  have hneg : (-e).toNat = 0 := by omega
  have hneg' : (-(e - 52)).toNat = 0 := by omega
  -- Below the leading bit there is room for all others.
  have hmantissa : leadingBit ≤ num / (den * 2 ^ (e - 52).toNat) := by
    rw [Nat.le_div_iff_mul_le (by positivity)]
    simp only [scaled, Nat.shiftLeft_eq, hneg, hsplit, Nat.pow_zero, Nat.mul_one] at hbit
    calc leadingBit * (den * 2 ^ (e - 52).toNat)
        = den * 2 ^ ((e - 52).toNat + 52) := by
          rw [leadingBit, Nat.pow_add]
          ring
      _ ≤ num := hbit
  have hround := div_le_roundHalfEven num (den * 2 ^ (e - 52).toNat)
  have hunit : 2046 ≤ (e - 52 + 1074).toNat := by omega
  have hinfinity : infinityMagnitude = 2046 * leadingBit + leadingBit := by decide
  simp only [nearestMagnitude, he, hmax, scaled, Nat.shiftLeft_eq, hneg', Nat.pow_zero, Nat.mul_one]
  refine Nat.min_eq_right ?_
  rw [hinfinity]
  exact Nat.add_le_add (Nat.mul_le_mul_right _ hunit) (le_trans hmantissa hround)

theorem nearestMagnitude_eq_zero {k : Nat} (hnum : num ≠ 0) (hk : 1074 ≤ k)
    (h : num * 2 ^ (k + 1) < den) : nearestMagnitude num den = 0 := by
  have hden : den ≠ 0 := Nat.ne_of_gt (Nat.zero_lt_of_lt h)
  have hlog := log2_add_le hnum hden (Nat.le_of_lt h)
  have hmax : max (binaryExponent num den - 52) (-1074) = -1074 := by
    have hexp := binaryExponent_mem num den
    omega
  have hneg : (-(-1074) : Int).toNat = 1074 := rfl
  have hpos : (-1074 : Int).toNat = 0 := rfl
  have hunit : ((-1074 : Int) + 1074).toNat = 0 := rfl
  simp only [nearestMagnitude, hmax, scaled, Nat.shiftLeft_eq, hneg, hpos, hunit, Nat.pow_zero,
    Nat.mul_one, Nat.zero_mul, roundHalfEven_eq_zero hk h]
  exact Nat.zero_min _

/-! ### Numerals -/

/-- Ten bits are worth more than three decimal places. -/
theorem ten_pow_le_two_pow (k : Nat) : 10 ^ (k * 3 / 10) ≤ 2 ^ k := by
  have hfew : ∀ r < 10, 10 ^ (r * 3 / 10) ≤ 2 ^ r := by decide
  have hplaces : k * 3 / 10 = 3 * (k / 10) + k % 10 * 3 / 10 := by omega
  calc 10 ^ (k * 3 / 10)
      = (10 ^ 3) ^ (k / 10) * 10 ^ (k % 10 * 3 / 10) := by rw [hplaces, Nat.pow_add, Nat.pow_mul]
    _ ≤ (2 ^ 10) ^ (k / 10) * 2 ^ (k % 10) :=
        Nat.mul_le_mul (Nat.pow_le_pow_left (by decide) _) (hfew _ (Nat.mod_lt _ (by decide)))
    _ = 2 ^ k := by rw [← Nat.pow_mul, ← Nat.pow_add, Nat.div_add_mod]

/-- A decimal place is worth more than three bits. -/
theorem two_pow_le_ten_pow (n : Nat) : 2 ^ (3 * n) ≤ 10 ^ n := by
  rw [Nat.pow_mul]
  exact Nat.pow_le_pow_left (by decide) n

/-- A numeral means the number nearest to its value, however far beyond the range that is. -/
theorem ofDecimal_eq_nearest (negative : Bool) {digits : Nat} (h : digits ≠ 0) (exponent : Int) :
    ofDecimal negative digits exponent = ofMagnitude negative
      (nearestMagnitude (digits * 10 ^ exponent.toNat) (10 ^ (-exponent).toNat)) := by
  have hnum : digits * 10 ^ exponent.toNat ≠ 0 := Nat.mul_ne_zero h (by positivity)
  have hden : 10 ^ (-exponent).toNat ≠ 0 := by positivity
  rw [ofDecimal, if_neg (by simpa using h)]
  congr 1
  split
  next hlarge =>
    obtain ⟨n, hn, hplaces⟩ : ∃ n, 401 ≤ n ∧
        (-exponent).toNat + n = digits.log2 * 3 / 10 + exponent.toNat :=
      ⟨digits.log2 * 3 / 10 + exponent.toNat - (-exponent).toNat, by omega, by omega⟩
    refine (@nearestMagnitude_eq_infinity _ _ (3 * n) hden hnum (by omega) ?_).symm
    calc 10 ^ (-exponent).toNat * 2 ^ (3 * n)
        ≤ 10 ^ (-exponent).toNat * 10 ^ n := Nat.mul_le_mul_left _ (two_pow_le_ten_pow n)
      _ = 10 ^ (digits.log2 * 3 / 10) * 10 ^ exponent.toNat := by
          rw [← Nat.pow_add, hplaces, Nat.pow_add]
      _ ≤ digits * 10 ^ exponent.toNat :=
          Nat.mul_le_mul_right _ (le_trans (ten_pow_le_two_pow _) (Nat.log2_self_le h))
  next =>
    split
    next hsmall =>
      obtain ⟨n, hn, hplaces⟩ : ∃ n, 400 ≤ n ∧
          digits.log2 / 3 + 1 + exponent.toNat + n = (-exponent).toNat :=
        ⟨(-exponent).toNat - (digits.log2 / 3 + 1 + exponent.toNat), by omega, by omega⟩
      have hdigits : digits < 10 ^ (digits.log2 / 3 + 1) :=
        calc digits < 2 ^ (digits.log2 + 1) := Nat.lt_log2_self
          _ ≤ 2 ^ (3 * (digits.log2 / 3 + 1)) := Nat.pow_le_pow_right (by decide) (by omega)
          _ ≤ 10 ^ (digits.log2 / 3 + 1) := two_pow_le_ten_pow _
      have hbits : 3 * n - 1 + 1 = 3 * n := by omega
      refine (@nearestMagnitude_eq_zero _ _ (3 * n - 1) hnum (by omega) ?_).symm
      rw [hbits]
      calc digits * 10 ^ exponent.toNat * 2 ^ (3 * n)
          < 10 ^ (digits.log2 / 3 + 1) * 10 ^ exponent.toNat * 2 ^ (3 * n) := by gcongr
        _ ≤ 10 ^ (digits.log2 / 3 + 1) * 10 ^ exponent.toNat * 10 ^ n :=
            Nat.mul_le_mul_left _ (two_pow_le_ten_pow n)
        _ = 10 ^ (-exponent).toNat := by rw [← Nat.pow_add, ← Nat.pow_add, hplaces]
    next => rfl

end Binary64

end Introspect
