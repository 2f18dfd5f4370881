import ToolkitContracts.Chain.Base
import ToolkitContracts.Lib.Schedule
import Mathlib.Algebra.BigOperators.Intervals
import Mathlib.Tactic.Positivity

/-!
# Rounded products

`multiply_decimal64` computes a product over a divisor with one extra decimal digit and
rounds that digit off. The quotient is truncated twice, yet the result is the exact quotient
rounded half up (`multiplyDecimal64_eq_ok`), as long as ten times it fits an `int64_t`.
-/

namespace ToolkitContracts

open Schedule

/-- The value an `int128_t` holds after `x` is stored in it. -/
def i128 (x : ℤ) : ℤ := (x + 2 ^ 127) % 2 ^ 128 - 2 ^ 127

theorem i128_eq {x : ℤ} (h1 : -2 ^ 127 ≤ x) (h2 : x < 2 ^ 127) : i128 x = x := by
  unfold i128
  omega

/-- `multiply_decimal64(a, b, precision)`. -/
def multiplyDecimal64 (a b precision : ℤ) : Except Abort ℤ := do
  let tmp := (i128 (i128 (10 * a) * b)).tdiv precision
  check (-2 ^ 63 ≤ tmp ∧ tmp ≤ 2 ^ 63 - 1) "overflow exception of multiply_decimal"
  return (tmp + 5).tdiv 10

/-- `divide_decimal64(a, b, precision)`. -/
def divideDecimal64 (a b precision : ℤ) : Except Abort ℤ := do
  let tmp := (i128 (i128 (10 * a) * precision)).tdiv b
  check (-2 ^ 63 ≤ tmp ∧ tmp ≤ 2 ^ 63 - 1) "overflow exception of divide_decimal"
  return (tmp + 5).tdiv 10

section Decimal
variable {a b d r : ℤ}

/-- On operands whose ten-fold product fits, `multiply_decimal64` succeeds when the scaled
quotient is an `int64_t`, and then rounds half up. -/
theorem multiplyDecimal64_eq_ok (ha : 0 ≤ a) (hb : 0 ≤ b) (hd : 0 < d)
    (h128 : 10 * a * b < 2 ^ 127) :
    multiplyDecimal64 a b d = .ok r ↔ 10 * a * b / d ≤ 2 ^ 63 - 1 ∧ r = roundHalfUp (a * b) d := by
  have hprod : 0 ≤ 10 * a * b := by positivity
  have hquot : 0 ≤ 10 * a * b / d := Int.ediv_nonneg hprod hd.le
  have hscaled : i128 (i128 (10 * a) * b) = 10 * a * b := by
    obtain rfl | hpos := hb.eq_or_lt
    · rw [mul_zero, mul_zero, i128_eq (by norm_num) (by norm_num)]
    · have hle : 10 * a * 1 ≤ 10 * a * b := Int.mul_le_mul_of_nonneg_left hpos (by omega)
      rw [i128_eq (x := 10 * a) (by omega) (by omega), i128_eq (by omega) h128]
  have htmp : (i128 (i128 (10 * a) * b)).tdiv d = 10 * a * b / d := by
    rw [hscaled, Int.tdiv_eq_ediv_of_nonneg hprod]
  have hround : (10 * a * b / d + 5).tdiv 10 = roundHalfUp (a * b) d := by
    rw [Int.tdiv_eq_ediv_of_nonneg (by omega), mul_assoc, div_add_five_div_ten hd]
  simp only [multiplyDecimal64, htmp, hround, bind_eq_ok, check_eq_ok, exists_const, pure_eq_ok]
  constructor
  · intro h
    exact ⟨h.1.2, h.2.symm⟩
  · intro h
    exact ⟨⟨by omega, h.1⟩, h.2.symm⟩

/-- A division with a precision is the product with it over the divisor. -/
theorem divideDecimal64_eq_ok : divideDecimal64 a d b = .ok r ↔ multiplyDecimal64 a b d = .ok r := by
  simp only [divideDecimal64, multiplyDecimal64, bind_eq_ok, check_eq_ok, exists_const]

/-! ## Order -/

/-- On smaller operands the product succeeds as well, and it is not larger. -/
theorem multiplyDecimal64_mono {a' b' : ℤ} (ha : 0 ≤ a) (hle : a ≤ a') (hb : 0 ≤ b) (hle' : b ≤ b')
    (hd : 0 < d) (h128 : 10 * a' * b' < 2 ^ 127) (h : multiplyDecimal64 a' b' d = .ok r) :
    ∃ r', multiplyDecimal64 a b d = .ok r' ∧ r' ≤ r := by
  have hprod : a * b ≤ a' * b' := mul_le_mul hle hle' hb (ha.trans hle)
  have hten : 10 * a * b ≤ 10 * a' * b' := mul_le_mul (by omega) hle' hb (by omega)
  obtain ⟨hquot, rfl⟩ :=
    (multiplyDecimal64_eq_ok (ha.trans hle) (hb.trans hle') hd h128).mp h
  refine ⟨roundHalfUp (a * b) d, ?_, roundHalfUp_mono hd hprod⟩
  rw [multiplyDecimal64_eq_ok ha hb hd (by omega)]
  exact ⟨(Int.ediv_le_ediv hd hten).trans hquot, rfl⟩

theorem multiplyDecimal64_le (ha : 0 ≤ a) (hb : 0 ≤ b) (hd : 0 < d) (hle : b ≤ d)
    (h128 : 10 * a * b < 2 ^ 127) (h : multiplyDecimal64 a b d = .ok r) : r ≤ a := by
  obtain ⟨-, rfl⟩ := (multiplyDecimal64_eq_ok ha hb hd h128).mp h
  exact roundHalfUp_le hd (mul_le_mul_of_nonneg_left hle ha)

theorem multiplyDecimal64_self (ha : 0 ≤ a) (hd : 0 < d) (h128 : 10 * a * d < 2 ^ 127)
    (h : multiplyDecimal64 a d d = .ok r) : r = a := by
  obtain ⟨-, rfl⟩ := (multiplyDecimal64_eq_ok ha hd.le hd h128).mp h
  exact roundHalfUp_mul_self a hd

/-- Along a rising sequence of multipliers that ends with the divisor, the products rise as well,
and what they rise by is `a` less the first of them. -/
theorem multiplyDecimal64_steps {n : ℕ} {bs v : ℕ → ℤ} (ha : 0 ≤ a) (hd : 0 < d) (hzero : 0 ≤ bs 0)
    (hmono : ∀ i j, i ≤ j → j ≤ n → bs i ≤ bs j) (hend : bs n = d) (h128 : 10 * a * d < 2 ^ 127)
    (hv : ∀ i ≤ n, multiplyDecimal64 a (bs i) d = .ok (v i)) :
    (∀ i < n, 0 ≤ v (i + 1) - v i) ∧ ∑ i ∈ Finset.range n, (v (i + 1) - v i) = a - v 0 := by
  have hnonneg : ∀ i ≤ n, 0 ≤ bs i := by
    intro i hi
    exact hzero.trans (hmono 0 i (Nat.zero_le i) hi)
  have hfits : ∀ i ≤ n, 10 * a * bs i < 2 ^ 127 := by
    intro i hi
    have hle : bs i ≤ d := by
      rw [← hend]
      exact hmono i n hi (le_refl n)
    have hmul : 10 * a * bs i ≤ 10 * a * d := Int.mul_le_mul_of_nonneg_left hle (by omega)
    omega
  constructor
  · intro i hi
    have hle : bs i ≤ bs (i + 1) := hmono i (i + 1) (Nat.le_succ i) hi
    obtain ⟨r, hr, hrle⟩ := multiplyDecimal64_mono ha (le_refl a) (hnonneg i hi.le) hle hd
      (hfits (i + 1) hi) (hv (i + 1) hi)
    rw [hv i hi.le] at hr
    cases hr
    omega
  · have hlast := hv n (le_refl n)
    rw [hend] at hlast
    rw [Finset.sum_range_sub, multiplyDecimal64_self ha hd h128 hlast]

/-- `multiply_decimal64` and `divide_decimal64` round the exact quotient to the nearest integer,
halves up, wherever ten times it is an `int64_t`, and inherit its order. -/
theorem decimal64_exact (ha : 0 ≤ a) (hb : 0 ≤ b) (hd : 0 < d) (h128 : 10 * a * b < 2 ^ 127) :
    (∀ r, multiplyDecimal64 a b d = .ok r ↔
      10 * a * b / d ≤ 2 ^ 63 - 1 ∧ r = round ((a * b : ℚ) / d)) ∧
    (∀ r, divideDecimal64 a d b = .ok r ↔
      10 * a * b / d ≤ 2 ^ 63 - 1 ∧ r = round ((a * b : ℚ) / d)) ∧
    (∀ a' b' r, 0 ≤ a' → a' ≤ a → 0 ≤ b' → b' ≤ b → multiplyDecimal64 a b d = .ok r →
      ∃ r', multiplyDecimal64 a' b' d = .ok r' ∧ r' ≤ r) ∧
    (∀ r, multiplyDecimal64 a b d = .ok r → (b ≤ d → r ≤ a) ∧ (b = d → r = a)) ∧
    ∀ (n : ℕ) (bs v : ℕ → ℤ), 0 ≤ bs 0 → (∀ i j, i ≤ j → j ≤ n → bs i ≤ bs j) → bs n = d →
      10 * a * d < 2 ^ 127 → (∀ i ≤ n, multiplyDecimal64 a (bs i) d = .ok (v i)) →
      (∀ i < n, 0 ≤ v (i + 1) - v i) ∧ ∑ i ∈ Finset.range n, (v (i + 1) - v i) = a - v 0 := by
  have hmul : ∀ r, multiplyDecimal64 a b d = .ok r ↔
      10 * a * b / d ≤ 2 ^ 63 - 1 ∧ r = round ((a * b : ℚ) / d) := by
    intro r
    rw [multiplyDecimal64_eq_ok ha hb hd h128, roundHalfUp_eq_round hd, Int.cast_mul]
  refine ⟨hmul, fun r => divideDecimal64_eq_ok.trans (hmul r), ?mono, ?bounded, ?steps⟩
  case mono =>
    intro a' b' r ha' hle hb' hle' h
    exact multiplyDecimal64_mono ha' hle hb' hle' hd h128 h
  case bounded =>
    intro r h
    refine ⟨fun hle => multiplyDecimal64_le ha hb hd hle h128 h, ?_⟩
    rintro rfl
    exact multiplyDecimal64_self ha hd h128 h
  case steps =>
    intro n bs v hzero hmono hend hfits hv
    exact multiplyDecimal64_steps ha hd hzero hmono hend hfits hv

/-- A half is rounded up: seven halves make four. -/
theorem Sample.decimal64_exact_half :
    multiplyDecimal64 7 1 2 = .ok 4 ∧ divideDecimal64 7 2 1 = .ok 4 := by
  have hround : round (((7 : ℤ) : ℚ) * ((1 : ℤ) : ℚ) / ((2 : ℤ) : ℚ)) = 4 := by
    rw [round_eq]
    norm_num
  have h := decimal64_exact (a := 7) (b := 1) (d := 2) (by norm_num) (by norm_num) (by norm_num)
    (by norm_num)
  exact ⟨(h.1 4).mpr ⟨by norm_num, hround.symm⟩, (h.2.1 4).mpr ⟨by norm_num, hround.symm⟩⟩

end Decimal

end ToolkitContracts
