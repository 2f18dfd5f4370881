import Mathlib.Algebra.Order.Ring.Int
import Mathlib.Tactic.Common

/-!
# Drawing shares from a remainder

What is left of an amount is handed out to `n` takers, one after the other. While several
are left, a share is a multiple of `unit`, from one unit up to twice the mean; the last
taker gets the rest. There is a unit to draw as long as the mean is half a unit, rounded up. With
a unit of one, or an even one, the draws see to that themselves: where they start from a mean of
two units, each leaves the `cushion` that the next one needs. Only the last taker can be left with
nothing.
-/

namespace Drawing

/-- How many units twice the mean holds: the number of shares that can be drawn. -/
def choices (unit rest : ℤ) (n : ℕ) : ℤ := rest / n * 2 / unit

/-- The share that `seed` draws. -/
def share (seed : ℕ) (unit rest : ℤ) (n : ℕ) : ℤ := (seed % choices unit rest n + 1) * unit

variable {unit rest : ℤ} {n : ℕ}

/-- With a mean of half a unit there is something to draw. -/
theorem choices_pos (hunit : 0 < unit) (hmean : (unit + 1) / 2 ≤ rest / n) :
    0 < choices unit rest n := by
  unfold choices
  apply Int.le_ediv_of_mul_le hunit
  omega

theorem share_pos (seed : ℕ) (hunit : 0 < unit) (hchoices : 0 < choices unit rest n) :
    0 < share seed unit rest n := by
  unfold share
  have hmod := Int.emod_nonneg (seed : ℤ) hchoices.ne'
  apply Int.mul_pos
  · omega
  · exact hunit

/-- Twice the mean is at most what is left, when several takers are left. -/
theorem twice_mean_le (hrest : 0 ≤ rest) (hn : 2 ≤ n) : rest / n * 2 ≤ rest := by
  have hmean : 0 ≤ rest / n := Int.ediv_nonneg hrest (Int.natCast_nonneg n)
  calc rest / n * 2
      ≤ rest / n * n := Int.mul_le_mul_of_nonneg_left (by omega) hmean
    _ ≤ rest := Int.ediv_mul_le _ (by omega)

theorem dvd_share (seed : ℕ) (unit rest : ℤ) (n : ℕ) : unit ∣ share seed unit rest n :=
  Int.dvd_mul_left _ _

/-- A share is one of the choices. -/
theorem share_le_choices (seed : ℕ) (hunit : 0 < unit) (hchoices : 0 < choices unit rest n) :
    share seed unit rest n ≤ choices unit rest n * unit := by
  unfold share
  have hmod := Int.emod_lt_of_pos (seed : ℤ) hchoices
  apply Int.mul_le_mul_of_nonneg_right
  · omega
  · exact hunit.le

theorem share_le_twice_mean (seed : ℕ) (hunit : 0 < unit) (hchoices : 0 < choices unit rest n) :
    share seed unit rest n ≤ rest / n * 2 :=
  (share_le_choices seed hunit hchoices).trans (Int.ediv_mul_le _ hunit.ne')

theorem choices_le (hrest : 0 ≤ rest) (hn : 2 ≤ n) :
    choices unit rest n ≤ rest := by
  have htwice := twice_mean_le hrest hn
  have hself : rest / n * 2 / unit ≤ rest / n * 2 := by
    apply Int.ediv_le_self
    have hmean : 0 ≤ rest / n := Int.ediv_nonneg hrest (Int.natCast_nonneg n)
    omega
  exact hself.trans htwice

/-- No draw takes more than what is left. -/
theorem share_le (seed : ℕ) (hunit : 0 < unit) (hrest : 0 ≤ rest) (hn : 2 ≤ n)
    (hchoices : 0 < choices unit rest n) : share seed unit rest n ≤ rest :=
  (share_le_twice_mean seed hunit hchoices).trans (twice_mean_le hrest hn)

/-! ## Draws one after the other -/

/-- What any draws leave for `n` takers: for all but the last the unit, or two where the unit is
one. -/
def cushion (unit : ℤ) (n : ℕ) : ℤ := max 2 unit * ((n : ℤ) - 1)

/-- Below a mean of one unit (of two, where the unit is one) no more than that is drawn. -/
theorem share_le_of_mean_lt (seed : ℕ) (hunit : 0 < unit) (hchoices : 0 < choices unit rest n)
    (hmean : rest / n < max 2 unit) : share seed unit rest n ≤ max 2 unit := by
  have htwice := share_le_twice_mean seed hunit hchoices
  by_cases hone : unit ≤ 1
  · omega
  · -- twice the mean holds less than two units
    have hfew : choices unit rest n < 2 := by
      unfold choices
      apply Int.ediv_lt_of_lt_mul hunit
      omega
    have hle := share_le_choices seed hunit hchoices
    have hmul : choices unit rest n * unit ≤ 1 * unit :=
      Int.mul_le_mul_of_nonneg_right (by omega) hunit.le
    omega

/-- A draw for the first of several takers leaves the cushion of the others. -/
theorem cushion_le_sub_share (seed : ℕ) (hunit : 0 < unit) (hn : 2 ≤ n)
    (hchoices : 0 < choices unit rest n) (hrest : cushion unit n ≤ rest) :
    cushion unit (n - 1) ≤ rest - share seed unit rest n := by
  have hcast : ((n - 1 : ℕ) : ℤ) - 1 = n - 2 := by omega
  have htakers : (0 : ℤ) ≤ n - 2 := by omega
  unfold cushion at hrest ⊢
  rw [hcast]
  by_cases hmean : max 2 unit ≤ rest / n
  · -- a share takes two means at most, and the others are as good as the cushion
    have hshare := share_le_twice_mean seed hunit hchoices
    have hall : n * (rest / n) ≤ rest := Int.mul_ediv_self_le (by omega)
    calc max 2 unit * ((n : ℤ) - 2)
        ≤ rest / n * ((n : ℤ) - 2) := Int.mul_le_mul_of_nonneg_right hmean htakers
      _ = n * (rest / n) - rest / n * 2 := by rw [mul_sub, mul_comm]
      _ ≤ rest - share seed unit rest n := by omega
  · have hshare := share_le_of_mean_lt seed hunit hchoices (by omega)
    calc max 2 unit * ((n : ℤ) - 2)
        = max 2 unit * ((n : ℤ) - 1) - max 2 unit := by
          rw [← mul_sub_one]
          congr 1
          omega
      _ ≤ rest - share seed unit rest n := by omega

/-- The cushion of several takers is a mean of half a unit. -/
theorem half_le_mean_of_cushion (heven : unit = 1 ∨ 2 ∣ unit) (hn : 2 ≤ n)
    (hrest : cushion unit n ≤ rest) : (unit + 1) / 2 ≤ rest / n := by
  have hhalf : (unit + 1) / 2 * 2 ≤ max 2 unit := by omega
  apply Int.le_ediv_of_mul_le
  · omega
  refine le_trans ?_ hrest
  unfold cushion
  by_cases hpos : 0 ≤ (unit + 1) / 2
  · calc (unit + 1) / 2 * n
        ≤ (unit + 1) / 2 * (2 * ((n : ℤ) - 1)) :=
          Int.mul_le_mul_of_nonneg_left (by omega) hpos
      _ = (unit + 1) / 2 * 2 * ((n : ℤ) - 1) := (mul_assoc _ _ _).symm
      _ ≤ max 2 unit * ((n : ℤ) - 1) := Int.mul_le_mul_of_nonneg_right hhalf (by omega)
  · have hneg : (unit + 1) / 2 * n ≤ 0 := Int.mul_nonpos_of_nonpos_of_nonneg (by omega) (by omega)
    have hcushion : 0 ≤ max 2 unit * ((n : ℤ) - 1) := Int.mul_nonneg (by omega) (by omega)
    omega

/-- A mean of at least two units backs the cushion. -/
theorem cushion_le_of_mean {mean : ℤ} (hmean : max 2 unit ≤ mean) (hrest : n * mean ≤ rest) :
    cushion unit n ≤ rest := by
  have hmul := Int.mul_le_mul_of_nonneg_left hmean (Int.natCast_nonneg n)
  have hpos : 0 ≤ max 2 unit := by omega
  unfold cushion
  rw [mul_sub_one, mul_comm]
  omega

end Drawing
