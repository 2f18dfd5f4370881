import Mathlib.Algebra.BigOperators.Group.List.Basic
import Mathlib.Algebra.Order.Ring.Int
import Mathlib.Algebra.Order.Round
import Mathlib.Data.Rat.Floor
import Mathlib.Tactic.FieldSimp
import Mathlib.Tactic.Common
import Mathlib.Tactic.NormNum
import Mathlib.Tactic.Ring

/-!
# Rounded quotients and release schedules

A schedule releases a total in `n` equal steps. After `k` of them it has released
`total * k / n`, rounded to an integer, and everything from step `n` on.

What a program that pays along such a schedule needs to know is collected here: the released
amount never leaves the range from `0` to the total, it only grows with the number of steps
and with the total, and it is within half a unit of the exact quotient.
-/

namespace Schedule

/-! ## Rounding -/

/-- `n / d` rounded to the nearest integer, halves up. -/
def roundHalfUp (n d : ℤ) : ℤ := (2 * n + d) / (2 * d)

/-- The rounded quotient is within half a unit of the exact one. -/
theorem roundHalfUp_bounds (n : ℤ) {d : ℤ} (hd : 0 < d) :
    2 * d * roundHalfUp n d ≤ 2 * n + d ∧ 2 * n + d < 2 * d * roundHalfUp n d + 2 * d := by
  have h2 : (0 : ℤ) < 2 * d := by omega
  have hmod := Int.emod_nonneg (2 * n + d) h2.ne'
  have hlt := Int.emod_lt_of_pos (2 * n + d) h2
  have hdiv := Int.mul_ediv_add_emod (2 * n + d) (2 * d)
  unfold roundHalfUp
  omega

theorem roundHalfUp_mono {n m d : ℤ} (hd : 0 < d) (h : n ≤ m) :
    roundHalfUp n d ≤ roundHalfUp m d := by
  apply Int.ediv_le_ediv
  · omega
  · omega

theorem roundHalfUp_nonneg {n d : ℤ} (hd : 0 < d) (h : 0 ≤ n) : 0 ≤ roundHalfUp n d := by
  apply Int.ediv_nonneg
  · omega
  · omega

/-- Rounding does not carry a quotient over an integer bound. -/
theorem roundHalfUp_le {n d c : ℤ} (hd : 0 < d) (h : n ≤ c * d) : roundHalfUp n d ≤ c := by
  have hlt : 2 * n + d < (c + 1) * (2 * d) := by
    have : (c + 1) * (2 * d) = 2 * (c * d) + 2 * d := by ring
    omega
  have := Int.ediv_lt_of_lt_mul (by omega) hlt
  unfold roundHalfUp
  omega

/-- The rounding is Mathlib's `round` of the exact quotient. -/
theorem roundHalfUp_eq_round {n d : ℤ} (hd : 0 < d) : roundHalfUp n d = round ((n : ℚ) / d) := by
  have hne : (d : ℚ) ≠ 0 := Int.cast_ne_zero.mpr hd.ne'
  have hhalf : (n : ℚ) / d + 1 / 2 = ((2 * n + d : ℤ) : ℚ) / ((2 * d : ℤ) : ℚ) := by
    push_cast
    field_simp
  rw [round_eq, hhalf, Int.floor_div_cast_of_nonneg (by omega), Int.floor_intCast, roundHalfUp]

theorem roundHalfUp_mul_self (c : ℤ) {d : ℤ} (hd : 0 < d) : roundHalfUp (c * d) d = c := by
  have hbounds := roundHalfUp_bounds (c * d) hd
  have hle := roundHalfUp_le hd (le_refl (c * d))
  have hge : c ≤ roundHalfUp (c * d) d := by
    by_contra hlt
    -- one less than `c` is too small by a whole unit
    have hmul : 2 * d * (roundHalfUp (c * d) d + 1) ≤ 2 * d * c :=
      Int.mul_le_mul_of_nonneg_left (by omega) (by omega)
    have hcomm : 2 * d * c = 2 * (c * d) := by ring
    have hadd : 2 * d * (roundHalfUp (c * d) d + 1) = 2 * d * roundHalfUp (c * d) d + 2 * d := by
      ring
    omega
  exact le_antisymm hle hge

/-- A quotient computed with one extra decimal digit, with that digit rounded off, is the
exact quotient rounded half up: the two truncations do not show. -/
theorem div_add_five_div_ten {n d : ℤ} (hd : 0 < d) : (10 * n / d + 5) / 10 = roundHalfUp n d := by
  have h5 : 10 * n / d + 5 = (10 * n + d * 5) / d := by
    rw [Int.add_mul_ediv_left _ _ hd.ne']
  rw [h5, Int.ediv_ediv_of_nonneg hd.le, roundHalfUp]
  rw [show 10 * n + d * 5 = 5 * (2 * n + d) by ring, show d * 10 = 5 * (2 * d) by ring]
  exact Int.mul_ediv_mul_of_pos _ _ (by norm_num)

/-! ## Release in equal steps -/

/-- What is released of `total` after `k` of `n` equal steps. -/
def released (total k n : ℤ) : ℤ := if n ≤ k then total else roundHalfUp (total * k) n

variable {total total' k k' n : ℤ}

theorem released_of_le (h : n ≤ k) : released total k n = total := if_pos h

theorem released_of_lt (h : k < n) : released total k n = roundHalfUp (total * k) n :=
  if_neg (not_le.mpr h)

theorem released_nonneg (ht : 0 ≤ total) (hk : 0 ≤ k) (hn : 0 < n) : 0 ≤ released total k n := by
  unfold released
  split
  · exact ht
  · exact roundHalfUp_nonneg hn (mul_nonneg ht hk)

theorem released_le (ht : 0 ≤ total) (hn : 0 < n) : released total k n ≤ total := by
  by_cases hk : n ≤ k
  · rw [released_of_le hk]
  · rw [released_of_lt (not_le.mp hk)]
    apply roundHalfUp_le hn
    exact mul_le_mul_of_nonneg_left (not_le.mp hk).le ht

/-- A schedule never takes back. -/
theorem released_mono_steps (ht : 0 ≤ total) (hn : 0 < n) (h : k ≤ k') :
    released total k n ≤ released total k' n := by
  by_cases hk' : n ≤ k'
  · rw [released_of_le hk']
    exact released_le ht hn
  · have hk : k < n := by omega
    rw [released_of_lt hk, released_of_lt (not_le.mp hk')]
    apply roundHalfUp_mono hn
    exact mul_le_mul_of_nonneg_left h ht

/-- Before the last step, the released amount exceeds the exact share by half a unit at
most. -/
theorem two_mul_released_le (total : ℤ) (hk : k < n) (hn : 0 < n) :
    2 * (n * released total k n) ≤ 2 * (total * k) + n := by
  rw [released_of_lt hk]
  have h := (roundHalfUp_bounds (total * k) hn).1
  rw [mul_assoc] at h
  exact h

/-! ## A total in several parts

A total that is split into parts, each of them paid along the schedule on its own, is paid
along the schedule as a whole, up to one unit of rounding for each part. -/

/-- What was paid of a total in `parts` parts is within the schedule after `k` of `n` steps:
it is at most the total, and before the last step it exceeds the exact share by `parts` at
most. -/
structure Within (k n total paid parts : ℤ) : Prop where
  le_total : paid ≤ total
  le_share : k < n → n * paid ≤ total * k + n * parts

namespace Within

variable {paid paid' parts parts' : ℤ}

theorem nothing (k n : ℤ) : Within k n 0 0 0 := ⟨le_refl 0, fun _ => by simp⟩

theorem add (h : Within k n total paid parts) (h' : Within k n total' paid' parts') :
    Within k n (total + total') (paid + paid') (parts + parts') := by
  refine ⟨add_le_add h.le_total h'.le_total, fun hk => ?_⟩
  have hsum := add_le_add (h.le_share hk) (h'.le_share hk)
  calc n * (paid + paid') = n * paid + n * paid' := by ring
    _ ≤ total * k + n * parts + (total' * k + n * parts') := hsum
    _ = (total + total') * k + n * (parts + parts') := by ring

/-- Later in the schedule more may have been paid. -/
theorem later (h : Within k n total paid parts) (ht : 0 ≤ total) (hk : k ≤ k') :
    Within k' n total paid parts := by
  refine ⟨h.le_total, fun hk' => ?_⟩
  have hmul : total * k ≤ total * k' := mul_le_mul_of_nonneg_left hk ht
  have hshare := h.le_share (lt_of_le_of_lt hk hk')
  omega

/-- A part of which nothing was paid yet. -/
theorem unpaid (ht : 0 ≤ total) (hk : 0 ≤ k) : Within k n total 0 1 := by
  refine ⟨ht, fun _ => ?_⟩
  have hmul : 0 ≤ total * k := mul_nonneg ht hk
  omega

/-- A part of which exactly the released amount was paid. -/
theorem of_released (ht : 0 ≤ total) (hn : 0 < n) : Within k n total (released total k n) 1 := by
  refine ⟨released_le ht hn, fun hk => ?_⟩
  have hround := two_mul_released_le total hk hn
  omega

/-- Parts that are each within the schedule are so together. -/
theorem sum {ρ : Type*} {l : List ρ} {t p c : ρ → ℤ} (h : ∀ r ∈ l, Within k n (t r) (p r) (c r)) :
    Within k n (l.map t).sum (l.map p).sum (l.map c).sum := by
  induction l with
  | nil => exact nothing k n
  | cons r l ih =>
    rw [List.map_cons, List.map_cons, List.map_cons, List.sum_cons, List.sum_cons, List.sum_cons]
    apply add
    · exact h r (List.mem_cons_self ..)
    · exact ih fun r' hr' => h r' (List.mem_cons_of_mem _ hr')

end Within

end Schedule
