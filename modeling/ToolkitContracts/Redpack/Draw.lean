import Mathlib.Tactic.IntervalCases
import ToolkitContracts.Lib.Drawing
import ToolkitContracts.Redpack.Conservation

/-!
# One draw

While several shares are left, a claim on a `RANDOM` red packet draws a multiple of a
smallest unit, up to twice the mean. The draw is defined when twice the mean holds a unit.
-/

namespace ToolkitContracts
namespace Redpack

open Drawing

/-- The smallest unit that a draw is a multiple of. -/
def smallestUnit (precision : ℕ) : ℤ := if precision ≤ 2 then 10 ^ precision else 100

theorem smallestUnit_bounds (p : ℕ) : 0 < smallestUnit p ∧ smallestUnit p ≤ 100 := by
  unfold smallestUnit
  split
  · interval_cases p <;> decide
  · decide

/-- The precision that `_assign_redpack` passes on makes the smallest unit. -/
theorem minUnitValue_eq {p : ℕ} (hp : p ≤ 18) :
    minUnitValue p (if p ≤ 2 then 0 else p - 2) = .ok (smallestUnit p) := by
  interval_cases p <;> rfl

section Draw
variable {ctx : Ctx} {r : RedpackRow} {unit : ℤ}

theorem u64_toNat {x : ℤ} (h0 : 0 ≤ x) (hlt : x < 2 ^ 63) : u64 x = x.toNat := by
  unfold u64
  omega

/-- `_rand` on twice the mean draws a share. -/
theorem rand_eq (ctx : Ctx) {q : Asset} {rest : ℤ} {n m : ℕ}
    (hunit : minUnitValue q.symbol.precision m = .ok unit) (hpos : 0 < unit) (hsmall : unit ≤ 100)
    (hq : q.amount = rest / n * 2) (hrest : 0 ≤ rest ∧ rest < 2 ^ 62) (hn : 2 ≤ n)
    (hchoices : 0 < choices unit rest n) :
    rand ctx q m = .ok (share ctx.seed.toNat unit rest n).toNat := by
  have hmean : 0 ≤ rest / n * 2 := by
    have := Int.ediv_nonneg hrest.1 (Int.natCast_nonneg n)
    omega
  have hle := share_le ctx.seed.toNat hpos hrest.1 hn hchoices
  have hsharePos := share_pos ctx.seed.toNat hpos hchoices
  have hunits : choices unit rest n ≤ rest := choices_le hrest.1 hn
  rw [rand, hunit, ok_bind, divTrap_of hpos.ne', ok_bind, hq, Int.tdiv_eq_ediv_of_nonneg hmean]
  -- the conversions to words change nothing within these bounds
  have hword : u64 (rest / n * 2 / unit) = (choices unit rest n).toNat := by
    apply u64_toNat hchoices.le
    show choices unit rest n < 2 ^ 63
    omega
  rw [hword, modTrap_of (by omega), ok_bind]
  -- the remainder of the seed, as a word and as an integer
  have hcast : ((ctx.seed.toNat % (choices unit rest n).toNat : ℕ) : ℤ)
      = ctx.seed.toNat % choices unit rest n := by
    rw [Int.natCast_mod, Int.toNat_of_nonneg hchoices.le]
  have hunitWord : (u64 unit : ℤ) = unit := u64_eq hpos.le (by omega)
  have hshare : ((ctx.seed.toNat % (choices unit rest n).toNat : ℕ) + 1 : ℤ) * u64 unit
      = share ctx.seed.toNat unit rest n := by
    rw [hcast, hunitWord]
    rfl
  rw [hshare, u64_toNat hsharePos.le (by omega)]
  rfl

/-- Twice the mean of what is left is an asset. -/
theorem maxQuantity_eq (hsound : r.Sound) (hn : 2 ≤ r.remainingCount) :
    ∃ q, Asset.new (u64 (r.remainingQuant.amount / r.remainingCount * 2)) r.remainingQuant.symbol
        = .ok q ∧
      q.amount = r.remainingQuant.amount / r.remainingCount * 2 ∧
      q.symbol = r.remainingQuant.symbol := by
  have hmax : Asset.maxAmount = 2 ^ 62 - 1 := rfl
  have htotal := hsound.valid.1.2
  have hrest := hsound.remaining
  have hmean : 0 ≤ r.remainingQuant.amount / r.remainingCount :=
    Int.ediv_nonneg hrest.1 (Int.natCast_nonneg _)
  have htwice := twice_mean_le hrest.1 hn
  have hvalid : r.remainingQuant.symbol.isValid = true := by
    rw [hsound.symbol]
    exact hsound.valid.2
  -- it is a word, too
  rw [u64_eq (by omega) (by omega)]
  exact Asset.new_of_range (by omega) (by omega) hvalid

/-- While several shares are left and there is a unit to draw, a claim draws a share. -/
theorem assign_random (ctx : Ctx) (hsound : r.Sound) (hrandom : r.assignType = .random)
    (hprecision : r.remainingQuant.symbol.precision ≤ 18) (hn : 2 ≤ r.remainingCount)
    (hchoices : 0 < choices (smallestUnit r.remainingQuant.symbol.precision)
      r.remainingQuant.amount r.remainingCount) :
    ∃ a, assign ctx r = .ok a ∧ a.symbol = r.remainingQuant.symbol ∧
      a.amount = share ctx.seed.toNat (smallestUnit r.remainingQuant.symbol.precision)
        r.remainingQuant.amount r.remainingCount := by
  obtain ⟨hunit, hsmall⟩ := smallestUnit_bounds r.remainingQuant.symbol.precision
  have hmax : Asset.maxAmount = 2 ^ 62 - 1 := rfl
  have hrest : 0 ≤ r.remainingQuant.amount ∧ r.remainingQuant.amount < 2 ^ 62 := by
    have hremaining := hsound.remaining
    have htotal := hsound.valid.1.2
    omega
  have hvalid : r.remainingQuant.symbol.isValid = true := by
    rw [hsound.symbol]
    exact hsound.valid.2
  have hle := share_le ctx.seed.toNat hunit hrest.1 hn hchoices
  have hsharePos := share_pos ctx.seed.toNat hunit hchoices
  obtain ⟨q, hq, hamount, hsymbol⟩ := maxQuantity_eq hsound hn
  have hunitValue : minUnitValue q.symbol.precision
      (if r.remainingQuant.symbol.precision ≤ 2 then 0 else r.remainingQuant.symbol.precision - 2)
        = .ok (smallestUnit r.remainingQuant.symbol.precision) := by
    rw [hsymbol]
    exact minUnitValue_eq hprecision
  have hrand := rand_eq ctx hunitValue hunit hsmall hamount hrest hn hchoices
  obtain ⟨a, ha, haAmount, haSymbol⟩ := Asset.new_of_range
    (x := share ctx.seed.toNat (smallestUnit r.remainingQuant.symbol.precision)
      r.remainingQuant.amount r.remainingCount) (by omega) (by omega) hvalid
  refine ⟨a, ?_, haSymbol, haAmount⟩
  rw [assign, hrandom]
  show assignRedpack ctx r = _
  -- the code: the mean, twice the mean as an asset, the draw, the draw as an asset
  rw [assignRedpack, if_neg (by omega), divTrap_of (by omega), ok_bind,
    Int.tdiv_eq_ediv_of_nonneg hrest.1]
  dsimp only
  rw [hq, ok_bind, hrand, ok_bind, Int.toNat_of_nonneg hsharePos.le, ha]

end Draw

/-- The precision of a red packet's token. -/
def RedpackRow.precision (r : RedpackRow) : ℕ := r.remainingQuant.symbol.precision

end Redpack
end ToolkitContracts
