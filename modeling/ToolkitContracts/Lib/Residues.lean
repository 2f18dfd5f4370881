import Mathlib.Data.Int.CardIntervalMod

/-!
# Residues of an initial segment

A number below `r` is drawn by taking the remainder modulo `r` of a number below `bound` that is
drawn evenly. Each remainder is hit by as many numbers as every other one exactly when `r` divides
`bound`: otherwise the remainders below `bound % r` are hit once more than the others.
-/

namespace Residues

/-- How many numbers below `bound` leave the remainder `v`. -/
def hits (bound r v : ℕ) : ℕ := bound.count (fun x => x % r = v)

variable {bound r v : ℕ}

theorem hits_eq (hv : v < r) : hits bound r v = bound / r + if v < bound % r then 1 else 0 := by
  have hr : 0 < r := by omega
  have hcount := Nat.count_modEq_card bound hr v
  rw [Nat.mod_eq_of_lt hv] at hcount
  rw [← hcount, hits]
  congr 1
  funext x
  rw [Nat.ModEq, Nat.mod_eq_of_lt hv]

/-- The remainders are hit equally often when and only when the segment consists of whole periods. -/
theorem hits_even_iff (hr : 0 < r) :
    (∀ v < r, ∀ v' < r, hits bound r v = hits bound r v') ↔ r ∣ bound := by
  rw [Nat.dvd_iff_mod_eq_zero]
  have hmod : bound % r < r := Nat.mod_lt _ hr
  constructor
  · intro h
    -- the first remainder is hit as often as the first one behind the cut
    have hsame := h 0 hr (bound % r) hmod
    rw [hits_eq hr, hits_eq hmod, if_neg (lt_irrefl _)] at hsame
    by_contra hne
    rw [if_pos (Nat.pos_of_ne_zero hne)] at hsame
    omega
  · intro hzero v hv v' hv'
    rw [hits_eq hv, hits_eq hv', hzero, if_neg (Nat.not_lt_zero _), if_neg (Nat.not_lt_zero _)]

end Residues
