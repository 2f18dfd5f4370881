import ToolkitContracts.Redpack.Draw

/-!
# What the draws leave

A claim on a `RANDOM` red packet may draw up to twice the mean of what is left, so the claims
that follow share less. They can never run out before the last one: a deposit backs each share
with 100, the smallest unit is 1, 10 or 100, and a draw leaves a unit (two, where the unit
is 1) for each share but the last. So as long as several shares are left there is something to
draw from, whatever was drawn before.
-/

namespace ToolkitContracts
namespace Redpack

open Drawing

/-- The smallest unit is one, or even. -/
theorem smallestUnit_even (p : ℕ) : smallestUnit p = 1 ∨ 2 ∣ smallestUnit p := by
  unfold smallestUnit
  split
  · interval_cases p <;> decide
  · decide

/-- A draw on what is left of the red packet: `maxQuantity` is twice the mean, of `maxUnits`
units, and `drawn` of the smallest units are drawn and make the share `assigned`. No
value on the way leaves the range of its type. -/
structure WellDrawn (ctx : Ctx) (r : RedpackRow) (maxQuantity : Asset) (maxUnits : ℤ) (drawn : ℕ)
    (assigned : Asset) : Prop where
  base : power10 r.precision = 10 ^ r.precision
  twice : Asset.new (u64 (r.remainingQuant.amount / r.remainingCount * 2))
    r.remainingQuant.symbol = .ok maxQuantity
  exact : maxQuantity.amount = r.remainingQuant.amount / r.remainingCount * 2
  unit : minUnitValue r.precision (if r.precision ≤ 2 then 0 else r.precision - 2)
    = .ok (smallestUnit r.precision)
  units : divTrap maxQuantity.amount (smallestUnit r.precision) = .ok maxUnits
  range : 1 ≤ maxUnits ∧ maxUnits < 2 ^ 63
  rand : rand ctx maxQuantity (if r.precision ≤ 2 then 0 else r.precision - 2) = .ok drawn
  amount : (drawn : ℤ) = (ctx.seed.toNat % maxUnits + 1) * smallestUnit r.precision
  small : drawn < 2 ^ 63
  assign : assign ctx r = .ok assigned
  share : assigned.amount = drawn
  pos : 0 < assigned.amount
  multiple : smallestUnit r.precision ∣ assigned.amount
  le : assigned.amount ≤ r.remainingQuant.amount

/-- The cushion of the shares that are left is there. -/
def RedpackRow.Cushioned (r : RedpackRow) : Prop :=
  r.assignType = .random → r.precision ≤ 18 →
    cushion (smallestUnit r.precision) r.remainingCount ≤ r.remainingQuant.amount

/-! ## One draw -/

section Draw
variable {self : Name} {ctx : Ctx} {s s' : State} {i : Input Action} {outs : List Transfer}
  {r : RedpackRow} {n : Notice} {claimer : Name} {pwhash : List Char} {dids : List DidBalance}
  {assigned rest : Asset}

/-- There is a unit to draw from a cushioned red packet. -/
theorem RedpackRow.Cushioned.choices_pos (h : r.Cushioned) (hrandom : r.assignType = .random)
    (hprecision : r.precision ≤ 18) (hn : 2 ≤ r.remainingCount) :
    0 < choices (smallestUnit r.precision) r.remainingQuant.amount r.remainingCount := by
  obtain ⟨hunit, -⟩ := smallestUnit_bounds r.precision
  exact Drawing.choices_pos hunit
    (half_le_mean_of_cushion (smallestUnit_even _) hn (h hrandom hprecision))

/-- While several shares are left of a cushioned red packet, every seed draws well. -/
theorem wellDrawn_of_cushioned (ctx : Ctx) (h : r.Cushioned) (hsound : r.Sound)
    (hrandom : r.assignType = .random) (hprecision : r.precision ≤ 18)
    (hn : 2 ≤ r.remainingCount) :
    ∃ maxQuantity maxUnits drawn assigned, WellDrawn ctx r maxQuantity maxUnits drawn assigned := by
  obtain ⟨hunit, hsmall⟩ := smallestUnit_bounds r.precision
  have hchoices := h.choices_pos hrandom hprecision hn
  have hmax : Asset.maxAmount = 2 ^ 62 - 1 := rfl
  have htotal := hsound.valid.1.2
  have hremaining := hsound.remaining
  have hmean : 0 ≤ r.remainingQuant.amount / r.remainingCount :=
    Int.ediv_nonneg hremaining.1 (Int.natCast_nonneg _)
  have hmany : Drawing.choices (smallestUnit r.precision) r.remainingQuant.amount r.remainingCount
      ≤ r.remainingQuant.amount := choices_le hremaining.1 hn
  have hpos := share_pos ctx.seed.toNat hunit hchoices
  have hle := share_le ctx.seed.toNat hunit hremaining.1 hn hchoices
  obtain ⟨q, hq, hexact, hsymbol⟩ := maxQuantity_eq hsound hn
  obtain ⟨a, ha, -, hshare⟩ := assign_random ctx hsound hrandom hprecision hn hchoices
  have hshare' : a.amount = Drawing.share ctx.seed.toNat (smallestUnit r.precision)
    r.remainingQuant.amount r.remainingCount := hshare
  have hunitValue : minUnitValue r.precision (if r.precision ≤ 2 then 0 else r.precision - 2)
      = .ok (smallestUnit r.precision) := minUnitValue_eq hprecision
  have hprec : q.symbol.precision = r.precision := congrArg Symbol.precision hsymbol
  refine ⟨q, choices (smallestUnit r.precision) r.remainingQuant.amount r.remainingCount,
    (Drawing.share ctx.seed.toNat (smallestUnit r.precision) r.remainingQuant.amount
      r.remainingCount).toNat, a, ?_⟩
  constructor
  case base =>
    have hnonneg : (0 : ℤ) ≤ 10 ^ r.precision := by positivity
    have hpow : (10 : ℤ) ^ r.precision ≤ 10 ^ 18 := pow_le_pow_right₀ (by norm_num) hprecision
    apply i64_eq
    · omega
    · omega
  case twice => exact hq
  case exact => exact hexact
  case unit => exact hunitValue
  case units =>
    rw [divTrap_of hunit.ne', hexact, Int.tdiv_eq_ediv_of_nonneg (by omega)]
    rfl
  case range => omega
  case rand =>
    refine rand_eq ctx ?_ hunit hsmall hexact ?_ hn hchoices
    · rw [hprec]
      exact hunitValue
    · omega
  case amount => exact Int.toNat_of_nonneg hpos.le
  case small => omega
  case assign => exact ha
  case share => omega
  case pos => omega
  case multiple =>
    rw [hshare']
    exact dvd_share _ _ _ _
  case le => omega

/-- A deposit of at least 100 for each share cushions them. -/
theorem Fresh.cushioned (hr : Fresh ctx n s r) : r.Cushioned := by
  intro _ _
  have hshare := hr.share
  have hpos := hr.quantPos
  obtain ⟨hunit, hsmall⟩ := smallestUnit_bounds r.precision
  rw [Int.tdiv_eq_ediv_of_nonneg hpos.le] at hshare
  rw [hr.remaining, hr.count]
  have hcount := hr.countPos
  have hmean : max 2 (smallestUnit r.precision) ≤ n.quantity.amount / r.totalCount := by omega
  apply cushion_le_of_mean hmean
  exact Int.mul_ediv_self_le (by omega)

/-- A claim does not change the token. -/
theorem precision_claimed (hrest : r.remainingQuant.sub assigned = .ok rest) (now : TimePoint) :
    (r.claimed rest now).precision = r.precision := by
  show rest.symbol.precision = _
  rw [Asset.symbol_of_sub hrest]
  rfl

/-- A claim leaves the cushion of the shares that are left. -/
theorem RedpackRow.Cushioned.claimed (h : r.Cushioned) (hsound : r.Sound)
    (hr : Claimable ctx s r claimer pwhash dids) (hassign : assign ctx r = .ok assigned)
    (hpos : 0 < assigned.amount) (hrest : r.remainingQuant.sub assigned = .ok rest)
    (hsound' : (r.claimed rest ctx.now).Sound) : (r.claimed rest ctx.now).Cushioned := by
  intro hrandom hprecision
  rw [precision_claimed hrest ctx.now] at hprecision ⊢
  have hamount := claimed_amount hsound hpos hrest
  have hnonneg : 0 ≤ rest.amount := hsound'.remaining.1
  have hcount := hr.countPos
  show cushion _ (r.remainingCount - 1) ≤ rest.amount
  by_cases hlast : r.remainingCount = 1
  · -- nobody is left
    rw [hlast]
    unfold cushion
    omega
  · have hn : 2 ≤ r.remainingCount := by omega
    obtain ⟨hunit, -⟩ := smallestUnit_bounds r.precision
    have hchoices := h.choices_pos hrandom hprecision hn
    obtain ⟨a, ha, -, hshare⟩ := assign_random ctx hsound hrandom hprecision hn hchoices
    obtain rfl : a = assigned := Except.ok.inj (ha.symm.trans hassign)
    rw [hamount, hshare]
    exact cushion_le_sub_share _ hunit hn hchoices (h hrandom hprecision)

theorem cushioned_of_move (hsound : ∀ r ∈ s.redpacks, r.Sound) (h : ∀ r ∈ s.redpacks, r.Cushioned)
    (hsound' : ∀ r ∈ s'.redpacks, r.Sound) (hm : Move self ctx s i s' outs)
    (hpos : ∀ t ∈ outs, 0 < t.quantity.amount) : ∀ r ∈ s'.redpacks, r.Cushioned := by
  cases hm with
  | ignore | configure | setglobalidx | delclaims => exact h
  | deposit n r hto hbank hr => exact Table.forall_put h hr.cushioned
  | claimredpack r claimer pwhash dids assigned rest hr hassign hsymbol hle hrest hid =>
    have hmem := (Table.find?_eq_some.mp hr.stored).1
    refine Table.forall_put h ?_
    exact (h r hmem).claimed (hsound r hmem) hr hassign (hpos _ (List.mem_singleton.mpr rfl)) hrest
      (hsound' _ (Table.mem_put_self _ _))
  | cancel r hr => exact Table.forall_erase h

end Draw

/-! ## Runs -/

section Runs
variable {account : Name} {w w' : World State} {clock : TimePoint}
  {is : List (Ctx × Input Action)}

/-- The red packets are covered and cushioned. -/
structure Drawable (w : World State) : Prop where
  covered : Covered w
  cushioned : ∀ r ∈ w.state.redpacks, r.Cushioned

theorem drawable_of_step {i : Ctx × Input Action} (h : Drawable w)
    (hs : (contract account).step w i = .ok w') : Drawable w' := by
  obtain ⟨-, -, -, outs, hrun, hsettle⟩ := ((contract account).step_eq_ok).mp hs
  have hm := move_of_run h.covered.fee hrun
  have hpos : ∀ t ∈ outs, 0 < t.quantity.amount := fun t ht => (mem_of_settle hsettle ht).2
  have hcovered := covered_of_step h.covered hs
  exact ⟨hcovered, cushioned_of_move h.covered.sound h.cushioned hcovered.sound hm hpos⟩

/-- In every state that any run reaches, with any seeds drawn, every seed draws well on a
random red packet that has several shares left: the maximum holds a unit at least, and the share
is positive, a multiple of the smallest unit and no more than what is left. -/
theorem random_draw_defined
    (hrun : Transition.Run (contract account).step Transition.Unrestricted (genesis clock) is w) :
    ∀ r ∈ w.state.redpacks, r.assignType = .random → r.precision ≤ 18 → 2 ≤ r.remainingCount →
    ∀ ctx : Ctx, ∃ maxQuantity maxUnits drawn assigned,
      WellDrawn ctx r maxQuantity maxUnits drawn assigned := by
  have h : Drawable w := hrun.invariant (fun _ _ _ hw _ hs => drawable_of_step hw hs)
    ⟨(solvent_genesis clock).covered, fun r hr => absurd hr (Table.not_mem_empty r)⟩
  intro r hr hrandom hprecision hn ctx
  exact wellDrawn_of_cushioned ctx (h.cushioned r hr) (h.covered.sound r hr) hrandom hprecision hn

end Runs

/-! ## The least that two shares can be left with -/

namespace Sample

theorem amount_fits : 0 ≤ (300 : ℤ) ∧ (300 : ℤ) < 1000000 := by omega

/-- The first of three claimers draws 200 of 300 units; of the 100 that are left every seed draws a
share for the second. -/
theorem random_draw_defined_sample :
    ∃ w, Transition.Run (contract account).step Transition.Unrestricted (genesis (.ofDays 100))
        (setup ++ [deposit 100 300 amount_fits "awrap:gift:random:0:3::cover", claim 100 bob 1]) w ∧
      ∃ r ∈ w.state.redpacks, r.remainingCount = 2 ∧ r.remainingQuant.amount = 100 ∧
        ∀ ctx : Ctx, ∃ maxQuantity maxUnits drawn assigned,
          WellDrawn ctx r maxQuantity maxUnits drawn assigned := by
  have hreach : Transition.Reaches (contract account).step Transition.Unrestricted (fun w =>
      ∃ r ∈ w.state.redpacks.find? gift.raw, r.assignType = .random ∧ r.precision ≤ 18 ∧
        r.remainingCount = 2 ∧ r.remainingQuant.amount = 100)
      (setup ++ [deposit 100 300 amount_fits "awrap:gift:random:0:3::cover", claim 100 bob 1])
      (genesis (.ofDays 100)) := by decide
  obtain ⟨w, hrun, r, hr, hrandom, hprecision, hcount, hamount⟩ := Transition.run_of_reaches hreach
  have hmem := (Table.find?_eq_some.mp hr).1
  exact ⟨w, hrun, r, hmem, hcount, hamount,
    random_draw_defined hrun r hmem hrandom hprecision hcount.ge⟩

end Sample

end Redpack
end ToolkitContracts
