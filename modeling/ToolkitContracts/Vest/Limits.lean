import ToolkitContracts.Vest.Assertions

/-!
# The limits of the arithmetic of `unlock`

`multiply_decimal64` scales its product by ten before it divides and checks the range, so the
check refuses quotients that would fit once the extra digit is rounded off. For the issues of
a reachable state nothing else in the arithmetic of `unlock` can fail: a due `unlock` on an
enabled plan is carried out exactly when the last period has begun or the scaled quotient
fits.
-/

namespace ToolkitContracts
namespace Vest

open Schedule

section Due
variable {self : Name} {w w' : World State} {ctx : Ctx} {p : VestPlan} {i : VestIssue}
  {issuer : Name} {clock : TimePoint} {is : List (Ctx × Input Action)}

/-- An issue of which something is due has reached its first unlock day. -/
theorem first_day_of_due {now : TimePoint} (hp : p.Sound) (hunlocked : 0 ≤ i.unlocked.amount)
    (hdue : i.unlocked.amount < releasedOf p i now) : i.firstUnlockDays ≤ elapsedDays i now := by
  by_contra hearly
  have htimes := hp.times
  have hzero : periods p i now = 0 := if_pos (by omega)
  rw [releasedOf, hzero, Nat.cast_zero, released_of_lt (by omega), mul_zero] at hdue
  have hround : roundHalfUp 0 p.unlockTimes ≤ 0 := roundHalfUp_le (by omega) (by omega)
  omega

/-- An ongoing issue has no more locked than an asset can hold. -/
theorem locked_le_max (h : Accounted clock w.state.plans w.state.issues)
    (hi : w.state.issues.find? i.issueId = some i) (hongoing : i.status = .ongoing)
    (hp : w.state.plans.find? i.planId = some p) : i.locked.amount ≤ Asset.maxAmount := by
  have hsound := h.plan p (Table.find?_eq_some.mp hp).1
  have hissued := hsound.issued
  have hunlocked := hsound.unlocked
  have hrefunded := hsound.refunded
  have hout := locked_le_outstanding h hi hongoing hp
  unfold VestPlan.outstanding at hout
  omega

/-- A transaction that calls `unlock` succeeds when the code orders a payment to another
account. -/
theorem step_of_unlock (hw : Solvent w) (hclock : w.clock ≤ ctx.now) {s' : State} {t : Transfer}
    (h : unlock ctx issuer i.planId i.issueId w.state = .ok (s', [t])) (hto : t.recipient ≠ self) :
    ∃ w', (contract self).step w (ctx, .act (.unlock issuer i.planId i.issueId)) = .ok w' := by
  have hexec : exec self ctx (.unlock issuer i.planId i.issueId) w.state = .ok (s', [t]) := h
  obtain ⟨hpos, hcovered⟩ := paid_of_act hw hclock hexec t (List.mem_singleton.mpr rfl)
  have hsettle := settle_singleton hto hpos hcovered
  exact ⟨⟨s', _, ctx.now⟩, ((contract self).step_eq_ok).mpr
    ⟨hclock, Contract.signer?_act _ _, rfl, [t], hexec, hsettle⟩⟩

/-- In every reachable state, a call of `unlock` at a time at which the schedule of an issue
on an enabled plan has released more than was paid succeeds exactly when the issue is
ongoing, its receiver is another account, and the last period has begun or the scaled
quotient fits an `int64_t`. -/
theorem due_unlock_iff
    (hrun : Transition.Run (contract self).step Transition.Unrestricted (genesis clock) is w)
    (hi : i ∈ w.state.issues) (hp : w.state.plans.find? i.planId = some p)
    (henabled : p.status = .enabled) (hclock : w.clock ≤ ctx.now)
    (hauth : ctx.hasAuth issuer = true) (hdue : i.unlocked.amount < releasedOf p i ctx.now) :
    (∃ w', (contract self).step w (ctx, .act (.unlock issuer i.planId i.issueId)) = .ok w') ↔
      i.status = .ongoing ∧ i.receiver ≠ self ∧
      (p.unlockTimes ≤ periods p i ctx.now ∨
        10 * i.issued.amount * periods p i ctx.now / p.unlockTimes ≤ 2 ^ 63 - 1) := by
  have hw : Solvent w := solvent_of_run hrun
  have hfind := Table.find?_self hi
  have hplan := hw.accounted.plan p (Table.find?_eq_some.mp hp).1
  constructor
  · rintro ⟨w', hstep⟩
    obtain ⟨-, -, -, outs, hcode, hsettle⟩ := ((contract self).step_eq_ok).mp hstep
    have hm : Move self ctx w.state (.act (.unlock issuer i.planId i.issueId)) w'.state outs :=
      move_of_run hcode
    generalize hplanId : i.planId = planId, hid : i.issueId = issueId, w'.state = s' at hm
    cases hm with
    | unlock _ issue plan total quantity hissue hplanFind hongoing _ hdays htotal =>
      obtain rfl : issue = i := by
        rw [← hid, hfind] at hissue
        exact (Option.some.inj hissue).symm
      obtain rfl : plan = p := Option.some.inj (hplanFind.symm.trans hp)
      have hsound := (hw.accounted.issue issue hi hongoing).later hclock
      have hunlocked := hsound.unlocked
      have hfirst := first_day_of_due hplan hunlocked hdue
      have hissued : 0 ≤ issue.issued.amount := by
        have hlocked := hsound.locked
        have hpos := hsound.pos
        omega
      have hto := (mem_of_settle hsettle (List.mem_singleton.mpr rfl)).1
      refine ⟨hongoing, hto, ?_⟩
      have hvalue := totalUnlocked_eq hplan hsound.issuedAt hsound.days hfirst hissued htotal
      rw [hvalue] at htotal
      exact (totalUnlocked_iff hplan hsound.issuedAt hsound.days hfirst hissued hdue.le).mp htotal
  · rintro ⟨hongoing, hto, hfits⟩
    have hsound := (hw.accounted.issue i hi hongoing).later hclock
    have hlocked := hsound.locked
    have hpos := hsound.pos
    have hunlocked := hsound.unlocked
    have hfirst := first_day_of_due hplan hunlocked hdue
    have htotal := (totalUnlocked_iff hplan hsound.issuedAt hsound.days hfirst (by omega)
      hdue.le).mpr hfits
    rcases unlock_of_total hfind hp hongoing henabled hplan hsound
      (locked_le_max hw.accounted hfind hongoing hp) hfirst hauth hdue.le htotal with hpays | hearly
    · obtain ⟨-, s', t, hok, hrecipient, -⟩ := hpays
      exact step_of_unlock hw hclock hok (hrecipient ▸ hto)
    · exact absurd hdue (not_lt.mpr hearly.1)

end Due

/-! ## An unlock that the check refuses -/

/-- The input is no `transissue` and no `setfirstdays`. -/
def LeavesSchedules : Ctx × Input Action → Prop
  | (_, .act (.transissue _ _ _ _)) => False
  | (_, .act (.setfirstdays _ _)) => False
  | _ => True

instance (i : Ctx × Input Action) : Decidable (LeavesSchedules i) := by
  rcases i with ⟨ctx, n | a⟩
  · exact inferInstanceAs (Decidable True)
  · rcases a with _ | _ | _ | _ | _ | _ | _ | _ | _ | _ <;> dsimp only [LeavesSchedules] <;>
      infer_instance

namespace Sample

/-- The largest deposit, on the plan with ten daily periods. -/
def largest : Input Action :=
  .notify ⟨sysBank, alice, account, .lit (int64 (2 ^ 62 - 1)) sysSymbol, "issue:bob:1:0".toList,
    by decide⟩

def largestInputs : List (Ctx × Input Action) :=
  inputs.take 1 ++ [(.signed alice 100, largest)]

/-- On day 104, in the fifth of ten periods, half of the deposit is due, and the call aborts:
ten times that half does not fit an `int64_t`. Neither `transissue` nor `setfirstdays` was
called. -/
theorem due_unlock_aborts :
    ¬ ∀ (self : Name) (clock : TimePoint) (is : List (Ctx × Input Action)) (w : World State)
      (i : VestIssue) (p : VestPlan) (ctx : Ctx) (issuer : Name),
      Transition.Run (contract self).step (fun _ x => LeavesSchedules x) (genesis clock) is w →
      i ∈ w.state.issues → w.state.plans.find? i.planId = some p → i.status = .ongoing →
      i.receiver ≠ self → p.status = .enabled → w.clock ≤ ctx.now → ctx.hasAuth issuer = true →
      i.unlocked.amount < releasedOf p i ctx.now →
      ∃ w', (contract self).step w (ctx, .act (.unlock issuer i.planId i.issueId)) = .ok w' := by
  intro hclaim
  have hreach : Transition.Reaches (contract account).step (fun _ x => LeavesSchedules x) (fun w =>
      ∃ i ∈ w.state.issues.find? 1, ∃ p ∈ w.state.plans.find? i.planId,
        (i.status = .ongoing ∧ i.receiver ≠ account ∧ p.status = .enabled) ∧
        w.clock ≤ .ofDays 104 ∧ i.unlocked.amount < releasedOf p i (.ofDays 104) ∧
        Fails ((contract account).step w
          (.signed bob 104, .act (.unlock bob i.planId i.issueId)))
          ⟨none, "overflow exception of multiply_decimal"⟩) largestInputs start := by decide
  obtain ⟨w, hrun, i, hi, p, hp, ⟨hongoing, hto, henabled⟩, hclock, hdue, hfails⟩ :=
    Transition.run_of_reaches hreach
  obtain ⟨w', hok⟩ := hclaim account _ _ w i p (.signed bob 104) bob hrun
    (Table.find?_eq_some.mp hi).1 hp hongoing hto henabled hclock (by decide) hdue
  rw [fails_iff, hok] at hfails
  cases hfails

/-- On day 109 the last period has begun, and everything is paid. -/
theorem due_unlock_iff_sample :
    ∃ is w i, Transition.Run (contract account).step Transition.Unrestricted start is w ∧
      i ∈ w.state.issues ∧ i.issued.amount = 2 ^ 62 - 1 ∧
      ∃ w', (contract account).step w
        (.signed bob 109, .act (.unlock bob i.planId i.issueId)) = .ok w' := by
  have hreach : Transition.Reaches (contract account).step Transition.Unrestricted (fun w =>
      ∃ i ∈ w.state.issues.find? 1, ∃ p ∈ w.state.plans.find? i.planId,
        (i.status = .ongoing ∧ i.receiver ≠ account ∧ p.status = .enabled) ∧
        w.clock ≤ .ofDays 109 ∧ i.unlocked.amount < releasedOf p i (.ofDays 109) ∧
        i.issued.amount = 2 ^ 62 - 1 ∧ p.unlockTimes ≤ periods p i (.ofDays 109))
      largestInputs start := by decide
  obtain ⟨w, hrun, i, hi, p, hp, ⟨hongoing, hto, henabled⟩, hclock, hdue, hissued, hlast⟩ :=
    Transition.run_of_reaches hreach
  have hmem := (Table.find?_eq_some.mp hi).1
  have hauth : (Ctx.signed bob 109).hasAuth bob = true := by decide
  exact ⟨_, w, i, hrun, hmem, hissued, (due_unlock_iff hrun hmem hp henabled hclock hauth
    hdue).mpr ⟨hongoing, hto, Or.inl hlast⟩⟩

end Sample

end Vest
end ToolkitContracts
