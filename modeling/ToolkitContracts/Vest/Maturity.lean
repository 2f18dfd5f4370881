import ToolkitContracts.Chain.Payments
import ToolkitContracts.Vest.Limits

/-!
# Maturity

When the last period of an issue has begun, `unlock` releases the issued amount without computing a
share of it. Then nothing that went before matters: not the rounding, not an earlier transfer that
left the schedule behind, and not the limits of the arithmetic. What is locked is paid, and once
every issue has matured they can all be paid, in any order, until the account is empty.
-/

namespace ToolkitContracts
namespace Vest

open Schedule Transition

/-- Every period of the issue has begun. -/
def Mature (p : VestPlan) (i : VestIssue) (now : TimePoint) : Prop := p.unlockTimes ≤ periods p i now

instance (p : VestPlan) (i : VestIssue) (now : TimePoint) : Decidable (Mature p i now) :=
  inferInstanceAs (Decidable (_ ≤ _))

/-- The transfer that pays what an issue has locked. -/
def VestIssue.payout (i : VestIssue) (p : VestPlan) : Transfer :=
  ⟨p.assetContract, i.receiver, i.locked,
    ("unlock: " ++ toString i.issueId ++ "@" ++ toString i.planId).toList⟩

/-! ## One issue -/

section One
variable {ctx : Ctx} {s : State} {p : VestPlan} {i : VestIssue} {issuer : Name} {clock : TimePoint}

theorem first_day_of_mature (hp : p.Sound) (h : Mature p i ctx.now) :
    i.firstUnlockDays ≤ elapsedDays i ctx.now := by
  by_contra hearly
  have htimes := hp.times
  have hzero : periods p i ctx.now = 0 := if_pos (by omega)
  unfold Mature at h
  omega

/-- `unlock` on a mature issue pays what is locked, and finishes it. -/
theorem unlock_of_mature (hs : Accounted clock s.plans s.issues) (hclock : clock ≤ ctx.now)
    (hi : i ∈ s.issues) (hongoing : i.status = .ongoing) (hp : s.plans.find? i.planId = some p)
    (henabled : p.status = .enabled) (hauth : ctx.hasAuth issuer = true)
    (hmature : Mature p i ctx.now) :
    unlock ctx issuer i.planId i.issueId s
      = .ok ({ s with
          plans := s.plans.put (planPaid ctx.now p i.locked.amount)
          issues := s.issues.put (issuePaid ctx.now i i.issued.amount) }, [i.payout p]) := by
  have hplan := hs.plan p (Table.find?_eq_some.mp hp).1
  have hsound := (hs.issue i hi hongoing).later hclock
  have hlocked := hsound.locked
  have hpos := hsound.pos
  have hunlocked := hsound.unlocked
  have hfind := Table.find?_self hi
  have hfirst := first_day_of_mature hplan hmature
  have hreleased : releasedOf p i ctx.now = i.issued.amount := released_of_le (by
    unfold Mature at hmature
    omega)
  have htotal : totalUnlocked p i (unlockedTimes p (unlockedDays ctx.now i)) = .ok i.issued.amount := by
    have hdue := (totalUnlocked_iff hplan hsound.issuedAt hsound.days hfirst (by omega)
      (by omega)).mpr (Or.inl hmature)
    rwa [hreleased] at hdue
  have hbounds : i.unlocked.amount ≤ i.issued.amount ∧ i.issued.amount ≤ i.issued.amount := by
    omega
  have hexact := i64_of_bounds hsound hbounds
  have hdifference : i64 (i.issued.amount - i.unlocked.amount) = i.locked.amount :=
    hexact.2.1.trans hlocked.symm
  have hdays : 0 ≤ unlockedDays ctx.now i := by
    rw [unlockedDays_eq hsound.issuedAt hsound.days]
    omega
  obtain ⟨q, hq, hissuedSymbol, hlockedSymbol, hunlockedSymbol⟩ := hsound.plan
  obtain rfl : q = p := Option.some.inj (hq.symm.trans hp)
  have hmax := locked_le_max (w := ⟨s, fun _ => 0, clock⟩) hs hfind hongoing hp
  have hmaxAmount : Asset.maxAmount = 2 ^ 62 - 1 := rfl
  -- the amount that is paid is the locked one, as it is stored
  have hquantity : Asset.new i.locked.amount q.assetSymbol = .ok i.locked := by
    refine Asset.new_eq_ok.mpr ⟨(i64_eq ?_ ?_).symm, hlockedSymbol, ⟨?_, hmax⟩, hplan.symbol⟩
    · omega
    · omega
    · omega
  have hsame : (i.unlocked.setAmount i.issued.amount).symbol = i.issued.symbol :=
    hunlockedSymbol.trans hissuedSymbol.symm
  rw [unlock, Ctx.requireAuth, check_of hauth, hfind, require, ok_bind, check_of rfl,
    check_of hsound.issuedAt, hp, require, ok_bind, check_of henabled,
    check_of ⟨hplan.times.1, hplan.interval⟩]
  simp only []
  rw [check_of hongoing, check_of hdays, htotal, ok_bind]
  simp only [hdifference]
  rw [check_of (by omega), check_of hpos, hquantity, ok_bind, Asset.comparable, check_of hsame]
  rfl

end One

/-! ## All issues -/

/-- The plan of an issue. -/
def planIdOf (s : State) (issueId : ℕ) : ℕ :=
  match s.issues.find? issueId with
  | some i => i.planId
  | none => 0

/-- What the issue with an id has locked, as a transfer to its receiver. -/
def payoutOf (s : State) (issueId : ℕ) : List Transfer :=
  match s.issues.find? issueId with
  | some i =>
    match s.plans.find? i.planId with
    | some p => [i.payout p]
    | none => []
  | none => []

/-- The issue can be paid in full by a call of `caller`. -/
structure Payable (account caller : Name) (s : State) (ctx : Ctx) (i : VestIssue) : Prop where
  auth : ctx.hasAuth caller = true
  receiver : i.receiver ≠ account
  plan : ∃ p, s.plans.find? i.planId = some p ∧ p.status = .enabled ∧ Mature p i ctx.now

/-- The ongoing issues, which `caller` calls `unlock` for. -/
def keeping (account : Name) (caller : ℕ → Name) (s : State) : Contract.Keeping State ℕ where
  has := fun s issueId => ∃ i ∈ s.issues, i.issueId = issueId ∧ i.status = .ongoing
  ready := fun s call => ∀ i ∈ s.issues, i.issueId = call.2 → i.status = .ongoing →
    Payable account (caller call.2) s call.1 i
  pays := payoutOf s

/-- The call that pays an issue. -/
def unlockCall (caller : ℕ → Name) (s : State) (issueId : ℕ) : Action :=
  .unlock (caller issueId) (planIdOf s issueId) issueId

/-- The issues that are still ongoing are as they were in the state `s`, on the same terms. -/
structure Maturing (s : State) (w : World State) : Prop where
  solvent : Solvent w
  left : ∀ i ∈ w.state.issues, i.status = .ongoing →
    i ∈ s.issues ∧ ∃ p, s.plans.find? i.planId = some p
  terms : ∀ k p, s.plans.find? k = some p →
    ∃ p', w.state.plans.find? k = some p' ∧ p.SameTerms p'

section All
variable {self : Name} {s : State} {w : World State} {p : VestPlan} {i : VestIssue}
  {caller : ℕ → Name} {calls : List (Ctx × ℕ)} {is : List (Ctx × Input Action)}
  {clock : TimePoint}

/-- The payment of one issue leaves the plans on their terms and with their statuses. -/
theorem plan_after (now : TimePoint) {amount : ℤ} (hp : s.plans.find? p.id = some p) {k : ℕ}
    {q : VestPlan} (hq : s.plans.find? k = some q) :
    ∃ q', (s.plans.put (planPaid now p amount)).find? k = some q' ∧ q.SameTerms q' ∧
      q'.status = q.status := by
  rw [Table.find?_put]
  by_cases hk : k = p.id
  · subst hk
    obtain rfl : p = q := Option.some.inj (hp.symm.trans hq)
    exact ⟨_, if_pos rfl, ⟨rfl, rfl, rfl, rfl⟩, rfl⟩
  · exact ⟨q, (if_neg hk).trans hq, .refl q, rfl⟩

/-- A finished issue is not ongoing. -/
theorem status_issuePaid (now : TimePoint) (hbounds : i.issued.amount < 2 ^ 63)
    (hpos : 0 ≤ i.issued.amount) : (issuePaid now i i.issued.amount).status = .finished := by
  show (if i64 i.issued.amount = i.issued.amount then IssueStatus.finished else i.status) = _
  rw [if_pos]
  apply i64_eq
  · omega
  · exact hbounds

theorem maturing_of_unlock {call : Ctx × ℕ} (h : Maturing s w)
    (hhas : (keeping self caller s).has w.state call.2)
    (hready : (keeping self caller s).ready w.state call) (hclock : w.clock ≤ call.1.now) :
    ∃ s' holding, exec self call.1 (unlockCall caller s call.2) w.state
        = .ok (s', payoutOf s call.2) ∧
      settle self w.holding (payoutOf s call.2) = .ok holding ∧
      Maturing s ⟨s', holding, call.1.now⟩ ∧
      (∀ id, (keeping self caller s).has s' id ↔
        (keeping self caller s).has w.state id ∧ id ≠ call.2) ∧
      ∀ next, (keeping self caller s).has w.state next.2 →
        (keeping self caller s).ready w.state next → (keeping self caller s).ready s' next := by
  obtain ⟨ctx, id⟩ := call
  obtain ⟨i, hi, rfl, hongoing⟩ := hhas
  obtain ⟨hauth, hto, p, hp, henabled, hmature⟩ := hready i hi rfl hongoing
  obtain ⟨hold, q, hq⟩ := h.left i hi hongoing
  have hsound := h.solvent.accounted.issue i hi hongoing
  have hlocked := hsound.locked
  have hpos := hsound.pos
  have hunlocked := hsound.unlocked
  have hpid : p.id = i.planId := (Table.find?_eq_some.mp hp).2
  have hself : w.state.plans.find? p.id = some p := hpid.symm ▸ hp
  -- the plan that the call names and the transfer it orders were read from the tables at the start
  have hcall : unlockCall caller s i.issueId = .unlock (caller i.issueId) i.planId i.issueId := by
    unfold unlockCall planIdOf
    rw [Table.find?_self hold]
  obtain ⟨p', hp', hterms⟩ := h.terms _ q hq
  obtain rfl : p' = p := Option.some.inj (hp'.symm.trans hp)
  have hpays : payoutOf s i.issueId = [i.payout p'] := by
    simp only [payoutOf, Table.find?_self hold, hq, VestIssue.payout, hterms.contract]
  have hexec : exec self ctx (.unlock (caller i.issueId) i.planId i.issueId) w.state = _ :=
    unlock_of_mature h.solvent.accounted hclock hi hongoing hp henabled hauth hmature
  obtain ⟨-, hcovered⟩ := paid_of_act h.solvent hclock hexec _ (List.mem_singleton.mpr rfl)
  have hsettle := settle_singleton (t := i.payout p') hto hpos hcovered
  have hstep : (contract self).step w (ctx, .act (.unlock (caller i.issueId) i.planId i.issueId))
      = .ok ⟨_, _, ctx.now⟩ := ((contract self).step_eq_ok).mpr
    ⟨hclock, Contract.signer?_act _ _, rfl, _, hexec, hsettle⟩
  have hfinished := status_issuePaid ctx.now i.issued.bounds.2 (by omega)
  -- the other ongoing issues are the same rows as before
  have hothers : ∀ j ∈ w.state.issues.put (issuePaid ctx.now i i.issued.amount),
      j.status = .ongoing → j ∈ w.state.issues ∧ j.issueId ≠ i.issueId := by
    intro j hj hjongoing
    rcases Table.mem_put.mp hj with rfl | ⟨hjold, hne⟩
    · rw [hfinished] at hjongoing
      cases hjongoing
    · exact ⟨hjold, hne⟩
  rw [hpays, hcall]
  refine ⟨_, _, hexec, hsettle, ⟨solvent_of_step h.solvent hstep, ?_, ?_⟩, fun id => ?_, ?_⟩
  · intro j hj hjongoing
    exact h.left j (hothers j hj hjongoing).1 hjongoing
  · intro k r hr
    obtain ⟨r', hr', hsame⟩ := h.terms k r hr
    obtain ⟨r'', hr'', hsame', -⟩ := plan_after ctx.now hself hr'
    exact ⟨r'', hr'', hsame.trans hsame'⟩
  · constructor
    · rintro ⟨j, hj, rfl, hjongoing⟩
      obtain ⟨hjold, hne⟩ := hothers j hj hjongoing
      exact ⟨⟨j, hjold, rfl, hjongoing⟩, hne⟩
    · rintro ⟨⟨j, hj, rfl, hjongoing⟩, hne⟩
      exact ⟨j, Table.mem_put.mpr (Or.inr ⟨hj, hne⟩), rfl, hjongoing⟩
  · intro next _ hnext j hj hid hjongoing
    have hpayable := hnext j (hothers j hj hjongoing).1 hid hjongoing
    obtain ⟨r, hr, hrenabled, hrmature⟩ := hpayable.plan
    obtain ⟨r', hr', hsame, hstatus⟩ := plan_after ctx.now hself hr
    refine ⟨hpayable.auth, hpayable.receiver, r', hr', hstatus.trans hrenabled, ?_⟩
    unfold Mature periods at hrmature ⊢
    rw [hsame.times, hsame.interval]
    exact hrmature

/-- In every reachable state, when every ongoing issue has matured, under an enabled plan and for a
receiver other than the contract, calls of `unlock` that name each of them once all go through, in
any order and whoever makes them. They send each receiver what the issue has locked; then every
issue is finished, and the account holds nothing. -/
theorem matured_of_run (hrun : Run (contract self).step Unrestricted (genesis clock) is w)
    (hnodup : (calls.map Prod.snd).Nodup)
    (hall : ∀ id, (∃ i ∈ w.state.issues, i.issueId = id ∧ i.status = .ongoing) ↔
      id ∈ calls.map Prod.snd)
    (hpayable : ∀ call ∈ calls, ∀ i ∈ w.state.issues, i.issueId = call.2 → i.status = .ongoing →
      Payable self (caller call.2) w.state call.1 i)
    (hclock : ∀ call ∈ calls, w.clock ≤ call.1.now)
    (horder : calls.Pairwise fun a b => a.1.now ≤ b.1.now) :
    ∃ w', Run (contract self).stepPaying Unrestricted (w, [])
        (calls.map (Contract.clearing (unlockCall caller w.state)))
        (w', calls.flatMap fun call => payoutOf w.state call.2) ∧
      (∀ i ∈ w'.state.issues, i.status = .finished) ∧ ∀ x, w'.holding x = 0 := by
  have hsolvent : Solvent w := solvent_of_run hrun
  have hstart : Maturing w.state w := by
    refine ⟨hsolvent, fun i hi hongoing => ⟨hi, ?_⟩, fun k p hp => ⟨p, hp, .refl p⟩⟩
    obtain ⟨p, hp, -⟩ := (hsolvent.accounted.issue i hi hongoing).plan
    exact ⟨p, hp⟩
  obtain ⟨w', hrun', hmaturing, hnone⟩ := Contract.run_of_clears (C := contract self)
    (keeping self caller w.state) (unlockCall caller w.state)
    (fun w₁ call h hhas hready hnow => maturing_of_unlock h hhas hready hnow)
    hstart hnodup hall hpayable hclock horder
  have hongoing : ∀ i ∈ w'.state.issues, i.status ≠ .ongoing :=
    fun i hi hc => hnone i.issueId ⟨i, hi, rfl, hc⟩
  refine ⟨w', hrun', fun i hi => ?_, fun x => ?_⟩
  · have hnot := hongoing i hi
    have hterminated := hmaturing.solvent.accounted.status i hi
    cases hstatus : i.status with
    | ongoing => exact absurd hstatus hnot
    | terminated => exact absurd hstatus hterminated
    | finished => rfl
  · rw [hmaturing.solvent.holding x]
    refine Table.sum_eq_zero fun p hp => ?_
    rw [hmaturing.solvent.accounted.balance p hp]
    have hzero : lockedOn w'.state.issues p.id = 0 :=
      Table.sum_eq_zero fun i hi => lockedOf_of_not_ongoing (hongoing i hi) p.id
    rw [hzero, ite_self]

end All

/-! ## Two issues at maturity -/

namespace Sample

/-- Bob is paid half of his issue and hands most of the rest on to Carol. -/
def handedOn : List (Ctx × Input Action) :=
  inputs ++ [(.signed bob 104, .act (.transissue bob carol 1 (units 40)))]

/-- Carol calls for her issue, and Alice for Bob's. -/
def callers (issueId : ℕ) : Name := if issueId = 1 then alice else carol

def atMaturity : List (Ctx × ℕ) := [(.signed carol 110, 2), (.signed alice 111, 1)]

theorem matured_of_run_sample :
    ∃ w w' paid, Run (contract account).step Unrestricted start handedOn w ∧
      w.holding ⟨sysSymbol, sysBank⟩ = 50 ∧
      Run (contract account).stepPaying Unrestricted (w, [])
        (atMaturity.map (Contract.clearing (unlockCall callers w.state))) (w', paid) ∧
      w'.holding ⟨sysSymbol, sysBank⟩ = 0 := by
  have hreach : Reaches (contract account).step Unrestricted (fun w =>
      w.holding ⟨sysSymbol, sysBank⟩ = 50 ∧ w.clock = .ofDays 104 ∧
      w.state.issues.rows.map (fun i => (i.issueId, i.status)) = [(1, .ongoing), (2, .ongoing)] ∧
      ∀ call ∈ atMaturity, ∀ i ∈ w.state.issues.rows, i.issueId = call.2 →
        call.1.hasAuth (callers call.2) = true ∧ i.receiver ≠ account ∧
        ∃ p ∈ w.state.plans.find? i.planId, p.status = .enabled ∧ Mature p i call.1.now)
      handedOn start := by decide
  obtain ⟨w, hrun, hholding, hnow, hrows, hready⟩ := run_of_reaches hreach
  have hall : ∀ id, (∃ i ∈ w.state.issues, i.issueId = id ∧ i.status = .ongoing) ↔
      id ∈ atMaturity.map Prod.snd := by
    intro id
    have hmem : (∃ i ∈ w.state.issues, i.issueId = id ∧ i.status = .ongoing) ↔
        (id, IssueStatus.ongoing) ∈ w.state.issues.rows.map (fun i => (i.issueId, i.status)) := by
      simp [Table.mem_def]
    rw [hmem, hrows]
    simp [atMaturity, or_comm]
  have hpayable : ∀ call ∈ atMaturity, ∀ i ∈ w.state.issues, i.issueId = call.2 →
      i.status = .ongoing → Payable account (callers call.2) w.state call.1 i := by
    intro call hcall i hi hid _
    obtain ⟨hauth, hto, p, hp, henabled, hmature⟩ := hready call hcall i hi hid
    exact ⟨hauth, hto, p, hp, henabled, hmature⟩
  have hclock : ∀ call ∈ atMaturity, w.clock ≤ call.1.now := by
    rw [hnow]
    decide
  obtain ⟨w', hrun', -, hempty⟩ :=
    matured_of_run hrun (by decide) hall hpayable hclock (by decide)
  exact ⟨w, w', _, hrun, hholding, hrun', hempty _⟩

end Sample

end Vest
end ToolkitContracts
