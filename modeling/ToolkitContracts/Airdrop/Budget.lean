import ToolkitContracts.Airdrop.Payment

/-!
# Budgets

`setclaim` writes the budget of a rule, and claims take it down. A history variable keeps, for
every plan and token, the budget that the last `setclaim` wrote and the tokens that left the
contract's account in the claims on the plan since then.
-/

namespace ToolkitContracts
namespace Airdrop

/-- What was allocated to a rule by the last `setclaim` that wrote it, and what claims on its
plan have paid out in its token since then. -/
structure Ledger where
  allocated : ℕ → ExtendedSymbol → ℤ
  paid : ℕ → ExtendedSymbol → ℤ

/-- The ledger after an input that led from `w` to `w'`. -/
def Ledger.after (g : Ledger) (w : World State) (i : Input Action) (w' : World State) : Ledger :=
  match i with
  | .act (.setclaim planId symb _ allocated) =>
    { allocated := fun q x => if q = planId ∧ x = symb then allocated.amount else g.allocated q x
      paid := fun q x => if q = planId ∧ x = symb then 0 else g.paid q x }
  | .act (.claim planId _ _) =>
    { g with paid := fun q x =>
        if q = planId then g.paid q x + (w.holding x - w'.holding x) else g.paid q x }
  | _ => g

/-- One transaction, with budgets and payments written down. -/
def stepBudgeted (self : Name) :
    World State × Ledger → Ctx × Input Action → Except Abort (World State × Ledger) :=
  Transition.recording (contract self).step fun g w i w' => g.after w i.2 w'

/-- The rule of a plan for a token. -/
def State.rule (s : State) (planId : ℕ) (x : ExtendedSymbol) : Option ClaimConf :=
  (s.plans.find? planId).bind fun plan => plan.claims.find? (claimKey x)

/-- What is available of a rule is the part of its budget that claims have not paid out. -/
structure RuleBudget (g : Ledger) (planId : ℕ) (x : ExtendedSymbol) (c : ClaimConf) : Prop where
  total : g.paid planId x + c.available.amount = g.allocated planId x
  low : 0 ≤ c.available.amount
  high : c.available.amount ≤ g.allocated planId x

/-- The input is about the rule: it writes it, removes it or its plan, or claims on the plan. -/
def Touches (planId : ℕ) (x : ExtendedSymbol) : Input Action → Prop
  | .act (.setclaim q symb _ _) => q = planId ∧ symb = x
  | .act (.delclaim q symb) => q = planId ∧ symb = x
  | .act (.delplan q) => q = planId
  | .act (.claim q _ _) => q = planId
  | _ => False

/-! ## One move -/

section Moves
variable {ctx : Ctx} {s s' : State} {i : Input Action} {outs : List Transfer} {g : Ledger}
  {planId : ℕ} {x : ExtendedSymbol} {plan plan' : Plan} {c c' : ClaimConf} {w w' : World State}

theorem rule_of_find (hplan : s.plans.find? planId = some plan) :
    s.rule planId x = plan.claims.find? (claimKey x) := by
  unfold State.rule
  rw [hplan]
  rfl

/-- Storing a plan changes the rules of that plan only. -/
theorem rule_put (hplans : s'.plans = s.plans.put plan) :
    s'.rule planId x
      = if planId = plan.id then plan.claims.find? (claimKey x) else s.rule planId x := by
  unfold State.rule
  rw [hplans, Table.find?_put]
  by_cases hid : planId = plan.id
  · rw [if_pos hid, if_pos hid]
    rfl
  · rw [if_neg hid, if_neg hid]

/-- A plan that is stored with the rule it had keeps the rule. -/
theorem rule_put_same (plan' : Plan) (hplan : s.plans.find? planId = some plan) (hid : plan'.id = plan.id)
    (hplans : s'.plans = s.plans.put plan')
    (hrule : plan'.claims.find? (claimKey x) = plan.claims.find? (claimKey x)) :
    s'.rule planId x = s.rule planId x := by
  have hkey : planId = plan'.id := (hid.trans (Table.find?_eq_some.mp hplan).2).symm
  rw [rule_put hplans, if_pos hkey, hrule, rule_of_find hplan]

/-- A plan that is stored under another id keeps the rule. -/
theorem rule_put_other (plan' : Plan) (hplan : s.plans.find? planId = some plan) (hid : plan'.id = plan.id)
    (hplans : s'.plans = s.plans.put plan') {q : ℕ} (hq : q ≠ planId) :
    s'.rule q x = s.rule q x := by
  have hkey : plan'.id = planId := hid.trans (Table.find?_eq_some.mp hplan).2
  rw [rule_put hplans, hkey, if_neg hq]

/-- Inputs that are not about a rule leave it alone. -/
theorem rule_of_move (hm : Move ctx s i s' outs) (htouch : ¬ Touches planId x i) :
    s'.rule planId x = s.rule planId x := by
  cases hm with
  | receive n => rfl
  | configure a ha s' hplans =>
    unfold State.rule
    rw [hplans]
  | addplan title startedAt endedAt plan s' hnew hclaims hplans =>
    rw [rule_put hplans]
    by_cases hid : planId = plan.id
    -- a new plan has no rules, and there was none with its id
    · rw [if_pos hid, hclaims]
      unfold State.rule
      rw [hid, hnew]
      rfl
    · rw [if_neg hid]
  | setclaim q symb singleClaim allocated plan c hplan hsymb hsingle havailable =>
    by_cases hq : planId = q
    · subst hq
      apply rule_put_same { plan with claims := plan.claims.put c } hplan rfl rfl
      show (plan.claims.put c).find? (claimKey x) = _
      rw [Table.find?_put, if_neg]
      intro hkey
      exact htouch ⟨rfl, (claimKey_inj.mp (hkey.trans (congrArg claimKey hsymb))).symm⟩
    · exact rule_put_other { plan with claims := plan.claims.put c } hplan rfl rfl hq
  | delclaim q symb plan hplan =>
    by_cases hq : planId = q
    · subst hq
      apply rule_put_same { plan with claims := plan.claims.erase (claimKey symb) } hplan rfl rfl
      show (plan.claims.erase (claimKey symb)).find? (claimKey x) = _
      rw [Table.find?_erase, if_neg]
      intro hkey
      exact htouch ⟨rfl, (claimKey_inj.mp hkey).symm⟩
    · exact rule_put_other { plan with claims := plan.claims.erase (claimKey symb) } hplan rfl rfl hq
  | setplan q title startedAt endedAt plan plan' hplan hid hclaims =>
    by_cases hq : planId = q
    · subst hq
      apply rule_put_same plan' hplan hid rfl
      rw [hclaims]
    · exact rule_put_other plan' hplan hid rfl hq
  | delplan q =>
    have hq : planId ≠ q := fun hq => htouch hq.symm
    show ((s.plans.erase q).find? planId).bind _ = _
    rw [Table.find?_erase, if_neg hq]
    rfl
  | claim q claimer beneficiary plan plan' outs hallowed hclaimed =>
    have hq : planId ≠ q := fun hq => htouch hq.symm
    exact rule_put_other plan' hallowed.found hclaimed.id rfl hq

/-- Inputs that are not about a rule leave its part of the ledger alone. -/
theorem ledger_of_not_touches (htouch : ¬ Touches planId x i) :
    (g.after w i w').allocated planId x = g.allocated planId x ∧
      (g.after w i w').paid planId x = g.paid planId x := by
  rcases i with n | a
  · exact ⟨rfl, rfl⟩
  · cases a with
    | setclaim q symb singleClaim allocated =>
      have hrule : ¬ (planId = q ∧ x = symb) := fun h => htouch ⟨h.1.symm, h.2.symm⟩
      exact ⟨if_neg hrule, if_neg hrule⟩
    | claim q claimer beneficiary =>
      have hq : planId ≠ q := fun hq => htouch hq.symm
      exact ⟨rfl, if_neg hq⟩
    | init | addoracle | deloracle | addtoken | deltoken | addplan | delclaim | setplan
      | delplan => exact ⟨rfl, rfl⟩

/-- A rule after a claim is a rule from before that has paid its part. -/
theorem Claimed.rule {beneficiary : Name} (h : Claimed planId beneficiary plan plan' outs)
    {k : ℕ ×ₗ ℕ} (hc' : plan'.claims.find? k = some c') :
    ∃ c, plan.claims.find? k = some c ∧ c.pay = .ok c' := by
  cases hc : plan.claims.find? k with
  | none =>
    rw [h.others k hc] at hc'
    cases hc'
  | some c =>
    obtain ⟨hmem, rfl⟩ := Table.find?_eq_some.mp hc
    obtain ⟨c₁, hpay, hfound⟩ := h.paid c hmem
    rw [hc', Option.some.injEq] at hfound
    rw [hfound]
    exact ⟨c, rfl, hpay⟩

/-- A rule pays at most a single claim. -/
theorem claimQuant_le_single (c : ClaimConf) : c.claimQuant.amount ≤ c.singleClaim.amount := by
  by_cases h : c.Funded
  · rw [claimQuant_of_funded h]
  · rw [claimQuant_of_not_funded h]
    exact (not_le.mp h).le

/-- In a claim the account loses of a rule's token what the rule pays. -/
theorem Claimed.holding {beneficiary : Name} (h : Claimed planId beneficiary plan plan' outs)
    (hc : plan.claims.find? (claimKey x) = some c)
    (hflow : w'.holding x = w.holding x - ToolkitContracts.outflow x outs) :
    w.holding x - w'.holding x = c.claimQuant.amount := by
  obtain ⟨hmem, hkey⟩ := Table.find?_eq_some.mp hc
  have hsymb : c.symb = x := claimKey_inj.mp hkey
  rw [hflow, ← hsymb, h.outflow hmem]
  omega

/-- The rule that `setclaim` writes has all of its budget left. -/
theorem budget_of_setclaim {singleClaim allocated : Asset}
    (hplan : s.plans.find? planId = some plan) (hsymb : c.symb = x)
    (havailable : c.available = allocated)
    (hplans : s'.plans = s.plans.put { plan with claims := plan.claims.put c })
    (hrule : s'.rule planId x = some c') :
    RuleBudget (g.after w (.act (.setclaim planId x singleClaim allocated)) w') planId x c' := by
  have hid : planId = plan.id := (Table.find?_eq_some.mp hplan).2.symm
  have hkey : claimKey x = c.key := congrArg claimKey hsymb.symm
  rw [rule_put hplans, if_pos hid] at hrule
  have hstored : (plan.claims.put c).find? (claimKey x) = some c' := hrule
  rw [Table.find?_put, if_pos hkey, Option.some.injEq] at hstored
  have hallocated : (g.after w (.act (.setclaim planId x singleClaim allocated)) w').allocated planId x
      = allocated.amount := if_pos ⟨rfl, rfl⟩
  have hpaid : (g.after w (.act (.setclaim planId x singleClaim allocated)) w').paid planId x = 0 :=
    if_pos ⟨rfl, rfl⟩
  rw [← hstored]
  constructor
  · rw [hallocated, hpaid, havailable, zero_add]
  · exact c.available_nonneg
  · rw [hallocated, havailable]

/-- What a claim pays out of a rule is missing from the rule afterwards. -/
theorem budget_of_claim {claimer beneficiary : Name} (hplan : s.plans.find? planId = some plan)
    (hclaimed : Claimed planId beneficiary plan plan' outs) (hplans : s'.plans = s.plans.put plan')
    (hbudget : ∀ c, s.rule planId x = some c → RuleBudget g planId x c)
    (hflow : w'.holding x = w.holding x - ToolkitContracts.outflow x outs)
    (hrule : s'.rule planId x = some c') :
    RuleBudget (g.after w (.act (.claim planId claimer beneficiary)) w') planId x c' := by
  have hid : planId = plan'.id := (hclaimed.id.trans (Table.find?_eq_some.mp hplan).2).symm
  rw [rule_put hplans, if_pos hid] at hrule
  obtain ⟨c, hc, hpay⟩ := hclaimed.rule hrule
  obtain ⟨htotal, -, hhigh⟩ := hbudget c ((rule_of_find hplan).trans hc)
  have hamount := (pay_spec hpay).2.2
  have hpart := hclaimed.holding hc hflow
  have hnonneg := c.claimQuant_nonneg
  have hpaid : (g.after w (.act (.claim planId claimer beneficiary)) w').paid planId x
      = g.paid planId x + (w.holding x - w'.holding x) := if_pos rfl
  have hallocated : (g.after w (.act (.claim planId claimer beneficiary)) w').allocated planId x
      = g.allocated planId x := rfl
  constructor
  · rw [hpaid, hallocated, hpart, hamount]
    omega
  · exact c'.available_nonneg
  · rw [hallocated, hamount]
    omega

/-- Every move keeps the budgets. -/
theorem budget_of_move (hm : Move ctx s i s' outs)
    (hbudget : ∀ c, s.rule planId x = some c → RuleBudget g planId x c)
    (hflow : ∀ a, i = .act a → w'.holding x = w.holding x - outflow x outs)
    (hrule : s'.rule planId x = some c') : RuleBudget (g.after w i w') planId x c' := by
  by_cases htouch : Touches planId x i
  · cases hm with
    | receive | addplan | setplan => exact absurd htouch id
    | configure a ha =>
      cases a with
      | setclaim | delclaim | delplan | claim => exact absurd ha id
      | init | addoracle | deloracle | addtoken | deltoken | addplan | setplan =>
        exact absurd htouch id
    | setclaim q symb singleClaim allocated plan c hplan hsymb hsingle havailable =>
      obtain ⟨rfl, rfl⟩ := htouch
      exact budget_of_setclaim hplan hsymb havailable rfl hrule
    | delclaim q symb plan hplan =>
      obtain ⟨rfl, rfl⟩ := htouch
      have hid : q = plan.id := (Table.find?_eq_some.mp hplan).2.symm
      -- there is no rule left to speak about
      rw [rule_put rfl, if_pos hid] at hrule
      have hgone : (plan.claims.erase (claimKey symb)).find? (claimKey symb) = some c' := hrule
      rw [Table.find?_erase, if_pos rfl] at hgone
      cases hgone
    | delplan q =>
      have hq : q = planId := htouch
      have hgone : ((s.plans.erase q).find? planId).bind
          (fun plan => plan.claims.find? (claimKey x)) = some c' := hrule
      rw [Table.find?_erase, if_pos hq.symm] at hgone
      cases hgone
    | claim q claimer beneficiary plan plan' outs hallowed hclaimed =>
      have hq : q = planId := htouch
      subst hq
      exact budget_of_claim hallowed.found hclaimed rfl hbudget (hflow _ rfl) hrule
  · rw [rule_of_move hm htouch] at hrule
    obtain ⟨htotal, hlow, hhigh⟩ := hbudget c' hrule
    have hledger : (g.after w i w').allocated planId x = g.allocated planId x ∧
        (g.after w i w').paid planId x = g.paid planId x := ledger_of_not_touches htouch
    obtain ⟨hallocated, hpaid⟩ := hledger
    constructor
    · rw [hallocated, hpaid]
      exact htotal
    · exact hlow
    · rw [hallocated]
      exact hhigh

end Moves

/-! ## Whole runs -/

section Runs
variable {self : Name} {p p' : World State × Ledger} {i : Ctx × Input Action}
  {is : List (Ctx × Input Action)} {clock : TimePoint} {g : Ledger}

/-- A claim pays out of each rule of its plan at most the amount of a single claim, in the token
of the rule. -/
theorem paid_le_single {ctx : Ctx} {planId : ℕ} {claimer beneficiary : Name} {x : ExtendedSymbol}
    {c : ClaimConf}
    (hs : stepBudgeted self p (ctx, .act (.claim planId claimer beneficiary)) = .ok p')
    (hc : p.1.state.rule planId x = some c) :
    0 ≤ p.1.holding x - p'.1.holding x ∧
      p.1.holding x - p'.1.holding x ≤ c.singleClaim.amount := by
  obtain ⟨hstep, -⟩ := Transition.recording_eq_ok.mp hs
  obtain ⟨-, -, -, outs, hcode, hsettle⟩ := ((contract self).step_eq_ok).mp hstep
  have hexec : exec self ctx (.claim planId claimer beneficiary) p.1.state
      = .ok (p'.1.state, outs) := hcode
  obtain ⟨plan, plan', hallowed, hclaimed, -⟩ := claimed_of_claim hexec
  rw [rule_of_find hallowed.found] at hc
  rw [hclaimed.holding hc (settle_apply hsettle x)]
  exact ⟨c.claimQuant_nonneg, claimQuant_le_single c⟩

/-- In every run, what claims have paid out of a rule since the last `setclaim` that wrote it
and what is available of it add up to what was allocated, and the available part lies between
zero and that. A claim pays at most a single claim out of each rule, and inputs that are not
about the rule change neither the rule nor its part of the ledger. -/
theorem budgets_kept
    (hrun : Transition.Run (stepBudgeted self) Transition.Unrestricted (genesis clock, g) is p) :
    (∀ planId x c, p.1.state.rule planId x = some c → RuleBudget p.2 planId x c) ∧
    (∀ ctx planId claimer beneficiary p',
      stepBudgeted self p (ctx, .act (.claim planId claimer beneficiary)) = .ok p' →
      ∀ x c, p.1.state.rule planId x = some c →
        0 ≤ p.1.holding x - p'.1.holding x ∧
          p.1.holding x - p'.1.holding x ≤ c.singleClaim.amount) ∧
    ∀ i p', stepBudgeted self p i = .ok p' → ∀ planId x, ¬ Touches planId x i.2 →
      p'.1.state.rule planId x = p.1.state.rule planId x ∧
      p'.2.allocated planId x = p.2.allocated planId x ∧
      p'.2.paid planId x = p.2.paid planId x := by
  refine ⟨?_, fun ctx planId claimer beneficiary p' hs x c hc => paid_le_single hs hc, ?_⟩
  · apply hrun.invariant (P := fun p =>
      ∀ planId x c, p.1.state.rule planId x = some c → RuleBudget p.2 planId x c)
    · intro p i p' ih _ hs planId x c hrule
      obtain ⟨hstep, hrecord⟩ := Transition.recording_eq_ok.mp hs
      obtain ⟨-, -, -, outs, hcode, hsettle⟩ := ((contract self).step_eq_ok).mp hstep
      rw [hrecord]
      apply budget_of_move (move_of_run hcode) (ih planId x) _ hrule
      intro a ha
      have hflow := settle_apply hsettle x
      rw [ha, Contract.received_act] at hflow
      exact hflow
    · intro planId x c hrule
      cases hrule
  · intro i p' hs planId x htouch
    obtain ⟨hstep, hrecord⟩ := Transition.recording_eq_ok.mp hs
    obtain ⟨outs, hcode⟩ := (contract self).run_of_step hstep
    rw [hrecord]
    exact ⟨rule_of_move (move_of_run hcode) htouch, ledger_of_not_touches htouch⟩

end Runs

/-! ## Two claims out of a budget -/

namespace Sample

/-- Nothing was allocated or paid. -/
def emptyLedger : World State × Ledger := (genesis (.ofDays 100), ⟨fun _ _ => 0, fun _ _ => 0⟩)

/-- Two claims pay 8 of 8 SING, the second one only 3. -/
theorem budgets_kept_sample :
    ∃ p, Transition.Run (stepBudgeted account) Transition.Unrestricted emptyLedger
        (setup ++ rules ++ [claimFor alice, claimFor bob]) p ∧
      p.2.paid 1 sing = 8 ∧
      ∀ planId x c, p.1.state.rule planId x = some c → RuleBudget p.2 planId x c := by
  have hreach : Transition.Reaches (stepBudgeted account) Transition.Unrestricted
      (fun p => p.2.paid 1 sing = 8) (setup ++ rules ++ [claimFor alice, claimFor bob])
      emptyLedger := by decide
  obtain ⟨p, hrun, hpaid⟩ := Transition.run_of_reaches hreach
  exact ⟨p, hrun, hpaid, (budgets_kept hrun).1⟩

end Sample

end Airdrop
end ToolkitContracts
