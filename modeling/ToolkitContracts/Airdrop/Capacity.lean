import ToolkitContracts.Airdrop.Budget
import ToolkitContracts.Chain.Payments

/-!
# How long a plan pays

As long as nobody rewrites the rules of a plan, the number of claims on it says all about them: each
rule has paid a single claim for each of them, or all that it had. The first rule with nothing left
stops the plan, whatever the other rules have left.
-/

namespace ToolkitContracts
namespace Airdrop

/-- The input does not write or remove a rule of the plan, nor the plan. -/
def KeepsRules (planId : ℕ) : Input Action → Prop
  | .act (.setclaim q _ _ _) => q ≠ planId
  | .act (.delclaim q _) => q ≠ planId
  | .act (.delplan q) => q ≠ planId
  | _ => True

/-- The input is a claim on the plan. -/
def isClaim (planId : ℕ) : Input Action → Bool
  | .act (.claim q _ _) => decide (q = planId)
  | _ => false

/-- The number of claims on the plan. -/
def claimsOn (planId : ℕ) (is : List (Ctx × Input Action)) : ℕ :=
  is.countP fun i => isClaim planId i.2

/-- What `n` claims take out of a rule. -/
def ClaimConf.spent (c : ClaimConf) (n : ℕ) : ℤ :=
  min c.available.amount (n * c.singleClaim.amount)

/-- The plan has rules, and each of them has something left after `n` claims. -/
def Plan.Affords (plan : Plan) (n : ℕ) : Prop :=
  plan.claims.rows ≠ [] ∧ ∀ c ∈ plan.claims, n * c.singleClaim.amount < c.available.amount

/-- `c'` is the rule `c` after `n` claims. -/
structure ClaimConf.Spent (n : ℕ) (c c' : ClaimConf) : Prop where
  symb : c'.symb = c.symb
  single : c'.singleClaim = c.singleClaim
  available : c'.available.amount = c.available.amount - c.spent n

/-- `plan'` has the rules of `plan` after `n` claims. -/
structure Spent (n : ℕ) (plan plan' : Plan) : Prop where
  rules : ∀ c ∈ plan.claims, ∃ c', plan'.claims.find? c.key = some c' ∧ c.Spent n c'
  others : ∀ k, plan.claims.find? k = none → plan'.claims.find? k = none

instance (planId : ℕ) (i : Input Action) : Decidable (KeepsRules planId i) := by
  rcases i with n | a
  · exact inferInstanceAs (Decidable True)
  · rcases a with _ | _ | _ | _ | _ | _ | _ | _ | _ | _ | _ <;> dsimp only [KeepsRules] <;>
      infer_instance

/-! ## One claim more -/

section Rules
variable {c c' c'' : ClaimConf} {n planId : ℕ} {plan plan' plan'' : Plan} {beneficiary : Name}
  {outs : List Transfer}

theorem amount_claimQuant (c : ClaimConf) :
    c.claimQuant.amount = min c.singleClaim.amount c.available.amount := by
  by_cases h : c.Funded
  · rw [claimQuant_of_funded h, min_eq_left h]
  · rw [claimQuant_of_not_funded h, min_eq_right (not_le.mp h).le]

theorem spent_zero (c : ClaimConf) : c.spent 0 = 0 := by
  have hnonneg := c.available_nonneg
  unfold ClaimConf.spent
  rw [Nat.cast_zero, zero_mul, min_eq_right hnonneg]

/-- The next claim pays what the rule after `n` claims has for one. -/
theorem ClaimConf.Spent.quant (h : c.Spent n c') :
    c'.claimQuant.amount = c.spent (n + 1) - c.spent n := by
  have hsingle := c.single_pos
  have havailable := h.available
  rw [amount_claimQuant, h.single]
  unfold ClaimConf.spent at havailable ⊢
  rw [Nat.cast_add, Nat.cast_one, add_mul, one_mul]
  generalize (n : ℤ) * c.singleClaim.amount = m at *
  omega

/-- The next claim takes something out of the rule as long as something is left. -/
theorem spent_lt_iff (c : ClaimConf) (n : ℕ) :
    0 < c.spent (n + 1) - c.spent n ↔ n * c.singleClaim.amount < c.available.amount := by
  have hsingle := c.single_pos
  unfold ClaimConf.spent
  rw [Nat.cast_add, Nat.cast_one, add_mul, one_mul]
  generalize (n : ℤ) * c.singleClaim.amount = m at *
  omega

theorem ClaimConf.Spent.pay (h : c.Spent n c') (hpay : c'.pay = .ok c'') : c.Spent (n + 1) c'' := by
  obtain ⟨hsymb, hsingle, havailable⟩ := pay_spec hpay
  refine ⟨hsymb.trans h.symb, hsingle.trans h.single, ?_⟩
  rw [havailable, h.quant, h.available]
  omega

theorem Spent.refl (plan : Plan) : Spent 0 plan plan := by
  refine ⟨fun c hc => ⟨c, Table.find?_self hc, rfl, rfl, ?_⟩, fun k hk => hk⟩
  rw [spent_zero, sub_zero]

/-- A plan with the same rules. -/
theorem Spent.same (h : Spent n plan plan') (hclaims : plan''.claims = plan'.claims) :
    Spent n plan plan'' := by
  refine ⟨?_, ?_⟩
  · rw [hclaims]
    exact h.rules
  · rw [hclaims]
    exact h.others

theorem Spent.claimed (h : Spent n plan plan') (hc : Claimed planId beneficiary plan' plan'' outs) :
    Spent (n + 1) plan plan'' := by
  refine ⟨fun c hmem => ?_, fun k hk => hc.others k (h.others k hk)⟩
  obtain ⟨c', hfound, hspent⟩ := h.rules c hmem
  obtain ⟨hmem', hkey⟩ := Table.find?_eq_some.mp hfound
  obtain ⟨c'', hpay, hfound'⟩ := hc.paid c' hmem'
  rw [hkey] at hfound'
  exact ⟨c'', hfound', hspent.pay hpay⟩

/-- A rule of the later plan is a rule of the earlier one. -/
theorem Spent.rule (h : Spent n plan plan') (hc' : c' ∈ plan'.claims) :
    ∃ c ∈ plan.claims, c.Spent n c' := by
  have hself := Table.find?_self hc'
  cases hc : plan.claims.find? c'.key with
  | none =>
    rw [h.others _ hc] at hself
    cases hself
  | some c =>
    obtain ⟨hmem, hkey⟩ := Table.find?_eq_some.mp hc
    obtain ⟨c₁, hfound, hspent⟩ := h.rules c hmem
    rw [hkey, hself, Option.some.injEq] at hfound
    subst hfound
    exact ⟨c, hmem, hspent⟩

/-- What is true of every rule now is true of what the claims made of every rule. -/
theorem Spent.forall_iff (h : Spent n plan plan') {P : ExtendedSymbol → ℤ → ℤ → Prop} :
    (∀ c' ∈ plan'.claims, P c'.symb c'.available.amount c'.claimQuant.amount) ↔
      ∀ c ∈ plan.claims, P c.symb (c.available.amount - c.spent n) (c.spent (n + 1) - c.spent n) := by
  constructor
  · intro hall c hc
    obtain ⟨c', hfound, hspent⟩ := h.rules c hc
    rw [← hspent.symb, ← hspent.available, ← hspent.quant]
    exact hall c' (Table.find?_eq_some.mp hfound).1
  · intro hall c' hc'
    obtain ⟨c, hc, hspent⟩ := h.rule hc'
    rw [hspent.symb, hspent.available, hspent.quant]
    exact hall c hc

theorem Spent.rules_ne_nil_iff (h : Spent n plan plan') :
    plan'.claims.rows ≠ [] ↔ plan.claims.rows ≠ [] := by
  constructor
  · intro hne
    obtain ⟨c', hc'⟩ := List.exists_mem_of_ne_nil _ hne
    obtain ⟨c, hc, -⟩ := h.rule hc'
    exact List.ne_nil_of_mem hc
  · intro hne
    obtain ⟨c, hc⟩ := List.exists_mem_of_ne_nil _ hne
    obtain ⟨c', hfound, -⟩ := h.rules c hc
    exact List.ne_nil_of_mem (Table.find?_eq_some.mp hfound).1

theorem Spent.affords_iff (h : Spent n plan plan') :
    (plan'.claims.rows ≠ [] ∧ ∀ c' ∈ plan'.claims, 0 < c'.claimQuant.amount) ↔ plan.Affords n := by
  have hpos := h.forall_iff (P := fun _ _ quant => 0 < quant)
  rw [h.rules_ne_nil_iff, hpos]
  exact and_congr Iff.rfl (forall₂_congr fun c _ => spent_lt_iff c n)

end Rules

/-! ## One transaction -/

section Steps
variable {self : Name} {ctx : Ctx} {s s' : State} {i : Input Action} {outs : List Transfer}
  {n planId : ℕ} {claimer beneficiary : Name} {plan plan' : Plan} {g : Ledger}
  {w w' : World State}

/-- A plan that is stored under its own id. -/
theorem find?_put_plan (hplan : s.plans.find? planId = some plan) (hid : plan'.id = plan.id) :
    (s.plans.put plan').find? planId = some plan' := by
  rw [Table.find?_put, if_pos]
  exact (hid.trans (Table.find?_eq_some.mp hplan).2).symm

/-- Where the rules are kept, anything but a claim leaves them as they are. -/
theorem claims_of_move (hm : Move ctx s i s' outs) (hkeeps : KeepsRules planId i)
    (hother : isClaim planId i = false) (hplan : s.plans.find? planId = some plan) :
    ∃ plan', s'.plans.find? planId = some plan' ∧ plan'.claims = plan.claims := by
  -- a plan stored under another id
  have hput : ∀ {q : ℕ} {p p' : Plan}, q ≠ planId → s.plans.find? q = some p → p'.id = p.id →
      (s.plans.put p').find? planId = some plan := by
    intro q p p' hne hp hid
    have hkey : p'.id = q := hid.trans (Table.find?_eq_some.mp hp).2
    rw [Table.find?_put, hkey, if_neg fun h => hne h.symm]
    exact hplan
  cases hm with
  | receive m => exact ⟨plan, hplan, rfl⟩
  | configure a ha s' hplans => exact ⟨plan, hplans ▸ hplan, rfl⟩
  | addplan title startedAt endedAt p s' hnew hclaims hplans =>
    refine ⟨plan, ?_, rfl⟩
    have hne : planId ≠ p.id := by
      intro h
      rw [h, hnew] at hplan
      cases hplan
    rw [hplans, Table.find?_put, if_neg hne]
    exact hplan
  | setclaim q symb singleClaim allocated p c hp => exact ⟨plan, hput hkeeps hp rfl, rfl⟩
  | delclaim q symb p hp => exact ⟨plan, hput hkeeps hp rfl, rfl⟩
  | setplan q title startedAt endedAt p p' hp hid hclaims =>
    by_cases hq : q = planId
    · subst hq
      obtain rfl : p = plan := Option.some.inj (hp.symm.trans hplan)
      exact ⟨p', find?_put_plan hp hid, hclaims⟩
    · exact ⟨plan, hput hq hp hid, rfl⟩
  | delplan q =>
    refine ⟨plan, ?_, rfl⟩
    have hq : planId ≠ q := fun h => hkeeps h.symm
    show (s.plans.erase q).find? planId = _
    rw [Table.find?_erase, if_neg hq]
    exact hplan
  | claim q claimer beneficiary p p' outs hallowed hclaimed =>
    have hq : q ≠ planId := of_decide_eq_false hother
    exact ⟨plan, hput hq hallowed.found hclaimed.id, rfl⟩

/-- Nor does it change what the plan has paid. -/
theorem paid_of_other (hkeeps : KeepsRules planId i) (hother : isClaim planId i = false)
    (x : ExtendedSymbol) : (g.after w i w').paid planId x = g.paid planId x := by
  rcases i with m | a
  · rfl
  · cases a with
    | setclaim q symb singleClaim allocated =>
      have hq : ¬ (planId = q ∧ x = symb) := fun h => hkeeps h.1.symm
      exact if_neg hq
    | claim q claimer beneficiary =>
      have hq : planId ≠ q := fun h => of_decide_eq_false hother h.symm
      exact if_neg hq
    | init | addoracle | deloracle | addtoken | deltoken | addplan | delclaim | setplan
      | delplan => rfl

/-- Exactly when the chain accepts the next claim on a plan. -/
theorem step_claim_iff (hplan : w.state.plans.find? planId = some plan') (hspent : Spent n plan plan') :
    (∃ w', (contract self).step w (ctx, .act (.claim planId claimer beneficiary)) = .ok w') ↔
      w.clock ≤ ctx.now ∧ ClaimAllowed ctx w.state planId claimer beneficiary plan' ∧
      beneficiary ≠ self ∧ plan.Affords n ∧
      ∀ c ∈ plan.claims, c.spent (n + 1) - c.spent n ≤ w.holding c.symb ∧
        c.available.amount - c.spent (n + 1) ≤ Asset.maxAmount := by
  -- what the account has to hold, and what the asset arithmetic admits, rule by rule
  have hrule := hspent.forall_iff (P := fun x available quant =>
    quant ≤ w.holding x ∧ available - quant ≤ Asset.maxAmount)
  have hsame : ∀ c : ClaimConf, c.available.amount - c.spent n - (c.spent (n + 1) - c.spent n)
      = c.available.amount - c.spent (n + 1) := fun c => by omega
  simp only [hsame] at hrule
  rw [← hspent.affords_iff, ← hrule]
  have hdistinct : ((plan'.claims.rows.map fun c => c.transfer planId beneficiary).map
      Transfer.token).Nodup := by
    rw [List.map_map]
    have hsymb : ∀ c ∈ plan'.claims.rows,
        (Transfer.token ∘ fun c : ClaimConf => c.transfer planId beneficiary) c = c.symb :=
      fun c _ => token_transfer c _ _
    rw [List.map_congr_left hsymb]
    exact nodup_symbs plan'.claims
  have hsettle : (∃ h', settle self w.holding
      (plan'.claims.rows.map fun c => c.transfer planId beneficiary) = .ok h') ↔ _ :=
    settle_iff_of_distinct hdistinct
  rw [List.forall_mem_map] at hsettle
  constructor
  · rintro ⟨w', hstep⟩
    obtain ⟨hclock, -, -, outs, hcode, hpaid⟩ := ((contract self).step_eq_ok).mp hstep
    have hexec : exec self ctx (.claim planId claimer beneficiary) w.state
        = .ok (w'.state, outs) := hcode
    obtain ⟨plan₁, plan₂, hallowed, hclaimed, -⟩ := claimed_of_claim hexec
    obtain rfl : plan₁ = plan' := Option.some.inj (hallowed.found.symm.trans hplan)
    rw [hclaimed.outs] at hpaid
    have hall := hsettle.mp ⟨_, hpaid⟩
    obtain ⟨c₀, hc₀⟩ := List.exists_mem_of_ne_nil _ hclaimed.rules
    refine ⟨hclock, hallowed, (hall c₀ hc₀).1, ⟨hclaimed.rules, fun c hc => (hall c hc).2.1⟩,
      fun c hc => ⟨?_, ?_⟩⟩
    · rw [← token_transfer c planId beneficiary]
      exact (hall c hc).2.2
    · obtain ⟨c', hpay, -⟩ := hclaimed.paid c hc
      exact pay_iff.mp ⟨c', hpay⟩
  · rintro ⟨hclock, hallowed, hself, ⟨hrules, hpos⟩, hcovered⟩
    have hallows : ∃ e, exec self ctx (.claim planId claimer beneficiary) w.state = .ok e :=
      claim_of_allowed hallowed hrules fun c hc => pay_iff.mpr (hcovered c hc).2
    obtain ⟨⟨s', outs⟩, hexec⟩ := hallows
    obtain ⟨plan₁, plan₂, hallowed₁, hclaimed, -⟩ := claimed_of_claim hexec
    obtain rfl : plan₁ = plan' := Option.some.inj (hallowed₁.found.symm.trans hplan)
    obtain ⟨h', hpaid⟩ := hsettle.mpr fun c hc => by
      refine ⟨hself, hpos c hc, ?_⟩
      rw [token_transfer]
      exact (hcovered c hc).1
    rw [← hclaimed.outs] at hpaid
    exact ⟨⟨s', h', ctx.now⟩, ((contract self).step_eq_ok).mpr
      ⟨hclock, Contract.signer?_act _ _, rfl, outs, hexec, hpaid⟩⟩

end Steps

/-! ## Whole runs -/

section Runs
variable {self : Name} {planId n : ℕ} {plan : Plan} {p p' p'' : World State × Ledger}
  {i : Ctx × Input Action} {is : List (Ctx × Input Action)}

/-- `p'` is what `n` claims on the plan `plan` have led to from `p`. -/
structure PaidFor (planId n : ℕ) (plan : Plan) (p p' : World State × Ledger) : Prop where
  rules : ∃ plan', p'.1.state.plans.find? planId = some plan' ∧ Spent n plan plan'
  afforded : ∀ m < n, plan.Affords m
  paid : ∀ c ∈ plan.claims, p'.2.paid planId c.symb = p.2.paid planId c.symb + c.spent n

theorem paidFor_of_claim {claimer beneficiary : Name} {ctx : Ctx} (h : PaidFor planId n plan p p')
    (hs : stepBudgeted self p' (ctx, .act (.claim planId claimer beneficiary)) = .ok p'') :
    PaidFor planId (n + 1) plan p p'' := by
  obtain ⟨⟨plan', hplan', hspent⟩, hafforded, hpaid⟩ := h
  obtain ⟨hstep, hrecord⟩ := Transition.recording_eq_ok.mp hs
  obtain ⟨-, -, hself, haffords, -⟩ := (step_claim_iff hplan' hspent).mp ⟨_, hstep⟩
  obtain ⟨-, -, -, outs, hcode, hsettle⟩ := ((contract self).step_eq_ok).mp hstep
  have hexec : exec self ctx (.claim planId claimer beneficiary) p'.1.state
      = .ok (p''.1.state, outs) := hcode
  obtain ⟨plan₁, plan₂, hallowed, hclaimed, hstate⟩ := claimed_of_claim hexec
  obtain rfl : plan₁ = plan' := Option.some.inj (hallowed.found.symm.trans hplan')
  refine ⟨⟨plan₂, ?_, hspent.claimed hclaimed⟩, fun m hm => ?_, fun c hc => ?_⟩
  · rw [hstate]
    exact find?_put_plan hplan' hclaimed.id
  · rcases Nat.lt_succ_iff_lt_or_eq.mp hm with hlt | rfl
    · exact hafforded m hlt
    · exact haffords
  · obtain ⟨c', hfound, hspent'⟩ := hspent.rules c hc
    have hpart := hclaimed.holding (x := c.symb) hfound (settle_apply hsettle c.symb)
    rw [hspent'.quant] at hpart
    have hledger : p''.2.paid planId c.symb
        = p'.2.paid planId c.symb + (p'.1.holding c.symb - p''.1.holding c.symb) := by
      rw [hrecord]
      exact if_pos rfl
    rw [hledger, hpart, hpaid c hc]
    omega

theorem paidFor_of_other (h : PaidFor planId n plan p p') (hkeeps : KeepsRules planId i.2)
    (hother : isClaim planId i.2 = false) (hs : stepBudgeted self p' i = .ok p'') :
    PaidFor planId n plan p p'' := by
  obtain ⟨⟨plan', hplan', hspent⟩, hafforded, hpaid⟩ := h
  obtain ⟨hstep, hrecord⟩ := Transition.recording_eq_ok.mp hs
  obtain ⟨outs, hcode⟩ := (contract self).run_of_step hstep
  obtain ⟨plan'', hplan'', hclaims⟩ := claims_of_move (move_of_run hcode) hkeeps hother hplan'
  refine ⟨⟨plan'', hplan'', hspent.same hclaims⟩, hafforded, fun c hc => ?_⟩
  rw [hrecord, paid_of_other hkeeps hother]
  exact hpaid c hc

theorem paidFor_of_run
    (hrun : Transition.Run (stepBudgeted self) (fun _ i => KeepsRules planId i.2) p is p')
    (hplan : p.1.state.plans.find? planId = some plan) :
    PaidFor planId (claimsOn planId is) plan p p' := by
  refine hrun.invariant_inputs (P := fun is p' => PaidFor planId (claimsOn planId is) plan p p') ?_ ?_
  · intro is p' i p'' ih hkeeps hs
    unfold claimsOn
    rw [List.countP_append, List.countP_singleton]
    cases hclaim : isClaim planId i.2 with
    | false =>
      rw [if_neg Bool.false_ne_true]
      exact paidFor_of_other ih hkeeps hclaim hs
    | true =>
      rw [if_pos rfl]
      obtain ⟨ctx, m | a⟩ := i
      · cases hclaim
      · cases a with
        | claim q claimer beneficiary =>
          have hq : q = planId := of_decide_eq_true hclaim
          subst hq
          exact paidFor_of_claim ih hs
        | init | addoracle | deloracle | addtoken | deltoken | addplan | setclaim | delclaim
          | setplan | delplan => cases hclaim
  · refine ⟨⟨plan, hplan, Spent.refl plan⟩, fun m hm => absurd hm (Nat.not_lt_zero m), fun c hc => ?_⟩
    show _ = _ + c.spent 0
    rw [spent_zero, add_zero]

/-- In every run in which the rules of a plan are neither rewritten nor removed, whatever else
happens in it, and `n` being the number of claims on the plan: each rule has paid `n` single claims,
or all that it had, and each claim found something left in every rule. The next claim goes through
exactly when an oracle makes it within the window of the plan, for another account, every rule has
something left after `n` single claims, and the account holds what each of them pays. -/
theorem claims_of_run
    (hrun : Transition.Run (stepBudgeted self) (fun _ i => KeepsRules planId i.2) p is p')
    (hplan : p.1.state.plans.find? planId = some plan) :
    ∃ plan', p'.1.state.plans.find? planId = some plan' ∧ Spent (claimsOn planId is) plan plan' ∧
      (∀ m < claimsOn planId is, plan.Affords m) ∧
      (∀ c ∈ plan.claims, p'.2.paid planId c.symb
        = p.2.paid planId c.symb + c.spent (claimsOn planId is)) ∧
      ∀ ctx claimer beneficiary,
        (∃ p'', stepBudgeted self p' (ctx, .act (.claim planId claimer beneficiary)) = .ok p'') ↔
          p'.1.clock ≤ ctx.now ∧ ClaimAllowed ctx p'.1.state planId claimer beneficiary plan' ∧
          beneficiary ≠ self ∧ plan.Affords (claimsOn planId is) ∧
          ∀ c ∈ plan.claims,
            c.spent (claimsOn planId is + 1) - c.spent (claimsOn planId is)
              ≤ p'.1.holding c.symb ∧
            c.available.amount - c.spent (claimsOn planId is + 1) ≤ Asset.maxAmount := by
  obtain ⟨⟨plan', hplan', hspent⟩, hafforded, hpaid⟩ := paidFor_of_run hrun hplan
  refine ⟨plan', hplan', hspent, hafforded, hpaid, fun ctx claimer beneficiary => ?_⟩
  have hiff : (∃ w', (contract self).step p'.1 (ctx, .act (.claim planId claimer beneficiary))
      = .ok w') ↔ _ := step_claim_iff hplan' hspent
  rw [← hiff]
  constructor
  · rintro ⟨p'', hs⟩
    exact ⟨p''.1, (Transition.recording_eq_ok.mp hs).1⟩
  · rintro ⟨w', hstep⟩
    exact ⟨(w', p'.2.after p'.1 (.act (.claim planId claimer beneficiary)) w'),
      Transition.recording_eq_ok.mpr ⟨hstep, rfl⟩⟩

end Runs

/-! ## A plan that its smaller rule stops -/

namespace Sample

/-- Two claims use the SING up. The plan pays nobody else, although 80 FLON are left in it. -/
theorem claims_of_run_sample :
    ∃ p p', Transition.Run (stepBudgeted account) Transition.Unrestricted emptyLedger
        (setup ++ rules) p ∧
      Transition.Run (stepBudgeted account) (fun _ i => KeepsRules 1 i.2) p
        [claimFor alice, claimFor bob] p' ∧
      p'.2.paid 1 flon = 20 ∧ p'.2.paid 1 sing = 8 ∧
      ∀ ctx claimer beneficiary p'',
        stepBudgeted account p' (ctx, .act (.claim 1 claimer beneficiary)) ≠ .ok p'' := by
  have hreach : Transition.Reaches (stepBudgeted account) Transition.Unrestricted
      (fun p => p.2.paid 1 flon = 0 ∧ p.2.paid 1 sing = 0 ∧ (∃ plan ∈ p.1.state.plans.find? 1,
        ∃ c ∈ plan.claims.find? (claimKey sing), ∃ d ∈ plan.claims.find? (claimKey flon),
          c.symb = sing ∧ c.spent 2 = 8 ∧ ¬ ((2 : ℕ) : ℤ) * c.singleClaim.amount < c.available.amount ∧
          d.symb = flon ∧ d.spent 2 = 20) ∧
        Transition.Reaches (stepBudgeted account) (fun _ i => KeepsRules 1 i.2) (fun _ => True)
          [claimFor alice, claimFor bob] p) (setup ++ rules) emptyLedger := by decide
  obtain ⟨p, hrun, hflon, hsing, ⟨plan, hplan, c, hc, d, hd, hcsymb, hcspent, hempty, hdsymb,
    hdspent⟩, hclaims⟩ := Transition.run_of_reaches hreach
  obtain ⟨p', hrun', -⟩ := Transition.run_of_reaches hclaims
  obtain ⟨plan', -, -, -, hpaid, hnext⟩ := claims_of_run hrun' hplan
  have hcpaid := hpaid c (Table.find?_eq_some.mp hc).1
  have hdpaid := hpaid d (Table.find?_eq_some.mp hd).1
  have hcount : claimsOn 1 [claimFor alice, claimFor bob] = 2 := by decide
  rw [hcount, hcsymb, hsing, hcspent] at hcpaid
  rw [hcount, hdsymb, hflon, hdspent] at hdpaid
  refine ⟨p, p', hrun, hrun', hdpaid, hcpaid, fun ctx claimer beneficiary p'' hs => ?_⟩
  obtain ⟨-, -, -, haffords, -⟩ := (hnext ctx claimer beneficiary).mp ⟨p'', hs⟩
  rw [hcount] at haffords
  exact hempty (haffords.2 c (Table.find?_eq_some.mp hc).1)

end Sample

end Airdrop
end ToolkitContracts
