import ToolkitContracts.Airdrop.Moves

/-!
# What a claim pays

A claim should pay the rules that have enough left for one claim, and leave the others alone.
The code has a comment to that effect, but a rule without enough pays what it has left, and a
rule with nothing left orders a transfer of zero, which the token contract refuses.
-/

namespace ToolkitContracts
namespace Airdrop

/-- The rule has enough left for a claim. -/
def ClaimConf.Funded (c : ClaimConf) : Prop := c.singleClaim.amount ≤ c.available.amount

instance (c : ClaimConf) : Decidable c.Funded := inferInstanceAs (Decidable (_ ≤ _))

/-- The action takes effect: no token contract refuses a transfer as not positive. -/
def Commits (x : Except Abort (Effect State)) (e : Effect State) : Prop :=
  x = .ok e ∧ ∀ t ∈ e.2, 0 < t.quantity.amount

/-- The claim on the plan `plan` with the result `x` takes effect exactly when a rule is
funded. Each funded rule then pays a single claim to the beneficiary and loses it from what is
available, and the other rules pay nothing and stay as they are. -/
structure PaysFunded (planId : ℕ) (beneficiary : Name) (plan : Plan)
    (x : Except Abort (Effect State)) : Prop where
  commits : (∃ e, Commits x e) ↔ ∃ c ∈ plan.claims, c.Funded
  recipient : ∀ e, Commits x e → ∀ t ∈ e.2, t.recipient = beneficiary
  funded : ∀ e, Commits x e → ∀ c ∈ plan.claims, c.Funded →
    outflow c.symb e.2 = c.singleClaim.amount ∧
    ∃ plan' c', e.1.plans.find? planId = some plan' ∧ plan'.claims.find? c.key = some c' ∧
      c'.singleClaim = c.singleClaim ∧
      c'.available.amount = c.available.amount - c.singleClaim.amount
  unfunded : ∀ e, Commits x e → ∀ c ∈ plan.claims, ¬ c.Funded →
    outflow c.symb e.2 = 0 ∧
    ∃ plan', e.1.plans.find? planId = some plan' ∧ plan'.claims.find? c.key = some c

/-- Every rule is funded, and what it has left after a claim is a valid amount; or none is, and
one of them has nothing left. -/
def AllOrNone (plan : Plan) : Prop :=
  (∀ c ∈ plan.claims.rows, c.Funded ∧
    c.available.amount - c.singleClaim.amount ≤ Asset.maxAmount) ∨
  ((∀ c ∈ plan.claims.rows, ¬ c.Funded) ∧ ∃ c ∈ plan.claims.rows, c.available.amount = 0)

instance (plan : Plan) : Decidable (AllOrNone plan) := inferInstanceAs (Decidable (_ ∨ _))

/-! ## The transfers of a claim -/

section Outflow
variable {c : ClaimConf} {cs : List ClaimConf} {planId : ℕ} {beneficiary : Name} {claims : Claims}

theorem claimKey_inj {x y : ExtendedSymbol} : claimKey x = claimKey y ↔ x = y := by
  constructor
  · intro h
    have hpair : (x.sym.raw, x.contract.raw) = (y.sym.raw, y.contract.raw) := h
    rw [Prod.mk.injEq] at hpair
    cases x
    cases y
    rw [ExtendedSymbol.mk.injEq]
    exact ⟨Symbol.raw_inj.mp hpair.1, Name.raw_inj.mp hpair.2⟩
  · intro h
    rw [h]

/-- The token that a rule pays in is its key in the map. -/
theorem token_transfer (c : ClaimConf) (planId : ℕ) (beneficiary : Name) :
    (c.transfer planId beneficiary).token = c.symb := by
  show (⟨c.claimQuant.symbol, c.symb.contract⟩ : ExtendedSymbol) = c.symb
  rw [symbol_claimQuant]

/-- The rules of a plan are for different tokens. -/
theorem nodup_symbs (claims : Claims) : (claims.rows.map ClaimConf.symb).Nodup := by
  have hkeys : ((claims.rows.map ClaimConf.symb).map claimKey).Nodup := by
    rw [List.map_map]
    exact claims.nodup_keys
  exact hkeys.of_map _

/-- Rules of other tokens do not pay in a token. -/
theorem outflow_of_not_mem {x : ExtendedSymbol} (h : ∀ c ∈ cs, c.symb ≠ x) :
    outflow x (cs.map fun c => c.transfer planId beneficiary) = 0 := by
  induction cs with
  | nil => rfl
  | cons c cs ih =>
    have hc : c.symb ≠ x := h c List.mem_cons_self
    rw [List.map_cons, outflow_cons, token_transfer, if_neg hc, zero_add]
    apply ih
    intro d hd
    exact h d (List.mem_cons_of_mem _ hd)

theorem outflow_of_mem (hnodup : (cs.map ClaimConf.key).Nodup) (hc : c ∈ cs) :
    outflow c.symb (cs.map fun c => c.transfer planId beneficiary) = c.claimQuant.amount := by
  induction cs with
  | nil => simp at hc
  | cons d cs ih =>
    rw [List.map_cons, List.nodup_cons] at hnodup
    rw [List.map_cons, outflow_cons, token_transfer]
    rcases List.mem_cons.mp hc with rfl | hc
    · rw [if_pos rfl, outflow_of_not_mem]
      · exact add_zero _
      -- the other rules are of other tokens
      · intro d hd hsymb
        exact hnodup.1 (List.mem_map.mpr ⟨d, hd, congrArg claimKey hsymb⟩)
    · have hne : d.symb ≠ c.symb := by
        intro hsymb
        exact hnodup.1 (List.mem_map.mpr ⟨c, hc, congrArg claimKey hsymb.symm⟩)
      rw [if_neg hne, zero_add]
      exact ih hnodup.2 hc

/-- In a claim each rule pays its part in its own token. -/
theorem Claimed.outflow {plan plan' : Plan} {outs : List Transfer}
    (h : Claimed planId beneficiary plan plan' outs) (hc : c ∈ plan.claims) :
    outflow c.symb outs = c.claimQuant.amount := by
  rw [h.outs]
  exact outflow_of_mem plan.claims.nodup_keys hc

theorem claimQuant_of_funded (h : c.Funded) : c.claimQuant = c.singleClaim := if_pos h

theorem claimQuant_of_not_funded (h : ¬ c.Funded) : c.claimQuant = c.available := if_neg h

/-- A rule orders a positive transfer as long as it has something left. -/
theorem claimQuant_pos_iff : 0 < c.claimQuant.amount ↔ 0 < c.available.amount := by
  have hsingle := c.single_pos
  by_cases h : c.Funded
  · rw [claimQuant_of_funded h]
    unfold ClaimConf.Funded at h
    omega
  · rw [claimQuant_of_not_funded h]

end Outflow

/-! ## When a claim takes effect -/

section Commits
variable {self : Name} {ctx : Ctx} {s : State} {planId : ℕ} {claimer beneficiary : Name}
  {plan : Plan} {e : Effect State}

/-- What a claim that took effect has done. -/
theorem claimed_of_commits (h : ClaimAllowed ctx s planId claimer beneficiary plan)
    (hc : Commits (exec self ctx (.claim planId claimer beneficiary) s) e) :
    ∃ plan', e.1.plans.find? planId = some plan' ∧
      Claimed planId beneficiary plan plan' e.2 ∧ ∀ c ∈ plan.claims, 0 < c.available.amount := by
  have hexec : exec self ctx (.claim planId claimer beneficiary) s = .ok (e.1, e.2) := hc.1
  obtain ⟨plan₁, plan', hallowed, hclaimed, hstate⟩ := claimed_of_claim hexec
  have hplan : plan₁ = plan := Option.some.inj (hallowed.found.symm.trans h.found)
  subst hplan
  have hid : plan'.id = planId := hclaimed.id.trans (Table.find?_eq_some.mp h.found).2
  refine ⟨plan', ?_, hclaimed, ?_⟩
  · rw [hstate]
    show (s.plans.put plan').find? planId = _
    rw [Table.find?_put, if_pos hid.symm]
  · intro c hmem
    have htransfer : c.transfer planId beneficiary ∈ e.2 := by
      rw [hclaimed.outs]
      exact List.mem_map.mpr ⟨c, hmem, rfl⟩
    exact claimQuant_pos_iff.mp (hc.2 _ htransfer)

/-- A claim takes effect when every rule has something left and can pay. -/
theorem commits_of (h : ClaimAllowed ctx s planId claimer beneficiary plan)
    (hrules : plan.claims.rows ≠ []) (hpos : ∀ c ∈ plan.claims, 0 < c.available.amount)
    (hpay : ∀ c ∈ plan.claims, ∃ c', c.pay = .ok c') :
    ∃ e, Commits (exec self ctx (.claim planId claimer beneficiary) s) e := by
  have hallows : ∃ e, exec self ctx (.claim planId claimer beneficiary) s = .ok e :=
    claim_of_allowed h hrules hpay
  obtain ⟨⟨s', outs⟩, hexec⟩ := hallows
  obtain ⟨plan₁, plan', hallowed, hclaimed, -⟩ := claimed_of_claim hexec
  have hplan : plan₁ = plan := Option.some.inj (hallowed.found.symm.trans h.found)
  subst hplan
  refine ⟨_, hexec, ?_⟩
  intro t ht
  rw [hclaimed.outs] at ht
  obtain ⟨c, hc, rfl⟩ := List.mem_map.mp ht
  exact claimQuant_pos_iff.mpr (hpos c hc)

/-- A funded rule with a valid amount left after the claim can pay. -/
theorem pay_of_funded {c : ClaimConf} (hfunded : c.Funded)
    (hvalid : c.available.amount - c.singleClaim.amount ≤ Asset.maxAmount) :
    ∃ c', c.pay = .ok c' := by
  rw [pay_iff, claimQuant_of_funded hfunded]
  exact hvalid

/-- A rule that is not funded can pay: nothing is left of it. -/
theorem pay_of_not_funded {c : ClaimConf} (hfunded : ¬ c.Funded) : ∃ c', c.pay = .ok c' := by
  rw [pay_iff, claimQuant_of_not_funded hfunded, sub_self]
  decide

/-- When a claim takes effect although a rule is not funded, that rule pays what it has. -/
theorem not_paysFunded_of_partial (h : ClaimAllowed ctx s planId claimer beneficiary plan)
    (hc : Commits (exec self ctx (.claim planId claimer beneficiary) s) e) {c : ClaimConf}
    (hmem : c ∈ plan.claims) (hfunded : ¬ c.Funded) :
    ¬ PaysFunded planId beneficiary plan (exec self ctx (.claim planId claimer beneficiary) s) := by
  intro hpays
  obtain ⟨plan', -, hclaimed, hpos⟩ := claimed_of_commits h hc
  have hpaid := (hpays.unfunded e hc c hmem hfunded).1
  rw [hclaimed.outflow hmem, claimQuant_of_not_funded hfunded] at hpaid
  have := hpos c hmem
  omega

/-- A plan with all of its rules funded pays them all. -/
theorem paysFunded_of_all (h : ClaimAllowed ctx s planId claimer beneficiary plan)
    (hall : ∀ c ∈ plan.claims.rows, c.Funded ∧
      c.available.amount - c.singleClaim.amount ≤ Asset.maxAmount) :
    PaysFunded planId beneficiary plan (exec self ctx (.claim planId claimer beneficiary) s) := by
  have hpay : ∀ c ∈ plan.claims, ∃ c', c.pay = .ok c' :=
    fun c hc => pay_of_funded (hall c hc).1 (hall c hc).2
  constructor
  · constructor
    · rintro ⟨e, he⟩
      obtain ⟨plan', -, hclaimed, -⟩ := claimed_of_commits h he
      obtain ⟨c, hc⟩ := List.exists_mem_of_ne_nil _ hclaimed.rules
      exact ⟨c, hc, (hall c hc).1⟩
    · rintro ⟨c, hc, -⟩
      apply commits_of h (List.ne_nil_of_mem hc) _ hpay
      intro d hd
      have hfunded : d.singleClaim.amount ≤ d.available.amount := (hall d hd).1
      have := d.single_pos
      omega
  · intro e he t ht
    obtain ⟨plan', -, hclaimed, -⟩ := claimed_of_commits h he
    rw [hclaimed.outs] at ht
    obtain ⟨c, -, rfl⟩ := List.mem_map.mp ht
    rfl
  · intro e he c hc hfunded
    obtain ⟨plan', hfound, hclaimed, -⟩ := claimed_of_commits h he
    obtain ⟨c', hc', hstored⟩ := hclaimed.paid c hc
    obtain ⟨-, hsingle, hamount⟩ := pay_spec hc'
    rw [claimQuant_of_funded hfunded] at hamount
    refine ⟨?_, plan', c', hfound, hstored, hsingle, hamount⟩
    rw [hclaimed.outflow hc, claimQuant_of_funded hfunded]
  · intro e he c hc hfunded
    exact absurd (hall c hc).1 hfunded

/-- A plan without a funded rule is refused once a rule has nothing left. -/
theorem paysFunded_of_none (h : ClaimAllowed ctx s planId claimer beneficiary plan)
    (hnone : ∀ c ∈ plan.claims.rows, ¬ c.Funded) {c : ClaimConf} (hc : c ∈ plan.claims)
    (hempty : c.available.amount = 0) :
    PaysFunded planId beneficiary plan (exec self ctx (.claim planId claimer beneficiary) s) := by
  have hrefused : ∀ e, ¬ Commits (exec self ctx (.claim planId claimer beneficiary) s) e := by
    intro e he
    obtain ⟨plan', -, -, hpos⟩ := claimed_of_commits h he
    have := hpos c hc
    omega
  constructor
  · constructor
    · rintro ⟨e, he⟩
      exact absurd he (hrefused e)
    · rintro ⟨d, hd, hfunded⟩
      exact absurd hfunded (hnone d hd)
  · exact fun e he => absurd he (hrefused e)
  · exact fun e he => absurd he (hrefused e)
  · exact fun e he => absurd he (hrefused e)

/-- A claim by an oracle within the time window pays exactly the funded rules if and only if all
the rules are funded, or none is and one of them has nothing left. -/
theorem claim_pays_funded_iff (h : ClaimAllowed ctx s planId claimer beneficiary plan) :
    PaysFunded planId beneficiary plan (exec self ctx (.claim planId claimer beneficiary) s) ↔
      AllOrNone plan := by
  constructor
  · intro hpays
    by_cases hcommits : ∃ e, Commits (exec self ctx (.claim planId claimer beneficiary) s) e
    · -- the claim took effect, so every rule paid, and none of them only in part
      obtain ⟨e, he⟩ := hcommits
      obtain ⟨plan', -, hclaimed, -⟩ := claimed_of_commits h he
      left
      intro c hc
      have hfunded : c.Funded := by
        by_contra hnot
        exact not_paysFunded_of_partial h he hc hnot hpays
      obtain ⟨c', hpay, -⟩ := hclaimed.paid c hc
      have hvalid := pay_iff.mp ⟨c', hpay⟩
      rw [claimQuant_of_funded hfunded] at hvalid
      exact ⟨hfunded, hvalid⟩
    · -- the claim was refused, so no rule is funded, and all of them can pay
      have hnone : ∀ c ∈ plan.claims.rows, ¬ c.Funded := by
        intro c hc hfunded
        exact hcommits (hpays.commits.mpr ⟨c, hc, hfunded⟩)
      by_cases hrules : plan.claims.rows = []
      · left
        rw [hrules]
        simp
      · right
        refine ⟨hnone, ?_⟩
        by_contra hsome
        apply hcommits
        apply commits_of h hrules
        · intro c hc
          have hne : c.available.amount ≠ 0 := fun hzero => hsome ⟨c, hc, hzero⟩
          have := c.available_nonneg
          omega
        · exact fun c hc => pay_of_not_funded (hnone c hc)
  · rintro (hall | ⟨hnone, c, hc, hempty⟩)
    · exact paysFunded_of_all h hall
    · exact paysFunded_of_none h hnone hc hempty

end Commits

/-! ## A rule that is nearly used up -/

namespace Sample

def account : Name := .lit "flon.airdrop"
def admin : Name := .lit "admin"
def oracle : Name := .lit "oracle"
def alice : Name := .lit "alice"
def bob : Name := .lit "bob"
def bank : Name := .lit "flon.token"
def flon : ExtendedSymbol := ⟨.lit "FLON" 8, bank⟩
def sing : ExtendedSymbol := ⟨.lit "SING" 8, .lit "cisum.token"⟩

def quant (x : ExtendedSymbol) (amount : Int64Arg) : Asset := .lit amount x.sym

/-- Somebody sends tokens to the account. -/
def fund (x : ExtendedSymbol) (amount : Int64Arg) (valid : (quant x amount).isValid) :
    Ctx × Input Action :=
  (.signed admin 100, .notify ⟨x.contract, admin, account, quant x amount, [], valid⟩)

def setrule (x : ExtendedSymbol) (singleClaim allocated : Int64Arg) : Ctx × Input Action :=
  (.signed admin 100, .act (.setclaim 1 x (quant x singleClaim) (quant x allocated)))

def claimFor (beneficiary : Name) : Ctx × Input Action :=
  (.signed oracle 101, .act (.claim 1 oracle beneficiary))

/-- The plan 1, which is open and has no rules yet. -/
def setup : List (Ctx × Input Action) :=
  [(.signed account 100, .act (.init admin (Table.empty.put oracle))),
   (.signed admin 100, .act (.addtoken flon.contract flon.sym)),
   (.signed admin 100, .act (.addtoken sing.contract sing.sym)),
   (.signed admin 100, .act (.addplan [] (int64 0) (int64 (10 ^ 18)))),
   fund flon (int64 1000) (by decide), fund sing (int64 1000) (by decide)]

/-- The rules of the plan: 10 of 100 FLON and 5 of 8 SING for each claim. -/
def rules : List (Ctx × Input Action) :=
  [setrule flon (int64 10) (int64 100), setrule sing (int64 5) (int64 8)]

/-- After the claim for alice 3 SING are left, which is not enough for a claim, and the claim
for bob pays them. -/
theorem unfunded_rule_pays :
    ¬ ∀ (ctx : Ctx) (s : State) (planId : ℕ) (claimer beneficiary : Name) (plan : Plan),
      ClaimAllowed ctx s planId claimer beneficiary plan →
      PaysFunded planId beneficiary plan (exec account ctx (.claim planId claimer beneficiary) s) := by
  intro hclaim
  have hreach : Transition.Reaches (contract account).step Transition.Unrestricted (fun w =>
      isOracle w.state.gstate.oracles oracle = true ∧ ∃ plan ∈ w.state.plans.find? 1,
        (plan.planStartedAt.1 ≤ (Ctx.signed oracle 101).now.us ∧
          (Ctx.signed oracle 101).now.us ≤ plan.planEndedAt.1) ∧
        ∃ c ∈ plan.claims.find? (claimKey sing), c.symb = sing ∧ ¬ c.Funded ∧
          Transition.Succeeds (exec account (.signed oracle 101) (.claim 1 oracle bob) w.state)
            fun e => (∀ t ∈ e.2, 0 < t.quantity.amount) ∧ outflow sing e.2 = 3)
      (setup ++ rules ++ [claimFor alice]) (genesis (.ofDays 100)) := by decide
  obtain ⟨w, -, horacle, plan, hplan, hwindow, c, hc, hsymb, hfunded, hrun⟩ :=
    Transition.run_of_reaches hreach
  obtain ⟨e, hexec, hpos, hpaid⟩ := Transition.succeeds_iff.mp hrun
  have hallowed : ClaimAllowed (.signed oracle 101) w.state 1 oracle bob plan :=
    ⟨by decide, horacle, by decide, hplan, hwindow⟩
  have hspec := hclaim _ _ _ _ _ _ hallowed
  have hnothing := (hspec.unfunded e ⟨hexec, hpos⟩ c (Table.find?_eq_some.mp hc).1 hfunded).1
  rw [hsymb, hpaid] at hnothing
  exact absurd hnothing (by decide)

/-- The claim for alice pays both rules. -/
theorem claim_pays_funded_iff_sample :
    ∃ w plan, Transition.Run (contract account).step Transition.Unrestricted
        (genesis (.ofDays 100)) (setup ++ rules) w ∧
      PaysFunded 1 alice plan (exec account (.signed oracle 101) (.claim 1 oracle alice) w.state) := by
  have hreach : Transition.Reaches (contract account).step Transition.Unrestricted (fun w =>
      isOracle w.state.gstate.oracles oracle = true ∧ ∃ plan ∈ w.state.plans.find? 1,
        (plan.planStartedAt.1 ≤ (Ctx.signed oracle 101).now.us ∧
          (Ctx.signed oracle 101).now.us ≤ plan.planEndedAt.1) ∧ AllOrNone plan)
      (setup ++ rules) (genesis (.ofDays 100)) := by decide
  obtain ⟨w, hrun, horacle, plan, hplan, hwindow, hall⟩ := Transition.run_of_reaches hreach
  have hallowed : ClaimAllowed (.signed oracle 101) w.state 1 oracle alice plan :=
    ⟨by decide, horacle, by decide, hplan, hwindow⟩
  exact ⟨w, plan, hrun, (claim_pays_funded_iff hallowed).mpr hall⟩

end Sample

end Airdrop
end ToolkitContracts
