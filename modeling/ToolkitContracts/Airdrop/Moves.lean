import ToolkitContracts.Airdrop.Model

/-!
# What a transaction does to the plans

`Move` lists the successful transactions: the plans and rules they store and remove and the
transfers they order. `move_of_run` is the only place where the contract's code is taken apart.
-/

namespace ToolkitContracts
namespace Airdrop

/-- A call of `claim` passes the checks before the loop, on the plan `plan`. -/
structure ClaimAllowed (ctx : Ctx) (s : State) (planId : ℕ) (claimer beneficiary : Name)
    (plan : Plan) : Prop where
  auth : ctx.hasAuth claimer = true
  oracle : isOracle s.gstate.oracles claimer = true
  beneficiary : beneficiary.raw ≠ 0 ∧ ctx.isAccount beneficiary = true
  found : s.plans.find? planId = some plan
  window : plan.planStartedAt.1 ≤ ctx.now.us ∧ ctx.now.us ≤ plan.planEndedAt.1

/-- A claim has turned the plan `plan` into `plan'`: it paid out of every rule, and there was
one. -/
structure Claimed (planId : ℕ) (beneficiary : Name) (plan plan' : Plan) (outs : List Transfer) :
    Prop where
  id : plan'.id = plan.id
  rules : plan.claims.rows ≠ []
  outs : outs = plan.claims.rows.map fun c => c.transfer planId beneficiary
  paid : ∀ c ∈ plan.claims, ∃ c', c.pay = .ok c' ∧ plan'.claims.find? c.key = some c'
  others : ∀ k, plan.claims.find? k = none → plan'.claims.find? k = none

/-- The action leaves the plans alone. -/
def Action.Configures : Action → Prop
  | .init _ _ | .addoracle _ | .deloracle _ | .addtoken _ _ | .deltoken _ _ => True
  | _ => False

/-- The successful transactions on the tables `s`. -/
inductive Move (ctx : Ctx) (s : State) : Input Action → State → List Transfer → Prop
  | receive (n : Notice) : Move ctx s (.notify n) s []
  | configure (a : Action) (ha : a.Configures) (s' : State) (hplans : s'.plans = s.plans) :
      Move ctx s (.act a) s' []
  | addplan (title : List Char) (startedAt endedAt : Int64Arg) (plan : Plan) (s' : State)
      (hnew : s.plans.find? plan.id = none) (hclaims : plan.claims = .empty)
      (hplans : s'.plans = s.plans.put plan) :
      Move ctx s (.act (.addplan title startedAt endedAt)) s' []
  | setclaim (planId : ℕ) (symb : ExtendedSymbol) (singleClaim allocated : Asset) (plan : Plan)
      (c : ClaimConf) (hplan : s.plans.find? planId = some plan) (hsymb : c.symb = symb)
      (hsingle : c.singleClaim = singleClaim) (havailable : c.available = allocated) :
      Move ctx s (.act (.setclaim planId symb singleClaim allocated))
        { s with plans := s.plans.put { plan with claims := plan.claims.put c } } []
  | delclaim (planId : ℕ) (symb : ExtendedSymbol) (plan : Plan)
      (hplan : s.plans.find? planId = some plan) :
      Move ctx s (.act (.delclaim planId symb))
        { s with plans := s.plans.put { plan with claims := plan.claims.erase (claimKey symb) } } []
  | setplan (planId : ℕ) (title : Option (List Char)) (startedAt endedAt : Option Int64Arg)
      (plan plan' : Plan) (hplan : s.plans.find? planId = some plan) (hid : plan'.id = plan.id)
      (hclaims : plan'.claims = plan.claims) :
      Move ctx s (.act (.setplan planId title startedAt endedAt))
        { s with plans := s.plans.put plan' } []
  | delplan (planId : ℕ) :
      Move ctx s (.act (.delplan planId)) { s with plans := s.plans.erase planId } []
  | claim (planId : ℕ) (claimer beneficiary : Name) (plan plan' : Plan) (outs : List Transfer)
      (hallowed : ClaimAllowed ctx s planId claimer beneficiary plan)
      (hclaimed : Claimed planId beneficiary plan plan' outs) :
      Move ctx s (.act (.claim planId claimer beneficiary))
        { s with plans := s.plans.put plan' } outs

/-! ## Paying out of the rules -/

section Rules
variable {c c' : ClaimConf} {cs : List ClaimConf} {planId : ℕ} {beneficiary : Name}
  {claims claims' : Claims} {outs outs' : List Transfer} {n n' : ℕ}

/-- What is left of a rule after a claim. -/
theorem pay_spec (h : c.pay = .ok c') :
    c'.symb = c.symb ∧ c'.singleClaim = c.singleClaim ∧
      c'.available.amount = c.available.amount - c.claimQuant.amount := by
  unfold ClaimConf.pay at h
  split at h
  · next r hsub =>
    rw [Except.ok.injEq] at h
    rw [← h]
    exact ⟨rfl, rfl, Asset.amount_of_sub hsub c.available_nonneg c.claimQuant_nonneg⟩
  · cases h

theorem key_of_pay (h : c.pay = .ok c') : c'.key = c.key := congrArg claimKey (pay_spec h).1

theorem symbol_claimQuant (c : ClaimConf) : c.claimQuant.symbol = c.symb.sym := by
  unfold ClaimConf.claimQuant
  split
  · exact c.single_symbol
  · exact c.available_symbol

/-- A rule can pay unless what is left afterwards is not a valid amount. -/
theorem pay_iff : (∃ c', c.pay = .ok c') ↔
    c.available.amount - c.claimQuant.amount ≤ Asset.maxAmount := by
  have hsymbol : c.claimQuant.symbol = c.available.symbol :=
    (symbol_claimQuant c).trans c.available_symbol.symm
  have hnonneg := c.claimQuant_nonneg
  have hle := c.claimQuant_le
  have hbounds := c.available.bounds
  have hexact : i64 (c.available.amount - c.claimQuant.amount)
      = c.available.amount - c.claimQuant.amount := i64_eq (by omega) (by omega)
  -- the difference of the two amounts is exact, so only the range check is left
  have hsub : (∃ r, c.available.sub c.claimQuant = .ok r) ↔
      c.available.amount - c.claimQuant.amount ≤ Asset.maxAmount := by
    simp only [Asset.sub_eq_ok, Asset.isAmountWithinRange, Asset.maxAmount]
    constructor
    · rintro ⟨r, -, rfl, -, hr⟩
      rw [Asset.setAmount_amount, hexact] at hr
      exact hr
    · intro hr
      refine ⟨_, hsymbol, rfl, ?_, ?_⟩
      · rw [Asset.setAmount_amount, hexact]
        omega
      · rw [Asset.setAmount_amount, hexact]
        exact hr
  rw [← hsub]
  unfold ClaimConf.pay
  split
  · next r hr => exact ⟨fun _ => ⟨r, hr⟩, fun _ => ⟨_, rfl⟩⟩
  · next e he =>
    constructor
    · rintro ⟨c', hc'⟩
      cases hc'
    · rintro ⟨r, hr⟩
      rw [he] at hr
      cases hr

/-- The loop pays out of every rule that it is given, and out of no other. -/
theorem payRules_spec (hnodup : (cs.map ClaimConf.key).Nodup)
    (h : payRules planId beneficiary cs (claims, outs, n) = .ok (claims', outs', n')) :
    outs' = outs ++ cs.map (fun c => c.transfer planId beneficiary) ∧ n' = n + cs.length ∧
    (∀ c ∈ cs, ∃ c', c.pay = .ok c' ∧ claims'.find? c.key = some c') ∧
    ∀ k, k ∉ cs.map ClaimConf.key → claims'.find? k = claims.find? k := by
  induction cs generalizing claims outs n with
  | nil =>
    simp only [payRules, Except.ok.injEq, Prod.mk.injEq] at h
    obtain ⟨rfl, rfl, rfl⟩ := h
    simp
  | cons c cs ih =>
    simp only [payRules, bind_eq_ok] at h
    obtain ⟨c₁, hpay, hrest⟩ := h
    rw [List.map_cons, List.nodup_cons] at hnodup
    obtain ⟨houts, hn, hpaid, hothers⟩ := ih hnodup.2 hrest
    have hkey : c₁.key = c.key := key_of_pay hpay
    refine ⟨?_, ?_, ?_, ?_⟩
    · rw [houts]
      simp
    · rw [hn, List.length_cons]
      omega
    · intro d hd
      rcases List.mem_cons.mp hd with rfl | hd
      -- the first rule is not touched again, for the keys are distinct
      · refine ⟨c₁, hpay, ?_⟩
        rw [hothers _ hnodup.1, Table.find?_put, if_pos hkey.symm]
      · exact hpaid d hd
    · intro k hk
      rw [List.map_cons, List.mem_cons, not_or] at hk
      rw [hothers k hk.2, Table.find?_put, hkey, if_neg hk.1]

/-- The loop fails only where a rule cannot pay. -/
theorem payRules_of (h : ∀ c ∈ cs, ∃ c', c.pay = .ok c') :
    ∃ r, payRules planId beneficiary cs (claims, outs, n) = .ok r := by
  induction cs generalizing claims outs n with
  | nil => exact ⟨_, rfl⟩
  | cons c cs ih =>
    obtain ⟨c', hpay⟩ := h c List.mem_cons_self
    rw [payRules, hpay, ok_bind]
    apply ih
    intro d hd
    exact h d (List.mem_cons_of_mem _ hd)

end Rules

/-! ## Taking the code apart -/

section Inversion
variable {self : Name} {ctx : Ctx} {s s' : State} {outs : List Transfer} {planId : ℕ}
  {claimer beneficiary : Name} {plan : Plan}

/-- A claim that was accepted passed the checks and paid out of the plan. -/
theorem claimed_of_claim (h : exec self ctx (.claim planId claimer beneficiary) s = .ok (s', outs)) :
    ∃ plan plan', ClaimAllowed ctx s planId claimer beneficiary plan ∧
      Claimed planId beneficiary plan plan' outs ∧ s' = { s with plans := s.plans.put plan' } := by
  simp only [exec, claim, getPlan, bind_eq_ok, checkc_eq_ok, require_eq_ok, pure_eq_ok,
    exists_const, Prod.mk.injEq, Ctx.requireAuth_eq_ok] at h
  obtain ⟨hauth, horacle, hbeneficiary, plan, hplan, hwindow, ⟨claims, outs', n⟩, hloop, hcount, rfl,
    rfl⟩ := h
  obtain ⟨houts, hn, hpaid, hothers⟩ := payRules_spec plan.claims.nodup_keys hloop
  refine ⟨plan, _, ⟨hauth, horacle, hbeneficiary, hplan, hwindow⟩, ?_, rfl⟩
  constructor
  · rfl
  · intro hnone
    rw [hn, hnone] at hcount
    exact absurd hcount (by simp)
  · rw [houts, List.nil_append]
  · exact hpaid
  · intro k hk
    have hnotin : k ∉ plan.claims.rows.map ClaimConf.key := by
      intro hmem
      obtain ⟨c, hc, hkey⟩ := List.mem_map.mp hmem
      exact Table.find?_eq_none.mp hk c hc hkey
    exact (hothers k hnotin).trans hk

/-- A claim that passes the checks on a plan with rules that can all pay is accepted. -/
theorem claim_of_allowed (h : ClaimAllowed ctx s planId claimer beneficiary plan)
    (hrules : plan.claims.rows ≠ []) (hpay : ∀ c ∈ plan.claims, ∃ c', c.pay = .ok c') :
    ∃ e, exec self ctx (.claim planId claimer beneficiary) s = .ok e := by
  have hloop : ∃ r, payRules planId beneficiary plan.claims.rows (plan.claims, [], 0) = .ok r :=
    payRules_of hpay
  obtain ⟨⟨claims, outs, n⟩, hloop⟩ := hloop
  obtain ⟨-, hn, -⟩ := payRules_spec plan.claims.nodup_keys hloop
  have hcount : 0 < n := by
    have hlength := List.length_pos_of_ne_nil hrules
    omega
  show ∃ e, claim ctx planId claimer beneficiary s = .ok e
  rw [claim, Ctx.requireAuth, check_of h.auth, checkc_of h.oracle, checkc_of h.beneficiary, getPlan,
    h.found, require, ok_bind, checkc_of h.window, hloop, ok_bind]
  dsimp only
  rw [checkc_of hcount]
  exact ⟨_, rfl⟩

theorem move_of_exec {a : Action} (h : exec self ctx a s = .ok (s', outs)) :
    Move ctx s (.act a) s' outs := by
  cases a with
  | init admin oracles =>
    simp only [exec, Airdrop.init, bind_eq_ok, checkc_eq_ok, pure_eq_ok, exists_const,
      Prod.mk.injEq, Ctx.requireAuth_eq_ok] at h
    obtain ⟨-, -, -, -, rfl, rfl⟩ := h
    exact .configure (.init admin oracles) trivial _ rfl
  | addoracle oracle =>
    simp only [exec, addoracle, requireAdmin, bind_eq_ok, check_eq_ok, checkc_eq_ok, pure_eq_ok,
      exists_const, Prod.mk.injEq] at h
    obtain ⟨-, -, -, rfl, rfl⟩ := h
    exact .configure (.addoracle oracle) trivial _ rfl
  | deloracle oracle =>
    simp only [exec, deloracle, requireAdmin, bind_eq_ok, check_eq_ok, checkc_eq_ok, pure_eq_ok,
      exists_const, Prod.mk.injEq] at h
    obtain ⟨-, -, rfl, rfl⟩ := h
    exact .configure (.deloracle oracle) trivial _ rfl
  | addtoken tokenBank sym =>
    simp only [exec, addtoken, requireAdmin, bind_eq_ok, check_eq_ok, checkc_eq_ok, pure_eq_ok,
      exists_const, Prod.mk.injEq] at h
    obtain ⟨-, -, -, -, tokens, -, rfl, rfl⟩ := h
    exact .configure (.addtoken tokenBank sym) trivial _ rfl
  | deltoken tokenBank sym =>
    simp only [exec, deltoken, requireAdmin, bind_eq_ok, check_eq_ok, require_eq_ok, pure_eq_ok,
      exists_const, Prod.mk.injEq] at h
    obtain ⟨-, token, -, rfl, rfl⟩ := h
    exact .configure (.deltoken tokenBank sym) trivial _ rfl
  | addplan title startedAt endedAt =>
    simp only [exec, addplan, requireAdmin, bind_eq_ok, check_eq_ok, checkc_eq_ok, pure_eq_ok,
      exists_const, Prod.mk.injEq, emplace_eq_ok] at h
    obtain ⟨-, -, plans, ⟨hnew, rfl⟩, rfl, rfl⟩ := h
    exact .addplan title startedAt endedAt _ _ hnew rfl rfl
  | setclaim planId symb singleClaim allocated =>
    simp only [exec, setclaim, requireAdmin, assertTokenAllowed, getPlan, bind_eq_ok, check_eq_ok,
      checkc_eq_ok, require_eq_ok, pure_eq_ok, exists_const, Prod.mk.injEq] at h
    obtain ⟨-, hsingle, -, hallocated, -, -, hpos, -, hle, -, -, plan, hplan, rfl, rfl⟩ := h
    exact .setclaim planId symb singleClaim allocated plan _ hplan rfl rfl rfl
  | delclaim planId symb =>
    simp only [exec, delclaim, requireAdmin, getPlan, bind_eq_ok, check_eq_ok, require_eq_ok,
      pure_eq_ok, exists_const, Prod.mk.injEq] at h
    obtain ⟨-, plan, hplan, rfl, rfl⟩ := h
    exact .delclaim planId symb plan hplan
  | setplan planId title startedAt endedAt =>
    simp only [exec, setplan, requireAdmin, getPlan, bind_eq_ok, check_eq_ok, checkc_eq_ok,
      require_eq_ok, pure_eq_ok, exists_const, Prod.mk.injEq] at h
    obtain ⟨-, plan, hplan, -, rfl, rfl⟩ := h
    exact .setplan planId title startedAt endedAt plan _ hplan rfl rfl
  | delplan planId =>
    simp only [exec, delplan, getPlan, bind_eq_ok, require_eq_ok, pure_eq_ok, exists_const,
      Prod.mk.injEq, Ctx.requireAuth_eq_ok] at h
    obtain ⟨-, plan, hplan, rfl, rfl⟩ := h
    have hid : plan.id = planId := (Table.find?_eq_some.mp hplan).2
    rw [hid]
    exact .delplan planId
  | claim planId claimer beneficiary =>
    obtain ⟨plan, plan', hallowed, hclaimed, rfl⟩ := claimed_of_claim h
    exact .claim planId claimer beneficiary plan plan' outs hallowed hclaimed

/-- Every successful transaction is one of the moves. -/
theorem move_of_run {i : Input Action} (h : (contract self).run ctx i s = .ok (s', outs)) :
    Move ctx s i s' outs := by
  cases i with
  | notify n =>
    have hrun : Except.ok (s, []) = Except.ok (s', outs) := h
    rw [Except.ok.injEq, Prod.mk.injEq] at hrun
    obtain ⟨rfl, rfl⟩ := hrun
    exact .receive n
  | act a => exact move_of_exec h

end Inversion

end Airdrop
end ToolkitContracts
