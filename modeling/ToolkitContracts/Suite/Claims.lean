import ToolkitContracts.Airdrop.Payment
import ToolkitContracts.Suite.Relays

/-!
# Claims that flon.split distributes

A claim of flon.airdrop for flon.split pays every rule of the airdrop plan with a memo that names
the plan of flon.split with the same number. The whole claim stands or falls with every one of these
payments.
-/

namespace ToolkitContracts
namespace Suite

open Blindbox (Env)

section Claims
variable {a : Accounts} {clock : TimePoint} {depth planId : ℕ} {claimer : Name} {env : Env}
  {p : Airdrop.Plan} {w w' : States a} {ms : List (deployment a).Message} {ns : List Notice}
  {outs : List Transfer}

/-- A claim of flon.airdrop for flon.split. -/
def claimFor (a : Accounts) (env : Env) (planId : ℕ) (claimer : Name) : (deployment a).Message :=
  ⟨.airdrop, env, .act (.claim planId claimer (a.account .split))⟩

/-- What flon.airdrop orders in a claim, and how it is notified. -/
structure Paying (a : Accounts) (planId : ℕ) (p : Airdrop.Plan) (ns : List Notice) : Prop where
  transfers : ns.map (fun n => (⟨n.bank, n.recipient, n.quantity, n.memo⟩ : Transfer))
    = p.claims.rows.map fun c => c.transfer planId (a.account .split)
  sender : ∀ n ∈ ns, n.sender = a.account .airdrop

theorem Paying.token (h : Paying a planId p ns) :
    ns.map Notice.token = p.claims.rows.map Airdrop.ClaimConf.symb := by
  have htokens := congrArg (List.map Transfer.token) h.transfers
  rw [List.map_map, List.map_map] at htokens
  have hsymb : ∀ c ∈ p.claims.rows,
      (Transfer.token ∘ fun c : Airdrop.ClaimConf => c.transfer planId (a.account .split)) c
        = c.symb := fun c _ => Airdrop.token_transfer c _ _
  rw [List.map_congr_left hsymb] at htokens
  exact htokens

/-- The rules of a plan pay different tokens. -/
theorem Paying.distinct (h : Paying a planId p ns) : (ns.map Notice.token).Nodup := by
  rw [h.token]
  exact Airdrop.nodup_symbs p.claims

/-- Every rule pays its part, and nothing else is paid. -/
theorem Paying.forall_iff (h : Paying a planId p ns) {P : ExtendedSymbol → ℤ → Prop} :
    (∀ n ∈ ns, P n.token n.quantity.amount) ↔ ∀ c ∈ p.claims, P c.symb c.claimQuant.amount := by
  have hmap := congrArg (List.map fun t : Transfer => (t.token, t.quantity.amount)) h.transfers
  rw [List.map_map, List.map_map] at hmap
  have hrule : ∀ c ∈ p.claims.rows, ((fun t : Transfer => (t.token, t.quantity.amount)) ∘
      fun c : Airdrop.ClaimConf => c.transfer planId (a.account .split)) c
        = (c.symb, c.claimQuant.amount) := by
    intro c _
    rw [Function.comp_apply, Airdrop.token_transfer]
    rfl
  rw [List.map_congr_left hrule] at hmap
  have hleft : (∀ n ∈ ns, P n.token n.quantity.amount) ↔
      ∀ e ∈ ns.map ((fun t : Transfer => (t.token, t.quantity.amount)) ∘
        fun n : Notice => ⟨n.bank, n.recipient, n.quantity, n.memo⟩), P e.1 e.2 := by
    rw [List.forall_mem_map]
    rfl
  rw [hleft, hmap, List.forall_mem_map]
  rfl

/-- Each payment is a transfer to flon.split, and names the plan with the number of the airdrop
plan. -/
theorem Paying.of_mem (h : Paying a planId p ns) {n : Notice} (hn : n ∈ ns) :
    n.sender ≠ a.account .split ∧ n.recipient = a.account .split ∧
    n.memo = "plan".toList ++ ':' :: ((toString planId).toList ++ []) := by
  have hmem : (⟨n.bank, n.recipient, n.quantity, n.memo⟩ : Transfer)
      ∈ p.claims.rows.map fun c => c.transfer planId (a.account .split) := by
    rw [← h.transfers]
    exact List.mem_map_of_mem hn
  obtain ⟨c, -, hc⟩ := List.mem_map.mp hmem
  refine ⟨?_, (congrArg Transfer.recipient hc).symm, ?_⟩
  · rw [h.sender n hn]
    intro hsame
    cases a.injective _ _ hsame
  · rw [List.append_nil]
    exact (congrArg Transfer.memo hc).symm

/-- Where the number of the plan fits an `int`, flon.split reads it. -/
theorem Paying.forPlan (h : Paying a planId p ns) {plan : Split.TokenSplitPlan}
    (hid : plan.id = planId) (hint : planId < 2 ^ 31)
    (hpos : ∀ c ∈ p.claims, 0 < c.claimQuant.amount) : ∀ n ∈ ns, ForPlan a env plan n := by
  intro n hn
  obtain ⟨hsender, hto, hmemo⟩ := h.of_mem hn
  refine ⟨hsender, hto, ?_, ?_⟩
  · rw [hmemo, memoPlan_plan (hint.trans (by norm_num)) (Or.inl rfl)]
    exact ⟨hint, hid⟩
  · exact (h.forall_iff (P := fun _ q => 0 < q)).mpr hpos n hn

/-- A payment for a plan that is not stored, or has a number too large to read, is refused. -/
theorem Paying.plan (h : Paying a planId p ns) (hrules : p.claims.rows ≠ []) (hid : planId < 2 ^ 64)
    (htaken : takeAll a (depth + 1) env ns w = .ok w') :
    planId < 2 ^ 31 ∧ ∃ plan, (w .split).world.state.plans.find? planId = some plan := by
  cases ns with
  | nil => exact absurd (List.map_eq_nil_iff.mp h.transfers.symm) hrules
  | cons n ns =>
    obtain ⟨hsender, hto, hmemo⟩ := h.of_mem List.mem_cons_self
    rw [takeAll, List.foldlM_cons] at htaken
    cases hfirst : (deployment a).transact (depth + 1) w ⟨.split, env, .notify n⟩ with
    | error e =>
      rw [hfirst] at htaken
      cases htaken
    | ok v =>
      obtain ⟨plan, hplanMemo, hplan⟩ := plan_of_transact hsender hto hfirst
      rw [hmemo, memoPlan_plan hid (Or.inl rfl)] at hplanMemo
      obtain ⟨hint, rfl⟩ := hplanMemo
      exact ⟨hint, plan, hplan⟩

/-- What a claim of flon.airdrop for flon.split orders is notified to flon.split. -/
theorem paying_of_order {d : World Airdrop.State}
    (hfound : (w .airdrop).world.state.plans.find? planId = some p)
    (horder : (Airdrop.contract (a.account .airdrop)).order Env.toCtx (w .airdrop).world
      (env, .act (.claim planId claimer (a.account .split))) = .ok (d, outs)) :
    d.clock = env.now ∧ p.claims.rows ≠ [] ∧ (∀ c ∈ p.claims, 0 < c.claimQuant.amount) ∧
    outs = (p.claims.rows.map fun c => c.transfer planId (a.account .split)) ∧
    ∀ {messages}, (deployment a).notices env (a.account .airdrop) outs = .ok messages →
      (∀ c ∈ p.claims, c.claimQuant.isValid) ∧ ∃ ns, Paying a planId p ns ∧
        messages = ns.map fun n => ⟨.split, (deployment a).signed env (a.account .airdrop), .notify n⟩ := by
  obtain ⟨hstep, hrun⟩ := Contract.order_eq_ok.mp horder
  obtain ⟨-, -, hclock, outs', hrun', hsettle⟩ :=
    (Airdrop.contract (a.account .airdrop)).step_eq_ok.mp hstep
  rw [hrun, Except.ok.injEq, Prod.mk.injEq] at hrun'
  obtain ⟨-, rfl⟩ := hrun'
  have hexec : Airdrop.exec (a.account .airdrop) env.toCtx (.claim planId claimer (a.account .split))
      (w .airdrop).world.state = .ok (d.state, outs) := hrun
  obtain ⟨p₁, plan', hallowed, hclaimed, -⟩ := Airdrop.claimed_of_claim hexec
  obtain rfl : p₁ = p := Option.some.inj (hallowed.found.symm.trans hfound)
  have hmem : ∀ c ∈ p₁.claims, c.transfer planId (a.account .split) ∈ outs := by
    intro c hc
    rw [hclaimed.outs]
    exact List.mem_map_of_mem hc
  have hsplit : ∀ t ∈ outs, a.party? t.recipient = some .split := by
    intro t ht
    rw [hclaimed.outs] at ht
    obtain ⟨c, -, rfl⟩ := List.mem_map.mp ht
    exact a.party?_eq_some.mpr rfl
  refine ⟨hclock, hclaimed.rules, fun c hc => (mem_of_settle hsettle (hmem c hc)).2, hclaimed.outs,
    fun hnotices => ?_⟩
  obtain ⟨ns, hmessages, htransfers, hsender⟩ := Deployment.notices_of_recipient hsplit hnotices
  refine ⟨fun c hc => ?_, ns, ⟨?_, hsender⟩, hmessages⟩
  · obtain ⟨hvalid, -⟩ := Deployment.notice_of_mem hnotices (hmem c hc) (hsplit _ (hmem c hc))
    exact hvalid
  · rw [htransfers, hclaimed.outs]

/-- A claim is carried out by flon.airdrop, and then flon.split takes the payments. -/
theorem of_transact_claim (hfound : (w .airdrop).world.state.plans.find? planId = some p)
    (h : (deployment a).transact (depth + 1) w (claimFor a env planId claimer) = .ok w') :
    ∃ (d : (deployment a).State .airdrop) (ns : List Notice),
      (contracts a .airdrop).stepAlone (w .airdrop).world (claimFor a env planId claimer).2
        = .ok d.world ∧
      (d.world : World Airdrop.State).clock = env.now ∧ p.claims.rows ≠ [] ∧
      (∀ c ∈ p.claims, 0 < c.claimQuant.amount) ∧ (∀ c ∈ p.claims, c.claimQuant.isValid) ∧
      Paying a planId p ns ∧
      takeAll a depth ((deployment a).signed env (a.account .airdrop)) ns
        (Function.update w .airdrop d) = .ok w' := by
  obtain ⟨d, messages, hhandle, hsent⟩ := Network.deliver_succ_eq_ok.mp h
  obtain ⟨outs, hactor, hnotices, -, -⟩ := Deployment.handle_eq_ok.mp hhandle
  have hstep : (contracts a .airdrop).step (w .airdrop).world (claimFor a env planId claimer).2
      = .ok (d.world, outs) := hactor
  obtain ⟨hclock, hrules, hpos, -, hpaying⟩ := paying_of_order hfound hactor
  obtain ⟨hvalid, ns, hns, rfl⟩ := hpaying hnotices
  refine ⟨d, ns, ?_, hclock, hrules, hpos, hvalid, hns, ?_⟩
  · unfold Actor.stepAlone
    rw [hstep]
  · rw [List.foldlM_map] at hsent
    exact hsent

/-- A claim that flon.airdrop accepts alone is carried out when flon.split takes the payments. -/
theorem transact_claim (hfound : (w .airdrop).world.state.plans.find? planId = some p)
    {v : World Airdrop.State}
    (hairdrop : (contracts a .airdrop).stepAlone (w .airdrop).world (claimFor a env planId claimer).2
      = .ok v) (hvalid : ∀ c ∈ p.claims, c.claimQuant.isValid)
    (hsplit : ∀ (d : (deployment a).State .airdrop) (ns : List Notice),
      (d.world : World Airdrop.State).clock = env.now → (∀ c ∈ p.claims, 0 < c.claimQuant.amount) →
      Paying a planId p ns → ∃ w', takeAll a depth ((deployment a).signed env (a.account .airdrop)) ns
        (Function.update w .airdrop d) = .ok w') :
    ∃ w', (deployment a).transact (depth + 1) w (claimFor a env planId claimer) = .ok w' := by
  unfold Actor.stepAlone at hairdrop
  split at hairdrop
  · next v₁ outs hactor =>
    obtain ⟨hclock, -, hpos, houts, hpaying⟩ := paying_of_order hfound hactor
    have hnotices : ∃ messages, (deployment a).notices env (a.account .airdrop) outs = .ok messages := by
      apply Deployment.notices_of_valid
      intro t ht
      rw [houts] at ht
      obtain ⟨c, hc, rfl⟩ := List.mem_map.mp ht
      exact hvalid c hc
    obtain ⟨messages, hnotices⟩ := hnotices
    obtain ⟨-, ns, hns, rfl⟩ := hpaying hnotices
    have hhandle : (deployment a).handle .airdrop (w .airdrop) (claimFor a env planId claimer).2
        = .ok (⟨v₁, _, _⟩, _) := Deployment.handle_eq_ok.mpr ⟨outs, hactor, hnotices, rfl, rfl⟩
    obtain ⟨w', hw'⟩ := hsplit ⟨v₁, _, _⟩ ns hclock hpos hns
    refine ⟨w', Network.deliver_succ_eq_ok.mpr ⟨_, _, hhandle, ?_⟩⟩
    rw [List.foldlM_map]
    exact hw'
  · cases hairdrop

/-- In every state that the four contracts reach together, a claim of flon.airdrop for flon.split is
carried out exactly when flon.airdrop accepts it alone, the number of the plan fits an `int`, and
flon.split stores a plan of that number that can take what each rule pays. The receivers of the plan
are then credited their shares of every token. -/
theorem claim_through_split
    (hrun : Transition.Run ((deployment a).transact depth) (deployment a).External (genesis a clock)
      ms w) (htimely : Timely a w env.now) (hid : planId < 2 ^ 64)
    (hfound : (w .airdrop).world.state.plans.find? planId = some p) :
    ((∃ w', (deployment a).transact 4 w (claimFor a env planId claimer) = .ok w') ↔
      (∃ v, (contracts a .airdrop).stepAlone (w .airdrop).world (claimFor a env planId claimer).2
        = .ok v) ∧ planId < 2 ^ 31 ∧
      ∃ plan, (w .split).world.state.plans.find? planId = some plan ∧ ∀ c ∈ p.claims,
        c.claimQuant.isValid ∧
        Accepts a plan c.symb c.claimQuant.amount (w .split).world.state) ∧
    ∀ w', (deployment a).transact 4 w (claimFor a env planId claimer) = .ok w' →
      ∃ plan, (w .split).world.state.plans.find? planId = some plan ∧
        ∀ c ∈ p.claims, Credited a plan c.symb c.claimQuant.amount w w' := by
  obtain ⟨is, hsplit⟩ := split_of_run hrun
  have hw := Split.solvent_of_run hsplit
  have hconf := Split.plansChecked_of_run hsplit
  have hkept : ∀ d, Function.update w .airdrop d .split = w .split :=
    fun d => Function.update_of_ne (by decide) d w
  have htimely' : ∀ d : (deployment a).State .airdrop, (d.world : World Airdrop.State).clock = env.now →
      Timely a (Function.update w .airdrop d)
        ((deployment a).signed env (a.account .airdrop)).now := by
    intro d hd
    refine ⟨?_, ?_⟩
    · rw [Function.update_self]
      exact hd.le
    · rw [hkept]
      exact htimely.split
  -- what flon.split makes of the payments for one of its plans
  have hpayments : ∀ (d : (deployment a).State .airdrop) (ns : List Notice)
      (plan : Split.TokenSplitPlan), (d.world : World Airdrop.State).clock = env.now →
      (∀ c ∈ p.claims, 0 < c.claimQuant.amount) → Paying a planId p ns → planId < 2 ^ 31 →
      (w .split).world.state.plans.find? planId = some plan →
      ((∃ w', takeAll a 3 ((deployment a).signed env (a.account .airdrop)) ns
          (Function.update w .airdrop d) = .ok w') ↔
        ∀ c ∈ p.claims, Accepts a plan c.symb c.claimQuant.amount (w .split).world.state) ∧
      ∀ w', takeAll a 3 ((deployment a).signed env (a.account .airdrop)) ns
          (Function.update w .airdrop d) = .ok w' →
        ∀ c ∈ p.claims, Credited a plan c.symb c.claimQuant.amount w w' := by
    intro d ns plan hd hpos hns hint hplan
    obtain ⟨hmem, hplanId⟩ := Table.find?_eq_some.mp hplan
    rw [← hplanId] at hplan
    have hcredited : ∀ x q w', Credited a plan x q (Function.update w .airdrop d) w' ↔
        Credited a plan x q w w' := by
      intro x q w'
      unfold Credited credit
      rw [hkept]
    have hsolvent : Split.Solvent (Function.update w .airdrop d .split).world := (hkept d).symm ▸ hw
    have hfind : (Function.update w .airdrop d .split).world.state.plans.find? plan.id = some plan :=
      (hkept d).symm ▸ hplan
    have hchecked := hconf plan hmem
    have hnow := htimely' d hd
    refine ⟨(transact_payments hsolvent hchecked hfind hnow (hns.forPlan hplanId hint hpos)
      hns.distinct).1.trans ?_, fun w' hw' c hc => ?_⟩
    · rw [hkept]
      exact hns.forall_iff (P := fun x q => Accepts a plan x q (w .split).world.state)
    · have hall := (transact_payments hsolvent hchecked hfind hnow (hns.forPlan hplanId hint hpos)
        hns.distinct).2 w' hw'
      rw [← hcredited]
      exact (hns.forall_iff (P := fun x q => Credited a plan x q _ w')).mp hall c hc
  have hstored : ∀ (d : (deployment a).State .airdrop) (ns : List Notice) w',
      p.claims.rows ≠ [] → Paying a planId p ns →
      takeAll a 3 ((deployment a).signed env (a.account .airdrop)) ns
        (Function.update w .airdrop d) = .ok w' →
      planId < 2 ^ 31 ∧ ∃ plan, (w .split).world.state.plans.find? planId = some plan := by
    intro d ns w' hrules hns h
    have hplan := hns.plan hrules hid h
    rw [hkept] at hplan
    exact hplan
  constructor
  · constructor
    · rintro ⟨w', h⟩
      obtain ⟨d, ns, hairdrop, hclock, hrules, hpos, hvalid, hns, htaken⟩ := of_transact_claim hfound h
      obtain ⟨hint, plan, hplan⟩ := hstored d ns w' hrules hns htaken
      have haccepts := (hpayments d ns plan hclock hpos hns hint hplan).1.mp ⟨w', htaken⟩
      exact ⟨⟨_, hairdrop⟩, hint, plan, hplan, fun c hc => ⟨hvalid c hc, haccepts c hc⟩⟩
    · rintro ⟨⟨v, hairdrop⟩, hint, plan, hplan, hrules⟩
      refine transact_claim hfound hairdrop (fun c hc => (hrules c hc).1) fun d ns hclock hpos hns => ?_
      exact (hpayments d ns plan hclock hpos hns hint hplan).1.mpr fun c hc => (hrules c hc).2
  · intro w' h
    obtain ⟨d, ns, -, hclock, hrules, hpos, -, hns, htaken⟩ := of_transact_claim hfound h
    obtain ⟨hint, plan, hplan⟩ := hstored d ns w' hrules hns htaken
    exact ⟨plan, hplan, (hpayments d ns plan hclock hpos hns hint hplan).2 w' htaken⟩

end Claims

/-! ## A claim for two receivers -/

namespace Sample

/-- Alice adds a plan to flon.split, and an airdrop plan with two rules is set up. -/
def claimInputs : List (deployment accounts).Message :=
  ⟨.split, signed alice 100,
    .act (.addplan alice "equal".toList [⟨bob, 5000⟩, ⟨carol, 5000⟩] true)⟩ ::
  (Airdrop.Sample.setup ++ Airdrop.Sample.rules).map fun i =>
    ⟨.airdrop, { Blindbox.Sample.env with toCtx := i.1 }, i.2⟩

def claiming : (deployment accounts).Message :=
  claimFor accounts (signed Airdrop.Sample.oracle 101) 1 Airdrop.Sample.oracle

/-- The claim pays 10 FLON and 5 SING, of which the first receiver gets the odd unit. -/
theorem claim_through_split_sample :
    ∃ w w', Transition.Run ((deployment accounts).transact 4) (deployment accounts).External
        (genesis accounts (.ofDays 100)) claimInputs w ∧
      (deployment accounts).transact 4 w claiming = .ok w' ∧
      ∃ plan, (w .split).world.state.plans.find? 1 = some plan ∧
        plan.splitConf.map (fun p => credit accounts plan Airdrop.Sample.sing w' p.tokenReceiver
          - credit accounts plan Airdrop.Sample.sing w p.tokenReceiver) = [3, 2] := by
  have hreach : Transition.Reaches ((deployment accounts).transact 4) (deployment accounts).External
      (fun w => ((w .airdrop).world.clock ≤ (signed Airdrop.Sample.oracle 101).now ∧
          (w .split).world.clock ≤ (signed Airdrop.Sample.oracle 101).now) ∧
        (∃ p ∈ (w .airdrop).world.state.plans.find? 1,
          ∃ c ∈ p.claims.find? (Airdrop.claimKey Airdrop.Sample.sing), c.symb = Airdrop.Sample.sing ∧
            c.claimQuant.amount = 5) ∧
        ((w .split).world.state.plans.find? 1).map
            (fun plan => Apportion.topUp 5 (Split.loopShares 5 plan.splitConf)) = some [3, 2] ∧
        Transition.Succeeds ((deployment accounts).transact 4 w claiming) fun _ => True)
      claimInputs (genesis accounts (.ofDays 100)) := by decide
  obtain ⟨w, hrun, ⟨hairdrop, hsplit⟩, ⟨p, hp, c, hc, hsymb, hquant⟩, hshares, hclaim⟩ :=
    Transition.run_of_reaches hreach
  obtain ⟨w', hw', -⟩ := Transition.succeeds_iff.mp hclaim
  obtain ⟨plan, hplan, hall⟩ :=
    (claim_through_split hrun ⟨hairdrop, hsplit⟩ (by decide) hp).2 w' hw'
  have hcredited := hall c (Table.find?_eq_some.mp hc).1
  rw [hplan] at hshares
  rw [hquant, hsymb] at hcredited
  exact ⟨w, w', hrun, hw', plan, hplan, hcredited.trans (Option.some.inj hshares)⟩

end Sample
end Suite
end ToolkitContracts
