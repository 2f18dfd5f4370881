import ToolkitContracts.Suite.Relays
import ToolkitContracts.Vest.Fees

/-!
# Fees that flon.split distributes

The fee of a plan of flon.vest is forwarded with its memo. Where the fee receiver is flon.split, that
memo is read twice: flon.vest finds the plan to enable in it, and flon.split the plan under which
the fee is distributed.
-/

namespace ToolkitContracts
namespace Suite

open Blindbox (Env)

/-! ## One memo, two readers -/

section Memos
variable {n : Notice} {s s' : Vest.State} {outs : List Transfer} {ctx : Ctx} {planId k : ℕ}

/-- The two contracts read the same number, as far as flon.split can read it. -/
theorem memoPlan_of_fee (hmemo : n.memo.length ≤ npos) (hnames : Vest.NamesPlan s n planId) :
    Split.memoPlan ctx n.memo = .ok k ↔
      (∃ j, stoi ((Split.memoFields n.memo).getD 1 []) = .ok j) ∧ k = planId := by
  obtain ⟨head, param, hsplit, hhead, hparam⟩ := hnames
  have hfields : Split.memoFields n.memo = [head.chars, param.chars] := by
    rw [Split.memoFields, hsplit]
    rfl
  -- what `stoi` reads from the number is what `strtoull` has read
  have hword : ∀ j, stoi param.chars = .ok j → u64 j = planId := by
    intro j hj
    obtain ⟨⟨neg, m⟩, hscan, hrange, rfl⟩ := stoi_eq_ok.mp hj
    rcases hparam with ⟨-, hnumber⟩ | ⟨hempty, -⟩
    · have hends : param.EndsAt ':' := by
        apply (StringView.split_spec hmemo ':').2
        rw [hsplit]
        simp
      have hvalue : strtoull param.chars = (planId, false) := by
        rw [← hends.strtoull (by decide)]
        exact toUint64_eq_ok.mp hnumber
      rw [strtoull, hscan] at hvalue
      dsimp only at hvalue
      split at hvalue
      · exact congrArg Prod.fst hvalue
      · cases congrArg Prod.snd hvalue
    · have hnil : param.chars = [] :=
        List.length_eq_zero_iff.mp ((StringView.length_chars param).trans hempty)
      rw [hnil] at hscan
      cases hscan
  rw [Split.memoPlan_eq_ok (by rw [hfields]; exact le_refl 2)]
  constructor
  · rintro ⟨-, j, hj, rfl⟩
    have hid := hj.planId
    refine ⟨⟨j, hid⟩, ?_⟩
    rw [hfields] at hid
    exact hword j hid
  · rintro ⟨⟨j, hj⟩, rfl⟩
    refine ⟨?_, j, ⟨hj, fun hthree => ?_⟩, ?_⟩
    · rw [Split.NamesPlan, hfields]
      show Name.ofText head.chars = _
      rw [hhead]
      decide
    · rw [hfields] at hthree
      cases hthree
    · rw [hfields] at hj
      exact hword j hj

end Memos

/-! ## A fee and its distribution -/

section Fees
variable {a : Accounts} {clock : TimePoint} {depth planId : ℕ} {env : Env} {n : Notice}
  {w w' : States a} {ms : List (deployment a).Message}

/-- The transfer by which flon.vest forwards a fee. -/
def relayed (a : Accounts) (n : Notice) : Notice :=
  ⟨n.bank, a.account .vest, a.account .split, n.quantity, n.memo, n.valid⟩

/-- flon.split is notified of the fee that flon.vest takes. -/
theorem notices_of_fee {s s' : Vest.State} {outs : List Transfer}
    (hpaid : Vest.paidPlan (a.account .vest) s n = some planId)
    (hreceiver : s.gstate.feeReceiver = a.account .split)
    (h : Vest.ontransfer (a.account .vest) env.toCtx n s = .ok (s', outs)) :
    0 < n.quantity.amount ∧ (deployment a).notices env (a.account .vest) outs
      = .ok [⟨.split, (deployment a).signed env (a.account .vest), .notify (relayed a n)⟩] := by
  obtain ⟨hpays, -, -⟩ := Vest.paysFee_of_ontransfer h hpaid
  constructor
  · rw [Vest.paidPlan] at hpaid
    rw [Vest.ontransfer] at h
    split at hpaid
    · cases hpaid
    · next hself =>
      rw [if_neg hself] at h
      simp only [bind_eq_ok, check_eq_ok, exists_const] at h
      exact h.1
  · rw [hpays.forwarded, hreceiver]
    exact Deployment.notices_singleton (a.party?_eq_some.mpr rfl) n.valid

/-- A fee is taken by flon.vest and then by flon.split. -/
theorem of_transact_fee (hpaid : Vest.paidPlan (a.account .vest) (w .vest).world.state n = some planId)
    (hreceiver : (w .vest).world.state.gstate.feeReceiver = a.account .split)
    (h : (deployment a).transact (depth + 1) w ⟨.vest, env, .notify n⟩ = .ok w') :
    ∃ d : (deployment a).State .vest,
      (contracts a .vest).stepAlone (w .vest).world (env, .notify n) = .ok d.world ∧
      Vest.PaysFee (w .vest).world.state n planId d.world.state
        [⟨n.bank, a.account .split, n.quantity, n.memo⟩] ∧ 0 < n.quantity.amount ∧
      (deployment a).transact depth (Function.update w .vest d)
        ⟨.split, (deployment a).signed env (a.account .vest), .notify (relayed a n)⟩ = .ok w' := by
  obtain ⟨d, messages, hhandle, hsent⟩ := Network.deliver_succ_eq_ok.mp h
  obtain ⟨outs, hactor, hnotices, -, -⟩ := Deployment.handle_eq_ok.mp hhandle
  have hstep : (contracts a .vest).step (w .vest).world (env, .notify n) = .ok (d.world, outs) :=
    hactor
  obtain ⟨-, hrun⟩ := Contract.order_eq_ok.mp hactor
  obtain ⟨hpos, hone⟩ := notices_of_fee hpaid hreceiver hrun
  obtain rfl := Except.ok.inj (hnotices.symm.trans hone)
  obtain ⟨hpays, -, -⟩ := Vest.paysFee_of_ontransfer hrun hpaid
  have houts := hpays.forwarded
  rw [hreceiver] at houts
  refine ⟨d, ?_, houts ▸ hpays, hpos, ?_⟩
  · unfold Actor.stepAlone
    rw [hstep]
  · rw [Network.foldlM_singleton] at hsent
    exact hsent

theorem transact_fee (hpaid : Vest.paidPlan (a.account .vest) (w .vest).world.state n = some planId)
    (hreceiver : (w .vest).world.state.gstate.feeReceiver = a.account .split) {v : World Vest.State}
    (hvest : (contracts a .vest).stepAlone (w .vest).world (env, .notify n) = .ok v)
    (hsplit : Vest.NamesPlan (w .vest).world.state n planId → 0 < n.quantity.amount → ∀ d, ∃ w',
      (deployment a).transact depth (Function.update w .vest d)
        ⟨.split, (deployment a).signed env (a.account .vest), .notify (relayed a n)⟩ = .ok w') :
    ∃ w', (deployment a).transact (depth + 1) w ⟨.vest, env, .notify n⟩ = .ok w' := by
  unfold Actor.stepAlone at hvest
  split at hvest
  · next v₁ outs hactor =>
    obtain ⟨-, hrun⟩ := Contract.order_eq_ok.mp hactor
    obtain ⟨hpos, hone⟩ := notices_of_fee hpaid hreceiver hrun
    obtain ⟨hpays, -, -⟩ := Vest.paysFee_of_ontransfer hrun hpaid
    have hhandle : (deployment a).handle .vest (w .vest) (env, .notify n) = .ok (⟨v₁, _, _⟩, _) :=
      Deployment.handle_eq_ok.mpr ⟨outs, hactor, hone, rfl, rfl⟩
    obtain ⟨w', hw'⟩ := hsplit hpays.names hpos _
    refine ⟨w', Network.deliver_succ_eq_ok.mpr ⟨_, _, hhandle, ?_⟩⟩
    rw [Network.foldlM_singleton]
    exact hw'
  · cases hvest

/-- In every state that the four contracts reach together, a fee whose receiver is flon.split is
paid exactly when flon.vest accepts it alone, the number in its memo fits an `int`, and flon.split
stores a plan of the same number that can take it. The plan of flon.vest is then enabled, and the
receivers of the plan of flon.split are credited their shares of the fee. -/
theorem fee_through_split
    (hrun : Transition.Run ((deployment a).transact depth) (deployment a).External (genesis a clock)
      ms w) (htimely : Timely a w env.now) (hmemo : n.memo.length ≤ npos)
    (hpaid : Vest.paidPlan (a.account .vest) (w .vest).world.state n = some planId)
    (hreceiver : (w .vest).world.state.gstate.feeReceiver = a.account .split) :
    ((∃ w', (deployment a).transact 4 w ⟨.vest, env, .notify n⟩ = .ok w') ↔
      (∃ v, (contracts a .vest).stepAlone (w .vest).world (env, .notify n) = .ok v) ∧
      (∃ j, stoi ((Split.memoFields n.memo).getD 1 []) = .ok j) ∧
      ∃ plan, (w .split).world.state.plans.find? planId = some plan ∧
        Accepts a plan n.token n.quantity.amount (w .split).world.state) ∧
    ∀ w', (deployment a).transact 4 w ⟨.vest, env, .notify n⟩ = .ok w' →
      Vest.pendingOf (w' .vest).world.state.plans planId = some false ∧
      ∃ plan, (w .split).world.state.plans.find? planId = some plan ∧
        Credited a plan n.token n.quantity.amount w w' := by
  obtain ⟨is, hsplit⟩ := split_of_run hrun
  have hw := Split.solvent_of_run hsplit
  have hconf := Split.plansChecked_of_run hsplit
  have hkept : ∀ d, Function.update w .vest d .split = w .split :=
    fun d => Function.update_of_ne (by decide) d w
  have htimely' : ∀ d, Timely a (Function.update w .vest d)
      ((deployment a).signed env (a.account .vest)).now := by
    intro d
    refine ⟨?_, ?_⟩
    · rw [Function.update_of_ne (by decide)]
      exact htimely.airdrop
    · rw [hkept]
      exact htimely.split
  have hsender : a.account .vest ≠ a.account .split := by
    intro hsame
    cases a.injective _ _ hsame
  -- what flon.split makes of the fee
  have hdown : ∀ d w', Vest.NamesPlan (w .vest).world.state n planId → 0 < n.quantity.amount →
      (deployment a).transact 3 (Function.update w .vest d)
        ⟨.split, (deployment a).signed env (a.account .vest), .notify (relayed a n)⟩ = .ok w' →
      (∃ j, stoi ((Split.memoFields n.memo).getD 1 []) = .ok j) ∧
      ∃ plan, (w .split).world.state.plans.find? planId = some plan ∧
        Accepts a plan n.token n.quantity.amount (w .split).world.state ∧
        Distributed a plan (relayed a n) (Function.update w .vest d) w' := by
    intro d w' hnames hpos h
    obtain ⟨plan, hplanMemo, hplan⟩ := plan_of_transact hsender rfl h
    obtain ⟨hint, hid⟩ := (memoPlan_of_fee hmemo hnames).mp hplanMemo
    rw [hkept] at hplan
    have hsolvent : Split.Solvent (Function.update w .vest d .split).world := (hkept d).symm ▸ hw
    have hchecked := hconf plan (Table.find?_eq_some.mp hplan).1
    have hfind : (Function.update w .vest d .split).world.state.plans.find? plan.id = some plan :=
      (hkept d).symm ▸ hplan
    obtain ⟨hiff, hdistributed⟩ :=
      transact_split hsolvent hchecked hfind (htimely' d) hsender rfl hplanMemo hpos
    have haccepts := hiff.mp ⟨w', h⟩
    rw [hkept] at haccepts
    rw [hid] at hplan
    exact ⟨hint, plan, hplan, haccepts, (hdistributed w' h).1⟩
  constructor
  · constructor
    · rintro ⟨w', h⟩
      obtain ⟨d, hvest, hpays, hpos, hsent⟩ := of_transact_fee hpaid hreceiver h
      obtain ⟨hint, plan, hplan, haccepts, -⟩ := hdown d w' hpays.names hpos hsent
      exact ⟨⟨_, hvest⟩, hint, plan, hplan, haccepts⟩
    · rintro ⟨⟨v, hvest⟩, hint, plan, hplan, haccepts⟩
      refine transact_fee hpaid hreceiver hvest fun hnames hpos d => ?_
      obtain rfl := (Table.find?_eq_some.mp hplan).2
      have hrelayed : 0 < (relayed a n).quantity.amount := hpos
      apply (transact_payment ((hkept d).symm ▸ hw) ((hkept d).symm ▸ hconf) (htimely' d) hsender rfl
        hrelayed).mpr
      rw [hkept]
      exact ⟨plan, (memoPlan_of_fee hmemo hnames).mpr ⟨hint, rfl⟩, hplan, haccepts⟩
  · intro w' h
    obtain ⟨d, -, hpays, hpos, hsent⟩ := of_transact_fee hpaid hreceiver h
    obtain ⟨-, plan, hplan, -, hdistributed⟩ := hdown d w' hpays.names hpos hsent
    refine ⟨?_, plan, hplan, ?_⟩
    · rw [hdistributed.vest, Function.update_self]
      exact hpays.after
    · have hcredits := hdistributed.credits
      unfold Credited credit at hcredits ⊢
      rw [hkept] at hcredits
      exact hcredits

end Fees

/-! ## The fee of the sample -/

namespace Sample

/-- The odd unit of the fee goes to the first receiver. -/
theorem fee_through_split_sample :
    ∃ w w', Transition.Run ((deployment accounts).transact 4) (deployment accounts).External
        (genesis accounts (.ofDays 100)) inputs w ∧
      (deployment accounts).transact 4 w ⟨.vest, signed alice 100, .notify fee⟩ = .ok w' ∧
      Vest.pendingOf (w' .vest).world.state.plans 1 = some false ∧
      ∃ plan, (w .split).world.state.plans.find? 1 = some plan ∧
        plan.splitConf.map (fun p => credit accounts plan fee.token w' p.tokenReceiver
            - credit accounts plan fee.token w p.tokenReceiver) = [51, 50] := by
  have hreach : Transition.Reaches ((deployment accounts).transact 4) (deployment accounts).External
      (fun w => ((w .airdrop).world.clock ≤ (signed alice 100).now ∧
          (w .split).world.clock ≤ (signed alice 100).now) ∧
        Vest.paidPlan (accounts.account .vest) (w .vest).world.state fee = some 1 ∧
        (w .vest).world.state.gstate.feeReceiver = accounts.account .split ∧
        ((w .split).world.state.plans.find? 1).map
            (fun plan => Apportion.topUp 101 (Split.loopShares 101 plan.splitConf))
          = some [51, 50] ∧
        Transition.Succeeds ((deployment accounts).transact 4 w
          ⟨.vest, signed alice 100, .notify fee⟩) fun _ => True)
      inputs (genesis accounts (.ofDays 100)) := by decide
  obtain ⟨w, hrun, ⟨hairdrop, hsplit⟩, hpaid, hreceiver, hshares, hfee⟩ :=
    Transition.run_of_reaches hreach
  obtain ⟨w', hw', -⟩ := Transition.succeeds_iff.mp hfee
  have hresult := fee_through_split hrun ⟨hairdrop, hsplit⟩ (by decide) hpaid hreceiver
  obtain ⟨henabled, plan, hplan, hcredits⟩ := hresult.2 w' hw'
  rw [hplan] at hshares
  exact ⟨w, w', hrun, hw', henabled, plan, hplan, hcredits.trans (Option.some.inj hshares)⟩

end Sample
end Suite
end ToolkitContracts
