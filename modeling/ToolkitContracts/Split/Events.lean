import ToolkitContracts.Lib.Noting
import ToolkitContracts.Split.Proportion

/-!
# The events of a split

For every share that the loop of `_split` hands on, it sends a `notifyplan` action with what the
receiver gets. What the rates leave over is handed to the first receiver without one. So the events
tell what everybody was credited exactly when nothing is left over, and that is when every rate
gives a whole number of units.
-/

namespace ToolkitContracts
namespace Split

/-- `plan_event_t`. -/
structure PlanEvent where
  planId : ℕ
  issuer : Name
  receiver : Name
  contract : Name
  baseQuantity : Asset
  divideQuantity : Asset
  rate : ℕ

section Notifying
variable (ctx : Ctx) (plan : TokenSplitPlan) (bank issuer : Name) (quant : Asset)

/-- The loop of `_split`, with the events that it sends noted. -/
def splitFromNotifying : List SplitUnit → Asset → Table Wallet.key × List Transfer →
    Noting PlanEvent Abort (Asset × Table Wallet.key × List Transfer)
  | [], currentQuant, acc => return (currentQuant, acc)
  | p :: confs, currentQuant, acc => do
    let tokens ← share quant p.tokenSplitAmount
    if tokens.amount ≤ 0 then return (currentQuant, acc)
    else do
      checkc (tokens.amount ≤ currentQuant.amount) Err.rateOverload.code
        "Insufficient distribution balance"
      Noting.note {
        issuer
        planId := plan.id
        receiver := p.tokenReceiver
        contract := bank
        baseQuantity := quant
        divideQuantity := tokens
        rate := p.tokenSplitAmount }
      let acc ← give ctx plan bank p.tokenReceiver tokens acc
      let currentQuant ← currentQuant.sub tokens
      splitFromNotifying confs currentQuant acc

end Notifying

/-- `_split`, with the events that it sends noted: none for the remainder. -/
def splitNotifying (ctx : Ctx) (bank issuer : Name) (planId : ℕ) (quant : Asset) (s : State) :
    Noting PlanEvent Abort (Effect State) := do
  let plan ← require (s.plans.find? planId) Err.recordNotFound.code "plan not found"
  let (currentQuant, acc) ←
    splitFromNotifying ctx plan bank issuer quant plan.splitConf quant (s.wallets, [])
  let first ← require plan.splitConf.head? none "split_conf is empty"
  let (wallets, outs) ← giveRest ctx plan bank first.tokenReceiver currentQuant acc
  return ({ s with wallets }, outs)

/-- What the events say that the account `r` gets. -/
def announced (r : Name) (events : List PlanEvent) : ℤ :=
  ((events.filter fun e => decide (e.receiver = r)).map fun e => e.divideQuantity.amount).sum

/-- The events tell what every account was credited of the token `x`, and together what was
split. -/
structure Accounted (plan : TokenSplitPlan) (x : ExtendedSymbol) (s : State) (e : Effect State)
    (events : List PlanEvent) (quant : Asset) : Prop where
  receivers : ∀ r, announced r events = credited plan x s e r
  total : (events.map fun event => event.divideQuantity.amount).sum = quant.amount

section Events
variable {ctx : Ctx} {plan : TokenSplitPlan} {bank issuer : Name} {q currentQuant rest : Asset}
  {confs : List SplitUnit} {acc acc' : Table Wallet.key × List Transfer}
  {events events' : List PlanEvent}

/-- The loop announces what it hands on, one event for each share. -/
theorem splitFromNotifying_spec
    (h : (splitFromNotifying ctx plan bank issuer q confs currentQuant acc).runFrom events
      = (.ok (rest, acc'), events')) :
    ∃ gifts added, sharesFrom q confs currentQuant = .ok (rest, gifts) ∧
      giveAll ctx plan bank gifts acc = .ok acc' ∧ events' = events ++ added ∧
      added.map (fun e => (e.receiver, e.divideQuantity)) = gifts := by
  induction confs generalizing currentQuant acc events with
  | nil =>
    obtain ⟨⟩ := h
    exact ⟨[], [], rfl, rfl, (List.append_nil _).symm, rfl⟩
  | cons p confs ih =>
    simp only [splitFromNotifying, Noting.runFrom_bind_eq_ok, Noting.runFrom_lift_eq_ok] at h
    obtain ⟨tokens, _, ⟨htokens, rfl⟩, h⟩ := h
    split at h
    · -- an empty share ends the loop
      next hempty =>
      obtain ⟨⟩ := h
      refine ⟨[], [], ?_, rfl, (List.append_nil _).symm, rfl⟩
      rw [sharesFrom, htokens, ok_bind, if_pos hempty]
    · next hpos =>
      simp only [Noting.runFrom_bind_eq_ok, Noting.runFrom_lift_eq_ok, Noting.runFrom_note_eq_ok,
        checkc_eq_ok] at h
      obtain ⟨_, _, ⟨hle, rfl⟩, _, _, rfl, acc₁, _, ⟨hgive, rfl⟩, next, _, ⟨hnext, rfl⟩, h⟩ := h
      obtain ⟨gifts, added, hgifts, hall, rfl, hadded⟩ := ih h
      refine ⟨(p.tokenReceiver, tokens) :: gifts, _ :: added, ?_, ?_, List.append_assoc .., ?_⟩
      · rw [sharesFrom, htokens, ok_bind, if_neg hpos, checkc_of hle, hnext, ok_bind, hgifts]
        rfl
      · rw [giveAll, hgive]
        exact hall
      · rw [List.map_cons, hadded]

/-- Without its events the loop is that of `_split`. -/
theorem splitFromNotifying_erases (confs : List SplitUnit) (currentQuant : Asset)
    (acc : Table Wallet.key × List Transfer) :
    (splitFromNotifying ctx plan bank issuer q confs currentQuant acc).Erases
      (splitFrom ctx plan bank q confs currentQuant acc) := by
  induction confs generalizing currentQuant acc with
  | nil => exact fun _ => rfl
  | cons p confs ih =>
    rw [splitFromNotifying, splitFrom]
    refine (Noting.erases_lift _).bind fun tokens _ => ?_
    split
    · exact fun _ => rfl
    · refine (Noting.erases_lift _).bind fun _ _ => Noting.Erases.note_bind ?_
      exact (Noting.erases_lift _).bind fun acc₁ _ => (Noting.erases_lift _).bind fun next _ =>
        ih next acc₁

/-- Without its events the action is `_split`. -/
theorem splitNotifying_erases (ctx : Ctx) (bank issuer : Name) (planId : ℕ) (q : Asset) (s : State) :
    (splitNotifying ctx bank issuer planId q s).Erases (split ctx bank planId q s) := by
  rw [splitNotifying, split]
  refine (Noting.erases_lift _).bind fun plan _ => ?_
  refine (splitFromNotifying_erases plan.splitConf q (s.wallets, [])).bind fun r _ => ?_
  exact (Noting.erases_lift _).bind fun first _ => (Noting.erases_lift _).bind fun acc _ _ => rfl

/-- The action announces the shares of the loop, hands them on, and then hands on the rest. -/
theorem splitNotifying_spec {s : State} {e : Effect State}
    (hplan : s.plans.find? plan.id = some plan)
    (h : (splitNotifying ctx bank issuer plan.id q s).runFrom [] = (.ok e, events)) :
    ∃ rest gifts first wallets, sharesFrom q plan.splitConf q = .ok (rest, gifts) ∧
      plan.splitConf.head? = some first ∧
      giveAll ctx plan bank (gifts ++ if 0 < rest.amount then [(first.tokenReceiver, rest)] else [])
        (s.wallets, []) = .ok (wallets, e.2) ∧
      e = ({ s with wallets }, e.2) ∧
      events.map (fun e => (e.receiver, e.divideQuantity)) = gifts := by
  simp only [splitNotifying, Noting.runFrom_bind_eq_ok, Noting.runFrom_lift_eq_ok, require_eq_ok] at h
  obtain ⟨plan', _, ⟨hplan', rfl⟩, ⟨rest, acc⟩, noted, hloop, first, _, ⟨hfirst, rfl⟩,
    ⟨wallets, outs⟩, _, ⟨hrest, rfl⟩, h⟩ := h
  obtain rfl : plan = plan' := Option.some.inj (hplan.symm.trans hplan')
  obtain ⟨⟩ := h
  obtain ⟨gifts, added, hgifts, hall, hevents, hadded⟩ := splitFromNotifying_spec hloop
  refine ⟨rest, gifts, first, wallets, hgifts, hfirst, ?_, rfl, ?_⟩
  · rw [giveAll_append_eq_ok]
    refine ⟨acc, hall, ?_⟩
    rw [giveRest] at hrest
    split at hrest
    · next hpos =>
      rw [if_pos hpos, giveAll, hrest]
      rfl
    · next hnone =>
      rw [if_neg hnone]
      exact hrest
  · rw [hevents]
    exact hadded

/-- What the events announce to an account is what the transfers of the announced shares move to
it. -/
theorem announced_eq_paidTo {gifts : List (Name × Asset)}
    (hgifts : events.map (fun e => (e.receiver, e.divideQuantity)) = gifts)
    (hsymbol : ∀ g ∈ gifts, g.2.symbol = q.symbol) (r : Name) :
    announced r events = paidTo r ⟨q.symbol, bank⟩ (forwards bank gifts) := by
  induction events generalizing gifts with
  | nil =>
    rw [← hgifts]
    rfl
  | cons e events ih =>
    rw [List.map_cons] at hgifts
    subst hgifts
    have hrest := ih rfl fun g hg => hsymbol g (List.mem_cons_of_mem _ hg)
    have htoken : (⟨bank, e.receiver, e.divideQuantity, []⟩ : Transfer).token = ⟨q.symbol, bank⟩ := by
      rw [Transfer.token, hsymbol _ (List.mem_cons_self ..)]
    rw [forwards, List.map_cons, paidTo_cons, if_pos htoken]
    show _ = _ + paidTo r ⟨q.symbol, bank⟩ (forwards bank _)
    rw [← hrest, announced, List.filter_cons]
    by_cases hr : e.receiver = r
    · rw [if_pos (decide_eq_true hr), if_pos hr, List.map_cons, List.sum_cons]
      rfl
    · rw [if_neg (by simp [hr]), if_neg hr, zero_add]
      rfl

end Events

/-! ## What the remainder does -/

section Exact
variable {amount : ℤ} {rate : ℕ}

/-- A share is all of its proportion exactly when the product fits 64 bits and has a whole number
of units. -/
theorem shareAmount_mul_eq (hq : 0 ≤ amount) :
    shareAmount amount rate * pctBoost = amount * rate ↔
      amount * rate < 2 ^ 64 ∧ 10000 ∣ amount * rate := by
  have hprod : 0 ≤ amount * rate := mul_nonneg hq (Int.natCast_nonneg _)
  rw [shareAmount_eq, pctBoost]
  omega

/-- The loop leaves nothing exactly when every share is all of its proportion. -/
theorem sum_loopShares_eq {confs : List SplitUnit} (hconf : RatesChecked confs)
    (hpos : 0 < amount) :
    (loopShares amount confs).sum = amount ↔
      ∀ r ∈ rates confs, amount * r < 2 ^ 64 ∧ 10000 ∣ amount * r := by
  rw [loopShares, Apportion.sum_untilZero_eq_iff (D := pctBoost)]
  · exact forall_congr' fun r => forall_congr' fun _ => shareAmount_mul_eq hpos.le
  · exact Nat.lt_of_sub_eq_succ rfl
  · exact hpos
  · exact hconf.total
  · exact hconf.pos
  · exact fun r _ => shareAmount_nonneg amount r
  · exact fun r _ => shareAmount_mul_le hpos.le

end Exact

section Main
variable {account : Name} {ctx : Ctx} {plan : TokenSplitPlan} {bank issuer : Name} {q : Asset}
  {w : World State} {e : Effect State} {events : List PlanEvent}

/-- What every account is credited is what the events announce to it, and the rest for the first
receiver. -/
theorem credited_of_splitNotifying (hw : Solvent w) (hconf : RatesChecked plan.splitConf)
    (hplan : w.state.plans.find? plan.id = some plan) (hq : q.isValid) (hpos : 0 < q.amount)
    (h : (splitNotifying ctx bank issuer plan.id q w.state).runFrom [] = (.ok e, events)) :
    ∃ rest first, 0 ≤ rest ∧ (loopShares q.amount plan.splitConf).sum + rest = q.amount ∧
      (events.map fun event => event.divideQuantity.amount).sum + rest = q.amount ∧
      ∀ r, credited plan ⟨q.symbol, bank⟩ w.state e r
        = announced r events + if first = r then rest else 0 := by
  obtain ⟨rest, gifts, first, wallets, hloop, -, hgive, he, hevents⟩ := splitNotifying_spec hplan h
  have hshares : payments bank ⟨q.symbol, bank⟩ plan.splitConf gifts
        = loopShares q.amount plan.splitConf ∧
      (gifts.map fun g => g.2.amount).sum = (loopShares q.amount plan.splitConf).sum :=
    payments_of_sharesFrom hq hloop rfl ⟨hpos.le, hq.1.2⟩ hconf.distinct
  obtain ⟨hsymbol, hrest, hall, htotal⟩ := sharesFrom_spec hloop rfl ⟨hpos.le, hq.1.2⟩
  have hsum : (events.map fun event => event.divideQuantity.amount).sum
      = (gifts.map fun g => g.2.amount).sum := by
    rw [← hevents, List.map_map]
    rfl
  refine ⟨rest.amount, first.tokenReceiver, hrest, hshares.2 ▸ htotal, hsum ▸ htotal, fun r => ?_⟩
  -- what is handed on is in the range of an asset, since it is part of the quantity
  have hgifts : ∀ g ∈ gifts, 0 < g.2.amount := fun g hg => (hall g hg).2.1
  have hmax := hq.1.2
  have hrange : ∀ g ∈ gifts ++ (if 0 < rest.amount then [(first.tokenReceiver, rest)] else []),
      0 < g.2.amount ∧ g.2.amount ≤ Asset.maxAmount := by
    intro g hg
    rcases List.mem_append.mp hg with hg | hg
    · have hle := le_sum_of_mem hgifts hg
      exact ⟨hgifts g hg, by omega⟩
    · split at hg
      · next hrestPos =>
        rw [List.mem_singleton.mp hg]
        have hnonneg := sum_amounts_nonneg hgifts
        have hle : rest.amount ≤ Asset.maxAmount := by omega
        exact ⟨hrestPos, hle⟩
      · exact absurd hg List.not_mem_nil
  rw [he, credited_of_giveAll hw.sound hrange hgive, forwards, List.map_append, paidTo_append,
    announced_eq_paidTo hevents fun g hg => (hall g hg).1]
  refine congrArg _ ?_
  split
  · rw [List.map_singleton, paidTo_cons, paidTo_nil, add_zero, ← hsymbol]
    exact if_congr Iff.rfl (if_pos rfl) rfl
  · have hzero : rest.amount = 0 := by omega
    rw [hzero, ite_self]
    rfl

/-- Under every plan of a reachable state, `_split` sends its events and does what it does without
them; and when it accepts a positive quantity, its events tell what every account was credited
exactly when every rate gives a whole number of units. -/
theorem accounted_iff {clock : TimePoint} {is : List (Ctx × Input Action)}
    (hrun : Transition.Run (contract account).step Transition.Unrestricted (genesis clock) is w)
    (hplan : plan ∈ w.state.plans) (hq : q.isValid) (hpos : 0 < q.amount) (ctx : Ctx)
    (bank issuer : Name) :
    (splitNotifying ctx bank issuer plan.id q w.state).Erases (split ctx bank plan.id q w.state) ∧
    ∀ e, split ctx bank plan.id q w.state = .ok e →
      (Accounted plan ⟨q.symbol, bank⟩ w.state e
          (splitNotifying ctx bank issuer plan.id q w.state).notes q ↔
        ∀ r ∈ rates plan.splitConf, q.amount * r < 2 ^ 64 ∧ 10000 ∣ q.amount * r) := by
  have herases := splitNotifying_erases ctx bank issuer plan.id q w.state
  refine ⟨herases, fun e he => ?_⟩
  have hconf := plansChecked_of_run hrun plan hplan
  obtain ⟨rest, first, hrest, hshares, htotal, hcredited⟩ := credited_of_splitNotifying
    (solvent_of_run hrun) hconf (Table.find?_self hplan) hq hpos (herases.run_of_ok he)
  rw [← sum_loopShares_eq hconf hpos]
  constructor
  · intro hacc
    have htold := hacc.total
    omega
  · intro hexact
    have hzero : rest = 0 := by omega
    refine ⟨fun r => ?_, by omega⟩
    rw [hcredited, hzero, ite_self, add_zero]

end Main

/-! ## Sample events -/

namespace Sample

/-- The events of a split of the sample plan. -/
def eventsOf (amount : Int64Arg) : List PlanEvent :=
  (splitNotifying (.signed alice 101) bank alice 1 (.lit amount flon) skewed.state).notes

/-- Of 20000 units the rates of 0.01% and 99.99% give two units and 19998. -/
theorem accounted_iff_exact :
    ∃ e, split (.signed alice 101) bank 1 (.lit (int64 20000) flon) skewed.state = .ok e ∧
      Accounted skewedPlan ⟨flon, bank⟩ skewed.state e (eventsOf (int64 20000))
        (.lit (int64 20000) flon) := by
  have hreturns : Transition.Succeeds (split (.signed alice 101) bank 1 (.lit (int64 20000) flon)
      skewed.state) fun _ => True := by decide
  obtain ⟨e, he, -⟩ := Transition.succeeds_iff.mp hreturns
  have hexact : ∀ r ∈ rates skewedPlan.splitConf,
      (20000 : ℤ) * r < 2 ^ 64 ∧ (10000 : ℤ) ∣ 20000 * r := by decide
  exact ⟨e, he, ((@accounted_iff account skewedPlan (.lit (int64 20000) flon) skewed _ _ run_skewed
    (Table.mem_put_self _ skewedPlan) (by decide) (by decide) (.signed alice 101) bank alice).2
      e he).mpr hexact⟩

/-- Of 20001 units bob is told two, and gets three. -/
theorem not_accounted :
    ¬ ∀ (account : Name) (clock : TimePoint) (is : List (Ctx × Input Action)) (w : World State)
      (plan : TokenSplitPlan) (ctx : Ctx) (bank issuer : Name) (q : Asset) (e : Effect State),
      Transition.Run (contract account).step Transition.Unrestricted (genesis clock) is w →
      plan ∈ w.state.plans → q.isValid → 0 < q.amount →
      split ctx bank plan.id q w.state = .ok e →
      Accounted plan ⟨q.symbol, bank⟩ w.state e
        (splitNotifying ctx bank issuer plan.id q w.state).notes q := by
  intro h
  have hrun : Transition.Succeeds (split (.signed alice 101) bank 1 (.lit (int64 20001) flon)
      skewed.state) fun e => credited skewedPlan ⟨flon, bank⟩ skewed.state e bob = 3 := by decide
  have htold : announced bob (eventsOf (int64 20001)) = 2 := by decide
  obtain ⟨e, he, hgot⟩ := Transition.succeeds_iff.mp hrun
  have hclaim := h account _ _ _ skewedPlan _ bank alice (.lit (int64 20001) flon) e run_skewed
    (Table.mem_put_self _ skewedPlan) (by decide) (by decide) he
  have hbob : (2 : ℤ) = 3 := htold.symm.trans ((hclaim.receivers bob).trans hgot)
  revert hbob
  decide

end Sample

end Split
end ToolkitContracts
