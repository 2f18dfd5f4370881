import ToolkitContracts.Split.Shares

/-!
# Automatic and manual plans

Two deployments see the same transfers, one under a plan that forwards its shares and one
under a plan with the same receivers that books them; on the second one, wallets are claimed
at any time. A transfer is accepted by both or by neither. After every event, what the one
has paid to an account is what the other has paid to it and still has booked for it, so once
no wallet is left the two have paid the same.
-/

namespace ToolkitContracts
namespace Split

/-! ## The plan a memo names -/

/-- The id in the memo of a transfer, after all that the code checks of the memo. -/
def memoPlan (ctx : Ctx) (memo : List Char) : Except Abort ℕ := do
  let params := (StringView.ofText memo).split ':'
  checkc (1 ≤ params.length) Err.memoFormatError.code "memo not prefixed"
  let actionName ← Name.ofText (params.getD 0 default).chars
  checkc (actionName = .lit "plan") Err.paramError.code "memo not Supported"
  let planId ← stoi ((params[1]?.map StringView.chars).getD ctx.stale)
  if params.length = 3 then do
    let _ ← stoi (params.getD 2 default).chars
    return u64 planId
  else return u64 planId

section Memo
variable {account : Name} {ctx : Ctx} {n : Notice} {s : State}

/-- A transfer whose memo names a plan is split under it, when its quantity is positive. -/
theorem ontransfer_eq_ok {planId : ℕ} {e : Effect State} (hsender : n.sender ≠ account)
    (hto : n.recipient = account) (hmemo : memoPlan ctx n.memo = .ok planId) :
    ontransfer account ctx n s = .ok e ↔
      0 < n.quantity.amount ∧ split ctx n.bank planId n.quantity s = .ok e := by
  simp only [memoPlan, bind_eq_ok, checkc_eq_ok, exists_const] at hmemo
  obtain ⟨hlen, actionName, hname, hplan, id, hid, hmemo⟩ := hmemo
  have hne : n.sender ≠ n.recipient := by rwa [hto]
  rw [ontransfer, if_neg (by simp [hsender, hto])]
  by_cases hpos : 0 < n.quantity.amount
  · rw [and_iff_right hpos]
    simp only [checkc_of hne, checkc_of hlen, check_of hpos, hname, ok_bind, if_pos hplan, hid]
    -- a third parameter is parsed on both sides
    split at hmemo
    · next hthree =>
      simp only [bind_eq_ok, pure_eq_ok] at hmemo
      obtain ⟨boost, hboost, rfl⟩ := hmemo
      rw [if_pos hthree, hboost, ok_bind]
    · next hthree =>
      rw [pure_eq_ok] at hmemo
      rw [if_neg hthree, hmemo]
  · simp only [checkc_of hne, checkc_of hlen, check_of_not hpos]
    exact iff_of_false (fun hc => by cases hc) fun hc => hpos hc.1

end Memo

/-! ## Two deployments -/

/-- A deployment, and what it has transferred to each account so far. -/
structure Side where
  world : World State
  paid : Name → ExtendedSymbol → ℤ

/-- A deployment from which nothing has been transferred yet. -/
def Side.start (w : World State) : Side := ⟨w, fun _ _ => 0⟩

/-- The transfers that the contract orders on an input. -/
def orders (account : Name) (i : Ctx × Input Action) (s : State) : List Transfer :=
  match (contract account).run i.1 i.2 s with
  | .ok e => e.2
  | .error _ => []

/-- One transaction. A refused one leaves no trace. -/
def Side.attempt (account : Name) (d : Side) (i : Ctx × Input Action) : Side :=
  match (contract account).step d.world i with
  | .ok w => ⟨w, fun r x => d.paid r x + paidTo r x (orders account i d.world.state)⟩
  | .error _ => d

/-- A transfer to the contract, but for its memo. -/
structure Incoming where
  bank : Name
  sender : Name
  quantity : Asset
  valid : quantity.isValid

def Incoming.notice (t : Incoming) (account : Name) (memo : List Char) : Notice :=
  ⟨t.bank, t.sender, account, t.quantity, memo, t.valid⟩

/-- What happens to the two deployments: a transfer arrives at both, each time with a memo
for that deployment's plan, or wallets are claimed at the second one. -/
inductive Event where
  | transfer (t : Incoming) (autoCtx manualCtx : Ctx) (autoMemo manualMemo : List Char)
  | claim (ctx : Ctx) (owner : Name)
  | claimall (ctx : Ctx)

structure Sides where
  auto : Side
  manual : Side

/-- One event, for a plan of the second deployment. -/
def Sides.step (account : Name) (planId : ℕ) (p : Sides) : Event → Except Abort Sides
  | .transfer t autoCtx manualCtx autoMemo manualMemo => .ok
      { auto := p.auto.attempt account (autoCtx, .notify (t.notice account autoMemo))
        manual := p.manual.attempt account (manualCtx, .notify (t.notice account manualMemo)) }
  | .claim ctx owner =>
      .ok { p with manual := p.manual.attempt account (ctx, .act (.claim planId owner)) }
  | .claimall ctx =>
      .ok { p with manual := p.manual.attempt account (ctx, .act (.claimall planId)) }

/-- The transfers are ones for the two plans, at block times that do not go back, and of
tokens that exist: what the account holds and what it is sent are part of the supply. -/
def Sides.Admits (supply : ExtendedSymbol → ℤ) (autoId manualId : ℕ) (p : Sides) : Event → Prop
  | .transfer t autoCtx manualCtx autoMemo manualMemo =>
      (p.auto.world.clock ≤ autoCtx.now ∧ p.manual.world.clock ≤ manualCtx.now) ∧
      (memoPlan autoCtx autoMemo = .ok autoId ∧ memoPlan manualCtx manualMemo = .ok manualId) ∧
      p.manual.world.holding ⟨t.quantity.symbol, t.bank⟩ + t.quantity.amount
        ≤ supply ⟨t.quantity.symbol, t.bank⟩
  | .claim _ _ => True
  | .claimall _ => True

instance (supply : ExtendedSymbol → ℤ) (autoId manualId : ℕ) (p : Sides) :
    ∀ e, Decidable (p.Admits supply autoId manualId e)
  | .transfer _ _ _ _ _ => inferInstanceAs (Decidable ((_ ∧ _) ∧ (_ ∧ _) ∧ _))
  | .claim _ _ => .isTrue trivial
  | .claimall _ => .isTrue trivial

section Attempts
variable {account : Name} {d : Side} {i : Ctx × Input Action} {w : World State}
  {outs : List Transfer}

theorem attempt_of_step (hs : (contract account).step d.world i = .ok w)
    (hrun : (contract account).run i.1 i.2 d.world.state = .ok (w.state, outs)) :
    d.attempt account i = ⟨w, fun r x => d.paid r x + paidTo r x outs⟩ := by
  rw [Side.attempt, hs, orders, hrun]

theorem attempt_of_refused (h : ∀ w, (contract account).step d.world i ≠ .ok w) :
    d.attempt account i = d := by
  rw [Side.attempt]
  cases hs : (contract account).step d.world i with
  | ok w => exact absurd hs (h w)
  | error e => rfl

/-- A transaction keeps the account solvent, whether it is accepted or not. -/
theorem solvent_attempt (h : Solvent d.world) : Solvent (d.attempt account i).world := by
  rw [Side.attempt]
  cases hs : (contract account).step d.world i with
  | ok w => exact solvent_of_step h hs
  | error e => exact h

end Attempts

/-! ## A transfer on each side -/

section Transfers
variable {account : Name} {ctx : Ctx} {d : Side} {plan : TokenSplitPlan} {t : Incoming}
  {memo : List Char} {gifts : List (Name × Asset)}

/-- The transfers that either plan accepts: from another account, of a positive quantity that
the receivers' rates can divide. -/
def Incoming.Accepted (account : Name) (t : Incoming) (confs : List SplitUnit)
    (gifts : List (Name × Asset)) : Prop :=
  t.sender ≠ account ∧ 0 < t.quantity.amount ∧ shares t.quantity confs = .ok gifts

/-- The contract's code on a transfer for a plan: the quantity is divided between the
receivers and the shares are handed on. -/
theorem run_transfer_eq_ok {s s' : State} {outs : List Transfer} (hsender : t.sender ≠ account)
    (hmemo : memoPlan ctx memo = .ok plan.id) (hplan : s.plans.find? plan.id = some plan) :
    (contract account).run ctx (.notify (t.notice account memo)) s = .ok (s', outs) ↔
      0 < t.quantity.amount ∧ ∃ gifts wallets, shares t.quantity plan.splitConf = .ok gifts ∧
        giveAll ctx plan t.bank gifts (s.wallets, []) = .ok (wallets, outs) ∧
        s' = { s with wallets } :=
  (ontransfer_eq_ok (n := t.notice account memo) hsender rfl hmemo).trans
    (and_congr_right fun _ => split_eq_ok hplan)

/-- Other transfers are refused under a plan of either type. -/
theorem transfer_refused (hmemo : memoPlan ctx memo = .ok plan.id)
    (hplan : d.world.state.plans.find? plan.id = some plan)
    (h : ∀ gifts, ¬ t.Accepted account plan.splitConf gifts) :
    d.attempt account (ctx, .notify (t.notice account memo)) = d := by
  refine attempt_of_refused fun w hs => ?_
  obtain ⟨-, hsigner, -, outs, hrun, -⟩ := ((contract account).step_eq_ok).mp hs
  have hsender : t.sender ≠ account := Contract.sender_ne hsigner
  obtain ⟨hpos, gifts, -, hgifts, -⟩ := (run_transfer_eq_ok hsender hmemo hplan).mp hrun
  exact h gifts ⟨hsender, hpos, hgifts⟩

/-- An automatic plan forwards the shares, which the transfer covers. -/
theorem auto_accepts (hd : Solvent d.world) (hclock : d.world.clock ≤ ctx.now)
    (hmemo : memoPlan ctx memo = .ok plan.id)
    (hplan : d.world.state.plans.find? plan.id = some plan) (htype : plan.splitType = .auto)
    (hself : ∀ p ∈ plan.splitConf, p.tokenReceiver ≠ account)
    (ht : t.Accepted account plan.splitConf gifts) :
    ∃ w, d.attempt account (ctx, .notify (t.notice account memo))
        = ⟨w, fun r x => d.paid r x + paidTo r x (forwards t.bank gifts)⟩ ∧
      w.state = d.world.state := by
  obtain ⟨hsender, hpos, hgifts⟩ := ht
  obtain ⟨hall, hsum⟩ := shares_spec hgifts ⟨hpos, t.valid.1.2⟩
  have hrun : (contract account).run ctx (.notify (t.notice account memo)) d.world.state
      = .ok (d.world.state, forwards t.bank gifts) :=
    (run_transfer_eq_ok hsender hmemo hplan).mpr
      ⟨hpos, gifts, d.world.state.wallets, hgifts, giveAll_auto htype, rfl⟩
  -- the shares go to receivers of the plan, and add up to what came in
  have hto : ∀ u ∈ forwards t.bank gifts, u.recipient ≠ account ∧ 0 < u.quantity.amount := by
    intro u hu
    obtain ⟨g, hg, rfl⟩ := List.mem_map.mp hu
    obtain ⟨-, hgPos, p, hp, hreceiver⟩ := hall g hg
    refine ⟨?_, hgPos⟩
    show g.1 ≠ account
    rw [← hreceiver]
    exact hself p hp
  have hcov : ∀ x, outflow x (forwards t.bank gifts) ≤
      (contract account).received (.notify (t.notice account memo)) d.world.holding x := by
    intro x
    have hholding : 0 ≤ d.world.holding x := by
      rw [hd.holding]
      exact recorded_nonneg hd.sound
    rw [outflow_forwards fun g hg => (hall g hg).1, hsum]
    rw [Contract.received_notify]
    · exact le_add_of_nonneg_left hholding
    · rfl
  obtain ⟨holding, hsettle⟩ := settle_of_covered hto hcov
  refine ⟨⟨d.world.state, holding, ctx.now⟩, attempt_of_step ?_ hrun, rfl⟩
  rw [Contract.step_eq_ok]
  exact ⟨hclock, fun hc => hsender (Option.some.inj hc), rfl, _, hrun, hsettle⟩

/-- A manual plan books the shares, when the account can record what it holds. -/
theorem manual_accepts (hd : Solvent d.world) (hclock : d.world.clock ≤ ctx.now)
    (hmemo : memoPlan ctx memo = .ok plan.id)
    (hplan : d.world.state.plans.find? plan.id = some plan) (htype : plan.splitType = .manual)
    (ht : t.Accepted account plan.splitConf gifts)
    (hroom : d.world.holding ⟨t.quantity.symbol, t.bank⟩ + t.quantity.amount ≤ Asset.maxAmount) :
    ∃ w, d.attempt account (ctx, .notify (t.notice account memo))
        = ⟨w, fun r x => d.paid r x + paidTo r x []⟩ ∧
      w.state.plans = d.world.state.plans ∧
      (∀ v ∈ w.state.wallets, v ∈ d.world.state.wallets ∨
        ∃ u ∈ plan.splitConf, u.tokenReceiver = v.owner) ∧
      ∀ r x, booked w.state.wallets plan.id r x
        = booked d.world.state.wallets plan.id r x + paidTo r x (forwards t.bank gifts) := by
  obtain ⟨hsender, hpos, hgifts⟩ := ht
  obtain ⟨hall, hsum⟩ := shares_spec hgifts ⟨hpos, t.valid.1.2⟩
  rw [hd.holding, ← hsum] at hroom
  obtain ⟨wallets, hgive, howners, hbooked⟩ := giveAll_manual htype hd.sound
    (fun g hg => ⟨(hall g hg).1, (hall g hg).2.1⟩) hroom
  have hrun : (contract account).run ctx (.notify (t.notice account memo)) d.world.state
      = .ok ({ d.world.state with wallets }, []) :=
    (run_transfer_eq_ok hsender hmemo hplan).mpr ⟨hpos, gifts, wallets, hgifts, hgive, rfl⟩
  have hreceivers : ∀ v ∈ wallets, v ∈ d.world.state.wallets ∨
      ∃ u ∈ plan.splitConf, u.tokenReceiver = v.owner := by
    intro v hv
    rcases howners v hv with hold | ⟨g, hg, howner⟩
    · exact Or.inl hold
    · obtain ⟨-, -, u, hu, hreceiver⟩ := hall g hg
      exact Or.inr ⟨u, hu, hreceiver.trans howner.symm⟩
  -- nothing is transferred, so the account keeps all that came in
  have hsettle : settle account ((contract account).received (.notify (t.notice account memo))
      d.world.holding) [] = .ok _ := rfl
  refine ⟨⟨{ d.world.state with wallets }, (contract account).received
    (.notify (t.notice account memo)) d.world.holding, ctx.now⟩, attempt_of_step ?_ hrun, rfl,
    hreceivers, hbooked⟩
  rw [Contract.step_eq_ok]
  exact ⟨hclock, fun hc => hsender (Option.some.inj hc), rfl, [], hrun, hsettle⟩

end Transfers

/-! ## Claims -/

section Claims
variable {account : Name} {ctx : Ctx} {s s' : State} {paid : List Wallet} {memo : String}
  {outs : List Transfer} {planId : ℕ}

theorem booked_eq_sum (wallets : Table Wallet.key) (planId : ℕ) (r : Name) (x : ExtendedSymbol) :
    booked wallets planId r x
      = wallets.sum fun w => if w.key = walletKey planId r then w.recorded x else 0 :=
  (Table.sum_ite_key wallets (walletKey planId r) fun w => w.recorded x).symm

theorem paidTo_flatMap_payments (hs : ∀ w ∈ paid, ∀ b ∈ w.balances, b.Sound) (r : Name)
    (x : ExtendedSymbol) : paidTo r x (paid.flatMap fun w => w.payments memo)
      = (paid.map fun w => if w.owner = r then w.recorded x else 0).sum := by
  induction paid with
  | nil => rfl
  | cons w paid ih =>
    have howner : ∀ t ∈ w.payments memo, t.recipient = w.owner := by
      intro t ht
      obtain ⟨b, -, rfl⟩ := List.mem_map.mp ht
      rfl
    rw [List.flatMap_cons, paidTo_append, ih fun v hv => hs v (List.mem_cons_of_mem _ hv),
      paidTo_of_recipient howner, outflow_payments (hs w (List.mem_cons_self ..)), List.map_cons,
      List.sum_cons]

/-- A payout of wallets of one plan pays everybody what is no longer booked. -/
theorem PaysOut.booked_add (h : PaysOut s s' paid memo outs) (hs : WalletsSound s.wallets)
    (hplan : ∀ w ∈ paid, w.planId = planId) (r : Name) (x : ExtendedSymbol) :
    booked s'.wallets planId r x + paidTo r x outs = booked s.wallets planId r x := by
  have howner : ∀ w ∈ paid, (if w.owner = r then w.recorded x else 0)
      = if w.key = walletKey planId r then w.recorded x else 0 := by
    intro w hw
    have hkey : w.key = walletKey planId r ↔ w.owner = r := by
      rw [← hplan w hw]
      exact walletKey_inj.trans (and_iff_right rfl)
    simp only [hkey]
  rw [h.outs, paidTo_flatMap_payments fun w hw => hs w (h.recorded w hw), List.map_congr_left howner,
    booked_eq_sum, booked_eq_sum, h.rest]
  exact Table.sum_eraseAll h.recorded h.once _

/-- The tokens of a solvent account cover a payout to other accounts. -/
theorem PaysOut.settles {d : World State} (h : PaysOut d.state s' paid memo outs) (hd : Solvent d)
    (howners : ∀ w ∈ paid, w.owner ≠ account) :
    ∃ holding, settle account d.holding outs = .ok holding := by
  refine settle_of_covered (fun t ht => ?_) fun x => ?_
  · rw [h.outs] at ht
    obtain ⟨w, hw, ht⟩ := List.mem_flatMap.mp ht
    obtain ⟨b, hb, rfl⟩ := List.mem_map.mp ht
    exact ⟨howners w hw, (hd.sound w (h.recorded w hw) b hb).2.1⟩
  · have hflow := h.flow hd.sound x
    have hrest : 0 ≤ Split.recorded s'.wallets x := recorded_nonneg (h.sound hd.sound)
    rw [hd.holding]
    omega

/-- A payout of wallets of one plan leaves fewer of them. -/
theorem PaysOut.fewer (h : PaysOut s s' paid memo outs) (hne : paid ≠ [])
    (hplan : ∀ w ∈ paid, w.planId = planId) :
    (walletsOf planId s').length < (walletsOf planId s).length := by
  have hlist : walletsOf planId s' = (walletsOf planId s).filter
      fun v => decide (v.key ∉ paid.map Wallet.key) := by
    rw [← walletsOf_eraseAll, ← h.rest]
    rfl
  -- one of the wallets that were listed is gone
  obtain ⟨w, hw⟩ := List.exists_mem_of_ne_nil paid hne
  rw [hlist, List.length_filter_lt_length_iff_exists]
  refine ⟨w, mem_walletsOf.mpr ⟨h.recorded w hw, hplan w hw⟩, ?_⟩
  simp only [decide_eq_true_eq, not_not]
  exact List.mem_map_of_mem hw

/-- Without wallets nothing is booked. -/
theorem booked_of_walletsOf (h : walletsOf planId s = []) (r : Name) (x : ExtendedSymbol) :
    booked s.wallets planId r x = 0 := by
  rw [booked_eq_sum]
  refine Table.sum_eq_zero fun w hw => if_neg fun hkey => ?_
  have hmem : w ∈ walletsOf planId s := mem_walletsOf.mpr ⟨hw, (walletKey_inj.mp hkey).1⟩
  rw [h] at hmem
  exact List.not_mem_nil hmem

/-- An input that pays wallets of the plan out and touches no plan. -/
def PaysPlan (account : Name) (planId : ℕ) (i : Ctx × Input Action) : Prop :=
  ∀ s s' outs, WalletsSound s.wallets → (contract account).run i.1 i.2 s = .ok (s', outs) →
    s'.plans = s.plans ∧ ∃ paid memo, PaysOut s s' paid memo outs ∧ ∀ w ∈ paid, w.planId = planId

theorem paysPlan_claim (owner : Name) : PaysPlan account planId (ctx, .act (.claim planId owner)) := by
  intro s s' outs hs hrun
  obtain ⟨w, hpays, hkey⟩ := claim_spec hrun hs
  have hplans : s'.plans = s.plans := by
    have h : claim planId owner s = .ok (s', outs) := hrun
    simp only [claim, bind_eq_ok, pure_eq_ok, Prod.mk.injEq] at h
    obtain ⟨-, -, -, -, -, -, rfl, -⟩ := h
    rfl
  refine ⟨hplans, [w], _, hpays, fun v hv => ?_⟩
  rw [List.mem_singleton.mp hv]
  exact (walletKey_inj.mp hkey).1

theorem paysPlan_claimall : PaysPlan account planId (ctx, .act (.claimall planId)) := by
  intro s s' outs hs hrun
  obtain ⟨paid, hpays, -, hplan⟩ := claimall_spec hrun hs
  have hplans : s'.plans = s.plans := by
    have h : claimall planId s = .ok (s', outs) := hrun
    simp only [claimall, bind_eq_ok, pure_eq_ok, Prod.mk.injEq] at h
    obtain ⟨-, -, -, -, rfl, -⟩ := h
    rfl
  exact ⟨hplans, paid, _, hpays, hplan⟩

end Claims

/-! ## Runs -/

/-- The two deployments are in step: what the automatic plan has paid to an account is what the
manual plan has paid to it and still has booked for it. -/
structure InStep (account : Name) (auto manual : TokenSplitPlan) (p : Sides) : Prop where
  autoSolvent : Solvent p.auto.world
  manualSolvent : Solvent p.manual.world
  autoPlan : p.auto.world.state.plans.find? auto.id = some auto
  manualPlan : p.manual.world.state.plans.find? manual.id = some manual
  owners : ∀ v ∈ walletsOf manual.id p.manual.world.state, v.owner ≠ account
  paid : ∀ r x, p.auto.paid r x
    = p.manual.paid r x + booked p.manual.world.state.wallets manual.id r x

section Runs
variable {account : Name} {auto manual : TokenSplitPlan} {supply : ExtendedSymbol → ℤ}
  {p p' : Sides}

/-- A claim pays what it takes out of the wallets. -/
theorem inStep_of_claim (h : InStep account auto manual p) {i : Ctx × Input Action}
    (hi : PaysPlan account manual.id i) :
    InStep account auto manual { p with manual := p.manual.attempt account i } := by
  have hsolvent : Solvent (p.manual.attempt account i).world := solvent_attempt h.manualSolvent
  cases hs : (contract account).step p.manual.world i with
  | error e =>
    have hrefused : ∀ w, (contract account).step p.manual.world i ≠ .ok w := by
      intro w hw
      rw [hs] at hw
      cases hw
    rw [attempt_of_refused hrefused]
    exact h
  | ok w =>
    obtain ⟨-, -, -, outs, hrun, -⟩ := ((contract account).step_eq_ok).mp hs
    obtain ⟨hplans, paid, memo, hpays, hplan⟩ := hi _ _ _ h.manualSolvent.sound hrun
    rw [attempt_of_step hs hrun] at hsolvent ⊢
    refine ⟨h.autoSolvent, hsolvent, h.autoPlan, ?_, fun v hv => ?_, fun r x => ?_⟩
    · show w.state.plans.find? manual.id = some manual
      rw [hplans]
      exact h.manualPlan
    · obtain ⟨hmem, hid⟩ := mem_walletsOf.mp hv
      rw [hpays.rest] at hmem
      exact h.owners v (mem_walletsOf.mpr ⟨(Table.mem_eraseAll.mp hmem).1, hid⟩)
    · have hbooked := hpays.booked_add h.manualSolvent.sound hplan r x
      have hbefore := h.paid r x
      show p.auto.paid r x
        = p.manual.paid r x + paidTo r x outs + booked w.state.wallets manual.id r x
      omega

/-- A transfer is accepted under both plans or under neither, and what the one forwards the
other books. -/
theorem inStep_of_transfer (h : InStep account auto manual p) (hauto : auto.splitType = .auto)
    (hmanual : manual.splitType = .manual) (hconf : auto.splitConf = manual.splitConf)
    (hself : ∀ u ∈ auto.splitConf, u.tokenReceiver ≠ account)
    (hsupply : ∀ x, supply x ≤ Asset.maxAmount) {t : Incoming} {autoCtx manualCtx : Ctx}
    {autoMemo manualMemo : List Char} (hok : p.Admits supply auto.id manual.id
      (.transfer t autoCtx manualCtx autoMemo manualMemo)) :
    InStep account auto manual
      { auto := p.auto.attempt account (autoCtx, .notify (t.notice account autoMemo))
        manual := p.manual.attempt account (manualCtx, .notify (t.notice account manualMemo)) } := by
  obtain ⟨⟨hclock, hclock'⟩, ⟨hmemo, hmemo'⟩, hroom⟩ := hok
  by_cases haccepted : ∃ gifts, t.Accepted account auto.splitConf gifts
  · obtain ⟨gifts, ht⟩ := haccepted
    have hautoSolvent : Solvent (p.auto.attempt account
        (autoCtx, .notify (t.notice account autoMemo))).world := solvent_attempt h.autoSolvent
    have hmanualSolvent : Solvent (p.manual.attempt account
        (manualCtx, .notify (t.notice account manualMemo))).world := solvent_attempt h.manualSolvent
    obtain ⟨w, hw, hstate⟩ := auto_accepts h.autoSolvent hclock hmemo h.autoPlan hauto hself ht
    rw [hconf] at ht hself
    obtain ⟨w', hw', hplans, howners, hbooked⟩ := manual_accepts h.manualSolvent hclock' hmemo'
      h.manualPlan hmanual ht (hroom.trans (hsupply _))
    rw [hw] at hautoSolvent ⊢
    rw [hw'] at hmanualSolvent ⊢
    refine ⟨hautoSolvent, hmanualSolvent, ?_, ?_, fun v hv => ?_, fun r x => ?_⟩
    · show w.state.plans.find? auto.id = some auto
      rw [hstate]
      exact h.autoPlan
    · show w'.state.plans.find? manual.id = some manual
      rw [hplans]
      exact h.manualPlan
    · obtain ⟨hmem, hid⟩ := mem_walletsOf.mp hv
      rcases howners v hmem with hold | ⟨u, hu, hreceiver⟩
      · exact h.owners v (mem_walletsOf.mpr ⟨hold, hid⟩)
      · rw [← hreceiver]
        exact hself u hu
    · have hbefore := h.paid r x
      show p.auto.paid r x + paidTo r x (forwards t.bank gifts)
        = p.manual.paid r x + 0 + booked w'.state.wallets manual.id r x
      rw [hbooked]
      omega
  · -- refused under both plans
    have hrefused : ∀ gifts, ¬ t.Accepted account auto.splitConf gifts :=
      fun gifts hc => haccepted ⟨gifts, hc⟩
    rw [transfer_refused hmemo h.autoPlan hrefused]
    rw [hconf] at hrefused
    rw [transfer_refused hmemo' h.manualPlan hrefused]
    exact h

theorem inStep_of_step (h : InStep account auto manual p) (hauto : auto.splitType = .auto)
    (hmanual : manual.splitType = .manual) (hconf : auto.splitConf = manual.splitConf)
    (hself : ∀ u ∈ auto.splitConf, u.tokenReceiver ≠ account)
    (hsupply : ∀ x, supply x ≤ Asset.maxAmount) {e : Event}
    (hok : p.Admits supply auto.id manual.id e) (hs : p.step account manual.id e = .ok p') :
    InStep account auto manual p' := by
  cases e with
  | transfer t autoCtx manualCtx autoMemo manualMemo =>
    rw [Sides.step, Except.ok.injEq] at hs
    rw [← hs]
    exact inStep_of_transfer h hauto hmanual hconf hself hsupply hok
  | claim ctx owner =>
    rw [Sides.step, Except.ok.injEq] at hs
    rw [← hs]
    exact inStep_of_claim h (paysPlan_claim owner)
  | claimall ctx =>
    rw [Sides.step, Except.ok.injEq] at hs
    rw [← hs]
    exact inStep_of_claim h paysPlan_claimall

/-- As long as the plan has wallets, `claimall` is accepted and leaves fewer of them. -/
theorem claimall_accepts (h : InStep account auto manual p) {ctx : Ctx}
    (hclock : p.manual.world.clock ≤ ctx.now)
    (hne : walletsOf manual.id p.manual.world.state ≠ []) :
    (p.manual.attempt account (ctx, .act (.claimall manual.id))).world.clock = ctx.now ∧
    (walletsOf manual.id
      (p.manual.attempt account (ctx, .act (.claimall manual.id))).world.state).length
        < (walletsOf manual.id p.manual.world.state).length := by
  -- the code finds the plan and a wallet
  have hcode : ∃ e, claimall manual.id p.manual.world.state = .ok e := by
    rw [claimall, h.manualPlan]
    exact ⟨_, checkc_of (by simp [hne]) _⟩
  obtain ⟨⟨s', outs⟩, hcode⟩ := hcode
  obtain ⟨paid, hpays, hpaid, hplan⟩ := claimall_spec hcode h.manualSolvent.sound
  have howners : ∀ w ∈ paid, w.owner ≠ account :=
    fun w hw => h.owners w (mem_walletsOf.mpr ⟨hpays.recorded w hw, hplan w hw⟩)
  obtain ⟨holding, hsettle⟩ := hpays.settles h.manualSolvent howners
  have hstep : (contract account).step p.manual.world (ctx, .act (.claimall manual.id))
      = .ok ⟨s', holding, ctx.now⟩ := by
    rw [Contract.step_eq_ok]
    exact ⟨hclock, Contract.signer?_act _ _, rfl, outs, hcode, hsettle⟩
  rw [attempt_of_step hstep hcode]
  exact ⟨rfl, hpays.fewer hpaid hplan⟩

/-- Calls of `claimall` pay the wallets of the plan out until none is left. -/
theorem claimalls_drain (ctx : Ctx) {k : ℕ} (h : InStep account auto manual p)
    (hclock : p.manual.world.clock ≤ ctx.now)
    (hk : (walletsOf manual.id p.manual.world.state).length ≤ k) :
    ∃ n p', Transition.Run (Sides.step account manual.id) (Sides.Admits supply auto.id manual.id)
        p (List.replicate n (.claimall ctx)) p' ∧
      walletsOf manual.id p'.manual.world.state = [] := by
  induction k generalizing p with
  | zero => exact ⟨0, p, .nil p, List.length_eq_zero_iff.mp (Nat.le_zero.mp hk)⟩
  | succ k ih =>
    by_cases hnone : walletsOf manual.id p.manual.world.state = []
    · exact ⟨0, p, .nil p, hnone⟩
    · obtain ⟨hnow, hfewer⟩ := claimall_accepts h hclock hnone
      have hnext : InStep account auto manual
          { p with manual := p.manual.attempt account (ctx, .act (.claimall manual.id)) } :=
        inStep_of_claim h paysPlan_claimall
      have hlength : (walletsOf manual.id (p.manual.attempt account
          (ctx, .act (.claimall manual.id))).world.state).length ≤ k := by omega
      obtain ⟨n, p', hrun, hleft⟩ := ih hnext hnow.le hlength
      exact ⟨n + 1, p', Transition.Run.cons trivial rfl hrun, hleft⟩

/-- An automatic and a manual plan with the same receivers, none of them the contract itself,
see the same transfers, of any tokens, amounts and senders, and the wallets of the manual
plan are claimed in between and afterwards in any order. At any time everybody has been paid
by the automatic plan what the manual plan has paid and still has booked for it, so both have
paid the same once no wallet is left; and calls of `claimall` lead there. -/
theorem modes_agree {clock clock' : TimePoint} {is is' : List (Ctx × Input Action)}
    {w w' : World State} {es : List Event}
    (hrun : Transition.Run (contract account).step Transition.Unrestricted (genesis clock) is w)
    (hrun' : Transition.Run (contract account).step Transition.Unrestricted (genesis clock') is' w')
    (hplan : auto ∈ w.state.plans) (hplan' : manual ∈ w'.state.plans)
    (hauto : auto.splitType = .auto) (hmanual : manual.splitType = .manual)
    (hconf : auto.splitConf = manual.splitConf)
    (hself : ∀ u ∈ auto.splitConf, u.tokenReceiver ≠ account)
    (hnone : walletsOf manual.id w'.state = [])
    (hsupply : ∀ x, supply x ≤ Asset.maxAmount)
    (hboth : Transition.Run (Sides.step account manual.id) (Sides.Admits supply auto.id manual.id)
      ⟨.start w, .start w'⟩ es p) :
    (∀ r x, p.auto.paid r x
      = p.manual.paid r x + booked p.manual.world.state.wallets manual.id r x) ∧
    (walletsOf manual.id p.manual.world.state = [] →
      ∀ r x, p.auto.paid r x = p.manual.paid r x) ∧
    ∀ ctx : Ctx, p.manual.world.clock ≤ ctx.now → ∃ n p',
      Transition.Run (Sides.step account manual.id) (Sides.Admits supply auto.id manual.id)
        p (List.replicate n (.claimall ctx)) p' ∧
      walletsOf manual.id p'.manual.world.state = [] := by
  have hstart : InStep account auto manual ⟨.start w, .start w'⟩ := by
    refine ⟨solvent_of_run hrun, solvent_of_run hrun', Table.find?_self hplan,
      Table.find?_self hplan', fun v hv => ?_, fun r x => ?_⟩
    · have hv' : v ∈ walletsOf manual.id w'.state := hv
      rw [hnone] at hv'
      exact absurd hv' List.not_mem_nil
    · show 0 = 0 + booked w'.state.wallets manual.id r x
      rw [booked_of_walletsOf hnone, add_zero]
  have hend : InStep account auto manual p :=
    hboth.invariant
      (fun _ _ _ h hok hs => inStep_of_step h hauto hmanual hconf hself hsupply hok hs) hstart
  refine ⟨hend.paid, fun hleft r x => ?_, fun ctx hclock => ?_⟩
  · rw [hend.paid, booked_of_walletsOf hleft, add_zero]
  · exact claimalls_drain ctx hend hclock (le_refl _)

end Runs

/-! ## A sample run -/

namespace Sample

/-- Equal shares for two receivers. -/
def equalPlan (splitType : SplitType) : TokenSplitPlan where
  id := 1
  creator := alice
  splitConf := [⟨bob, 5000⟩, ⟨carol, 5000⟩]
  splitType
  title := "equal".toList
  createAt := (TimePoint.ofDays 100).secSinceEpoch

/-- A deployment whose only action so far stored that plan. -/
def planned (splitType : SplitType) : World State where
  state := { State.init with
    gstate := { lastPlanId := 1 }
    plans := Table.empty.put (equalPlan splitType) }
  holding := fun _ => 0
  clock := .ofDays 100

def addEqual (isAuto : Bool) : Ctx × Input Action :=
  (.signed alice 100, .act (.addplan alice "equal".toList [⟨bob, 5000⟩, ⟨carol, 5000⟩] isAuto))

def send (amount : Int64Arg) (day : ℕ) (h : (Asset.lit amount flon).isValid) : Event :=
  .transfer ⟨bank, alice, .lit amount flon, h⟩ (.signed alice day) (.signed alice day)
    "plan:1".toList "plan:1".toList

/-- Between two transfers one receiver claims, so its wallet is erased and comes back. -/
def claimedBetween : List Event :=
  [send (int64 101) 101 (by decide), .claim (.signed bob 102) bob,
   send (int64 100) 103 (by decide), .claimall (.signed carol 104)]

theorem run_planned (isAuto : Bool) :
    Transition.Run (contract account).step Transition.Unrestricted (genesis (.ofDays 100))
      [addEqual isAuto] (planned (if isAuto then .auto else .manual)) := by
  refine .snoc (.nil _) trivial ?_
  cases isAuto
  · rfl
  · rfl

/-- 201 units are sent in two transfers of an odd and an even amount: the first receiver is
paid 101 of them under either plan. -/
theorem modes_agree_sample :
    ∃ p, Transition.Run (Sides.step account 1) (Sides.Admits (fun _ => Asset.maxAmount) 1 1)
        ⟨.start (planned .auto), .start (planned .manual)⟩ claimedBetween p ∧
      walletsOf 1 p.manual.world.state = [] ∧ p.auto.paid bob ⟨flon, bank⟩ = 101 ∧
      p.manual.paid bob ⟨flon, bank⟩ = 101 := by
  have hreach : Transition.Reaches (Sides.step account 1)
      (Sides.Admits (fun _ => Asset.maxAmount) 1 1) (fun p =>
        (walletsOf 1 p.manual.world.state).length = 0 ∧ p.auto.paid bob ⟨flon, bank⟩ = 101)
      claimedBetween ⟨.start (planned .auto), .start (planned .manual)⟩ := by decide
  obtain ⟨p, hboth, hleft, hpaid⟩ := Transition.run_of_reaches hreach
  rw [List.length_eq_zero_iff] at hleft
  have hself : ∀ u ∈ (equalPlan .auto).splitConf, u.tokenReceiver ≠ account := by decide
  have hagree := modes_agree (run_planned true) (run_planned false)
    (Table.mem_put_self _ (equalPlan .auto)) (Table.mem_put_self _ (equalPlan .manual)) rfl rfl rfl
    hself rfl (fun _ => le_refl _) hboth
  exact ⟨p, hboth, hleft, hpaid, by rw [← hagree.2.1 hleft, hpaid]⟩

end Sample

end Split
end ToolkitContracts
