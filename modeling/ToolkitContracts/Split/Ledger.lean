import ToolkitContracts.Split.Memo

/-!
# The ledger of a receiver

What a plan owes a receiver is the sum of its shares of the transfers that came in for the plan, at
the rates that were in force each time. Through all changes of the receivers, the rates and the
mode, and whoever claims for whom, the receiver was paid exactly that by the plan, less what its
wallet under the plan still records.
-/

namespace ToolkitContracts
namespace Split

/-! ## What is owed -/

/-- The share of `r` in a quantity `q` under a plan: the shares of the receivers as long as none is
empty, and what is left to the first one. -/
def TokenSplitPlan.due (plan : TokenSplitPlan) (q : ℤ) (r : Name) : ℤ :=
  ((plan.splitConf.zip (Apportion.topUp q (loopShares q plan.splitConf))).map fun e =>
    if e.1.tokenReceiver = r then e.2 else 0).sum

/-- The plan that an input is about, if it is about one. -/
def planOf (account : Name) (i : Ctx × Input Action) : Option ℕ :=
  match i.2 with
  | .notify n =>
      if n.sender = account ∨ n.recipient ≠ account then none else (memoPlan i.1 n.memo).toOption
  | .act (.claim planId _) => some planId
  | .act (.claimall planId) => some planId
  | .act (.editplan _ planId _ _) => some planId
  | .act (.addplan _ _ _ _) => none
  | .act (.init _ _ _) => none

/-- What an input that is about the plan `planId` makes it owe to `r`, of the token `x`. -/
def newDue (i : Ctx × Input Action) (s : State) (planId : ℕ) (r : Name) (x : ExtendedSymbol) : ℤ :=
  match i.2 with
  | .notify n => (s.plans.find? planId).elim 0 fun plan =>
      if n.token = x then plan.due n.quantity.amount r else 0
  | .act _ => 0

/-- What plans have owed, and what they have paid. -/
structure Ledger where
  due : ℕ → Name → ExtendedSymbol → ℤ
  paid : ℕ → Name → ExtendedSymbol → ℤ

def Ledger.empty : Ledger := ⟨fun _ _ _ => 0, fun _ _ _ => 0⟩

/-- Note a transaction: everything that it orders is paid by the plan that it is about. -/
def Ledger.note (account : Name) (l : Ledger) (w : World State) (i : Ctx × Input Action)
    (_ : World State) : Ledger where
  due p r x := l.due p r x +
    if planOf account i = some p then newDue i w.state p r x else 0
  paid p r x := l.paid p r x +
    if planOf account i = some p then paidTo r x (orders account i w.state) else 0

/-! ## The shares of a transfer -/

section Shares
variable {plan : TokenSplitPlan} {q : Asset} {gifts : List (Name × Asset)} {bank : Name}

/-- A sum over distinct receivers picks the one of `r`. -/
private theorem sum_receivers {confs : List SplitUnit} (f : Name → ℤ) (r : Name)
    (hdistinct : (confs.map SplitUnit.tokenReceiver).Nodup)
    (habsent : r ∉ confs.map SplitUnit.tokenReceiver → f r = 0) :
    (confs.map fun p => if p.tokenReceiver = r then f p.tokenReceiver else 0).sum = f r := by
  induction confs with
  | nil => exact (habsent List.not_mem_nil).symm
  | cons p confs ih =>
    rw [List.map_cons, List.nodup_cons] at hdistinct
    rw [List.map_cons, List.sum_cons]
    by_cases hp : p.tokenReceiver = r
    · subst hp
      have hrest : (confs.map fun p' => if p'.tokenReceiver = p.tokenReceiver then f p'.tokenReceiver
          else 0).sum = 0 := by
        refine List.sum_eq_zero fun y hy => ?_
        obtain ⟨p', hp', rfl⟩ := List.mem_map.mp hy
        exact if_neg fun hsame => hdistinct.1 (List.mem_map.mpr ⟨p', hp', hsame⟩)
      rw [if_pos rfl, hrest, add_zero]
    · rw [if_neg hp, zero_add]
      refine ih hdistinct.2 fun habs => habsent fun hmem => ?_
      rcases List.mem_cons.mp hmem with heq | hmem
      · exact hp heq.symm
      · exact habs hmem

private theorem map_zip_map {α β γ : Type} (l : List α) (f : α → β) (g : α × β → γ) :
    (l.zip (l.map f)).map g = l.map fun a => g (a, f a) := by
  induction l with
  | nil => rfl
  | cons a l ih => rw [List.map_cons, List.zip_cons_cons, List.map_cons, ih, List.map_cons]

/-- Transfers of other tokens move none of this one. -/
theorem paidTo_of_token {ts : List Transfer} {x : ExtendedSymbol} (h : ∀ t ∈ ts, t.token ≠ x)
    (r : Name) : paidTo r x ts = 0 := by
  induction ts with
  | nil => rfl
  | cons t ts ih =>
    rw [paidTo_cons, if_neg (h t List.mem_cons_self), ite_self, zero_add]
    exact ih fun u hu => h u (List.mem_cons_of_mem _ hu)

/-- What is forwarded to an account is its share. -/
theorem paidTo_of_shares (hconf : RatesChecked plan.splitConf) (hq : q.isValid) (hpos : 0 < q.amount)
    (h : shares q plan.splitConf = .ok gifts) (r : Name) (x : ExtendedSymbol) :
    paidTo r x (forwards bank gifts)
      = if (⟨q.symbol, bank⟩ : ExtendedSymbol) = x then plan.due q.amount r else 0 := by
  obtain ⟨hall, -⟩ := shares_spec h ⟨hpos, hq.1.2⟩
  split
  · next hx =>
    subst hx
    obtain ⟨gifts', hgifts', hpayments⟩ := shares_of_checked hconf hq hpos
    obtain rfl : gifts = gifts' := Except.ok.inj (h.symm.trans hgifts')
    have hzip : plan.due q.amount r = (plan.splitConf.map fun p =>
        if p.tokenReceiver = r then paidTo p.tokenReceiver ⟨q.symbol, bank⟩ (forwards bank gifts)
        else 0).sum := by
      rw [TokenSplitPlan.due, ← hpayments bank, payments, map_zip_map]
    rw [hzip, sum_receivers (fun r => paidTo r ⟨q.symbol, bank⟩ (forwards bank gifts)) r
      hconf.distinct fun habsent => paidTo_forwards_of_absent (fun g hg hr => ?_) _]
    obtain ⟨-, -, p, hp, hreceiver⟩ := hall g hg
    exact habsent (List.mem_map.mpr ⟨p, hp, hreceiver.trans hr⟩)
  · next hx =>
    refine paidTo_of_token (fun t ht htoken => hx ?_) r
    obtain ⟨g, hg, rfl⟩ := List.mem_map.mp ht
    rw [← htoken, Transfer.token, (hall g hg).1]

end Shares

/-! ## One transaction -/

section Steps
variable {account : Name} {ctx : Ctx} {s s' : State} {paid : List Wallet} {memo : String}
  {outs outs' : List Transfer} {planId p : ℕ} {plan : TokenSplitPlan} {bank : Name}
  {gifts : List (Name × Asset)} {wallets wallets' : Table Wallet.key} {r : Name}
  {x : ExtendedSymbol}

/-- A payout of wallets of one plan leaves the wallets of the others. -/
theorem PaysOut.booked_other (h : PaysOut s s' paid memo outs) (hplan : ∀ w ∈ paid, w.planId = planId)
    (hp : p ≠ planId) : booked s'.wallets p r x = booked s.wallets p r x := by
  have hsum := Table.sum_eraseAll h.recorded h.once fun w =>
    if w.key = walletKey p r then w.recorded x else 0
  have hnone : (paid.map fun w => if w.key = walletKey p r then w.recorded x else 0).sum = 0 := by
    refine List.sum_eq_zero fun y hy => ?_
    obtain ⟨w, hw, rfl⟩ := List.mem_map.mp hy
    refine if_neg fun hkey => hp ?_
    have hpair := toLex.injective hkey
    rw [Prod.mk.injEq] at hpair
    rw [← hpair.1, hplan w hw]
  rw [hnone, add_zero, ← h.rest] at hsum
  rw [booked_eq_sum, booked_eq_sum]
  exact hsum

/-- Booking shares leaves the wallets of other plans. -/
theorem booked_of_giveAll_other (hs : WalletsSound wallets)
    (hgifts : ∀ g ∈ gifts, 0 < g.2.amount ∧ g.2.amount ≤ Asset.maxAmount) (hp : p ≠ plan.id)
    (h : giveAll ctx plan bank gifts (wallets, outs) = .ok (wallets', outs')) :
    booked wallets' p r x = booked wallets p r x := by
  cases htype : plan.splitType with
  | auto =>
    rw [giveAll_auto htype, Except.ok.injEq, Prod.mk.injEq] at h
    rw [← h.1]
  | manual =>
    induction gifts generalizing wallets with
    | nil =>
      rw [giveAll, Except.ok.injEq, Prod.mk.injEq] at h
      rw [← h.1]
    | cons g gifts ih =>
      simp only [giveAll, give, htype, bind_eq_ok, pure_eq_ok] at h
      obtain ⟨acc, ⟨wallets₁, hadd, rfl⟩, h⟩ := h
      have hg := hgifts g (List.mem_cons_self ..)
      obtain ⟨hsound, -⟩ := addWallet_spec hadd hs hg
      obtain ⟨w, rfl, hkey, -⟩ := addWallet_put hadd hs hg
      have hother : walletKey p r ≠ w.key := by
        rw [hkey]
        exact fun hsame => hp (walletKey_inj.mp hsame).1
      rw [ih hsound (fun g' hg' => hgifts g' (List.mem_cons_of_mem _ hg')) h, booked_put,
        if_neg hother]

/-- An accepted transfer for a plan books or forwards the shares, under this plan only. -/
theorem booked_of_transfer {n : Notice} {w : World State} (hw : Solvent w)
    (hconf : RatesChecked plan.splitConf) (hplan : w.state.plans.find? plan.id = some plan)
    (hpos : 0 < n.quantity.amount)
    (h : split ctx n.bank plan.id n.quantity w.state = .ok (s', outs)) :
    booked s'.wallets p r x + (if p = plan.id then paidTo r x outs else 0)
      = booked w.state.wallets p r x
        + if p = plan.id then if n.token = x then plan.due n.quantity.amount r else 0 else 0 := by
  obtain ⟨gifts, wallets, hgifts, hgive, rfl⟩ := (split_eq_ok hplan).mp h
  have hrange : ∀ g ∈ gifts, 0 < g.2.amount ∧ g.2.amount ≤ Asset.maxAmount := by
    intro g hg
    obtain ⟨-, hpositive, hle⟩ := share_of_shares hgifts ⟨hpos, n.valid.1.2⟩ hg
    exact ⟨hpositive, hle.trans n.valid.1.2⟩
  by_cases hp : p = plan.id
  · subst hp
    have hcredited := credited_of_giveAll hw.sound hrange hgive r x
    rw [paidTo_of_shares hconf n.valid hpos hgifts] at hcredited
    have hshare : paidTo r x outs + (booked wallets plan.id r x - booked w.state.wallets plan.id r x)
        = if n.token = x then plan.due n.quantity.amount r else 0 := hcredited
    rw [if_pos rfl, if_pos rfl, ← hshare]
    show booked wallets plan.id r x + paidTo r x outs = _
    omega
  · rw [if_neg hp, if_neg hp, add_zero, add_zero]
    exact booked_of_giveAll_other hw.sound hrange hp hgive

/-- What an input makes a plan owe, it pays or books: nothing else moves in any wallet. -/
theorem booked_of_step {w w' : World State} {i : Ctx × Input Action} (hw : Solvent w)
    (hconf : PlansChecked w.state) (hstep : (contract account).step w i = .ok w') :
    booked w'.state.wallets p r x
        + (if planOf account i = some p then paidTo r x (orders account i w.state) else 0)
      = booked w.state.wallets p r x
        + if planOf account i = some p then newDue i w.state p r x else 0 := by
  obtain ⟨-, hsigner, -, outs, hrun, -⟩ := ((contract account).step_eq_ok).mp hstep
  have horders : orders account i w.state = outs := by
    rw [orders, hrun]
  rw [horders]
  obtain ⟨ctx, input⟩ := i
  cases input with
  | act a =>
    obtain ⟨paid, memo, hpays, hclaims, -⟩ := exec_spec hrun hw.sound
    have hdue : newDue (ctx, .act a) w.state p r x = 0 := rfl
    rw [hdue, ite_self, add_zero]
    -- the wallets that are paid out are those of the plan that the action names
    cases hplan : planOf account (ctx, .act a) with
    | none =>
      have hnone : paid = [] := by
        refine List.eq_nil_iff_forall_not_mem.mpr fun v hv => ?_
        have hclaim := hclaims v hv
        cases a with
        | init admin minCount maxCount => exact hclaim
        | addplan owner title conf isAuto => exact hclaim
        | editplan owner planId conf isAuto => cases hplan
        | claim planId owner => cases hplan
        | claimall planId => cases hplan
      have hrest := hpays.rest
      rw [hnone, List.map_nil, Table.eraseAll_nil] at hrest
      rw [hrest]
      simp
    | some planId =>
      have hall : ∀ v ∈ paid, v.planId = planId := by
        intro v hv
        have hclaim := hclaims v hv
        cases a with
        | init admin minCount maxCount => cases hplan
        | addplan owner title conf isAuto => cases hplan
        | editplan owner planId' conf isAuto => exact hclaim.2.trans (Option.some.inj hplan)
        | claim planId' owner => exact hclaim.1.trans (Option.some.inj hplan)
        | claimall planId' => exact hclaim.trans (Option.some.inj hplan)
      by_cases hp : p = planId
      · subst hp
        rw [if_pos rfl]
        exact hpays.booked_add hw.sound hall r x
      · rw [if_neg fun hsame => hp (Option.some.inj hsame).symm, add_zero]
        exact hpays.booked_other hall hp
  | notify n =>
    have hsender : n.sender ≠ account := Contract.sender_ne hsigner
    by_cases hto : n.recipient = account
    · obtain ⟨planId, hmemo⟩ := memoPlan_of_ontransfer hsender hto hrun
      obtain ⟨hpos, hsplit⟩ := (ontransfer_eq_ok hsender hto hmemo).mp hrun
      obtain ⟨plan, hplan⟩ := plan_of_split hsplit
      obtain ⟨hmem, rfl⟩ := Table.find?_eq_some.mp hplan
      have hof : planOf account (ctx, .notify n) = some plan.id := by
        rw [planOf]
        simp [hsender, hto, hmemo, Except.toOption]
      have hnew : newDue (ctx, .notify n) w.state plan.id r x
          = if n.token = x then plan.due n.quantity.amount r else 0 := by
        rw [newDue, hplan]
        rfl
      have hbooked := booked_of_transfer (p := p) (r := r) (x := x) hw (hconf plan hmem) hplan hpos
        hsplit
      by_cases hp : p = plan.id
      · subst hp
        rw [if_pos rfl, if_pos rfl] at hbooked
        rw [hof, if_pos rfl, if_pos rfl, hnew]
        exact hbooked
      · rw [if_neg hp, if_neg hp] at hbooked
        rw [hof, if_neg fun hsame => hp (Option.some.inj hsame).symm,
          if_neg fun hsame => hp (Option.some.inj hsame).symm]
        exact hbooked
    · have hof : planOf account (ctx, .notify n) = none := by
        rw [planOf]
        simp [hto]
      have hignored : ontransfer account ctx n w.state = .ok (w.state, []) := by
        rw [ontransfer, if_pos (Or.inr hto)]
      have hstate : w'.state = w.state :=
        (congrArg Prod.fst (Except.ok.inj (hignored.symm.trans hrun))).symm
      rw [hof, hstate]
      simp

end Steps

/-! ## Runs -/

section Runs
variable {account : Name} {clock : TimePoint} {planId : ℕ} {r : Name}

/-- One transaction, with the ledger. -/
abbrev noted (account : Name) :=
  Transition.recording (contract account).step (Ledger.note account)

/-- What holds of every state, with its ledger. -/
structure Balanced (p : World State × Ledger) : Prop where
  solvent : Solvent p.1
  stored : PlansStored p.1.state
  checked : PlansChecked p.1.state
  settled : ∀ planId r x,
    p.2.due planId r x = p.2.paid planId r x + booked p.1.state.wallets planId r x

theorem balanced_of_step {p p' : World State × Ledger} {i : Ctx × Input Action} (h : Balanced p)
    (hstep : noted account p i = .ok p') : Balanced p' := by
  obtain ⟨hs, hnote⟩ := Transition.recording_eq_ok.mp hstep
  refine ⟨solvent_of_step h.solvent hs, plansStored_of_step h.stored hs,
    plansChecked_of_step h.stored h.checked hs, fun planId r x => ?_⟩
  have hbooked := booked_of_step (p := planId) (r := r) (x := x) h.solvent h.checked hs
  have hsettled := h.settled planId r x
  rw [hnote]
  show p.2.due planId r x + _ = p.2.paid planId r x + _ + _
  omega

/-- Whoever has something booked can be paid it out. -/
theorem claim_accepts {p : World State × Ledger} {ctx : Ctx} {plan : TokenSplitPlan}
    {y : ExtendedSymbol} (h : Balanced p) (hclock : p.1.clock ≤ ctx.now)
    (hplan : p.1.state.plans.find? planId = some plan) (hr : r ≠ account)
    (hy : booked p.1.state.wallets planId r y ≠ 0) :
    ∃ p', noted account p (ctx, .act (.claim planId r)) = .ok p' ∧
      ∀ x, booked p'.1.state.wallets planId r x = 0 := by
  cases hwallet : p.1.state.wallets.find? (walletKey planId r) with
  | none =>
    rw [booked, hwallet] at hy
    exact absurd rfl hy
  | some v =>
    -- what is booked is in the map of the wallet
    have hsome : v.balances.rows.isEmpty = false := by
      rw [booked, hwallet] at hy
      cases hrows : v.balances.rows with
      | nil =>
        refine absurd ?_ hy
        show v.balances.sum _ = 0
        rw [Table.sum, hrows]
        rfl
      | cons b bs => rfl
    have hcode : ∃ e, claim planId r p.1.state = .ok e := by
      rw [claim, hplan, hwallet]
      exact ⟨_, checkc_of hsome _⟩
    obtain ⟨⟨s', outs⟩, hcode⟩ := hcode
    obtain ⟨v', hpays, hkey⟩ := claim_spec hcode h.solvent.sound
    obtain ⟨hv'plan, hv'owner⟩ := walletKey_inj.mp hkey
    have howners : ∀ v ∈ [v'], v.owner ≠ account := by
      intro v hv
      rw [List.mem_singleton.mp hv, hv'owner]
      exact hr
    obtain ⟨holding, hsettle⟩ := hpays.settles h.solvent howners
    have hstep : (contract account).step p.1 (ctx, .act (.claim planId r))
        = .ok ⟨s', holding, ctx.now⟩ := by
      rw [Contract.step_eq_ok]
      exact ⟨hclock, Contract.signer?_act _ _, rfl, outs, hcode, hsettle⟩
    refine ⟨(_, _), Transition.recording_eq_ok.mpr ⟨hstep, rfl⟩, fun x => ?_⟩
    have hnone : s'.wallets.find? (walletKey planId r) = none := by
      refine Table.find?_eq_none.mpr fun u hu hukey => ?_
      rw [hpays.rest, Table.mem_eraseAll] at hu
      refine hu.2 (List.mem_map.mpr ⟨v', List.mem_singleton.mpr rfl, ?_⟩)
      rw [hkey, hukey]
    rw [booked, hnone]
    rfl

/-- In every reachable state, what a plan has owed a receiver, share by share at the rates in force,
is what it has paid the receiver and what is booked for the receiver under this plan. Whatever is
still booked can be claimed, and then the plan has paid everything that it has owed. -/
theorem ledger_of_run {is : List (Ctx × Input Action)} {p : World State × Ledger}
    (hrun : Transition.Run (noted account) Transition.Unrestricted (genesis clock, Ledger.empty)
      is p) (planId : ℕ) (r : Name) :
    (∀ x, p.2.due planId r x = p.2.paid planId r x + booked p.1.state.wallets planId r x) ∧
    ∀ (ctx : Ctx) (plan : TokenSplitPlan) (y : ExtendedSymbol), p.1.clock ≤ ctx.now →
      p.1.state.plans.find? planId = some plan → r ≠ account →
      booked p.1.state.wallets planId r y ≠ 0 →
      ∃ p', noted account p (ctx, .act (.claim planId r)) = .ok p' ∧
        ∀ x, p'.2.paid planId r x = p.2.due planId r x := by
  have h : Balanced p := by
    refine hrun.invariant (P := Balanced) (fun p _ p' h _ hstep => balanced_of_step h hstep) ?_
    exact ⟨solvent_genesis clock, plansStored_genesis clock,
      fun p hp => absurd hp (Table.not_mem_empty p), fun planId r x => rfl⟩
  refine ⟨h.settled planId r, fun ctx plan y hclock hplan hr hy => ?_⟩
  obtain ⟨p', hp', hnone⟩ := claim_accepts h hclock hplan hr hy
  refine ⟨p', hp', fun x => ?_⟩
  have hsettled := (balanced_of_step h hp').settled planId r x
  obtain ⟨-, hnote⟩ := Transition.recording_eq_ok.mp hp'
  have hdue : p'.2.due planId r x = p.2.due planId r x := by
    rw [hnote]
    show p.2.due planId r x + (if _ then (0 : ℤ) else 0) = _
    rw [ite_self, add_zero]
  rw [hnone, add_zero] at hsettled
  exact hsettled.symm.trans hdue

end Runs

/-! ## A plan that changes its mode -/

namespace Sample

/-- After the transfer that `inputs` end with, Bob claims, and Alice changes the rates and lets the
plan forward, which pays Carol out. Another 250 units come in. -/
def changes : List (Ctx × Input Action) :=
  inputs ++ [(.signed bob 101, .act (.claim 1 bob)),
    (.signed alice 102, .act (.editplan alice 1 [⟨bob, 2000⟩, ⟨carol, 8000⟩] true)),
    (.signed alice 103, .notify
      ⟨bank, alice, account, .lit (int64 250) flon, "plan:1".toList, by decide⟩)]

/-- Carol is owed half of the first transfer and four fifths of the second one. -/
theorem ledger_of_run_sample :
    ∃ p, Transition.Run (noted account) Transition.Unrestricted
        (genesis (.ofDays 100), Ledger.empty) changes p ∧
      p.2.due 1 carol ⟨flon, bank⟩ = 250 ∧ p.2.paid 1 carol ⟨flon, bank⟩ = 250 := by
  have hreach : Transition.Reaches (noted account) Transition.Unrestricted
      (fun p => p.2.due 1 carol ⟨flon, bank⟩ = 250 ∧
        booked p.1.state.wallets 1 carol ⟨flon, bank⟩ = 0) changes
      (genesis (.ofDays 100), Ledger.empty) := by decide
  obtain ⟨p, hrun, hdue, hbooked⟩ := Transition.run_of_reaches hreach
  have hledger := (ledger_of_run hrun 1 carol).1 ⟨flon, bank⟩
  rw [hbooked, add_zero] at hledger
  exact ⟨p, hrun, hdue, hledger.symm.trans hdue⟩

end Sample

end Split
end ToolkitContracts
