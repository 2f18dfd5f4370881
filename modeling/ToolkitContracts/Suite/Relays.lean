import ToolkitContracts.Suite.Books
import ToolkitContracts.Split.Ledger
import ToolkitContracts.Suite.Memos

/-!
# Payments that flon.split distributes

A `plan:` transfer of one contract to flon.split is distributed in the same transaction, and the
transaction stands or falls with it. Here is when flon.split accepts such a transfer from another
contract, and that the receivers of the plan are then credited exactly their shares.
-/

namespace ToolkitContracts
namespace Suite

open Blindbox (Env)

/-! ## The plan of a memo -/

section Texts
variable {k : ℕ} {ctx : Ctx} {planId : ℕ}

theorem trimSpaces_numeral {s : List Char} (h : IsNumeral s) : trimSpaces s = s :=
  trimSpaces_replicate 0 fun x hx => by
    rintro rfl
    exact absurd (h.2 _ hx) (by decide)

theorem colon_not_mem_numeral {s : List Char} (h : IsNumeral s) : ':' ∉ s :=
  fun hmem => absurd (h.2 _ hmem) (by decide)

/-- The fields of a memo whose second one is the number of a plan. -/
theorem memoFields_plan (hk : k < 2 ^ 64) {rest : List Char} (hrest : rest = [] ∨ rest = ":1".toList) :
    Split.memoFields ("plan".toList ++ ':' :: ((toString k).toList ++ rest))
      = ["plan".toList, (toString k).toList] ++ if rest = [] then [] else ["1".toList] := by
  have hnumeral := isNumeral_toString k
  have hlength : (toString k).toList.length ≤ 20 :=
    (length_toString_le (by omega)).mpr (hk.trans (by norm_num))
  have hsize : ("plan".toList ++ ':' :: ((toString k).toList ++ rest)).length ≤ npos := by
    have hplan : "plan".toList.length = 4 := rfl
    have hboost : ":1".toList.length = 2 := rfl
    rw [List.length_append, List.length_cons, List.length_append, npos, hplan]
    rcases hrest with rfl | rfl
    · rw [List.length_nil]
      omega
    · omega
  rw [Split.memoFields, (StringView.split_spec hsize ':').1,
    List.splitOn_append_cons_self_of_not_mem (by decide)]
  rcases hrest with rfl | rfl
  · rw [List.append_nil, List.splitOn_eq_singleton (colon_not_mem_numeral hnumeral), if_pos rfl]
    simp only [List.map_cons, List.map_nil, trimSpaces_numeral hnumeral]
    rfl
  · have hboost : ":1".toList = ':' :: "1".toList := rfl
    rw [hboost, List.splitOn_append_cons_self_of_not_mem (colon_not_mem_numeral hnumeral),
      List.splitOn_eq_singleton (by decide), if_neg (by decide)]
    simp only [List.map_cons, List.map_nil, trimSpaces_numeral hnumeral]
    rfl

/-- flon.split reads the number of a plan as an `int`. -/
theorem memoPlan_plan (hk : k < 2 ^ 64) {rest : List Char} (hrest : rest = [] ∨ rest = ":1".toList) :
    Split.memoPlan ctx ("plan".toList ++ ':' :: ((toString k).toList ++ rest)) = .ok planId ↔
      k < 2 ^ 31 ∧ planId = k := by
  have hfields := memoFields_plan hk hrest
  have hnumeral := isNumeral_toString k
  have hstoi : ∀ j : ℤ, stoi (toString k).toList = .ok j ↔ k < 2 ^ 31 ∧ j = k := by
    intro j
    rw [stoi_eq_ok, scanNumber_numeral hnumeral, digitsValue_toString]
    simp only [Option.some.injEq, exists_eq_left', signedValue, Bool.false_eq_true, if_false]
    omega
  have htwo : 2 ≤ (Split.memoFields
      ("plan".toList ++ ':' :: ((toString k).toList ++ rest))).length := by
    rw [hfields]
    simp
  have hword : k < 2 ^ 31 → u64 (k : ℤ) = k := by
    intro hlt
    unfold u64
    omega
  rw [Split.memoPlan_eq_ok htwo]
  constructor
  · rintro ⟨-, j, hj, rfl⟩
    have hid := hj.planId
    rw [hfields] at hid
    obtain ⟨hlt, rfl⟩ := (hstoi j).mp hid
    exact ⟨hlt, hword hlt⟩
  · rintro ⟨hlt, rfl⟩
    refine ⟨?_, (planId : ℤ), ⟨?_, fun hthree => ?_⟩, hword hlt⟩
    · rw [Split.NamesPlan, hfields]
      show Name.ofText "plan".toList = _
      decide
    · rw [hfields]
      exact (hstoi _).mpr ⟨hlt, rfl⟩
    · rw [hfields] at hthree ⊢
      rcases hrest with rfl | rfl
      · exact absurd hthree (by simp)
      · refine ⟨1, ?_⟩
        show stoi "1".toList = _
        decide

end Texts

/-! ## A transfer to flon.split -/

section Transfers
variable {account : Name} {env : Env} {n : Notice} {plan : Split.TokenSplitPlan}
  {gifts : List (Name × Asset)} {w w' : World Split.State} {outs : List Transfer}

/-- No transfer to an account is more than what the account is paid. -/
theorem le_paidTo {ts : List Transfer} {t : Transfer} (hts : ∀ u ∈ ts, 0 ≤ u.quantity.amount)
    (ht : t ∈ ts) : t.quantity.amount ≤ paidTo t.recipient t.token ts := by
  obtain ⟨before, after, rfl⟩ := List.append_of_mem ht
  have hnonneg : ∀ us : List Transfer, (∀ u ∈ us, 0 ≤ u.quantity.amount) →
      0 ≤ paidTo t.recipient t.token us := by
    intro us hus
    exact outflow_nonneg _ fun u hu => hus u (List.mem_of_mem_filter hu)
  have hbefore := hnonneg before fun u hu => hts u (List.mem_append_left _ hu)
  have hafter := hnonneg after fun u hu =>
    hts u (List.mem_append_right _ (List.mem_cons_of_mem _ hu))
  rw [paidTo_append, paidTo_cons, if_pos rfl, if_pos rfl]
  omega

/-- What flon.split does with a transfer for one of its plans: a plan of one type forwards the shares
and one of the other books them. -/
theorem order_of_transfer (hw : Split.Solvent w)
    (hplan : w.state.plans.find? plan.id = some plan) (hsender : n.sender ≠ account)
    (hto : n.recipient = account) (hmemo : Split.memoPlan env.toCtx n.memo = .ok plan.id)
    (hpos : 0 < n.quantity.amount) (hgifts : Split.shares n.quantity plan.splitConf = .ok gifts)
    (h : (Split.contract account).order Env.toCtx w (env, .notify n) = .ok (w', outs)) :
    w'.clock = env.now ∧ w'.state.plans = w.state.plans ∧
    outs = (match plan.splitType with
      | .auto => Split.forwards n.bank gifts
      | .manual => []) ∧
    ∀ r x, paidTo r x outs + (Split.booked w'.state.wallets plan.id r x
        - Split.booked w.state.wallets plan.id r x) = paidTo r x (Split.forwards n.bank gifts) := by
  obtain ⟨hstep, hrun⟩ := Contract.order_eq_ok.mp h
  obtain ⟨-, -, hclock, -⟩ := (Split.contract account).step_eq_ok.mp hstep
  obtain ⟨-, hsplit⟩ := (Split.ontransfer_eq_ok hsender hto hmemo).mp hrun
  obtain ⟨gifts', wallets, hgifts', hgive, hstate⟩ := (Split.split_eq_ok hplan).mp hsplit
  obtain rfl : gifts = gifts' := Except.ok.inj (hgifts.symm.trans hgifts')
  have hrange : ∀ g ∈ gifts, 0 < g.2.amount ∧ g.2.amount ≤ Asset.maxAmount := by
    intro g hg
    obtain ⟨-, hpositive, hle⟩ := Split.share_of_shares hgifts ⟨hpos, n.valid.1.2⟩ hg
    exact ⟨hpositive, hle.trans n.valid.1.2⟩
  have hcredited := Split.credited_of_giveAll hw.sound hrange hgive
  rw [hstate]
  refine ⟨hclock, rfl, ?_, hcredited⟩
  cases htype : plan.splitType with
  | auto =>
    rw [Split.giveAll_auto htype, Except.ok.injEq, Prod.mk.injEq] at hgive
    exact hgive.2.symm
  | manual => exact (Split.booked_of_giveAll htype hw.sound hrange hgive).1

/-- The shares that are forwarded are settled unless one of them would come back. -/
theorem settle_forwards_iff (hw : Split.Solvent w) (hto : n.recipient = account)
    (hpos : 0 < n.quantity.amount) (hgifts : Split.shares n.quantity plan.splitConf = .ok gifts) :
    (∃ h, settle account ((Split.contract account).received (.notify n) w.holding)
        (Split.forwards n.bank gifts) = .ok h) ↔ ∀ g ∈ gifts, g.1 ≠ account := by
  obtain ⟨hall, hsum⟩ := Split.shares_spec hgifts ⟨hpos, n.valid.1.2⟩
  constructor
  · rintro ⟨h, hsettle⟩ g hg
    exact (mem_of_settle hsettle (List.mem_map_of_mem hg)).1
  · intro hself
    apply settle_of_covered
    · intro t ht
      obtain ⟨g, hg, rfl⟩ := List.mem_map.mp ht
      exact ⟨hself g hg, (hall g hg).2.1⟩
    · intro x
      have hholding : 0 ≤ w.holding x := by
        rw [hw.holding]
        exact Split.recorded_nonneg hw.sound
      have hreceived : (Split.contract account).received (.notify n) w.holding x
          = w.holding x + if n.token = x then n.quantity.amount else 0 :=
        Contract.received_notify _ hto _ _
      rw [Split.outflow_forwards fun g hg => (hall g hg).1, hsum, hreceived]
      exact le_add_of_nonneg_left hholding

/-- flon.split accepts a transfer for one of its plans when the plan has room for it, and forwards
nothing to its own account. -/
theorem order_transfer_iff (hw : Split.Solvent w) (hconf : Split.RatesChecked plan.splitConf)
    (hplan : w.state.plans.find? plan.id = some plan) (hclock : w.clock ≤ env.now)
    (hsender : n.sender ≠ account) (hto : n.recipient = account)
    (hmemo : Split.memoPlan env.toCtx n.memo = .ok plan.id) (hpos : 0 < n.quantity.amount)
    (hgifts : Split.shares n.quantity plan.splitConf = .ok gifts) :
    (∃ w' outs, (Split.contract account).order Env.toCtx w (env, .notify n) = .ok (w', outs)) ↔
      Split.Room plan n w.state ∧ (plan.splitType = .auto → ∀ g ∈ gifts, g.1 ≠ account) := by
  have hroom : (∃ e, Split.split env.toCtx n.bank plan.id n.quantity w.state = .ok e) ↔
      Split.Room plan n w.state := Split.split_of_room_iff hw hconf hplan hpos
  rw [← hroom]
  constructor
  · rintro ⟨w', outs, h⟩
    obtain ⟨hstep, hrun⟩ := Contract.order_eq_ok.mp h
    obtain ⟨-, -, -, outs', hrun', hsettle⟩ := (Split.contract account).step_eq_ok.mp hstep
    rw [hrun, Except.ok.injEq, Prod.mk.injEq] at hrun'
    obtain ⟨-, rfl⟩ := hrun'
    obtain ⟨-, -, houts, -⟩ :=
      order_of_transfer hw hplan hsender hto hmemo hpos hgifts h
    refine ⟨⟨_, ((Split.ontransfer_eq_ok hsender hto hmemo).mp hrun).2⟩, fun htype => ?_⟩
    rw [htype] at houts
    rw [houts] at hsettle
    exact (settle_forwards_iff hw hto hpos hgifts).mp ⟨_, hsettle⟩
  · rintro ⟨⟨⟨s', outs⟩, hsplit⟩, hself⟩
    have hrun : (Split.contract account).run env.toCtx (.notify n) w.state = .ok (s', outs) :=
      (Split.ontransfer_eq_ok hsender hto hmemo).mpr ⟨hpos, hsplit⟩
    obtain ⟨gifts', wallets, hgifts', hgive, -⟩ := (Split.split_eq_ok hplan).mp hsplit
    obtain rfl : gifts = gifts' := Except.ok.inj (hgifts.symm.trans hgifts')
    have hsettle : ∃ h, settle account ((Split.contract account).received (.notify n) w.holding)
        outs = .ok h := by
      cases htype : plan.splitType with
      | auto =>
        rw [Split.giveAll_auto htype, Except.ok.injEq, Prod.mk.injEq] at hgive
        obtain ⟨-, rfl⟩ := hgive
        exact (settle_forwards_iff hw hto hpos hgifts).mpr (hself htype)
      | manual =>
        have hrange : ∀ g ∈ gifts, 0 < g.2.amount ∧ g.2.amount ≤ Asset.maxAmount := by
          intro g hg
          obtain ⟨-, hpositive, hle⟩ := Split.share_of_shares hgifts ⟨hpos, n.valid.1.2⟩ hg
          exact ⟨hpositive, hle.trans n.valid.1.2⟩
        obtain ⟨rfl, -⟩ := Split.booked_of_giveAll htype hw.sound hrange hgive
        exact ⟨_, rfl⟩
    obtain ⟨h, hsettle⟩ := hsettle
    refine ⟨⟨s', h, env.now⟩, outs, Contract.order_eq_ok.mpr ⟨?_, hrun⟩⟩
    rw [Contract.step_eq_ok]
    exact ⟨hclock, fun hc => hsender (Option.some.inj hc), rfl, _, hrun, hsettle⟩

/-- The receivers with a positive share are those that are handed one. -/
theorem forall_receivers_iff (hconf : Split.RatesChecked plan.splitConf)
    (hpos : 0 < n.quantity.amount) (hgifts : Split.shares n.quantity plan.splitConf = .ok gifts)
    {P : Name → Prop} : (∀ e ∈ plan.splitConf.zip
      (Apportion.topUp n.quantity.amount (Split.loopShares n.quantity.amount plan.splitConf)),
    0 < e.2 → P e.1.tokenReceiver) ↔ ∀ g ∈ gifts, P g.1 := by
  obtain ⟨gifts', hgifts', hpayments⟩ := Split.shares_of_checked hconf n.valid hpos
  obtain rfl : gifts = gifts' := Except.ok.inj (hgifts.symm.trans hgifts')
  obtain ⟨hall, -⟩ := Split.shares_spec hgifts ⟨hpos, n.valid.1.2⟩
  have hzip : plan.splitConf.zip
        (Split.payments n.bank ⟨n.quantity.symbol, n.bank⟩ plan.splitConf gifts)
      = plan.splitConf.map fun p => (p, paidTo p.tokenReceiver ⟨n.quantity.symbol, n.bank⟩
          (Split.forwards n.bank gifts)) := by
    rw [Split.payments, ← List.zip_map', List.map_id']
  rw [← hpayments n.bank, hzip, List.forall_mem_map]
  constructor
  · intro h g hg
    obtain ⟨hsymbol, hpositive, p, hp, hreceiver⟩ := hall g hg
    have hle : g.2.amount ≤ paidTo g.1 ⟨g.2.symbol, n.bank⟩ (Split.forwards n.bank gifts) := by
      apply le_paidTo (t := ⟨n.bank, g.1, g.2, []⟩)
      · intro t ht
        obtain ⟨g', hg', rfl⟩ := List.mem_map.mp ht
        exact (hall g' hg').2.1.le
      · exact List.mem_map_of_mem hg
    rw [hsymbol] at hle
    rw [← hreceiver] at hle ⊢
    exact h p hp (hpositive.trans_le hle)
  · intro h p hp hsome
    by_contra hnot
    have habsent : ∀ g ∈ gifts, g.1 ≠ p.tokenReceiver := by
      intro g hg hsame
      exact hnot (hsame ▸ h g hg)
    rw [Split.paidTo_forwards_of_absent habsent] at hsome
    exact lt_irrefl 0 hsome

end Transfers

/-! ## The transaction that follows -/

section Joint
variable (a : Accounts)

/-- What an account has been paid by flon.split, and what it has booked under a plan. -/
def credit (plan : Split.TokenSplitPlan) (x : ExtendedSymbol) (w : States a) (r : Name) : ℤ :=
  paidTo r x (w .split).sent + Split.booked (w .split).world.state.wallets plan.id r x

/-- The receivers that take a transfer without a memo. -/
def Takes (r : Name) : Prop := a.party? r = none ∨ a.party? r = some .airdrop

/-- A plan can take an amount of a token: its wallets have room for the shares when it books them,
and when it forwards them nobody refuses a share. -/
def Accepts (plan : Split.TokenSplitPlan) (x : ExtendedSymbol) (q : ℤ) (s : Split.State) : Prop :=
  ∀ e ∈ plan.splitConf.zip (Apportion.topUp q (Split.loopShares q plan.splitConf)),
    match plan.splitType with
    | .auto => 0 < e.2 → Takes a e.1.tokenReceiver
    | .manual => Split.booked s.wallets plan.id e.1.tokenReceiver x + e.2 ≤ Asset.maxAmount

/-- The contracts that take part in a distribution have not seen a later block. -/
structure Timely (w : States a) (now : TimePoint) : Prop where
  airdrop : (w .airdrop).world.clock ≤ now
  split : (w .split).world.clock ≤ now

/-- The receivers of the plan were credited their shares of an amount. -/
def Credited (plan : Split.TokenSplitPlan) (x : ExtendedSymbol) (q : ℤ) (w w' : States a) : Prop :=
  plan.splitConf.map (fun p => credit a plan x w' p.tokenReceiver - credit a plan x w p.tokenReceiver)
    = Apportion.topUp q (Split.loopShares q plan.splitConf)

/-- From `w` to `w'` the receivers of the plan were credited their shares of the transfer, and
nothing else happened but that flon.airdrop may have received tokens. -/
structure Distributed (plan : Split.TokenSplitPlan) (n : Notice) (w w' : States a) : Prop where
  plans : (w' .split).world.state.plans = (w .split).world.state.plans
  solvent : Split.Solvent (w' .split).world
  credits : Credited a plan n.token n.quantity.amount w w'
  others : ∀ r x, x ≠ n.token → credit a plan x w' r = credit a plan x w r
  wallets : ∀ r x, x ≠ n.token → Split.booked (w' .split).world.state.wallets plan.id r x
    = Split.booked (w .split).world.state.wallets plan.id r x
  budgets : (w' .airdrop).world.state = (w .airdrop).world.state
  vest : w' .vest = w .vest
  blindbox : w' .blindbox = w .blindbox

variable {a} {depth : ℕ} {env : Env} {n : Notice} {plan : Split.TokenSplitPlan} {w w' : States a}
  {gifts : List (Name × Asset)}

/-- A plan books its shares or forwards them. -/
theorem accepts_iff {s : Split.State} : Accepts a plan n.token n.quantity.amount s ↔
    Split.Room plan n s ∧ (plan.splitType = .auto → ∀ e ∈ plan.splitConf.zip
        (Apportion.topUp n.quantity.amount (Split.loopShares n.quantity.amount plan.splitConf)),
      0 < e.2 → Takes a e.1.tokenReceiver) := by
  unfold Accepts Split.Room
  cases plan.splitType with
  | auto => simp
  | manual => simp

/-- flon.airdrop takes every transfer. -/
theorem airdrop_takes (hclock : (w .airdrop).world.clock ≤ env.now)
    (hsender : n.sender ≠ a.account .airdrop) :
    ∃ w', (deployment a).transact (depth + 1) w ⟨.airdrop, env, .notify n⟩ = .ok w' := by
  have horder : ∃ w₁, (Airdrop.contract (a.account .airdrop)).order Env.toCtx (w .airdrop).world
      (env, .notify n) = .ok (w₁, []) := by
    refine ⟨⟨(w .airdrop).world.state, (Airdrop.contract (a.account .airdrop)).received (.notify n)
      (w .airdrop).world.holding, env.now⟩, Contract.order_eq_ok.mpr ⟨?_, rfl⟩⟩
    exact (Airdrop.contract (a.account .airdrop)).step_eq_ok.mpr
      ⟨hclock, fun hc => hsender (Option.some.inj hc), rfl, [], rfl, rfl⟩
  obtain ⟨w₁, horder⟩ := horder
  have hhandle : (deployment a).handle .airdrop (w .airdrop) (env, .notify n)
      = .ok (⟨w₁, _, _⟩, []) := Deployment.handle_eq_ok.mpr ⟨[], horder, rfl, rfl, rfl⟩
  exact ⟨_, Network.deliver_succ_eq_ok.mpr ⟨_, [], hhandle, rfl⟩⟩

/-- flon.airdrop does not look at the transfers that it takes. -/
theorem of_airdrop_takes
    (h : (deployment a).transact (depth + 1) w ⟨.airdrop, env, .notify n⟩ = .ok w') :
    (∀ q, q ≠ .airdrop → w' q = w q) ∧
    (w' .airdrop).world.state = (w .airdrop).world.state ∧
    (w' .airdrop).world.clock = env.now := by
  obtain ⟨d, messages, hhandle, hsent⟩ := Network.deliver_succ_eq_ok.mp h
  obtain ⟨outs, hactor, hnotices, -, -⟩ := Deployment.handle_eq_ok.mp hhandle
  have horder : (Airdrop.contract (a.account .airdrop)).order Env.toCtx (w .airdrop).world
      (env, .notify n) = .ok (d.world, outs) := hactor
  obtain ⟨hstep, hrun⟩ := Contract.order_eq_ok.mp horder
  obtain ⟨-, -, hclock, -⟩ := (Airdrop.contract (a.account .airdrop)).step_eq_ok.mp hstep
  have hkept : Except.ok ((w .airdrop).world.state, []) = Except.ok (d.world.state, outs) := hrun
  rw [Except.ok.injEq, Prod.mk.injEq] at hkept
  obtain ⟨hstate, rfl⟩ := hkept
  obtain rfl : [] = messages := Except.ok.inj hnotices
  obtain rfl : Function.update w .airdrop d = w' := Except.ok.inj hsent
  refine ⟨fun q hq => Function.update_of_ne hq _ _, ?_, ?_⟩
  · rw [Function.update_self]
    exact hstate.symm
  · rw [Function.update_self]
    exact hclock

/-- Nobody else takes a transfer without a memo from flon.split. -/
theorem transact_bare_refused {p : Party} (hp : p ≠ .airdrop) (hto : n.recipient = a.account p)
    (hsender : n.sender = a.account .split) (hmemo : n.memo = []) :
    (deployment a).transact (depth + 1) w ⟨p, env, (contracts a p).notify n⟩ ≠ .ok w' := by
  intro h
  unfold Deployment.transact at h
  obtain ⟨d, messages, hhandle, -⟩ := Network.deliver_succ_eq_ok.mp h
  obtain ⟨outs, hstep, -⟩ := Deployment.handle_eq_ok.mp hhandle
  cases p with
  | airdrop => exact hp rfl
  | split =>
    obtain ⟨horder, -⟩ := Contract.order_eq_ok.mp hstep
    obtain ⟨-, hsigner, -⟩ := (Split.contract (a.account .split)).step_eq_ok.mp horder
    exact hsigner (congrArg some hsender)
  | vest =>
    obtain ⟨-, hrun⟩ := Contract.order_eq_ok.mp hstep
    have hself : n.sender ≠ a.account .vest := by
      rw [hsender]
      intro hsame
      cases a.injective _ _ hsame
    have hvest : Vest.ontransfer (a.account .vest) env.toCtx n (w .vest).world.state
      = .ok (d.world.state, outs) := hrun
    rw [Vest.ontransfer, if_neg (by simp [hself, hto]), hmemo] at hvest
    simp only [bind_eq_ok, check_eq_ok, exists_const] at hvest
    obtain ⟨-, -, hvest⟩ := hvest
    cases hvest
  | blindbox =>
    obtain ⟨hbox, -⟩ := boxStep_eq_ok.mp hstep
    obtain ⟨-, -, hrun, -⟩ := Blindbox.step_spec hbox
    have hself : n.sender ≠ a.account .blindbox := by
      rw [hsender]
      intro hsame
      cases a.injective _ _ hsame
    have hsold : Blindbox.transferToken (a.account .blindbox) env n (w .blindbox).world.state
      = .ok (d.world.state, d.world.sent) := hrun
    rw [Blindbox.transferToken, if_neg (by simp [hself, hto]), hmemo] at hsold
    cases hsold

/-- From `w` to `w'` nothing happened but that flon.airdrop may have received tokens. -/
structure Rests (now : TimePoint) (w w' : States a) : Prop where
  others : ∀ q, q ≠ .airdrop → w' q = w q
  budgets : (w' .airdrop).world.state = (w .airdrop).world.state
  timely : (w' .airdrop).world.clock ≤ now

/-- A message that notifies a share which flon.split forwards. -/
def Forwarded (a : Accounts) (now : TimePoint) (m : (deployment a).Message) : Prop :=
  ∃ (env : Env) (n : Notice), m.2 = (env, (contracts a m.1).notify n) ∧ env.now = now ∧
    n.sender = a.account .split ∧ n.recipient = a.account m.1 ∧ n.memo = []

/-- Whoever is forwarded a share has to take it. -/
theorem forwarded_iff {messages : List (deployment a).Message}
    (hfrom : ∀ m ∈ messages, Forwarded a env.now m) (hclock : (w .airdrop).world.clock ≤ env.now) :
    ((∃ w', messages.foldlM ((deployment a).transact (depth + 1)) w = .ok w') ↔
      ∀ m ∈ messages, m.1 = .airdrop) ∧
    ∀ w', messages.foldlM ((deployment a).transact (depth + 1)) w = .ok w' →
      Rests env.now w w' := by
  let P : List (deployment a).Message → States a → Prop := fun ms v =>
    (∀ m ∈ ms, Forwarded a env.now m) ∧ Rests env.now w v
  have haccepts : ∀ m ms v, P (m :: ms) v →
      ((∃ v', (deployment a).transact (depth + 1) v m = .ok v') ↔ m.1 = .airdrop) := by
    rintro ⟨p, i⟩ ms v ⟨hms, hrests⟩
    obtain ⟨env', n, hi, hnow, hsender, hto, hmemo⟩ := hms _ List.mem_cons_self
    obtain rfl : i = (env', (contracts a p).notify n) := hi
    constructor
    · rintro ⟨v', hv'⟩
      by_contra hp
      exact transact_bare_refused hp hto hsender hmemo hv'
    · rintro rfl
      apply airdrop_takes
      · rw [hnow]
        exact hrests.timely
      · rw [hsender]
        intro hsame
        cases a.injective _ _ hsame
  have hstep : ∀ m ms v v', P (m :: ms) v →
      (deployment a).transact (depth + 1) v m = .ok v' → P ms v' := by
    rintro ⟨p, i⟩ ms v v' ⟨hms, hrests⟩ hv'
    obtain ⟨env', n, hi, hnow, hsender, hto, hmemo⟩ := hms _ List.mem_cons_self
    obtain rfl : i = (env', (contracts a p).notify n) := hi
    obtain rfl : p = .airdrop := (haccepts _ ms v ⟨hms, hrests⟩).mp ⟨v', hv'⟩
    obtain ⟨hothers, hstate, hclock'⟩ := of_airdrop_takes hv'
    refine ⟨fun m hm => hms m (List.mem_cons_of_mem _ hm), fun q hq => ?_, ?_, ?_⟩
    · exact (hothers q hq).trans (hrests.others q hq)
    · exact hstate.trans hrests.budgets
    · rw [hclock', hnow]
  have hstart : P messages w := ⟨hfrom, fun _ _ => rfl, rfl, hclock⟩
  exact ⟨Network.foldlM_iff P haccepts hstep hstart,
    fun w' hw' => (Network.rest_of_foldlM P hstep hstart hw').2⟩

/-- The shares of flon.split are forwarded without a memo, by plans of one type. -/
theorem share_of_outs {outs : List Transfer} (houts : outs = (match plan.splitType with
      | .auto => Split.forwards n.bank gifts
      | .manual => [])) {t : Transfer} (ht : t ∈ outs) :
    plan.splitType = .auto ∧ t.memo = [] ∧ ∃ g ∈ gifts, g.1 = t.recipient ∧ g.2 = t.quantity := by
  rw [houts] at ht
  cases htype : plan.splitType with
  | auto =>
    rw [htype] at ht
    obtain ⟨g, hg, rfl⟩ := List.mem_map.mp ht
    exact ⟨rfl, rfl, g, hg, rfl, rfl⟩
  | manual =>
    rw [htype] at ht
    cases ht

/-- What is notified when flon.split has taken a transfer. -/
theorem forwarded_of_handle (hw : Split.Solvent (w .split).world)
    (hplan : (w .split).world.state.plans.find? plan.id = some plan)
    (hsender : n.sender ≠ a.account .split) (hto : n.recipient = a.account .split)
    (hmemo : Split.memoPlan env.toCtx n.memo = .ok plan.id) (hpos : 0 < n.quantity.amount)
    (hgifts : Split.shares n.quantity plan.splitConf = .ok gifts)
    {d : (deployment a).State .split} {messages : List (deployment a).Message}
    (h : (deployment a).handle .split (w .split) (env, .notify n) = .ok (d, messages)) :
    (∀ m ∈ messages, Forwarded a env.now m) ∧
    ((∀ m ∈ messages, m.1 = .airdrop) ↔ (plan.splitType = .auto → ∀ g ∈ gifts, Takes a g.1)) := by
  obtain ⟨outs, horder, hnotices, -, -⟩ := Deployment.handle_eq_ok.mp h
  have houts := (order_of_transfer hw hplan hsender hto hmemo hpos hgifts horder).2.2.1
  have hself : ∀ {p : Party} {r : Name}, ((deployment a).actor p).self = r → a.account p = r := by
    rintro p r rfl
    exact (self_contracts a p).symm
  refine ⟨fun m hm => ?_, fun hall htype g hg => ?_, fun htakes m hm => ?_⟩
  · obtain ⟨n', hinput, hfrom, hrecipient, ht⟩ := Deployment.mem_notices hnotices hm
    obtain ⟨-, hnone, -⟩ := share_of_outs houts ht
    exact ⟨_, n', hinput, rfl, hfrom, (hself hrecipient).symm, hnone⟩
  · cases hparty : a.party? g.1 with
    | none => exact Or.inl hparty
    | some q =>
      have ht : (⟨n.bank, g.1, g.2, []⟩ : Transfer) ∈ outs := by
        rw [houts, htype]
        exact List.mem_map_of_mem hg
      obtain ⟨hvalid, hmem⟩ := Deployment.notice_of_mem hnotices ht hparty
      obtain rfl : q = .airdrop := hall _ hmem
      exact Or.inr hparty
  · obtain ⟨n', -, -, hrecipient, ht⟩ := Deployment.mem_notices hnotices hm
    obtain ⟨htype, -, g, hg, hreceiver, -⟩ := share_of_outs houts ht
    have hparty : a.party? g.1 = some m.1 := by
      rw [a.party?_eq_some, hreceiver]
      exact hself hrecipient
    rcases htakes htype g hg with hnone | hsome
    · rw [hnone] at hparty
      cases hparty
    · rw [hsome] at hparty
      exact (Option.some.inj hparty).symm

/-- A transfer to flon.split for one of its plans is accepted together with all that follows from it
exactly when the plan can take it, and it is then distributed. -/
theorem transact_split (hw : Split.Solvent (w .split).world)
    (hconf : Split.RatesChecked plan.splitConf)
    (hplan : (w .split).world.state.plans.find? plan.id = some plan) (htimely : Timely a w env.now)
    (hsender : n.sender ≠ a.account .split) (hto : n.recipient = a.account .split)
    (hmemo : Split.memoPlan env.toCtx n.memo = .ok plan.id) (hpos : 0 < n.quantity.amount) :
    ((∃ w', (deployment a).transact (depth + 2) w ⟨.split, env, .notify n⟩ = .ok w') ↔
      Accepts a plan n.token n.quantity.amount (w .split).world.state) ∧
    ∀ w', (deployment a).transact (depth + 2) w ⟨.split, env, .notify n⟩ = .ok w' →
      Distributed a plan n w w' ∧ Timely a w' env.now := by
  obtain ⟨gifts, hgifts, hpayments⟩ := Split.shares_of_checked hconf n.valid hpos
  have horder := order_transfer_iff hw hconf hplan htimely.split hsender hto hmemo hpos hgifts
  have hclock : ∀ d, (Function.update w .split d .airdrop).world.clock ≤ env.now := by
    intro d
    rw [Function.update_of_ne (by decide)]
    exact htimely.airdrop
  have hreceivers := @forall_receivers_iff n plan gifts hconf hpos hgifts (Takes a)
  rw [accepts_iff]
  refine ⟨⟨?_, ?_⟩, ?_⟩
  · rintro ⟨w', h⟩
    obtain ⟨d, messages, hhandle, hsent⟩ := Network.deliver_succ_eq_ok.mp h
    obtain ⟨hfrom, hairdrop⟩ :=
      forwarded_of_handle hw hplan hsender hto hmemo hpos hgifts hhandle
    obtain ⟨outs, hstep, -⟩ := Deployment.handle_eq_ok.mp hhandle
    obtain ⟨hroom, -⟩ := horder.mp ⟨_, _, hstep⟩
    refine ⟨hroom, fun htype => hreceivers.mpr ?_⟩
    exact hairdrop.mp ((forwarded_iff hfrom (hclock d)).1.mp ⟨w', hsent⟩) htype
  · rintro ⟨hroom, htakes⟩
    have hself : plan.splitType = .auto → ∀ g ∈ gifts, g.1 ≠ a.account .split := by
      intro htype g hg hsame
      have hparty : a.party? g.1 = some .split := a.party?_eq_some.mpr hsame.symm
      rcases hreceivers.mp (htakes htype) g hg with hnone | hsome
      · rw [hnone] at hparty
        cases hparty
      · rw [hsome] at hparty
        cases hparty
    obtain ⟨w₁, outs, hstep⟩ := horder.mpr ⟨hroom, hself⟩
    have houts := (order_of_transfer hw hplan hsender hto hmemo hpos hgifts hstep).2.2.1
    have hvalid : ∀ t ∈ outs, t.quantity.isValid := by
      intro t ht
      obtain ⟨-, -, g, hg, -, hquantity⟩ := share_of_outs houts ht
      obtain ⟨hsymbol, hsome, hle⟩ := Split.share_of_shares hgifts ⟨hpos, n.valid.1.2⟩ hg
      have hmax := n.valid.1.2
      rw [← hquantity]
      refine ⟨⟨?_, hle.trans hmax⟩, ?_⟩
      · have hlow := n.valid.1.1
        omega
      · rw [hsymbol]
        exact n.valid.2
    have hnotices : ∃ messages, (deployment a).notices env (a.account .split) outs = .ok messages :=
      Deployment.notices_of_valid hvalid
    obtain ⟨messages, hnotices⟩ := hnotices
    have hhandle : (deployment a).handle .split (w .split) (env, .notify n)
        = .ok (⟨w₁, _, _⟩, messages) :=
      Deployment.handle_eq_ok.mpr ⟨outs, hstep, hnotices, rfl, rfl⟩
    obtain ⟨hfrom, hairdrop⟩ :=
      forwarded_of_handle hw hplan hsender hto hmemo hpos hgifts hhandle
    obtain ⟨w', hsent⟩ := (forwarded_iff hfrom (hclock _)).1.mpr
      (hairdrop.mpr fun htype => hreceivers.mp (htakes htype))
    exact ⟨w', Network.deliver_succ_eq_ok.mpr ⟨_, messages, hhandle, hsent⟩⟩
  · intro w' h
    obtain ⟨d, messages, hhandle, hsent⟩ := Network.deliver_succ_eq_ok.mp h
    obtain ⟨hfrom, -⟩ := forwarded_of_handle hw hplan hsender hto hmemo hpos hgifts hhandle
    have hrests := (forwarded_iff hfrom (hclock d)).2 w' hsent
    obtain ⟨outs, hactor, -, -, hsent'⟩ := Deployment.handle_eq_ok.mp hhandle
    have hstep : (Split.contract (a.account .split)).order Env.toCtx (w .split).world
      (env, .notify n) = .ok (d.world, outs) := hactor
    have hlog : d.sent = (w .split).sent ++ outs := hsent'
    obtain ⟨hnow, hplans, houts, hcredited⟩ :=
      order_of_transfer hw hplan hsender hto hmemo hpos hgifts hstep
    have hd : w' .split = d := by
      rw [hrests.others .split (by decide), Function.update_self]
    have hothers : ∀ q, q ≠ .airdrop → q ≠ .split → w' q = w q := by
      intro q hairdrop hsplit
      rw [hrests.others q hairdrop, Function.update_of_ne hsplit]
    have hcredit : ∀ r x, credit a plan x w' r - credit a plan x w r
        = paidTo r x (Split.forwards n.bank gifts) := by
      intro r x
      have hr := hcredited r x
      unfold credit
      rw [hd, hlog, paidTo_append]
      omega
    have hzero : ∀ r x, x ≠ n.token → paidTo r x (Split.forwards n.bank gifts) = 0 := by
      intro r x hx
      apply Split.paidTo_of_token
      intro t ht
      obtain ⟨g, hg, rfl⟩ := List.mem_map.mp ht
      obtain ⟨hsymbol, -⟩ := Split.share_of_shares hgifts ⟨hpos, n.valid.1.2⟩ hg
      rw [Transfer.token, hsymbol]
      exact hx.symm
    refine ⟨⟨?_, ?_, ?_, ?_, ?_, ?_, ?_, ?_⟩, ?_, ?_⟩
    · rw [hd]
      exact hplans
    · rw [hd]
      exact Split.solvent_of_step hw (Contract.order_eq_ok.mp hstep).1
    · unfold Credited
      simp only [hcredit]
      exact hpayments n.bank
    · intro r x hx
      have hr := hcredit r x
      have hnone := hzero r x hx
      omega
    · intro r x hx
      have hr := hcredited r x
      have hnone := hzero r x hx
      have hpaid : paidTo r x outs = 0 := by
        rw [houts]
        cases plan.splitType with
        | auto => exact hnone
        | manual => rfl
      rw [hd]
      omega
    · rw [hrests.budgets, Function.update_of_ne (by decide)]
    · exact hothers .vest (by decide) (by decide)
    · exact hothers .blindbox (by decide) (by decide)
    · exact hrests.timely
    · rw [hd, hnow]

/-- flon.split accepts a transfer only when its memo names a stored plan. -/
theorem plan_of_transact (hsender : n.sender ≠ a.account .split) (hto : n.recipient = a.account .split)
    (h : (deployment a).transact (depth + 1) w ⟨.split, env, .notify n⟩ = .ok w') :
    ∃ plan, Split.memoPlan env.toCtx n.memo = .ok plan.id ∧
      (w .split).world.state.plans.find? plan.id = some plan := by
  obtain ⟨d, messages, hhandle, -⟩ := Network.deliver_succ_eq_ok.mp h
  obtain ⟨outs, hstep, -⟩ := Deployment.handle_eq_ok.mp hhandle
  obtain ⟨-, hrun⟩ := Contract.order_eq_ok.mp hstep
  obtain ⟨planId, hmemo⟩ := Split.memoPlan_of_ontransfer hsender hto hrun
  obtain ⟨-, hsplit⟩ := (Split.ontransfer_eq_ok hsender hto hmemo).mp hrun
  obtain ⟨plan, hplan⟩ := Split.plan_of_split hsplit
  obtain rfl := (Table.find?_eq_some.mp hplan).2
  exact ⟨plan, hmemo, hplan⟩

/-- A contract pays flon.split alone: the transaction goes on exactly when the memo names a stored
plan that can take the payment. -/
theorem transact_payment (hw : Split.Solvent (w .split).world)
    (hconf : Split.PlansChecked (w .split).world.state) (htimely : Timely a w env.now)
    (hsender : n.sender ≠ a.account .split) (hto : n.recipient = a.account .split)
    (hpos : 0 < n.quantity.amount) :
    (∃ w', (deployment a).transact (depth + 2) w ⟨.split, env, .notify n⟩ = .ok w') ↔
      ∃ plan, Split.memoPlan env.toCtx n.memo = .ok plan.id ∧
        (w .split).world.state.plans.find? plan.id = some plan ∧
        Accepts a plan n.token n.quantity.amount (w .split).world.state := by
  constructor
  · rintro ⟨w', h⟩
    obtain ⟨plan, hmemo, hplan⟩ := plan_of_transact hsender hto h
    have hchecked := hconf plan (Table.find?_eq_some.mp hplan).1
    exact ⟨plan, hmemo, hplan,
      (transact_split hw hchecked hplan htimely hsender hto hmemo hpos).1.mp ⟨w', h⟩⟩
  · rintro ⟨plan, hmemo, hplan, haccepts⟩
    have hchecked := hconf plan (Table.find?_eq_some.mp hplan).1
    exact (transact_split hw hchecked hplan htimely hsender hto hmemo hpos).1.mpr haccepts

/-- A transfer to flon.split for a plan. -/
structure ForPlan (a : Accounts) (env : Env) (plan : Split.TokenSplitPlan) (n : Notice) : Prop where
  sender : n.sender ≠ a.account .split
  recipient : n.recipient = a.account .split
  memo : Split.memoPlan env.toCtx n.memo = .ok plan.id
  positive : 0 < n.quantity.amount

/-- Whether a plan can take a transfer depends on what its wallets record of the token. -/
theorem accepts_congr {s s' : Split.State} (h : ∀ r, Split.booked s'.wallets plan.id r n.token
      = Split.booked s.wallets plan.id r n.token) : Accepts a plan n.token n.quantity.amount s' ↔
      Accepts a plan n.token n.quantity.amount s := by
  unfold Accepts
  simp only [h]

/-- From `w` to `v` the transfers of the plan before `rest` were distributed, and those in `rest`
are as before. -/
structure PaidUpTo (a : Accounts) (now : TimePoint) (plan : Split.TokenSplitPlan) (ns : List Notice)
    (w : States a) (rest : List Notice) (v : States a) : Prop where
  done : ∃ done, ns = done ++ rest ∧ ∀ n ∈ done, Credited a plan n.token n.quantity.amount w v
  fresh : ∀ n ∈ rest, ∀ r, credit a plan n.token v r = credit a plan n.token w r ∧
    Split.booked (v .split).world.state.wallets plan.id r n.token
      = Split.booked (w .split).world.state.wallets plan.id r n.token
  plans : (v .split).world.state.plans = (w .split).world.state.plans
  solvent : Split.Solvent (v .split).world
  budgets : (v .airdrop).world.state = (w .airdrop).world.state
  timely : Timely a v now

theorem PaidUpTo.step {ns rest : List Notice} {v v' : States a}
    (h : PaidUpTo a env.now plan ns w (n :: rest) v) (hdistinct : (ns.map Notice.token).Nodup)
    (hd : Distributed a plan n v v') (htimely : Timely a v' env.now) :
    PaidUpTo a env.now plan ns w rest v' := by
  obtain ⟨done, rfl, hdone⟩ := h.done
  rw [List.map_append, List.map_cons, List.nodup_append, List.nodup_cons] at hdistinct
  obtain ⟨-, ⟨hrest, -⟩, hapart⟩ := hdistinct
  have hbefore : ∀ n' ∈ done, n'.token ≠ n.token := fun n' hn' =>
    hapart _ (List.mem_map_of_mem hn') _ List.mem_cons_self
  have hafter : ∀ n' ∈ rest, n'.token ≠ n.token := fun n' hn' hsame =>
    hrest (hsame ▸ List.mem_map_of_mem hn')
  refine ⟨⟨done ++ [n], ?_, fun n' hn' => ?_⟩, fun n' hn' r => ?_, ?_, hd.solvent, ?_, htimely⟩
  · rw [List.append_assoc, List.singleton_append]
  · unfold Credited
    rcases List.mem_append.mp hn' with hn' | hn'
    · simp only [hd.others _ _ (hbefore n' hn')]
      exact hdone n' hn'
    · obtain rfl := List.mem_singleton.mp hn'
      simp only [← (h.fresh n' List.mem_cons_self _).1]
      exact hd.credits
  · obtain ⟨hcredit, hbooked⟩ := h.fresh n' (List.mem_cons_of_mem _ hn') r
    exact ⟨(hd.others r _ (hafter n' hn')).trans hcredit,
      (hd.wallets r _ (hafter n' hn')).trans hbooked⟩
  · exact hd.plans.trans h.plans
  · exact hd.budgets.trans h.budgets

/-- flon.split is sent transfers one after the other. -/
def takeAll (a : Accounts) (depth : ℕ) (env : Env) (ns : List Notice) (w : States a) :
    Except Abort (States a) :=
  ns.foldlM (fun v n => (deployment a).transact depth v ⟨.split, env, .notify n⟩) w

/-- Transfers of different tokens do not get in each other's way: they are accepted one after the
other when the plan can take each of them now, and each is distributed. -/
theorem transact_payments (hw : Split.Solvent (w .split).world)
    (hconf : Split.RatesChecked plan.splitConf)
    (hplan : (w .split).world.state.plans.find? plan.id = some plan) (htimely : Timely a w env.now)
    {ns : List Notice} (hns : ∀ n ∈ ns, ForPlan a env plan n)
    (hdistinct : (ns.map Notice.token).Nodup) :
    ((∃ w', takeAll a (depth + 2) env ns w = .ok w') ↔
      ∀ n ∈ ns, Accepts a plan n.token n.quantity.amount (w .split).world.state) ∧
    ∀ w', takeAll a (depth + 2) env ns w = .ok w' →
      ∀ n ∈ ns, Credited a plan n.token n.quantity.amount w w' := by
  have hsplit : ∀ n rest v, PaidUpTo a env.now plan ns w (n :: rest) v →
      ((∃ v', (deployment a).transact (depth + 2) v ⟨.split, env, .notify n⟩ = .ok v') ↔
        Accepts a plan n.token n.quantity.amount (w .split).world.state) ∧
      ∀ v', (deployment a).transact (depth + 2) v ⟨.split, env, .notify n⟩ = .ok v' →
        Distributed a plan n v v' ∧ Timely a v' env.now := by
    intro n rest v h
    have hn : n ∈ ns := by
      obtain ⟨done, rfl, -⟩ := h.done
      exact List.mem_append_right _ List.mem_cons_self
    obtain ⟨hsender, hto, hmemo, hpos⟩ := hns n hn
    rw [← accepts_congr fun r => (h.fresh n List.mem_cons_self r).2]
    exact transact_split h.solvent hconf (h.plans ▸ hplan) h.timely hsender hto hmemo hpos
  have hstep : ∀ n rest v v', PaidUpTo a env.now plan ns w (n :: rest) v →
      (deployment a).transact (depth + 2) v ⟨.split, env, .notify n⟩ = .ok v' →
      PaidUpTo a env.now plan ns w rest v' := by
    intro n rest v v' h hv'
    obtain ⟨hdistributed, htimely'⟩ := (hsplit n rest v h).2 v' hv'
    exact h.step hdistinct hdistributed htimely'
  have hstart : PaidUpTo a env.now plan ns w ns w :=
    ⟨⟨[], rfl, fun n hn => absurd hn List.not_mem_nil⟩, fun _ _ _ => ⟨rfl, rfl⟩, rfl, hw, rfl, htimely⟩
  refine ⟨Network.foldlM_iff (PaidUpTo a env.now plan ns w)
    (fun n rest v h => (hsplit n rest v h).1) hstep hstart, fun w' hw' => ?_⟩
  have hend := Network.rest_of_foldlM (PaidUpTo a env.now plan ns w) hstep hstart hw'
  obtain ⟨done, hdone, hcredited⟩ := hend.done
  rw [List.append_nil] at hdone
  exact fun n hn => hcredited n (hdone ▸ hn)

end Joint
end Suite
end ToolkitContracts
