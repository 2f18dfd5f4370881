import ToolkitContracts.Proxyswap.Moves

/-!
# Escrow of flon.proxyswap

An order should be refunded in the token that was deposited for it. The contract does not
record that token; `cancelorder` looks it up in the trading pair, by the symbol. A history
variable keeps what the contract does not, so that the two can be compared: they agree as
long as every deposit comes from the token contract that the pair names for its symbol, and
no pair is removed under an open order.
-/

namespace ToolkitContracts
namespace Proxyswap

/-! ## Where deposits come from -/

/-- The token that delivered the deposit of each order. -/
abbrev Origin := ℕ → ExtendedSymbol

/-- The origins after an input that led to the tables `s'`: an accepted deposit opened the
order with the last id. -/
def Origin.after (g : Origin) (self : Name) (i : Input Action) (s' : State) : Origin :=
  match i with
  | .notify n =>
    if n.recipient = self then fun id => if id = s'.gstate.lastOrderId then n.token else g id
    else g
  | .act _ => g

/-- One transaction, with the origin of its deposit written down. -/
def stepRecorded (self : Name) :
    World State × Origin → Ctx × Input Action → Except Abort (World State × Origin) :=
  Transition.recording (contract self).step fun g _ i w' => g.after self i.2 w'.state

/-- `cancelorder` refunds every open order: what was paid, to who paid it, in the token that
delivered it. -/
def RefundsOrigin (self : Name) (p : World State × Origin) : Prop :=
  ∀ o ∈ p.1.state.orders, ∀ ctx : Ctx, ctx.hasAuth p.1.state.gstate.oracle = true →
    ∃ s' t, exec self ctx (.cancelorder o.orderId) p.1.state = .ok (s', [t]) ∧
      t.token = p.2 o.orderId ∧ t.quantity = o.paid ∧ t.recipient = o.owner

/-- The token that `cancelorder` would refund an order in. -/
def refundToken (s : State) (o : Order) : Option ExtendedSymbol :=
  match s.pairs.find? o.tpcode.raw with
  | none => none
  | some pair =>
    match getTokenContract pair o.paid with
    | .ok bank => some ⟨o.paid.symbol, bank⟩
    | .error _ => none

/-- The deposits of the open orders that `cancelorder` would refund in the token `x`. -/
def refundable (s : State) (x : ExtendedSymbol) : ℤ :=
  s.orders.sum fun o => if refundToken s o = some x then o.paid.amount else 0

/-- A deposit comes from the token contract that the pair named in its memo has for its
symbol, and a pair is removed only when no open order names it. -/
def KeepsEscrow (self : Name) (s : State) : Input Action → Prop
  | .notify n => n.recipient = self → ∀ pair ∈ s.pairs.rows, memoPair n = .ok pair.tpcode →
      getTokenContract pair n.quantity = .ok n.bank
  | .act (.rmtradpair tpcode) => ∀ o ∈ s.orders.rows, o.tpcode ≠ tpcode
  | .act _ => True

instance (self : Name) (s : State) (i : Input Action) : Decidable (KeepsEscrow self s i) := by
  rcases i with n | a
  · dsimp only [KeepsEscrow]
    infer_instance
  · rcases a with _ | _ | _ | _ | _ | _ | _ | _ | _ <;> dsimp only [KeepsEscrow] <;> infer_instance

/-- The input finishes an order. -/
def IsFinish : Input Action → Prop
  | .act (.finishorder _ _ _ _ _) => True
  | _ => False

instance (i : Input Action) : Decidable (IsFinish i) := by
  rcases i with n | a
  · exact inferInstanceAs (Decidable False)
  · rcases a with _ | _ | _ | _ | _ | _ | _ | _ | _ <;> dsimp only [IsFinish] <;> infer_instance

/-! ## One move -/

/-- The order can be refunded in the token that `g` has for it. -/
def Escrowed (g : Origin) (s : State) (o : Order) : Prop :=
  ∃ pair, Refunds s o pair (g o.orderId).contract ∧ (g o.orderId).sym = o.paid.symbol

/-- What the contract should hold of the token `x` for its open orders. -/
def heldFor (g : Origin) (orders : Table Order.orderId) (x : ExtendedSymbol) : ℤ :=
  orders.sum fun o => if g o.orderId = x then o.paid.amount else 0

section Moves
variable {self : Name} {ctx : Ctx} {s s' : State} {g : Origin} {o : Order} {pair pair' : Pair}
  {i : Input Action} {outs : List Transfer} {n : Notice}

theorem getTokenContract_congr (hleft : pair'.leftSymbol = pair.leftSymbol)
    (hright : pair'.rightSymbol = pair.rightSymbol) (q : Asset) :
    getTokenContract pair' q = getTokenContract pair q := by
  unfold getTokenContract
  rw [hleft, hright]

/-- A refund looks at its order and at the two tokens of the pair only. -/
theorem Refunds.congr {bank : Name} (h : Refunds s o pair bank)
    (hstored : s'.orders.find? o.orderId = some o)
    (hnamed : s'.pairs.find? o.tpcode.raw = some pair') (hleft : pair'.leftSymbol = pair.leftSymbol)
    (hright : pair'.rightSymbol = pair.rightSymbol) : Refunds s' o pair' bank := by
  refine ⟨hstored, h.status, hnamed, ?_, h.pos, ?_⟩
  · have hsame : pair'.paidSymbol o.type = pair.paidSymbol o.type := by
      unfold Pair.paidSymbol
      rw [hleft, hright]
    rw [hsame]
    exact h.symbol
  · rw [getTokenContract_congr hleft hright]
    exact h.contract

/-- The pairs of open orders keep their tokens through every move under the guard. -/
theorem pair_of_move (hm : Move self s i s' outs)
    (hremove : ∀ tpcode, i = .act (.rmtradpair tpcode) → o.tpcode ≠ tpcode)
    (hnamed : s.pairs.find? o.tpcode.raw = some pair) :
    ∃ pair', s'.pairs.find? o.tpcode.raw = some pair' ∧
      pair'.leftSymbol = pair.leftSymbol ∧ pair'.rightSymbol = pair.rightSymbol := by
  cases hm with
  | ignore | deposit | configure | finishorder | cancelorder => exact ⟨pair, hnamed, rfl, rfl⟩
  | addtradpair a pair₁ hnew =>
    refine ⟨pair, ?_, rfl, rfl⟩
    show (s.pairs.put pair₁).find? _ = _
    rw [Table.find?_put, if_neg]
    · exact hnamed
    -- `addtradpair` asserts that the code is new
    · intro hkey
      rw [hkey, hnew] at hnamed
      cases hnamed
  | rmtradpair tpcode =>
    refine ⟨pair, ?_, rfl, rfl⟩
    show (s.pairs.erase _).find? _ = _
    rw [Table.find?_erase, if_neg]
    · exact hnamed
    · exact fun hkey => hremove tpcode rfl (Name.raw_inj.mp hkey)
  | setstatus a pair₁ status hpair =>
    -- a change of status keeps the two tokens
    show ∃ pair', (s.pairs.put _).find? _ = _ ∧ _
    rw [Table.find?_put]
    by_cases hkey : o.tpcode.raw = pair₁.tpcode.raw
    · rw [if_pos hkey]
      rw [hkey, hpair, Option.some.injEq] at hnamed
      subst hnamed
      exact ⟨_, rfl, rfl, rfl⟩
    · rw [if_neg hkey]
      exact ⟨pair, hnamed, rfl, rfl⟩

/-- An order that stays in the table stays escrowed. -/
theorem Escrowed.keep {g' : Origin} (h : Escrowed g s o) (hm : Move self s i s' outs)
    (hremove : ∀ tpcode, i = .act (.rmtradpair tpcode) → o.tpcode ≠ tpcode)
    (hstored : o ∈ s'.orders) (horigin : g' o.orderId = g o.orderId) : Escrowed g' s' o := by
  obtain ⟨pair, hrefund, hsym⟩ := h
  obtain ⟨pair', hnamed, hleft, hright⟩ := pair_of_move hm hremove hrefund.named
  unfold Escrowed
  rw [horigin]
  exact ⟨pair', hrefund.congr (Table.find?_self hstored) hnamed hleft hright, hsym⟩

/-- A deposit that comes from the pair's token contract is escrowed. -/
theorem Opens.escrowed (ho : Opens n s pair o) (hbank : getTokenContract pair n.quantity = .ok n.bank)
    (hstored : s'.orders.find? o.orderId = some o) (hpairs : s'.pairs = s.pairs)
    (horigin : g o.orderId = n.token) : Escrowed g s' o := by
  refine ⟨pair, ⟨hstored, ho.status, ?_, ?_, ?_, ?_⟩, ?_⟩
  · rw [hpairs, ho.tpcode]
    exact ho.named
  · rw [ho.paid]
    exact ho.symbol
  · rw [ho.paid]
    exact ho.pos
  · rw [horigin, ho.paid]
    exact hbank
  · rw [horigin, ho.paid]
    rfl

/-- The deposit's token is the origin of the order with the last id. -/
theorem Origin.after_deposit (g : Origin) (hto : n.recipient = self) :
    g.after self (.notify n) s' = fun id => if id = s'.gstate.lastOrderId then n.token else g id :=
  if_pos hto

theorem Origin.after_ignored (g : Origin) (hto : n.recipient ≠ self) :
    g.after self (.notify n) s' = g := if_neg hto

/-- Every move under the guard keeps every open order escrowed, in the token that delivered
its deposit. -/
theorem escrowed_of_move (h : ∀ o ∈ s.orders, Escrowed g s o) (hm : Move self s i s' outs)
    (hsigner : Contract.signer? i ≠ some self) (hok : KeepsEscrow self s i) :
    ∀ o ∈ s'.orders, Escrowed (g.after self i s') s' o := by
  -- orders that were open before keep their origin
  have hkeep : ∀ o ∈ s.orders, o ∈ s'.orders → g.after self i s' o.orderId = g o.orderId →
      Escrowed (g.after self i s') s' o := by
    intro o ho hstored horigin
    refine (h o ho).keep hm ?_ hstored horigin
    rintro tpcode rfl
    exact hok o ho
  intro o ho
  cases hm with
  | ignore n hn =>
    have hother : n.recipient ≠ self := hn.resolve_right (Contract.sender_ne hsigner)
    refine hkeep o ho ho ?_
    rw [Origin.after_ignored g hother]
  | deposit n pair o₁ hto hopens =>
    rw [Origin.after_deposit g hto] at hkeep ⊢
    -- the new order is escrowed by the guard; the old ones have other ids
    rcases Table.mem_put.mp ho with rfl | ⟨hold, hne⟩
    · have hmem := (Table.find?_eq_some.mp hopens.named).1
      refine hopens.escrowed (hok hto pair hmem hopens.memo) (Table.find?_self ho) rfl ?_
      exact if_pos hopens.orderId
    · refine hkeep o hold ho (if_neg fun hid => hne ?_)
      exact hid.trans hopens.orderId.symm
  | finishorder | cancelorder =>
    have hold := (Table.mem_erase.mp ho).1
    exact hkeep o hold ho rfl
  | configure | addtradpair | rmtradpair | setstatus => exact hkeep o ho ho rfl

/-- The refund of an escrowed order is paid in the token that delivered its deposit. -/
theorem Escrowed.token {bank : Name} (h : Escrowed g s o) (hrefund : Refunds s o pair bank) :
    (o.refund bank).token = g o.orderId := by
  obtain ⟨pair', hrefund', hsym⟩ := h
  -- both refunds look at the same pair
  have hpair : pair' = pair := Option.some.inj (hrefund'.named.symm.trans hrefund.named)
  have hcontract := hrefund'.contract
  rw [hpair, hrefund.contract, Except.ok.injEq] at hcontract
  show (⟨o.paid.symbol, bank⟩ : ExtendedSymbol) = _
  rw [hcontract, ← hsym]

/-- As long as no order is finished, the account's tokens follow the open orders. -/
theorem flow_of_move (h : ∀ o ∈ s.orders, Escrowed g s o) (hm : Move self s i s' outs)
    (hsigner : Contract.signer? i ≠ some self) (hfinish : ¬ IsFinish i) (hd : Holding)
    (x : ExtendedSymbol) :
    (contract self).received i hd x - outflow x outs
      = hd x + (heldFor (g.after self i s') s'.orders x - heldFor g s.orders x) := by
  cases hm with
  | ignore n hn =>
    have hother : n.recipient ≠ self := hn.resolve_right (Contract.sender_ne hsigner)
    rw [Origin.after_ignored g hother, Contract.received_ignored _ hother, outflow_nil]
    omega
  | deposit n pair o₁ hto hopens =>
    rw [Origin.after_deposit g hto, Contract.received_notify _ hto, outflow_nil, sub_zero]
    have hnew := Table.sum_put_new hopens.new fun o => if (if o.orderId
      = u64 (s.gstate.lastOrderId + 1) then n.token else g o.orderId) = x then o.paid.amount else 0
    -- the origins of the other orders are unchanged
    have hold : (s.orders.sum fun o => if (if o.orderId = u64 (s.gstate.lastOrderId + 1)
        then n.token else g o.orderId) = x then o.paid.amount else 0) = heldFor g s.orders x := by
      refine Table.sum_congr fun o ho => ?_
      have hne : o.orderId ≠ o₁.orderId := Table.find?_eq_none.mp hopens.new o ho
      rw [hopens.orderId] at hne
      rw [if_neg hne]
    rw [if_pos hopens.orderId, hopens.paid, hold] at hnew
    show _ = hd x + (Table.sum (s.orders.put o₁) _ - _)
    rw [hnew]
    omega
  | finishorder => exact absurd trivial hfinish
  | cancelorder o pair bank hrefund =>
    -- the refund goes out in the token that came in, so it is the order's part of the sum
    have htoken := (h o (Table.find?_eq_some.mp hrefund.stored).1).token hrefund
    have hsum := Table.sum_erase hrefund.stored fun o =>
      if g o.orderId = x then o.paid.amount else 0
    rw [Contract.received_act, outflow_cons, outflow_nil, add_zero, htoken]
    show hd x - (if g o.orderId = x then o.paid.amount else 0)
      = hd x + (Table.sum (s.orders.erase o.orderId) (fun o =>
        if g o.orderId = x then o.paid.amount else 0) - Table.sum s.orders _)
    omega
  | configure | addtradpair | rmtradpair | setstatus =>
    rw [Contract.received_act, outflow_nil]
    show _ = hd x + (heldFor g s.orders x - heldFor g s.orders x)
    omega

/-- The token that an escrowed order would be refunded in. -/
theorem refundToken_eq (h : Escrowed g s o) : refundToken s o = some (g o.orderId) := by
  obtain ⟨pair, hrefund, hsym⟩ := h
  unfold refundToken
  rw [hrefund.named]
  dsimp only
  rw [hrefund.contract]
  show some (⟨o.paid.symbol, (g o.orderId).contract⟩ : ExtendedSymbol) = _
  rw [← hsym]

theorem refundable_eq (h : ∀ o ∈ s.orders, Escrowed g s o) (x : ExtendedSymbol) :
    refundable s x = heldFor g s.orders x := by
  unfold refundable heldFor
  refine Table.sum_congr fun o ho => ?_
  rw [refundToken_eq (h o ho)]
  simp only [Option.some.injEq]

end Moves

/-! ## Whole runs -/

section Runs
variable {self : Name} {p p' : World State × Origin} {i : Ctx × Input Action} {o : Order}
  {is : List (Ctx × Input Action)} {clock : TimePoint} {g : Origin}

theorem refundsOrigin_of_escrowed (h : ∀ o ∈ p.1.state.orders, Escrowed p.2 p.1.state o) :
    RefundsOrigin self p := by
  intro o ho ctx hauth
  obtain ⟨pair, hrefund, hsym⟩ := h o ho
  exact ⟨_, _, cancelorder_of hauth hrefund, (h o ho).token hrefund, rfl, rfl⟩

/-- An order that `RefundsOrigin` speaks about is refunded by the contract it came from. -/
theorem refunds_of_refundsOrigin (h : RefundsOrigin self p) (ho : o ∈ p.1.state.orders) :
    ∃ pair, Refunds p.1.state o pair (p.2 o.orderId).contract := by
  have hauth : (Ctx.signed p.1.state.gstate.oracle 0).hasAuth p.1.state.gstate.oracle = true :=
    decide_eq_true (List.mem_singleton.mpr rfl)
  obtain ⟨s', t, hexec, htoken, -⟩ := h o ho _ hauth
  obtain ⟨o₁, pair, bank, hid, hrefund, -, houts⟩ := refunds_of_cancelorder hexec
  have hsame : o₁ = o := Table.eq_of_key_eq (Table.find?_eq_some.mp hrefund.stored).1 ho hid
  subst hsame
  have hbank : bank = (p.2 o₁.orderId).contract := by
    rw [← htoken, (List.cons.inj houts).1]
    rfl
  rw [← hbank]
  exact ⟨pair, hrefund⟩

/-- A deposit that does not come from the pair's token contract opens an order that would be
refunded by another contract. -/
theorem not_refundsOrigin_of_deposit {ctx : Ctx} {n : Notice}
    (hs : stepRecorded self p (ctx, .notify n) = .ok p')
    (hbreak : ¬ KeepsEscrow self p.1.state (.notify n)) : ¬ RefundsOrigin self p' := by
  intro hrefunds
  obtain ⟨hstep, hrecord⟩ := Transition.recording_eq_ok.mp hs
  obtain ⟨-, hsigner, -, outs, hrun, -⟩ := ((contract self).step_eq_ok).mp hstep
  have hm := move_of_run hrun
  have hreturn := fun o ho => refunds_of_refundsOrigin (o := o) hrefunds ho
  rw [hrecord] at hreturn
  generalize p'.1.state = s' at hm hreturn
  cases hm with
  | ignore n hn =>
    have hother : n.recipient ≠ self := hn.resolve_right (Contract.sender_ne hsigner)
    exact hbreak fun hto => absurd hto hother
  | deposit n pair o₁ hto hopens =>
    -- the new order's refund would come from its pair, hence from the pair of the memo
    refine hbreak fun _ pair' hpair' hmemo => ?_
    -- the memo names one pair only
    have hsame : pair' = pair := by
      refine Table.eq_of_key_eq hpair' (Table.find?_eq_some.mp hopens.named).1 ?_
      exact congrArg Name.raw (Except.ok.inj (hmemo.symm.trans hopens.memo))
    obtain ⟨pair₁, hrefund⟩ := hreturn o₁ (Table.mem_put_self _ _)
    have hnamed : p.1.state.pairs.find? o₁.tpcode.raw = some pair₁ := hrefund.named
    rw [hopens.tpcode, hopens.named, Option.some.injEq] at hnamed
    have hcontract := hrefund.contract
    rw [Origin.after_deposit p.2 hto] at hcontract
    dsimp only at hcontract
    rw [if_pos hopens.orderId, hopens.paid, ← hnamed] at hcontract
    rw [hsame]
    exact hcontract

/-- When a pair is removed, its open orders cannot be refunded at all. -/
theorem not_refundsOrigin_of_rmtradpair {ctx : Ctx} {tpcode : Name}
    (hs : stepRecorded self p (ctx, .act (.rmtradpair tpcode)) = .ok p')
    (hbreak : ¬ KeepsEscrow self p.1.state (.act (.rmtradpair tpcode))) : ¬ RefundsOrigin self p' := by
  intro hrefunds
  obtain ⟨hstep, -⟩ := Transition.recording_eq_ok.mp hs
  obtain ⟨outs, hrun⟩ := (contract self).run_of_step hstep
  have hexec : rmtradpair ctx tpcode p.1.state = .ok (p'.1.state, outs) := hrun
  simp only [rmtradpair, bind_eq_ok, require_eq_ok, pure_eq_ok, exists_const, Prod.mk.injEq,
    Ctx.requireAuth_eq_ok] at hexec
  obtain ⟨-, pair, -, hstate, -⟩ := hexec
  refine hbreak fun o ho htpcode => ?_
  have hstored : o ∈ p'.1.state.orders := by
    rw [← hstate]
    exact ho
  obtain ⟨pair', hrefund⟩ := refunds_of_refundsOrigin hrefunds hstored
  have hnamed := hrefund.named
  rw [← hstate] at hnamed
  -- the order names the pair that was just erased
  have herased : (p.1.state.pairs.erase tpcode.raw).find? o.tpcode.raw = some pair' := hnamed
  rw [Table.find?_erase, if_pos (congrArg Name.raw htpcode)] at herased
  cases herased

/-- Only deposits and removals of pairs can break the guard. -/
theorem not_refundsOrigin_of_step (hs : stepRecorded self p i = .ok p')
    (hbreak : ¬ KeepsEscrow self p.1.state i.2) : ¬ RefundsOrigin self p' := by
  rcases i with ⟨ctx, inp⟩
  cases inp with
  | notify n => exact not_refundsOrigin_of_deposit hs hbreak
  | act a =>
    cases a with
    | rmtradpair tpcode => exact not_refundsOrigin_of_rmtradpair hs hbreak
    | init | addtradpair | distradpair | enabtradpair | finishorder | cancelorder | setadmin
      | setoracle => exact absurd trivial hbreak

/-- In every run whose deposits come from the token contract that the pair names, and whose
removed pairs have no open orders, every open order is refunded in the token that delivered
its deposit, and without `finishorder` the account holds of every token the deposits of the
orders that are refunded in it. A step that breaks the condition breaks the refunds. -/
theorem escrow_refunded_in_kind
    (hrun : Transition.Run (stepRecorded self) (fun p i => KeepsEscrow self p.1.state i.2)
      (genesis clock, g) is p) :
    RefundsOrigin self p ∧
    ((∀ i ∈ is, ¬ IsFinish i.2) → ∀ x, p.1.holding x = refundable p.1.state x) ∧
    ∀ i p', stepRecorded self p i = .ok p' → ¬ KeepsEscrow self p.1.state i.2 →
      ¬ RefundsOrigin self p' := by
  -- the second part speaks about the inputs so far, so the invariant does too
  have hinv := hrun.invariant_inputs (P := fun is p =>
    (∀ o ∈ p.1.state.orders, Escrowed p.2 p.1.state o) ∧
    ((∀ i ∈ is, ¬ IsFinish i.2) → ∀ x, p.1.holding x = heldFor p.2 p.1.state.orders x)) ?_ ?_
  · obtain ⟨hescrowed, hholding⟩ := hinv
    refine ⟨refundsOrigin_of_escrowed hescrowed, fun hnone x => ?_,
      fun i p' hs hbreak => not_refundsOrigin_of_step hs hbreak⟩
    rw [refundable_eq hescrowed]
    exact hholding hnone x
  · intro is p i p' ih hok hs
    obtain ⟨hescrowed, hholding⟩ := ih
    obtain ⟨hstep, hrecord⟩ := Transition.recording_eq_ok.mp hs
    obtain ⟨-, hsigner, -, outs, hcode, hsettle⟩ := ((contract self).step_eq_ok).mp hstep
    have hm := move_of_run hcode
    rw [hrecord]
    refine ⟨escrowed_of_move hescrowed hm hsigner hok, fun hnone x => ?_⟩
    have hfinish : ¬ IsFinish i.2 := hnone i (List.mem_append_right _ (List.mem_singleton.mpr rfl))
    have hflow := flow_of_move hescrowed hm hsigner hfinish p.1.holding x
    have hbefore := hholding (fun j hj => hnone j (List.mem_append_left _ hj)) x
    have hself : (contract self).received i.2 p.1.holding x - outflow x outs = _ := hflow
    rw [settle_apply hsettle x, hself, hbefore]
    omega
  · exact ⟨fun o ho => absurd ho (Table.not_mem_empty o), fun _ x => rfl⟩

end Runs

/-! ## A forged deposit -/

namespace Sample

def account : Name := .lit "flon.proxy"
def admin : Name := .lit "admin"
def alice : Name := .lit "alice"
def bank : Name := .lit "flon.token"
def forger : Name := .lit "forger"
def flon : Symbol := .lit "FLON" 8
def usdt : Symbol := .lit "USDT" 6

/-- No deposits yet: no order has an origin. -/
def start : World State × Origin := (genesis (.ofDays 100), fun _ => default)

/-- The pair of FLON and USDT. -/
def setup : List (Ctx × Input Action) :=
  [(.signed account 100, .act (.init admin admin admin 0)),
   (.signed admin 100, .act (.addtradpair (.lit "flonusdt") ⟨flon, bank⟩ ⟨usdt, .lit "flon.mtoken"⟩
     ⟨1, flon, by omega⟩ ⟨1, usdt, by omega⟩ 10))]

/-- Alice sells 100 units of FLON, delivered by a token contract. -/
def sell (contract : Name) : Ctx × Input Action :=
  (.signed alice 100, .notify ⟨contract, alice, account, ⟨100, flon, by omega⟩,
    "flonusdt:sell:1.500000 USDT:5".toList, by decide⟩)

/-- Anyone can issue a FLON of their own; the order it opens would be refunded in FLON of
flon.token. -/
theorem forged_deposit :
    ¬ ∀ (is : List (Ctx × Input Action)) (p : World State × Origin),
      Transition.Run (stepRecorded account) Transition.Unrestricted start is p →
      RefundsOrigin account p ∧
      ((∀ i ∈ is, ¬ IsFinish i.2) → ∀ x, p.1.holding x = refundable p.1.state x) := by
  intro hclaim
  -- the order 1 was paid by `forger`, and cancelling it pays out of `bank`
  have hreach : Transition.Reaches (stepRecorded account) Transition.Unrestricted (fun p =>
      p.1.state.gstate.oracle = admin ∧ p.2 1 = ⟨flon, forger⟩ ∧
      ∃ o ∈ p.1.state.orders.find? 1,
        Transition.Succeeds (exec account (.signed admin 101) (.cancelorder o.orderId) p.1.state)
          fun e => e.2.map Transfer.token = [⟨flon, bank⟩])
      (setup ++ [sell forger]) start := by decide
  obtain ⟨p, hrun, horacle, horigin, o, ho, hcancel⟩ := Transition.run_of_reaches hreach
  obtain ⟨hstored, hid⟩ := Table.find?_eq_some.mp ho
  obtain ⟨⟨s, outs⟩, hexec, htokens⟩ := Transition.succeeds_iff.mp hcancel
  have hauth : (Ctx.signed admin 101).hasAuth p.1.state.gstate.oracle = true := by
    rw [horacle]
    decide
  obtain ⟨s', t, hok, htoken, -⟩ := (hclaim _ p hrun).1 o hstored _ hauth
  rw [hexec, Except.ok.injEq, Prod.mk.injEq] at hok
  have htokens' : outs.map Transfer.token = [⟨flon, bank⟩] := htokens
  rw [hok.2, List.map_cons, List.map_nil, htoken, hid, horigin] at htokens'
  exact absurd htokens' (by decide)

/-- A deposit of real FLON is held, and can be refunded. -/
theorem escrow_refunded_in_kind_sample :
    ∃ p, Transition.Run (stepRecorded account) (fun p i => KeepsEscrow account p.1.state i.2) start
        (setup ++ [sell bank]) p ∧
      p.1.holding ⟨flon, bank⟩ = 100 ∧ refundable p.1.state ⟨flon, bank⟩ = 100 ∧
      RefundsOrigin account p := by
  have hreach : Transition.Reaches (stepRecorded account)
      (fun p i => KeepsEscrow account p.1.state i.2) (fun p => p.1.holding ⟨flon, bank⟩ = 100)
      (setup ++ [sell bank]) start := by decide
  obtain ⟨p, hrun, hholding⟩ := Transition.run_of_reaches hreach
  have hresult := escrow_refunded_in_kind hrun
  have hequal := hresult.2.1 (by decide) ⟨flon, bank⟩
  exact ⟨p, hrun, hholding, hequal.symm.trans hholding, hresult.1⟩

end Sample

end Proxyswap
end ToolkitContracts
