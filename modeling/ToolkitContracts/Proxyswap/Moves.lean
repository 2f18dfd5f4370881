import ToolkitContracts.Proxyswap.Model

/-!
# What a transaction does to the orders

`Move` lists the successful transactions: the rows a transaction stores and removes, the
transfers it orders, and the checks it has passed. `move_of_run` is the only place where the
contract's code is taken apart.
-/

namespace ToolkitContracts
namespace Proxyswap

/-- The pair that the memo of a transfer names. -/
def memoPair (n : Notice) : Except Abort Name := Name.ofText ((splitText n.memo ':').getD 0 [])

/-- The other quantity of an order, which its owner did not pay. -/
def Order.unpaid (o : Order) : Asset := o.type.paid o.rightQuant o.leftQuant

/-- The order that an action settles. -/
def Action.settles : Action → Option ℕ
  | .finishorder orderId _ _ _ _ => some orderId
  | .cancelorder orderId => some orderId
  | _ => none

/-- The action sets the counter of the order ids. -/
def Action.IsInit : Action → Prop
  | .init _ _ _ _ => True
  | _ => False

instance (a : Action) : Decidable a.IsInit := by
  rcases a with _ | _ | _ | _ | _ | _ | _ | _ | _ <;> dsimp only [Action.IsInit] <;> infer_instance

/-- The transfer `n` opens the order `o` on `pair`. -/
structure Opens (n : Notice) (s : State) (pair : Pair) (o : Order) : Prop where
  memo : memoPair n = .ok pair.tpcode
  named : s.pairs.find? pair.tpcode.raw = some pair
  orderId : o.orderId = u64 (s.gstate.lastOrderId + 1)
  new : s.orders.find? o.orderId = none
  owner : o.owner = n.sender
  tpcode : o.tpcode = pair.tpcode
  status : o.status = .created
  paid : o.paid = n.quantity
  unpaid : o.unpaid.amount = 0
  symbol : n.quantity.symbol = (pair.paidSymbol o.type).sym
  pos : 0 < n.quantity.amount

/-- `cancelorder` refunds the order `o` from the token contract `bank`. -/
structure Refunds (s : State) (o : Order) (pair : Pair) (bank : Name) : Prop where
  stored : s.orders.find? o.orderId = some o
  status : o.status = .created
  named : s.pairs.find? o.tpcode.raw = some pair
  symbol : o.paid.symbol = (pair.paidSymbol o.type).sym
  pos : 0 < o.paid.amount
  contract : getTokenContract pair o.paid = .ok bank

/-- The transfer that a refund orders. -/
def Order.refund (o : Order) (bank : Name) : Transfer :=
  ⟨bank, o.owner, o.paid, "swap refund".toList⟩

/-- The successful transactions on the tables `s`. -/
inductive Move (self : Name) (s : State) : Input Action → State → List Transfer → Prop
  | ignore (n : Notice) (hn : n.recipient ≠ self ∨ n.sender = self) : Move self s (.notify n) s []
  | deposit (n : Notice) (pair : Pair) (o : Order) (hto : n.recipient = self)
      (ho : Opens n s pair o) :
      Move self s (.notify n)
        { s with
          gstate := { s.gstate with lastOrderId := u64 (s.gstate.lastOrderId + 1) }
          orders := s.orders.put o } []
  | configure (a : Action) (gstate : Global) (ha : a.settles = none)
      (hid : ¬ a.IsInit → gstate.lastOrderId = s.gstate.lastOrderId) :
      Move self s (.act a) { s with gstate } []
  | addtradpair (a : Action) (pair : Pair) (hnew : s.pairs.find? pair.tpcode.raw = none)
      (ha : a.settles = none) :
      Move self s (.act a) { s with pairs := s.pairs.put pair } []
  | rmtradpair (tpcode : Name) :
      Move self s (.act (.rmtradpair tpcode)) { s with pairs := s.pairs.erase tpcode.raw } []
  | setstatus (a : Action) (pair : Pair) (status : PairStatus)
      (hpair : s.pairs.find? pair.tpcode.raw = some pair) (ha : a.settles = none) :
      Move self s (.act a) { s with pairs := s.pairs.put { pair with status } } []
  | finishorder (orderId : ℕ) (orderQuant dealQuant dealPrice fee : Asset) (outs : List Transfer)
      (o : Order) (ho : s.orders.find? orderId = some o) :
      Move self s (.act (.finishorder orderId orderQuant dealQuant dealPrice fee))
        { s with orders := s.orders.erase orderId } outs
  | cancelorder (o : Order) (pair : Pair) (bank : Name) (ho : Refunds s o pair bank) :
      Move self s (.act (.cancelorder o.orderId)) { s with orders := s.orders.erase o.orderId }
        [o.refund bank]

/-! ## Taking the code apart -/

section Inversion
variable {self : Name} {ctx : Ctx} {s s' : State} {outs : List Transfer}

/-- A new order pays the transferred quantity, in the token that its type is paid in, and
nothing of the other token. -/
theorem orderQuants_spec {type : OrderType} {pair : Pair} {quantity price left right : Asset}
    (h : orderQuants type pair quantity price = .ok (left, right)) :
    type.paid left right = quantity ∧ (type.paid right left).amount = 0 ∧
      quantity.symbol = (pair.paidSymbol type).sym := by
  cases type with
  | buy =>
    simp only [orderQuants, bind_eq_ok, checkc_eq_ok, exists_const, pure_eq_ok, Prod.mk.injEq,
      Asset.comparable_eq_ok] at h
    obtain ⟨hsymbol, -, -, -, zero, hzero, rfl, rfl⟩ := h
    exact ⟨rfl, Asset.amount_of_new_zero hzero, hsymbol⟩
  | sell =>
    simp only [orderQuants, bind_eq_ok, checkc_eq_ok, exists_const, pure_eq_ok, Prod.mk.injEq,
      Asset.comparable_eq_ok] at h
    obtain ⟨hsymbol, -, -, -, zero, hzero, rfl, rfl⟩ := h
    exact ⟨rfl, Asset.amount_of_new_zero hzero, hsymbol⟩

theorem move_of_onTransfer {n : Notice} (h : onTransfer self ctx n s = .ok (s', outs)) :
    Move self s (.notify n) s' outs := by
  rw [onTransfer] at h
  by_cases hn : n.recipient ≠ self ∨ n.sender = self
  · rw [if_pos hn, Except.ok.injEq, Prod.mk.injEq] at h
    obtain ⟨rfl, rfl⟩ := h
    exact .ignore n hn
  · rw [if_neg hn] at h
    have hto : n.recipient = self := by
      by_contra hne
      exact hn (Or.inl hne)
    simp only [bind_eq_ok, checkc_eq_ok, require_eq_ok, exists_const, pure_eq_ok, Prod.mk.injEq,
      emplace_eq_ok] at h
    obtain ⟨-, -, tpcode, htpcode, -, -, -, slippage, -, pair, hpair, -, price, -, -, hpos, -,
      ⟨left, right⟩, hquants, zero, -, orders, ⟨hnew, rfl⟩, rfl, rfl⟩ := h
    -- rows are found by the raw name, which determines the name
    have hcode : pair.tpcode = tpcode := Name.raw_inj.mp (Table.find?_eq_some.mp hpair).2
    subst hcode
    obtain ⟨hpaid, hunpaid, hsymbol⟩ := orderQuants_spec hquants
    refine .deposit n pair _ hto ?_
    exact ⟨htpcode, hpair, rfl, hnew, rfl, rfl, rfl, hpaid, hunpaid, hsymbol, hpos⟩

/-- `cancelorder` refunds the order that it names. -/
theorem refunds_of_cancelorder {orderId : ℕ}
    (h : exec self ctx (.cancelorder orderId) s = .ok (s', outs)) :
    ∃ o pair bank, o.orderId = orderId ∧ Refunds s o pair bank ∧
      s' = { s with orders := s.orders.erase orderId } ∧ outs = [o.refund bank] := by
  simp only [exec, cancelorder, bind_eq_ok, checkc_eq_ok, require_eq_ok, pure_eq_ok,
    exists_const, Prod.mk.injEq, Ctx.requireAuth_eq_ok] at h
  obtain ⟨-, order, horder, hstatus, pair, hpair, hsymbol, -, hpos, bank, hbank, rfl, rfl⟩ := h
  have hid : order.orderId = orderId := (Table.find?_eq_some.mp horder).2
  subst hid
  exact ⟨order, pair, bank, rfl, ⟨horder, hstatus, hpair, hsymbol, hpos, hbank⟩, rfl, rfl⟩

theorem move_of_exec {a : Action} (h : exec self ctx a s = .ok (s', outs)) :
    Move self s (.act a) s' outs := by
  cases a with
  | init admin oracle feeReceiver lastOrderId =>
    simp only [exec, Proxyswap.init, bind_eq_ok, pure_eq_ok, exists_const, Prod.mk.injEq,
      Ctx.requireAuth_eq_ok] at h
    obtain ⟨-, rfl, rfl⟩ := h
    exact .configure _ _ rfl fun hinit => absurd trivial hinit
  | setadmin newAdmin =>
    simp only [exec, setadmin, bind_eq_ok, pure_eq_ok, exists_const, Prod.mk.injEq,
      Ctx.requireAuth_eq_ok] at h
    obtain ⟨-, rfl, rfl⟩ := h
    exact .configure _ _ rfl fun _ => rfl
  | setoracle newOracle =>
    simp only [exec, setoracle, bind_eq_ok, pure_eq_ok, exists_const, Prod.mk.injEq,
      Ctx.requireAuth_eq_ok] at h
    obtain ⟨-, rfl, rfl⟩ := h
    exact .configure _ _ rfl fun _ => rfl
  | addtradpair tpcode leftSymbol rightSymbol miniLeft miniRight maxSlippage =>
    simp only [exec, addtradpair, bind_eq_ok, checkc_eq_ok, pure_eq_ok, exists_const,
      Prod.mk.injEq, emplace_eq_ok, Ctx.requireAuth_eq_ok] at h
    obtain ⟨-, -, -, -, -, pairs, ⟨hnew, rfl⟩, rfl, rfl⟩ := h
    exact .addtradpair _ _ hnew rfl
  | rmtradpair tpcode =>
    simp only [exec, rmtradpair, bind_eq_ok, require_eq_ok, pure_eq_ok, exists_const,
      Prod.mk.injEq, Ctx.requireAuth_eq_ok] at h
    obtain ⟨-, pair, -, rfl, rfl⟩ := h
    exact .rmtradpair tpcode
  | distradpair tpcode =>
    simp only [exec, distradpair, bind_eq_ok, checkc_eq_ok, require_eq_ok, pure_eq_ok,
      exists_const, Prod.mk.injEq, Ctx.requireAuth_eq_ok] at h
    obtain ⟨-, pair, hpair, -, rfl, rfl⟩ := h
    have hself := Table.find?_key hpair
    exact .setstatus _ pair _ hself rfl
  | enabtradpair tpcode =>
    simp only [exec, enabtradpair, bind_eq_ok, checkc_eq_ok, require_eq_ok, pure_eq_ok,
      exists_const, Prod.mk.injEq, Ctx.requireAuth_eq_ok] at h
    obtain ⟨-, pair, hpair, -, rfl, rfl⟩ := h
    have hself := Table.find?_key hpair
    exact .setstatus _ pair _ hself rfl
  | finishorder orderId orderQuant dealQuant dealPrice fee =>
    simp only [exec, finishorder, bind_eq_ok, checkc_eq_ok, require_eq_ok, pure_eq_ok,
      exists_const, Prod.mk.injEq, Ctx.requireAuth_eq_ok, Asset.comparable_eq_ok] at h
    -- the other checks do not matter for the orders that stay
    obtain ⟨-, order, horder, -, -, -, pair, -, -, -, -, ⟨⟩, -, bank, -, -, -, feeBank, -, rfl, -⟩ := h
    exact .finishorder _ _ _ _ _ _ order horder
  | cancelorder orderId =>
    obtain ⟨o, pair, bank, rfl, ho, rfl, rfl⟩ := refunds_of_cancelorder h
    exact .cancelorder o pair bank ho

/-- Every successful transaction is one of the moves. -/
theorem move_of_run {i : Input Action} (h : (contract self).run ctx i s = .ok (s', outs)) :
    Move self s i s' outs := by
  cases i with
  | notify n => exact move_of_onTransfer h
  | act a => exact move_of_exec h

/-- An order that passes the checks is refunded. -/
theorem cancelorder_of {o : Order} {pair : Pair} {bank : Name}
    (hauth : ctx.hasAuth s.gstate.oracle = true) (h : Refunds s o pair bank) :
    exec self ctx (.cancelorder o.orderId) s
      = .ok ({ s with orders := s.orders.erase o.orderId }, [o.refund bank]) := by
  show cancelorder ctx o.orderId s = _
  rw [cancelorder, Ctx.requireAuth, check_of hauth, h.stored, require, ok_bind,
    checkc_of h.status, h.named, require, ok_bind]
  dsimp only
  rw [checkc_of h.symbol, checkc_of (le_refl _), checkc_of h.pos, h.contract, ok_bind]
  rfl

end Inversion

end Proxyswap
end ToolkitContracts
