import ToolkitContracts.Chain.Payments
import ToolkitContracts.Proxyswap.Escrow

/-!
# What the filled orders leave behind

The oracle decides what a filled order is paid; `finishorder` compares it with nothing. The account
is one pot, so a fill that pays out more of a token than filled orders brought in is paid from the
deposits of orders that are still open. The pool is the difference: while no token of it is
negative every open order can be refunded, in any order; when one is, they cannot all be.
-/

namespace ToolkitContracts
namespace Proxyswap

open Transition

/-! ## The pool -/

/-- A filled order, the token that delivered its deposit, and what the fill sent. -/
structure Fill where
  order : Order
  brought : ExtendedSymbol
  sent : List Transfer

/-- What a fill leaves behind of the token `x`. -/
def Fill.gain (f : Fill) (x : ExtendedSymbol) : ℤ :=
  (if f.brought = x then f.order.paid.amount else 0) - outflow x f.sent

/-- What the fills together leave behind. -/
def pool (fills : List Fill) (x : ExtendedSymbol) : ℤ := (fills.map fun f => f.gain x).sum

/-- The origins of the orders and the fills so far. -/
structure Ledger where
  origin : Origin
  fills : List Fill

/-- The fill of a successful input, if it is one. -/
def fill? (self : Name) (g : Origin) (s : State) (ctx : Ctx) : Input Action → Option Fill
  | .act (.finishorder orderId orderQuant dealQuant dealPrice fee) =>
    match s.orders.find? orderId,
      exec self ctx (.finishorder orderId orderQuant dealQuant dealPrice fee) s with
    | some o, .ok (_, outs) => some ⟨o, g orderId, outs⟩
    | _, _ => none
  | _ => none

/-- The ledger after an input. -/
def Ledger.after (l : Ledger) (account : Name) (s : State) (i : Ctx × Input Action) (s' : State) :
    Ledger where
  origin := l.origin.after account i.2 s'
  fills := l.fills ++ (fill? account l.origin s i.1 i.2).toList

/-- One transaction, with the ledger kept. -/
def stepLedger (self : Name) : World State × Ledger → Ctx × Input Action →
    Except Abort (World State × Ledger) :=
  recording (contract self).step fun l w i w' => l.after self w.state i w'.state

/-- The ledger of a newly deployed contract. -/
def Ledger.init : Ledger := ⟨fun _ => default, []⟩

/-! ## One move -/

section Moves
variable {self : Name} {ctx : Ctx} {s s' : State} {g : Origin} {o : Order} {i : Input Action}
  {outs : List Transfer} {fills : List Fill} {f : Fill}

theorem pool_append (fills fills' : List Fill) (x : ExtendedSymbol) :
    pool (fills ++ fills') x = pool fills x + pool fills' x := by
  unfold pool
  rw [List.map_append, List.sum_append]

/-- Only `finishorder` fills. -/
theorem fill?_of_not_finish (hfinish : ¬ IsFinish i) : fill? self g s ctx i = none := by
  cases i with
  | notify n => rfl
  | act a =>
    cases a with
    | finishorder => exact absurd trivial hfinish
    | init | addtradpair | rmtradpair | distradpair | enabtradpair | cancelorder | setadmin
      | setoracle => rfl

/-- A fill erases its order and sends the owner the other token of the pair, and the fee receiver
a fee in that token. -/
theorem finishorder_spec {orderId : ℕ} {orderQuant dealQuant dealPrice fee : Asset}
    (h : exec self ctx (.finishorder orderId orderQuant dealQuant dealPrice fee) s
      = .ok (s', outs)) :
    ∃ o pair bank feeBank, s.orders.find? orderId = some o ∧
      s.pairs.find? o.tpcode.raw = some pair ∧ pair.status = .enabled ∧ orderQuant = o.paid ∧
      getTokenContract pair dealQuant = .ok bank ∧ getTokenContract pair fee = .ok feeBank ∧
      s' = { s with orders := s.orders.erase orderId } ∧
      outs = [⟨bank, o.owner, dealQuant, "swap filled".toList⟩,
        ⟨feeBank, s.gstate.feeReceiver, fee, "swap fee".toList⟩] := by
  simp only [exec, finishorder, bind_eq_ok, checkc_eq_ok, require_eq_ok, pure_eq_ok,
    exists_const, Prod.mk.injEq, Ctx.requireAuth_eq_ok, Asset.comparable_eq_ok] at h
  obtain ⟨-, order, horder, -, -, hquant, pair, hpair, henabled, -, -, ⟨⟩, -, bank, hbank, -, -,
    feeBank, hfee, rfl, rfl⟩ := h
  exact ⟨order, pair, bank, feeBank, horder, hpair, henabled, hquant, hbank, hfee, rfl, rfl⟩

/-- The account's tokens follow the open orders and the pool. -/
theorem pool_of_move (h : ∀ o ∈ s.orders, Escrowed g s o)
    (hcode : (contract self).run ctx i s = .ok (s', outs))
    (hsigner : Contract.signer? i ≠ some self) (hd : Holding) (x : ExtendedSymbol) :
    (contract self).received i hd x - outflow x outs
      = hd x + (heldFor (g.after self i s') s'.orders x - heldFor g s.orders x)
        + pool (fill? self g s ctx i).toList x := by
  by_cases hfinish : IsFinish i
  · cases i with
    | notify n => exact absurd hfinish id
    | act a =>
      cases a with
      | finishorder orderId orderQuant dealQuant dealPrice fee =>
        have hexec : exec self ctx (.finishorder orderId orderQuant dealQuant dealPrice fee) s
          = .ok (s', outs) := hcode
        obtain ⟨o, pair, bank, feeBank, ho, -, -, -, -, -, rfl, -⟩ := finishorder_spec hexec
        have hfill : fill? self g s ctx (.act (.finishorder orderId orderQuant dealQuant dealPrice
            fee)) = some ⟨o, g orderId, outs⟩ := by
          simp only [fill?, ho, hexec]
        have hid : o.orderId = orderId := (Table.find?_eq_some.mp ho).2
        have hsum := Table.sum_erase ho fun o => if g o.orderId = x then o.paid.amount else 0
        rw [hid] at hsum
        rw [hfill, Contract.received_act]
        show hd x - outflow x outs = hd x + (Table.sum (s.orders.erase orderId) (fun o =>
          if g o.orderId = x then o.paid.amount else 0) - Table.sum s.orders (fun o =>
          if g o.orderId = x then o.paid.amount else 0))
          + (((if g orderId = x then o.paid.amount else 0) - outflow x outs) + 0)
        omega
      | init | addtradpair | rmtradpair | distradpair | enabtradpair | cancelorder | setadmin
        | setoracle => exact absurd hfinish id
  · have hflow := flow_of_move h (move_of_run hcode) hsigner hfinish hd x
    rw [fill?_of_not_finish hfinish, hflow]
    show _ = _ + 0
    omega

end Moves

/-! ## Runs -/

/-- The deposits of the open orders and the pool are what the account holds. -/
structure Balanced (account : Name) (p : World State × Ledger) : Prop where
  escrowed : ∀ o ∈ p.1.state.orders, Escrowed p.2.origin p.1.state o
  owners : ∀ o ∈ p.1.state.orders, o.owner ≠ account
  holding : ∀ x, p.1.holding x = heldFor p.2.origin p.1.state.orders x + pool p.2.fills x
  nonneg : ∀ x, 0 ≤ p.1.holding x

section Runs
variable {self : Name} {p p' : World State × Ledger} {i : Ctx × Input Action} {o : Order}
  {is : List (Ctx × Input Action)} {clock : TimePoint} {calls : List (Ctx × ℕ)}

/-- An order belongs to the account that paid for it. -/
theorem owners_of_move {s s' : State} {outs : List Transfer} {i : Input Action}
    (h : ∀ o ∈ s.orders, o.owner ≠ self) (hm : Move self s i s' outs)
    (hsigner : Contract.signer? i ≠ some self) : ∀ o ∈ s'.orders, o.owner ≠ self := by
  cases hm with
  | ignore | configure | addtradpair | rmtradpair | setstatus => exact h
  | finishorder | cancelorder => exact Table.forall_erase h
  | deposit n pair o₁ hto hopens =>
    refine Table.forall_put h ?_
    rw [hopens.owner]
    exact Contract.sender_ne hsigner

/-- What an input brings in is not negative. -/
theorem received_nonneg {s s' : State} {outs : List Transfer} {i : Input Action}
    (hm : Move self s i s' outs) (hsigner : Contract.signer? i ≠ some self) {hd : Holding}
    (h0 : ∀ x, 0 ≤ hd x) (x : ExtendedSymbol) : 0 ≤ (contract self).received i hd x := by
  cases hm with
  | ignore n hn =>
    have hother : n.recipient ≠ self := hn.resolve_right (Contract.sender_ne hsigner)
    rw [Contract.received_ignored _ hother]
    exact h0 x
  | deposit n pair o₁ hto hopens =>
    have hx := h0 x
    have hpos := hopens.pos
    rw [Contract.received_notify _ hto]
    split
    · omega
    · omega
  | configure | addtradpair | rmtradpair | setstatus | finishorder | cancelorder => exact h0 x

theorem balanced_of_step (h : Balanced self p) (hok : KeepsEscrow self p.1.state i.2)
    (hs : stepLedger self p i = .ok p') : Balanced self p' := by
  obtain ⟨hstep, hrecord⟩ := recording_eq_ok.mp hs
  obtain ⟨-, hsigner, -, outs, hcode, hsettle⟩ := ((contract self).step_eq_ok).mp hstep
  have hm := move_of_run hcode
  rw [show p' = (p'.1, p'.2) from rfl, hrecord]
  refine ⟨escrowed_of_move h.escrowed hm hsigner hok, owners_of_move h.owners hm hsigner,
    fun x => ?_, nonneg_of_settle hsettle (received_nonneg hm hsigner h.nonneg)⟩
  have hflow : (contract self).received i.2 p.1.holding x - outflow x outs = _ :=
    pool_of_move h.escrowed hcode hsigner p.1.holding x
  show p'.1.holding x = heldFor (p.2.origin.after self i.2 p'.1.state) p'.1.state.orders x
    + pool (p.2.fills ++ (fill? self p.2.origin p.1.state i.1 i.2).toList) x
  rw [settle_apply hsettle x, hflow, h.holding x, pool_append]
  omega

theorem balanced_init : Balanced self (genesis clock, Ledger.init) where
  escrowed := fun o ho => absurd ho (Table.not_mem_empty o)
  owners := fun o ho => absurd ho (Table.not_mem_empty o)
  holding := fun _ => rfl
  nonneg := fun _ => le_rfl

theorem balanced_of_ledger_run (hrun : Run (stepLedger self) (fun p i => KeepsEscrow self p.1.state i.2)
    (genesis clock, Ledger.init) is p) : Balanced self p :=
  hrun.invariant (P := Balanced self) (fun _ _ _ h hok hs => balanced_of_step h hok hs) balanced_init

/-! ## Refunding every open order -/

/-- The refund of an open order, in the token that delivered its deposit. -/
def refundTo (p : World State × Ledger) (orderId : ℕ) : List Transfer :=
  match p.1.state.orders.find? orderId with
  | some o => [o.refund (p.2.origin orderId).contract]
  | none => []

/-- The orders that are open, for each of which there is a call of the oracle. -/
def keeping (p : World State × Ledger) : Contract.Keeping State ℕ where
  has := fun s orderId => ∃ o ∈ s.orders, o.orderId = orderId
  ready := fun s call => call.1.hasAuth s.gstate.oracle = true
  pays := refundTo p

/-- What is left of the open orders is as it was in `p`, and nothing was filled since. -/
structure Refunding (account : Name) (p : World State × Ledger) (w : World State) : Prop where
  balanced : Balanced account (w, p.2)
  left : ∀ o ∈ w.state.orders, o ∈ p.1.state.orders

/-- While the pool is not negative, the account can pay each refund. -/
theorem paid_le_holding (h : Balanced self p) (hpool : ∀ x, 0 ≤ pool p.2.fills x)
    (ho : o ∈ p.1.state.orders) : o.paid.amount ≤ p.1.holding (p.2.origin o.orderId) := by
  have hnonneg : ∀ o' ∈ p.1.state.orders,
      0 ≤ if p.2.origin o'.orderId = p.2.origin o.orderId then o'.paid.amount else 0 := by
    intro o' ho'
    obtain ⟨pair, hrefund, -⟩ := h.escrowed o' ho'
    have hpos := hrefund.pos
    split
    · omega
    · omega
  have hle := Table.le_sum hnonneg ho
  rw [if_pos rfl] at hle
  have hheld : o.paid.amount
      ≤ heldFor p.2.origin p.1.state.orders (p.2.origin o.orderId) := hle
  have hpositive := hpool (p.2.origin o.orderId)
  rw [h.holding]
  omega

theorem refunding_of_cancel {w : World State} {call : Ctx × ℕ} (h : Refunding self p w)
    (hpool : ∀ x, 0 ≤ pool p.2.fills x) (hhas : (keeping p).has w.state call.2)
    (hready : (keeping p).ready w.state call) (hclock : w.clock ≤ call.1.now) :
    ∃ s' holding, exec self call.1 (.cancelorder call.2) w.state = .ok (s', refundTo p call.2) ∧
      settle self w.holding (refundTo p call.2) = .ok holding ∧
      Refunding self p ⟨s', holding, call.1.now⟩ ∧
      (∀ id, (keeping p).has s' id ↔ (keeping p).has w.state id ∧ id ≠ call.2) ∧
      ∀ next, (keeping p).has w.state next.2 → (keeping p).ready w.state next →
        (keeping p).ready s' next := by
  obtain ⟨ctx, id⟩ := call
  obtain ⟨o, ho, rfl⟩ := hhas
  obtain ⟨pair, hrefund, hsym⟩ := h.balanced.escrowed o ho
  have hpays : refundTo p o.orderId = [o.refund (p.2.origin o.orderId).contract] := by
    unfold refundTo
    rw [Table.find?_self (h.left o ho)]
  have hexec : exec self ctx (.cancelorder o.orderId) w.state = _ :=
    cancelorder_of hready hrefund
  have htoken := (h.balanced.escrowed o ho).token hrefund
  have hcovered : o.paid.amount ≤ w.holding (p.2.origin o.orderId) :=
    paid_le_holding h.balanced hpool ho
  have hsettle := settle_singleton (t := o.refund (p.2.origin o.orderId).contract)
    (h.balanced.owners o ho) hrefund.pos (by
      rw [htoken]
      exact hcovered)
  rw [hpays]
  refine ⟨_, _, hexec, hsettle, ⟨?_, fun o' ho' => h.left o' (Table.mem_erase.mp ho').1⟩,
    fun id => ?_, fun next _ hnext => hnext⟩
  · -- a refund is a step that fills nothing, so the ledger stays
    have hstep : (contract self).step w (ctx, .act (.cancelorder o.orderId)) = .ok ⟨_, _, ctx.now⟩ :=
      ((contract self).step_eq_ok).mpr
        ⟨hclock, Contract.signer?_act _ _, rfl, _, hexec, hsettle⟩
    refine balanced_of_step h.balanced (i := (ctx, .act (.cancelorder o.orderId))) trivial ?_
    refine recording_eq_ok.mpr ⟨hstep, ?_⟩
    show p.2 = Ledger.mk p.2.origin (p.2.fills ++ [])
    rw [List.append_nil]
  · constructor
    · rintro ⟨o', ho', rfl⟩
      obtain ⟨hold, hne⟩ := Table.mem_erase.mp ho'
      exact ⟨⟨o', hold, rfl⟩, hne⟩
    · rintro ⟨⟨o', ho', rfl⟩, hne⟩
      exact ⟨o', Table.mem_erase.mpr ⟨ho', hne⟩, rfl⟩

/-- After calls that went through, none of their orders is open, and nothing was filled. -/
theorem refunding_of_run {q : World State × List Transfer} (h : Balanced self p)
    (hrun : Run (contract self).stepPaying Unrestricted (p.1, [])
      (calls.map (Contract.clearing .cancelorder)) q) :
    Refunding self p q.1 ∧ ∀ o ∈ q.1.state.orders, o.orderId ∉ calls.map Prod.snd := by
  have hplain := Contract.run_of_stepPaying hrun
  refine hplain.invariant_inputs (P := fun is w => ∀ done : List (Ctx × ℕ),
    is = done.map (Contract.clearing .cancelorder) →
    Refunding self p w ∧ ∀ o ∈ w.state.orders, o.orderId ∉ done.map Prod.snd) ?_ ?_ calls rfl
  · intro is w i w' ih _ hs done hdone
    rcases List.eq_nil_or_concat done with rfl | ⟨front, call, rfl⟩
    · simp at hdone
    rw [List.concat_eq_append, List.map_append] at hdone
    obtain ⟨hfront, hlast⟩ := List.append_inj' hdone rfl
    rw [List.map_cons, List.map_nil, List.singleton_inj] at hlast
    obtain ⟨hrefunding, hnone⟩ := ih front hfront
    subst hlast
    have hrecorded : stepLedger self (w, p.2) (Contract.clearing .cancelorder call)
        = .ok (w', p.2) := by
      refine recording_eq_ok.mpr ⟨hs, ?_⟩
      show p.2 = Ledger.mk p.2.origin (p.2.fills ++ [])
      rw [List.append_nil]
    have hbalanced := balanced_of_step hrefunding.balanced (i := Contract.clearing .cancelorder call)
      trivial hrecorded
    obtain ⟨outs, hcode⟩ := (contract self).run_of_step hs
    have hexec : exec self call.1 (.cancelorder call.2) w.state = .ok (w'.state, outs) := hcode
    obtain ⟨o₁, pair, bank, hid, -, hstate, -⟩ := refunds_of_cancelorder hexec
    have horders : w'.state.orders = w.state.orders.erase call.2 := by rw [hstate]
    refine ⟨⟨hbalanced, fun o ho => ?_⟩, fun o ho => ?_⟩
    · rw [horders] at ho
      exact hrefunding.left o (Table.mem_erase.mp ho).1
    · rw [horders] at ho
      obtain ⟨hold, hne⟩ := Table.mem_erase.mp ho
      rw [List.concat_eq_append, List.map_append, List.mem_append, not_or]
      refine ⟨hnone o hold, ?_⟩
      rw [List.map_cons, List.map_nil, List.mem_singleton]
      exact hne
  · intro done hdone
    rw [List.map_eq_nil_iff.mp hdone.symm]
    exact ⟨⟨h, fun o ho => ho⟩, fun o _ => by simp⟩

/-- In every run whose deposits come from the tokens of their pairs, and in which no pair is removed
under an open order, the account holds of every token what the open orders can be refunded and the
pool. Calls of the oracle that name each open order once, in any order, all go through exactly when
no token of the pool is negative. They then refund each order to its owner, in the token that
delivered its deposit, and leave the pool. -/
theorem refunds_iff_pool
    (hrun : Run (stepLedger self) (fun p i => KeepsEscrow self p.1.state i.2)
      (genesis clock, Ledger.init) is p)
    (hnodup : (calls.map Prod.snd).Nodup)
    (hall : ∀ id, (∃ o ∈ p.1.state.orders, o.orderId = id) ↔ id ∈ calls.map Prod.snd)
    (hauth : ∀ call ∈ calls, call.1.hasAuth p.1.state.gstate.oracle = true)
    (hclock : ∀ call ∈ calls, p.1.clock ≤ call.1.now)
    (horder : calls.Pairwise fun a b => a.1.now ≤ b.1.now) :
    (∀ x, p.1.holding x = refundable p.1.state x + pool p.2.fills x) ∧
    ((∃ q, Run (contract self).stepPaying Unrestricted (p.1, [])
      (calls.map (Contract.clearing .cancelorder)) q) ↔ ∀ x, 0 ≤ pool p.2.fills x) ∧
    ∀ q, Run (contract self).stepPaying Unrestricted (p.1, [])
      (calls.map (Contract.clearing .cancelorder)) q →
      q.2 = calls.flatMap (fun call => refundTo p call.2) ∧ (∀ o, o ∉ q.1.state.orders) ∧
      ∀ x, q.1.holding x = pool p.2.fills x := by
  have hbalanced := balanced_of_ledger_run hrun
  have hafter : ∀ q, Run (contract self).stepPaying Unrestricted (p.1, [])
      (calls.map (Contract.clearing .cancelorder)) q →
      (∀ o, o ∉ q.1.state.orders) ∧ (∀ x, q.1.holding x = pool p.2.fills x) ∧
      ∀ x, 0 ≤ pool p.2.fills x := by
    intro q hq
    obtain ⟨hrefunding, hnone⟩ := refunding_of_run hbalanced hq
    have hempty : ∀ o, o ∉ q.1.state.orders := fun o ho =>
      hnone o ho ((hall _).mp ⟨o, hrefunding.left o ho, rfl⟩)
    have hholding : ∀ x, q.1.holding x = pool p.2.fills x := by
      intro x
      have hzero : heldFor p.2.origin q.1.state.orders x = 0 :=
        Table.sum_eq_zero fun o ho => absurd ho (hempty o)
      have hx := hrefunding.balanced.holding x
      rw [hzero, zero_add] at hx
      exact hx
    refine ⟨hempty, hholding, fun x => ?_⟩
    rw [← hholding x]
    exact hrefunding.balanced.nonneg x
  have hclear : (∀ x, 0 ≤ pool p.2.fills x) → ∃ w', Run (contract self).stepPaying Unrestricted
      (p.1, []) (calls.map (Contract.clearing .cancelorder))
      (w', calls.flatMap fun call => refundTo p call.2) := by
    intro hpool
    obtain ⟨w', hrun', -⟩ := Contract.run_of_clears (C := contract self) (keeping p) .cancelorder
      (fun w call h hhas hready hnow => refunding_of_cancel h hpool hhas hready hnow)
      ⟨hbalanced, fun o ho => ho⟩ hnodup hall hauth hclock horder
    exact ⟨w', hrun'⟩
  refine ⟨fun x => ?_, ⟨?_, fun hpool => ?_⟩, fun q hq => ?_⟩
  · rw [refundable_eq hbalanced.escrowed]
    exact hbalanced.holding x
  · rintro ⟨q, hq⟩
    exact (hafter q hq).2.2
  · obtain ⟨w', hrun'⟩ := hclear hpool
    exact ⟨_, hrun'⟩
  · obtain ⟨hempty, hholding, hpool⟩ := hafter q hq
    obtain ⟨w', hrun'⟩ := hclear hpool
    rw [hq.unique hrun'] at hempty hholding ⊢
    exact ⟨rfl, hempty, hholding⟩

end Runs

/-! ## Two orders that are matched -/

namespace Sample

def bob : Name := .lit "bob"
def carol : Name := .lit "carol"
def mtoken : Name := .lit "flon.mtoken"

/-- Alice sells 100 FLON, Bob buys for 200 USDT, and Carol sells 100 FLON. -/
def threeOrders : List (Ctx × Input Action) :=
  [sell bank,
   (.signed bob 100, .notify ⟨mtoken, bob, account, .lit (int64 200) usdt,
     "flonusdt:buy:1.500000 USDT:5".toList, by decide⟩),
   (.signed carol 100, .notify ⟨bank, carol, account, .lit (int64 100) flon,
     "flonusdt:sell:1.500000 USDT:5".toList, by decide⟩)]

/-- Alice is paid 150 USDT, with a fee of 1 USDT. -/
def fillAlice : Ctx × Input Action :=
  (.signed admin 101, .act (.finishorder 1 (.lit (int64 100) flon) (.lit (int64 150) usdt)
    (.lit (int64 1) usdt) (.lit (int64 1) usdt)))

/-- Bob is paid 90 FLON, with a fee of 1 FLON. -/
def fillBob : Ctx × Input Action :=
  (.signed admin 101, .act (.finishorder 2 (.lit (int64 200) usdt) (.lit (int64 90) flon)
    (.lit (int64 1) usdt) (.lit (int64 1) flon)))

def empty : World State × Ledger := (genesis (.ofDays 100), Ledger.init)

/-- The calls that cancel the orders with these ids. -/
def cancelAll (ids : List ℕ) : List (Ctx × ℕ) := ids.map fun id => (.signed admin 102, id)

theorem open_iff {p : World State × Ledger} {ids : List ℕ}
    (hids : p.1.state.orders.rows.map Order.orderId = ids) (id : ℕ) :
    (∃ o ∈ p.1.state.orders, o.orderId = id) ↔ id ∈ (cancelAll ids).map Prod.snd := by
  have hmem : (∃ o ∈ p.1.state.orders, o.orderId = id)
      ↔ id ∈ p.1.state.orders.rows.map Order.orderId := List.mem_map.symm
  rw [hmem, hids]
  simp [cancelAll]

/-- When only Alice's order is filled, she is paid from Bob's deposit, and the orders of Bob and
Carol cannot both be refunded; when Bob's is filled too, the pool has 9 FLON and 49 USDT, and
Carol's order is refunded. -/
theorem refunds_iff_pool_sample :
    (∃ p, Run (stepLedger account) (fun p i => KeepsEscrow account p.1.state i.2) empty
        (setup ++ threeOrders ++ [fillAlice]) p ∧
      ¬ ∃ q, Run (contract account).stepPaying Unrestricted (p.1, [])
        ((cancelAll [2, 3]).map (Contract.clearing .cancelorder)) q) ∧
    ∃ p q, Run (stepLedger account) (fun p i => KeepsEscrow account p.1.state i.2) empty
        (setup ++ threeOrders ++ [fillAlice, fillBob]) p ∧
      Run (contract account).stepPaying Unrestricted (p.1, [])
        ((cancelAll [3]).map (Contract.clearing .cancelorder)) q ∧
      q.1.holding ⟨flon, bank⟩ = 9 ∧ q.1.holding ⟨usdt, mtoken⟩ = 49 := by
  constructor
  · have hreach : Reaches (stepLedger account) (fun p i => KeepsEscrow account p.1.state i.2)
        (fun p => pool p.2.fills ⟨usdt, mtoken⟩ = -151 ∧ p.1.clock = .ofDays 101 ∧
          p.1.state.gstate.oracle = admin ∧ p.1.state.orders.rows.map Order.orderId = [2, 3])
        (setup ++ threeOrders ++ [fillAlice]) empty := by decide
    obtain ⟨p, hrun, hpool, hnow, horacle, hids⟩ := run_of_reaches hreach
    have hauth : ∀ call ∈ cancelAll [2, 3], call.1.hasAuth p.1.state.gstate.oracle = true := by
      rw [horacle]
      decide
    have hclock : ∀ call ∈ cancelAll [2, 3], p.1.clock ≤ call.1.now := by
      rw [hnow]
      decide
    refine ⟨p, hrun, fun hrefunds => ?_⟩
    have hresult := refunds_iff_pool hrun (by decide) (open_iff hids) hauth hclock (by decide)
    have hpositive := hresult.2.1.mp hrefunds ⟨usdt, mtoken⟩
    omega
  · have hreach : Reaches (stepLedger account) (fun p i => KeepsEscrow account p.1.state i.2)
        (fun p => pool p.2.fills ⟨flon, bank⟩ = 9 ∧ pool p.2.fills ⟨usdt, mtoken⟩ = 49 ∧
          p.1.clock = .ofDays 101 ∧ p.1.state.gstate.oracle = admin ∧
          p.1.state.orders.rows.map Order.orderId = [3] ∧
          Reaches (contract account).stepPaying Unrestricted (fun _ => True)
            ((cancelAll [3]).map (Contract.clearing .cancelorder)) (p.1, []))
        (setup ++ threeOrders ++ [fillAlice, fillBob]) empty := by decide
    obtain ⟨p, hrun, hflon, husdt, hnow, horacle, hids, hcancel⟩ := run_of_reaches hreach
    obtain ⟨q, hq, -⟩ := run_of_reaches hcancel
    have hauth : ∀ call ∈ cancelAll [3], call.1.hasAuth p.1.state.gstate.oracle = true := by
      rw [horacle]
      decide
    have hclock : ∀ call ∈ cancelAll [3], p.1.clock ≤ call.1.now := by
      rw [hnow]
      decide
    have hresult := refunds_iff_pool hrun (by decide) (open_iff hids) hauth hclock (by decide)
    obtain ⟨-, -, hholding⟩ := hresult.2.2 q hq
    exact ⟨p, q, hrun, hq, (hholding _).trans hflon, (hholding _).trans husdt⟩

end Sample

end Proxyswap
end ToolkitContracts
