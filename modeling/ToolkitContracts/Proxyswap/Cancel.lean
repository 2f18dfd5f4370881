import ToolkitContracts.Proxyswap.Settlement

/-!
# Cancelling orders of flon.proxyswap

`cancelorder` looks up the pair of the order when it is called, not when the order was
placed. A pair that is disabled still serves: `cancelorder` does not look at the status. A
pair that was removed does not, and `rmtradpair` does not look at the orders. So every open
order can be cancelled as long as no pair is removed under one, and only then.
-/

namespace ToolkitContracts
namespace Proxyswap

/-- The last transfer that opened an order with the id. -/
def History.deposit (h : History) (id : ℕ) : Option Notice := h.opened.lookup id

/-- `cancelorder` by the current oracle refunds every open order: the quantity of the
transfer that opened it, to the sender of that transfer, who is the order's owner. -/
def Cancellable (self : Name) (p : World State × History) : Prop :=
  ∀ o ∈ p.1.state.orders, ∃ n, p.2.deposit o.orderId = some n ∧ o.owner = n.sender ∧
    ∀ ctx : Ctx, ctx.hasAuth p.1.state.gstate.oracle = true →
      ∃ s' t, exec self ctx (.cancelorder o.orderId) p.1.state = .ok (s', [t]) ∧
        t.quantity = n.quantity ∧ t.recipient = o.owner

/-- A pair is removed only when no open order names it. -/
def KeepsPairs (s : State) : Input Action → Prop
  | .act (.rmtradpair tpcode) => ∀ o ∈ s.orders.rows, o.tpcode ≠ tpcode
  | _ => True

instance (s : State) (i : Input Action) : Decidable (KeepsPairs s i) := by
  rcases i with n | a
  · exact inferInstanceAs (Decidable True)
  · rcases a with _ | _ | _ | _ | _ | _ | _ | _ | _ <;> dsimp only [KeepsPairs] <;> infer_instance

/-! ## One move -/

/-- The order can be refunded, and is as its last transfer opened it. -/
def Refundable (s : State) (h : History) (o : Order) : Prop :=
  (∃ pair bank, Refunds s o pair bank) ∧ ∃ n, h.deposit o.orderId = some n ∧ OpenedBy o n

section Moves
variable {self : Name} {s s' : State} {h : History} {o : Order} {pair : Pair}
  {i : Input Action} {outs : List Transfer} {n : Notice}

/-- The pair has a token contract for the token that its orders are paid in. -/
theorem getTokenContract_paid {type : OrderType} {q : Asset}
    (hq : q.symbol = (pair.paidSymbol type).sym) : ∃ bank, getTokenContract pair q = .ok bank := by
  unfold getTokenContract
  by_cases hleft : q.symbol = pair.leftSymbol.sym
  · exact ⟨_, if_pos hleft⟩
  · rw [if_neg hleft]
    cases type with
    | sell => exact absurd hq hleft
    | buy => exact ⟨_, if_pos hq⟩

/-- A new order can be refunded. -/
theorem Opens.refunds (ho : Opens n s pair o) (hstored : s'.orders.find? o.orderId = some o)
    (hpairs : s'.pairs = s.pairs) : ∃ bank, Refunds s' o pair bank := by
  have hsymbol : o.paid.symbol = (pair.paidSymbol o.type).sym := by
    rw [ho.paid]
    exact ho.symbol
  obtain ⟨bank, hbank⟩ := getTokenContract_paid hsymbol
  refine ⟨bank, hstored, ho.status, ?_, hsymbol, ?_, hbank⟩
  · rw [hpairs, ho.tpcode]
    exact ho.named
  · rw [ho.paid]
    exact ho.pos

/-- An order that stays in the table can be refunded as before. -/
theorem Refundable.keep {h' : History} (hr : Refundable s h o) (hm : Move self s i s' outs)
    (hok : ∀ tpcode, i = .act (.rmtradpair tpcode) → o.tpcode ≠ tpcode)
    (hstored : o ∈ s'.orders) (hdeposit : h'.deposit o.orderId = h.deposit o.orderId) :
    Refundable s' h' o := by
  obtain ⟨⟨pair, bank, hrefund⟩, hopened⟩ := hr
  obtain ⟨pair', hnamed, hleft, hright⟩ := pair_of_move hm hok hrefund.named
  constructor
  · exact ⟨pair', bank, hrefund.congr (Table.find?_self hstored) hnamed hleft hright⟩
  · rw [hdeposit]
    exact hopened

/-- A new deposit is the last one of its own order only. -/
theorem deposit_cons (h : History) (id id' : ℕ) (n : Notice) :
    { h with opened := (id, n) :: h.opened : History }.deposit id'
      = if id' = id then some n else h.deposit id' := by
  show List.lookup id' ((id, n) :: h.opened) = _
  by_cases hid : id' = id
  · rw [if_pos hid, hid, List.lookup_cons_self]
  · rw [if_neg hid, List.lookup_cons, beq_false_of_ne hid]
    rfl

/-- Settling an order keeps the deposits. -/
theorem History.deposit_after_act (h : History) (a : Action) (s' : State) (id : ℕ) :
    (h.after self (.act a) s').deposit id = h.deposit id := by
  cases ha : a.settles with
  | none => rw [h.after_other ha]
  | some id' =>
    rw [h.after_settles ha]
    rfl

/-- Every move under the guard keeps every open order refundable. -/
theorem refundable_of_move (hr : ∀ o ∈ s.orders, Refundable s h o) (hm : Move self s i s' outs)
    (hsigner : Contract.signer? i ≠ some self) (hok : KeepsPairs s i) :
    ∀ o ∈ s'.orders, Refundable s' (h.after self i s') o := by
  -- orders that were open before keep their deposit
  have hkeep : ∀ o ∈ s.orders, o ∈ s'.orders →
      (h.after self i s').deposit o.orderId = h.deposit o.orderId →
      Refundable s' (h.after self i s') o := by
    intro o ho hstored hdeposit
    apply (hr o ho).keep hm _ hstored hdeposit
    rintro tpcode rfl
    exact hok o ho
  intro o ho
  cases hm with
  | ignore n hn =>
    apply hkeep o ho ho
    rw [h.after_ignored hn]
  | deposit n pair o₁ hto hopens =>
    rw [h.after_deposit (Contract.not_ignored hsigner hto)] at hkeep ⊢
    -- the new order is refundable itself; the old ones have other ids
    rcases Table.mem_put.mp ho with rfl | ⟨hold, hne⟩
    · obtain ⟨bank, hrefund⟩ := hopens.refunds (Table.find?_self ho) rfl
      refine ⟨⟨pair, bank, hrefund⟩, n, ?_, hopens.openedBy⟩
      rw [deposit_cons]
      exact if_pos hopens.orderId
    · apply hkeep o hold ho
      rw [deposit_cons]
      apply if_neg
      intro hid
      exact hne (hid.trans hopens.orderId.symm)
  | finishorder | cancelorder =>
    have hold := (Table.mem_erase.mp ho).1
    exact hkeep o hold ho (h.deposit_after_act _ _ _)
  | configure | addtradpair | rmtradpair | setstatus =>
    exact hkeep o ho ho (h.deposit_after_act _ _ _)

end Moves

/-! ## Whole runs -/

section Runs
variable {self : Name} {p p' : World State × History} {i : Ctx × Input Action} {o : Order}
  {is : List (Ctx × Input Action)} {clock : TimePoint} {h : History}

theorem cancellable_of_refundable (hr : ∀ o ∈ p.1.state.orders, Refundable p.1.state p.2 o) :
    Cancellable self p := by
  intro o ho
  obtain ⟨⟨pair, bank, hrefund⟩, n, hdeposit, hopened⟩ := hr o ho
  refine ⟨n, hdeposit, hopened.owner, ?_⟩
  intro ctx hauth
  exact ⟨_, _, cancelorder_of hauth hrefund, hopened.paid, rfl⟩

/-- Only a cancellable order's pair can be looked up. -/
theorem pair_of_cancellable (hc : Cancellable self p) (ho : o ∈ p.1.state.orders) :
    ∃ pair, p.1.state.pairs.find? o.tpcode.raw = some pair := by
  obtain ⟨n, -, -, hcancel⟩ := hc o ho
  have hauth : (Ctx.signed p.1.state.gstate.oracle 0).hasAuth p.1.state.gstate.oracle = true :=
    decide_eq_true (List.mem_singleton.mpr rfl)
  obtain ⟨s', t, hexec, -⟩ := hcancel _ hauth
  obtain ⟨o₁, pair, bank, hid, hrefund, -⟩ := refunds_of_cancelorder hexec
  have hsame : o₁ = o := Table.eq_of_key_eq (Table.find?_eq_some.mp hrefund.stored).1 ho hid
  rw [← hsame]
  exact ⟨pair, hrefund.named⟩

/-- Removing a pair under an open order makes that order uncancellable. -/
theorem not_cancellable_of_step (hs : stepLogged self p i = .ok p')
    (hbreak : ¬ KeepsPairs p.1.state i.2) : ¬ Cancellable self p' := by
  intro hc
  rcases i with ⟨ctx, n | a⟩
  · exact hbreak trivial
  · cases a with
    | rmtradpair tpcode =>
      apply hbreak
      intro o ho htpcode
      obtain ⟨hstep, -⟩ := Transition.recording_eq_ok.mp hs
      obtain ⟨outs, hrun⟩ := (contract self).run_of_step hstep
      have hexec : rmtradpair ctx tpcode p.1.state = .ok (p'.1.state, outs) := hrun
      simp only [rmtradpair, bind_eq_ok, require_eq_ok, pure_eq_ok, exists_const, Prod.mk.injEq,
        Ctx.requireAuth_eq_ok] at hexec
      obtain ⟨-, pair, -, hstate, -⟩ := hexec
      have hstored : o ∈ p'.1.state.orders := by
        rw [← hstate]
        exact ho
      obtain ⟨pair', hnamed⟩ := pair_of_cancellable hc hstored
      -- the order names the pair that was just erased
      rw [← hstate] at hnamed
      have herased : (p.1.state.pairs.erase tpcode.raw).find? o.tpcode.raw = some pair' := hnamed
      rw [Table.find?_erase, if_pos (congrArg Name.raw htpcode)] at herased
      cases herased
    | init | addtradpair | distradpair | enabtradpair | finishorder | cancelorder | setadmin
      | setoracle => exact hbreak trivial

/-- In every run that removes no pair under an open order, every open order can be cancelled,
which refunds its deposit to its owner. A step that removes a pair under an open order leaves
an order that cannot be cancelled. -/
theorem open_orders_cancellable
    (hrun : Transition.Run (stepLogged self) (fun p i => KeepsPairs p.1.state i.2)
      (genesis clock, h) is p) :
    Cancellable self p ∧
    ∀ i p', stepLogged self p i = .ok p' → ¬ KeepsPairs p.1.state i.2 → ¬ Cancellable self p' := by
  have hrefundable : ∀ o ∈ p.1.state.orders, Refundable p.1.state p.2 o := by
    apply hrun.invariant (P := fun p => ∀ o ∈ p.1.state.orders, Refundable p.1.state p.2 o)
    · intro p i p' ih hok hs
      obtain ⟨hstep, hrecord⟩ := Transition.recording_eq_ok.mp hs
      obtain ⟨-, hsigner, -, outs, hcode, -⟩ := ((contract self).step_eq_ok).mp hstep
      rw [hrecord]
      exact refundable_of_move ih (move_of_run hcode) hsigner hok
    · intro o ho
      exact absurd ho (Table.not_mem_empty o)
  constructor
  · exact cancellable_of_refundable hrefundable
  · intro i p' hs hbreak
    exact not_cancellable_of_step hs hbreak

end Runs

/-! ## A pair removed under an order -/

namespace Sample

/-- The admin removes the pair of an open order; the order cannot be cancelled any more. -/
theorem pair_removed_under_order :
    ¬ ∀ (is : List (Ctx × Input Action)) (p : World State × History),
      Transition.Run (stepLogged account) Transition.Unrestricted (genesis (.ofDays 100), {}) is p →
      Cancellable account p := by
  intro hclaim
  have hreach : Transition.Reaches (stepLogged account) Transition.Unrestricted (fun p =>
      p.1.state.gstate.oracle = admin ∧ ∃ o ∈ p.1.state.orders.find? 1,
        Fails (exec account (.signed admin 101) (.cancelorder o.orderId) p.1.state)
          ⟨some Err.recordNoFound.code, "pair not found"⟩)
      (setup ++ [sell bank, (.signed admin 101, .act (.rmtradpair (.lit "flonusdt")))])
      (genesis (.ofDays 100), {}) := by decide
  obtain ⟨p, hrun, horacle, o, ho, hfails⟩ := Transition.run_of_reaches hreach
  have hauth : (Ctx.signed admin 101).hasAuth p.1.state.gstate.oracle = true := by
    rw [horacle]
    decide
  obtain ⟨n, -, -, hcancel⟩ := hclaim _ p hrun o (Table.find?_eq_some.mp ho).1
  obtain ⟨s', t, hexec, -⟩ := hcancel _ hauth
  rw [fails_iff.mp hfails] at hexec
  cases hexec

/-- An order of a disabled pair can be cancelled. -/
theorem open_orders_cancellable_sample :
    ∃ p, Transition.Run (stepLogged account) (fun p i => KeepsPairs p.1.state i.2)
        (genesis (.ofDays 100), {})
        (setup ++ [sell bank, (.signed admin 101, .act (.distradpair (.lit "flonusdt")))]) p ∧
      p.1.state.orders.rows.length = 1 ∧ Cancellable account p := by
  have hreach : Transition.Reaches (stepLogged account) (fun p i => KeepsPairs p.1.state i.2)
      (fun p => p.1.state.orders.rows.length = 1)
      (setup ++ [sell bank, (.signed admin 101, .act (.distradpair (.lit "flonusdt")))])
      (genesis (.ofDays 100), {}) := by decide
  obtain ⟨p, hrun, hlength⟩ := Transition.run_of_reaches hreach
  exact ⟨p, hrun, hlength, (open_orders_cancellable hrun).1⟩

end Sample

end Proxyswap
end ToolkitContracts
