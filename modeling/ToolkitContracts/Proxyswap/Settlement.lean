import ToolkitContracts.Proxyswap.Escrow

/-!
# Settlement of orders of flon.proxyswap

Orders are numbered by the counter `last_order_id`, which only grows after `init`. A history
variable writes down which orders were opened, by which transfer, and which ones were settled
by `finishorder` or `cancelorder`. As long as the counter does not come round, an order that
was settled is gone for good: no later transfer opens it again, and no action pays for it.
-/

namespace ToolkitContracts
namespace Proxyswap

/-! ## What happened to the orders -/

/-- The opened orders with their transfers and the settled orders, the last one first. -/
structure History where
  opened : List (ℕ × Notice) := []
  settled : List ℕ := []

/-- The orders that were opened. -/
def History.ids (h : History) : List ℕ := h.opened.map Prod.fst

/-- The history after an input that led to the tables `s'`: an accepted deposit opened the
order with the last id. -/
def History.after (h : History) (self : Name) (i : Input Action) (s' : State) : History :=
  match i with
  | .notify n =>
    if n.recipient ≠ self ∨ n.sender = self then h
    else { h with opened := (s'.gstate.lastOrderId, n) :: h.opened }
  | .act a =>
    match a.settles with
    | none => h
    | some id => { h with settled := id :: h.settled }

/-- One transaction, with the orders that it opens and settles written down. -/
def stepLogged (self : Name) :
    World State × History → Ctx × Input Action → Except Abort (World State × History) :=
  Transition.recording (contract self).step fun h _ i w' => h.after self i.2 w'.state

/-- The input is not a call of `init`. -/
def NoInit : Input Action → Prop
  | .notify _ => True
  | .act a => ¬ a.IsInit

instance (i : Input Action) : Decidable (NoInit i) := by
  rcases i with n | a <;> dsimp only [NoInit] <;> infer_instance

/-- The row is the order that the transfer opened: it has the deposit on the paying side and
nothing on the other side. -/
structure OpenedBy (o : Order) (n : Notice) : Prop where
  owner : o.owner = n.sender
  paid : o.paid = n.quantity
  unpaid : o.unpaid.amount = 0
  status : o.status = .created

/-- The table has the orders that were opened and not settled, as their transfers opened
them. -/
structure OrdersOpen (s : State) (h : History) : Prop where
  stored : ∀ o ∈ s.orders, o.orderId ∉ h.settled ∧ ∃ n, (o.orderId, n) ∈ h.opened ∧ OpenedBy o n
  kept : ∀ id ∈ h.ids, id ∉ h.settled → ∃ o, s.orders.find? id = some o

/-! ## The ids of the counter -/

/-- The ids that `n` deposits get when the counter starts at `first`, the last one first. -/
def idsFrom (first : ℕ) : ℕ → List ℕ
  | 0 => []
  | n + 1 => u64 (first + n + 1) :: idsFrom first n

theorem mem_idsFrom {first n id : ℕ} :
    id ∈ idsFrom first n ↔ ∃ k < n, id = u64 (first + k + 1) := by
  induction n with
  | zero => simp [idsFrom]
  | succ n ih =>
    simp only [idsFrom, List.mem_cons, ih]
    constructor
    · rintro (rfl | ⟨k, hk, rfl⟩)
      · exact ⟨n, by omega, rfl⟩
      · exact ⟨k, by omega, rfl⟩
    · rintro ⟨k, hk, rfl⟩
      by_cases hkn : k = n
      · subst hkn
        exact Or.inl rfl
      · exact Or.inr ⟨k, by omega, rfl⟩

/-- The next id is new as long as the counter has not come round. -/
theorem not_mem_idsFrom {first n : ℕ} (hn : n < 2 ^ 64) :
    u64 (first + n + 1) ∉ idsFrom first n := by
  intro hmem
  obtain ⟨k, hk, hid⟩ := mem_idsFrom.mp hmem
  unfold u64 at hid
  omega

theorem nodup_idsFrom {first n : ℕ} (hn : n < 2 ^ 64) : (idsFrom first n).Nodup := by
  induction n with
  | zero => exact List.nodup_nil
  | succ n ih =>
    rw [idsFrom, List.nodup_cons]
    exact ⟨not_mem_idsFrom (by omega), ih (by omega)⟩

/-! ## One move -/

/-- The tables and the history of a run whose counter started at `first`. -/
structure Logged (first : ℕ) (s : State) (h : History) : Prop where
  counter : u64 s.gstate.lastOrderId = u64 (first + h.opened.length)
  ids : h.ids = idsFrom first h.opened.length
  orders : OrdersOpen s h
  settled : h.settled.Nodup
  known : ∀ id ∈ h.settled, id ∈ h.ids

section Moves
variable {self : Name} {ctx : Ctx} {s s' : State} {h : History} {first : ℕ} {o : Order}
  {i : Input Action} {outs : List Transfer} {n : Notice} {pair : Pair}

theorem History.after_ignored (h : History) (hn : n.recipient ≠ self ∨ n.sender = self) :
    h.after self (.notify n) s' = h := if_pos hn

theorem History.after_deposit (h : History) (hn : ¬ (n.recipient ≠ self ∨ n.sender = self)) :
    h.after self (.notify n) s'
      = { h with opened := (s'.gstate.lastOrderId, n) :: h.opened } := if_neg hn

theorem History.after_settles (h : History) {a : Action} {id : ℕ} (ha : a.settles = some id) :
    h.after self (.act a) s' = { h with settled := id :: h.settled } := by
  simp only [History.after, ha]

theorem History.after_other (h : History) {a : Action} (ha : a.settles = none) :
    h.after self (.act a) s' = h := by
  simp only [History.after, ha]

/-- The counter has moved on by the number of deposits. -/
theorem Logged.next (hl : Logged first s h) :
    u64 (s.gstate.lastOrderId + 1) = u64 (first + h.opened.length + 1) := by
  have hcounter := hl.counter
  unfold u64 at hcounter ⊢
  omega

/-- A transfer opens an order with an id that no earlier transfer got. -/
theorem Opens.fresh (ho : Opens n s pair o) (hl : Logged first s h)
    (hfew : h.opened.length < 2 ^ 64) : o.orderId ∉ h.ids := by
  rw [ho.orderId, hl.next, hl.ids]
  exact not_mem_idsFrom hfew

theorem Opens.openedBy (ho : Opens n s pair o) : OpenedBy o n :=
  ⟨ho.owner, ho.paid, ho.unpaid, ho.status⟩

/-- A deposit is written down under the id of the order that it opens. -/
theorem logged_deposit (hl : Logged first s h) (ho : Opens n s pair o)
    (hfew : h.opened.length < 2 ^ 64)
    (hcounter : s'.gstate.lastOrderId = u64 (s.gstate.lastOrderId + 1))
    (horders : s'.orders = s.orders.put o) :
    Logged first s' { h with opened := (s'.gstate.lastOrderId, n) :: h.opened } := by
  have hid : s'.gstate.lastOrderId = o.orderId := hcounter.trans ho.orderId.symm
  have hfresh : o.orderId ∉ h.ids := ho.fresh hl hfew
  have hunsettled : o.orderId ∉ h.settled := fun hmem => hfresh (hl.known _ hmem)
  rw [hid]
  constructor
  · show u64 s'.gstate.lastOrderId = u64 (first + (h.opened.length + 1 : ℕ))
    rw [hcounter, hl.next]
    unfold u64
    omega
  · show o.orderId :: h.ids = idsFrom first (h.opened.length + 1)
    rw [idsFrom, ← hl.ids, ho.orderId, hl.next]
  · constructor
    · rw [horders]
      intro o₁ ho₁
      rcases Table.mem_put.mp ho₁ with rfl | ⟨hold, -⟩
      · exact ⟨hunsettled, n, List.mem_cons_self, ho.openedBy⟩
      · obtain ⟨hopen, n₁, hmem, hopened⟩ := hl.orders.stored o₁ hold
        exact ⟨hopen, n₁, List.mem_cons_of_mem _ hmem, hopened⟩
    · intro id hmem hopen
      rw [horders, Table.find?_put]
      by_cases hkey : id = o.orderId
      · exact ⟨o, if_pos hkey⟩
      · rw [if_neg hkey]
        have hold : id ∈ h.ids := (List.mem_cons.mp hmem).resolve_left hkey
        exact hl.orders.kept id hold hopen
  · exact hl.settled
  · intro id hmem
    exact List.mem_cons_of_mem _ (hl.known id hmem)

/-- Settling an open order takes its row out and leaves the others as they are. -/
theorem logged_settle (hl : Logged first s h) (ho : o ∈ s.orders)
    (hcounter : s'.gstate = s.gstate) (horders : s'.orders = s.orders.erase o.orderId) :
    Logged first s' { h with settled := o.orderId :: h.settled } := by
  obtain ⟨hopen, n, hmem, -⟩ := hl.orders.stored o ho
  constructor
  · rw [hcounter]
    exact hl.counter
  · exact hl.ids
  · constructor
    · rw [horders]
      intro o₁ ho₁
      obtain ⟨hold, hne⟩ := Table.mem_erase.mp ho₁
      obtain ⟨hopen₁, hopened⟩ := hl.orders.stored o₁ hold
      refine ⟨?_, hopened⟩
      rw [List.mem_cons]
      rintro (hid | hid)
      · exact hne hid
      · exact hopen₁ hid
    · intro id hid hunsettled
      rw [List.mem_cons, not_or] at hunsettled
      rw [horders, Table.find?_erase, if_neg hunsettled.1]
      exact hl.orders.kept id hid hunsettled.2
  · exact List.nodup_cons.mpr ⟨hopen, hl.settled⟩
  · intro id hid
    rcases List.mem_cons.mp hid with rfl | hid
    · exact List.mem_map.mpr ⟨_, hmem, rfl⟩
    · exact hl.known id hid

/-- A move that opens and settles nothing keeps the orders and the counter. -/
theorem Logged.congr (hl : Logged first s h)
    (hcounter : s'.gstate.lastOrderId = s.gstate.lastOrderId) (horders : s'.orders = s.orders) :
    Logged first s' h := by
  constructor
  · rw [hcounter]
    exact hl.counter
  · exact hl.ids
  · constructor
    · rw [horders]
      exact hl.orders.stored
    · rw [horders]
      exact hl.orders.kept
  · exact hl.settled
  · exact hl.known

/-- Every move after `init` keeps the history and the table of orders in step. -/
theorem logged_of_move (hl : Logged first s h) (hm : Move self s i s' outs)
    (hsigner : Contract.signer? i ≠ some self) (hinit : NoInit i)
    (hfew : h.opened.length < 2 ^ 64) : Logged first s' (h.after self i s') := by
  cases hm with
  | ignore n hn =>
    rw [History.after_ignored h hn]
    exact hl
  | deposit n pair o hto ho =>
    rw [History.after_deposit h (Contract.not_ignored hsigner hto)]
    exact logged_deposit hl ho hfew rfl rfl
  | configure a gstate ha hid =>
    rw [History.after_other h ha]
    exact hl.congr (hid hinit) rfl
  | addtradpair a pair hnew ha =>
    rw [History.after_other h ha]
    exact hl.congr rfl rfl
  | rmtradpair tpcode =>
    rw [History.after_other h rfl]
    exact hl.congr rfl rfl
  | setstatus a pair status hpair ha =>
    rw [History.after_other h ha]
    exact hl.congr rfl rfl
  | finishorder orderId orderQuant dealQuant dealPrice fee outs o ho =>
    obtain ⟨hmem, rfl⟩ := Table.find?_eq_some.mp ho
    rw [History.after_settles h rfl]
    exact logged_settle hl hmem rfl rfl
  | cancelorder o pair bank ho =>
    rw [History.after_settles h rfl]
    exact logged_settle hl (Table.find?_eq_some.mp ho.stored).1 rfl rfl

/-- Only the settlement of an order that is in the table orders transfers. -/
theorem settles_of_move (hm : Move self s i s' outs) :
    outs = [] ∨ ∃ a, i = .act a ∧ ∃ o ∈ s.orders, a.settles = some o.orderId := by
  cases hm with
  | ignore | deposit | configure | addtradpair | rmtradpair | setstatus => exact Or.inl rfl
  | finishorder orderId orderQuant dealQuant dealPrice fee outs o ho =>
    obtain ⟨hmem, rfl⟩ := Table.find?_eq_some.mp ho
    exact Or.inr ⟨_, rfl, o, hmem, rfl⟩
  | cancelorder o pair bank ho =>
    exact Or.inr ⟨_, rfl, o, (Table.find?_eq_some.mp ho.stored).1, rfl⟩

/-- An accepted settlement names an order that is in the table. -/
theorem stored_of_settles {a : Action} {id : ℕ} (hm : Move self s (.act a) s' outs)
    (ha : a.settles = some id) : ∃ o ∈ s.orders, o.orderId = id := by
  cases hm with
  | configure _ _ hnone | addtradpair _ _ _ hnone | setstatus _ _ _ _ hnone =>
    rw [hnone] at ha
    cases ha
  | rmtradpair tpcode => cases ha
  | finishorder orderId orderQuant dealQuant dealPrice fee outs o ho =>
    cases ha
    obtain ⟨hmem, hid⟩ := Table.find?_eq_some.mp ho
    exact ⟨o, hmem, hid⟩
  | cancelorder o pair bank ho =>
    cases ha
    exact ⟨o, (Table.find?_eq_some.mp ho.stored).1, rfl⟩

end Moves

/-! ## Whole runs -/

section Runs
variable {self : Name} {p : World State × History} {is : List (Ctx × Input Action)}
  {clock : TimePoint}

/-- A history only gets longer. -/
theorem History.length_le_after (h : History) (i : Input Action) (s' : State) :
    h.opened.length ≤ (h.after self i s').opened.length := by
  cases i with
  | notify n =>
    by_cases hn : n.recipient ≠ self ∨ n.sender = self
    · rw [h.after_ignored hn]
    · rw [h.after_deposit hn]
      exact Nat.le_succ _
  | act a =>
    cases ha : a.settles with
    | none => rw [h.after_other ha]
    | some id => rw [h.after_settles ha]

/-- `init` starts the counter. -/
theorem logged_init {ctx : Ctx} {admin oracle feeReceiver : Name} {lastOrderId : ℕ}
    {w : World State}
    (hinit : (contract self).step (genesis clock)
      (ctx, .act (.init admin oracle feeReceiver lastOrderId)) = .ok w) :
    Logged lastOrderId w.state {} := by
  obtain ⟨outs, hcode⟩ := (contract self).run_of_step hinit
  have hexec : init self ctx admin oracle feeReceiver lastOrderId State.init
      = .ok (w.state, outs) := hcode
  simp only [init, bind_eq_ok, pure_eq_ok, exists_const, Prod.mk.injEq,
    Ctx.requireAuth_eq_ok] at hexec
  obtain ⟨-, hstate, -⟩ := hexec
  rw [← hstate]
  constructor
  · rfl
  · rfl
  · constructor
    · intro o ho
      exact absurd ho (Table.not_mem_empty o)
    · intro id hid
      cases hid
  · exact List.nodup_nil
  · intro id hid
    cases hid

/-- After one `init`, and with fewer than 2^64 orders, no two transfers open the same order
and no order is settled twice. The table has the orders that are not settled yet, each with
the deposit of the transfer that opened it on its paying side and nothing on the other. An
action that settles an order is refused unless the order was opened and not settled before,
and no other action orders a transfer. -/
theorem orders_settled_once {ctx : Ctx} {admin oracle feeReceiver : Name} {lastOrderId : ℕ}
    {w : World State}
    (hinit : (contract self).step (genesis clock)
      (ctx, .act (.init admin oracle feeReceiver lastOrderId)) = .ok w)
    (hrun : Transition.Run (stepLogged self) (fun _ i => NoInit i.2) (w, {}) is p)
    (hfew : p.2.opened.length < 2 ^ 64) :
    p.2.ids.Nodup ∧ p.2.settled.Nodup ∧ OrdersOpen p.1.state p.2 ∧
    ∀ ctx i s' outs, (contract self).run ctx i p.1.state = .ok (s', outs) →
      (∀ a id, i = .act a → a.settles = some id → id ∈ p.2.ids ∧ id ∉ p.2.settled) ∧
      (outs = [] ∨ ∃ a id, i = .act a ∧ a.settles = some id) := by
  have hlogged : p.2.opened.length < 2 ^ 64 → Logged lastOrderId p.1.state p.2 := by
    apply hrun.invariant (P := fun p => p.2.opened.length < 2 ^ 64 →
      Logged lastOrderId p.1.state p.2)
    · intro p i p' ih hnoinit hs hfew
      obtain ⟨hstep, hrecord⟩ := Transition.recording_eq_ok.mp hs
      obtain ⟨-, hsigner, -, outs, hcode, -⟩ := ((contract self).step_eq_ok).mp hstep
      rw [hrecord] at hfew ⊢
      have hbefore : p.2.opened.length < 2 ^ 64 :=
        (p.2.length_le_after i.2 p'.1.state).trans_lt hfew
      exact logged_of_move (ih hbefore) (move_of_run hcode) hsigner hnoinit hbefore
    · intro _
      exact logged_init hinit
  have hl := hlogged hfew
  have hids : p.2.ids.Nodup := by
    rw [hl.ids]
    exact nodup_idsFrom hfew
  refine ⟨hids, hl.settled, hl.orders, ?_⟩
  intro ctx i s' outs hcode
  have hm := move_of_run hcode
  constructor
  · rintro a id rfl ha
    obtain ⟨o, ho, rfl⟩ := stored_of_settles hm ha
    obtain ⟨hopen, n, hmem, -⟩ := hl.orders.stored o ho
    exact ⟨List.mem_map.mpr ⟨_, hmem, rfl⟩, hopen⟩
  · rcases settles_of_move hm with hnone | ⟨a, hi, o, -, ha⟩
    · exact Or.inl hnone
    · exact Or.inr ⟨a, o.orderId, hi, ha⟩

end Runs

/-! ## A cancelled order -/

namespace Sample

/-- Right after `init`. -/
def initialized : World State where
  state := { State.init with gstate := ⟨admin, admin, admin, 0⟩ }
  holding := fun _ => 0
  clock := .ofDays 100

/-- Order 1 is cancelled and order 2 stays open; neither can be settled again by the id 1. -/
theorem orders_settled_once_sample :
    ∃ p, Transition.Run (stepLogged account) (fun _ i => NoInit i.2) (initialized, {})
        (setup.tail ++ [sell bank, sell bank, (.signed admin 101, .act (.cancelorder 1))]) p ∧
      p.2.ids = [2, 1] ∧ p.2.settled = [1] ∧ OrdersOpen p.1.state p.2 := by
  have hinit : (contract account).step (genesis (.ofDays 100))
      (.signed account 100, .act (.init admin admin admin 0)) = .ok initialized := rfl
  have hreach : Transition.Reaches (stepLogged account) (fun _ i => NoInit i.2)
      (fun p => p.2.ids = [2, 1] ∧ p.2.settled = [1])
      (setup.tail ++ [sell bank, sell bank, (.signed admin 101, .act (.cancelorder 1))])
      (initialized, {}) := by decide
  obtain ⟨p, hrun, hids, hsettled⟩ := Transition.run_of_reaches hreach
  have hfew : p.2.opened.length < 2 ^ 64 := by
    have hlength : p.2.ids.length = 2 := by rw [hids]; rfl
    rw [History.ids, List.length_map] at hlength
    omega
  have hresult := orders_settled_once hinit hrun hfew
  exact ⟨p, hrun, hids, hsettled, hresult.2.2.1⟩

end Sample

end Proxyswap
end ToolkitContracts
