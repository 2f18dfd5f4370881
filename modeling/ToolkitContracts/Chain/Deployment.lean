import ToolkitContracts.Chain.Contract
import ToolkitContracts.Lib.Network

/-!
# Contracts that pay each other

An `Actor` is what a contract on a chain is to the other contracts: it takes notifications of
transfers, and it orders transfers. In a `Deployment` several of them are at accounts of their
own, and a transfer that one orders to the account of another is a notification for that one.
All that follows from an input is part of one transaction, which succeeds as a whole or leaves no
trace. The transfers of an action are carried out together, before the first of them is notified.

What a contract does in a run of the deployment is a run of that contract alone, and what the
contracts hold together is what came from outside and did not go back there.
-/

namespace ToolkitContracts

/-- What the transfer that an input is about brings into an account, if it is one. -/
def incoming (self : Name) (n? : Option Notice) (x : ExtendedSymbol) : ℤ :=
  match n? with
  | some n => if n.recipient = self ∧ n.token = x then n.quantity.amount else 0
  | none => 0

/-- A contract among others: `step` is one transaction of the contract alone, with the transfers
that it orders, and `κ` is what an action sees of its transaction. -/
structure Actor (κ : Type) where
  self : Name
  World : Type
  Input : Type
  step : World → κ × Input → Except Abort (World × List Transfer)
  notify : Notice → Input
  notice? : Input → Option Notice
  notice?_notify : ∀ n, notice? (notify n) = some n
  holding : World → Holding
  flow : ∀ {w : World} {i : κ × Input} {w' : World} {outs : List Transfer},
    step w i = .ok (w', outs) →
      ∀ x, holding w' x = holding w x + incoming self (notice? i.2) x - outflow x outs

/-! ## Contracts as actors -/

namespace Contract

variable {κ σ α : Type} {toCtx : κ → Ctx} {C : Contract σ α} {w w' : World σ} {i : κ × Input α}
  {outs : List Transfer}

/-- The transfer that an input is about. -/
def notice? : Input α → Option Notice
  | .notify n => some n
  | .act _ => none

/-- A step together with the transfers that the contract orders in it. -/
def order (toCtx : κ → Ctx) (C : Contract σ α) (w : World σ) (i : κ × Input α) :
    Except Abort (World σ × List Transfer) := do
  let w' ← C.step w (toCtx i.1, i.2)
  let (_, outs) ← C.run (toCtx i.1) i.2 w.state
  return (w', outs)

theorem order_eq_ok : C.order toCtx w i = .ok (w', outs) ↔
    C.step w (toCtx i.1, i.2) = .ok w' ∧ C.run (toCtx i.1) i.2 w.state = .ok (w'.state, outs) := by
  simp only [order, bind_eq_ok, pure_eq_ok, Prod.mk.injEq]
  constructor
  · rintro ⟨w₁, hstep, ⟨s, outs'⟩, hrun, rfl, rfl⟩
    obtain ⟨-, -, -, outs₁, hrun₁, -⟩ := C.step_eq_ok.mp hstep
    rw [hrun, Except.ok.injEq, Prod.mk.injEq] at hrun₁
    obtain ⟨rfl, -⟩ := hrun₁
    exact ⟨hstep, hrun⟩
  · rintro ⟨hstep, hrun⟩
    exact ⟨w', hstep, (w'.state, outs), hrun, rfl, rfl⟩

theorem received_eq (i : Input α) (h : Holding) (x : ExtendedSymbol) :
    C.received i h x = h x + incoming C.self (notice? i) x := by
  cases i with
  | act a => exact (add_zero _).symm
  | notify n =>
    unfold received incoming notice?
    dsimp only
    by_cases hto : n.recipient = C.self
    · simp only [hto, true_and, if_true, Holding.credit_apply]
    · simp only [hto, false_and, if_false, add_zero]

/-- A contract of which actions see `toCtx` of their transaction. -/
def actor (toCtx : κ → Ctx) (C : Contract σ α) : Actor κ where
  self := C.self
  World := World σ
  Input := Input α
  step := C.order toCtx
  notify := .notify
  notice? := notice?
  notice?_notify := fun _ => rfl
  holding := World.holding
  flow := by
    intro w i w' outs h x
    obtain ⟨hstep, hrun⟩ := order_eq_ok.mp h
    obtain ⟨-, -, -, outs', hrun', hsettle⟩ := C.step_eq_ok.mp hstep
    rw [hrun, Except.ok.injEq, Prod.mk.injEq] at hrun'
    obtain ⟨-, rfl⟩ := hrun'
    rw [settle_apply hsettle, received_eq]

end Contract

/-- The transaction of an actor alone. -/
def Actor.stepAlone {κ : Type} (A : Actor κ) (w : A.World) (m : κ × A.Input) :
    Except Abort A.World :=
  match A.step w m with
  | .ok (w', _) => .ok w'
  | .error e => .error e

/-- What the actor does alone, the contract does. -/
theorem Contract.run_of_alone {κ σ α : Type} {toCtx : κ → Ctx} {C : Contract σ α} {w w' : World σ}
    {is : List (κ × Input α)}
    (hrun : Transition.Run (C.actor toCtx).stepAlone Transition.Unrestricted w is w') :
    Transition.Run C.step Transition.Unrestricted w (is.map fun i => (toCtx i.1, i.2)) w' := by
  refine hrun.simulates (fun w : World σ => w) (fun i => (toCtx i.1, i.2)) fun w i w' _ hstep => ?_
  unfold Actor.stepAlone at hstep
  split at hstep
  · next w₁ outs horder =>
    obtain rfl : w₁ = w' := Except.ok.inj hstep
    exact (order_eq_ok.mp horder).1
  · cases hstep

/-! ## Deployments -/

/-- Actors side by side: `party` finds the one at an account, and `signed` is the transaction as an
action sees it that one account has signed. -/
structure Deployment (κ ι : Type) where
  actor : ι → Actor κ
  party : Name → Option ι
  party_eq_some : ∀ {n : Name} {i : ι}, party n = some i ↔ (actor i).self = n
  signed : κ → Name → κ

/-- An actor in its world, what accounts outside the deployment have brought in, and all transfers
ordered so far. -/
structure Deployed {κ : Type} (A : Actor κ) where
  world : A.World
  income : Holding
  sent : List Transfer

/-- An actor that has neither received nor ordered anything yet. -/
def Deployed.start {κ : Type} {A : Actor κ} (w : A.World) : Deployed A := ⟨w, fun _ => 0, []⟩

namespace Deployment

variable {κ ι : Type} (D : Deployment κ ι)

abbrev State (i : ι) : Type := Deployed (D.actor i)

abbrev Message : Type := Network.Message fun i => κ × (D.actor i).Input

/-- The transfers that go to accounts outside the deployment. -/
def outside (ts : List Transfer) : List Transfer :=
  ts.filter fun t => (D.party t.recipient).isNone

/-- What a transfer that an account outside signed brings in. -/
def outsideIncome (i : ι) (a : (D.actor i).Input) (h : Holding) : Holding := fun x =>
  h x + match (D.actor i).notice? a with
    | some n => if D.party n.sender = none then incoming (D.actor i).self (some n) x else 0
    | none => 0

/-- The notifications of the transfers that an account ordered; a token contract moves only valid
quantities. -/
def notices (k : κ) (sender : Name) : List Transfer → Except Abort (List D.Message)
  | [] => .ok []
  | t :: ts => do
    let rest ← notices k sender ts
    match D.party t.recipient with
    | none => return rest
    | some j => do
      let h ← checkThat t.quantity.isValid "invalid quantity"
      return ⟨j, D.signed k sender, (D.actor j).notify
        ⟨t.bank, sender, t.recipient, t.quantity, t.memo, h.down⟩⟩ :: rest

/-- An actor handles an input, and those it pays are notified. -/
def handle (i : ι) (d : D.State i) (m : κ × (D.actor i).Input) :
    Except Abort (D.State i × List D.Message) := do
  let (world, outs) ← (D.actor i).step d.world m
  let messages ← D.notices m.1 (D.actor i).self outs
  return (⟨world, D.outsideIncome i m.2 d.income, d.sent ++ outs⟩, messages)

def tooDeep : Abort := ⟨none, "max inline action depth per transaction reached"⟩

/-- A transaction: an input with all that follows from it. -/
def transact [DecidableEq ι] (depth : ℕ) : (∀ i, D.State i) → D.Message →
    Except Abort (∀ i, D.State i) :=
  Network.deliver D.handle tooDeep depth

/-- A message from outside: a transfer that it is about is not signed by a deployed account. -/
def External (_ : ∀ i, D.State i) (m : D.Message) : Prop :=
  match (D.actor m.1).notice? m.2.2 with
  | some n => D.party n.sender = none
  | none => True

instance [DecidableEq ι] (w : ∀ i, D.State i) (m : D.Message) : Decidable (D.External w m) := by
  unfold External
  cases (D.actor m.1).notice? m.2.2 <;> infer_instance

section Results
variable {D} {i : ι} {d d' : D.State i} {m : κ × (D.actor i).Input} {k : κ} {sender : Name}
  {ts outs : List Transfer} {messages : List D.Message}

/-- What an actor does with an input. -/
theorem handle_eq_ok : D.handle i d m = .ok (d', messages) ↔
    ∃ outs, (D.actor i).step d.world m = .ok (d'.world, outs) ∧
      D.notices m.1 (D.actor i).self outs = .ok messages ∧
      d'.income = D.outsideIncome i m.2 d.income ∧ d'.sent = d.sent ++ outs := by
  simp only [handle, bind_eq_ok, pure_eq_ok, Prod.mk.injEq]
  constructor
  · rintro ⟨⟨world, outs⟩, hstep, sent, hsent, rfl, rfl⟩
    exact ⟨outs, hstep, hsent, rfl, rfl⟩
  · rintro ⟨outs, hstep, hsent, hincome, hlog⟩
    refine ⟨(d'.world, outs), hstep, messages, hsent, ?_, rfl⟩
    rw [← hincome, ← hlog]

/-- The notifications are those of the transfers to deployed accounts. -/
theorem mem_notices (h : D.notices k sender ts = .ok messages) {a : D.Message}
    (ha : a ∈ messages) : ∃ n : Notice, a.2 = (D.signed k sender, (D.actor a.1).notify n) ∧
      n.sender = sender ∧ (D.actor a.1).self = n.recipient ∧
      ⟨n.bank, n.recipient, n.quantity, n.memo⟩ ∈ ts := by
  induction ts generalizing messages with
  | nil =>
    cases h
    cases ha
  | cons t ts ih =>
    simp only [notices, bind_eq_ok] at h
    obtain ⟨rest, hrest, h⟩ := h
    cases hparty : D.party t.recipient with
    | none =>
      simp only [hparty, pure_eq_ok] at h
      subst h
      obtain ⟨n, hn, hsender, hself, hmem⟩ := ih hrest ha
      exact ⟨n, hn, hsender, hself, List.mem_cons_of_mem _ hmem⟩
    | some j =>
      simp only [hparty, bind_eq_ok, pure_eq_ok] at h
      obtain ⟨hvalid, -, rfl⟩ := h
      rcases List.mem_cons.mp ha with rfl | ha
      · exact ⟨_, rfl, rfl, D.party_eq_some.mp hparty, List.mem_cons_self⟩
      · obtain ⟨n, hn, hsender, hself, hmem⟩ := ih hrest ha
        exact ⟨n, hn, hsender, hself, List.mem_cons_of_mem _ hmem⟩

/-- Valid quantities are notified. -/
theorem notices_of_valid (h : ∀ t ∈ ts, t.quantity.isValid) :
    ∃ messages, D.notices k sender ts = .ok messages := by
  induction ts with
  | nil => exact ⟨[], rfl⟩
  | cons t ts ih =>
    obtain ⟨rest, hrest⟩ := ih fun u hu => h u (List.mem_cons_of_mem _ hu)
    rw [notices, hrest, ok_bind]
    cases D.party t.recipient with
    | none => exact ⟨rest, rfl⟩
    | some j =>
      rw [checkThat, dif_pos (h t List.mem_cons_self)]
      exact ⟨_, rfl⟩

/-- Every transfer to a deployed account is notified. -/
theorem notice_of_mem (h : D.notices k sender ts = .ok messages) {t : Transfer} (ht : t ∈ ts)
    {j : ι} (hj : D.party t.recipient = some j) : ∃ hvalid, ⟨j, D.signed k sender,
      (D.actor j).notify ⟨t.bank, sender, t.recipient, t.quantity, t.memo, hvalid⟩⟩ ∈ messages := by
  induction ts generalizing messages with
  | nil => cases ht
  | cons u ts ih =>
    simp only [notices, bind_eq_ok] at h
    obtain ⟨rest, hrest, h⟩ := h
    rcases List.mem_cons.mp ht with rfl | ht
    · simp only [hj, bind_eq_ok, pure_eq_ok] at h
      obtain ⟨hvalid, -, rfl⟩ := h
      exact ⟨hvalid.down, List.mem_cons_self⟩
    · obtain ⟨hvalid, hmem⟩ := ih hrest ht
      refine ⟨hvalid, ?_⟩
      cases hparty : D.party u.recipient with
      | none =>
        simp only [hparty, pure_eq_ok] at h
        rwa [h] at hmem
      | some i =>
        simp only [hparty, bind_eq_ok, pure_eq_ok] at h
        obtain ⟨-, -, rfl⟩ := h
        exact List.mem_cons_of_mem _ hmem

/-- Transfers to one deployed account are notified in their order. -/
theorem notices_of_recipient {j : ι} (hj : ∀ t ∈ ts, D.party t.recipient = some j)
    (h : D.notices k sender ts = .ok messages) : ∃ ns : List Notice,
      messages = ns.map (fun n => ⟨j, D.signed k sender, (D.actor j).notify n⟩) ∧
      ns.map (fun n => ⟨n.bank, n.recipient, n.quantity, n.memo⟩) = ts ∧
      ∀ n ∈ ns, n.sender = sender := by
  induction ts generalizing messages with
  | nil =>
    cases h
    exact ⟨[], rfl, rfl, fun n hn => absurd hn List.not_mem_nil⟩
  | cons t ts ih =>
    simp only [notices, bind_eq_ok, hj t List.mem_cons_self, pure_eq_ok] at h
    obtain ⟨rest, hrest, hvalid, -, rfl⟩ := h
    obtain ⟨ns, rfl, hns, hsender⟩ := ih (fun u hu => hj u (List.mem_cons_of_mem _ hu)) hrest
    refine ⟨⟨t.bank, sender, t.recipient, t.quantity, t.memo, hvalid.down⟩ :: ns, rfl, ?_, ?_⟩
    · rw [List.map_cons, hns]
    · rw [List.forall_mem_cons]
      exact ⟨rfl, hsender⟩

theorem notices_singleton {t : Transfer} {j : ι} (hj : D.party t.recipient = some j)
    (hvalid : t.quantity.isValid) : D.notices k sender [t] = .ok [⟨j, D.signed k sender,
      (D.actor j).notify ⟨t.bank, sender, t.recipient, t.quantity, t.memo, hvalid⟩⟩] := by
  rw [notices, notices, ok_bind, hj]
  dsimp only
  rw [checkThat, dif_pos hvalid]
  rfl

/-! ## One actor of a run -/

/-- A run of the deployment is, for each actor, a run of that actor alone. -/
theorem run_of_run [DecidableEq ι] {ok : (∀ i, D.State i) → D.Message → Prop} {depth : ℕ}
    {w w' : ∀ i, D.State i} {ms : List D.Message}
    (hrun : Transition.Run (D.transact depth) ok w ms w') (i : ι) :
    ∃ is, Transition.Run (D.actor i).stepAlone Transition.Unrestricted (w i).world is
      (w' i).world := by
  obtain ⟨is, his⟩ := Network.run_of_run (P := fun _ _ => True)
    (fun _ _ _ _ _ _ _ _ _ => trivial) (fun _ _ _ => trivial) hrun i
  refine ⟨_, his.simulates (fun d : D.State i => d.world) id fun d m d' _ hstep => ?_⟩
  obtain ⟨messages, hhandle⟩ := Network.alone_eq_ok.mp hstep
  obtain ⟨outs, houts, -⟩ := handle_eq_ok.mp hhandle
  rw [Actor.stepAlone, id_eq, houts]

/-! ## What the actors hold together -/

/-- What a message brings in from another deployed account. -/
def weight (D : Deployment κ ι) (x : ExtendedSymbol) (m : D.Message) : ℤ :=
  match (D.actor m.1).notice? m.2.2 with
  | some n => if D.party n.sender = none then 0 else incoming (D.actor m.1).self (some n) x
  | none => 0

/-- What an actor holds but did not get from outside, and what it paid to accounts outside. -/
def passed (D : Deployment κ ι) (x : ExtendedSymbol) (i : ι) (d : D.State i) : ℤ :=
  (D.actor i).holding d.world x - d.income x + outflow x (D.outside d.sent)

/-- What is ordered goes outside, or is passed on with the notifications. -/
theorem sum_weight_notices (hsender : D.party sender ≠ none)
    (h : D.notices k sender ts = .ok messages) (x : ExtendedSymbol) :
    (messages.map (D.weight x)).sum + outflow x (D.outside ts) = outflow x ts := by
  induction ts generalizing messages with
  | nil =>
    cases h
    rfl
  | cons t ts ih =>
    simp only [notices, bind_eq_ok] at h
    obtain ⟨rest, hrest, h⟩ := h
    have htail := ih hrest
    cases hparty : D.party t.recipient with
    | none =>
      simp only [hparty, pure_eq_ok] at h
      subst h
      have hout : D.outside (t :: ts) = t :: D.outside ts :=
        List.filter_cons_of_pos (by rw [hparty]; rfl)
      rw [hout, outflow_cons, outflow_cons]
      omega
    | some j =>
      simp only [hparty, bind_eq_ok, pure_eq_ok] at h
      obtain ⟨hvalid, -, rfl⟩ := h
      have hout : D.outside (t :: ts) = D.outside ts :=
        List.filter_cons_of_neg (by rw [hparty]; exact Bool.false_ne_true)
      have hhead : D.weight x ⟨j, D.signed k sender, (D.actor j).notify
          ⟨t.bank, sender, t.recipient, t.quantity, t.memo, hvalid.down⟩⟩
          = if t.token = x then t.quantity.amount else 0 := by
        unfold weight incoming
        rw [(D.actor j).notice?_notify]
        dsimp only
        rw [if_neg hsender, D.party_eq_some.mp hparty]
        simp only [true_and]
        rfl
      rw [hout, List.map_cons, List.sum_cons, outflow_cons, hhead]
      omega

/-- An actor keeps what a message brings in, or pays it outside, or passes it on. -/
theorem passed_of_handle (h : D.handle i d m = .ok (d', messages)) (x : ExtendedSymbol) :
    D.passed x i d' + (messages.map (D.weight x)).sum = D.passed x i d + D.weight x ⟨i, m⟩ := by
  obtain ⟨outs, hstep, hsent, hincome, hlog⟩ := handle_eq_ok.mp h
  have hflow := (D.actor i).flow hstep x
  have hself : D.party (D.actor i).self ≠ none := by
    rw [D.party_eq_some.mpr rfl]
    exact Option.some_ne_none i
  have hpassed := sum_weight_notices hself hsent x
  have hout : outflow x (D.outside d'.sent)
      = outflow x (D.outside d.sent) + outflow x (D.outside outs) := by
    rw [hlog, outside, List.filter_append, outflow_append]
    rfl
  -- what came in is from outside or from another actor
  have hin : incoming (D.actor i).self ((D.actor i).notice? m.2) x
      = d'.income x - d.income x + D.weight x ⟨i, m⟩ := by
    rw [hincome]
    unfold outsideIncome weight
    dsimp only
    cases hn : (D.actor i).notice? m.2 with
    | none =>
      unfold incoming
      dsimp only
      omega
    | some n =>
      dsimp only
      by_cases hsender : D.party n.sender = none
      · rw [if_pos hsender, if_pos hsender]
        omega
      · rw [if_neg hsender, if_neg hsender]
        omega
  unfold passed
  rw [hflow, hout, hin]
  omega

/-- No token is lost or made between the actors: what they hold together, and what they paid to
accounts outside, grows by what these brought in. -/
theorem sum_of_run [DecidableEq ι] [Fintype ι] {depth : ℕ} {w w' : ∀ i, D.State i}
    {ms : List D.Message} (hrun : Transition.Run (D.transact depth) D.External w ms w')
    (x : ExtendedSymbol) : ∑ i, D.passed x i (w' i) = ∑ i, D.passed x i (w i) := by
  refine hrun.invariant (P := fun w' => ∑ i, D.passed x i (w' i) = ∑ i, D.passed x i (w i)) ?_ rfl
  intro v m v' hv hm hstep
  have hzero : D.weight x m = 0 := by
    unfold External at hm
    unfold weight
    cases hn : (D.actor m.1).notice? m.2.2 with
    | none => rfl
    | some n =>
      rw [hn] at hm
      exact if_pos hm
  have hsum := Network.sum_of_deliver (D.passed x) (D.weight x)
    (fun _ _ _ _ _ h => passed_of_handle h x) hstep
  rw [hsum, hv, hzero, add_zero]

end Results
end Deployment
end ToolkitContracts
