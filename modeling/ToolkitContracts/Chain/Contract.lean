import ToolkitContracts.Chain.Types
import ToolkitContracts.Lib.Table
import ToolkitContracts.Lib.Transition

/-!
# Contracts on a chain

What a contract sees of the chain is an execution context (the authorities of the action,
the block time, which accounts exist) and transfer notifications from token contracts; what
it does to the chain is to change its tables and to order transfers out of its own account.
A `Contract` is that interface, and a `World` is the contract's tables together with the
tokens its account holds and the block time of the last step.

Token contracts are the standard ones. They move exactly the quantity they notify, and
refuse a transfer to the sender itself, a non-positive quantity, and one that the sender's
balance does not cover; a refused transfer aborts the whole step. The contract's account
signs no transfer other than those its own code orders.

A token contract also refuses to pay a name that is no account, which `settle` does not ask:
the accounts that a contract pays are taken to exist. Where the code does not see to that
itself and the result depends on it, the result asks for it; where accounts come and go, the
payment asks the chain (`Sent.arrive`).
-/

namespace ToolkitContracts

/-- What an action sees of its transaction and of the chain. The last two fields are values
that the transaction does not choose: the text that a read past the end of a vector of
texts returns, and the first eight bytes of the hash of the transaction's tapos words. -/
structure Ctx where
  auths : List Name
  isAccount : Name → Bool
  now : TimePoint
  stale : List Char := []
  seed : UInt64 := 0

namespace Ctx

/-- A transaction signed by one account on a given day, with every account existing. -/
def signed (signer : Name) (day : ℕ) : Ctx where
  auths := [signer]
  isAccount := fun _ => true
  now := .ofDays day

/-- `has_auth`. -/
def hasAuth (ctx : Ctx) (n : Name) : Bool := decide (n ∈ ctx.auths)

/-- `require_auth`. -/
def requireAuth (ctx : Ctx) (n : Name) : Except Abort Unit :=
  check (ctx.hasAuth n = true) "missing authority"

@[simp] theorem requireAuth_eq_ok {ctx : Ctx} {n : Name} {u : Unit} :
    ctx.requireAuth n = .ok u ↔ ctx.hasAuth n = true := check_eq_ok

end Ctx

/-- A transfer the contract orders from its own account. -/
structure Transfer where
  bank : Name
  recipient : Name
  quantity : Asset
  memo : List Char
deriving DecidableEq

/-- The notification of a token transfer: `bank` is what `get_first_receiver` returns. The
quantity is a valid asset, which every token contract checks before it moves it. -/
structure Notice where
  bank : Name
  sender : Name
  recipient : Name
  quantity : Asset
  memo : List Char
  valid : quantity.isValid

/-- The token a transfer moves. -/
def Transfer.token (t : Transfer) : ExtendedSymbol := ⟨t.quantity.symbol, t.bank⟩

/-- The token a notification is about. -/
def Notice.token (n : Notice) : ExtendedSymbol := ⟨n.quantity.symbol, n.bank⟩

/-- What an action on tables `σ` does: the tables after it and the transfers it orders. -/
abbrev Effect (σ : Type) := σ × List Transfer

/-- An input of a contract: a transfer notification, or one of its actions. -/
inductive Input (α : Type) where
  | notify (n : Notice)
  | act (a : α)

/-- A contract with tables `σ` and actions `α`, deployed at the account `self`. -/
structure Contract (σ α : Type) where
  self : Name
  ontransfer : Ctx → Notice → σ → Except Abort (Effect σ)
  exec : Ctx → α → σ → Except Abort (Effect σ)

/-- The tokens an account holds. -/
abbrev Holding := ExtendedSymbol → ℤ

/-- Add `amount` of the token `x`. -/
def Holding.credit (h : Holding) (x : ExtendedSymbol) (amount : ℤ) : Holding :=
  fun y => if y = x then h y + amount else h y

theorem Holding.credit_apply (h : Holding) (x y : ExtendedSymbol) (amount : ℤ) :
    h.credit x amount y = h y + if x = y then amount else 0 := by
  rw [credit]
  by_cases hxy : x = y
  · rw [if_pos hxy.symm, if_pos hxy]
  · rw [if_neg fun he => hxy he.symm, if_neg hxy, add_zero]

/-- The amount of token `x` that a list of transfers moves. -/
def outflow (x : ExtendedSymbol) : List Transfer → ℤ
  | [] => 0
  | t :: ts => (if t.token = x then t.quantity.amount else 0) + outflow x ts

@[simp] theorem outflow_nil (x : ExtendedSymbol) : outflow x [] = 0 := rfl

@[simp] theorem outflow_cons (x : ExtendedSymbol) (t : Transfer) (ts : List Transfer) :
    outflow x (t :: ts) = (if t.token = x then t.quantity.amount else 0) + outflow x ts := rfl

theorem outflow_append (x : ExtendedSymbol) (ts us : List Transfer) :
    outflow x (ts ++ us) = outflow x ts + outflow x us := by
  induction ts with
  | nil => simp
  | cons t ts ih => rw [List.cons_append, outflow_cons, outflow_cons, ih, add_assoc]

theorem outflow_nonneg {ts : List Transfer} (x : ExtendedSymbol)
    (h : ∀ t ∈ ts, 0 ≤ t.quantity.amount) : 0 ≤ outflow x ts := by
  induction ts with
  | nil => exact le_refl 0
  | cons t ts ih =>
    have hhead := h t (List.mem_cons_self ..)
    have htail := ih fun u hu => h u (List.mem_cons_of_mem _ hu)
    rw [outflow_cons]
    split
    · omega
    · omega

/-- The amount of token `x` that a list of transfers moves to `recipient`. -/
def paidTo (recipient : Name) (x : ExtendedSymbol) (ts : List Transfer) : ℤ :=
  outflow x (ts.filter fun t => decide (t.recipient = recipient))

@[simp] theorem paidTo_nil (recipient : Name) (x : ExtendedSymbol) : paidTo recipient x [] = 0 := rfl

theorem paidTo_cons (recipient : Name) (x : ExtendedSymbol) (t : Transfer) (ts : List Transfer) :
    paidTo recipient x (t :: ts) =
      (if t.recipient = recipient then if t.token = x then t.quantity.amount else 0 else 0)
        + paidTo recipient x ts := by
  rw [paidTo, List.filter_cons]
  by_cases hto : t.recipient = recipient
  · rw [if_pos (decide_eq_true hto), if_pos hto]
    rfl
  · rw [if_neg (by simp [hto]), if_neg hto, zero_add]
    rfl

theorem paidTo_append (recipient : Name) (x : ExtendedSymbol) (ts us : List Transfer) :
    paidTo recipient x (ts ++ us) = paidTo recipient x ts + paidTo recipient x us := by
  rw [paidTo, List.filter_append, outflow_append]
  rfl

/-- Transfers to one account move nothing to the others. -/
theorem paidTo_of_recipient {ts : List Transfer} {owner : Name} (h : ∀ t ∈ ts, t.recipient = owner)
    (recipient : Name) (x : ExtendedSymbol) :
    paidTo recipient x ts = if owner = recipient then outflow x ts else 0 := by
  induction ts with
  | nil => simp
  | cons t ts ih =>
    rw [paidTo_cons, ih fun u hu => h u (List.mem_cons_of_mem _ hu), h t (List.mem_cons_self ..)]
    by_cases hto : owner = recipient
    · rw [if_pos hto, if_pos hto, if_pos hto, outflow_cons]
    · rw [if_neg hto, if_neg hto, if_neg hto, add_zero]

/-- The token contracts carry out the transfers that `self` ordered, one after the other. -/
def settle (self : Name) : Holding → List Transfer → Except Abort Holding
  | h, [] => .ok h
  | h, t :: ts => do
    check (t.recipient ≠ self) "cannot transfer to self"
    check (0 < t.quantity.amount) "must transfer positive quantity"
    check (t.quantity.amount ≤ h t.token) "overdrawn balance"
    settle self (h.credit t.token (-t.quantity.amount)) ts

/-- Settled transfers take exactly their quantities. -/
theorem settle_apply {self : Name} {ts : List Transfer} {h h' : Holding}
    (hs : settle self h ts = .ok h') (x : ExtendedSymbol) : h' x = h x - outflow x ts := by
  induction ts generalizing h with
  | nil =>
    rw [settle, Except.ok.injEq] at hs
    rw [hs, outflow_nil, sub_zero]
  | cons t ts ih =>
    simp only [settle, bind_eq_ok, check_eq_ok, exists_const] at hs
    have := ih hs.2.2.2
    rw [this, outflow_cons, Holding.credit_apply]
    split <;> omega

/-- Every settled transfer goes to another account and moves a positive quantity. -/
theorem mem_of_settle {self : Name} {ts : List Transfer} {h h' : Holding}
    (hs : settle self h ts = .ok h') {t : Transfer} (ht : t ∈ ts) :
    t.recipient ≠ self ∧ 0 < t.quantity.amount := by
  induction ts generalizing h with
  | nil => simp at ht
  | cons u ts ih =>
    simp only [settle, bind_eq_ok, check_eq_ok, exists_const] at hs
    rcases List.mem_cons.mp ht with rfl | ht
    · exact ⟨hs.1, hs.2.1⟩
    · exact ih hs.2.2.2 ht

/-- Positive transfers to other accounts are settled when every token is covered in full. -/
theorem settle_of_covered {self : Name} {ts : List Transfer} {h : Holding}
    (hts : ∀ t ∈ ts, t.recipient ≠ self ∧ 0 < t.quantity.amount)
    (hcov : ∀ x, outflow x ts ≤ h x) : ∃ h', settle self h ts = .ok h' := by
  induction ts generalizing h with
  | nil => exact ⟨h, rfl⟩
  | cons t ts ih =>
    have hrest : ∀ u ∈ ts, u.recipient ≠ self ∧ 0 < u.quantity.amount :=
      fun u hu => hts u (List.mem_cons_of_mem _ hu)
    obtain ⟨hto, hpos⟩ := hts t (List.mem_cons_self ..)
    have hhead := hcov t.token
    have htail := outflow_nonneg t.token fun u hu => (hrest u hu).2.le
    rw [outflow_cons, if_pos rfl] at hhead
    rw [settle, check_of hto, check_of hpos, check_of (by omega)]
    refine ih hrest fun x => ?_
    have hx := hcov x
    rw [outflow_cons] at hx
    rw [Holding.credit_apply]
    split at hx
    · next heq =>
      rw [if_pos heq]
      omega
    · next hne =>
      rw [if_neg hne]
      omega

/-- One transfer is settled when it goes to another account, is positive and is covered. -/
theorem settle_singleton {self : Name} {t : Transfer} {h : Holding} (hto : t.recipient ≠ self)
    (hpos : 0 < t.quantity.amount) (hcov : t.quantity.amount ≤ h t.token) :
    settle self h [t] = .ok (h.credit t.token (-t.quantity.amount)) := by
  rw [settle, check_of hto, check_of hpos, check_of hcov, settle]

/-! ## The chain around a contract -/

/-- A contract's tables, its account's tokens and the time of the last step. -/
structure World (σ : Type) where
  state : σ
  holding : Holding
  clock : TimePoint

namespace Contract

variable {σ α : Type} (C : Contract σ α)

/-- The tokens that an input brings into the contract's account. -/
def received (i : Input α) (h : Holding) : Holding :=
  match i with
  | .notify n => if n.recipient = C.self then h.credit n.token n.quantity.amount else h
  | .act _ => h

/-- A notification about an incoming transfer credits its token. -/
theorem received_notify {n : Notice} (hto : n.recipient = C.self) (h : Holding)
    (x : ExtendedSymbol) : C.received (.notify n) h x =
      h x + if n.token = x then n.quantity.amount else 0 := by
  show (if n.recipient = C.self then h.credit n.token n.quantity.amount else h) x = _
  rw [if_pos hto, Holding.credit_apply]

/-- A notification about a transfer between others credits nothing. -/
theorem received_ignored {n : Notice} (hto : n.recipient ≠ C.self) (h : Holding) :
    C.received (.notify n) h = h := if_neg hto

theorem received_act (a : α) (h : Holding) : C.received (.act a) h = h := rfl

/-- The contract's own code on an input. -/
def run (ctx : Ctx) (i : Input α) (s : σ) : Except Abort (Effect σ) :=
  match i with
  | .notify n => C.ontransfer ctx n s
  | .act a => C.exec ctx a s

/-- The account that signed the transfer an input is about, if it is one. -/
def signer? : Input α → Option Name
  | .notify n => some n.sender
  | .act _ => none

/-- The contract did not send a transfer that another account signed. -/
theorem sender_ne {self : Name} {n : Notice}
    (h : signer? (.notify n : Input α) ≠ some self) : n.sender ≠ self :=
  fun hc => h (congrArg some hc)

/-- A transfer to the contract that another account signed is not ignored. -/
theorem not_ignored {self : Name} {n : Notice}
    (h : signer? (.notify n : Input α) ≠ some self) (hto : n.recipient = self) :
    ¬ (n.recipient ≠ self ∨ n.sender = self) := by
  rintro (hne | hself)
  · exact hne hto
  · exact sender_ne h hself

/-- Nobody signs an action as a transfer. -/
theorem signer?_act (self : Name) (a : α) : signer? (.act a) ≠ some self := by
  intro hc
  cases hc

/-- One transaction: block time does not go back, the incoming tokens arrive, the contract
runs, and the token contracts carry out what it orders. -/
def step (w : World σ) (i : Ctx × Input α) : Except Abort (World σ) := do
  check (w.clock ≤ i.1.now) "block time goes back"
  check (signer? i.2 ≠ some C.self) "transfers are signed by other accounts"
  let (s, outs) ← C.run i.1 i.2 w.state
  let h ← settle C.self (C.received i.2 w.holding) outs
  return { state := s, holding := h, clock := i.1.now }

/-- What a successful step is made of. -/
theorem step_eq_ok {w w' : World σ} {i : Ctx × Input α} :
    C.step w i = .ok w' ↔
      w.clock ≤ i.1.now ∧ signer? i.2 ≠ some C.self ∧ w'.clock = i.1.now ∧
      ∃ outs, C.run i.1 i.2 w.state = .ok (w'.state, outs) ∧
        settle C.self (C.received i.2 w.holding) outs = .ok w'.holding := by
  simp only [step, bind_eq_ok, check_eq_ok, exists_const, pure_eq_ok]
  constructor
  · rintro ⟨hc, hs, ⟨s, outs⟩, hrun, h, hset, rfl⟩
    exact ⟨hc, hs, rfl, outs, hrun, hset⟩
  · rintro ⟨hc, hs, hclock, outs, hrun, hset⟩
    refine ⟨hc, hs, (w'.state, outs), hrun, w'.holding, hset, ?_⟩
    cases w'
    simp_all

/-- A step that succeeds runs the contract's code with success. -/
theorem run_of_step {w w' : World σ} {i : Ctx × Input α} (h : C.step w i = .ok w') :
    ∃ outs, C.run i.1 i.2 w.state = .ok (w'.state, outs) := by
  obtain ⟨-, -, -, outs, hrun, -⟩ := (C.step_eq_ok).mp h
  exact ⟨outs, hrun⟩

end Contract

/-! ## Tables of a contract -/

/-- `available_primary_key` of a table keyed by a 64-bit id: the largest key plus one, or 0
when the table is empty. The two largest keys are reserved. -/
def availablePrimaryKey {ρ : Type} {key : ρ → ℕ} (t : Table key) : Except Abort ℕ := do
  let next := match t.lastKey? with
    | none => 0
    | some k => k + 1
  check (next < 2 ^ 64 - 2) "next primary key in table is at autoincrement limit"
  return next

/-- `emplace`: the key must be new. -/
def emplace {ρ κ : Type} [LinearOrder κ] {key : ρ → κ} (t : Table key) (r : ρ) :
    Except Abort (Table key) := do
  check ((t.find? (key r)).isNone = true)
    "could not insert object, most likely a uniqueness constraint was violated"
  return t.put r

section Tables
variable {ρ : Type} {key : ρ → ℕ}

theorem emplace_eq_ok {κ : Type} [LinearOrder κ] {key : ρ → κ} {t t' : Table key} {r : ρ} :
    emplace t r = .ok t' ↔ t.find? (key r) = none ∧ t' = t.put r := by
  simp only [emplace, bind_eq_ok, check_eq_ok, exists_const, pure_eq_ok,
    Option.isNone_iff_eq_none, @eq_comm _ t']

/-- `emplace` adds one row. -/
theorem mem_of_emplace {κ : Type} [LinearOrder κ] {key : ρ → κ} {t t' : Table key} {r x : ρ}
    (h : emplace t r = .ok t') : x ∈ t' ↔ x = r ∨ x ∈ t := by
  obtain ⟨hnew, rfl⟩ := emplace_eq_ok.mp h
  rw [Table.mem_put]
  exact or_congr_right (and_iff_left_of_imp (Table.find?_eq_none.mp hnew x))

/-- A key handed out by `availablePrimaryKey` lies above every key of the table. -/
theorem lt_of_availablePrimaryKey {t : Table key} {k : ℕ} (h : availablePrimaryKey t = .ok k)
    {r : ρ} (hr : r ∈ t) : key r < k := by
  simp only [availablePrimaryKey, bind_eq_ok, check_eq_ok, exists_const, pure_eq_ok] at h
  obtain ⟨-, rfl⟩ := h
  cases hl : t.lastKey? with
  | none => simp [Table.mem_def, Table.lastKey?_eq_none.mp hl] at hr
  | some last => exact Nat.lt_succ_of_le (Table.le_of_lastKey? hl hr)

end Tables

end ToolkitContracts
