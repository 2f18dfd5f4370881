import ToolkitContracts.Chain.Payments
import ToolkitContracts.PubkeyToken.Model

/-!
# Contracts that open accounts

flon.faucet and flon.creator send actions to the system contract, which opens accounts for them and
sells them gas. A `Site` is such a contract on its chain: its tables, the tokens of its account, the
system contract, and what the contract has sent so far.

The code of the system contract is not part of the repository. It is a parameter here: which names
it refuses and what it charges for a new account is its own affair. `SystemContract.Standard` is what
the header of its native actions says of it. Everything that an action sends is part of one
transaction, and payments go to accounts that exist.
-/

namespace ToolkitContracts

open PubkeyToken (SystemAction sysBank)

/-- What a contract sends. -/
inductive Sent where
  | system (a : SystemAction)
  | pay (t : Transfer)

/-- A system contract with tables `τ`: the accounts that exist, and what an action does and takes
out of the account that sends it. Others reach it with inputs `β` of their own. -/
structure SystemContract (τ β : Type) where
  isAccount : τ → Name → Bool
  exec : Ctx → SystemAction → τ → Except Abort (τ × List Transfer)
  other : Ctx → β → τ → Except Abort τ

/-- What is known of the system contract. `newaccount` opens an account of a name that is free, and
may take a fee for it; `buygas` takes its quantity from the payer; accounts never go away. -/
structure SystemContract.Standard {τ β : Type} (S : SystemContract τ β) : Prop where
  newaccount : ∀ {ctx creator name owner active t t' ts},
    S.exec ctx (.newaccount creator name owner active) t = .ok (t', ts) →
      S.isAccount t name = false ∧ S.isAccount t' = Function.update (S.isAccount t) name true
  buygas : ∀ {ctx payer receiver quant t t' ts},
    S.exec ctx (.buygas payer receiver quant) t = .ok (t', ts) → S.isAccount t' = S.isAccount t ∧
      ∀ x, outflow x ts = if ⟨quant.symbol, sysBank⟩ = x then quant.amount else 0
  other : ∀ {ctx b t t'}, S.other ctx b t = .ok t' →
    ∀ n, S.isAccount t n = true → S.isAccount t' n = true

namespace Sent

/-- The account that is opened, if it is that. -/
def opened? : Sent → Option Name
  | .system (.newaccount _ account _ _) => some account
  | .system (.buygas _ _ _) => none
  | .pay _ => none

/-- What it takes in the token `x`, the fee for a new account apart. -/
def price (x : ExtendedSymbol) : Sent → ℤ
  | .system (.newaccount _ _ _ _) => 0
  | .system (.buygas _ _ quant) => if ⟨quant.symbol, sysBank⟩ = x then quant.amount else 0
  | .pay t => if t.token = x then t.quantity.amount else 0

/-- The system contract after it, and the transfers that it comes to. -/
def arrive {τ β : Type} (S : SystemContract τ β) (ctx : Ctx) (t : τ) :
    Sent → Except Abort (τ × List Transfer)
  | .system a => S.exec ctx a t
  | .pay p => do
    check (S.isAccount t p.recipient = true) "to account does not exist"
    return (t, [p])

end Sent

/-- Something that was sent and carried out: when, and the transfers that it came to. -/
structure Receipt where
  time : TimePoint
  sent : Sent
  charges : List Transfer

/-- The accounts that a list of things sent opens. -/
def openedBy (sent : List Sent) : List Name := sent.filterMap Sent.opened?

/-- All transfers that were charged. -/
def chargesOf (receipts : List Receipt) : List Transfer := receipts.flatMap (·.charges)

/-- The transfers that were charged for opening accounts. -/
def feesOf (receipts : List Receipt) : List Transfer :=
  chargesOf (receipts.filter fun r => r.sent.opened?.isSome)

section Carrying
variable {τ β : Type} (S : SystemContract τ β)

/-- Carry out what the contract at `self` sends, one after the other. -/
def carryOut (self : Name) (ctx : Ctx) :
    τ × Holding → List Sent → Except Abort ((τ × Holding) × List Receipt)
  | c, [] => .ok (c, [])
  | (t, h), s :: sent => do
    let (t, charges) ← s.arrive S ctx t
    let h ← settle self h charges
    let (c, receipts) ← carryOut self ctx (t, h) sent
    return (c, ⟨ctx.now, s, charges⟩ :: receipts)

end Carrying

/-- A contract that opens accounts, deployed at `self`. -/
structure Opener (σ α : Type) where
  self : Name
  exec : Ctx → α → σ → Except Abort (σ × List Sent)

/-- A contract that opens accounts, on its chain. The income is what others have paid in. -/
structure Site (σ τ : Type) extends World σ where
  system : τ
  income : Holding
  receipts : List Receipt

/-- What happens on the chain: an action of the contract, a payment into its account, or something
that others do at the system contract. -/
inductive Event (α β : Type) where
  | act (a : α)
  | deposit (x : ExtendedSymbol) (amount : ℤ)
  | other (b : β)

/-- The chain before the contract has done anything. -/
def Site.start {σ τ : Type} (s : σ) (t : τ) (clock : TimePoint) : Site σ τ :=
  ⟨⟨s, fun _ => 0, clock⟩, t, fun _ => 0, []⟩

namespace Site

variable {σ τ : Type}

/-- What the contract has sent, with the times. -/
def sent (w : Site σ τ) : List (TimePoint × Sent) := w.receipts.map fun r => (r.time, r.sent)

/-- What the contract has sent, without the times. -/
def log (w : Site σ τ) : List Sent := w.receipts.map (·.sent)

theorem map_snd_sent (w : Site σ τ) : w.sent.map (·.2) = w.log := by
  rw [sent, List.map_map]
  rfl

end Site

/-- One transaction. -/
def Opener.step {σ α τ β : Type} (C : Opener σ α) (S : SystemContract τ β) (w : Site σ τ)
    (e : Ctx × Event α β) : Except Abort (Site σ τ) := do
  check (w.clock ≤ e.1.now) "block time goes back"
  match e.2 with
  | .act a =>
    let (s, sent) ← C.exec { e.1 with isAccount := S.isAccount w.system } a w.state
    let ((t, h), receipts) ← carryOut S C.self e.1 (w.system, w.holding) sent
    return ⟨⟨s, h, e.1.now⟩, t, w.income, w.receipts ++ receipts⟩
  | .deposit x amount =>
    check (0 < amount) "must transfer positive quantity"
    return { w with
      clock := e.1.now, holding := w.holding.credit x amount, income := w.income.credit x amount }
  | .other b =>
    let t ← S.other e.1 b w.system
    return { w with clock := e.1.now, system := t }

/-! ## What is carried out -/

section Carried
variable {τ β : Type} {S : SystemContract τ β} {self : Name} {ctx : Ctx} {t t' : τ}
  {h h' : Holding} {s : Sent} {sent : List Sent} {receipts : List Receipt}

@[simp] theorem openedBy_append (sent sent' : List Sent) :
    openedBy (sent ++ sent') = openedBy sent ++ openedBy sent' := List.filterMap_append

@[simp] theorem chargesOf_cons (r : Receipt) (receipts : List Receipt) :
    chargesOf (r :: receipts) = r.charges ++ chargesOf receipts := List.flatMap_cons

@[simp] theorem chargesOf_append (receipts receipts' : List Receipt) :
    chargesOf (receipts ++ receipts') = chargesOf receipts ++ chargesOf receipts' :=
  List.flatMap_append

theorem arrive_pay {p : Transfer} {charges : List Transfer} :
    (Sent.pay p).arrive S ctx t = .ok (t', charges) ↔
      S.isAccount t p.recipient = true ∧ t' = t ∧ charges = [p] := by
  simp only [Sent.arrive, bind_eq_ok, check_eq_ok, exists_const, pure_eq_ok, Prod.mk.injEq,
    @eq_comm _ t', @eq_comm _ charges]

theorem carryOut_cons {c : τ × Holding} :
    carryOut S self ctx (t, h) (s :: sent) = .ok (c, receipts) ↔
      ∃ t₁ charges, s.arrive S ctx t = .ok (t₁, charges) ∧
      ∃ h₁, settle self h charges = .ok h₁ ∧
      ∃ rest, carryOut S self ctx (t₁, h₁) sent = .ok (c, rest) ∧
        receipts = ⟨ctx.now, s, charges⟩ :: rest := by
  simp only [carryOut, bind_eq_ok, pure_eq_ok, Prod.exists, Prod.mk.injEq]
  constructor
  · rintro ⟨t₁, charges, harrive, h₁, hsettle, t', h', rest, hrest, rfl, rfl⟩
    exact ⟨t₁, charges, harrive, h₁, hsettle, rest, hrest, rfl⟩
  · rintro ⟨t₁, charges, harrive, h₁, hsettle, rest, hrest, rfl⟩
    exact ⟨t₁, charges, harrive, h₁, hsettle, c.1, c.2, rest, hrest, rfl, rfl⟩

theorem carryOut_nil {c c' : τ × Holding} :
    carryOut S self ctx c [] = .ok (c', receipts) ↔ c' = c ∧ receipts = [] := by
  rw [carryOut, Except.ok.injEq, Prod.mk.injEq, @eq_comm _ c, @eq_comm _ []]

/-- What is carried out is what was sent. -/
theorem sent_of_carryOut {c c' : τ × Holding}
    (hc : carryOut S self ctx c sent = .ok (c', receipts)) :
    receipts.map (fun r => (r.time, r.sent)) = sent.map fun s => (ctx.now, s) := by
  induction sent generalizing c receipts with
  | nil =>
    obtain ⟨-, rfl⟩ := carryOut_nil.mp hc
    rfl
  | cons s sent ih =>
    obtain ⟨t₁, charges, -, h₁, -, rest, hrest, rfl⟩ := carryOut_cons.mp hc
    rw [List.map_cons, List.map_cons, ih hrest]

/-- What is carried out takes the charges from the account. -/
theorem holding_of_carryOut (hc : carryOut S self ctx (t, h) sent = .ok ((t', h'), receipts))
    (x : ExtendedSymbol) : h' x = h x - outflow x (chargesOf receipts) := by
  induction sent generalizing t h receipts with
  | nil =>
    obtain ⟨hsame, rfl⟩ := carryOut_nil.mp hc
    obtain ⟨-, rfl⟩ := Prod.mk.inj hsame
    exact (sub_zero _).symm
  | cons s sent ih =>
    obtain ⟨t₁, charges, -, h₁, hsettle, rest, hrest, rfl⟩ := carryOut_cons.mp hc
    rw [ih hrest, settle_apply hsettle, chargesOf_cons, outflow_append]
    exact sub_sub _ _ _

theorem nonneg_of_carryOut (hc : carryOut S self ctx (t, h) sent = .ok ((t', h'), receipts))
    (h0 : ∀ x, 0 ≤ h x) : ∀ x, 0 ≤ h' x := by
  induction sent generalizing t h receipts with
  | nil =>
    obtain ⟨hsame, -⟩ := carryOut_nil.mp hc
    obtain ⟨-, rfl⟩ := Prod.mk.inj hsame
    exact h0
  | cons s sent ih =>
    obtain ⟨t₁, charges, -, h₁, hsettle, rest, hrest, -⟩ := carryOut_cons.mp hc
    exact ih hrest (nonneg_of_settle hsettle h0)

/-- The accounts that exist after one thing are those that did and the one that it opens. -/
theorem isAccount_of_arrive (hS : S.Standard) {charges : List Transfer}
    (ha : s.arrive S ctx t = .ok (t', charges)) (n : Name) :
    S.isAccount t' n = true ↔ S.isAccount t n = true ∨ s.opened? = some n := by
  cases s with
  | pay p =>
    obtain ⟨-, rfl, -⟩ := arrive_pay.mp ha
    exact (or_iff_left (by simp [Sent.opened?])).symm
  | system a =>
    cases a with
    | newaccount creator name owner active =>
      obtain ⟨-, hopened⟩ := hS.newaccount ha
      rw [hopened, Function.update_apply]
      by_cases hn : n = name
      · simp [Sent.opened?, hn]
      · simp [Sent.opened?, hn, Ne.symm hn]
    | buygas payer receiver quant =>
      rw [(hS.buygas ha).1]
      exact (or_iff_left (by simp [Sent.opened?])).symm

/-- The accounts that exist afterwards are those that did and those that were opened. -/
theorem isAccount_of_carryOut (hS : S.Standard)
    (hc : carryOut S self ctx (t, h) sent = .ok ((t', h'), receipts)) (n : Name) :
    S.isAccount t' n = true ↔ S.isAccount t n = true ∨ n ∈ openedBy sent := by
  induction sent generalizing t h receipts with
  | nil =>
    obtain ⟨hsame, -⟩ := carryOut_nil.mp hc
    obtain ⟨rfl, -⟩ := Prod.mk.inj hsame
    exact (or_iff_left List.not_mem_nil).symm
  | cons s sent ih =>
    obtain ⟨t₁, charges, harrive, h₁, -, rest, hrest, -⟩ := carryOut_cons.mp hc
    rw [ih hrest, isAccount_of_arrive hS harrive, or_assoc]
    refine or_congr_right ?_
    rw [openedBy, openedBy, List.mem_filterMap, List.mem_filterMap, List.exists_mem_cons_iff]

/-- Payments are carried out to accounts that exist afterwards. -/
theorem isAccount_of_paid (hS : S.Standard)
    (hc : carryOut S self ctx (t, h) sent = .ok ((t', h'), receipts)) {p : Transfer}
    (hp : .pay p ∈ sent) : S.isAccount t' p.recipient = true := by
  induction sent generalizing t h receipts with
  | nil => cases hp
  | cons s sent ih =>
    obtain ⟨t₁, charges, harrive, h₁, -, rest, hrest, -⟩ := carryOut_cons.mp hc
    rcases List.mem_cons.mp hp with rfl | hp
    · obtain ⟨hexists, rfl, -⟩ := arrive_pay.mp harrive
      exact (isAccount_of_carryOut hS hrest _).mpr (Or.inl hexists)
    · exact ih hrest hp

theorem free_of_opened (hS : S.Standard) {account : Name} {charges : List Transfer}
    (hs : s.opened? = some account) (ha : s.arrive S ctx t = .ok (t', charges)) :
    S.isAccount t account = false := by
  cases s with
  | pay p => cases hs
  | system a =>
    cases a with
    | newaccount creator name owner active =>
      obtain rfl : name = account := Option.some.inj hs
      exact (hS.newaccount ha).1
    | buygas payer receiver quant => cases hs

/-- Accounts are opened that did not exist, and each of them once. -/
theorem opened_of_carryOut (hS : S.Standard)
    (hc : carryOut S self ctx (t, h) sent = .ok ((t', h'), receipts)) :
    (openedBy sent).Nodup ∧ ∀ n ∈ openedBy sent, S.isAccount t n = false := by
  induction sent generalizing t h receipts with
  | nil => exact ⟨List.nodup_nil, fun n hn => absurd hn List.not_mem_nil⟩
  | cons s sent ih =>
    obtain ⟨t₁, charges, harrive, h₁, -, rest, hrest, -⟩ := carryOut_cons.mp hc
    obtain ⟨hnodup, hnew⟩ := ih hrest
    -- an account that is opened later did not exist after this, so it did not exist before
    have hother : ∀ n ∈ openedBy sent, S.isAccount t n = false ∧ s.opened? ≠ some n := by
      intro n hn
      have hfree : ¬ S.isAccount t₁ n = true := by simp [hnew n hn]
      rw [isAccount_of_arrive hS harrive, not_or, Bool.not_eq_true] at hfree
      exact hfree
    cases hs : s.opened? with
    | none =>
      rw [openedBy, List.filterMap_cons, hs]
      exact ⟨hnodup, fun n hn => (hother n hn).1⟩
    | some account =>
      rw [openedBy, List.filterMap_cons, hs]
      refine ⟨List.nodup_cons.mpr ⟨fun hmem => (hother account hmem).2 hs, hnodup⟩, ?_⟩
      intro n hn
      rcases List.mem_cons.mp hn with rfl | hn
      · exact free_of_opened hS hs harrive
      · exact (hother n hn).1

/-- What is carried out is charged its price, and new accounts their fees. -/
theorem outflow_of_carryOut (hS : S.Standard)
    (hc : carryOut S self ctx (t, h) sent = .ok ((t', h'), receipts)) (x : ExtendedSymbol) :
    outflow x (chargesOf receipts)
      = outflow x (feesOf receipts) + (sent.map (·.price x)).sum := by
  induction sent generalizing t h receipts with
  | nil =>
    obtain ⟨-, rfl⟩ := carryOut_nil.mp hc
    rfl
  | cons s sent ih =>
    obtain ⟨t₁, charges, harrive, h₁, -, rest, hrest, rfl⟩ := carryOut_cons.mp hc
    rw [chargesOf_cons, outflow_append, ih hrest, List.map_cons, List.sum_cons]
    cases s with
    | pay p =>
      obtain ⟨-, -, rfl⟩ := arrive_pay.mp harrive
      show outflow x [p] + (outflow x (feesOf rest) + _) = outflow x (feesOf rest) + (_ + _)
      rw [outflow_cons, outflow_nil, add_zero, add_left_comm]
      rfl
    | system a =>
      cases a with
      | newaccount creator name owner active =>
        show _ = outflow x (charges ++ feesOf rest) + (0 + _)
        rw [outflow_append, zero_add, add_assoc]
      | buygas payer receiver quant =>
        show outflow x charges + (outflow x (feesOf rest) + _)
          = outflow x (feesOf rest) + (_ + _)
        rw [(hS.buygas harrive).2 x, add_left_comm]
        rfl

end Carried

/-! ## One transaction -/

section Step
variable {σ α τ β : Type} {C : Opener σ α} {S : SystemContract τ β} {w w' : Site σ τ} {ctx : Ctx}
  {x : ExtendedSymbol} {amount : ℤ}

/-- What an action that succeeds is made of. -/
theorem Opener.step_act {a : α} : C.step S w (ctx, .act a) = .ok w' ↔
    w.clock ≤ ctx.now ∧ ∃ s sent,
      C.exec { ctx with isAccount := S.isAccount w.system } a w.state = .ok (s, sent) ∧
      ∃ t h receipts, carryOut S C.self ctx (w.system, w.holding) sent = .ok ((t, h), receipts) ∧
        w' = ⟨⟨s, h, ctx.now⟩, t, w.income, w.receipts ++ receipts⟩ := by
  simp only [Opener.step, bind_eq_ok, check_eq_ok, exists_const, pure_eq_ok, Prod.exists,
    @eq_comm _ w']

theorem Opener.step_deposit : C.step S w (ctx, .deposit x amount) = .ok w' ↔
    w.clock ≤ ctx.now ∧ 0 < amount ∧ w' = { w with
      clock := ctx.now, holding := w.holding.credit x amount, income := w.income.credit x amount } := by
  simp only [Opener.step, bind_eq_ok, check_eq_ok, exists_const, pure_eq_ok, @eq_comm _ w']

theorem Opener.step_other {b : β} : C.step S w (ctx, .other b) = .ok w' ↔
    w.clock ≤ ctx.now ∧ ∃ t, S.other ctx b w.system = .ok t ∧
      w' = { w with clock := ctx.now, system := t } := by
  simp only [Opener.step, bind_eq_ok, check_eq_ok, exists_const, pure_eq_ok, @eq_comm _ w']

end Step

/-! ## Runs -/

/-- What holds of every contract that opens accounts, whatever the system contract does. -/
structure Site.Kept {σ τ : Type} (w : Site σ τ) : Prop where
  nonneg : ∀ x, 0 ≤ w.holding x
  /-- What was sent lies in the past. -/
  clock : ∀ m ∈ w.sent, m.1 ≤ w.clock

/-- What holds of it besides, under a standard system contract, when it started in the state `t` of
the system contract. -/
structure Site.Sound {σ τ β : Type} (S : SystemContract τ β) (t : τ) (w : Site σ τ) : Prop where
  /-- The account holds what was paid in, less the prices of what was sent and the fees. -/
  holding : ∀ x, w.holding x
    = w.income x - outflow x (feesOf w.receipts) - (w.log.map (·.price x)).sum
  /-- No account is opened twice. -/
  nodup : (openedBy w.log).Nodup
  opened : ∀ n ∈ openedBy w.log, S.isAccount w.system n = true
  paid : ∀ p, .pay p ∈ w.log → S.isAccount w.system p.recipient = true
  /-- No account ever goes away. -/
  stays : ∀ n, S.isAccount t n = true → S.isAccount w.system n = true

section Runs
variable {σ α τ β : Type} {C : Opener σ α} {S : SystemContract τ β} {w w' : Site σ τ}
  {e : Ctx × Event α β} {t : τ} {receipts : List Receipt} {sent : List Sent} {now : TimePoint}

/-- What an action sends is put behind what was sent before. -/
theorem Site.sent_append
    (h : receipts.map (fun r => (r.time, r.sent)) = sent.map fun s => (now, s)) :
    (w.receipts ++ receipts).map (fun r => (r.time, r.sent))
      = w.sent ++ sent.map fun s => (now, s) := by
  rw [List.map_append, h]
  rfl

theorem Site.log_append
    (h : receipts.map (fun r => (r.time, r.sent)) = sent.map fun s => (now, s)) :
    (w.receipts ++ receipts).map (·.sent) = w.log ++ sent := by
  have hsent : receipts.map (·.sent) = sent := by
    have hsnd := congrArg (List.map Prod.snd) h
    rw [List.map_map, List.map_map] at hsnd
    exact hsnd.trans (List.map_id sent)
  rw [List.map_append, hsent]
  rfl

theorem feesOf_append (receipts receipts' : List Receipt) :
    feesOf (receipts ++ receipts') = feesOf receipts ++ feesOf receipts' := by
  rw [feesOf, List.filter_append, chargesOf_append]
  rfl

theorem Opener.kept_of_step (hw : w.Kept) (hstep : C.step S w e = .ok w') : w'.Kept := by
  obtain ⟨ctx, event⟩ := e
  cases event with
  | deposit x amount =>
    obtain ⟨hclock, hpos, rfl⟩ := Opener.step_deposit.mp hstep
    refine ⟨fun y => ?_, fun m hm => (hw.clock m hm).trans hclock⟩
    have hy := hw.nonneg y
    show 0 ≤ w.holding.credit x amount y
    rw [Holding.credit_apply]
    split
    · omega
    · omega
  | other b =>
    obtain ⟨hclock, t, -, rfl⟩ := Opener.step_other.mp hstep
    exact ⟨hw.nonneg, fun m hm => (hw.clock m hm).trans hclock⟩
  | act a =>
    obtain ⟨hclock, s, sent, -, t, h, receipts, hcarry, rfl⟩ := Opener.step_act.mp hstep
    refine ⟨nonneg_of_carryOut hcarry hw.nonneg, fun m hm => ?_⟩
    rw [Site.sent, Site.sent_append (sent_of_carryOut hcarry)] at hm
    rcases List.mem_append.mp hm with hm | hm
    · exact (hw.clock m hm).trans hclock
    · obtain ⟨s, -, rfl⟩ := List.mem_map.mp hm
      exact le_refl ctx.now

theorem Opener.sound_of_step (hS : S.Standard) (hw : w.Sound S t) (hstep : C.step S w e = .ok w') :
    w'.Sound S t := by
  obtain ⟨ctx, event⟩ := e
  cases event with
  | deposit x amount =>
    obtain ⟨-, -, rfl⟩ := Opener.step_deposit.mp hstep
    refine ⟨fun y => ?_, hw.nodup, hw.opened, hw.paid, hw.stays⟩
    show w.holding.credit x amount y = w.income.credit x amount y - _ - _
    rw [Holding.credit_apply, Holding.credit_apply, hw.holding y]
    show w.income y - outflow y (feesOf w.receipts) - (w.log.map (·.price y)).sum + _
      = w.income y + _ - outflow y (feesOf w.receipts) - (w.log.map (·.price y)).sum
    omega
  | other b =>
    obtain ⟨-, t', hother, rfl⟩ := Opener.step_other.mp hstep
    have hstays := hS.other hother
    exact ⟨hw.holding, hw.nodup, fun n hn => hstays n (hw.opened n hn),
      fun p hp => hstays _ (hw.paid p hp), fun n hn => hstays n (hw.stays n hn)⟩
  | act a =>
    obtain ⟨-, s, sent, -, t', h, receipts, hcarry, rfl⟩ := Opener.step_act.mp hstep
    obtain ⟨hnodup, hfree⟩ := opened_of_carryOut hS hcarry
    have hknown := isAccount_of_carryOut hS hcarry
    have hlog : Site.log ⟨⟨s, h, ctx.now⟩, t', w.income, w.receipts ++ receipts⟩ = w.log ++ sent :=
      Site.log_append (sent_of_carryOut hcarry)
    constructor
    · intro x
      rw [hlog]
      show h x = w.income x - outflow x (feesOf (w.receipts ++ receipts)) - _
      rw [holding_of_carryOut hcarry, hw.holding, feesOf_append, outflow_append, List.map_append,
        List.sum_append, outflow_of_carryOut hS hcarry]
      omega
    · rw [hlog, openedBy_append]
      refine hw.nodup.append hnodup fun n hold hnew => ?_
      exact absurd (hw.opened n hold) (by simp [hfree n hnew])
    · rw [hlog, openedBy_append]
      intro n hn
      refine (hknown n).mpr ?_
      rcases List.mem_append.mp hn with hn | hn
      · exact Or.inl (hw.opened n hn)
      · exact Or.inr hn
    · rw [hlog]
      intro p hp
      rcases List.mem_append.mp hp with hp | hp
      · exact (hknown _).mpr (Or.inl (hw.paid p hp))
      · exact isAccount_of_paid hS hcarry hp
    · exact fun n hn => (hknown n).mpr (Or.inl (hw.stays n hn))

theorem Site.kept_start (s : σ) (t : τ) (clock : TimePoint) : (Site.start s t clock).Kept :=
  ⟨fun _ => le_refl 0, fun _ hm => absurd hm List.not_mem_nil⟩

/-- In every state that the chain reaches. -/
theorem Opener.kept_of_run {s : σ} {clock : TimePoint} {es : List (Ctx × Event α β)}
    (hrun : Transition.Run (C.step S) Transition.Unrestricted (Site.start s t clock) es w) :
    w.Kept :=
  hrun.invariant (fun _ _ _ hw _ hstep => Opener.kept_of_step hw hstep) (Site.kept_start s t clock)

theorem Opener.sound_of_run (hS : S.Standard) {s : σ} {clock : TimePoint}
    {es : List (Ctx × Event α β)}
    (hrun : Transition.Run (C.step S) Transition.Unrestricted (Site.start s t clock) es w) :
    w.Sound S t := by
  refine hrun.invariant (P := fun w => w.Sound S t) (fun _ _ _ hw _ hstep =>
    Opener.sound_of_step hS hw hstep) ?_
  exact ⟨fun _ => rfl, List.nodup_nil, fun n hn => absurd hn List.not_mem_nil,
    fun p hp => absurd hp List.not_mem_nil, fun n hn => hn⟩

end Runs

/-! ## A system contract with a fee -/

namespace Sample

/-- The accounts that exist, and the fee for a new one. -/
structure Native where
  accounts : List Name
  fee : Asset

/-- Others open accounts, and the fee changes. -/
inductive NativeInput where
  | newaccount (account : Name)
  | setfee (fee : Asset)

/-- The account is opened. Accounts have names of twelve characters without a dot. -/
def Native.open (account : Name) (t : Native) : Except Abort Native := do
  check (account ∉ t.accounts) "account name is taken"
  check (account.toText.length = 12 ∧ '.' ∉ account.toText) "account name is not allowed"
  return { t with accounts := account :: t.accounts }

/-- What the system contract takes. -/
def charge (quant : Asset) : Transfer := ⟨sysBank, PubkeyToken.flonContract, quant, []⟩

/-- The system contract, as the header of its native actions describes it. -/
def native : SystemContract Native NativeInput where
  isAccount t n := decide (n ∈ t.accounts)
  exec _ a t := match a with
    | .newaccount _ account _ _ => do
      let t' ← t.open account
      return (t', [charge t.fee])
    | .buygas _ receiver quant => do
      check (receiver ∈ t.accounts) "gas receiver does not exist"
      return (t, [charge quant])
  other _ b t := match b with
    | .newaccount account => t.open account
    | .setfee fee => return { t with fee }

theorem open_eq_ok {account : Name} {t t' : Native} : t.open account = .ok t' ↔
    account ∉ t.accounts ∧ (account.toText.length = 12 ∧ '.' ∉ account.toText) ∧
      t' = { t with accounts := account :: t.accounts } := by
  simp only [Native.open, bind_eq_ok, check_eq_ok, exists_const, pure_eq_ok, @eq_comm _ t']

theorem native_standard : native.Standard where
  newaccount h := by
    simp only [native, bind_eq_ok, pure_eq_ok, Prod.mk.injEq] at h
    obtain ⟨t₁, hopen, rfl, -⟩ := h
    obtain ⟨hfree, -, rfl⟩ := open_eq_ok.mp hopen
    refine ⟨decide_eq_false hfree, funext fun n => ?_⟩
    simp only [native, List.mem_cons, Function.update_apply]
    split
    · next hn => simp [hn]
    · next hn => simp [hn]
  buygas h := by
    simp only [native, bind_eq_ok, check_eq_ok, exists_const, pure_eq_ok, Prod.mk.injEq] at h
    obtain ⟨-, rfl, rfl⟩ := h
    exact ⟨rfl, fun x => add_zero _⟩
  other {ctx b t t'} h n hn := by
    have hmem : n ∈ t.accounts := of_decide_eq_true hn
    cases b with
    | newaccount account =>
      obtain ⟨-, -, rfl⟩ := open_eq_ok.mp h
      exact decide_eq_true (List.mem_cons_of_mem _ hmem)
    | setfee fee =>
      obtain rfl : { t with fee } = t' := Except.ok.inj h
      exact hn

end Sample
end ToolkitContracts
