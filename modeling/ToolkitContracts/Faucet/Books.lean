import ToolkitContracts.Faucet.Rate
import Mathlib.Tactic.Ring

/-!
# The books of the faucet

The account of the faucet holds what was paid in, less 10 FLON for each payment, the gas for each
account it opened, and what the system contract takes for a new account. It opens an account once,
and makes the first payment to it in the same transaction.
-/

namespace ToolkitContracts
namespace Faucet

open PubkeyToken (flonToken)
open Transition (Run Unrestricted)

/-- It is a payment. -/
def isPay : Sent → Bool
  | .system _ => false
  | .pay _ => true

/-- What payments and the gas for opened accounts cost. -/
def cost (sent : List Sent) : ℤ :=
  payQuant.amount * sent.countP isPay + gasQuant.amount * (openedBy sent).length

/-- The transaction between `w` and `w'` opens the account: there was none of that name, and the
transaction makes the first payment to it. -/
structure Opening {τ β : Type} (S : SystemContract τ β) (self account : Name) (ctx : Ctx)
    (pubkey : PublicKey) (w w' : Site State τ) : Prop where
  step : (contract self).step S w (ctx, .act (.active account pubkey)) = .ok w'
  new : S.isAccount w.system account = false
  unpaid : payments account w.sent = []
  paid : payments account w'.sent = [(ctx.now, payment account)]

section Steps
variable {τ β : Type} {S : SystemContract τ β} {self account : Name} {t : τ} {w w' : Site State τ}

theorem cost_append (sent sent' : List Sent) : cost (sent ++ sent') = cost sent + cost sent' := by
  unfold cost
  rw [List.countP_append, openedBy_append, List.length_append]
  push_cast
  ring

theorem cost_transfer (account : Name) : cost (transfer account) = payQuant.amount := by
  simp [cost, transfer, openedBy, isPay, Sent.opened?]

theorem cost_sendNewaccount (account : Name) (pubkey : PublicKey) :
    cost (sendNewaccount self account pubkey) = gasQuant.amount := by
  have hopened : openedBy (sendNewaccount self account pubkey) = [account] := rfl
  have hcount : (sendNewaccount self account pubkey).countP isPay = 0 := rfl
  rw [cost, hopened, hcount]
  exact (zero_add _).trans (mul_one _)

/-- The prices of what an action sends are its cost in FLON. -/
theorem price_of_action (a : Action) (x : ExtendedSymbol) :
    ((a.opening self ++ transfer a.account).map (·.price x)).sum
      = if flonToken = x then cost (a.opening self ++ transfer a.account) else 0 := by
  have htransfer : ((transfer a.account).map (·.price x)).sum
      = if flonToken = x then payQuant.amount else 0 := add_zero _
  have hopening : ((a.opening self).map (·.price x)).sum
      = if flonToken = x then cost (a.opening self) else 0 := by
    cases a with
    | claim account => exact (ite_self _).symm
    | active account pubkey =>
      show 0 + ((if flonToken = x then gasQuant.amount else 0) + 0)
        = if flonToken = x then cost (sendNewaccount self account pubkey) else 0
      rw [cost_sendNewaccount, zero_add, add_zero]
  rw [List.map_append, List.sum_append, cost_append, cost_transfer, htransfer, hopening]
  split
  · rfl
  · rfl

theorem priced_of_step {e : Ctx × Event Action β}
    (hw : ∀ x, (w.log.map (·.price x)).sum = if flonToken = x then cost w.log else 0)
    (hstep : (contract self).step S w e = .ok w') (x : ExtendedSymbol) :
    (w'.log.map (·.price x)).sum = if flonToken = x then cost w'.log else 0 := by
  obtain ⟨ctx, event⟩ := e
  cases event with
  | deposit x amount =>
    obtain ⟨-, -, rfl⟩ := Opener.step_deposit.mp hstep
    exact hw _
  | other b =>
    obtain ⟨-, t, -, rfl⟩ := Opener.step_other.mp hstep
    exact hw _
  | act a =>
    rw [log_of_act hstep, List.map_append, List.sum_append, hw, price_of_action, cost_append w.log]
    split
    · rfl
    · rfl

/-- A step that opens an account makes the first payment to it. -/
theorem opening_of_step {e : Ctx × Event Action β} (hS : S.Standard) (hw : w.Sound S t)
    (hstep : (contract self).step S w e = .ok w') (hbefore : account ∉ openedBy w.log)
    (hafter : account ∈ openedBy w'.log) :
    ∃ ctx pubkey, e = (ctx, .act (.active account pubkey)) ∧
      Opening S self account ctx pubkey w w' := by
  obtain ⟨ctx, event⟩ := e
  cases event with
  | deposit x amount =>
    obtain ⟨-, -, rfl⟩ := Opener.step_deposit.mp hstep
    exact absurd hafter hbefore
  | other b =>
    obtain ⟨-, t, -, rfl⟩ := Opener.step_other.mp hstep
    exact absurd hafter hbefore
  | act a =>
    have hopened : account ∈ openedBy (a.opening self ++ transfer a.account) := by
      rw [log_of_act hstep, openedBy_append] at hafter
      exact (List.mem_append.mp hafter).resolve_left hbefore
    cases a with
    | claim account' => cases hopened
    | active account' pubkey =>
      obtain rfl : account = account' := List.mem_singleton.mp hopened
      obtain ⟨-, s, sent, hexec, t', h, receipts, hcarry, -⟩ := Opener.step_act.mp hstep
      obtain ⟨-, -, rfl⟩ := (exec_eq_ok (a := .active account pubkey)).mp hexec
      have hnew := (opened_of_carryOut hS hcarry).2 account hopened
      -- the account did not exist, so it was not paid
      have hnone : payments account w.sent = [] := by
        refine List.eq_nil_iff_forall_not_mem.mpr fun m hm => ?_
        exact absurd (isAccount_of_payments hw hm) (by simp [hnew])
      refine ⟨ctx, pubkey, rfl, hstep, hnew, hnone, ?_⟩
      rw [(step_act hstep).2.2.2, payments_append, payments_of_action, hnone]
      exact if_pos rfl

end Steps

section Runs
variable {τ β : Type} {S : SystemContract τ β} {self : Name} {t : τ} {clock : TimePoint}
  {w : Site State τ} {es : List (Ctx × Event Action β)}

/-- In every reachable state, the account holds what was paid in, less the cost of the payments and
of the gas in FLON, and less the fees for new accounts. Each opened account was opened once. There
was no account of that name before the transaction that opened it, and the first payment to it is
part of that transaction. -/
theorem books_of_run (hS : S.Standard)
    (hrun : Run ((contract self).step S) Unrestricted (genesis t clock) es w) :
    (∀ x, w.holding x = w.income x - outflow x (feesOf w.receipts)
      - if flonToken = x then cost w.log else 0) ∧
    (openedBy w.log).Nodup ∧
    ∀ account ∈ openedBy w.log, ∃ es₁ ctx pubkey es₂ w₁ w₂,
      es = es₁ ++ (ctx, .act (.active account pubkey)) :: es₂ ∧
      Run ((contract self).step S) Unrestricted (genesis t clock) es₁ w₁ ∧
      Opening S self account ctx pubkey w₁ w₂ ∧
      Run ((contract self).step S) Unrestricted w₂ es₂ w := by
  have hw : w.Sound S t := Opener.sound_of_run hS hrun
  have hpriced : ∀ x, (w.log.map (·.price x)).sum = if flonToken = x then cost w.log else 0 := by
    refine hrun.invariant (P := fun w =>
      ∀ x, (w.log.map (·.price x)).sum = if flonToken = x then cost w.log else 0)
      (fun _ _ _ hw _ hstep => priced_of_step hw hstep) fun x => ?_
    exact (ite_self _).symm
  refine ⟨fun x => ?_, hw.nodup, fun account haccount => ?_⟩
  · rw [hw.holding, hpriced]
  · obtain ⟨es₁, e, es₂, w₁, w₂, hes, hrun₁, hstep, hrun₂, hbefore, hafter⟩ :=
      hrun.exists_step (P := fun w => account ∈ openedBy w.log) List.not_mem_nil haccount
    have hw₁ : w₁.Sound S t := Opener.sound_of_run hS hrun₁
    obtain ⟨ctx, pubkey, rfl, hopening⟩ := opening_of_step hS hw₁ hstep hbefore hafter
    exact ⟨es₁, ctx, pubkey, es₂, w₁, w₂, hes, hrun₁, hopening, hrun₂⟩

end Runs

namespace Sample

open ToolkitContracts.Sample (native native_standard)

/-- The faucet is left with 40 FLON less two payments, the gas for one account, and its fee. -/
theorem books_of_run_sample :
    ∃ w, Run ((contract faucet).step native) Unrestricted (genesis system (.ofDays 100)) inputs w ∧
      w.holding flonToken = 4000000000 - 3500 - 2000010000 ∧ openedBy w.log = [alice] ∧
      ∃ es₁ ctx pubkey es₂ w₁ w₂, inputs = es₁ ++ (ctx, .act (.active alice pubkey)) :: es₂ ∧
        Run ((contract faucet).step native) Unrestricted (genesis system (.ofDays 100)) es₁ w₁ ∧
        Opening native faucet alice ctx pubkey w₁ w₂ ∧
        Run ((contract faucet).step native) Unrestricted w₂ es₂ w := by
  have hreach : Transition.Reaches ((contract faucet).step native) Unrestricted
      (fun w => w.income flonToken = 4000000000 ∧ outflow flonToken (feesOf w.receipts) = 3500 ∧
        cost w.log = 2000010000 ∧ openedBy w.log = [alice]) inputs
      (genesis system (.ofDays 100)) := by decide
  obtain ⟨w, hrun, hincome, hfees, hcost, hopened⟩ := Transition.run_of_reaches hreach
  obtain ⟨hholding, -, hopenings⟩ := books_of_run native_standard hrun
  have hmem : alice ∈ openedBy w.log := by
    rw [hopened]
    exact List.mem_singleton.mpr rfl
  refine ⟨w, hrun, ?_, hopened, hopenings alice hmem⟩
  rw [hholding, hincome, hfees, hcost]
  rfl

end Sample
end Faucet
end ToolkitContracts
