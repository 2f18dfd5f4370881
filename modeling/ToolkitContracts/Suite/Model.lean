import ToolkitContracts.Airdrop.Model
import ToolkitContracts.Blindbox.Purchase
import ToolkitContracts.Chain.Deployment
import ToolkitContracts.Split.Memo
import ToolkitContracts.Vest.Fees

/-!
# The contracts that meet in a `plan:` memo

flon.split and flon.vest both act on transfers with a `plan:` memo, and three contracts send
transfers with such a memo: flon.airdrop to whom it pays, flon.blindbox to its fund distributor and
flon.vest to its fee receiver. Here the four are deployed side by side. What an action sees of its
transaction is what flon.blindbox sees of it, which has the most to look at.
-/

namespace ToolkitContracts
namespace Suite

open Blindbox (Env)

/-! ## flon.blindbox as an actor -/

/-- The transfer of a token that an input is about. -/
def boxNotice? : Blindbox.Input → Option Notice
  | .token n => some n
  | .ntoken _ | .act _ => none

/-- A step with the transfers of tokens that it orders. Its NFTs go to accounts outside. -/
def boxStep (self : Name) (w : Blindbox.World) (i : Env × Blindbox.Input) :
    Except Abort (Blindbox.World × List Transfer) := do
  let w' ← Blindbox.step self w i
  return (w', Blindbox.payments w'.sent)

section Blindbox
variable {self : Name} {w w' : Blindbox.World} {i : Env × Blindbox.Input} {outs : List Transfer}

theorem boxStep_eq_ok : boxStep self w i = .ok (w', outs) ↔
    Blindbox.step self w i = .ok w' ∧ outs = Blindbox.payments w'.sent := by
  simp only [boxStep, bind_eq_ok, pure_eq_ok, Prod.mk.injEq]
  constructor
  · rintro ⟨w₁, hstep, rfl, rfl⟩
    exact ⟨hstep, rfl⟩
  · rintro ⟨hstep, rfl⟩
    exact ⟨w', hstep, rfl, rfl⟩

/-- What is sent takes the payments out of the account, and they are settled one by one. -/
theorem payments_of_settleAll {sent : List Blindbox.Out} {h h' : Holding × NftHolding}
    (hs : Blindbox.settleAll self sent h = .ok h') :
    settle self h.1 (Blindbox.payments sent) = .ok h'.1 := by
  induction sent generalizing h with
  | nil =>
    rw [Blindbox.settleAll, Except.ok.injEq] at hs
    rw [hs]
    rfl
  | cons out sent ih =>
    cases out with
    | pay t =>
      simp only [Blindbox.settleAll, settle, bind_eq_ok, check_eq_ok, exists_const,
        Except.ok.injEq] at hs
      obtain ⟨tokens, ⟨hto, hpos, hcov, rfl⟩, hrest⟩ := hs
      have htail := ih hrest
      show settle self h.1 (t :: Blindbox.payments sent) = _
      rw [settle, check_of hto, check_of hpos, check_of hcov]
      exact htail
    | deliver t =>
      simp only [Blindbox.settleAll, bind_eq_ok, check_eq_ok, exists_const] at hs
      obtain ⟨-, nfts, -, hrest⟩ := hs
      have htail := ih hrest
      exact htail
    | trace d => exact ih hs

theorem receivedTokens_eq (i : Blindbox.Input) (h : Holding) (x : ExtendedSymbol) :
    Blindbox.receivedTokens self i h x = h x + incoming self (boxNotice? i) x := by
  cases i with
  | act a => exact (add_zero _).symm
  | ntoken n => exact (add_zero _).symm
  | token n =>
    unfold Blindbox.receivedTokens incoming boxNotice?
    dsimp only
    by_cases hto : n.recipient = self
    · simp only [hto, true_and, if_true, Holding.credit_apply]
    · simp only [hto, false_and, if_false, add_zero]

end Blindbox

/-- flon.blindbox deployed at `self`, among other contracts. -/
def blindbox (self : Name) : Actor Env where
  self
  World := Blindbox.World
  Input := Blindbox.Input
  step := boxStep self
  notify := .token
  notice? := boxNotice?
  notice?_notify := fun _ => rfl
  holding := Blindbox.World.holding
  flow := by
    intro w i w' outs h x
    obtain ⟨hstep, rfl⟩ := boxStep_eq_ok.mp h
    obtain ⟨-, -, -, hsettle⟩ := Blindbox.step_spec hstep
    have hpaid : settle self (Blindbox.receivedTokens self i.2 w.holding)
        (Blindbox.payments w'.sent) = .ok w'.holding := payments_of_settleAll hsettle
    rw [settle_apply hpaid, receivedTokens_eq]

/-! ## The deployment -/

inductive Party where
  | airdrop
  | vest
  | split
  | blindbox
deriving DecidableEq

instance : Fintype Party where
  elems := {.airdrop, .vest, .split, .blindbox}
  complete p := by cases p <;> decide

/-- The accounts of the four contracts. -/
structure Accounts where
  account : Party → Name
  injective : ∀ p q, account p = account q → p = q

section Deployment
variable (a : Accounts)

/-- The contract at an account, if one of the four is there. -/
def Accounts.party? (n : Name) : Option Party :=
  [Party.airdrop, .vest, .split, .blindbox].find? fun p => decide (a.account p = n)

theorem Accounts.party?_eq_some {n : Name} {p : Party} : a.party? n = some p ↔ a.account p = n := by
  constructor
  · intro h
    have hp := List.find?_some h
    exact of_decide_eq_true hp
  · rintro rfl
    unfold party?
    cases hfind : [Party.airdrop, .vest, .split, .blindbox].find?
        fun q => decide (a.account q = a.account p) with
    | none =>
      have hmem : p ∈ [Party.airdrop, .vest, .split, .blindbox] := by
        cases p <;> decide
      exact absurd (decide_eq_true rfl) (List.find?_eq_none.mp hfind p hmem)
    | some q =>
      have hq := List.find?_some hfind
      exact congrArg some (a.injective q p (of_decide_eq_true hq))

def contracts : Party → Actor Env
  | .airdrop => (Airdrop.contract (a.account .airdrop)).actor Env.toCtx
  | .vest => (Vest.contract (a.account .vest)).actor Env.toCtx
  | .split => (Split.contract (a.account .split)).actor Env.toCtx
  | .blindbox => blindbox (a.account .blindbox)

theorem self_contracts (p : Party) : (contracts a p).self = a.account p := by
  cases p <;> rfl

/-- The four contracts side by side. -/
def deployment : Deployment Env Party where
  actor := contracts a
  party := a.party?
  party_eq_some := by
    intro n p
    rw [self_contracts]
    exact a.party?_eq_some
  signed := fun env n => { env with auths := [n] }

/-- The states of the four contracts. -/
abbrev States : Type := ∀ p, (deployment a).State p

/-- The four contracts right after their deployment. -/
def genesis (clock : TimePoint) : States a
  | .airdrop => .start (Airdrop.genesis clock)
  | .vest => .start (Vest.genesis clock)
  | .split => .start (Split.genesis clock)
  | .blindbox => .start (Blindbox.genesis clock)

end Deployment
end Suite
end ToolkitContracts
