import ToolkitContracts.Suite.Model
import ToolkitContracts.Vest.Accounting

/-!
# The books of the four contracts

However the four contracts are used together, and whatever they pay each other within one
transaction, each of them does what it could do alone. So flon.vest holds what its issues have
locked and flon.split what its wallets record, and all that was ever brought to the four accounts
from outside is there or went back outside.
-/

namespace ToolkitContracts
namespace Suite

open Blindbox (Env)

/-- The books of the four contracts agree with what their accounts hold. -/
structure Balanced (a : Accounts) (w : States a) : Prop where
  vest : Vest.Solvent (w .vest).world
  split : Split.Solvent (w .split).world
  plans : Split.PlansChecked (w .split).world.state
  together : ∀ x, Vest.obligation (w .vest).world.state.plans x
      + Split.recorded (w .split).world.state.wallets x
      + (w .airdrop).world.holding x + (w .blindbox).world.holding x
      + ∑ p, outflow x ((deployment a).outside (w p).sent) = ∑ p, (w p).income x

section Runs
variable {a : Accounts} {clock : TimePoint} {depth : ℕ} {w : States a}
  {ms : List (deployment a).Message}

theorem sum_party (f : Party → ℤ) : ∑ p, f p = f .airdrop + f .vest + f .split + f .blindbox := by
  rw [show (Finset.univ : Finset Party) = {.airdrop, .vest, .split, .blindbox} from rfl,
    Finset.sum_insert (by decide), Finset.sum_insert (by decide), Finset.sum_insert (by decide),
    Finset.sum_singleton]
  omega

/-- In a run of the four contracts flon.split is in a state that it can reach alone. -/
theorem split_of_run {ok : States a → (deployment a).Message → Prop}
    (hrun : Transition.Run ((deployment a).transact depth) ok (genesis a clock) ms w) :
    ∃ is, Transition.Run (Split.contract (a.account .split)).step Transition.Unrestricted
      (Split.genesis clock) is (w .split).world := by
  obtain ⟨is, his⟩ := Deployment.run_of_run hrun .split
  exact ⟨_, Contract.run_of_alone his⟩

theorem vest_of_run {ok : States a → (deployment a).Message → Prop}
    (hrun : Transition.Run ((deployment a).transact depth) ok (genesis a clock) ms w) :
    ∃ is, Transition.Run (Vest.contract (a.account .vest)).step Transition.Unrestricted
      (Vest.genesis clock) is (w .vest).world := by
  obtain ⟨is, his⟩ := Deployment.run_of_run hrun .vest
  exact ⟨_, Contract.run_of_alone his⟩

/-- In every state that the four contracts reach together, from inputs of any kind in any order,
with any payments between them: the issues of flon.vest and the wallets of flon.split are covered
exactly, and with what the other two hold and what was paid to accounts outside they make up what
was brought in from there. -/
theorem balanced_of_run (hrun : Transition.Run ((deployment a).transact depth)
    (deployment a).External (genesis a clock) ms w) : Balanced a w := by
  obtain ⟨is, hsplit⟩ := split_of_run hrun
  obtain ⟨js, hvest⟩ := vest_of_run hrun
  have hs := Split.solvent_of_run hsplit
  have hv := Vest.solvent_of_run hvest
  refine ⟨hv, hs, Split.plansChecked_of_run hsplit, fun x => ?_⟩
  have hsum := Deployment.sum_of_run hrun x
  have hstart : ∀ p, (deployment a).passed x p (genesis a clock p) = 0 := by
    intro p
    cases p <;> rfl
  rw [Finset.sum_eq_zero fun p _ => hstart p] at hsum
  simp only [Deployment.passed, Finset.sum_add_distrib, Finset.sum_sub_distrib] at hsum
  have hholding := sum_party fun p => ((deployment a).actor p).holding (w p).world x
  have hvested : ((deployment a).actor .vest).holding (w .vest).world x
      = Vest.obligation (w .vest).world.state.plans x := hv.holding x
  have hsplitted : ((deployment a).actor .split).holding (w .split).world x
      = Split.recorded (w .split).world.state.wallets x := hs.holding x
  have hairdrop : ((deployment a).actor .airdrop).holding (w .airdrop).world x
      = (w .airdrop).world.holding x := rfl
  have hblindbox : ((deployment a).actor .blindbox).holding (w .blindbox).world x
      = (w .blindbox).world.holding x := rfl
  omega

end Runs

/-! ## A fee that is distributed -/

namespace Sample

def accounts : Accounts where
  account
    | .airdrop => .lit "flon.airdrop"
    | .vest => .lit "flon.vest"
    | .split => .lit "flon.split"
    | .blindbox => .lit "flon.blind1"
  injective p q := by cases p <;> cases q <;> decide

def alice : Name := .lit "alice"
def bob : Name := .lit "bob"
def carol : Name := .lit "carol"

/-- A transaction that one account has signed. -/
def signed (signer : Name) (day : ℕ) : Env :=
  { Blindbox.Sample.env with auths := [signer], now := .ofDays day }

/-- Alice adds a plan to flon.split, which receives the fees of flon.vest, and one to flon.vest. -/
def inputs : List (deployment accounts).Message :=
  [⟨.split, signed alice 100,
      .act (.addplan alice "equal".toList [⟨bob, 5000⟩, ⟨carol, 5000⟩] false)⟩,
   ⟨.vest, signed (accounts.account .vest) 100,
      .act (.init carol (Vest.Sample.units 101) (accounts.account .split))⟩,
   ⟨.vest, signed alice 100, .act (.addplan alice [] Vest.sysBank Vest.sysSymbol 1 (int64 10))⟩]

/-- Alice pays the fee of her plan. -/
def fee : Notice :=
  ⟨Vest.sysBank, alice, accounts.account .vest, Vest.Sample.units 101, "plan:1".toList, by decide⟩

/-- The fee ends up in the wallets of flon.split. -/
theorem balanced_of_run_sample :
    ∃ w, Transition.Run ((deployment accounts).transact 4) (deployment accounts).External
        (genesis accounts (.ofDays 100)) (inputs ++ [⟨.vest, signed alice 100, .notify fee⟩]) w ∧
      Balanced accounts w ∧
      Split.recorded (w .split).world.state.wallets ⟨Vest.sysSymbol, Vest.sysBank⟩ = 101 := by
  have hreach : Transition.Reaches ((deployment accounts).transact 4) (deployment accounts).External
      (fun w => Split.recorded (w .split).world.state.wallets ⟨Vest.sysSymbol, Vest.sysBank⟩ = 101)
      (inputs ++ [⟨.vest, signed alice 100, .notify fee⟩])
      (genesis accounts (.ofDays 100)) := by decide
  obtain ⟨w, hrun, htotal⟩ := Transition.run_of_reaches hreach
  exact ⟨w, hrun, balanced_of_run hrun, htotal⟩

end Sample
end Suite
end ToolkitContracts
