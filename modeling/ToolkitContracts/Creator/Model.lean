import ToolkitContracts.Chain.Accounts

/-!
# flon.creator

The admin opens accounts with a public key, and the contract buys gas for each of them. The admin
and the amount of gas are settings, which the admin or the contract's own account changes.
-/

namespace ToolkitContracts
namespace Creator

open PubkeyToken (Authority FlonAsset)

/-- `err::NO_AUTH`. -/
def errNoAuth : ℕ := 9

/-- `global_t`: who opens accounts, and the gas that each of them gets. -/
structure State where
  admin : Name := .lit "securewarden"
  gasQuant : Asset := (FlonAsset.ofAmount 300000 (by decide)).1

section Actions
variable (self : Name)

/-- `_newaccount`: the account gets the key for both of its permissions, and the contract pays for
its gas. -/
def sendNewaccount (account : Name) (pubkey : PublicKey) (gasQuant : Asset) : List Sent :=
  let ownerAuth : Authority := ⟨1, [(pubkey, 1)]⟩
  let activeAuth : Authority := ⟨1, [(pubkey, 1)]⟩
  [.system (.newaccount self account ownerAuth activeAuth), .system (.buygas self account gasQuant)]

/-- Only the admin opens accounts, and the contract itself looks whether there is one of the name. -/
def newaccount (ctx : Ctx) (admin : Name) (pubkey : PublicKey) (acct : Name) (s : State) :
    Except Abort (State × List Sent) := do
  ctx.requireAuth admin
  check (admin = s.admin) "no auth for operate"
  check (ctx.isAccount acct = false) "Account already exists"
  return (s, sendNewaccount self acct pubkey s.gasQuant)

/-- `_check_admin`: the signature of the contract's own account counts, and that of the admin. -/
def checkAdmin (ctx : Ctx) (s : State) : Except Abort Unit :=
  checkc (ctx.hasAuth self = true ∨ ctx.hasAuth s.admin = true) errNoAuth "no auth for operate"

/-- The new admin need not exist, and does not sign. -/
def init (ctx : Ctx) (admin : Name) (s : State) : Except Abort (State × List Sent) := do
  checkAdmin self ctx s
  return ({ s with admin }, [])

/-- Neither the symbol nor the amount is checked. -/
def setgasquant (ctx : Ctx) (gasQuant : Asset) (s : State) : Except Abort (State × List Sent) := do
  checkAdmin self ctx s
  return ({ s with gasQuant }, [])

end Actions

/-- The actions of the contract. -/
inductive Action where
  | newaccount (admin : Name) (pubkey : PublicKey) (acct : Name)
  | init (admin : Name)
  | setgasquant (gasQuant : Asset)

/-- The code of each action, with what it sends. -/
def exec (self : Name) (ctx : Ctx) : Action → State → Except Abort (State × List Sent)
  | .newaccount admin pubkey acct => newaccount self ctx admin pubkey acct
  | .init admin => init self ctx admin
  | .setgasquant gasQuant => setgasquant self ctx gasQuant

/-- flon.creator deployed at `self`. -/
def contract (self : Name) : Opener State Action := ⟨self, exec self⟩

/-- The chain right after deployment: the default settings, no tokens on the account, and the system
contract in the state `t`. -/
def genesis {τ : Type} (t : τ) (clock : TimePoint) : Site State τ := .start {} t clock

/-! ## What an action does -/

section Cases
variable {self : Name} {ctx : Ctx} {s s' : State} {sent : List Sent}

/-- An account is opened on the signature of the admin, when there is none of the name. -/
theorem newaccount_eq_ok {admin acct : Name} {pubkey : PublicKey} :
    exec self ctx (.newaccount admin pubkey acct) s = .ok (s', sent) ↔
      ctx.hasAuth admin = true ∧ admin = s.admin ∧ ctx.isAccount acct = false ∧ s' = s ∧
        sent = sendNewaccount self acct pubkey s.gasQuant := by
  simp only [exec, newaccount, bind_eq_ok, Ctx.requireAuth_eq_ok, check_eq_ok, exists_const,
    pure_eq_ok, Prod.mk.injEq]
  constructor
  · rintro ⟨hauth, hadmin, hnew, rfl, rfl⟩
    exact ⟨hauth, hadmin, hnew, rfl, rfl⟩
  · rintro ⟨hauth, hadmin, hnew, rfl, rfl⟩
    exact ⟨hauth, hadmin, hnew, rfl, rfl⟩

theorem checkAdmin_eq_ok {u : Unit} :
    checkAdmin self ctx s = .ok u ↔ ctx.hasAuth self = true ∨ ctx.hasAuth s.admin = true :=
  checkc_eq_ok

/-- A change of the admin sends nothing, like one of the gas. -/
theorem init_eq_ok {admin : Name} : exec self ctx (.init admin) s = .ok (s', sent) ↔
    (ctx.hasAuth self = true ∨ ctx.hasAuth s.admin = true) ∧ s' = { s with admin } ∧ sent = [] := by
  simp only [exec, init, bind_eq_ok, checkAdmin_eq_ok, exists_const, pure_eq_ok, Prod.mk.injEq,
    @eq_comm _ s', @eq_comm _ sent]

theorem setgasquant_eq_ok {gasQuant : Asset} :
    exec self ctx (.setgasquant gasQuant) s = .ok (s', sent) ↔
      (ctx.hasAuth self = true ∨ ctx.hasAuth s.admin = true) ∧ s' = { s with gasQuant } ∧
        sent = [] := by
  simp only [exec, setgasquant, bind_eq_ok, checkAdmin_eq_ok, exists_const, pure_eq_ok,
    Prod.mk.injEq, @eq_comm _ s', @eq_comm _ sent]

end Cases
end Creator
end ToolkitContracts
