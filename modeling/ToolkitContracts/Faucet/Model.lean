import ToolkitContracts.Chain.Accounts

/-!
# flon.faucet

`active` opens an account with a public key, buys gas for it and pays it 10 FLON; `claim` pays an
account 10 FLON. Anyone can call either, for any account. Both note the time in the row of the
account, and refuse an account whose row is less than a day old.

The payment and the actions of the system contract are sent before the row is looked at, and
carried out after it.
-/

namespace ToolkitContracts
namespace Faucet

open PubkeyToken (Authority FlonAsset flonSymbol sysBank flonContract flonToken)

/-- `err::RATE_OVERLOAD`. -/
def errRateOverload : ℕ := 19

/-- `DAY_SECONDS`. -/
def daySeconds : ℕ := 24 * 60 * 60

/-- The gas that is bought for a new account. -/
def gasQuant : FlonAsset := .ofAmount 10000 (by decide)

/-- What an account is paid. -/
def payQuant : FlonAsset := .ofAmount 1000000000 (by decide)

/-- `account_t`. -/
structure Account where
  owner : Name
  updatedAt : TimePoint

def Account.primaryKey (r : Account) : ℕ := r.owner.raw

structure State where
  accounts : Table Account.primaryKey

section Actions
variable (self : Name)

/-- `_newaccount`. -/
def sendNewaccount (account : Name) (pubkey : PublicKey) : List Sent :=
  let ownerAuth : Authority := ⟨1, [(pubkey, 1)]⟩
  let activeAuth : Authority := ⟨1, [(pubkey, 1)]⟩
  [.system (.newaccount self account ownerAuth activeAuth),
    .system (.buygas self account gasQuant.1)]

/-- The transfer of 10 FLON. -/
def payment (account : Name) : Transfer :=
  ⟨sysBank, account, payQuant.1, "Faucet transfer".toList⟩

/-- `_transfer`. -/
def transfer (account : Name) : List Sent := [.pay (payment account)]

/-- `_update_account`. -/
def updateAccount (ctx : Ctx) (account : Name) (s : State) : Except Abort State :=
  match s.accounts.find? account.raw with
  | none => do
    let accounts ← emplace s.accounts ⟨account, ctx.now⟩
    return ⟨accounts⟩
  | some acct => do
    let timeDiff := u32 ((ctx.now.secSinceEpoch : ℤ) - acct.updatedAt.secSinceEpoch)
    checkc (daySeconds ≤ timeDiff) errRateOverload
      "Account can only receive FLON tokens from faucet once a day. Next ..."
    return ⟨s.accounts.put { acct with updatedAt := ctx.now }⟩

def active (ctx : Ctx) (account : Name) (pubkey : PublicKey) (s : State) :
    Except Abort (State × List Sent) := do
  let sent := sendNewaccount self account pubkey ++ transfer account
  let s ← updateAccount ctx account s
  return (s, sent)

def claim (ctx : Ctx) (account : Name) (s : State) : Except Abort (State × List Sent) := do
  let sent := transfer account
  let s ← updateAccount ctx account s
  return (s, sent)

end Actions

/-! ## The contract -/

/-- The actions of the contract. -/
inductive Action where
  | active (account : Name) (pubkey : PublicKey)
  | claim (account : Name)

def exec (self : Name) (ctx : Ctx) : Action → State → Except Abort (State × List Sent)
  | .active account pubkey => active self ctx account pubkey
  | .claim account => claim ctx account

/-- flon.faucet deployed at `self`. -/
def contract (self : Name) : Opener State Action := ⟨self, exec self⟩

/-- The chain right after deployment: no rows, no tokens on the account, and the system contract
in the state `t`. -/
def genesis {τ : Type} (t : τ) (clock : TimePoint) : Site State τ := .start ⟨.empty⟩ t clock

/-! ## What an action does -/

/-- The account that an action is for. -/
def Action.account : Action → Name
  | .active account _ => account
  | .claim account => account

/-- What an action sends before the payment. -/
def Action.opening (self : Name) : Action → List Sent
  | .active account pubkey => sendNewaccount self account pubkey
  | .claim _ => []

variable {self : Name} {ctx : Ctx} {account : Name} {s s' : State}

/-- The row of an account may be set to the time of the block. -/
def MayPay (ctx : Ctx) (account : Name) (s : State) : Prop :=
  ∀ r, s.accounts.find? account.raw = some r →
    daySeconds ≤ u32 ((ctx.now.secSinceEpoch : ℤ) - r.updatedAt.secSinceEpoch)

theorem updateAccount_eq_ok : updateAccount ctx account s = .ok s' ↔
    MayPay ctx account s ∧ s' = ⟨s.accounts.put ⟨account, ctx.now⟩⟩ := by
  unfold updateAccount MayPay
  cases hrow : s.accounts.find? account.raw with
  | none =>
    have hnew : s.accounts.find? (Account.primaryKey ⟨account, ctx.now⟩) = none := hrow
    simp only [bind_eq_ok, emplace_eq_ok, pure_eq_ok, hnew, true_and, exists_eq_left, reduceCtorEq,
      false_implies, implies_true]
    exact eq_comm
  | some r =>
    obtain rfl : r.owner = account := Name.raw_inj.mp (Table.find?_eq_some.mp hrow).2
    simp only [bind_eq_ok, checkc_eq_ok, exists_const, pure_eq_ok, Option.some.injEq, forall_eq']
    exact and_congr_right fun _ => eq_comm

/-- An action succeeds when the row may be set; it sends the payment last. -/
theorem exec_eq_ok {a : Action} {sent : List Sent} : exec self ctx a s = .ok (s', sent) ↔
    MayPay ctx a.account s ∧ s' = ⟨s.accounts.put ⟨a.account, ctx.now⟩⟩ ∧
      sent = a.opening self ++ transfer a.account := by
  cases a with
  | active account pubkey =>
    simp only [exec, active, Action.account, Action.opening, bind_eq_ok, updateAccount_eq_ok,
      pure_eq_ok, Prod.mk.injEq]
    constructor
    · rintro ⟨_, ⟨hmay, rfl⟩, rfl, rfl⟩
      exact ⟨hmay, rfl, rfl⟩
    · rintro ⟨hmay, rfl, rfl⟩
      exact ⟨_, ⟨hmay, rfl⟩, rfl, rfl⟩
  | claim account =>
    simp only [exec, claim, Action.account, Action.opening, bind_eq_ok, updateAccount_eq_ok,
      pure_eq_ok, Prod.mk.injEq]
    constructor
    · rintro ⟨_, ⟨hmay, rfl⟩, rfl, rfl⟩
      exact ⟨hmay, rfl, rfl⟩
    · rintro ⟨hmay, rfl, rfl⟩
      exact ⟨_, ⟨hmay, rfl⟩, rfl, rfl⟩

/-- An action that succeeds on the chain sets the row of its account, and appends what it sends. -/
theorem step_act {τ β : Type} {S : SystemContract τ β} {w w' : Site State τ} {a : Action}
    (h : (contract self).step S w (ctx, .act a) = .ok w') :
    w.clock ≤ ctx.now ∧ MayPay ctx a.account w.state ∧
      w'.state = ⟨w.state.accounts.put ⟨a.account, ctx.now⟩⟩ ∧
      w'.sent = w.sent ++ (a.opening self ++ transfer a.account).map fun m => (ctx.now, m) := by
  obtain ⟨hclock, s, sent, hexec, t, h, receipts, hcarry, rfl⟩ := Opener.step_act.mp h
  obtain ⟨hmay, rfl, rfl⟩ := exec_eq_ok.mp hexec
  exact ⟨hclock, hmay, rfl, Site.sent_append (sent_of_carryOut hcarry)⟩

theorem log_of_act {τ β : Type} {S : SystemContract τ β} {w w' : Site State τ} {a : Action}
    (h : (contract self).step S w (ctx, .act a) = .ok w') :
    w'.log = w.log ++ (a.opening self ++ transfer a.account) := by
  have hsent := congrArg (List.map Prod.snd) (step_act h).2.2.2
  rw [List.map_append, List.map_map, Site.map_snd_sent, Site.map_snd_sent] at hsent
  exact hsent.trans (congrArg (w.log ++ ·) (List.map_id _))

end Faucet
end ToolkitContracts
