import ToolkitContracts.Chain.Contract
import ToolkitContracts.Chain.Text
import Mathlib.Data.Prod.Lex

/-!
# flon.airdrop

An airdrop plan has a time window and a map of claim rules, one for each token: a fixed amount
for a claim and the budget that is left. An oracle claims for a beneficiary, which pays out of
every rule of the plan. The tokens are the account's own: the budgets are figures that the
admin writes, and incoming transfers are not looked at.
-/

namespace ToolkitContracts
namespace Airdrop

/-! ## Tables -/

/-- The codes of `enum class err` that the contract reports. -/
inductive Err where
  | invalidFormat
  | typeInvalid
  | insufficientQuantity
  | notPositive
  | expired
  | recordNoFound
  | accountInvalid
  | vaildTimeInvalid
  | didNotAuth
  | statusMismatch
  | alreadyExists

def Err.code : Err → ℕ
  | .invalidFormat => 0
  | .typeInvalid => 1
  | .insufficientQuantity => 3
  | .notPositive => 4
  | .expired => 6
  | .recordNoFound => 8
  | .accountInvalid => 11
  | .vaildTimeInvalid => 13
  | .didNotAuth => 16
  | .statusMismatch => 27
  | .alreadyExists => 28

structure Global where
  admin : Name := ⟨0⟩
  oracles : Table Name.raw := .empty
  lastPlanId : ℕ := 0
  lastTokenId : ℕ := 0

/-- The key of the map entry for a token, in the order of the keys of the map. -/
def claimKey (x : ExtendedSymbol) : ℕ ×ₗ ℕ := toLex (x.sym.raw, x.contract.raw)

/-- An entry of `map<extended_symbol, claim_conf_s>`: both assets are of the token, a claim is
for a positive amount, and the budget does not go below zero. -/
structure ClaimConf where
  symb : ExtendedSymbol
  singleClaim : Asset
  available : Asset
  single_symbol : singleClaim.symbol = symb.sym
  available_symbol : available.symbol = symb.sym
  single_pos : 0 < singleClaim.amount
  available_nonneg : 0 ≤ available.amount

def ClaimConf.key (c : ClaimConf) : ℕ ×ₗ ℕ := claimKey c.symb

/-- The map of the claim rules of a plan. -/
abbrev Claims := Table ClaimConf.key

/-- A plan. The window is in microseconds since the epoch, as `time_point` counts them. -/
structure Plan where
  id : ℕ
  title : List Char
  planStartedAt : Int64Arg
  planEndedAt : Int64Arg
  claims : Claims := .empty
  claimedCnt : ℕ := 0
  createdAt : TimePoint
  updatedAt : TimePoint

structure Token where
  id : ℕ
  tokenBank : Name
  sym : Symbol
  createdAt : TimePoint
  updatedAt : TimePoint

structure State where
  gstate : Global
  plans : Table Plan.id
  tokens : Table Token.id

/-- The tables of a newly deployed contract. -/
def State.init : State := ⟨{}, .empty, .empty⟩

/-- `is_oracle`. -/
def isOracle (oracles : Table Name.raw) (n : Name) : Bool := (oracles.find? n.raw).isSome

/-- The first row of the index `bybankcode` for a token: the precision is not part of it. -/
def State.findToken (s : State) (tokenBank : Name) (sym : Symbol) : Option Token :=
  s.tokens.rows.find? fun t => decide (t.tokenBank = tokenBank ∧ t.sym.code = sym.code)

def assertTokenAllowed (s : State) (tokenBank : Name) (sym : Symbol) : Except Abort Unit :=
  checkc ((s.findToken tokenBank sym).isSome = true) Err.statusMismatch.code "token not allowed"

def getPlan (s : State) (planId : ℕ) : Except Abort Plan :=
  require (s.plans.find? planId) Err.recordNoFound.code "plan not found"

section Actions
variable (self : Name)

/-- The check of the actions that the admin and the contract's account may call. -/
def requireAdmin (ctx : Ctx) (s : State) : Except Abort Unit :=
  check (ctx.hasAuth s.gstate.admin = true ∨ ctx.hasAuth self = true)
    "[[16]] requires admin or self auth"

/-! ## Configuration -/

/-- The loop over the oracles of `init`. -/
def checkOracles (ctx : Ctx) : List Name → Except Abort Unit
  | [] => .ok ()
  | o :: os => do
    checkc (o.raw ≠ 0 ∧ ctx.isAccount o = true) Err.accountInvalid.code "invalid oracle"
    checkOracles ctx os

def init (ctx : Ctx) (admin : Name) (oracles : Table Name.raw) (s : State) :
    Except Abort (Effect State) := do
  ctx.requireAuth self
  checkc (admin.raw ≠ 0 ∧ ctx.isAccount admin = true) Err.accountInvalid.code "invalid admin"
  checkOracles ctx oracles.rows
  return ({ s with gstate := { admin, oracles, lastPlanId := 0, lastTokenId := 0 } }, [])

def addoracle (ctx : Ctx) (oracle : Name) (s : State) : Except Abort (Effect State) := do
  requireAdmin self ctx s
  checkc (oracle.raw ≠ 0 ∧ ctx.isAccount oracle = true) Err.accountInvalid.code "invalid oracle"
  checkc (isOracle s.gstate.oracles oracle = false) Err.alreadyExists.code "oracle already exists"
  return ({ s with gstate := { s.gstate with oracles := s.gstate.oracles.put oracle } }, [])

def deloracle (ctx : Ctx) (oracle : Name) (s : State) : Except Abort (Effect State) := do
  requireAdmin self ctx s
  checkc (isOracle s.gstate.oracles oracle = true) Err.recordNoFound.code "oracle not found"
  return ({ s with gstate := { s.gstate with oracles := s.gstate.oracles.erase oracle.raw } }, [])

def addtoken (ctx : Ctx) (tokenBank : Name) (sym : Symbol) (s : State) :
    Except Abort (Effect State) := do
  requireAdmin self ctx s
  checkc (tokenBank.raw ≠ 0 ∧ ctx.isAccount tokenBank = true) Err.accountInvalid.code
    "invalid token_bank"
  checkc (sym.isValid = true) Err.invalidFormat.code "invalid symbol"
  checkc ((s.findToken tokenBank sym).isNone = true) Err.alreadyExists.code "token already exists"
  let lastTokenId := u64 (s.gstate.lastTokenId + 1)
  let tokens ← emplace s.tokens {
    id := lastTokenId
    tokenBank
    sym
    createdAt := ctx.now
    updatedAt := ctx.now }
  return ({ s with gstate := { s.gstate with lastTokenId }, tokens }, [])

def deltoken (ctx : Ctx) (tokenBank : Name) (sym : Symbol) (s : State) :
    Except Abort (Effect State) := do
  requireAdmin self ctx s
  let token ← require (s.findToken tokenBank sym) Err.recordNoFound.code "token not found"
  return ({ s with tokens := s.tokens.erase token.id }, [])

/-! ## Plans -/

def addplan (ctx : Ctx) (title : List Char) (startedAt endedAt : Int64Arg) (s : State) :
    Except Abort (Effect State) := do
  requireAdmin self ctx s
  checkc (startedAt.1 ≤ endedAt.1) Err.vaildTimeInvalid.code "time window invalid"
  -- the counter is stored by the destructor
  let lastPlanId := u64 (s.gstate.lastPlanId + 1)
  let plans ← emplace s.plans {
    id := lastPlanId
    title
    planStartedAt := startedAt
    planEndedAt := endedAt
    createdAt := ctx.now
    updatedAt := ctx.now }
  return ({ s with gstate := { s.gstate with lastPlanId }, plans }, [])

def setclaim (ctx : Ctx) (planId : ℕ) (symb : ExtendedSymbol) (singleClaim allocated : Asset)
    (s : State) : Except Abort (Effect State) := do
  requireAdmin self ctx s
  let hsingle ← checkcThat (singleClaim.symbol = symb.sym) Err.typeInvalid.code
    "single vs symb type mismatch"
  let hallocated ← checkcThat (singleClaim.symbol = allocated.symbol) Err.typeInvalid.code
    "single vs allocated type mismatch"
  checkc (ctx.isAccount symb.contract = true) Err.accountInvalid.code
    ("token contract not exist: " ++ String.ofList symb.contract.toText)
  let hpos ← checkcThat (0 < singleClaim.amount) Err.notPositive.code
    "single_claim must be positive"
  let hle ← checkcThat (singleClaim.amount ≤ allocated.amount) Err.notPositive.code
    "allocated - single must be positive"
  assertTokenAllowed s symb.contract symb.sym
  let plan ← getPlan s planId
  let claims := plan.claims.put {
    symb
    singleClaim
    available := allocated
    single_symbol := hsingle.down
    available_symbol := hallocated.down.symm.trans hsingle.down
    single_pos := hpos.down
    available_nonneg := hpos.down.le.trans hle.down }
  return ({ s with plans := s.plans.put { plan with claims } }, [])

def delclaim (ctx : Ctx) (planId : ℕ) (symb : ExtendedSymbol) (s : State) :
    Except Abort (Effect State) := do
  requireAdmin self ctx s
  let plan ← getPlan s planId
  let claims := plan.claims.erase (claimKey symb)
  return ({ s with plans := s.plans.put { plan with claims } }, [])

def setplan (ctx : Ctx) (planId : ℕ) (title : Option (List Char))
    (startedAt endedAt : Option Int64Arg) (s : State) : Except Abort (Effect State) := do
  requireAdmin self ctx s
  let plan ← getPlan s planId
  let title := title.getD plan.title
  let planStartedAt := startedAt.getD plan.planStartedAt
  let planEndedAt := endedAt.getD plan.planEndedAt
  checkc (planStartedAt.1 ≤ planEndedAt.1) Err.vaildTimeInvalid.code "time window invalid"
  let plan := { plan with title, planStartedAt, planEndedAt, updatedAt := ctx.now }
  return ({ s with plans := s.plans.put plan }, [])

def delplan (ctx : Ctx) (planId : ℕ) (s : State) : Except Abort (Effect State) := do
  ctx.requireAuth self
  let plan ← getPlan s planId
  return ({ s with plans := s.plans.erase plan.id }, [])

/-! ## Claims -/

/-- `claim_quant`: a rule without enough left for a claim pays what is left. -/
def ClaimConf.claimQuant (c : ClaimConf) : Asset :=
  if c.singleClaim.amount ≤ c.available.amount then c.singleClaim else c.available

theorem ClaimConf.claimQuant_nonneg (c : ClaimConf) : 0 ≤ c.claimQuant.amount := by
  unfold claimQuant
  split
  · exact c.single_pos.le
  · exact c.available_nonneg

theorem ClaimConf.claimQuant_le (c : ClaimConf) : c.claimQuant.amount ≤ c.available.amount := by
  unfold claimQuant
  split
  · next h => exact h
  · exact le_refl _

/-- `available_claim -= claim_quant`. -/
def ClaimConf.pay (c : ClaimConf) : Except Abort ClaimConf :=
  match h : c.available.sub c.claimQuant with
  | .ok r =>
    have hamount := Asset.amount_of_sub h c.available_nonneg c.claimQuant_nonneg
    .ok { c with
      available := r
      available_symbol := (Asset.symbol_of_sub h).trans c.available_symbol
      available_nonneg := hamount ▸ sub_nonneg.mpr c.claimQuant_le }
  | .error e => .error e

/-- The transfer that a rule orders in a claim. -/
def ClaimConf.transfer (c : ClaimConf) (planId : ℕ) (beneficiary : Name) : Transfer :=
  ⟨c.symb.contract, beneficiary, c.claimQuant, "plan:".toList ++ (toString planId).toList⟩

/-- The loop over the rules, with the map, the transfers ordered and `paid_cnt` so far. A map
has fewer than 2^32 entries, so the counter does not wrap around. -/
def payRules (planId : ℕ) (beneficiary : Name) :
    List ClaimConf → Claims × List Transfer × ℕ → Except Abort (Claims × List Transfer × ℕ)
  | [], acc => .ok acc
  | c :: cs, (claims, outs, paidCnt) => do
    let c' ← c.pay
    payRules planId beneficiary cs
      (claims.put c', outs ++ [c.transfer planId beneficiary], paidCnt + 1)

def claim (ctx : Ctx) (planId : ℕ) (claimer beneficiary : Name) (s : State) :
    Except Abort (Effect State) := do
  ctx.requireAuth claimer
  checkc (isOracle s.gstate.oracles claimer = true) Err.didNotAuth.code "only oracle can claim"
  checkc (beneficiary.raw ≠ 0 ∧ ctx.isAccount beneficiary = true) Err.accountInvalid.code
    "invalid beneficiary"
  let plan ← getPlan s planId
  checkc (plan.planStartedAt.1 ≤ ctx.now.us ∧ ctx.now.us ≤ plan.planEndedAt.1) Err.expired.code
    "plan not in active time window"
  let (claims, outs, paidCnt) ← payRules planId beneficiary plan.claims.rows (plan.claims, [], 0)
  checkc (0 < paidCnt) Err.insufficientQuantity.code
    "no token rule has sufficient balance in plan"
  -- only the number of claims is kept, not who they were for
  let plan := { plan with claims, claimedCnt := u64 (plan.claimedCnt + 1), updatedAt := ctx.now }
  return ({ s with plans := s.plans.put plan }, outs)

end Actions

/-! ## The contract -/

/-- The actions of the contract. The memo of `claim` is not used. -/
inductive Action where
  | init (admin : Name) (oracles : Table Name.raw)
  | addoracle (oracle : Name)
  | deloracle (oracle : Name)
  | addtoken (tokenBank : Name) (sym : Symbol)
  | deltoken (tokenBank : Name) (sym : Symbol)
  | addplan (title : List Char) (startedAt endedAt : Int64Arg)
  | setclaim (planId : ℕ) (symb : ExtendedSymbol) (singleClaim allocated : Asset)
  | delclaim (planId : ℕ) (symb : ExtendedSymbol)
  | setplan (planId : ℕ) (title : Option (List Char)) (startedAt endedAt : Option Int64Arg)
  | delplan (planId : ℕ)
  | claim (planId : ℕ) (claimer beneficiary : Name)

def exec (self : Name) (ctx : Ctx) : Action → State → Except Abort (Effect State)
  | .init admin oracles => init self ctx admin oracles
  | .addoracle oracle => addoracle self ctx oracle
  | .deloracle oracle => deloracle self ctx oracle
  | .addtoken tokenBank sym => addtoken self ctx tokenBank sym
  | .deltoken tokenBank sym => deltoken self ctx tokenBank sym
  | .addplan title startedAt endedAt => addplan self ctx title startedAt endedAt
  | .setclaim planId symb singleClaim allocated => setclaim self ctx planId symb singleClaim allocated
  | .delclaim planId symb => delclaim self ctx planId symb
  | .setplan planId title startedAt endedAt => setplan self ctx planId title startedAt endedAt
  | .delplan planId => delplan self ctx planId
  | .claim planId claimer beneficiary => claim ctx planId claimer beneficiary

/-- flon.airdrop deployed at `self`; it has no notification handler. -/
def contract (self : Name) : Contract State Action :=
  ⟨self, fun _ _ s => .ok (s, []), exec self⟩

/-- The world right after deployment: empty tables, no tokens. -/
def genesis (clock : TimePoint) : World State := ⟨.init, fun _ => 0, clock⟩

end Airdrop
end ToolkitContracts
