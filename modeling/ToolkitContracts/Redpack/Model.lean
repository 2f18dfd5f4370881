import ToolkitContracts.Chain.Contract
import ToolkitContracts.Chain.Text

/-!
# flon.redpack

A red packet is a quantity of a listed token that up to `count` accounts claim in shares:
equal ones (`MEAN`), or shares drawn pseudo-randomly from what is left (`RANDOM`). A
transfer with the memo `awrap:code:type:did_required:count:password_hash:cover_code` deposits
one under a code; the claim administrator claims shares for others; after the expiry anyone
may cancel a red packet, which returns what is left to its creator. Claim rows survive their
red packet until `delclaims` purges the ones whose code is not in use.
-/

namespace ToolkitContracts
namespace Redpack

/-! ## Tables -/

/-- The codes of `enum class err` that the contract reports. -/
inductive Err where
  | invalidFormat
  | typeInvalid
  | insufficientQuantity
  | notPositive
  | symbolMismatch
  | expired
  | pwhashInvalid
  | recordNoFound
  | notRepeatReceive
  | notExpired
  | accountInvalid
  | feeNotPositive
  | vaildTimeInvalid
  | redpackExist
  | didNotAuth
  | underMaintenance
  | noneDeleted
  | amountTooLarge
  | feeNotRequired
  | didNotSupported
  | didPackSymbolErr

def Err.code : Err → ℕ
  | .invalidFormat => 0
  | .typeInvalid => 1
  | .insufficientQuantity => 3
  | .notPositive => 4
  | .symbolMismatch => 5
  | .expired => 6
  | .pwhashInvalid => 7
  | .recordNoFound => 8
  | .notRepeatReceive => 9
  | .notExpired => 10
  | .accountInvalid => 11
  | .feeNotPositive => 12
  | .vaildTimeInvalid => 13
  | .redpackExist => 15
  | .didNotAuth => 16
  | .underMaintenance => 17
  | .noneDeleted => 19
  | .amountTooLarge => 23
  | .feeNotRequired => 24
  | .didNotSupported => 25
  | .didPackSymbolErr => 26

inductive RedpackType where
  | random
  | mean
deriving DecidableEq

inductive RedpackStatus where
  | created
  | servicing
  | finished
deriving DecidableEq

def sysSymbol : Symbol := .lit "FLON" 8
def sysBank : Name := .lit "flon.token"

/-- The token contracts whose transfer notifications have a handler. -/
def handledBanks : List Name :=
  [.lit "flon.token", .lit "flon.mtoken", .lit "tyche.token", .lit "sing.token",
    .lit "cisum.token"]

structure Global where
  admin : Name := ⟨0⟩
  claimAdmin : Name := ⟨0⟩
  didContract : Name := ⟨0⟩
  dids : List ℕ := []
  redpackExpiryHours : ℕ := 0
  unwrapUnitFee : Asset := ⟨1000, sysSymbol, by omega⟩
  unwrapFeeRequired : Bool := false

structure GlobalIdx where
  lastRedpackId : ℕ := 0
  lastClaimId : ℕ := 0

structure RedpackRow where
  redpackId : ℕ
  code : Name
  assignType : RedpackType
  creator : Name
  didRequired : Bool
  unwrappedByAdmin : Bool
  coverCode : Name
  passwdHash : List Char
  tokenContract : Name
  totalQuant : Asset
  totalCount : ℕ
  remainingQuant : Asset
  remainingCount : ℕ
  status : RedpackStatus
  createdAt : TimePoint
  updatedAt : TimePoint

structure Claim where
  id : ℕ
  redpackId : ℕ
  redpackCode : Name
  redpackCreator : Name
  claimer : Name
  quantity : Asset
  claimedAt : TimePoint

structure TokenRow where
  id : ℕ
  tokenContract : Name
  tokenSymbol : Symbol

structure State where
  gstate : Global
  globalidx : GlobalIdx
  redpacks : Table fun r : RedpackRow => r.code.raw
  claims : Table Claim.id
  tokenlist : Table TokenRow.id

/-- The tables of a newly deployed contract. -/
def State.init : State := ⟨{}, {}, .empty, .empty, .empty⟩

/-- A row of the claimer's account table at the DID contract: a DID and its balance. -/
structure DidBalance where
  did : ℕ
  amount : ℤ

section Actions
variable (self : Name)

/-! ## Configuration -/

/-- `init`; nothing is made of the flag and the DID that it takes. -/
def init (ctx : Ctx) (admin claimAdmin : Name) (hours : ℕ) (_didSupported : Bool) (_didId : ℕ)
    (didContract : Name) (s : State) : Except Abort (Effect State) := do
  ctx.requireAuth self
  checkc (ctx.isAccount admin = true) Err.accountInvalid.code "account invalid"
  checkc (ctx.isAccount claimAdmin = true) Err.accountInvalid.code "account invalid"
  checkc (0 < hours) Err.vaildTimeInvalid.code "valid time must be positive"
  return ({ s with gstate := { s.gstate with
    admin
    claimAdmin
    redpackExpiryHours := hours
    didContract } }, [])

/-- The entry of the token list for a token, which the index `by.consymb` finds. -/
def findToken (contract : Name) (sym : Symbol) (s : State) : Option TokenRow :=
  s.tokenlist.rows.find? fun t => decide (t.tokenContract = contract ∧ t.tokenSymbol = sym)

/-- The key `tid` that `listtoken` stores a token under. -/
def listedId (contract : Name) (sym : Symbol) (s : State) : Except Abort ℕ :=
  match findToken contract sym s with
  | some t => .ok t.id
  | none => availablePrimaryKey s.tokenlist

def listtoken (ctx : Ctx) (contract : Name) (sym : Symbol) (s : State) :
    Except Abort (Effect State) := do
  ctx.requireAuth s.gstate.admin
  let tid ← listedId contract sym s
  return ({ s with tokenlist := s.tokenlist.put ⟨tid, contract, sym⟩ }, [])

def delisttoken (ctx : Ctx) (tokenId : ℕ) (s : State) : Except Abort (Effect State) := do
  ctx.requireAuth s.gstate.admin
  let _ ← require (s.tokenlist.find? tokenId) Err.recordNoFound.code
    ("no such token id: " ++ toString tokenId)
  return ({ s with tokenlist := s.tokenlist.erase tokenId }, [])

def setglobalidx (ctx : Ctx) (lastRedpackId lastClaimId : ℕ) (s : State) :
    Except Abort (Effect State) := do
  ctx.requireAuth self
  return ({ s with globalidx := {
    lastRedpackId := if 0 < lastRedpackId then lastRedpackId else s.globalidx.lastRedpackId
    lastClaimId := if 0 < lastClaimId then lastClaimId else s.globalidx.lastClaimId } }, [])

/-! ## Incoming transfers -/

/-- The type a memo names. -/
def redpackType (n : Name) : Except Abort RedpackType :=
  if n = .lit "random" then .ok .random
  else if n = .lit "mean" then .ok .mean
  else .error ⟨Err.typeInvalid.code, "redpack type invalid"⟩

def handleDeposit (ctx : Ctx) (n : Notice) (parts : List (List Char)) (s : State) :
    Except Abort (Effect State) := do
  -- the caller asked for six parts only
  checkc (7 ≤ parts.length) Err.invalidFormat.code "invalid wrap memo format"
  let _ ← require (findToken n.bank n.quantity.symbol s) Err.recordNoFound.code
    "redpack token not listed"
  let code ← Name.ofText (parts.getD 1 [])
  checkc ((s.redpacks.find? code.raw).isNone = true) Err.redpackExist.code "code already exists"
  let typeName ← Name.ofText (parts.getD 2 [])
  let assignType ← redpackType typeName
  let did ← stoi (parts.getD 3 [])
  let count ← stoi (parts.getD 4 [])
  checkc (0 < count) Err.notPositive.code "redpack count must be positive"
  checkc (count ≤ 10000) Err.amountTooLarge.code "redpack count must be no greater than 10000"
  let coverCode ← Name.ofText (parts.getD 6 [])
  let symb := Symbol.codeText n.quantity.symbol.code
  -- the amount is raw: 100 of the smallest units, whatever the precision
  checkc (100 ≤ n.quantity.amount.tdiv count) Err.insufficientQuantity.code
    ("Minimal unit 100 " ++ .ofList symb ++ " required")
  checkc (did = 1 → symb ∈ ["FLON".toList, "USDT".toList, "USDC".toList, "TYCHE".toList])
    Err.didPackSymbolErr.code "DID redpack tokens can only be FLON|MUSDT|MUSDC|TYCHE"
  let newRedpackId := u64 (s.globalidx.lastRedpackId + 1)
  let redpacks ← emplace s.redpacks {
    redpackId := newRedpackId
    code
    assignType
    creator := n.sender
    didRequired := decide (did = 1)
    -- the branch for `uwrap` is never reached
    unwrappedByAdmin := true
    coverCode
    passwdHash := parts.getD 5 []
    tokenContract := n.bank
    totalQuant := n.quantity
    totalCount := count.toNat
    remainingQuant := n.quantity
    remainingCount := count.toNat
    status := if s.gstate.unwrapFeeRequired then .created else .servicing
    createdAt := ctx.now
    updatedAt := ctx.now }
  return ({ s with globalidx := { s.globalidx with lastRedpackId := newRedpackId }, redpacks }, [])

def handleFeePayment (ctx : Ctx) (n : Notice) (parts : List (List Char)) (s : State) :
    Except Abort (Effect State) := do
  checkc (0 < s.gstate.unwrapUnitFee.amount) Err.feeNotRequired.code "zero fee charged"
  checkc (s.gstate.unwrapFeeRequired = true) Err.feeNotRequired.code "fee not required"
  checkc (n.quantity.symbol = sysSymbol) Err.symbolMismatch.code "Only FLON fees are accepted"
  let code ← Name.ofText (parts.getD 1 [])
  let redpack ← require (s.redpacks.find? code.raw) Err.redpackExist.code "redpack not yet created"
  checkc (redpack.unwrappedByAdmin = true) Err.accountInvalid.code
    "this redpack does not require admin unwrap"
  let feeRequired ← s.gstate.unwrapUnitFee.mul redpack.totalCount
  checkc (feeRequired.amount ≤ n.quantity.amount) Err.feeNotPositive.code
    ("insufficient fee: " ++ .ofList feeRequired.toText)
  checkc (redpack.status = .created) Err.expired.code "redpack status <> CREATED"
  return ({ s with redpacks := s.redpacks.put { redpack with
      status := .servicing
      updatedAt := ctx.now } },
    [⟨sysBank, s.gstate.admin, n.quantity, "fee to redpack: ".toList ++ code.toText⟩])

def tokenTransfer (ctx : Ctx) (n : Notice) (s : State) : Except Abort (Effect State) :=
  if n.sender = self ∨ n.recipient ≠ self then .ok (s, [])
  else do
    checkc (0 < n.quantity.amount) Err.notPositive.code "quantity must be positive"
    checkc (ctx.isAccount n.sender = true) Err.accountInvalid.code "account invalid"
    let parts := splitText n.memo ':'
    checkc (1 ≤ parts.length) Err.invalidFormat.code "invalid memo format"
    let action := parts.getD 0 []
    if action = "awrap".toList then do
      checkc (6 ≤ parts.length) Err.invalidFormat.code "invalid wrap format"
      handleDeposit ctx n parts s
    else if action = "fee".toList then do
      checkc (3 ≤ parts.length) Err.invalidFormat.code "invalid fee format"
      handleFeePayment ctx n parts s
    else if action = "uwrap".toList then
      .error ⟨Err.underMaintenance.code, "userwrap is under maintenance"⟩
    else .error ⟨Err.invalidFormat.code, "unknown memo action: " ++ .ofList action⟩

/-- The notification handlers: there is one for each of the handled token contracts. -/
def ontransfer (ctx : Ctx) (n : Notice) (s : State) : Except Abort (Effect State) :=
  if n.bank ∈ handledBanks then tokenTransfer self ctx n s else .ok (s, [])

/-! ## Claims -/

/-- `power10`, in `int64_t`. -/
def power10 (exp : ℕ) : ℤ := i64 (10 ^ exp)

/-- The smallest amount that `_rand` draws multiples of. -/
def minUnitValue (precision minUnit : ℕ) : Except Abort ℤ :=
  divTrap (power10 precision) (power10 minUnit)

/-- `_rand`: a multiple of the smallest unit, up to `maxQuantity`. -/
def rand (ctx : Ctx) (maxQuantity : Asset) (minUnit : ℕ) : Except Abort ℕ := do
  let unit ← minUnitValue maxQuantity.symbol.precision minUnit
  let maxUnits ← divTrap maxQuantity.amount unit
  -- a maximum below the smallest unit leaves nothing to draw from, and traps
  let r ← modTrap ctx.seed.toNat (u64 maxUnits)
  return u64 ((r + 1) * u64 unit)

def assignRedpack (ctx : Ctx) (redpack : RedpackRow) : Except Abort Asset :=
  -- the last claimer gets the rest
  if redpack.remainingCount = 1 then .ok redpack.remainingQuant
  else do
    let quotient ← divTrap redpack.remainingQuant.amount redpack.remainingCount
    let sym := redpack.remainingQuant.symbol
    let precision := if sym.precision ≤ 2 then 0 else sym.precision - 2
    -- twice the mean of what is left, for each draw
    let maxQuantity ← Asset.new (u64 (quotient * 2)) sym
    let amount ← rand ctx maxQuantity precision
    Asset.new amount sym

def assignMean (redpack : RedpackRow) : Except Abort Asset :=
  if redpack.remainingCount = 1 then .ok redpack.remainingQuant
  else redpack.totalQuant.div redpack.totalCount

/-- The share of the next claim. -/
def assign (ctx : Ctx) (redpack : RedpackRow) : Except Abort Asset :=
  match redpack.assignType with
  | .random => assignRedpack ctx redpack
  | .mean => assignMean redpack

/-- The claim that the index `by.unionid` finds for an account and a code. -/
def findClaim (claimer code : Name) (s : State) : Option Claim :=
  s.claims.rows.find? fun c => decide (c.claimer = claimer ∧ c.redpackCode = code)

/-- The check of a red packet that requires a DID. -/
def checkDid (redpack : RedpackRow) (dids : List DidBalance) (s : State) : Except Abort Unit :=
  if redpack.didRequired = true then do
    checkc (s.gstate.dids.isEmpty = false) Err.didNotSupported.code "DID not supported"
    checkc ((dids.any fun d => decide (0 < d.amount ∧ d.did ∈ s.gstate.dids)) = true)
      Err.didNotAuth.code "DID not authorized"
  else .ok ()

/-- The memo of a transfer about a red packet. -/
def redpackMemo (title : String) (redpack : RedpackRow) : List Char :=
  title.toList ++ redpack.creator.toText ++ ':' :: redpack.code.toText ++
    ':' :: (toString redpack.redpackId).toList

/-- `claimredpack`; `dids` are the claimer's rows at the DID contract. -/
def claimredpack (ctx : Ctx) (claimer code : Name) (pwhash : List Char) (dids : List DidBalance)
    (s : State) : Except Abort (Effect State) := do
  ctx.requireAuth s.gstate.claimAdmin
  let redpack ← require (s.redpacks.find? code.raw) Err.recordNoFound.code "redpack not found"
  checkc (redpack.passwdHash = pwhash) Err.pwhashInvalid.code "incorrect password"
  -- claims are looked up by account and code, whichever red packet they were made on
  checkc ((findClaim claimer code s).isNone = true) Err.notRepeatReceive.code "already claimed"
  checkc (redpack.status = .servicing) Err.expired.code "redpack not available for claiming"
  checkDid redpack dids s
  checkc (0 < redpack.remainingCount) Err.insufficientQuantity.code "no redpack left"
  checkc (0 < redpack.remainingQuant.amount) Err.insufficientQuantity.code "no quantity left"
  let assigned ← assign ctx redpack
  redpack.remainingQuant.comparable assigned
  checkc (assigned.amount ≤ redpack.remainingQuant.amount) Err.insufficientQuantity.code
    "not enough quantity left"
  let remainingQuant ← redpack.remainingQuant.sub assigned
  -- no wrap around: a share is left
  let remainingCount := redpack.remainingCount - 1
  let newClaimId := u64 (s.globalidx.lastClaimId + 1)
  let claims ← emplace s.claims {
    id := newClaimId
    redpackId := redpack.redpackId
    redpackCode := code
    redpackCreator := redpack.creator
    claimer
    quantity := assigned
    claimedAt := ctx.now }
  return ({ s with
      redpacks := s.redpacks.put { redpack with
        remainingQuant
        remainingCount
        status := if remainingCount = 0 then .finished else redpack.status
        updatedAt := ctx.now }
      globalidx := { s.globalidx with lastClaimId := newClaimId }
      claims },
    [⟨redpack.tokenContract, claimer, assigned, redpackMemo "claim:" redpack⟩])

/-! ## Clearing up -/

def cancel (ctx : Ctx) (code : Name) (s : State) : Except Abort (Effect State) := do
  let redpack ← require (s.redpacks.find? code.raw) Err.recordNoFound.code "redpack not found"
  -- no authority is asked for: anyone may clear up
  checkc (redpack.createdAt.us + s.gstate.redpackExpiryHours * 3600 * 1000000 < ctx.now.us)
    Err.notExpired.code "expiration is not reached"
  let outs : List Transfer :=
    if (redpack.status = .created ∨ redpack.status = .servicing) ∧ 0 < redpack.remainingQuant.amount
    then [⟨redpack.tokenContract, redpack.creator, redpack.remainingQuant,
      redpackMemo "returned:" redpack⟩]
    else []
  return ({ s with redpacks := s.redpacks.erase code.raw }, outs)

/-- The loop of `delclaims` over the claim rows: it erases rows whose code is not in use,
until it has erased `maxRows`. The set of missing codes that it keeps saves lookups only. -/
def delclaimsFrom (maxRows : ℕ) (s : State) : List Claim → ℕ → Table Claim.id →
    ℕ × Table Claim.id
  | [], count, claims => (count, claims)
  | c :: rest, count, claims =>
    -- rows whose code is in use are passed over and not counted
    if count < maxRows then
      if (s.redpacks.find? c.redpackCode.raw).isNone = true then
        delclaimsFrom maxRows s rest (count + 1) (claims.erase c.id)
      else delclaimsFrom maxRows s rest count claims
    else (count, claims)

def delclaims (maxRows : ℕ) (s : State) : Except Abort (Effect State) := do
  let (count, claims) := delclaimsFrom maxRows s s.claims.rows 0 s.claims
  checkc (0 < count) Err.noneDeleted.code "delete invalid"
  return ({ s with claims }, [])

end Actions

/-! ## The contract -/

/-- The actions of the contract. -/
inductive Action where
  | init (admin claimAdmin : Name) (hours : ℕ) (didSupported : Bool) (didId : ℕ)
    (didContract : Name)
  | listtoken (contract : Name) (sym : Symbol)
  | delisttoken (tokenId : ℕ)
  | setglobalidx (lastRedpackId lastClaimId : ℕ)
  | claimredpack (claimer code : Name) (pwhash : List Char) (dids : List DidBalance)
  | cancel (code : Name)
  | delclaims (maxRows : ℕ)

def exec (self : Name) (ctx : Ctx) : Action → State → Except Abort (Effect State)
  | .init admin claimAdmin hours didSupported didId didContract =>
    init self ctx admin claimAdmin hours didSupported didId didContract
  | .listtoken contract sym => listtoken ctx contract sym
  | .delisttoken tokenId => delisttoken ctx tokenId
  | .setglobalidx lastRedpackId lastClaimId => setglobalidx self ctx lastRedpackId lastClaimId
  | .claimredpack claimer code pwhash dids => claimredpack ctx claimer code pwhash dids
  | .cancel code => cancel ctx code
  | .delclaims maxRows => delclaims maxRows

/-- flon.redpack deployed at `self`. -/
def contract (self : Name) : Contract State Action := ⟨self, ontransfer self, exec self⟩

/-- The world right after deployment: empty tables, no tokens. -/
def genesis (clock : TimePoint) : World State := ⟨.init, fun _ => 0, clock⟩

end Redpack
end ToolkitContracts
