import ToolkitContracts.Chain.Contract
import ToolkitContracts.Chain.Text
import Mathlib.Data.Prod.Lex

/-!
# flon.split

The contract splits incoming tokens between the receivers of a plan, at rates that add up to
10000. An `AUTO` plan forwards the shares at once; a `MANUAL` plan books them in wallets, one
for each receiver in the scope of the plan, from which `claim` and `claimall` pay them out.
Switching a plan to `AUTO` claims its wallets as an inline action.
-/

namespace ToolkitContracts
namespace Split

/-! ## Tables -/

/-- The codes of `enum class err` that the contract reports. -/
inductive Err where
  | recordNotFound
  | paramError
  | memoFormatError
  | noAuth
  | oversized
  | accountInvalid
  | rateOverload

def Err.code : Err → ℕ
  | .recordNotFound => 1
  | .paramError => 5
  | .memoFormatError => 6
  | .noAuth => 8
  | .oversized => 11
  | .accountInvalid => 15
  | .rateOverload => 19

inductive SplitType where
  | auto
  | manual
deriving DecidableEq

/-- The rate of 100%. -/
def pctBoost : ℕ := 10000

structure Global where
  admin : Name := .lit "flonian"
  minSplitCount : ℕ := 2
  maxSplitCount : ℕ := 10
  lastPlanId : ℕ := 0

structure SplitUnit where
  tokenReceiver : Name
  tokenSplitAmount : ℕ

structure TokenSplitPlan where
  id : ℕ
  creator : Name
  tokenSymbol : Symbol := ⟨0⟩
  splitByRate : Bool := true
  splitConf : List SplitUnit
  splitType : SplitType
  title : List Char
  createAt : ℕ

/-- An entry of `map<extended_symbol, asset>`. -/
structure Balance where
  sym : ExtendedSymbol
  quantity : Asset

/-- The order of the keys of the map. -/
def Balance.key (b : Balance) : ℕ ×ₗ ℕ := toLex (b.sym.sym.raw, b.sym.contract.raw)

/-- A wallet, in the scope `planId`. -/
structure Wallet where
  planId : ℕ
  owner : Name
  balances : Table Balance.key
  createAt : ℕ
  updateAt : ℕ

/-- The scope of a wallet and its primary key. -/
def Wallet.key (w : Wallet) : ℕ ×ₗ ℕ := toLex (w.planId, w.owner.raw)

structure State where
  gstate : Global
  plans : Table TokenSplitPlan.id
  wallets : Table Wallet.key

/-- The tables of a newly deployed contract. -/
def State.init : State := ⟨{}, .empty, .empty⟩

/-- The key of the wallet of `owner` in the scope `planId`. -/
def walletKey (planId : ℕ) (owner : Name) : ℕ ×ₗ ℕ := toLex (planId, owner.raw)

/-- The key of the map entry for a token. -/
def balanceKey (x : ExtendedSymbol) : ℕ ×ₗ ℕ := toLex (x.sym.raw, x.contract.raw)

section Actions
variable (self : Name)

/-! ## Plans -/

/-- The loop of `check_rate`: the names seen and the rates summed so far. -/
def checkRateFrom (ctx : Ctx) : List SplitUnit → List Name → ℕ → Except Abort ℕ
  | [], _, initRate => .ok initRate
  | c :: confs, seen, initRate => do
    checkc (ctx.isAccount c.tokenReceiver = true) Err.accountInvalid.code "account invalid"
    checkc (0 < c.tokenSplitAmount ∧ c.tokenSplitAmount ≤ pctBoost) Err.oversized.code "1 - 10000"
    checkc (c.tokenReceiver ∉ seen) Err.paramError.code "There are duplicate elements"
    checkRateFrom ctx confs (c.tokenReceiver :: seen) (u64 (initRate + c.tokenSplitAmount))

def checkRate (ctx : Ctx) (confs : List SplitUnit) : Except Abort Unit := do
  let initRate ← checkRateFrom ctx confs [] 0
  checkc (initRate = pctBoost) Err.oversized.code "The total number should be 100%"

def init (ctx : Ctx) (admin : Name) (minCount maxCount : ℕ) (s : State) :
    Except Abort (Effect State) := do
  ctx.requireAuth self
  checkc (ctx.isAccount admin = true) Err.recordNotFound.code "account invalid"
  checkc (1 ≤ minCount ∧ maxCount ≤ 50) Err.paramError.code
    "The number of split accounts should be 1-50"
  return ({ s with gstate := { s.gstate with
    admin
    maxSplitCount := maxCount
    minSplitCount := minCount } }, [])

/-- The check on the number of receivers that `addplan` and `editplan` share. -/
def checkSize (size : ℕ) (s : State) : Except Abort Unit :=
  checkc (s.gstate.minSplitCount ≤ size ∧ size ≤ s.gstate.maxSplitCount) Err.oversized.code
    ("Number of users is " ++ toString s.gstate.minSplitCount ++ "-" ++
      toString s.gstate.maxSplitCount)

def addplan (ctx : Ctx) (owner : Name) (title : List Char) (conf : List SplitUnit) (isAuto : Bool)
    (s : State) : Except Abort (Effect State) := do
  checkc (ctx.hasAuth owner = true ∨ ctx.hasAuth s.gstate.admin = true) Err.noAuth.code "no_auth"
  checkSize conf.length s
  checkc (4 ≤ title.length ∧ title.length ≤ 255) Err.oversized.code "Title length should be 4-255"
  checkRate ctx conf
  -- `++last_plan_id` wraps around; `emplace` fails when the id is taken
  let lastPlanId := u64 (s.gstate.lastPlanId + 1)
  let plans ← emplace s.plans {
    id := lastPlanId
    creator := owner
    splitConf := conf
    splitType := if isAuto then .auto else .manual
    title
    createAt := ctx.now.secSinceEpoch }
  return ({ s with gstate := { s.gstate with lastPlanId }, plans }, [])

/-! ## Paying wallets out -/

/-- The transfers that pay out the positive balances of a wallet. -/
def Wallet.payout (w : Wallet) (memo : String) : List Transfer :=
  (w.balances.rows.filter fun b => decide (0 < b.quantity.amount)).map fun b =>
    ⟨b.sym.contract, w.owner, b.quantity, memo.toList⟩

def claim (planId : ℕ) (owner : Name) (s : State) : Except Abort (Effect State) := do
  let _ ← require (s.plans.find? planId) Err.recordNotFound.code "plan not found!"
  let wallet ← require (s.wallets.find? (walletKey planId owner)) Err.recordNotFound.code
    "wallet not found!"
  -- no authority is asked for: the tokens go to the owner in any case
  checkc (wallet.balances.rows.isEmpty = false) Err.recordNotFound.code "no rewards to claim"
  return ({ s with wallets := s.wallets.erase wallet.key }, wallet.payout "claim rewards")

/-- The wallets in the scope of a plan. -/
def walletsOf (planId : ℕ) (s : State) : List Wallet :=
  s.wallets.rows.filter fun w => decide (w.planId = planId)

/-- The loop of `_empty_wallets`, which stops after 20 wallets. -/
def emptyWalletsFrom : List Wallet → ℕ → Table Wallet.key → List Transfer →
    Table Wallet.key × List Transfer
  | [], _, wallets, outs => (wallets, outs)
  | w :: ws, curr, wallets, outs =>
    let outs := outs ++ w.payout "claim"
    let wallets := wallets.erase w.key
    -- the wallet that reaches the limit is still paid
    if 20 ≤ curr + 1 then (wallets, outs) else emptyWalletsFrom ws (curr + 1) wallets outs

def claimall (planId : ℕ) (s : State) : Except Abort (Effect State) := do
  let _ ← require (s.plans.find? planId) Err.recordNotFound.code "plan not found!"
  checkc ((walletsOf planId s).isEmpty = false) Err.recordNotFound.code "no wallet to be claimed"
  let (wallets, outs) := emptyWalletsFrom (walletsOf planId s) 0 s.wallets []
  return ({ s with wallets }, outs)

/-- The inline `claimall` of `editplan`, which it sends when the plan is now `AUTO` and has
wallets. -/
def inlineClaimall (planId : ℕ) (isAuto : Bool) (s : State) : Except Abort (Effect State) :=
  if isAuto = true ∧ (walletsOf planId s).isEmpty = false then claimall planId s else .ok (s, [])

def editplan (ctx : Ctx) (owner : Name) (planId : ℕ) (conf : List SplitUnit) (isAuto : Bool)
    (s : State) : Except Abort (Effect State) := do
  ctx.requireAuth owner
  checkSize conf.length s
  checkRate ctx conf
  let plan ← require (s.plans.find? planId) Err.recordNotFound.code "plan not found!"
  checkc (plan.creator = owner) Err.noAuth.code "no auth"
  -- the inline action runs on the tables that this action leaves
  inlineClaimall planId isAuto { s with plans := s.plans.put { plan with
    splitConf := conf
    splitType := if isAuto then .auto else .manual } }

/-! ## Incoming transfers -/

/-- `balances[sym]` after `quantity` is added: a new entry starts with it. -/
def newBalance (balances : Table Balance.key) (sym : ExtendedSymbol) (quantity : Asset) :
    Except Abort Asset :=
  match balances.find? (balanceKey sym) with
  | some b => b.quantity.add quantity
  | none => .ok quantity

def addWallet (ctx : Ctx) (owner : Name) (planId : ℕ) (contract : Name) (quantity : Asset)
    (wallets : Table Wallet.key) : Except Abort (Table Wallet.key) := do
  let sym : ExtendedSymbol := ⟨quantity.symbol, contract⟩
  let wallet := (wallets.find? (walletKey planId owner)).getD {
    planId
    owner
    balances := .empty
    createAt := ctx.now.secSinceEpoch
    updateAt := ctx.now.secSinceEpoch }
  let total ← newBalance wallet.balances sym quantity
  return wallets.put { wallet with
    balances := wallet.balances.put ⟨sym, total⟩
    updateAt := ctx.now.secSinceEpoch }

/-- Hand `tokens` to `owner`: forward them, or book them in the wallet. -/
def give (ctx : Ctx) (plan : TokenSplitPlan) (bank owner : Name) (tokens : Asset)
    (acc : Table Wallet.key × List Transfer) : Except Abort (Table Wallet.key × List Transfer) :=
  match plan.splitType with
  | .auto => .ok (acc.1, acc.2 ++ [⟨bank, owner, tokens, []⟩])
  | .manual => do
    let wallets ← addWallet ctx owner plan.id bank tokens acc.1
    return (wallets, acc.2)

/-- The share of one receiver, computed in `uint64_t`. -/
def share (quant : Asset) (rate : ℕ) : Except Abort Asset :=
  -- the product wraps around at 2 ^ 64
  Asset.new (u64 (quant.amount * rate) / pctBoost : ℕ) quant.symbol

/-- The loop of `_split`: what is left to distribute, the wallets and the transfers so far.
It stops at the first share that comes out empty. -/
def splitFrom (ctx : Ctx) (plan : TokenSplitPlan) (bank : Name) (quant : Asset) :
    List SplitUnit → Asset → Table Wallet.key × List Transfer →
    Except Abort (Asset × Table Wallet.key × List Transfer)
  | [], currentQuant, acc => .ok (currentQuant, acc)
  | p :: confs, currentQuant, acc => do
    let tokens ← share quant p.tokenSplitAmount
    -- the remaining receivers get nothing then, and the rest goes to the first one
    if tokens.amount ≤ 0 then .ok (currentQuant, acc)
    else do
      checkc (tokens.amount ≤ currentQuant.amount) Err.rateOverload.code
        "Insufficient distribution balance"
      let acc ← give ctx plan bank p.tokenReceiver tokens acc
      let currentQuant ← currentQuant.sub tokens
      splitFrom ctx plan bank quant confs currentQuant acc

/-- What the rates do not distribute goes to the first receiver. -/
def giveRest (ctx : Ctx) (plan : TokenSplitPlan) (bank lastTo : Name) (currentQuant : Asset)
    (acc : Table Wallet.key × List Transfer) : Except Abort (Table Wallet.key × List Transfer) :=
  if 0 < currentQuant.amount then give ctx plan bank lastTo currentQuant acc else .ok acc

/-- `_split`: the shares of all receivers, and the remainder to the first one. -/
def split (ctx : Ctx) (bank : Name) (planId : ℕ) (quant : Asset) (s : State) :
    Except Abort (Effect State) := do
  let plan ← require (s.plans.find? planId) Err.recordNotFound.code "plan not found"
  let (currentQuant, acc) ← splitFrom ctx plan bank quant plan.splitConf quant (s.wallets, [])
  let first ← require plan.splitConf.head? none "split_conf is empty"
  let (wallets, outs) ← giveRest ctx plan bank first.tokenReceiver currentQuant acc
  return ({ s with wallets }, outs)

def ontransfer (ctx : Ctx) (n : Notice) (s : State) : Except Abort (Effect State) :=
  if n.sender = self ∨ n.recipient ≠ self then .ok (s, [])
  else do
    checkc (n.sender ≠ n.recipient) Err.paramError.code "cannot send to self"
    let params := (StringView.ofText n.memo).split ':'
    checkc (1 ≤ params.length) Err.memoFormatError.code "memo not prefixed"
    check (0 < n.quantity.amount)
      ("must transfer positive quantity: " ++ .ofList n.quantity.toText)
    let actionName ← Name.ofText (params.getD 0 default).chars
    if actionName = .lit "plan" then do
      -- a memo without a colon makes the code read past the end of its parameters
      let planId ← stoi ((params[1]?.map StringView.chars).getD ctx.stale)
      -- the third parameter is parsed, and its value is not used
      if params.length = 3 then do
        let _ ← stoi (params.getD 2 default).chars
        split ctx n.bank (u64 planId) n.quantity s
      else split ctx n.bank (u64 planId) n.quantity s
    else .error ⟨Err.paramError.code, "memo not Supported"⟩

end Actions

/-! ## The contract -/

/-- The actions of the contract that can change its tables. -/
inductive Action where
  | init (admin : Name) (minCount maxCount : ℕ)
  | addplan (owner : Name) (title : List Char) (conf : List SplitUnit) (isAuto : Bool)
  | editplan (owner : Name) (planId : ℕ) (conf : List SplitUnit) (isAuto : Bool)
  | claim (planId : ℕ) (owner : Name)
  | claimall (planId : ℕ)

def exec (self : Name) (ctx : Ctx) : Action → State → Except Abort (Effect State)
  | .init admin minCount maxCount => init self ctx admin minCount maxCount
  | .addplan owner title conf isAuto => addplan ctx owner title conf isAuto
  | .editplan owner planId conf isAuto => editplan ctx owner planId conf isAuto
  | .claim planId owner => claim planId owner
  | .claimall planId => claimall planId

/-- flon.split deployed at `self`. -/
def contract (self : Name) : Contract State Action := ⟨self, ontransfer self, exec self⟩

/-- The world right after deployment: empty tables, no tokens. -/
def genesis (clock : TimePoint) : World State := ⟨.init, fun _ => 0, clock⟩

end Split
end ToolkitContracts
