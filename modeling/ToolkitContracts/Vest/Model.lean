import ToolkitContracts.Chain.Contract
import ToolkitContracts.Chain.Decimal
import ToolkitContracts.Chain.Text

/-!
# flon.vest

The contract locks tokens under plans. A transfer with the memo
`issue:receiver:plan_id:first_unlock_days` creates an issue; `unlock` pays an issue's
receiver what the plan's schedule releases, `transissue` hands a part of an issue to another
receiver, `endissue` refunds the rest to the issuer, and `delfinissues` purges finished
issues. A plan that owes a fee is enabled by a transfer with the memo `plan:plan_id`.
-/

namespace ToolkitContracts
namespace Vest

/-! ## Tables -/

inductive PlanStatus where
  | pending
  | enabled
  | disabled
deriving DecidableEq

inductive IssueStatus where
  | ongoing
  | terminated
  | finished
deriving DecidableEq

def PlanStatus.toText : PlanStatus → String
  | .pending => "pending"
  | .enabled => "enabled"
  | .disabled => "disabled"

def IssueStatus.toText : IssueStatus → String
  | .ongoing => "ongoing"
  | .terminated => "terminated"
  | .finished => "finished"

def sysSymbol : Symbol := .lit "FLON" 8
def sysBank : Name := .lit "flon.token"
def maxLockDays : ℕ := 365 * 10
def daySeconds : ℕ := 24 * 60 * 60
def maxTitleSize : ℕ := 64

/-- The codes of `enum class err` that the contract reports. -/
inductive Err where
  | accountInvalid

def Err.code : Err → ℕ
  | .accountInvalid => 15

structure Global where
  admin : Name := .lit "flonianadmin"
  feeReceiver : Name := .lit "flon.fee"
  planFee : Asset := ⟨0, sysSymbol, Asset.zero_bounds⟩

structure VestPlan where
  id : ℕ
  owner : Name
  title : List Char
  assetContract : Name
  assetSymbol : Symbol
  unlockIntervalDays : ℕ
  unlockTimes : ℕ
  totalIssued : Asset
  totalUnlocked : Asset
  totalRefunded : Asset
  status : PlanStatus
  createdAt : TimePoint
  updatedAt : TimePoint

structure VestIssue where
  issueId : ℕ
  planId : ℕ
  issuer : Name
  receiver : Name
  issued : Asset
  locked : Asset
  unlocked : Asset
  firstUnlockDays : ℕ
  unlockIntervalDays : ℕ
  unlockTimes : ℕ
  status : IssueStatus
  issuedAt : TimePoint
  updatedAt : TimePoint
  memo : List Char

structure Account where
  owner : Name
  lastPlanId : ℕ

structure State where
  gstate : Global
  plans : Table VestPlan.id
  issues : Table VestIssue.issueId
  accounts : Table fun a : Account => a.owner.raw

/-- The tables of a newly deployed contract. -/
def State.init : State := ⟨{}, .empty, .empty, .empty⟩

section Actions
variable (self : Name)

/-! ## Configuration -/

def init (ctx : Ctx) (admin : Name) (planFee : Asset) (feeReceiver : Name) (s : State) :
    Except Abort (Effect State) := do
  ctx.requireAuth self
  checkc (ctx.isAccount admin = true) Err.accountInvalid.code "admin account does not exist"
  checkc (ctx.isAccount feeReceiver = true) Err.accountInvalid.code
    "fee_receiver account does not exist"
  return ({ s with gstate := { admin, feeReceiver, planFee } }, [])

/-- `_check_admin`. -/
def checkAdmin (ctx : Ctx) (s : State) : Except Abort Unit :=
  check (ctx.hasAuth self = true ∨ ctx.hasAuth s.gstate.admin = true) "missing required authority"

def setreceiver (ctx : Ctx) (issueId : ℕ) (receiver : Name) (s : State) :
    Except Abort (Effect State) := do
  checkAdmin self ctx s
  check (ctx.isAccount receiver = true) "receiver account not existed"
  let issue ← require (s.issues.find? issueId) none ("issue not found: " ++ toString issueId)
  return ({ s with issues := s.issues.put { issue with receiver } }, [])

/-! ## Plans -/

def addplan (ctx : Ctx) (owner : Name) (title : List Char) (assetContract : Name)
    (assetSymbol : Symbol) (unlockIntervalDays : ℕ) (unlockTimes : Int64Arg) (s : State) :
    Except Abort (Effect State) := do
  ctx.requireAuth owner
  check (title.length ≤ maxTitleSize) ("title size must be <= " ++ toString maxTitleSize)
  check (ctx.isAccount assetContract = true) "asset contract account does not exist"
  check (assetSymbol.isValid = true) "Invalid asset symbol"
  check (0 < unlockIntervalDays ∧ unlockIntervalDays ≤ maxLockDays)
    "unlock_days must be > 0 and <= 365*10, i.e. 10 years"
  check (0 < unlockTimes.val) "unlock times must be > 0"
  check (0 < s.gstate.planFee.amount → s.gstate.feeReceiver.raw ≠ 0) "fee_receiver not set"
  let available ← availablePrimaryKey s.plans
  -- `available_primary_key` is 0 on an empty table, and ids start at 1
  let planId := if available = 0 then 1 else available
  let zero ← Asset.new 0 assetSymbol
  let plans ← emplace s.plans {
    id := planId
    owner
    title
    assetContract
    assetSymbol
    unlockIntervalDays
    unlockTimes := u64 unlockTimes.val
    totalIssued := zero
    totalUnlocked := zero
    totalRefunded := zero
    -- a fee of any sign keeps the plan pending
    status := if s.gstate.planFee.amount ≠ 0 then .pending else .enabled
    createdAt := ctx.now
    updatedAt := ctx.now }
  return ({ s with plans, accounts := s.accounts.put { owner, lastPlanId := planId } }, [])

def setplanowner (ctx : Ctx) (owner : Name) (planId : ℕ) (newOwner : Name) (s : State) :
    Except Abort (Effect State) := do
  let plan ← require (s.plans.find? planId) none ("plan not found: " ++ toString planId)
  check (owner = plan.owner) "owner mismatch"
  check (ctx.hasAuth plan.owner = true ∨ ctx.hasAuth self = true)
    "Missing required authority of owner or maintainer"
  check (ctx.isAccount newOwner = true) "new_owner account does not exist"
  return ({ s with plans := s.plans.put { plan with owner := newOwner, updatedAt := ctx.now } }, [])

def enableplan (ctx : Ctx) (owner : Name) (planId : ℕ) (enabled : Bool) (s : State) :
    Except Abort (Effect State) := do
  ctx.requireAuth owner
  let plan ← require (s.plans.find? planId) none ("plan not found: " ++ toString planId)
  check (owner = plan.owner) "owner mismatch"
  check (plan.status ≠ .pending) "plan fees unpaid"
  let newStatus := if enabled then PlanStatus.enabled else .disabled
  check (plan.status ≠ newStatus) "plan status is no changed"
  return ({ s with plans := s.plans.put { plan with status := newStatus, updatedAt := ctx.now } },
    [])

/-! ## Incoming transfers -/

/-- The plan a `plan:` memo names: by its id, or the last plan the sender added. -/
def memoPlanId (n : Notice) (param : StringView) (s : State) : Except Abort ℕ :=
  if param.size = 0 then do
    let acct ← require (s.accounts.find? n.sender.raw) none
      "from account does not exist in vest constract"
    check (acct.lastPlanId ≠ 0) "from account does no have any plan"
    return acct.lastPlanId
  else do
    let planId ← toUint64 param "plan_id"
    check (planId ≠ 0) "plan id can not be 0"
    return planId

/-- `ontransfer` with a `plan` memo: pay the fee of a plan. -/
def ontransferPlan (ctx : Ctx) (n : Notice) (params : List StringView) (s : State) :
    Except Abort (Effect State) := do
  check (params.length = 2) "ontransfer:plan params size of must be 2"
  check (n.bank = sysBank) "must transfer by contract: flon.token"
  check (n.quantity.symbol = sysSymbol) "quantity symbol mismatch with fee symbol"
  check (n.quantity.amount = s.gstate.planFee.amount)
    ("quantity amount mismatch with fee amount: " ++ toString s.gstate.planFee.amount)
  let planId ← memoPlanId n (params.getD 1 default) s
  let plan ← require (s.plans.find? planId) none ("plan not found by plan_id: " ++ toString planId)
  check (plan.status = .pending) "plan fees not paid"
  return ({ s with plans := s.plans.put { plan with status := .enabled, updatedAt := ctx.now } },
    [⟨n.bank, s.gstate.feeReceiver, n.quantity, n.memo⟩])

/-- `ontransfer` with an `issue` memo: lock the tokens under a plan. -/
def ontransferIssue (ctx : Ctx) (n : Notice) (params : List StringView) (s : State) :
    Except Abort (Effect State) := do
  check (params.length = 4) "ontransfer:issue params size of must be 4"
  let receiver ← Name.ofText (params.getD 1 default).chars
  let planId ← toUint64 (params.getD 2 default) "plan_id"
  let firstUnlockDays ← toUint64 (params.getD 3 default) "first_unlock_days"
  let plan ← require (s.plans.find? planId) none ("plan not found: " ++ toString planId)
  check (plan.status = .enabled) ("plan not enabled, status:" ++ plan.status.toText)
  check (ctx.isAccount receiver = true) "receiver account not exist"
  check (firstUnlockDays ≤ maxLockDays) "unlock_days must be > 0 and <= 365*10, i.e. 10 years"
  check (n.quantity.symbol = plan.assetSymbol) "symbol of quantity mismatch with symbol of plan"
  check (0 < n.quantity.amount) "quantity must be positive"
  check (plan.assetContract = n.bank) "issue asset contract mismatch"
  check (plan.assetSymbol = n.quantity.symbol) "issue asset symbol mismatch"
  -- the total is added with the checks of `asset`, unlike `total_unlocked`
  let totalIssued ← plan.totalIssued.add n.quantity
  let available ← availablePrimaryKey s.issues
  let zero ← Asset.new 0 n.quantity.symbol
  let issues ← emplace s.issues {
    issueId := if available = 0 then 1 else available
    planId
    issuer := n.sender
    receiver
    issued := n.quantity
    locked := n.quantity
    unlocked := zero
    firstUnlockDays
    -- copied for display: `unlock` reads the schedule from the plan
    unlockIntervalDays := plan.unlockIntervalDays
    unlockTimes := plan.unlockTimes
    status := .ongoing
    issuedAt := ctx.now
    updatedAt := ctx.now
    memo := n.memo }
  return ({ s with plans := s.plans.put { plan with totalIssued, updatedAt := ctx.now }, issues },
    [])

def ontransfer (ctx : Ctx) (n : Notice) (s : State) : Except Abort (Effect State) :=
  if n.sender = self ∨ n.recipient ≠ self then .ok (s, [])
  else do
    check (0 < n.quantity.amount) "quantity must be positive"
    let params := (StringView.ofText n.memo).split ':'
    check (0 < params.length) "memo_params.size() > 0"
    if (params.getD 0 default).chars = "plan".toList then ontransferPlan ctx n params s
    else if (params.getD 0 default).chars = "issue".toList then ontransferIssue ctx n params s
    else .error ⟨none, "invalid format of memo"⟩

/-! ## Issues -/

def transissue (ctx : Ctx) (fromReceiver toReceiver : Name) (issueId : ℕ) (quant : Asset)
    (s : State) : Except Abort (Effect State) := do
  ctx.requireAuth fromReceiver
  check (ctx.isAccount toReceiver = true) "to_receiver account not exist"
  check (fromReceiver ≠ toReceiver) "to_receiver must be different from from_receiver"
  check quant.isValid "invalid quant_to_transfer"
  check (0 < quant.amount) "quant_to_transfer must be positive"
  let issue ← require (s.issues.find? issueId) none ("issue not found: " ++ toString issueId)
  check (issue.status = .ongoing) ("issue abnormal, status: " ++ issue.status.toText)
  check (issue.receiver = fromReceiver) "from_receiver mismatch"
  check (issue.locked.symbol = quant.symbol) "quant_to_transfer symbol mismatch"
  check (quant.amount ≤ issue.locked.amount) "locked amount insufficient"
  check (quant.amount ≤ issue.issued.amount) "issued amount insufficient"
  let available ← availablePrimaryKey s.issues
  let zero ← Asset.new 0 quant.symbol
  let issues ← emplace s.issues {
    issueId := if available = 0 then 1 else available
    planId := issue.planId
    issuer := issue.issuer
    receiver := toReceiver
    issued := quant
    locked := quant
    -- the new row keeps the schedule of the old one, and starts unpaid
    unlocked := zero
    firstUnlockDays := issue.firstUnlockDays
    unlockIntervalDays := issue.unlockIntervalDays
    unlockTimes := issue.unlockTimes
    status := issue.status
    issuedAt := issue.issuedAt
    updatedAt := ctx.now
    memo := fromReceiver.toText ++ ':' :: (toString issueId).toList }
  -- what was paid of an emptied row goes with the row
  if issue.locked.amount = quant.amount then
    return ({ s with issues := issues.erase issueId }, [])
  else
    return ({ s with issues := issues.put { issue with
      issued := issue.issued.setAmount (issue.issued.amount - quant.amount)
      locked := issue.locked.setAmount (issue.locked.amount - quant.amount)
      updatedAt := ctx.now } }, [])

def endissue (ctx : Ctx) (planId : ℕ) (issuer : Name) (issueId : ℕ) (s : State) :
    Except Abort (Effect State) := do
  check (ctx.hasAuth self = true ∨ ctx.hasAuth issuer = true ∨
    ctx.hasAuth (.lit "flonian") = true) "not authorized to end issue"
  let issue ← require (s.issues.find? issueId) none ("issue not found: " ++ toString issueId)
  check (issue.planId = planId) "plan id mismatch"
  check (issue.status ≠ .finished) ("issue already finished, status: " ++ issue.status.toText)
  check (issuer = issue.issuer ∨ issuer = self) "not authorized"
  let plan ← require (s.plans.find? planId) none ("plan not found: " ++ toString planId)
  check (plan.status = .enabled) ("plan not enabled, status:" ++ plan.status.toText)
  let totalRefunded ← plan.totalRefunded.add issue.locked
  -- the row keeps its locked amount; its status takes it out of every sum
  return ({ s with
      plans := s.plans.put { plan with totalRefunded, updatedAt := ctx.now }
      issues := s.issues.put { issue with status := .finished, updatedAt := ctx.now } },
    [⟨plan.assetContract, issue.issuer, issue.locked, ("refund: " ++ toString issueId).toList⟩])

/-- The days since the first unlock day of an issue: a `uint64_t` difference narrowed to
`int`. -/
def unlockedDays (now : TimePoint) (issue : VestIssue) : ℤ :=
  -- a `uint32_t` difference of seconds
  let issuedDays := u32 (now.secSinceEpoch - issue.issuedAt.secSinceEpoch) / daySeconds
  i32 (u64 (issuedDays - issue.firstUnlockDays))

/-- The unlock periods that have begun, computed in `uint64_t`. -/
def unlockedTimes (plan : VestPlan) (unlockedDays : ℤ) : ℕ :=
  u64 (1 + min (u64 unlockedDays / plan.unlockIntervalDays) plan.unlockTimes)

/-- `total_unlocked`: what the schedule releases of an issue after `times` periods. -/
def totalUnlocked (plan : VestPlan) (issue : VestIssue) (times : ℕ) : Except Abort ℤ :=
  -- the last period releases everything, without the assertion below
  if plan.unlockTimes ≤ times then .ok issue.issued.amount
  else do
    let total ← multiplyDecimal64 issue.issued.amount times plan.unlockTimes
    check (issue.unlocked.amount ≤ total ∧ total ≤ issue.issued.amount)
      "total_unlocked >= issue_itr->unlocked.amount && issue_itr->issued.amount >= total_unlocked"
    return total

def unlock (ctx : Ctx) (issuer : Name) (planId issueId : ℕ) (s : State) :
    Except Abort (Effect State) := do
  ctx.requireAuth issuer
  let issue ← require (s.issues.find? issueId) none ("issue not found: " ++ toString issueId)
  check (issue.planId = planId) "plan id mismatch"
  check (issue.issuedAt ≤ ctx.now) "now >= issue_itr->issued_at"
  let plan ← require (s.plans.find? planId) none ("plan not found: " ++ toString planId)
  check (plan.status = .enabled) ("plan not enabled, status:" ++ plan.status.toText)
  check (0 < plan.unlockTimes ∧ 0 < plan.unlockIntervalDays)
    "plan_itr->unlock_times > 0 && plan_itr->unlock_interval_days > 0"
  let days := unlockedDays ctx.now issue
  check (issue.status = .ongoing) ("issue abnormal, status: " ++ issue.status.toText)
  check (0 ≤ days) ("premature to unlock by n days, n = " ++ toString (-1 * days))
  let total ← totalUnlocked plan issue (unlockedTimes plan days)
  -- raw `int64_t` differences
  let currUnlockable := i64 (total - issue.unlocked.amount)
  let remainingLocked := i64 (issue.issued.amount - total)
  check (0 ≤ remainingLocked) "remaining_locked >= 0"
  check (0 < currUnlockable) "premature to unlock"
  let unlockQuantity ← Asset.new currUnlockable plan.assetSymbol
  let unlocked := issue.unlocked.setAmount total
  unlocked.comparable issue.issued
  return ({ s with
      plans := s.plans.put { plan with
        totalUnlocked := plan.totalUnlocked.setAmount (plan.totalUnlocked.amount + currUnlockable)
        updatedAt := ctx.now }
      issues := s.issues.put { issue with
        unlocked
        locked := issue.locked.setAmount remainingLocked
        status := if unlocked.amount = issue.issued.amount then .finished else issue.status
        updatedAt := ctx.now } },
    [⟨plan.assetContract, issue.receiver, unlockQuantity,
      ("unlock: " ++ toString issueId ++ "@" ++ toString planId).toList⟩])

/-- The loop of `delfinissues`. -/
def delfinissuesFrom : List ℕ → Table VestIssue.issueId → Except Abort (Table VestIssue.issueId)
  | [], issues => .ok issues
  | issueId :: ids, issues => do
    let issue ← require (issues.find? issueId) none ("issue not found: " ++ toString issueId)
    check (issue.status = .finished) "issue not finished"
    delfinissuesFrom ids (issues.erase issueId)

def delfinissues (issueIds : List ℕ) (s : State) : Except Abort (Effect State) := do
  let issues ← delfinissuesFrom issueIds s.issues
  return ({ s with issues }, [])

def setfirstdays (ctx : Ctx) (issueId days : ℕ) (s : State) : Except Abort (Effect State) := do
  check (days ≤ maxLockDays) "unlock_days must be > 0 and <= 365*10, i.e. 10 years"
  let issue ← require (s.issues.find? issueId) none ("issue not found: " ++ toString issueId)
  ctx.requireAuth issue.issuer
  -- what was unlocked before under the old first day is not looked at
  return ({ s with
    issues := s.issues.put { issue with firstUnlockDays := days, updatedAt := ctx.now } }, [])

end Actions

/-! ## The contract -/

/-- The actions of the contract. -/
inductive Action where
  | init (admin : Name) (planFee : Asset) (feeReceiver : Name)
  | setreceiver (issueId : ℕ) (receiver : Name)
  | addplan (owner : Name) (title : List Char) (assetContract : Name) (assetSymbol : Symbol)
      (unlockIntervalDays : ℕ) (unlockTimes : Int64Arg)
  | setplanowner (owner : Name) (planId : ℕ) (newOwner : Name)
  | enableplan (owner : Name) (planId : ℕ) (enabled : Bool)
  | transissue (fromReceiver toReceiver : Name) (issueId : ℕ) (quant : Asset)
  | endissue (planId : ℕ) (issuer : Name) (issueId : ℕ)
  | unlock (issuer : Name) (planId issueId : ℕ)
  | delfinissues (issueIds : List ℕ)
  | setfirstdays (issueId days : ℕ)

def exec (self : Name) (ctx : Ctx) : Action → State → Except Abort (Effect State)
  | .init admin planFee feeReceiver => init self ctx admin planFee feeReceiver
  | .setreceiver issueId receiver => setreceiver self ctx issueId receiver
  | .addplan owner title contract symbol days times =>
    addplan ctx owner title contract symbol days times
  | .setplanowner owner planId newOwner => setplanowner self ctx owner planId newOwner
  | .enableplan owner planId enabled => enableplan ctx owner planId enabled
  | .transissue fromReceiver toReceiver issueId quant =>
    transissue ctx fromReceiver toReceiver issueId quant
  | .endissue planId issuer issueId => endissue self ctx planId issuer issueId
  | .unlock issuer planId issueId => unlock ctx issuer planId issueId
  | .delfinissues issueIds => delfinissues issueIds
  | .setfirstdays issueId days => setfirstdays ctx issueId days

/-- flon.vest deployed at `self`. -/
def contract (self : Name) : Contract State Action := ⟨self, ontransfer self, exec self⟩

/-- The world right after deployment: empty tables, no tokens. -/
def genesis (clock : TimePoint) : World State := ⟨.init, fun _ => 0, clock⟩

end Vest
end ToolkitContracts
