import ToolkitContracts.Chain.Contract
import ToolkitContracts.Chain.Text

/-!
# flon.proxyswap

A swap order is a transfer with the memo `tpcode:type:submit_price:slippage`: it escrows the
right token of a trading pair (`buy`) or the left one (`sell`). The oracle account either
finishes the order, which pays the other token of the pair to its owner, or cancels it,
which returns the deposit. Both erase the order. The contract takes notifications from every
token contract, and an order does not record which one its deposit came from: the token
contract of a payment is looked up in the pair, by the symbol.
-/

namespace ToolkitContracts
namespace Proxyswap

/-! ## Tables -/

/-- The codes of `enum class err` that the contract reports. -/
inductive Err where
  | invalidFormat
  | notPositive
  | symbolMismatch
  | recordNoFound
  | accountInvalid
  | amountTooSmall
  | amountTooLarge
  | pairExisted
  | pairNotEnabled
  | orderNotOpen
  | orderAlreadyHandled
  | paramError

def Err.code : Err → ℕ
  | .invalidFormat => 0
  | .notPositive => 4
  | .symbolMismatch => 5
  | .recordNoFound => 8
  | .accountInvalid => 11
  | .amountTooSmall => 22
  | .amountTooLarge => 23
  | .pairExisted => 28
  | .pairNotEnabled => 29
  | .orderNotOpen => 30
  | .orderAlreadyHandled => 31
  | .paramError => 32

inductive OrderType where
  | buy
  | sell
deriving DecidableEq

inductive OrderStatus where
  | created
  | finished
  | cancelled
deriving DecidableEq

inductive PairStatus where
  | enabled
  | disabled
deriving DecidableEq

structure Global where
  admin : Name := ⟨0⟩
  oracle : Name := ⟨0⟩
  feeReceiver : Name := ⟨0⟩
  lastOrderId : ℕ := 0

structure Pair where
  tpcode : Name
  leftSymbol : ExtendedSymbol
  rightSymbol : ExtendedSymbol
  status : PairStatus
  miniLeft : Asset
  miniRight : Asset
  maxSlippage : ℕ

structure Order where
  orderId : ℕ
  owner : Name
  tpcode : Name
  type : OrderType
  leftQuant : Asset
  submitPrice : Asset
  dealPrice : Asset
  slippage : ℕ
  rightQuant : Asset
  refundQuant : Asset
  status : OrderStatus
  fee : Asset
  memo : List Char
  createdAt : TimePoint
  updatedAt : TimePoint

structure State where
  gstate : Global
  pairs : Table fun p : Pair => p.tpcode.raw
  orders : Table Order.orderId

/-- The tables of a newly deployed contract. -/
def State.init : State := ⟨{}, .empty, .empty⟩

/-- `get_token_contract`: the token contract of the pair's token with the asset's symbol. -/
def getTokenContract (pair : Pair) (asset : Asset) : Except Abort Name :=
  if asset.symbol = pair.leftSymbol.sym then .ok pair.leftSymbol.contract
  else if asset.symbol = pair.rightSymbol.sym then .ok pair.rightSymbol.contract
  else .error ⟨some Err.accountInvalid.code, "token contract not found for symbol"⟩

/-- The token an order of a type is paid in. -/
def Pair.paidSymbol (pair : Pair) : OrderType → ExtendedSymbol
  | .buy => pair.rightSymbol
  | .sell => pair.leftSymbol

/-- Which of the two quantities of an order is the one its owner paid. -/
def OrderType.paid (type : OrderType) (leftQuant rightQuant : Asset) : Asset :=
  match type with
  | .buy => rightQuant
  | .sell => leftQuant

/-- What was paid for an order. -/
def Order.paid (o : Order) : Asset := o.type.paid o.leftQuant o.rightQuant

section Actions
variable (self : Name)

/-! ## Configuration -/

def init (ctx : Ctx) (admin oracle feeReceiver : Name) (lastOrderId : ℕ) (s : State) :
    Except Abort (Effect State) := do
  ctx.requireAuth self
  return ({ s with gstate := { admin, oracle, feeReceiver, lastOrderId } }, [])

def setadmin (ctx : Ctx) (newAdmin : Name) (s : State) : Except Abort (Effect State) := do
  ctx.requireAuth s.gstate.admin
  return ({ s with gstate := { s.gstate with admin := newAdmin } }, [])

def setoracle (ctx : Ctx) (newOracle : Name) (s : State) : Except Abort (Effect State) := do
  ctx.requireAuth s.gstate.admin
  return ({ s with gstate := { s.gstate with oracle := newOracle } }, [])

/-! ## Trading pairs -/

def addtradpair (ctx : Ctx) (tpcode : Name) (leftSymbol rightSymbol : ExtendedSymbol)
    (miniLeft miniRight : Asset) (maxSlippage : ℕ) (s : State) : Except Abort (Effect State) := do
  ctx.requireAuth s.gstate.admin
  checkc ((s.pairs.find? tpcode.raw).isNone = true) Err.pairExisted.code "pair already exists"
  checkc (0 < miniLeft.amount) Err.paramError.code "mini_left must be positive"
  checkc (0 < miniRight.amount) Err.paramError.code "mini_right must be positive"
  checkc (leftSymbol ≠ rightSymbol) Err.paramError.code "symbols must be different"
  let pairs ← emplace s.pairs {
    tpcode
    leftSymbol
    rightSymbol
    status := .enabled
    miniLeft
    miniRight
    maxSlippage }
  return ({ s with pairs }, [])

def rmtradpair (ctx : Ctx) (tpcode : Name) (s : State) : Except Abort (Effect State) := do
  ctx.requireAuth s.gstate.admin
  let _ ← require (s.pairs.find? tpcode.raw) Err.recordNoFound.code "pair not found"
  return ({ s with pairs := s.pairs.erase tpcode.raw }, [])

def distradpair (ctx : Ctx) (tpcode : Name) (s : State) : Except Abort (Effect State) := do
  ctx.requireAuth s.gstate.admin
  let pair ← require (s.pairs.find? tpcode.raw) Err.recordNoFound.code "pair not found"
  checkc (pair.status ≠ .disabled) Err.pairNotEnabled.code "pair already disabled"
  return ({ s with pairs := s.pairs.put { pair with status := .disabled } }, [])

def enabtradpair (ctx : Ctx) (tpcode : Name) (s : State) : Except Abort (Effect State) := do
  ctx.requireAuth s.gstate.admin
  let pair ← require (s.pairs.find? tpcode.raw) Err.recordNoFound.code "pair not found"
  checkc (pair.status ≠ .enabled) Err.pairExisted.code "pair already enabled"
  return ({ s with pairs := s.pairs.put { pair with status := .enabled } }, [])

/-! ## Orders -/

/-- The left and the right quantity of a new order. -/
def orderQuants (type : OrderType) (pair : Pair) (quantity submitPrice : Asset) :
    Except Abort (Asset × Asset) :=
  match type with
  | .buy => do
    checkc (quantity.symbol = pair.rightSymbol.sym) Err.symbolMismatch.code
      "quantity symbol mismatch for buy"
    quantity.comparable pair.miniRight
    checkc (pair.miniRight.amount ≤ quantity.amount) Err.amountTooSmall.code "below mini_right"
    checkc (submitPrice.symbol = pair.rightSymbol.sym) Err.symbolMismatch.code
      "submit_price symbol mismatch for buy"
    let leftQuant ← Asset.new 0 pair.leftSymbol.sym
    return (leftQuant, quantity)
  | .sell => do
    checkc (quantity.symbol = pair.leftSymbol.sym) Err.symbolMismatch.code
      "quantity symbol mismatch for sell"
    quantity.comparable pair.miniLeft
    checkc (pair.miniLeft.amount ≤ quantity.amount) Err.amountTooSmall.code "below mini_left"
    checkc (submitPrice.symbol = pair.rightSymbol.sym) Err.symbolMismatch.code
      "submit_price symbol mismatch for sell"
    let rightQuant ← Asset.new 0 pair.rightSymbol.sym
    return (quantity, rightQuant)

def onTransfer (ctx : Ctx) (n : Notice) (s : State) : Except Abort (Effect State) :=
  if n.recipient ≠ self ∨ n.sender = self then .ok (s, [])
  else do
    checkc (n.memo.length ≤ 256) Err.invalidFormat.code "memo too long"
    -- `tpcode:type:submit_price:slippage`; further parts of the memo are ignored
    let params := splitText n.memo ':'
    checkc (4 ≤ params.length) Err.paramError.code "invalid memo format"
    let tpcode ← Name.ofText (params.getD 0 [])
    let typeStr := params.getD 1 []
    checkc (typeStr = "buy".toList ∨ typeStr = "sell".toList) Err.invalidFormat.code
      "type must be buy or sell"
    let type : OrderType := if typeStr = "buy".toList then .buy else .sell
    let slippageStr := params.getD 3 []
    checkc (slippageStr ≠ []) Err.invalidFormat.code "slippage missing"
    -- only digits, so `stoll` fails on what does not fit an `int64_t` and on nothing else
    checkc (slippageStr.all isDigit = true) Err.invalidFormat.code "slippage must be integer"
    let slippage ← stoll slippageStr
    let pair ← require (s.pairs.find? tpcode.raw) Err.recordNoFound.code "pair not found"
    checkc (pair.status = .enabled) Err.pairNotEnabled.code "pair not enabled"
    let submitPrice ← assetFromString (.ofText (params.getD 2 []))
    checkc (0 < submitPrice.amount) Err.invalidFormat.code "submit_price must be positive"
    checkc (0 < n.quantity.amount) Err.notPositive.code "quantity must be positive"
    checkc (0 ≤ slippage ∧ slippage ≤ pair.maxSlippage) Err.paramError.code
      "slippage out of range"
    let (leftQuant, rightQuant) ← orderQuants type pair n.quantity submitPrice
    let zero ← Asset.new 0 n.quantity.symbol
    -- `++last_order_id` wraps around; `emplace` fails when the id is taken
    let orderId := u64 (s.gstate.lastOrderId + 1)
    let orders ← emplace s.orders {
      orderId
      -- the token contract `n.bank` goes into no field
      owner := n.sender
      tpcode
      type
      leftQuant
      submitPrice
      dealPrice := zero
      slippage := slippage.toNat
      rightQuant
      refundQuant := zero
      status := .created
      fee := zero
      memo := n.memo
      createdAt := ctx.now
      updatedAt := ctx.now }
    return ({ s with gstate := { s.gstate with lastOrderId := orderId }, orders }, [])

/-- The checks of `finishorder` on the quantities, by the type of the order. -/
def checkDeal (type : OrderType) (pair : Pair) (dealQuant dealPrice : Asset) :
    Except Abort Unit :=
  match type with
  | .buy => do
    checkc (dealQuant.symbol = pair.leftSymbol.sym) Err.symbolMismatch.code
      "deal_quant symbol error (buy)"
    checkc (dealPrice.symbol = pair.rightSymbol.sym) Err.symbolMismatch.code
      "deal_price symbol error (buy)"
  | .sell => do
    checkc (dealQuant.symbol = pair.rightSymbol.sym) Err.symbolMismatch.code
      "deal_quant symbol error (sell)"
    checkc (dealPrice.symbol = pair.rightSymbol.sym) Err.symbolMismatch.code
      "deal_price symbol error (sell)"

/-- The message of the check that the paid quantity was handed in again. -/
def orderQuantMismatch : OrderType → String
  | .buy => "order_quant mismatch with original right_quant (buy)"
  | .sell => "order_quant mismatch with original left_quant (sell)"

def finishorder (ctx : Ctx) (orderId : ℕ) (orderQuant dealQuant dealPrice fee : Asset)
    (s : State) : Except Abort (Effect State) := do
  ctx.requireAuth s.gstate.oracle
  let order ← require (s.orders.find? orderId) Err.recordNoFound.code "order not found"
  checkc (order.status = .created) Err.orderNotOpen.code "order not in pending state"
  -- the oracle repeats the amount that was paid, and `==` refuses another symbol by itself
  orderQuant.comparable order.paid
  checkc (orderQuant = order.paid) Err.paramError.code (orderQuantMismatch order.type)
  let pair ← require (s.pairs.find? order.tpcode.raw) Err.recordNoFound.code "pair not found"
  checkc (pair.status = .enabled) Err.pairNotEnabled.code "pair not enabled"
  checkc (0 < dealPrice.amount) Err.invalidFormat.code "deal_price must be positive"
  checkc (0 < dealQuant.amount) Err.invalidFormat.code "deal_quant must be positive"
  checkDeal order.type pair dealQuant dealPrice
  let dealContract ← getTokenContract pair dealQuant
  checkc (0 < fee.amount) Err.notPositive.code "fee amount must be positive"
  checkc (fee.symbol = dealQuant.symbol) Err.symbolMismatch.code "fee symbol mismatch"
  let feeContract ← getTokenContract pair fee
  return ({ s with orders := s.orders.erase orderId },
    [⟨dealContract, order.owner, dealQuant, "swap filled".toList⟩,
      ⟨feeContract, s.gstate.feeReceiver, fee, "swap fee".toList⟩])

/-- The messages of the checks of `cancelorder` on the refund. -/
def refundMismatch : OrderType → String
  | .buy => "refund symbol mismatch for buy"
  | .sell => "refund symbol mismatch for sell"

def refundExceeds : OrderType → String
  | .buy => "refund exceeds paid amount for buy"
  | .sell => "refund exceeds paid amount for sell"

def cancelorder (ctx : Ctx) (orderId : ℕ) (s : State) : Except Abort (Effect State) := do
  ctx.requireAuth s.gstate.oracle
  let order ← require (s.orders.find? orderId) Err.recordNoFound.code "order not found"
  checkc (order.status = .created) Err.orderAlreadyHandled.code "order already processed"
  let pair ← require (s.pairs.find? order.tpcode.raw) Err.recordNoFound.code "pair not found"
  let refundQuant := order.paid
  checkc (refundQuant.symbol = (pair.paidSymbol order.type).sym) Err.symbolMismatch.code
    (refundMismatch order.type)
  -- `refund_quant` was just read from the order, so this compares a value with itself
  checkc (refundQuant.amount ≤ order.paid.amount) Err.amountTooLarge.code
    (refundExceeds order.type)
  checkc (0 < refundQuant.amount) Err.notPositive.code "refund amount must be positive"
  -- the left token wins when both tokens of the pair have the symbol
  let tokenContract ← getTokenContract pair refundQuant
  return ({ s with orders := s.orders.erase orderId },
    [⟨tokenContract, order.owner, refundQuant, "swap refund".toList⟩])

end Actions

/-! ## The contract -/

/-- The actions of the contract. The memos of `finishorder` and `cancelorder` only go into
the notification of the settlement, after which the order is erased. -/
inductive Action where
  | init (admin oracle feeReceiver : Name) (lastOrderId : ℕ)
  | addtradpair (tpcode : Name) (leftSymbol rightSymbol : ExtendedSymbol)
      (miniLeft miniRight : Asset) (maxSlippage : ℕ)
  | rmtradpair (tpcode : Name)
  | distradpair (tpcode : Name)
  | enabtradpair (tpcode : Name)
  | finishorder (orderId : ℕ) (orderQuant dealQuant dealPrice fee : Asset)
  | cancelorder (orderId : ℕ)
  | setadmin (newAdmin : Name)
  | setoracle (newOracle : Name)

def exec (self : Name) (ctx : Ctx) : Action → State → Except Abort (Effect State)
  | .init admin oracle feeReceiver lastOrderId => init self ctx admin oracle feeReceiver lastOrderId
  | .addtradpair tpcode leftSymbol rightSymbol miniLeft miniRight maxSlippage =>
    addtradpair ctx tpcode leftSymbol rightSymbol miniLeft miniRight maxSlippage
  | .rmtradpair tpcode => rmtradpair ctx tpcode
  | .distradpair tpcode => distradpair ctx tpcode
  | .enabtradpair tpcode => enabtradpair ctx tpcode
  | .finishorder orderId orderQuant dealQuant dealPrice fee =>
    finishorder ctx orderId orderQuant dealQuant dealPrice fee
  | .cancelorder orderId => cancelorder ctx orderId
  | .setadmin newAdmin => setadmin ctx newAdmin
  | .setoracle newOracle => setoracle ctx newOracle

/-- flon.proxyswap deployed at `self`. -/
def contract (self : Name) : Contract State Action := ⟨self, onTransfer self, exec self⟩

/-- The world right after deployment: empty tables, no tokens. -/
def genesis (clock : TimePoint) : World State := ⟨.init, fun _ => 0, clock⟩

end Proxyswap
end ToolkitContracts
