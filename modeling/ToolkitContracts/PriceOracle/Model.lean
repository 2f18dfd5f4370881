import ToolkitContracts.Chain.Contract
import ToolkitContracts.Chain.Text
import ToolkitContracts.Chain.Decimal
import Mathlib.Data.Prod.Lex

/-!
# price.oracle

Registered oracles report prices of registered coins in USDT, several in one call. The last
price of each coin is kept in the global state, and a new one has to lie between half and one
and a half of it; a coin that has no price yet takes any. A second table keeps the last report
of each coin.
-/

namespace ToolkitContracts
namespace PriceOracle

/-! ## Tables -/

/-- The codes of `enum class err` that the contract reports. -/
inductive Err where
  | noAuth
  | recordFound
  | recordNotFound
  | paramError

def Err.code : Err → ℕ
  | .noAuth => 10001
  | .recordFound => 10008
  | .recordNotFound => 10009
  | .paramError => 10101

/-- An entry of `map<name, uint64_t>`; the price 0 stands for none. -/
structure PriceEntry where
  coin : Name
  price : ℕ
  lt : price < 2 ^ 64

structure Global where
  prices : Table (fun e : PriceEntry => e.coin.raw) := .empty
  quoteCode : Name := .lit "usdt"
  quoteSymbol : Symbol := .lit "USDT" 6

/-- A row of the table of oracles. -/
structure OracleItem where
  oracle : Name

/-- An element of the vector that `updateprice` takes. -/
structure CoinPriceInfo where
  tpcode : Name
  price : Asset

/-- A report, in the scope `coin`. -/
structure CoinPrice where
  coin : Name
  id : ℕ
  tpcode : Name
  price : Asset
  updatedAt : TimePoint

/-- The scope of a report and its primary key. -/
def CoinPrice.key (p : CoinPrice) : ℕ ×ₗ ℕ := toLex (p.coin.raw, p.id)

structure State where
  gstate : Global
  oracles : Table fun o : OracleItem => o.oracle.raw
  coinPrices : Table CoinPrice.key

/-- The tables of a newly deployed contract. -/
def State.init : State := ⟨{}, .empty, .empty⟩

section Actions
variable (self : Name)

/-! ## Oracles and coins -/

def addoracle (ctx : Ctx) (oracle : Name) (s : State) : Except Abort (Effect State) := do
  ctx.requireAuth self
  checkc ((s.oracles.find? oracle.raw).isNone = true) Err.noAuth.code "oracle account is existing"
  let oracles ← emplace s.oracles ⟨oracle⟩
  return ({ s with oracles }, [])

def removeoracle (ctx : Ctx) (oracle : Name) (s : State) : Except Abort (Effect State) := do
  ctx.requireAuth self
  checkc ((s.oracles.find? oracle.raw).isSome = true) Err.recordNotFound.code
    "oracle account is invalid"
  return ({ s with oracles := s.oracles.erase oracle.raw }, [])

def addcoin (ctx : Ctx) (coin : Name) (s : State) : Except Abort (Effect State) := do
  ctx.requireAuth self
  checkc ((s.gstate.prices.find? coin.raw).isNone = true) Err.recordFound.code "coin is existing"
  let prices := s.gstate.prices.put ⟨coin, 0, by omega⟩
  return ({ s with gstate := { s.gstate with prices } }, [])

def removecoin (ctx : Ctx) (coin : Name) (s : State) : Except Abort (Effect State) := do
  ctx.requireAuth self
  checkc ((s.gstate.prices.find? coin.raw).isSome = true) Err.recordNotFound.code
    "coin is not found"
  let prices := s.gstate.prices.erase coin.raw
  return ({ s with gstate := { s.gstate with prices } }, [])

/-! ## Prices -/

/-- The base and the quote coin that a pair code names: `btc.usdt`. -/
def splitTpcode (tpcode : Name) : Except Abort (Name × Name) := do
  let coins := (StringView.ofText tpcode.toText).split '.'
  checkc (coins.length = 2) Err.paramError.code "tpcode format error, expect XXX.QUOTE"
  let baseCoin ← Name.ofText (coins.getD 0 default).chars
  let quoteCoin ← Name.ofText (coins.getD 1 default).chars
  return (baseCoin, quoteCoin)

/-- The check of a price against the last one, where there is one. -/
def checkLimits (oldPrice : ℕ) (amount : ℤ) : Except Abort Unit :=
  if oldPrice = 0 then .ok ()
  else do
    let upperLimit ← multiplyDecimal64 oldPrice 15 10
    let lowerLimit ← multiplyDecimal64 oldPrice 5 10
    checkc (lowerLimit < amount ∧ amount < upperLimit) Err.paramError.code
      "price not valid: out of 0.5x~1.5x last value"

/-- `prices.begin()` in the scope of a coin. -/
def State.firstPrice (s : State) (coin : Name) : Option CoinPrice :=
  s.coinPrices.rows.find? fun p => decide (p.coin = coin)

/-- `_updateprice`. -/
def updateOne (ctx : Ctx) (info : CoinPriceInfo) (s : State) : Except Abort State := do
  let (baseCoin, quoteCoin) ← splitTpcode info.tpcode
  checkc (quoteCoin = s.gstate.quoteCode) Err.recordNotFound.code
    ("quote coin is not found, expect " ++ String.ofList s.gstate.quoteCode.toText)
  checkc (info.price.symbol = s.gstate.quoteSymbol) Err.recordNotFound.code
    ("price symbol is not found, expect " ++
      String.ofList (Symbol.codeText s.gstate.quoteSymbol.code))
  let entry ← require (s.gstate.prices.find? baseCoin.raw) Err.recordNotFound.code
    ("base coin " ++ String.ofList baseCoin.toText ++ " is not registered")
  checkLimits entry.price info.price.amount
  -- an earlier element of the same vector may have written the price that was checked against
  let prices := s.gstate.prices.put ⟨baseCoin, u64 info.price.amount, u64_lt _⟩
  -- only the last report of a coin is kept
  let (id, rest) : ℕ × Table CoinPrice.key := match s.firstPrice baseCoin with
    | some row => (u64 (row.id + 1), s.coinPrices.erase row.key)
    | none => (1, s.coinPrices)
  let coinPrices ← emplace rest ⟨baseCoin, id, info.tpcode, info.price, ctx.now⟩
  return { s with gstate := { s.gstate with prices }, coinPrices }

/-- The loop of `updateprice`. -/
def updateEach (ctx : Ctx) : List CoinPriceInfo → State → Except Abort State
  | [], s => .ok s
  | info :: infos, s => do
    let s ← updateOne ctx info s
    updateEach ctx infos s

def updateprice (ctx : Ctx) (oracle : Name) (infos : List CoinPriceInfo) (s : State) :
    Except Abort (Effect State) := do
  ctx.requireAuth oracle
  checkc ((s.oracles.find? oracle.raw).isSome = true) Err.noAuth.code "oracle account is invalid"
  checkc (infos.isEmpty = false) Err.paramError.code "infos length must bigger than 0"
  let s ← updateEach ctx infos s
  return (s, [])

end Actions

/-! ## The contract -/

/-- The actions of the contract. -/
inductive Action where
  | addoracle (oracle : Name)
  | removeoracle (oracle : Name)
  | addcoin (coin : Name)
  | removecoin (coin : Name)
  | updateprice (oracle : Name) (infos : List CoinPriceInfo)

def exec (self : Name) (ctx : Ctx) : Action → State → Except Abort (Effect State)
  | .addoracle oracle => addoracle self ctx oracle
  | .removeoracle oracle => removeoracle self ctx oracle
  | .addcoin coin => addcoin self ctx coin
  | .removecoin coin => removecoin self ctx coin
  | .updateprice oracle infos => updateprice ctx oracle infos

/-- price.oracle deployed at `self`; it has no notification handler. -/
def contract (self : Name) : Contract State Action :=
  ⟨self, fun _ _ s => .ok (s, []), exec self⟩

/-- The world right after deployment: empty tables, no tokens. -/
def genesis (clock : TimePoint) : World State := ⟨.init, fun _ => 0, clock⟩

end PriceOracle
end ToolkitContracts
