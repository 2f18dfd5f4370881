import ToolkitContracts.Chain.Contract

/-!
# tokensummary

The administrator keeps a list of tokens, each a pair of a token contract (the `bank`) and a
symbol, and `view` reports the balances of an account in the listed tokens. The list is a
table with a composite primary key of 128 bits, the bank in the upper half and the symbol
code in the lower one. `multi_index` stores and finds rows by keys of 64 bits, to which it
narrows what `primary_key` returns.
-/

namespace ToolkitContracts
namespace TokenSummary

/-! ## Tables -/

structure Global where
  admin : Name := .lit "flonian"

structure TokenCfg where
  bank : Name
  sym : Symbol
deriving DecidableEq

/-- `make_tokencfg_pk`, a `uint128_t`. -/
def makeTokencfgPk (bank : Name) (sym : Symbol) : ℕ := bank.raw <<< 64 ||| sym.code

def TokenCfg.primaryKey (cfg : TokenCfg) : ℕ := makeTokencfgPk cfg.bank cfg.sym

/-- The key under which `multi_index` stores a row. -/
def TokenCfg.key (cfg : TokenCfg) : ℕ := u64 cfg.primaryKey

structure State where
  gstate : Global
  tokens : Table TokenCfg.key

/-- The tables of a newly deployed contract. -/
def State.init : State := ⟨{}, .empty⟩

/-- A line of a `TokenSummary`. -/
structure TokenInfo where
  code : Name
  balance : List Char
  coin : List Char
deriving DecidableEq

section Actions
variable (self : Name)

def init (ctx : Ctx) (admin : Name) (s : State) : Except Abort (Effect State) := do
  ctx.requireAuth self
  return ({ s with gstate := { s.gstate with admin } }, [])

def addtoken (ctx : Ctx) (bank : Name) (sym : Symbol) (s : State) :
    Except Abort (Effect State) := do
  ctx.requireAuth s.gstate.admin
  check (ctx.isAccount bank = true) "bank account not exist"
  check (sym.isValid = true) "invalid symbol"
  check ((s.tokens.find? (u64 (makeTokencfgPk bank sym))).isNone = true) "token already in list"
  let tokens ← emplace s.tokens ⟨bank, sym⟩
  return ({ s with tokens }, [])

def deltoken (ctx : Ctx) (bank : Name) (sym : Symbol) (s : State) :
    Except Abort (Effect State) := do
  ctx.requireAuth s.gstate.admin
  let row ← require (s.tokens.find? (u64 (makeTokencfgPk bank sym))) none "token not found"
  return ({ s with tokens := s.tokens.erase row.key }, [])

end Actions

/-! ## The summary of an account -/

section View
-- the `accounts` tables of the token contracts: what a contract keeps for an account under a
-- symbol code
variable (accounts : Name → Name → ℕ → Option Asset)

/-- `_balance`. -/
def balance (bank : Name) (symb : Symbol) (account : Name) : Except Abort Asset :=
  match accounts bank account symb.code with
  | some balance => .ok balance
  | none => Asset.new 0 symb

/-- `format_amount`. -/
def formatAmount (amount : ℤ) (precision : ℕ) : List Char :=
  let s := (toString amount.natAbs).toList
  let s :=
    if 0 < precision then
      let s :=
        if s.length ≤ precision then List.replicate (precision - s.length + 1) '0' ++ s else s
      s.take (s.length - precision) ++ '.' :: s.drop (s.length - precision)
    else s
  if amount < 0 then '-' :: s else s

/-- The loop of `view`. -/
def viewEach (account : Name) : List TokenCfg → Except Abort (List TokenInfo)
  | [] => .ok []
  | row :: rows => do
    let _ ← Asset.new 0 row.sym
    let bal ← balance accounts row.bank row.sym account
    let tokens ← viewEach account rows
    return if 0 < bal.amount then
      ⟨row.bank, formatAmount bal.amount bal.symbol.precision, Symbol.codeText bal.symbol.code⟩
        :: tokens
    else tokens

/-- `view`, a read-only action. -/
def view (account : Name) (s : State) : Except Abort (List TokenInfo) :=
  viewEach accounts account s.tokens.rows

end View

/-! ## The contract -/

/-- The actions of the contract that change its tables. -/
inductive Action where
  | init (admin : Name)
  | addtoken (bank : Name) (sym : Symbol)
  | deltoken (bank : Name) (sym : Symbol)

def exec (self : Name) (ctx : Ctx) : Action → State → Except Abort (Effect State)
  | .init admin => init self ctx admin
  | .addtoken bank sym => addtoken ctx bank sym
  | .deltoken bank sym => deltoken ctx bank sym

/-- tokensummary deployed at `self`; it has no notification handler. -/
def contract (self : Name) : Contract State Action :=
  ⟨self, fun _ _ s => .ok (s, []), exec self⟩

/-- The world right after deployment: an empty list, no tokens. -/
def genesis (clock : TimePoint) : World State := ⟨.init, fun _ => 0, clock⟩

end TokenSummary
end ToolkitContracts
