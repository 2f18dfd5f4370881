import ToolkitContracts.Chain.Contract
import ToolkitContracts.Chain.Key

/-!
# pubkey.token

A transfer of FLON with a public key as its memo is booked to that key. The holder of the key
signs for the tokens, and a miner presents the signature: `newaccount` creates an account
with the key and sends the tokens there, `move` sends them to an existing account; both keep
a fee for the miner out of the tokens and erase the row.

Rows are indexed by the SHA-256 hash of the packed key. The three lookups hash the memory of
the key object instead. Hashing, the two images of a key and signature recovery are code of
the chain, which the model takes as a parameter.
-/

namespace ToolkitContracts
namespace PubkeyToken

/-! ## Constants and tables -/

/-- `err::NO_AUTH`. -/
def errNoAuth : ℕ := 9

def flonSymbol : Symbol := .lit "FLON" 8

theorem flonSymbol_isValid : flonSymbol.isValid = true := by decide

/-- `SYS_BANK`. -/
def sysBank : Name := .lit "flon.token"

/-- `FLON_CONTRACT`. -/
def flonContract : Name := .lit "flon"

/-- The token that the contract books. -/
def flonToken : ExtendedSymbol := ⟨flonSymbol, sysBank⟩

/-- A valid amount of FLON: every asset that the contract stores is one. -/
abbrev FlonAsset := { a : Asset // a.isValid ∧ a.symbol = flonSymbol }

namespace FlonAsset

/-- The amount of an asset of FLON. -/
def amount (a : FlonAsset) : ℤ := a.1.amount

/-- `asset(amount, FLON_SYMBOL)` for an amount within range. -/
def ofAmount (x : ℤ) (hx : -Asset.maxAmount ≤ x ∧ x ≤ Asset.maxAmount) : FlonAsset :=
  ⟨⟨x, flonSymbol, by unfold Asset.maxAmount at hx; omega⟩, ⟨hx, flonSymbol_isValid⟩, rfl⟩

/-- `asset::operator+=`. -/
def add (a b : FlonAsset) : Except Abort FlonAsset :=
  match h : a.1.add b.1 with
  | .ok r => .ok ⟨r, Asset.isValid_of_add h a.2.1, (Asset.symbol_of_add h).trans a.2.2⟩
  | .error e => .error e

theorem amount_of_add {a b r : FlonAsset} (h : a.add b = .ok r) :
    r.amount = a.amount + b.amount := by
  unfold add at h
  split at h
  · next r' hr =>
    rw [Except.ok.injEq] at h
    rw [← h]
    exact Asset.amount_of_add_range hr a.2.1.1 b.2.1.1
  · cases h

end FlonAsset

/-- `global_t`. -/
structure Global where
  admin : Name
  lastIdx : ℕ := 0
  minerFee : FlonAsset := .ofAmount 1000 (by decide)

/-- `pubkey_account_t`. -/
structure PubkeyAccount where
  id : ℕ
  pubkey : PublicKey
  quantity : FlonAsset
  lastRecvAt : TimePoint

structure State where
  gstate : Global
  pkaccts : Table PubkeyAccount.id

/-- The tables of a newly deployed contract: the admin is the contract's own account. -/
def State.init (self : Name) : State := ⟨{ admin := self }, .empty⟩

/-! ## Keys and signatures -/

/-- The code of the chain and of its contract library that the contract calls on keys, for
digests `D` and signatures `S`. -/
structure Crypto (D S : Type) where
  /-- `eosio::sha256`. -/
  sha256 : List UInt8 → D
  /-- `eosio::pack` of a key. -/
  pack : PublicKey → List UInt8
  /-- The memory of a key object, `sizeof(public_key)` bytes long. Some of the bytes are
  padding, whose values are those of the transaction. -/
  image : Ctx → PublicKey → List UInt8
  /-- `assert_recover_key` accepts the signature of the digest for the key. -/
  recovers : D → S → PublicKey → Bool

namespace Crypto

variable {D S : Type} (C : Crypto D S)

/-- `sha256pk`, the key of the index `by.pubkey`. -/
def sha256pk (pubkey : PublicKey) : D := C.sha256 (C.pack pubkey)

/-- The digest that the lookups search for. -/
def imageHash (ctx : Ctx) (pubkey : PublicKey) : D := C.sha256 (C.image ctx pubkey)

/-- `hash_account`. -/
def hashAccount (account : Name) (tp : TimePoint) : D :=
  C.sha256 ((account.toText ++ (toString tp.secSinceEpoch).toList).map
    fun c => UInt8.ofNat c.toNat)

/-- `assert_recover_key`. -/
def assertRecoverKey (digest : D) (sig : S) (pubkey : PublicKey) : Except Abort Unit :=
  check (C.recovers digest sig pubkey = true) "Error expected key different than recovered key"

end Crypto

/-! ## The system contract -/

/-- `authority` with keys only. -/
structure Authority where
  threshold : ℕ
  keys : List (PublicKey × ℕ)

/-- The actions of the system contract that the contract sends. -/
inductive SystemAction where
  | newaccount (creator name : Name) (owner active : Authority)
  | buygas (payer receiver : Name) (quant : Asset)

/-- What an action of the system contract takes from the account `self`: `buygas` charges its
payer. -/
def SystemAction.charge (self : Name) : SystemAction → List Transfer
  | .newaccount _ _ _ _ => []
  | .buygas payer _ quant => if payer = self then [⟨sysBank, flonContract, quant, []⟩] else []

/-- The gas that is bought for a new account. -/
def gasQuant : FlonAsset := .ofAmount 1000000 (by decide)

section Actions
variable {D S : Type} [DecidableEq D] [DecidableEq S] [Inhabited S] (C : Crypto D S) (self : Name)

/-! ## Deposits -/

/-- `idx.find` with the hash of a key object: the row with the lowest id among those whose
index key is that hash. -/
def State.find (s : State) (ctx : Ctx) (pubkey : PublicKey) : Option PubkeyAccount :=
  s.pkaccts.rows.find? fun r => decide (C.sha256pk r.pubkey = C.imageHash ctx pubkey)

/-- `_on_pubkey_recv_token`. -/
def onPubkeyRecvToken (ctx : Ctx) (pubkey : PublicKey) (quantity : FlonAsset) (s : State) :
    Except Abort (Effect State) :=
  match s.find C ctx pubkey with
  | none => do
    -- `last_idx++` wraps around; `emplace` fails when the id is taken
    let lastIdx := u64 (s.gstate.lastIdx + 1)
    let pkaccts ← emplace s.pkaccts { id := lastIdx, pubkey, quantity, lastRecvAt := ctx.now }
    return ({ s with gstate := { s.gstate with lastIdx }, pkaccts }, [])
  | some row => do
    let quantity ← row.quantity.add quantity
    return ({ s with pkaccts := s.pkaccts.put { row with quantity, lastRecvAt := ctx.now } }, [])

def ontransfer (ctx : Ctx) (n : Notice) (s : State) : Except Abort (Effect State) :=
  if n.recipient ≠ self ∨ n.sender = self then .ok (s, [])
  else do
    check (n.bank = sysBank) "Only `flon.token` is supported"
    let hsymbol ← checkThat (n.quantity.symbol = flonSymbol) "Only FLON tokens are supported"
    let pubkey ← strToPubkey n.memo
    onPubkeyRecvToken C ctx pubkey ⟨n.quantity, n.valid, hsymbol.down⟩ s

/-! ## Withdrawals -/

/-- The two transfers of a withdrawal: the fee for the miner, and the rest if there is one. -/
def payments (quantity minerFee : FlonAsset) (miner recipient : Name) (feeMemo memo : List Char) :
    Except Abort (List Transfer) := do
  let fee : Transfer := ⟨sysBank, miner, minerFee.1, feeMemo⟩
  quantity.1.comparable minerFee.1
  -- a row of exactly the fee leaves nothing to send
  if minerFee.amount < quantity.amount then do
    let rest ← quantity.1.sub minerFee.1
    return [fee, ⟨sysBank, recipient, rest, memo⟩]
  else return [fee]

/-- `_newaccount`. -/
def sendNewaccount (account : Name) (pubkey : PublicKey) : List SystemAction :=
  let ownerAuth : Authority := ⟨1, [(pubkey, 1)]⟩
  let activeAuth : Authority := ⟨1, [(pubkey, 1)]⟩
  [.newaccount self account ownerAuth activeAuth, .buygas self account gasQuant.1]

def newaccount (ctx : Ctx) (miner : Name) (pubkey : PublicKey) (acct : Name) (sig : S) (s : State) :
    Except Abort (Effect State) := do
  ctx.requireAuth miner
  check (ctx.isAccount acct = false) "Account already exists"
  let row ← require (s.find C ctx pubkey) none "pubkey not found"
  row.quantity.1.comparable s.gstate.minerFee.1
  check (s.gstate.minerFee.amount ≤ row.quantity.amount) "insufficient proxy miner fees to pay"
  -- the time of the last deposit is part of the digest, as read from the row
  C.assertRecoverKey (C.hashAccount acct row.lastRecvAt) sig pubkey
  let sent := sendNewaccount self acct pubkey
  let paid ← payments row.quantity s.gstate.minerFee miner acct
    ("newaccount fee: ".toList ++ acct.toText) "newaccount pubkey token collection".toList
  -- the gas is charged when the system contract runs, before the two transfers
  return ({ s with pkaccts := s.pkaccts.erase row.id }, sent.flatMap (·.charge self) ++ paid)

def move (ctx : Ctx) (miner : Name) (pubkey : PublicKey) (lastRecvAt : TimePoint) (toAcct : Name)
    (sig : S) (s : State) : Except Abort (Effect State) := do
  check (ctx.isAccount toAcct = true) "Account does not exist"
  check (pubkey ≠ default) "Invalid public key"
  check (sig ≠ default) "Invalid signature"
  let row ← require (s.find C ctx pubkey) none "pubkey not found"
  row.quantity.1.comparable s.gstate.minerFee.1
  check (s.gstate.minerFee.amount ≤ row.quantity.amount) "insufficient proxy miner fees to pay"
  C.assertRecoverKey (C.hashAccount toAcct lastRecvAt) sig pubkey
  -- here the caller hands in the time, and it is compared after the signature
  check (row.lastRecvAt = lastRecvAt) "Invalid last transfer time"
  let paid ← payments row.quantity s.gstate.minerFee miner toAcct
    ("move fee: ".toList ++ toAcct.toText) "move pubkey tokens to account".toList
  return ({ s with pkaccts := s.pkaccts.erase row.id }, paid)

def init (ctx : Ctx) (admin : Name) (s : State) : Except Abort (Effect State) := do
  checkc (ctx.hasAuth self = true ∨ ctx.hasAuth s.gstate.admin = true) errNoAuth
    "no auth for operate"
  return ({ s with gstate := { s.gstate with admin } }, [])

end Actions

/-! ## The contract -/

/-- The actions of the contract. -/
inductive Action (S : Type) where
  | newaccount (miner : Name) (pubkey : PublicKey) (acct : Name) (sig : S)
  | move (miner : Name) (pubkey : PublicKey) (lastRecvAt : TimePoint) (toAcct : Name) (sig : S)
  | init (admin : Name)

section Contract
variable {D S : Type} [DecidableEq D] [DecidableEq S] [Inhabited S] (C : Crypto D S) (self : Name)

def exec (ctx : Ctx) : Action S → State → Except Abort (Effect State)
  | .newaccount miner pubkey acct sig => newaccount C self ctx miner pubkey acct sig
  | .move miner pubkey lastRecvAt toAcct sig => move C ctx miner pubkey lastRecvAt toAcct sig
  | .init admin => init self ctx admin

/-- pubkey.token deployed at `self`. -/
def contract : Contract State (Action S) := ⟨self, ontransfer C self, exec C self⟩

end Contract

/-- The world right after deployment: no rows, and no tokens on the account. -/
def genesis (self : Name) (clock : TimePoint) : World State := ⟨.init self, fun _ => 0, clock⟩

end PubkeyToken
end ToolkitContracts
