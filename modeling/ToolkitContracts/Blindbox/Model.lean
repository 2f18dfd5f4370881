import ToolkitContracts.Chain.Nft
import ToolkitContracts.Chain.Text

/-!
# flon.blindbox

A booth sells the NFTs of its owner in blind boxes at a fixed price. The owner deposits NFTs
by a transfer with the memo `booth:id`; a buyer pays with the same memo and is sent as many
units, each drawn at random from what is left. The NFTs of a booth are kept twice: the box
row maps each kind to its count, and the booth row has the number of kinds and of units.
-/

namespace ToolkitContracts
namespace Blindbox

/-! ## Tables -/

/-- The codes of `enum class err` that the contract reports. -/
inductive Err where
  | recordNotFound
  | symbolMismatch
  | paramError
  | memoFormatError
  | noAuth
  | notPositive
  | oversized
  | accountInvalid
  | statusError
  | dataMismatch

def Err.code : Err → ℕ
  | .recordNotFound => 1
  | .symbolMismatch => 4
  | .paramError => 5
  | .memoFormatError => 6
  | .noAuth => 8
  | .notPositive => 9
  | .oversized => 11
  | .accountInvalid => 15
  | .statusError => 18
  | .dataMismatch => 20

def daySeconds : UInt64 := 24 * 60 * 60

structure Global where
  admin : Name := ⟨0⟩
  fundDistributor : Name := ⟨0⟩
  maxBoothBoxes : UInt16 := 30
  maxNftsPurchase : UInt16 := 10
  lastBoothId : ℕ := 0
deriving DecidableEq

inductive BoothStatus where
  | none
  | enabled
  | disabled
deriving DecidableEq

def BoothStatus.text : BoothStatus → String
  | .none => "none"
  | .enabled => "enabled"
  | .disabled => "disabled"

/-- A row of the table of booths; the times are `time_point_sec`. -/
structure Booth where
  id : ℕ
  owner : Name
  title : List Char
  nftContract : Name
  fundContract : Name
  splitPlanId : ℕ
  price : Asset
  fundRecd : Asset
  nftBoxNum : UInt64 := 0
  nftNum : UInt64 := 0
  nftNumSum : UInt64 := 0
  status : BoothStatus := .none
  createdAt : UInt32
  updatedAt : UInt32
  openedAt : UInt32
  closedAt : UInt32
deriving DecidableEq

/-- An entry of `map<nsymbol, uint64_t>`. -/
structure BoxEntry where
  symbol : Nsymbol
  count : UInt64
deriving DecidableEq

/-- `booth_nftbox_t`: what a booth has left of each kind. -/
structure BoothBox where
  boothId : ℕ
  nfts : Table fun e : BoxEntry => e.symbol.raw

structure State where
  gstate : Global
  booths : Table Booth.id
  boxes : Table BoothBox.boothId

/-- The tables of a newly deployed contract. -/
def State.init : State := ⟨{}, .empty, .empty⟩

/-- `dbc::set` without a payer, the only one the contract calls: it replaces a stored row and
inserts none. -/
def dbcSet {ρ : Type} {key : ρ → ℕ} (t : Table key) (r : ρ) : Except Abort (Table key) := do
  check ((t.find? (key r)).isSome = true) "record not found"
  return t.put r

/-- `deal_trace_s_s`. -/
structure DealTrace where
  boothId : ℕ
  buyer : Name
  nftContract : Name
  fundContract : Name
  paidQuant : Asset
  soldQuant : Nasset
  createdAt : UInt32
deriving DecidableEq

/-- What an action sends: token transfers, NFT transfers and traces of deals. -/
inductive Out where
  | pay (t : Transfer)
  | deliver (t : NftTransfer)
  | trace (d : DealTrace)
deriving DecidableEq

/-- What an action sees of the chain: its context, which split plans the account of the first
argument keeps in the scope of the second, the tapos words of the transaction, the 64 bits that
the contract takes of the SHA-256 of a text, and how many rehashes of a random number fit into
the deadline of a transaction. -/
structure Env extends Ctx where
  plans : Name → Name → ℕ → Bool
  taposBlockPrefix : ℤ
  taposBlockNum : ℤ
  sha256 : List Char → UInt64
  rehashes : ℕ

/-- `time_point_sec(current_time_point())`. -/
def Env.nowSec (env : Env) : UInt32 := UInt32.ofNat env.now.secSinceEpoch

/-- The effect of an action: the tables after it and what it sends. -/
abbrev Effects := State × List Out

section Actions
variable (self : Name)

/-! ## Booths -/

/-- The id that `createbooth` gives to the booth. -/
def State.nextBoothId (s : State) : ℕ := u64 (s.gstate.lastBoothId + 1)

/-- `closed_at`: the day count is 64 bits wide, and its seconds are narrowed to 32. -/
def closedAt (openedAt : UInt32) (durationDays : UInt64) : UInt32 :=
  openedAt + (durationDays * daySeconds).toUInt32

def createbooth (env : Env) (owner : Name) (title : List Char) (nftContract fundContract : Name)
    (splitPlanId : ℕ) (price : Asset) (openedAt : UInt32) (durationDays : UInt64) (s : State) :
    Except Abort Effects := do
  checkc (env.hasAuth self = true ∨ env.hasAuth s.gstate.admin = true) Err.noAuth.code
    "Missing required authority of admin or maintainer"
  checkc (env.isAccount owner = true) Err.accountInvalid.code "owner does not exist"
  checkc (env.isAccount fundContract = true) Err.accountInvalid.code
    "fund contract does not exist"
  checkc (env.isAccount nftContract = true) Err.accountInvalid.code "nft contract does not exist"
  checkc (0 < price.amount) Err.paramError.code "price amount not positive"
  checkc (env.plans s.gstate.fundDistributor self splitPlanId = true) Err.recordNotFound.code
    (" split plan not found : " ++ toString splitPlanId)
  let fundRecd ← Asset.new 0 price.symbol
  let booth : Booth := {
    id := s.nextBoothId
    owner, title, nftContract, fundContract, splitPlanId, price, fundRecd
    status := .enabled
    createdAt := env.nowSec
    updatedAt := env.nowSec
    openedAt
    closedAt := closedAt openedAt durationDays }
  checkc (env.nowSec < booth.closedAt) Err.paramError.code "close_at must be > opened_at"
  let booths ← dbcSet s.booths booth
  return ({ s with gstate := { s.gstate with lastBoothId := s.nextBoothId }, booths }, [])

/-- The checks that `enablebooth` and `setboothtime` make before they look at what to change. -/
def ownBooth (env : Env) (owner : Name) (boothId : ℕ) (s : State) : Except Abort Booth := do
  checkc (env.hasAuth owner = true ∨ env.hasAuth self = true ∨
    env.hasAuth s.gstate.admin = true) Err.noAuth.code "not authorized"
  let booth ← require (s.booths.find? boothId) Err.recordNotFound.code
    ("booth not found: " ++ toString boothId)
  checkc (owner = booth.owner) Err.noAuth.code "non-booth-owner unauthorized"
  return booth

def enablebooth (env : Env) (owner : Name) (boothId : ℕ) (enabled : Bool) (s : State) :
    Except Abort Effects := do
  let booth ← ownBooth self env owner boothId s
  let newStatus : BoothStatus := if enabled then .enabled else .disabled
  checkc (booth.status ≠ newStatus) Err.statusError.code "booth status not changed"
  let booths ← dbcSet s.booths { booth with status := newStatus, updatedAt := env.nowSec }
  return ({ s with booths }, [])

def setboothtime (env : Env) (owner : Name) (boothId : ℕ) (openedAt closedAt : UInt32)
    (s : State) : Except Abort Effects := do
  let booth ← ownBooth self env owner boothId s
  checkc (openedAt < closedAt ∧ env.nowSec < closedAt) Err.paramError.code
    "close_at must be > opened_at"
  let booths ← dbcSet s.booths { booth with openedAt, closedAt, updatedAt := env.nowSec }
  return ({ s with booths }, [])

/-- The refund of a box, which reads the counts as `int64_t`. -/
def BoothBox.refund (box : BoothBox) : List Nasset :=
  box.nfts.rows.map fun e => Nasset.new e.count.toNat e.symbol

def closebooth (env : Env) (owner : Name) (boothId : ℕ) (s : State) : Except Abort Effects := do
  checkc (env.hasAuth owner = true ∨ env.hasAuth self = true ∨
    env.hasAuth s.gstate.admin = true) Err.noAuth.code "not authorized to end booth"
  let booth ← require (s.booths.find? boothId) Err.recordNotFound.code
    ("booth not found: " ++ toString boothId)
  checkc (booth.status = .enabled) Err.statusError.code
    ("booth not enabled, status:" ++ booth.status.text)
  checkc (booth.owner = owner) Err.noAuth.code "not authorized to end booth"
  let box ← require (s.boxes.find? boothId) Err.recordNotFound.code "closed"
  let s := { s with boxes := s.boxes.erase boothId, booths := s.booths.erase boothId }
  if box.refund.isEmpty then return (s, [])
  else return (s, [.deliver ⟨booth.nftContract, owner, box.refund, "closebooth".toList⟩])

/-! ## Maintenance -/

def init (env : Env) (admin fundDistributor : Name) (s : State) : Except Abort Effects := do
  env.requireAuth self
  return ({ s with gstate := { s.gstate with admin, fundDistributor } }, [])

def delboothbox (env : Env) (boothId : ℕ) (nsymb : Nsymbol) (s : State) :
    Except Abort Effects := do
  env.requireAuth self
  let box ← require (s.boxes.find? boothId) none "err: booth box not found"
  let boxes ← dbcSet s.boxes { box with nfts := box.nfts.erase nsymb.raw }
  return ({ s with boxes }, [])

def setmaxbox (env : Env) (maxNum : UInt64) (s : State) : Except Abort Effects := do
  env.requireAuth self
  return ({ s with gstate := { s.gstate with maxBoothBoxes := maxNum.toUInt16 } }, [])

def fixboothbox (env : Env) (boothId : ℕ) (nfts : Nasset) (s : State) : Except Abort Effects := do
  env.requireAuth self
  let box ← require (s.boxes.find? boothId) none "err: booth box not found"
  let entry : BoxEntry := ⟨nfts.symbol, UInt64.ofNat (u64 nfts.amount)⟩
  let boxes ← dbcSet s.boxes { box with nfts := box.nfts.put entry }
  return ({ s with boxes }, [])

/-- `dealtrace` only notifies the buyer. -/
def dealtrace (env : Env) (_trace : DealTrace) (s : State) : Except Abort Effects := do
  env.requireAuth self
  return (s, [])

/-! ## Deposits -/

/-- The box after one asset arrived, and whether its kind is new. -/
def BoothBox.receive (box : BoothBox) (nft : Nasset) : BoothBox × Bool :=
  let amount := UInt64.ofNat (u64 nft.amount)
  match box.nfts.find? nft.symbol.raw with
  | some e => ({ box with nfts := box.nfts.put ⟨nft.symbol, e.count + amount⟩ }, false)
  | none => ({ box with nfts := box.nfts.put ⟨nft.symbol, amount⟩ }, true)

/-- The loop over the deposited assets, with the new units and the new kinds so far. It reads the
box again for each asset, and starts a new one where there is none. -/
def depositEach (boothId : ℕ) : List Nasset → State × UInt64 × UInt64 →
    Except Abort (State × UInt64 × UInt64)
  | [], acc => .ok acc
  | nft :: nfts, (s, newNftNum, newNftboxNum) => do
    checkc (0 < nft.amount) Err.notPositive.code "NFT amount must be positive"
    let (box, isNew) := ((s.boxes.find? boothId).getD ⟨boothId, .empty⟩).receive nft
    let boxes ← dbcSet s.boxes box
    depositEach boothId nfts ({ s with boxes }, newNftNum + UInt64.ofNat (u64 nft.amount),
      if isNew then newNftboxNum + 1 else newNftboxNum)

/-- `on_transfer_ntoken`. -/
def onTransferNtoken (env : Env) (n : NftNotice) (s : State) : Except Abort Effects := do
  if n.sender = self ∨ n.recipient ≠ self then return (s, [])
  env.requireAuth n.sender
  let memoParams := splitText n.memo ':'
  check (0 < memoParams.length) "memo_params.size() > 0"
  checkc (memoParams.getD 0 [] = "booth".toList) Err.memoFormatError.code
    "memo must start with 'booth'"
  checkc (memoParams.length = 2) Err.memoFormatError.code "ontransfer: params size not equal to 2"
  let boothId ← stoul (memoParams.getD 1 [])
  let booth ← require (s.booths.find? boothId) Err.recordNotFound.code
    ("booth not found: " ++ toString boothId)
  checkc (booth.status = .enabled) Err.statusError.code
    ("booth not enabled, status:" ++ booth.status.text)
  checkc (booth.nftContract = n.bank) Err.dataMismatch.code
    "sent NFT contract mismatches with booth nft"
  checkc (booth.owner = n.sender) Err.noAuth.code "non-booth owner not authorized"
  let (s, newNftNum, newNftboxNum) ← depositEach boothId n.assets (s, 0, 0)
  let nftBoxNum := booth.nftBoxNum + newNftboxNum
  checkc (nftBoxNum.toNat ≤ s.gstate.maxBoothBoxes.toNat) Err.oversized.code
    "booth box num exceeds allowed"
  let booths ← dbcSet s.booths
    { booth with nftBoxNum, nftNum := booth.nftNum + newNftNum
                 nftNumSum := booth.nftNumSum + newNftNum, updatedAt := env.nowSec }
  return ({ s with booths }, [])

/-! ## Purchases -/

/-- The loop of `_rand`: hash again while the number is above the limit. -/
def rehash (env : Env) (limit : UInt64) : ℕ → UInt64 → Except Abort UInt64
  | 0, r1 => if r1 ≤ limit then .ok r1 else .error ⟨none, "transaction deadline exceeded"⟩
  | fuel + 1, r1 =>
    if r1 ≤ limit then .ok r1
    else rehash env limit fuel (env.sha256 (toString r1.toNat).toList)

/-- `_rand`: a number from 1 to `range`. -/
def rand (env : Env) (range : UInt64) (owner : Name) (index : ℕ) : Except Abort UInt64 := do
  let seed := (toString env.taposBlockPrefix).toList ++ (toString env.taposBlockNum).toList ++
    (toString env.now.us).toList ++ owner.toText ++ (toString index).toList
  let r1 := env.sha256 seed
  check (range ≠ 0) "integer divide by zero"
  let max : UInt64 := 0xFFFFFFFFFFFFFFFF
  let r1 ← rehash env (max - max % range) env.rehashes r1
  return r1 % range + 1

/-- The entry at which the running total reaches the drawn number. -/
def pick (randIndex : UInt64) : UInt64 → List BoxEntry → Option BoxEntry
  | _, [] => none
  | currNum, e :: es => if randIndex ≤ currNum + e.count then some e
    else pick randIndex (currNum + e.count) es

/-- The box without one unit of an entry, and whether that was the last one. -/
def BoothBox.takeOne (box : BoothBox) (e : BoxEntry) : BoothBox × Bool :=
  if e.count - 1 = 0 then ({ box with nfts := box.nfts.erase e.symbol.raw }, true)
  else ({ box with nfts := box.nfts.put ⟨e.symbol, e.count - 1⟩ }, false)

/-- `_one_nft`. -/
def oneNft (env : Env) (owner : Name) (index : ℕ) (booth : Booth) (s : State) :
    Except Abort (State × Booth × Nasset) := do
  let box ← require (s.boxes.find? booth.id) Err.recordNotFound.code "no nftbox in the booth"
  let randIndex ← rand env booth.nftNum owner index
  -- past the last entry the source reads through an end iterator; nothing is modelled there
  let e ← require (pick randIndex 0 box.nfts.rows) none "end iterator"
  let (box, isLast) := box.takeOne e
  let booth := { booth with
    nftNum := booth.nftNum - 1
    nftBoxNum := if isLast then booth.nftBoxNum - 1 else booth.nftBoxNum }
  let boxes ← dbcSet s.boxes box
  let booths ← dbcSet s.booths booth
  return ({ s with boxes, booths }, booth, Nasset.new 1 e.symbol)

/-- The NFTs bought so far, by the id of their symbol. -/
abbrev Bought := Table fun b : Nasset => b.symbol.id.toNat

/-- Add a drawn NFT to `bought`. -/
def Bought.add (bought : Bought) (nft : Nasset) : Except Abort Bought :=
  match bought.find? nft.symbol.id.toNat with
  | none => .ok (bought.put nft)
  | some b => do
    let sum ← b.add nft
    return bought.put sum

/-- The loop that draws `count` NFTs, from the draw `i` on. -/
def drawEach (env : Env) (owner : Name) : (count i : ℕ) → State × Booth × Bought →
    Except Abort (State × Booth × Bought)
  | 0, _, acc => .ok acc
  | count + 1, i, (s, booth, bought) => do
    let (s, booth, nft) ← oneNft env owner i booth s
    let bought ← bought.add nft
    drawEach env owner count (i + 1) (s, booth, bought)

/-- The traces of the deals. -/
def traces (env : Env) (booth : Booth) (buyer : Name) : List Nasset → Except Abort (List Out)
  | [] => .ok []
  | nft :: nfts => do
    let paidQuant ← booth.price.mul nft.amount
    let rest ← traces env booth buyer nfts
    return .trace ⟨booth.id, buyer, booth.nftContract, booth.fundContract, paidQuant, nft,
      env.nowSec⟩ :: rest

/-- `_transfer_token`. -/
def transferToken (env : Env) (n : Notice) (s : State) : Except Abort Effects := do
  if n.sender = self ∨ n.recipient ≠ self then return (s, [])
  let memoParams := splitText n.memo ':'
  checkc (memoParams.length = 2) Err.memoFormatError.code
    "ontransfer:issue params size of must be 2"
  checkc (memoParams.getD 0 [] = "booth".toList) Err.memoFormatError.code "memo must be 'booth'"
  let boothId ← stoul (memoParams.getD 1 [])
  let booth ← require (s.booths.find? boothId) Err.recordNotFound.code
    ("booth not found: " ++ toString boothId)
  checkc (booth.status = .enabled) Err.statusError.code
    ("booth not enabled, status:" ++ booth.status.text)
  checkc (booth.openedAt ≤ env.nowSec) Err.statusError.code "booth not open yet"
  checkc (env.nowSec ≤ booth.closedAt) Err.statusError.code "booth closed already"
  checkc (booth.fundContract = n.bank) Err.dataMismatch.code
    "pay contract mismatches with specified"
  checkc (booth.price.symbol = n.quantity.symbol) Err.symbolMismatch.code
    "pay symbol mismatches with price"
  checkc (0 < booth.nftNum) Err.oversized.code "zero nft left"
  let count ← divTrap n.quantity.amount booth.price.amount
  checkc (0 < count) Err.paramError.code "min purchase amount must be >= 1"
  checkc (count ≤ booth.nftNum.toNat) Err.paramError.code "Insufficient remaining quantity"
  checkc (count ≤ s.gstate.maxNftsPurchase.toNat) Err.paramError.code
    ("max purchase amount must be <= " ++ toString s.gstate.maxNftsPurchase.toNat)
  let paid ← booth.price.mul count
  let left ← n.quantity.sub paid
  let fundRecd ← booth.fundRecd.add paid
  let booth := { booth with fundRecd, updatedAt := env.nowSec }
  let recvMemo := "plan:".toList ++ (toString booth.splitPlanId).toList ++ ":1".toList
  let pays : List Out :=
    .pay ⟨booth.fundContract, s.gstate.fundDistributor, paid, recvMemo⟩ ::
      if 0 < left.amount then
        [.pay ⟨booth.fundContract, n.sender, left, "rndnft.mart change".toList⟩]
      else []
  let (s, booth, bought) ← drawEach env n.sender count.toNat 0 (s, booth, .empty)
  let deals ← traces env booth n.sender bought.rows
  return (s, pays ++ deals ++ [.deliver ⟨booth.nftContract, n.sender, bought.rows,
    "booth: ".toList ++ (toString booth.id).toList⟩])

end Actions

/-! ## The contract -/

/-- The actions of the contract. -/
inductive Action where
  | createbooth (owner : Name) (title : List Char) (nftContract fundContract : Name)
      (splitPlanId : ℕ) (price : Asset) (openedAt : UInt32) (durationDays : UInt64)
  | enablebooth (owner : Name) (boothId : ℕ) (enabled : Bool)
  | setboothtime (owner : Name) (boothId : ℕ) (openedAt closedAt : UInt32)
  | closebooth (owner : Name) (boothId : ℕ)
  | dealtrace (trace : DealTrace)
  | delboothbox (boothId : ℕ) (nsymb : Nsymbol)
  | setmaxbox (maxNum : UInt64)
  | fixboothbox (boothId : ℕ) (nfts : Nasset)
  | init (admin fundDistributor : Name)

/-- An input of the contract: a transfer of a token or of NFTs, or one of its actions. -/
inductive Input where
  | token (n : Notice)
  | ntoken (n : NftNotice)
  | act (a : Action)

section Contract
variable (self : Name)

def exec (env : Env) : Action → State → Except Abort Effects
  | .createbooth owner title nftContract fundContract splitPlanId price openedAt durationDays =>
    createbooth self env owner title nftContract fundContract splitPlanId price openedAt
      durationDays
  | .enablebooth owner boothId enabled => enablebooth self env owner boothId enabled
  | .setboothtime owner boothId openedAt closedAt => setboothtime self env owner boothId openedAt
      closedAt
  | .closebooth owner boothId => closebooth self env owner boothId
  | .dealtrace trace => dealtrace self env trace
  | .delboothbox boothId nsymb => delboothbox self env boothId nsymb
  | .setmaxbox maxNum => setmaxbox self env maxNum
  | .fixboothbox boothId nfts => fixboothbox self env boothId nfts
  | .init admin fundDistributor => init self env admin fundDistributor

/-- The contract's own code on an input. -/
def run (env : Env) (i : Input) (s : State) : Except Abort Effects :=
  match i with
  | .token n => transferToken self env n s
  | .ntoken n => onTransferNtoken self env n s
  | .act a => exec self env a s

end Contract

end Blindbox
end ToolkitContracts
