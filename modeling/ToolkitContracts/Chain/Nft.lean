import ToolkitContracts.Chain.Contract

/-!
# Non-fungible tokens

`nsymbol` and `nasset` of the NFT contracts, the notifications they send and the transfers
they carry out. As with the fungible ones, an NFT contract moves exactly the assets it
notifies, and refuses a transfer to the sender itself, an amount that is not positive and one
that the sender's balance does not cover.
-/

namespace ToolkitContracts

/-- A kind of NFT. -/
structure Nsymbol where
  id : UInt32
  parentId : UInt32
deriving DecidableEq

namespace Nsymbol

/-- `raw`: the parent in the upper half, the id in the lower one. -/
def raw (s : Nsymbol) : ℕ := s.parentId.toNat * 2 ^ 32 + s.id.toNat

theorem raw_inj {a b : Nsymbol} : a.raw = b.raw ↔ a = b := by
  constructor
  · intro h
    have ha : a.id.toNat < 2 ^ 32 := a.id.toNat_lt
    have hb : b.id.toNat < 2 ^ 32 := b.id.toNat_lt
    unfold raw at h
    have hid : a.id = b.id := UInt32.toNat_inj.mp (by omega)
    have hparent : a.parentId = b.parentId := UInt32.toNat_inj.mp (by omega)
    cases a
    cases b
    simp only at hid hparent
    rw [hid, hparent]
  · intro h
    rw [h]

end Nsymbol

/-- An amount of one kind of NFT. -/
@[ext] structure Nasset where
  amount : ℤ
  symbol : Nsymbol
  bounds : -2 ^ 63 ≤ amount ∧ amount < 2 ^ 63

instance : DecidableEq Nasset := fun _ _ => decidable_of_iff _ Nasset.ext_iff.symm

namespace Nasset

/-- `nasset(int64_t, nsymbol)`. -/
def new (amount : ℤ) (symbol : Nsymbol) : Nasset := ⟨i64 amount, symbol, i64_bounds amount⟩

@[simp] theorem amount_new (amount : ℤ) (symbol : Nsymbol) :
    (new amount symbol).amount = i64 amount := rfl

/-- `nasset::operator+=`, which does not look for an overflow. -/
def add (a b : Nasset) : Except Abort Nasset := do
  check (b.symbol.raw = a.symbol.raw) "nsymbol mismatch"
  return new (a.amount + b.amount) a.symbol

end Nasset

/-- The units of one kind in a list of assets. -/
def unitsOf (sym : Nsymbol) : List Nasset → ℤ
  | [] => 0
  | a :: as => (if a.symbol = sym then a.amount else 0) + unitsOf sym as

@[simp] theorem unitsOf_nil (sym : Nsymbol) : unitsOf sym [] = 0 := rfl

@[simp] theorem unitsOf_cons (sym : Nsymbol) (a : Nasset) (as : List Nasset) :
    unitsOf sym (a :: as) = (if a.symbol = sym then a.amount else 0) + unitsOf sym as := rfl

/-- The notification of an NFT transfer. -/
structure NftNotice where
  bank : Name
  sender : Name
  recipient : Name
  assets : List Nasset
  memo : List Char

/-- A transfer of NFTs that a contract orders from its own account. -/
structure NftTransfer where
  bank : Name
  recipient : Name
  assets : List Nasset
  memo : List Char
deriving DecidableEq

/-- The NFTs an account holds at each contract. -/
abbrev NftHolding := Name → Nsymbol → ℤ

namespace NftHolding

/-- Add assets of the contract `bank`. -/
def credit (h : NftHolding) (bank : Name) (assets : List Nasset) : NftHolding :=
  fun b sym => if b = bank then h b sym + unitsOf sym assets else h b sym

/-- The contract `bank` takes the assets out, one after the other. -/
def debit (bank : Name) : List Nasset → NftHolding → Except Abort NftHolding
  | [], h => .ok h
  | a :: as, h => do
    check (0 < a.amount) "must transfer positive quantity"
    check (a.amount ≤ h bank a.symbol) "overdrawn balance"
    debit bank as fun b sym =>
      if b = bank ∧ sym = a.symbol then h b sym - a.amount else h b sym

/-- Assets that were taken out are positive amounts. -/
theorem pos_of_debit {bank : Name} {as : List Nasset} {h h' : NftHolding}
    (hd : debit bank as h = .ok h') {a : Nasset} (ha : a ∈ as) : 0 < a.amount := by
  induction as generalizing h with
  | nil => simp at ha
  | cons b as ih =>
    simp only [debit, bind_eq_ok, check_eq_ok, exists_const] at hd
    rcases List.mem_cons.mp ha with rfl | ha
    · exact hd.1
    · exact ih hd.2.2 ha

end NftHolding

end ToolkitContracts
