import ToolkitContracts.Blindbox.World
import Mathlib.Algebra.Order.Group.Nat

/-!
# What a box holds

A box is read as a function from kinds to counts, with a total and a number of kinds. Receiving
assets adds to the counts modulo 2^64, so it is exact for every kind exactly when no count
passes 2^64; and then the total and the number of kinds are exact, too. Taking out a drawn
unit is always exact.
-/

namespace ToolkitContracts
namespace Blindbox

/-- How many units of a kind a box holds. -/
def BoothBox.count (box : BoothBox) (sym : Nsymbol) : ℕ :=
  (box.nfts.find? sym.raw).elim 0 fun e => e.count.toNat

/-- How many units a box holds. -/
def BoothBox.total (box : BoothBox) : ℕ := box.nfts.sum fun e => e.count.toNat

/-- How many kinds a box has an entry for. -/
def BoothBox.kinds (box : BoothBox) : ℕ := box.nfts.rows.length

/-- The box after a list of assets arrived. -/
def BoothBox.receiveAll : BoothBox → List Nasset → BoothBox
  | box, [] => box
  | box, nft :: nfts => (box.receive nft).1.receiveAll nfts

/-- How many of the assets bring a kind that the box does not have by then. -/
def BoothBox.newKinds : BoothBox → List Nasset → ℕ
  | _, [] => 0
  | box, nft :: nfts =>
    (if (box.receive nft).2 = true then 1 else 0) + (box.receive nft).1.newKinds nfts

/-- How many units there are in a list of assets. -/
def totalUnits : List Nasset → ℤ
  | [] => 0
  | a :: as => a.amount + totalUnits as

/-- No count passes 2^64 when the assets arrive. -/
def BoothBox.Fits (box : BoothBox) (nfts : List Nasset) : Prop :=
  ∀ sym, (box.count sym : ℤ) + unitsOf sym nfts < 2 ^ 64

/-- How many units of a kind the contract has in the box of a booth. -/
def State.units (s : State) (boothId : ℕ) (sym : Nsymbol) : ℕ :=
  (s.boxes.find? boothId).elim 0 fun box => box.count sym

section Counts
variable {box : BoothBox} {nft : Nasset} {nfts : List Nasset} {sym : Nsymbol} {e : BoxEntry}

theorem count_lt (box : BoothBox) (sym : Nsymbol) : box.count sym < 2 ^ 64 := by
  unfold BoothBox.count
  cases box.nfts.find? sym.raw with
  | none =>
    show 0 < 2 ^ 64
    omega
  | some e => exact e.count.toNat_lt

theorem count_of_find (h : box.nfts.find? sym.raw = some e) : box.count sym = e.count.toNat := by
  unfold BoothBox.count
  rw [h]
  rfl

theorem count_of_none (h : box.nfts.find? sym.raw = none) : box.count sym = 0 := by
  unfold BoothBox.count
  rw [h]
  rfl

theorem units_eq_count {s : State} {boothId : ℕ} (h : s.boxes.find? boothId = some box)
    (sym : Nsymbol) : s.units boothId sym = box.count sym := by
  unfold State.units
  rw [h]
  rfl

theorem units_of_none {s : State} {boothId : ℕ} (h : s.boxes.find? boothId = none)
    (sym : Nsymbol) : s.units boothId sym = 0 := by
  unfold State.units
  rw [h]
  rfl

/-- The count of a kind after its entry was written. -/
theorem count_put (box : BoothBox) (e : BoxEntry) (sym : Nsymbol) :
    ({ box with nfts := box.nfts.put e } : BoothBox).count sym
      = if e.symbol = sym then e.count.toNat else box.count sym := by
  unfold BoothBox.count
  rw [Table.find?_put]
  by_cases hsym : e.symbol = sym
  · rw [if_pos (congrArg Nsymbol.raw hsym.symm), if_pos hsym]
    rfl
  · rw [if_neg fun hraw => hsym (Nsymbol.raw_inj.mp hraw).symm, if_neg hsym]

/-- The count of a kind after an entry was removed. -/
theorem count_erase (box : BoothBox) (s sym : Nsymbol) :
    ({ box with nfts := box.nfts.erase s.raw } : BoothBox).count sym
      = if s = sym then 0 else box.count sym := by
  unfold BoothBox.count
  rw [Table.find?_erase]
  by_cases hsym : s = sym
  · rw [if_pos (congrArg Nsymbol.raw hsym.symm), if_pos hsym]
    rfl
  · rw [if_neg fun hraw => hsym (Nsymbol.raw_inj.mp hraw).symm, if_neg hsym]

theorem unitsOf_nonneg (h : ∀ nft ∈ nfts, 0 < nft.amount) : 0 ≤ unitsOf sym nfts := by
  induction nfts with
  | nil => exact le_rfl
  | cons nft nfts ih =>
    have hpos := h nft (List.mem_cons_self ..)
    have hrest := ih fun a ha => h a (List.mem_cons_of_mem _ ha)
    rw [unitsOf_cons]
    split <;> omega

/-- An `int64_t` amount that is positive is the same as a `uint64_t`. -/
theorem toNat_amount (hpos : 0 < nft.amount) :
    ((UInt64.ofNat (u64 nft.amount)).toNat : ℤ) = nft.amount := by
  have hbounds := nft.bounds
  have hexact : (u64 nft.amount : ℤ) = nft.amount := u64_eq (by omega) (by omega)
  rw [UInt64.toNat_ofNat', Nat.mod_eq_of_lt (u64_lt _)]
  exact hexact

/-! ## Receiving assets -/

/-- An asset of a new kind. -/
theorem receive_of_none (h : box.nfts.find? nft.symbol.raw = none) :
    box.receive nft
      = ({ box with nfts := box.nfts.put ⟨nft.symbol, UInt64.ofNat (u64 nft.amount)⟩ }, true) := by
  unfold BoothBox.receive
  rw [h]

/-- An asset of a kind that the box has. -/
theorem receive_of_some (h : box.nfts.find? nft.symbol.raw = some e) :
    box.receive nft = ({ box with
      nfts := box.nfts.put ⟨nft.symbol, e.count + UInt64.ofNat (u64 nft.amount)⟩ }, false) := by
  unfold BoothBox.receive
  rw [h]

@[simp] theorem boothId_receive (box : BoothBox) (nft : Nasset) :
    (box.receive nft).1.boothId = box.boothId := by
  unfold BoothBox.receive
  cases box.nfts.find? nft.symbol.raw <;> rfl

/-- An arriving asset is added to the count of its kind, modulo 2^64. -/
theorem count_receive (hpos : 0 < nft.amount) :
    ((box.receive nft).1.count sym : ℤ)
      = if nft.symbol = sym then ((box.count sym : ℤ) + nft.amount) % 2 ^ 64
        else (box.count sym : ℤ) := by
  have hamount := toNat_amount hpos
  have hlt : (UInt64.ofNat (u64 nft.amount)).toNat < 2 ^ 64 := UInt64.toNat_lt _
  cases hfind : box.nfts.find? nft.symbol.raw with
  | none =>
    rw [receive_of_none hfind, count_put]
    by_cases hsym : nft.symbol = sym
    · rw [if_pos hsym, if_pos hsym, ← hsym, count_of_none hfind]
      simp only
      omega
    · rw [if_neg hsym, if_neg hsym]
  | some e =>
    rw [receive_of_some hfind, count_put]
    by_cases hsym : nft.symbol = sym
    · rw [if_pos hsym, if_pos hsym, ← hsym, count_of_find hfind, UInt64.toNat_add]
      omega
    · rw [if_neg hsym, if_neg hsym]

/-- While the count of the kind stays below 2^64, an arriving asset adds to the total. -/
theorem total_receive (hpos : 0 < nft.amount)
    (hfits : (box.count nft.symbol : ℤ) + nft.amount < 2 ^ 64) :
    ((box.receive nft).1.total : ℤ) = box.total + nft.amount := by
  have hamount := toNat_amount hpos
  unfold BoothBox.total
  cases hfind : box.nfts.find? nft.symbol.raw with
  | none =>
    have hsum : ((box.nfts.put ⟨nft.symbol, UInt64.ofNat (u64 nft.amount)⟩).sum fun e =>
        e.count.toNat)
        = (box.nfts.sum fun e => e.count.toNat) + (UInt64.ofNat (u64 nft.amount)).toNat :=
      Table.sum_put_new (x := (⟨nft.symbol, UInt64.ofNat (u64 nft.amount)⟩ : BoxEntry)) hfind _
    rw [receive_of_none hfind]
    simp only
    omega
  | some e =>
    rw [count_of_find hfind] at hfits
    have hexact : (e.count + UInt64.ofNat (u64 nft.amount)).toNat
        = e.count.toNat + (UInt64.ofNat (u64 nft.amount)).toNat := by
      rw [UInt64.toNat_add]
      omega
    have hsum : ((box.nfts.put ⟨nft.symbol, e.count + UInt64.ofNat (u64 nft.amount)⟩).sum fun e =>
        e.count.toNat) + e.count.toNat
        = (box.nfts.sum fun e => e.count.toNat)
          + (e.count + UInt64.ofNat (u64 nft.amount)).toNat :=
      Table.sum_put_old
        (x := (⟨nft.symbol, e.count + UInt64.ofNat (u64 nft.amount)⟩ : BoxEntry)) hfind _
    rw [receive_of_some hfind]
    simp only
    omega

theorem kinds_receive (box : BoothBox) (nft : Nasset) :
    (box.receive nft).1.kinds = box.kinds + if (box.receive nft).2 = true then 1 else 0 := by
  unfold BoothBox.kinds
  cases hfind : box.nfts.find? nft.symbol.raw with
  | none =>
    rw [receive_of_none hfind]
    exact Table.length_put_new hfind
  | some e =>
    rw [receive_of_some hfind]
    exact Table.length_put_old hfind

/-- The counts are positive. -/
def BoothBox.Positive (box : BoothBox) : Prop := ∀ e ∈ box.nfts, 0 < e.count.toNat

theorem positive_receive (hpos : 0 < nft.amount) (hbox : box.Positive)
    (hfits : (box.count nft.symbol : ℤ) + nft.amount < 2 ^ 64) :
    (box.receive nft).1.Positive := by
  have hamount := toNat_amount hpos
  cases hfind : box.nfts.find? nft.symbol.raw with
  | none =>
    rw [receive_of_none hfind]
    apply Table.forall_put hbox
    show 0 < (UInt64.ofNat (u64 nft.amount)).toNat
    omega
  | some e =>
    rw [count_of_find hfind] at hfits
    rw [receive_of_some hfind]
    apply Table.forall_put hbox
    show 0 < (e.count + UInt64.ofNat (u64 nft.amount)).toNat
    rw [UInt64.toNat_add]
    omega

/-- A list of assets that fits leaves room for the rest of it. -/
theorem fits_receive (hpos : ∀ a ∈ nft :: nfts, 0 < a.amount) (hfits : box.Fits (nft :: nfts)) :
    (box.count nft.symbol : ℤ) + nft.amount < 2 ^ 64 ∧ (box.receive nft).1.Fits nfts := by
  have hnft := hpos nft (List.mem_cons_self ..)
  have hrest : ∀ sym, 0 ≤ unitsOf sym nfts :=
    fun sym => unitsOf_nonneg fun a ha => hpos a (List.mem_cons_of_mem _ ha)
  constructor
  · have hsym := hfits nft.symbol
    have hmore := hrest nft.symbol
    rw [unitsOf_cons, if_pos rfl] at hsym
    omega
  · intro sym
    have hsym := hfits sym
    have hmore := hrest sym
    rw [unitsOf_cons] at hsym
    rw [count_receive hnft]
    by_cases heq : nft.symbol = sym
    · rw [if_pos heq] at hsym ⊢
      rw [Int.emod_eq_of_lt (by omega) (by omega)]
      omega
    · rw [if_neg heq] at hsym ⊢
      omega

theorem count_receiveAll (hpos : ∀ a ∈ nfts, 0 < a.amount) :
    ((box.receiveAll nfts).count sym : ℤ)
      = ((box.count sym : ℤ) + unitsOf sym nfts) % 2 ^ 64 := by
  induction nfts generalizing box with
  | nil =>
    have hlt := count_lt box sym
    unfold BoothBox.receiveAll
    rw [unitsOf_nil]
    omega
  | cons nft nfts ih =>
    unfold BoothBox.receiveAll
    rw [ih fun a ha => hpos a (List.mem_cons_of_mem _ ha),
      count_receive (hpos nft (List.mem_cons_self ..)), unitsOf_cons]
    split <;> omega

/-- The counts are exact when and only when the assets fit. -/
theorem fits_iff (hpos : ∀ a ∈ nfts, 0 < a.amount) :
    box.Fits nfts ↔
      ∀ sym, ((box.receiveAll nfts).count sym : ℤ) = box.count sym + unitsOf sym nfts := by
  constructor
  · intro hfits sym
    have hunits : 0 ≤ unitsOf sym nfts := unitsOf_nonneg hpos
    have hlt := hfits sym
    rw [count_receiveAll hpos]
    exact Int.emod_eq_of_lt (by omega) hlt
  · intro hexact sym
    have hlt := count_lt (box.receiveAll nfts) sym
    have heq := hexact sym
    omega

/-- Assets that fit are added to the total. -/
theorem total_receiveAll (hpos : ∀ a ∈ nfts, 0 < a.amount) (hfits : box.Fits nfts) :
    ((box.receiveAll nfts).total : ℤ) = box.total + totalUnits nfts := by
  induction nfts generalizing box with
  | nil => simp [BoothBox.receiveAll, totalUnits]
  | cons nft nfts ih =>
    obtain ⟨hfirst, hrest⟩ := fits_receive hpos hfits
    unfold BoothBox.receiveAll totalUnits
    rw [ih (fun a ha => hpos a (List.mem_cons_of_mem _ ha)) hrest,
      total_receive (hpos nft (List.mem_cons_self ..)) hfirst]
    omega

theorem kinds_receiveAll (box : BoothBox) (nfts : List Nasset) :
    (box.receiveAll nfts).kinds = box.kinds + box.newKinds nfts := by
  induction nfts generalizing box with
  | nil => rfl
  | cons nft nfts ih =>
    unfold BoothBox.receiveAll BoothBox.newKinds
    rw [ih, kinds_receive, Nat.add_assoc]

theorem positive_receiveAll (hpos : ∀ a ∈ nfts, 0 < a.amount) (hbox : box.Positive)
    (hfits : box.Fits nfts) : (box.receiveAll nfts).Positive := by
  induction nfts generalizing box with
  | nil => exact hbox
  | cons nft nfts ih =>
    obtain ⟨hfirst, hrest⟩ := fits_receive hpos hfits
    have hnft := hpos nft (List.mem_cons_self ..)
    exact ih (fun a ha => hpos a (List.mem_cons_of_mem _ ha)) (positive_receive hnft hbox hfirst)
      hrest

/-! ## Bounds -/

/-- One kind is at most everything. -/
theorem count_le_total (box : BoothBox) (sym : Nsymbol) : box.count sym ≤ box.total := by
  cases hfind : box.nfts.find? sym.raw with
  | none =>
    rw [count_of_none hfind]
    exact Nat.zero_le _
  | some e =>
    rw [count_of_find hfind]
    exact Table.le_sum (f := fun e : BoxEntry => e.count.toNat) (fun _ _ => Nat.zero_le _)
      (Table.find?_eq_some.mp hfind).1

theorem unitsOf_le (h : ∀ nft ∈ nfts, 0 < nft.amount) : unitsOf sym nfts ≤ totalUnits nfts := by
  induction nfts with
  | nil => exact le_rfl
  | cons nft nfts ih =>
    have hpos := h nft (List.mem_cons_self ..)
    have hrest := ih fun a ha => h a (List.mem_cons_of_mem _ ha)
    rw [unitsOf_cons, totalUnits]
    split <;> omega

/-- Assets fit when the total stays below 2^64. -/
theorem fits_of_total (hpos : ∀ a ∈ nfts, 0 < a.amount)
    (h : (box.total : ℤ) + totalUnits nfts < 2 ^ 64) : box.Fits nfts := by
  intro sym
  have hcount := count_le_total box sym
  have hunits : unitsOf sym nfts ≤ totalUnits nfts := unitsOf_le hpos
  omega

/-- A box with positive counts has at most as many kinds as units. -/
theorem kinds_le_total (h : box.Positive) : box.kinds ≤ box.total := by
  have hle : box.nfts.rows.length ≤ (box.nfts.rows.map fun e => e.count.toNat).sum := by
    have hall : ∀ e ∈ box.nfts.rows, 0 < e.count.toNat := h
    generalize box.nfts.rows = rows at hall
    induction rows with
    | nil => exact le_rfl
    | cons e rows ih =>
      have hpos := hall e (List.mem_cons_self ..)
      have hrest := ih fun a ha => hall a (List.mem_cons_of_mem _ ha)
      simp only [List.length_cons, List.map_cons, List.sum_cons]
      omega
  exact hle

end Counts

end Blindbox
end ToolkitContracts
