import ToolkitContracts.Blindbox.Agreement

/-!
# What a purchase dispenses

A buyer gets as many units as the price goes into the payment, each taken out of an entry that has
one, whatever numbers are drawn: `sellAt` is the code of a purchase with the numbers handed in,
and `_transfer_token` is the same with the numbers that `_rand` gives. The units are regrouped by
the id of their symbol before they are delivered and paid for, which loses nothing while the symbols
of the box have different ids.
-/

namespace ToolkitContracts
namespace Blindbox

open Transition

/-! ## Purchases with given numbers -/

/-- The booth without a drawn unit, which may have been the last one of its kind. -/
def Booth.without (booth : Booth) (isLast : Bool) : Booth :=
  { booth with
    nftNum := booth.nftNum - 1
    nftBoxNum := if isLast then booth.nftBoxNum - 1 else booth.nftBoxNum }

/-- `_one_nft` with the number that is drawn. -/
def oneNftAt (randIndex : UInt64) (booth : Booth) (s : State) :
    Except Abort (State × Booth × Nasset) := do
  let box ← require (s.boxes.find? booth.id) Err.recordNotFound.code "no nftbox in the booth"
  let e ← require (pick randIndex 0 box.nfts.rows) none "end iterator"
  let booth := booth.without (box.takeOne e).2
  let boxes ← dbcSet s.boxes (box.takeOne e).1
  let booths ← dbcSet s.booths booth
  return ({ s with boxes, booths }, booth, Nasset.new 1 e.symbol)

/-- The loop of draws with their numbers. -/
def drawEachAt : List UInt64 → State × Booth × Bought → Except Abort (State × Booth × Bought)
  | [], acc => .ok acc
  | randIndex :: numbers, (s, booth, bought) => do
    let (s, booth, nft) ← oneNftAt randIndex booth s
    let bought ← bought.add nft
    drawEachAt numbers (s, booth, bought)

/-- The booth that has received the payment. -/
def Booth.funded (booth : Booth) (fundRecd : Asset) (now : UInt32) : Booth :=
  { booth with fundRecd, updatedAt := now }

/-- The payment to the fund distributor, and the change if there is any. -/
def salePayments (n : Notice) (s : State) (booth : Booth) (paid left : Asset) : List Transfer :=
  ⟨booth.fundContract, s.gstate.fundDistributor, paid,
    "plan:".toList ++ (toString booth.splitPlanId).toList ++ ":1".toList⟩ ::
  if 0 < left.amount then [⟨booth.fundContract, n.sender, left, "rndnft.mart change".toList⟩]
  else []

/-- What `_transfer_token` does after its checks, with as many numbers as units are paid for. -/
def sellAt (env : Env) (n : Notice) (booth : Booth) (numbers : List UInt64) (s : State) :
    Except Abort Effects := do
  let paid ← booth.price.mul numbers.length
  let left ← n.quantity.sub paid
  let fundRecd ← booth.fundRecd.add paid
  let pays := (salePayments n s booth paid left).map Out.pay
  let (s, booth, bought) ← drawEachAt numbers (s, booth.funded fundRecd env.nowSec, .empty)
  let deals ← traces env booth n.sender bought.rows
  return (s, pays ++ deals ++ [.deliver ⟨booth.nftContract, n.sender, bought.rows,
    "booth: ".toList ++ (toString booth.id).toList⟩])

/-- The numbers that `_rand` gives from the draw `i` on, when `nftNum` units are left. -/
def numbersOf (env : Env) (owner : Name) : (count i : ℕ) → UInt64 → Except Abort (List UInt64)
  | 0, _, _ => .ok []
  | count + 1, i, nftNum => do
    let randIndex ← rand env nftNum owner i
    let numbers ← numbersOf env owner count (i + 1) (nftNum - 1)
    return randIndex :: numbers

/-- The numbers can be drawn one after the other when `left` units are left. -/
def InRange : ℕ → List UInt64 → Prop
  | _, [] => True
  | left, randIndex :: numbers =>
    (0 < randIndex.toNat ∧ randIndex.toNat ≤ left) ∧ InRange (left - 1) numbers

/-- The checks that a payment for `count` units passes. -/
structure Accepted (account : Name) (env : Env) (s : State) (n : Notice) (boothId : ℕ)
    (booth : Booth) (count : ℕ) : Prop where
  allowed : PurchaseAllowed account env s n boothId booth
  quotient : divTrap n.quantity.amount booth.price.amount = .ok count
  some : 0 < count
  enough : count ≤ booth.nftNum.toNat
  limit : count ≤ s.gstate.maxNftsPurchase.toNat
  funds : ∃ paid fundRecd, booth.price.mul count = .ok paid ∧ booth.fundRecd.add paid = .ok fundRecd

/-! ## What is dispensed -/

/-- The symbols of the box have different ids, as the NFT contract gives them. -/
def BoothBox.DistinctIds (box : BoothBox) : Prop :=
  ∀ e ∈ box.nfts, ∀ e' ∈ box.nfts, e.symbol.id = e'.symbol.id → e.symbol = e'.symbol

/-- The booth has a box that its counters agree with. -/
structure InOrder (s : State) (boothId : ℕ) (booth : Booth) (box : BoothBox) : Prop where
  stored : s.boxes.find? boothId = some box
  counters : CountersAgree booth box
  ids : box.DistinctIds

/-- One unit after the other leaves the box, each from an entry that has one. -/
inductive DrawsFrom : BoothBox → List Nsymbol → BoothBox → Prop
  | done (box : BoothBox) : DrawsFrom box [] box
  | draw {box box' : BoothBox} {drawn : List Nsymbol} (e : BoxEntry) (he : e ∈ box.nfts)
      (hpos : 0 < e.count.toNat) (hrest : DrawsFrom (box.takeOne e).1 drawn box') :
      DrawsFrom box (e.symbol :: drawn) box'

/-- The token transfers among what is sent. -/
def payments (outs : List Out) : List Transfer :=
  outs.filterMap fun
    | .pay t => some t
    | _ => none

/-- The deal traces among what is sent. -/
def dealTraces (outs : List Out) : List DealTrace :=
  outs.filterMap fun
    | .trace d => some d
    | _ => none

/-- The purchase for `n` took out of the box what was paid for, and sent it to the buyer. -/
structure Dispensed (n : Notice) (s : State) (booth : Booth) (box : BoothBox) (s' : State)
    (outs : List Out) : Prop where
  units : ∃ drawn booth' box', DrawsFrom box drawn box' ∧
    (drawn.length : ℤ) = n.quantity.amount / booth.price.amount ∧
    (∀ sym, delivered sym outs = drawn.count sym) ∧
    (∀ sym, (box'.count sym : ℤ) + delivered sym outs = box.count sym) ∧
    s'.boxes.find? booth.id = some box' ∧ s'.booths.find? booth.id = some booth' ∧
    CountersAgree booth' box'
  buyer : ∀ t, Out.deliver t ∈ outs → t.bank = booth.nftContract ∧ t.recipient = n.sender
  money : ∃ paid change, payments outs = paid :: change ∧
    paid.recipient = s.gstate.fundDistributor ∧ (∀ t ∈ change, t.recipient = n.sender) ∧
    (∀ t ∈ paid :: change, t.token = n.token) ∧
    paid.quantity.amount + (change.map fun t => t.quantity.amount).sum = n.quantity.amount ∧
    ((dealTraces outs).map fun d => d.paidQuant.amount).sum = paid.quantity.amount

section Draws
variable {env : Env} {owner : Name} {i : ℕ} {s s' : State} {booth booth' : Booth}
  {box box' : BoothBox} {nft : Nasset} {bought bought' : Bought} {numbers : List UInt64}
  {randIndex : UInt64} {e : BoxEntry} {drawn : List Nsymbol} {known : Nsymbol → Prop}

/-! ## The numbers of the contract -/

theorem numbersOf_succ {count : ℕ} {nftNum : UInt64} :
    numbersOf env owner (count + 1) i nftNum = .ok numbers ↔
      ∃ randIndex, rand env nftNum owner i = .ok randIndex ∧
        ∃ rest, numbersOf env owner count (i + 1) (nftNum - 1) = .ok rest ∧
          numbers = randIndex :: rest := by
  simp only [numbersOf, bind_eq_ok, pure_eq_ok, @eq_comm _ numbers]

theorem length_numbersOf {count : ℕ} {nftNum : UInt64}
    (h : numbersOf env owner count i nftNum = .ok numbers) : numbers.length = count := by
  induction count generalizing i nftNum numbers with
  | zero =>
    obtain rfl : [] = numbers := Except.ok.inj h
    rfl
  | succ count ih =>
    obtain ⟨randIndex, -, rest, hrest, rfl⟩ := numbersOf_succ.mp h
    exact congrArg Nat.succ (ih hrest)

/-- `_rand` stays in range. -/
theorem inRange_numbersOf {count : ℕ} {nftNum : UInt64}
    (h : numbersOf env owner count i nftNum = .ok numbers) : InRange nftNum.toNat numbers := by
  induction count generalizing i nftNum numbers with
  | zero =>
    obtain rfl : [] = numbers := Except.ok.inj h
    trivial
  | succ count ih =>
    obtain ⟨randIndex, hrand, rest, hrest, rfl⟩ := numbersOf_succ.mp h
    have hnumber := rand_le hrand
    refine ⟨hnumber, ?_⟩
    rw [← toNat_sub_one (by omega)]
    exact ih hrest

/-- `_one_nft` goes on with the number that `_rand` gives. -/
theorem oneNft_of_rand {index : ℕ} (h : rand env booth.nftNum owner index = .ok randIndex) :
    oneNft env owner index booth s = oneNftAt randIndex booth s := by
  rw [oneNft, oneNftAt]
  refine bind_congr fun box => ?_
  rw [h, ok_bind]
  rfl

theorem nftNum_of_oneNftAt {acc : State × Booth × Nasset}
    (h : oneNftAt randIndex booth s = .ok acc) : acc.2.1.nftNum = booth.nftNum - 1 := by
  simp only [oneNftAt, bind_eq_ok, pure_eq_ok] at h
  obtain ⟨box, -, e, -, boxes, -, booths, -, rfl⟩ := h
  rfl

/-- The loop of draws is the one with the numbers that `_rand` gives. -/
theorem drawEach_of_numbersOf {count : ℕ}
    (h : numbersOf env owner count i booth.nftNum = .ok numbers) :
    drawEach env owner count i (s, booth, bought) = drawEachAt numbers (s, booth, bought) := by
  induction count generalizing i s booth bought numbers with
  | zero =>
    obtain rfl : [] = numbers := Except.ok.inj h
    rfl
  | succ count ih =>
    obtain ⟨randIndex, hrand, rest, hrest, rfl⟩ := numbersOf_succ.mp h
    rw [drawEach, drawEachAt, oneNft_of_rand hrand]
    cases hone : oneNftAt randIndex booth s with
    | error e => rfl
    | ok acc =>
      rw [← nftNum_of_oneNftAt hone] at hrest
      rw [ok_bind, ok_bind]
      exact bind_congr fun bought₁ => ih hrest

/-- A loop of draws that succeeds was given all its numbers. -/
theorem numbersOf_of_drawEach {count : ℕ} {acc : State × Booth × Bought}
    (h : drawEach env owner count i (s, booth, bought) = .ok acc) :
    ∃ numbers, numbersOf env owner count i booth.nftNum = .ok numbers := by
  induction count generalizing i s booth bought with
  | zero => exact ⟨[], rfl⟩
  | succ count ih =>
    simp only [drawEach, bind_eq_ok] at h
    obtain ⟨⟨s₁, booth₁, nft⟩, hone, bought₁, -, hrest⟩ := h
    obtain ⟨randIndex, hrand⟩ : ∃ randIndex, rand env booth.nftNum owner i = .ok randIndex := by
      simp only [oneNft, bind_eq_ok] at hone
      obtain ⟨box, -, randIndex, hrand, -⟩ := hone
      exact ⟨randIndex, hrand⟩
    rw [oneNft_of_rand hrand] at hone
    obtain ⟨rest, hnumbers⟩ := ih hrest
    rw [nftNum_of_oneNftAt hone] at hnumbers
    exact ⟨randIndex :: rest, numbersOf_succ.mpr ⟨randIndex, hrand, rest, hnumbers, rfl⟩⟩

/-! ## Draws that succeed -/

/-- The tables after a unit was drawn from the entry `e`. -/
def State.without (s : State) (booth : Booth) (box : BoothBox) (e : BoxEntry) : State :=
  { s with
    boxes := s.boxes.put (box.takeOne e).1
    booths := s.booths.put (booth.without (box.takeOne e).2) }

/-- A draw writes the box and the booth. -/
theorem oneNftAt_of_pick (hbox : s.boxes.find? booth.id = some box)
    (hbooth : ∃ old, s.booths.find? booth.id = some old)
    (hpick : pick randIndex 0 box.nfts.rows = some e) :
    oneNftAt randIndex booth s
      = .ok (s.without booth box e, booth.without (box.takeOne e).2, Nasset.new 1 e.symbol) := by
  have hid : box.boothId = booth.id := (Table.find?_eq_some.mp hbox).2
  have hboxes : dbcSet s.boxes (box.takeOne e).1 = .ok (s.boxes.put (box.takeOne e).1) := by
    refine dbcSet_eq_ok.mpr ⟨⟨box, ?_⟩, rfl⟩
    rw [boothId_takeOne, hid]
    exact hbox
  have hbooths : dbcSet s.booths (booth.without (box.takeOne e).2)
      = .ok (s.booths.put (booth.without (box.takeOne e).2)) := dbcSet_eq_ok.mpr ⟨hbooth, rfl⟩
  rw [oneNftAt, hbox, require, ok_bind, hpick, require, ok_bind]
  dsimp only
  rw [hboxes, ok_bind, hbooths]
  rfl

theorem find_booth_without : (s.without booth box e).booths.find? booth.id
    = some (booth.without (box.takeOne e).2) := by
  show (s.booths.put (booth.without (box.takeOne e).2)).find? booth.id = _
  rw [Table.find?_put]
  exact if_pos rfl

/-- A drawn NFT can be added while different kinds have different ids. -/
theorem add_of_known (hids : ∀ a b, known a → known b → a.id = b.id → a = b)
    (hbought : ∀ b ∈ bought, known b.symbol) (hnft : known nft.symbol) :
    ∃ bought', bought.add nft = .ok bought' ∧ ∀ b ∈ bought', known b.symbol := by
  unfold Bought.add
  cases hfind : bought.find? nft.symbol.id.toNat with
  | none => exact ⟨_, rfl, Table.forall_put hbought hnft⟩
  | some b =>
    obtain ⟨hb, hkey⟩ := Table.find?_eq_some.mp hfind
    have hsame : nft.symbol = b.symbol :=
      hids _ _ hnft (hbought b hb) (UInt32.toNat_inj.mp hkey.symm)
    have hadd : b.add nft = .ok (Nasset.new (b.amount + nft.amount) b.symbol) := by
      rw [Nasset.add, check_of (congrArg Nsymbol.raw hsame)]
      rfl
    dsimp only
    rw [hadd, ok_bind]
    exact ⟨_, rfl, Table.forall_put hbought (hbought b hb)⟩

theorem symbol_of_mem_takeOne {x : BoxEntry} (he : e ∈ box.nfts)
    (hx : x ∈ (box.takeOne e).1.nfts) : ∃ y ∈ box.nfts, y.symbol = x.symbol := by
  unfold BoothBox.takeOne at hx
  split at hx
  · exact ⟨x, (Table.mem_erase.mp hx).1, rfl⟩
  · rcases Table.mem_put.mp hx with rfl | ⟨hx, -⟩
    · exact ⟨e, he, rfl⟩
    · exact ⟨x, hx, rfl⟩

/-- Draws can go on after `i` of them: box and booth are stored and agree, and all kinds in the
box and among the bought NFTs are known. -/
structure Ready (known : Nsymbol → Prop) (s : State) (booth : Booth) (box : BoothBox)
    (bought : Bought) (i : ℕ) : Prop where
  stored : s.boxes.find? booth.id = some box
  kept : ∃ old, s.booths.find? booth.id = some old
  agree : CountersAgree booth box
  kinds : ∀ e ∈ box.nfts, known e.symbol
  named : ∀ b ∈ bought, known b.symbol
  upTo : bought.UpTo i

/-- What the draw of an entry has left is ready for the draws to come. -/
theorem Ready.draw (h : Ready known s booth box bought i)
    (he : e ∈ box.nfts) (hadd : bought.add (Nasset.new 1 e.symbol) = .ok bought')
    (hbought : ∀ b ∈ bought', known b.symbol) (hi : i < 2 ^ 32) :
    Ready known (s.without booth box e) (booth.without (box.takeOne e).2) (box.takeOne e).1 bought'
      (i + 1) := by
  have hid : box.boothId = booth.id := (Table.find?_eq_some.mp h.stored).2
  refine ⟨?_, ⟨_, find_booth_without⟩, countersAgree_takeOne h.agree he, ?_, hbought,
    upTo_add hadd rfl h.upTo hi⟩
  · show (s.boxes.put (box.takeOne e).1).find? booth.id = _
    rw [Table.find?_put, boothId_takeOne, hid]
    exact if_pos rfl
  · intro x hx
    obtain ⟨y, hy, hsym⟩ := symbol_of_mem_takeOne he hx
    rw [← hsym]
    exact h.kinds y hy

/-- What the loop of draws has done, for the kinds `drawn`. -/
structure DrewAll (booth booth' : Booth) (box box' : BoothBox) (s s' : State)
    (bought bought' : Bought) (drawn : List Nsymbol) : Prop where
  draws : DrawsFrom box drawn box'
  agree : CountersAgree booth' box'
  stored : s'.boxes.find? booth.id = some box'
  written : drawn ≠ [] → s'.booths.find? booth.id = some booth'
  unwritten : drawn = [] → s'.booths = s.booths ∧ booth' = booth
  terms : booth'.id = booth.id ∧ booth'.nftContract = booth.nftContract ∧
    booth'.fundContract = booth.fundContract ∧ booth'.price = booth.price
  weight : ∀ weight : Nsymbol → ℤ, (bought'.sum fun a => weight a.symbol * a.amount)
    = (bought.sum fun a => weight a.symbol * a.amount) + (drawn.map weight).sum
  positive : ∀ b ∈ bought', 0 < b.amount

/-- One more draw in front. -/
theorem DrewAll.cons {bought₁ : Bought} (hready : Ready known s booth box bought i)
    (he : e ∈ box.nfts) (hadd : bought.add (Nasset.new 1 e.symbol) = .ok bought₁) (hi : i < 2 ^ 32)
    (h : DrewAll (booth.without (box.takeOne e).2) booth' (box.takeOne e).1 box'
      (s.without booth box e) s' bought₁ bought' drawn) :
    DrewAll booth booth' box box' s s' bought bought' (e.symbol :: drawn) := by
  refine ⟨.draw e he (hready.agree.positive e he) h.draws, h.agree, h.stored, ?_, ?_, h.terms, ?_,
    h.positive⟩
  · intro _
    by_cases hlast : drawn = []
    · obtain ⟨hbooths, rfl⟩ := h.unwritten hlast
      rw [hbooths]
      exact find_booth_without
    · exact h.written hlast
  · intro hnil
    exact absurd hnil (List.cons_ne_nil _ _)
  · intro weight
    rw [h.weight, weight_add hadd rfl hready.upTo hi, List.map_cons, List.sum_cons, add_assoc]
    rfl

/-- Numbers in range are all found: the induction is over the numbers, and the agreement of the
counters carries it. -/
theorem drewAll_of_inRange (hids : ∀ a b, known a → known b → a.id = b.id → a = b)
    (hready : Ready known s booth box bought i) (hrange : InRange booth.nftNum.toNat numbers)
    (hi : i + numbers.length ≤ 2 ^ 32) :
    ∃ s' booth' bought' box' drawn,
      drawEachAt numbers (s, booth, bought) = .ok (s', booth', bought') ∧
      drawn.length = numbers.length ∧ DrewAll booth booth' box box' s s' bought bought' drawn := by
  induction numbers generalizing i s booth box bought with
  | nil =>
    refine ⟨s, booth, bought, box, [], rfl, rfl, ⟨.done box, hready.agree, hready.stored, ?_,
      fun _ => ⟨rfl, rfl⟩, ⟨rfl, rfl, rfl, rfl⟩, ?_, ?_⟩⟩
    · intro hnil
      exact absurd rfl hnil
    · intro weight
      rw [List.map_nil, List.sum_nil, add_zero]
    · intro b hb
      exact (hready.upTo b hb).2
  | cons randIndex numbers ih =>
    obtain ⟨hnumber, hrest⟩ := hrange
    rw [List.length_cons] at hi
    obtain ⟨e, he, hpick⟩ := pick_inside_box hready.agree hnumber
    have hone := oneNftAt_of_pick hready.stored hready.kept hpick
    obtain ⟨bought₁, hadd, hbought₁⟩ : ∃ b, bought.add (Nasset.new 1 e.symbol) = .ok b ∧
        ∀ x ∈ b, known x.symbol := add_of_known hids hready.named (hready.kinds e he)
    have hleft : (booth.without (box.takeOne e).2).nftNum.toNat = booth.nftNum.toNat - 1 :=
      toNat_sub_one (by omega)
    rw [← hleft] at hrest
    obtain ⟨s', booth', bought', box', drawn, hnumbers, hlength, hdrew⟩ :=
      ih (hready.draw he hadd hbought₁ (by omega)) hrest (by omega)
    refine ⟨s', booth', bought', box', e.symbol :: drawn, ?_, congrArg Nat.succ hlength,
      hdrew.cons hready he hadd (by omega)⟩
    rw [drawEachAt, hone, ok_bind]
    dsimp only
    rw [hadd, ok_bind]
    exact hnumbers

/-- What leaves the box of a kind is what is drawn of it. -/
theorem DrawsFrom.count (h : DrawsFrom box drawn box') (sym : Nsymbol) :
    box'.count sym + drawn.count sym = box.count sym := by
  induction h with
  | done box => rfl
  | draw e he hpos hrest ih =>
    have hone := @count_takeOne _ e sym he hpos
    rw [List.count_cons]
    by_cases hsym : e.symbol = sym
    · rw [if_pos (beq_iff_eq.mpr hsym)]
      rw [if_pos hsym] at hone
      omega
    · rw [if_neg (fun hbeq => hsym (beq_iff_eq.mp hbeq))]
      rw [if_neg hsym] at hone
      omega

theorem count_eq_weight (sym : Nsymbol) (drawn : List Nsymbol) :
    (drawn.count sym : ℤ) = (drawn.map fun s => if s = sym then (1 : ℤ) else 0).sum := by
  induction drawn with
  | nil => rfl
  | cons s drawn ih =>
    rw [List.count_cons, List.map_cons, List.sum_cons, ← ih]
    by_cases hsym : s = sym
    · rw [if_pos (beq_iff_eq.mpr hsym), if_pos hsym]
      omega
    · rw [if_neg (fun hbeq => hsym (beq_iff_eq.mp hbeq)), if_neg hsym]
      omega

/-- What was bought first weighs what was drawn. -/
theorem DrewAll.weight_rows (h : DrewAll booth booth' box box' s s' .empty bought drawn)
    (weight : Nsymbol → ℤ) :
    (bought.rows.map fun a => weight a.symbol * a.amount).sum = (drawn.map weight).sum := by
  have hsum := h.weight weight
  rw [Table.sum_empty, zero_add] at hsum
  exact hsum

theorem DrewAll.unitsOf_rows (h : DrewAll booth booth' box box' s s' .empty bought drawn)
    (sym : Nsymbol) : unitsOf sym bought.rows = drawn.count sym := by
  rw [unitsOf_eq_weight, h.weight_rows fun s => if s = sym then 1 else 0]
  exact (count_eq_weight sym drawn).symm

/-- The drawn units cost the price each. -/
theorem DrewAll.price_rows (h : DrewAll booth booth' box box' s s' .empty bought drawn) :
    (bought.rows.map fun a => booth'.price.amount * a.amount).sum
      = booth.price.amount * drawn.length := by
  rw [h.weight_rows fun _ => booth'.price.amount, List.map_const', List.sum_replicate,
    h.terms.2.2.2, nsmul_eq_mul, mul_comm]

end Draws

/-! ## What is sent -/

section Sent
variable {booth : Booth} {nfts : List Nasset} {deals : List Out}

theorem payments_pays (ts : List Transfer) : payments (ts.map Out.pay) = ts := by
  induction ts with
  | nil => rfl
  | cons t ts ih => exact congrArg (t :: ·) ih

theorem dealTraces_pays (ts : List Transfer) : dealTraces (ts.map Out.pay) = [] := by
  induction ts with
  | nil => rfl
  | cons t ts ih => exact ih

theorem delivered_pays (sym : Nsymbol) (ts : List Transfer) :
    delivered sym (ts.map Out.pay) = 0 := by
  induction ts with
  | nil => rfl
  | cons t ts ih => exact ih

/-- What a sale sends: token transfers, the traces of the deals and the NFTs. -/
theorem payments_sale (ts : List Transfer) (t : NftTransfer) (h : payments deals = []) :
    payments (ts.map Out.pay ++ deals ++ [.deliver t]) = ts := by
  have hlast : payments [.deliver t] = [] := rfl
  have happend : ∀ as bs : List Out, payments (as ++ bs) = payments as ++ payments bs :=
    fun _ _ => List.filterMap_append
  rw [happend, happend, payments_pays, h, hlast, List.append_nil, List.append_nil]

theorem dealTraces_sale (ts : List Transfer) (t : NftTransfer) :
    dealTraces (ts.map Out.pay ++ deals ++ [.deliver t]) = dealTraces deals := by
  have hlast : dealTraces [.deliver t] = [] := rfl
  have happend : ∀ as bs : List Out, dealTraces (as ++ bs) = dealTraces as ++ dealTraces bs :=
    fun _ _ => List.filterMap_append
  rw [happend, happend, dealTraces_pays, hlast, List.nil_append, List.append_nil]

theorem deliver_mem_sale {ts : List Transfer} {t u : NftTransfer} (h : ∀ v, Out.deliver v ∉ deals)
    (hu : Out.deliver u ∈ ts.map Out.pay ++ deals ++ [.deliver t]) : u = t := by
  rcases List.mem_append.mp hu with hu | hu
  · rcases List.mem_append.mp hu with hu | hu
    · obtain ⟨v, -, hv⟩ := List.mem_map.mp hu
      cases hv
    · exact absurd hu (h u)
  · exact Out.deliver.inj (List.mem_singleton.mp hu)

/-- The deals are traced with the price of the units of each, and nothing else is sent. -/
theorem traces_of_range (env : Env) (buyer : Name) (hprice : 0 < booth.price.amount)
    (hpos : ∀ a ∈ nfts, 0 < a.amount)
    (hmax : (nfts.map fun a => booth.price.amount * a.amount).sum ≤ Asset.maxAmount) :
    ∃ deals, traces env booth buyer nfts = .ok deals ∧ payments deals = [] ∧
      (∀ t, Out.deliver t ∉ deals) ∧ ((dealTraces deals).map fun d => d.paidQuant.amount).sum
        = (nfts.map fun a => booth.price.amount * a.amount).sum := by
  induction nfts with
  | nil =>
    refine ⟨[], rfl, rfl, ?_, rfl⟩
    intro t
    exact List.not_mem_nil
  | cons nft nfts ih =>
    rw [List.map_cons, List.sum_cons] at hmax
    have hnft := hpos nft List.mem_cons_self
    have hrest : ∀ a ∈ nfts, 0 < a.amount := fun a ha => hpos a (List.mem_cons_of_mem _ ha)
    have hterm : 0 < booth.price.amount * nft.amount := Int.mul_pos hprice hnft
    have hnonneg : 0 ≤ (nfts.map fun a => booth.price.amount * a.amount).sum := by
      apply List.sum_nonneg
      intro x hx
      obtain ⟨a, ha, rfl⟩ := List.mem_map.mp hx
      exact (Int.mul_pos hprice (hrest a ha)).le
    have hmax' : Asset.maxAmount = 2 ^ 62 - 1 := rfl
    obtain ⟨deals, hdeals, hpay, hdeliver, hsum⟩ := ih hrest (by omega)
    obtain ⟨paid, hpaid, hamount, -⟩ := Asset.mul_of_range (a := booth.price) (x := nft.amount)
      (by omega) (by omega)
    refine ⟨.trace ⟨booth.id, buyer, booth.nftContract, booth.fundContract, paid, nft, env.nowSec⟩ ::
      deals, ?_, hpay, ?_, ?_⟩
    · rw [traces, hpaid, ok_bind, hdeals, ok_bind]
      rfl
    · intro t ht
      rcases List.mem_cons.mp ht with hhead | ht
      · cases hhead
      · exact hdeliver t ht
    · show paid.amount + ((dealTraces deals).map fun d => d.paidQuant.amount).sum = _
      rw [hamount, hsum, List.map_cons, List.sum_cons]

end Sent

/-! ## The purchase -/

section Purchase
variable {self : Name} {env : Env} {n : Notice} {s s' : State} {boothId : ℕ} {booth : Booth}
  {box : BoothBox} {outs : List Out} {count : ℕ} {numbers : List UInt64}

/-- An accepted payment is worth its price, and there is change for the rest. -/
theorem Accepted.amounts (h : Accepted self env s n boothId booth count)
    (hquantity : 0 < n.quantity.amount) : 0 < booth.price.amount ∧
      (count : ℤ) = n.quantity.amount / booth.price.amount ∧
      booth.price.amount * count ≤ n.quantity.amount := by
  have hquotient := h.quotient
  simp only [divTrap, bind_eq_ok, check_eq_ok, exists_const, pure_eq_ok] at hquotient
  obtain ⟨-, hcount⟩ := hquotient
  have hsome := h.some
  have hprice : 0 < booth.price.amount := by
    by_contra hneg
    have hle := Int.tdiv_nonpos_of_nonneg_of_nonpos hquantity.le (not_lt.mp hneg)
    omega
  rw [Int.tdiv_eq_ediv_of_nonneg hquantity.le] at hcount
  refine ⟨hprice, hcount.symm, ?_⟩
  rw [← hcount]
  exact Int.mul_ediv_self_le hprice.ne'

theorem map_salePayments (n : Notice) (s : State) (booth : Booth) (paid left : Asset) :
    (salePayments n s booth paid left).map Out.pay =
      .pay ⟨booth.fundContract, s.gstate.fundDistributor, paid,
        "plan:".toList ++ (toString booth.splitPlanId).toList ++ ":1".toList⟩ ::
      if 0 < left.amount then
        [.pay ⟨booth.fundContract, n.sender, left, "rndnft.mart change".toList⟩]
      else [] := by
  unfold salePayments
  by_cases hsome : 0 < left.amount
  · rw [if_pos hsome, if_pos hsome]
    rfl
  · rw [if_neg hsome, if_neg hsome]
    rfl

/-- An accepted purchase runs with the numbers that `_rand` gives. -/
theorem transferToken_eq_sellAt (h : Accepted self env s n boothId booth numbers.length)
    (hnumbers : numbersOf env n.sender numbers.length 0 booth.nftNum = .ok numbers) :
    transferToken self env n s = sellAt env n booth numbers s := by
  have hallowed := h.allowed
  have hto : ¬ (n.sender = self ∨ n.recipient ≠ self) := by
    simp [hallowed.sender, hallowed.recipient]
  have hsome : (0 : ℤ) < numbers.length := by
    have hpos := h.some
    omega
  have henough : (numbers.length : ℤ) ≤ booth.nftNum.toNat := by exact_mod_cast h.enough
  have hlimit : (numbers.length : ℤ) ≤ s.gstate.maxNftsPurchase.toNat := by exact_mod_cast h.limit
  -- the checks pass
  simp only [transferToken, if_neg hto, checkc_of hallowed.memo.fields,
    checkc_of hallowed.memo.booth, hallowed.memo.id, hallowed.found, require,
    checkc_of hallowed.enabled, checkc_of hallowed.opened, checkc_of hallowed.closed,
    checkc_of hallowed.contract, checkc_of hallowed.symbol, checkc_of hallowed.left, h.quotient,
    checkc_of hsome, checkc_of henough, checkc_of hlimit, ok_bind, Int.toNat_natCast]
  rw [sellAt]
  refine bind_congr fun paid => bind_congr fun left => bind_congr fun fundRecd => ?_
  -- the draws are those with the numbers
  have hdraws : drawEach env n.sender numbers.length 0
      (s, booth.funded fundRecd env.nowSec, .empty)
      = drawEachAt numbers (s, booth.funded fundRecd env.nowSec, .empty) :=
    drawEach_of_numbersOf hnumbers
  rw [map_salePayments, ← hdraws]
  rfl

/-- A successful purchase has passed the checks, and was given its numbers. -/
theorem numbers_of_transferToken (hto : ¬ (n.sender = self ∨ n.recipient ≠ self))
    (h : transferToken self env n s = .ok (s', outs)) :
    ∃ boothId booth numbers, Accepted self env s n boothId booth numbers.length ∧
      numbersOf env n.sender numbers.length 0 booth.nftNum = .ok numbers := by
  cases move_of_transferToken h with
  | ignoreToken _ hn => exact absurd hn hto
  | purchase _ boothId booth count _ _ hallowed hsold =>
    obtain ⟨paid, left, fundRecd, booth', bought, deals, hpaid, hleft, hfund, hdraws, -⟩ :=
      hsold.draws
    obtain ⟨numbers, hnumbers⟩ := numbersOf_of_drawEach hdraws
    have hpos := hsold.some
    have hlength : numbers.length = count.toNat := length_numbersOf hnumbers
    have hcount : (numbers.length : ℤ) = count := by omega
    refine ⟨boothId, booth, numbers, ⟨hallowed, ?_, ?_, ?_, ?_, ⟨paid, fundRecd, ?_, hfund⟩⟩, ?_⟩
    · rw [hcount]
      exact hsold.quotient
    · omega
    · have hle := hsold.enough
      omega
    · have hle := hsold.allowed
      omega
    · rw [hcount]
      exact hpaid
    · rw [hlength]
      exact hnumbers

/-- The payment and the change of an accepted purchase are exact. -/
theorem Accepted.pays (h : Accepted self env s n boothId booth count)
    (hquantity : 0 < n.quantity.amount) : ∃ paid left fundRecd,
      booth.price.mul count = .ok paid ∧ n.quantity.sub paid = .ok left ∧
      booth.fundRecd.add paid = .ok fundRecd ∧ paid.amount = booth.price.amount * count ∧
      left.amount = n.quantity.amount - paid.amount ∧ 0 ≤ left.amount ∧
      paid.symbol = n.quantity.symbol ∧ left.symbol = n.quantity.symbol := by
  obtain ⟨hprice, -, hle⟩ := h.amounts hquantity
  obtain ⟨paid, fundRecd, hpaid, hfund⟩ := h.funds
  have hsome := h.some
  have hmax : Asset.maxAmount = 2 ^ 62 - 1 := rfl
  have hquantityMax : n.quantity.amount ≤ Asset.maxAmount := n.valid.1.2
  have hcost : 0 < booth.price.amount * (count : ℤ) := Int.mul_pos hprice (by omega)
  obtain ⟨paid', hpaid', hamount, hsymbol⟩ :=
    Asset.mul_of_range (a := booth.price) (x := count) (by omega) (by omega)
  obtain rfl : paid = paid' := Except.ok.inj (hpaid.symm.trans hpaid')
  have hchange : i64 (n.quantity.amount - paid.amount) = n.quantity.amount - paid.amount := by
    apply i64_eq
    · omega
    · omega
  have hsame : paid.symbol = n.quantity.symbol := hsymbol.trans h.allowed.symbol
  refine ⟨paid, n.quantity.setAmount (n.quantity.amount - paid.amount), fundRecd, hpaid, ?_, hfund,
    hamount, hchange, ?_, hsame, rfl⟩
  · refine Asset.sub_eq_ok.mpr ⟨hsame, rfl, ?_⟩
    show -Asset.maxAmount ≤ i64 _ ∧ i64 _ ≤ Asset.maxAmount
    rw [hchange]
    omega
  · show 0 ≤ i64 _
    rw [hchange]
    omega

/-- Payment and change make up the quantity. -/
theorem salePayments_spec {paid left : Asset} (hbank : booth.fundContract = n.bank)
    (hpaid : paid.symbol = n.quantity.symbol) (hleft : left.symbol = n.quantity.symbol)
    (hchange : left.amount = n.quantity.amount - paid.amount) (hnonneg : 0 ≤ left.amount) :
    ∃ t change, salePayments n s booth paid left = t :: change ∧ t.quantity = paid ∧
      t.recipient = s.gstate.fundDistributor ∧ (∀ u ∈ change, u.recipient = n.sender) ∧
      (∀ u ∈ t :: change, u.token = n.token) ∧
      paid.amount + (change.map fun u => u.quantity.amount).sum = n.quantity.amount := by
  have htoken : ∀ (recipient : Name) (a : Asset) (memo : List Char), a.symbol = n.quantity.symbol →
      Transfer.token ⟨booth.fundContract, recipient, a, memo⟩ = n.token := by
    intro recipient a memo ha
    unfold Transfer.token Notice.token
    rw [ha, hbank]
  unfold salePayments
  refine ⟨_, _, rfl, rfl, rfl, ?_⟩
  by_cases hsome : 0 < left.amount
  · rw [if_pos hsome]
    simp only [List.mem_cons, List.not_mem_nil, or_false, forall_eq_or_imp, forall_eq,
      htoken _ _ _ hpaid, htoken _ _ _ hleft, List.map_cons, List.map_nil, List.sum_cons,
      List.sum_nil]
    exact ⟨trivial, ⟨trivial, trivial⟩, by omega⟩
  · rw [if_neg hsome]
    simp only [List.not_mem_nil, List.mem_cons, or_false, forall_eq, htoken _ _ _ hpaid,
      List.map_nil, List.sum_nil]
    exact ⟨fun u hu => hu.elim, trivial, by omega⟩

/-- A booth in order is ready for the draws of an accepted payment. -/
theorem InOrder.ready (h : InOrder s boothId booth box)
    (haccepted : Accepted self env s n boothId booth count) (fundRecd : Asset) :
    Ready (fun sym => ∃ e ∈ box.nfts, e.symbol = sym) s (booth.funded fundRecd env.nowSec) box
      .empty 0 := by
  have hid : booth.id = boothId := (Table.find?_eq_some.mp haccepted.allowed.found).2
  have hnone : ∀ b : Nasset, b ∉ (.empty : Bought) := Table.not_mem_empty
  refine ⟨?_, ⟨booth, ?_⟩, h.counters.of_eq rfl rfl, fun e he => ⟨e, he, rfl⟩,
    fun b hb => absurd hb (hnone b), fun b hb => absurd hb (hnone b)⟩
  · rw [← h.stored]
    exact congrArg _ hid
  · rw [← haccepted.allowed.found]
    exact congrArg _ hid

/-- Whatever numbers in range are drawn, an accepted purchase succeeds and dispenses what was paid
for. -/
theorem dispensed_of_sellAt (hquantity : 0 < n.quantity.amount)
    (horder : InOrder s boothId booth box)
    (haccepted : Accepted self env s n boothId booth numbers.length)
    (hrange : InRange booth.nftNum.toNat numbers) :
    ∃ s' outs, sellAt env n booth numbers s = .ok (s', outs) ∧
      Dispensed n s booth box s' outs := by
  obtain ⟨hprice, hfloor, -⟩ := haccepted.amounts hquantity
  obtain ⟨paid, left, fundRecd, hpaid, hleft, hfund, hamount, hchange, hnonneg, hpaidSymbol,
    hleftSymbol⟩ := haccepted.pays hquantity
  have hfew : 0 + numbers.length ≤ 2 ^ 32 := by
    have hlimit := haccepted.limit
    have hlt : s.gstate.maxNftsPurchase.toNat < 2 ^ 16 := UInt16.toNat_lt _
    omega
  have hdistinct : ∀ a b, (∃ e ∈ box.nfts, e.symbol = a) → (∃ e ∈ box.nfts, e.symbol = b) →
      a.id = b.id → a = b := by
    rintro _ _ ⟨e, he, rfl⟩ ⟨e', he', rfl⟩ hsame
    exact horder.ids e he e' he' hsame
  obtain ⟨s', booth', bought, box', drawn, hdraws, hlength, hdrew⟩ :=
    drewAll_of_inRange hdistinct (horder.ready haccepted fundRecd) hrange hfew
  obtain ⟨-, hcontract', -, hprice'⟩ := hdrew.terms
  -- the deals
  have hprices : (bought.rows.map fun a => booth'.price.amount * a.amount).sum = paid.amount := by
    rw [hdrew.price_rows, hlength, hamount]
    rfl
  have hdue : 0 < booth'.price.amount := by
    rw [hprice']
    exact hprice
  have hpositive : ∀ a ∈ bought.rows, 0 < a.amount := hdrew.positive
  have hmax : paid.amount ≤ Asset.maxAmount := by
    have hquantityMax : n.quantity.amount ≤ Asset.maxAmount := n.valid.1.2
    omega
  obtain ⟨deals, hdeals, hpayments, hdeliver, htraced⟩ :=
    traces_of_range env n.sender hdue hpositive (hprices.trans_le hmax)
  -- the payment and the change
  obtain ⟨t, change, hpays, hquantity', hdistributor, hsender, htokens, htotal⟩ :=
    salePayments_spec (s := s) haccepted.allowed.contract hpaidSymbol hleftSymbol hchange hnonneg
  refine ⟨s', (salePayments n s booth paid left).map Out.pay ++ deals ++
    [.deliver ⟨booth'.nftContract, n.sender, bought.rows,
      "booth: ".toList ++ (toString booth'.id).toList⟩], ?_, ?_, ?_, ?_⟩
  · rw [sellAt, hpaid, ok_bind, hleft, ok_bind, hfund, ok_bind]
    dsimp only
    rw [hdraws, ok_bind]
    dsimp only
    rw [hdeals, ok_bind]
    rfl
  · have hdelivered : ∀ sym, delivered sym ((salePayments n s booth paid left).map Out.pay ++ deals ++
        [.deliver ⟨booth'.nftContract, n.sender, bought.rows,
          "booth: ".toList ++ (toString booth'.id).toList⟩]) = drawn.count sym := by
      intro sym
      rw [delivered_purchase sym _ _ (delivered_pays sym _) hdeals]
      exact hdrew.unitsOf_rows sym
    refine ⟨drawn, booth', box', hdrew.draws, ?_, hdelivered, ?_, hdrew.stored, hdrew.written ?_,
      hdrew.agree⟩
    · rw [hlength]
      exact hfloor
    · intro sym
      have hcount := hdrew.draws.count sym
      rw [hdelivered]
      omega
    · have hsome := haccepted.some
      intro hnil
      rw [hnil, List.length_nil] at hlength
      omega
  · intro u hu
    rw [deliver_mem_sale hdeliver hu]
    exact ⟨hcontract', rfl⟩
  · refine ⟨t, change, ?_, hdistributor, hsender, htokens, ?_, ?_⟩
    · rw [payments_sale _ _ hpayments, hpays]
    · rw [hquantity']
      exact htotal
    · rw [dealTraces_sale, hquantity', ← hprices, ← htraced]

/-- A purchase dispenses exactly what was paid for: whatever numbers in range are drawn, every draw
finds an entry. The purchases of the contract are among these: with the numbers that `_rand` gives,
it does the same to an accepted payment, and it accepts no other. -/
theorem purchase_dispenses (hsender : n.sender ≠ self) (hrecipient : n.recipient = self)
    (hquantity : 0 < n.quantity.amount) :
    (∀ boothId booth box numbers, InOrder s boothId booth box →
      Accepted self env s n boothId booth numbers.length → InRange booth.nftNum.toNat numbers →
      ∃ s' outs, sellAt env n booth numbers s = .ok (s', outs) ∧
        Dispensed n s booth box s' outs) ∧
    (∀ s' outs, transferToken self env n s = .ok (s', outs) → ∃ boothId booth numbers,
      Accepted self env s n boothId booth numbers.length ∧ InRange booth.nftNum.toNat numbers ∧
      sellAt env n booth numbers s = .ok (s', outs) ∧
      ∀ box, InOrder s boothId booth box → Dispensed n s booth box s' outs) ∧
    ∀ boothId booth numbers, Accepted self env s n boothId booth numbers.length →
      numbersOf env n.sender numbers.length 0 booth.nftNum = .ok numbers →
      InRange booth.nftNum.toNat numbers ∧
        transferToken self env n s = sellAt env n booth numbers s := by
  refine ⟨?given, ?purchases, ?answered⟩
  case given =>
    intro boothId booth box numbers horder haccepted hrange
    exact dispensed_of_sellAt hquantity horder haccepted hrange
  case purchases =>
    intro s' outs h
    have hto : ¬ (n.sender = self ∨ n.recipient ≠ self) := by simp [hsender, hrecipient]
    obtain ⟨boothId, booth, numbers, haccepted, hnumbers⟩ := numbers_of_transferToken hto h
    have hrange := inRange_numbersOf hnumbers
    rw [transferToken_eq_sellAt haccepted hnumbers] at h
    refine ⟨boothId, booth, numbers, haccepted, hrange, h, ?_⟩
    intro box horder
    obtain ⟨s'', outs', hsell, hdispensed⟩ :=
      dispensed_of_sellAt hquantity horder haccepted hrange
    rw [h, Except.ok.injEq, Prod.mk.injEq] at hsell
    rw [hsell.1, hsell.2]
    exact hdispensed
  case answered =>
    intro boothId booth numbers haccepted hnumbers
    exact ⟨inRange_numbersOf hnumbers, transferToken_eq_sellAt haccepted hnumbers⟩

end Purchase

/-! ## Two of five cards -/

namespace Sample

/-- The buyer pays for two cards, and gets change. -/
def payTwo : Notice := ⟨mtoken, buyer, account, .lit (int64 25) must, "booth:1".toList, by decide⟩

/-- A card of which there are four. -/
def common : Nsymbol := ⟨20001, 7⟩

/-- One card of one kind, and four of another. -/
def fiveCards : BoothBox := ⟨1, (Table.empty.put ⟨card, 1⟩).put ⟨common, 4⟩⟩

def openBooth : Booth := { booth with nftBoxNum := 2, nftNum := 5, nftNumSum := 5 }

def withCards : State := ⟨{}, Table.empty.put openBooth, Table.empty.put fiveCards⟩

/-- The first draw gets the number 4, the second one the number 1. -/
def shuffled : Env :=
  { env with sha256 := fun seed => if seed.getLast? = some '0' then 3 else 0 }

theorem payTwo_accepted : Accepted account shuffled withCards payTwo 1 openBooth 2 := by
  refine ⟨⟨by decide, rfl, ⟨by decide, by decide, by decide⟩, rfl, rfl, by decide, by decide, rfl,
    rfl, by decide⟩, by decide, by decide, by decide, by decide, ?_⟩
  exact ⟨.lit (int64 20) must, .lit (int64 20) must, by decide, by decide⟩

/-- The first draw passes the one card and takes one of the four, the second draw takes the one card
and its entry goes. The buyer is sent one of each. -/
theorem purchase_dispenses_sample :
    ∃ s' outs, transferToken account shuffled payTwo withCards = .ok (s', outs) ∧
      sellAt shuffled payTwo openBooth [4, 1] withCards = .ok (s', outs) ∧
      Dispensed payTwo withCards openBooth fiveCards s' outs ∧
      delivered card outs = 1 ∧ delivered common outs = 1 := by
  have horder : InOrder withCards 1 openBooth fiveCards := by
    refine ⟨rfl, ⟨rfl, rfl, ?_⟩, ?_⟩
    · show ∀ e ∈ fiveCards.nfts.rows, 0 < e.count.toNat
      decide
    · show ∀ e ∈ fiveCards.nfts.rows, ∀ e' ∈ fiveCards.nfts.rows, e.symbol.id = e'.symbol.id →
        e.symbol = e'.symbol
      decide
  obtain ⟨hgiven, -, hanswered⟩ :=
    @purchase_dispenses account shuffled payTwo withCards (by decide) rfl (by decide)
  obtain ⟨hrange, hsame⟩ := hanswered 1 openBooth [4, 1] payTwo_accepted (by decide)
  obtain ⟨s', outs, hsell, hdispensed⟩ :=
    hgiven 1 openBooth fiveCards [4, 1] horder payTwo_accepted hrange
  have hdelivered : Succeeds (sellAt shuffled payTwo openBooth [4, 1] withCards) fun r =>
      delivered card r.2 = 1 ∧ delivered common r.2 = 1 := by decide
  rw [hsell] at hdelivered
  exact ⟨s', outs, hsame.trans hsell, hsell, hdispensed, hdelivered⟩

end Sample

end Blindbox
end ToolkitContracts
