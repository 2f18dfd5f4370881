import ToolkitContracts.Blindbox.Draws
import ToolkitContracts.Blindbox.Stored
import ToolkitContracts.Lib.Transition

/-!
# Boxes, counters and what the contract holds

What the contract holds for a booth is a history variable: deposits into the booth add to it,
and what a purchase or the closing of the booth delivers is taken off. In a state that agrees,
it is what the box says, and the counters of the booth say the same. The maintenance actions
write the box and not the counters, so they keep the agreement only when they change nothing;
and a deposit keeps it while the number of units stays below 2^64.
-/

namespace ToolkitContracts
namespace Blindbox

open Transition

/-- How many units of each kind the contract holds for each booth. -/
abbrev Ledger := ℕ → Nsymbol → ℤ

/-- The booth that a memo names. -/
def memoBooth (memo : List Char) : Option ℕ :=
  match stoul ((splitText memo ':').getD 1 []) with
  | .ok boothId => some boothId
  | .error _ => none

/-- The booth that a transfer or a closing is about. -/
def Input.booth? : Input → Option ℕ
  | .token n => memoBooth n.memo
  | .ntoken n => memoBooth n.memo
  | .act (.closebooth _ boothId) => some boothId
  | .act _ => none

/-- The units of a kind that an input brings. -/
def brought (self : Name) (sym : Nsymbol) : Input → ℤ
  | .ntoken n => if n.recipient = self then unitsOf sym n.assets else 0
  | .token _ | .act _ => 0

theorem brought_ntoken (self : Name) (sym : Nsymbol) (n : NftNotice) :
    brought self sym (.ntoken n) = if n.recipient = self then unitsOf sym n.assets else 0 := rfl

/-- The units of a kind that are delivered. -/
def delivered (sym : Nsymbol) : List Out → ℤ
  | [] => 0
  | .deliver t :: outs => unitsOf sym t.assets + delivered sym outs
  | .pay _ :: outs => delivered sym outs
  | .trace _ :: outs => delivered sym outs

/-- The ledger after an input that sent `outs`. -/
def Ledger.after (self : Name) (g : Ledger) (i : Input) (outs : List Out) : Ledger :=
  fun boothId sym =>
    if i.booth? = some boothId then g boothId sym + brought self sym i - delivered sym outs
    else g boothId sym

/-- The contract with the ledger. -/
def stepLedger (self : Name) : World × Ledger → Env × Input → Except Abort (World × Ledger) :=
  recording (step self) fun g _ i w' => g.after self i.2 w'.sent

/-- The counters of a booth agree with its box, and the box says what is held for the booth. -/
structure AgreesAt (s : State) (held : Nsymbol → ℤ) (boothId : ℕ) : Prop where
  counters : ∀ booth box, s.booths.find? boothId = some booth →
    s.boxes.find? boothId = some box → CountersAgree booth box
  held : ∀ sym, held sym = s.units boothId sym

/-- Boxes, counters and ledger agree. -/
def Agreement (s : State) (g : Ledger) : Prop := ∀ boothId, AgreesAt s (g boothId) boothId

/-- The inputs that keep boxes and counters in agreement: a deposit that keeps the number of
units below 2^64, a `createbooth` that hits no full box, a `delboothbox` of a kind that the box
has nothing of, and a `fixboothbox` to the count that is there. -/
def Clean (self : Name) (s : State) : Input → Prop
  | .ntoken n => n.recipient = self → ∀ booth ∈ s.booths.rows, memoBooth n.memo = some booth.id →
      (booth.nftNum.toNat : ℤ) + totalUnits n.assets < 2 ^ 64
  | .act (.createbooth ..) => ∀ box ∈ s.boxes.rows, box.boothId = s.nextBoothId → box.kinds = 0
  | .act (.delboothbox boothId nsymb) => s.units boothId nsymb = 0
  | .act (.fixboothbox boothId nfts) => s.units boothId nfts.symbol = u64 nfts.amount ∧
      (u64 nfts.amount = 0 → ∀ booth ∈ s.booths.rows, booth.id ≠ boothId)
  | .token _ | .act _ => True

instance (self : Name) (s : State) (i : Input) : Decidable (Clean self s i) := by
  rcases i with n | n | a
  · exact .isTrue trivial
  · dsimp only [Clean]
    infer_instance
  · cases a <;> dsimp only [Clean] <;> infer_instance

/-! ## What is delivered -/

section Delivered
variable {env : Env} {booth : Booth} {buyer : Name} {nfts : List Nasset} {deals outs : List Out}
  {box : BoothBox} {memo : List Char} {boothId : ℕ}

theorem memoBooth_of_names (h : MemoNames memo boothId) : memoBooth memo = some boothId := by
  unfold memoBooth
  rw [h.id]

theorem delivered_append (sym : Nsymbol) (as bs : List Out) :
    delivered sym (as ++ bs) = delivered sym as + delivered sym bs := by
  induction as with
  | nil => simp [delivered]
  | cons a as ih =>
    cases a with
    | deliver t => simp only [List.cons_append, delivered, ih, add_assoc]
    | pay t => simpa only [List.cons_append, delivered] using ih
    | trace d => simpa only [List.cons_append, delivered] using ih

/-- Traces deliver nothing. -/
theorem delivered_traces (sym : Nsymbol) (h : traces env booth buyer nfts = .ok deals) :
    delivered sym deals = 0 := by
  induction nfts generalizing deals with
  | nil =>
    rw [← Except.ok.inj h]
    rfl
  | cons nft nfts ih =>
    simp only [traces, bind_eq_ok, pure_eq_ok] at h
    obtain ⟨paidQuant, -, rest, hrest, rfl⟩ := h
    show delivered sym rest = 0
    exact ih hrest

/-- A purchase delivers what it drew. -/
theorem delivered_purchase (sym : Nsymbol) (pays : List Out) (t : NftTransfer)
    (hpays : delivered sym pays = 0) (hdeals : traces env booth buyer nfts = .ok deals) :
    delivered sym (pays ++ deals ++ [.deliver t]) = unitsOf sym t.assets := by
  rw [delivered_append, delivered_append, hpays, delivered_traces sym hdeals]
  simp [delivered]

/-- A refund of positive amounts is the content of the box. -/
theorem unitsOf_refund (sym : Nsymbol) (hpos : ∀ a ∈ box.refund, 0 < a.amount) :
    unitsOf sym box.refund = box.count sym := by
  have hexact : ∀ e ∈ box.nfts, i64 e.count.toNat = e.count.toNat := by
    intro e he
    have hlt : e.count.toNat < 2 ^ 64 := e.count.toNat_lt
    have hmem : Nasset.new e.count.toNat e.symbol ∈ box.refund := List.mem_map.mpr ⟨e, he, rfl⟩
    have hamount := hpos _ hmem
    rw [Nasset.amount_new] at hamount
    unfold i64 at hamount ⊢
    omega
  have hsum : unitsOf sym box.refund
      = box.nfts.sum fun e => if e.symbol.raw = sym.raw then (e.count.toNat : ℤ) else 0 := by
    rw [unitsOf_eq_sum, BoothBox.refund, List.map_map]
    apply Table.sum_congr
    intro e he
    show (if e.symbol = sym then i64 e.count.toNat else 0) = _
    rw [hexact e he]
    exact if_congr Nsymbol.raw_inj.symm rfl rfl
  rw [hsum, Table.sum_ite_key, BoothBox.count]
  cases box.nfts.find? sym.raw <;> rfl

end Delivered

/-! ## One booth at a time -/

section Frame
variable {self : Name} {s s' : State} {g g' : Ledger} {held : Nsymbol → ℤ} {i : Input}
  {outs : List Out} {boothId : ℕ} {booth booth' : Booth} {box : BoothBox}

/-- The states differ in one booth and its box at most. -/
structure SameElsewhere (s s' : State) (boothId : ℕ) : Prop where
  booths : ∀ j, j ≠ boothId → s'.booths.find? j = s.booths.find? j
  boxes : ∀ j, j ≠ boothId → s'.boxes.find? j = s.boxes.find? j

theorem AgreesAt.frame (h : AgreesAt s held boothId)
    (hbooth : s'.booths.find? boothId = s.booths.find? boothId)
    (hbox : s'.boxes.find? boothId = s.boxes.find? boothId) : AgreesAt s' held boothId := by
  constructor
  · rw [hbooth, hbox]
    exact h.counters
  · unfold State.units
    rw [hbox]
    exact h.held

/-- A step about one booth keeps the agreement when it keeps it there. -/
theorem agreement_iff_at (h : Agreement s g) (hsame : SameElsewhere s s' boothId)
    (hledger : ∀ j, j ≠ boothId → g' j = g j) :
    Agreement s' g' ↔ AgreesAt s' (g' boothId) boothId := by
  constructor
  · intro hall
    exact hall boothId
  · intro hat j
    by_cases hj : j = boothId
    · rw [hj]
      exact hat
    · rw [hledger j hj]
      exact (h j).frame (hsame.booths j hj) (hsame.boxes j hj)

theorem after_elsewhere (g : Ledger) (hi : i.booth? = some boothId) (j : ℕ) (hj : j ≠ boothId) :
    g.after self i outs j = g j := by
  funext sym
  unfold Ledger.after
  rw [hi, if_neg fun heq => hj (Option.some.inj heq).symm]

theorem after_at (g : Ledger) (hi : i.booth? = some boothId) (sym : Nsymbol) :
    g.after self i outs boothId sym
      = g boothId sym + brought self sym i - delivered sym outs := by
  unfold Ledger.after
  rw [if_pos hi]

/-- An input that brings what it delivers leaves the ledger as it is. -/
theorem after_of_balanced (g : Ledger) (h : ∀ sym, brought self sym i = delivered sym outs) :
    g.after self i outs = g := by
  funext boothId sym
  unfold Ledger.after
  rw [h, add_sub_cancel_right, ite_self]

theorem after_of_quiet (g : Ledger) (h : i.booth? = none) : g.after self i outs = g := by
  funext boothId sym
  unfold Ledger.after
  rw [h]
  rfl

/-- A booth that is there, with its box. -/
theorem agreesAt_iff (held : Nsymbol → ℤ) (hbooth : s.booths.find? boothId = some booth)
    (hbox : s.boxes.find? boothId = some box) :
    AgreesAt s held boothId ↔ CountersAgree booth box ∧ ∀ sym, held sym = box.count sym := by
  constructor
  · intro h
    refine ⟨h.counters booth box hbooth hbox, fun sym => ?_⟩
    rw [h.held, units_eq_count hbox]
  · rintro ⟨hagree, hheld⟩
    constructor
    · intro booth' box' hbooth' hbox'
      obtain rfl : booth = booth' := Option.some.inj (hbooth.symm.trans hbooth')
      obtain rfl : box = box' := Option.some.inj (hbox.symm.trans hbox')
      exact hagree
    · intro sym
      rw [hheld, units_eq_count hbox]

/-- Where the counters agree, a ledger of what the boxes say makes the agreement. -/
theorem agreement_of_counters
    (h : ∀ booth ∈ s.booths.rows, ∀ box ∈ s.boxes.rows, box.boothId = booth.id →
      CountersAgree booth box) :
    Agreement s fun boothId sym => s.units boothId sym := by
  intro boothId
  constructor
  · intro booth box hbooth hbox
    obtain ⟨hmem, hid⟩ := Table.find?_eq_some.mp hbooth
    obtain ⟨hrow, hkey⟩ := Table.find?_eq_some.mp hbox
    exact h booth hmem box hrow (hkey.trans hid.symm)
  · intro sym
    rfl

theorem CountersAgree.of_eq (h : CountersAgree booth box) (hnum : booth'.nftNum = booth.nftNum)
    (hkinds : booth'.nftBoxNum = booth.nftBoxNum) : CountersAgree booth' box := by
  constructor
  · rw [hnum]
    exact h.units
  · rw [hkinds]
    exact h.kinds
  · exact h.positive

/-- A booth that is written with the same counters. -/
theorem agreement_put (h : Agreement s g) (hold : s.booths.find? booth'.id = some booth)
    (hnum : booth'.nftNum = booth.nftNum) (hkinds : booth'.nftBoxNum = booth.nftBoxNum) :
    Agreement { s with booths := s.booths.put booth' } g := by
  intro boothId
  constructor
  · intro b box hb hbox
    rw [Table.find?_put] at hb
    split at hb
    · next heq =>
      rw [← Option.some.inj hb]
      rw [heq] at hbox
      exact ((h booth'.id).counters booth box hold hbox).of_eq hnum hkinds
    · exact (h boothId).counters b box hb hbox
  · exact (h boothId).held

end Frame

/-! ## Actions -/

section Maintenance
variable {self : Name} {env : Env} {s : State} {g : Ledger} {boothId : ℕ} {booth : Booth}
  {box : BoothBox} {outs : List Out}

/-- An empty box has no units. -/
theorem total_of_kinds (h : box.kinds = 0) : box.total = 0 := by
  have hrows : box.nfts.rows = [] := List.length_eq_zero_iff.mp h
  unfold BoothBox.total Table.sum
  rw [hrows]
  rfl

/-- New counters of zero agree with a box that is empty. -/
theorem countersAgree_zero_iff (hpos : box.Positive) (hnum : booth.nftNum = 0)
    (hkinds : booth.nftBoxNum = 0) : CountersAgree booth box ↔ box.kinds = 0 := by
  constructor
  · intro h
    rw [← h.kinds, hkinds]
    rfl
  · intro h
    refine ⟨?_, ?_, hpos⟩
    · rw [hnum, total_of_kinds h]
      rfl
    · rw [hkinds, h]
      rfl

/-- A booth that is overwritten loses its counters. -/
theorem agreement_overwrite {old : Booth} (h : Agreement s g)
    (hold : s.booths.find? booth.id = some old) (hnum : booth.nftNum = 0)
    (hkinds : booth.nftBoxNum = 0) (gstate : Global) :
    Agreement { s with gstate, booths := s.booths.put booth } g ↔
      ∀ box ∈ s.boxes.rows, box.boothId = booth.id → box.kinds = 0 := by
  have hfound : (s.booths.put booth).find? booth.id = some booth :=
    Table.find?_self (Table.mem_put_self ..)
  constructor
  · intro hafter box hbox hid
    have hrow : s.boxes.find? booth.id = some box := Table.find?_eq_some.mpr ⟨hbox, hid⟩
    have hagree := (h booth.id).counters old box hold hrow
    have hnew := (hafter booth.id).counters booth box hfound hrow
    exact (countersAgree_zero_iff hagree.positive hnum hkinds).mp hnew
  · intro hempty boothId
    constructor
    · intro b box hb hbox
      by_cases hid : boothId = booth.id
      · rw [hid] at hb hbox
        have hrow : s.boxes.find? booth.id = some box := hbox
        obtain rfl : booth = b := Option.some.inj (hfound.symm.trans hb)
        have hagree := (h booth.id).counters old box hold hrow
        obtain ⟨hmem, hkey⟩ := Table.find?_eq_some.mp hrow
        exact (countersAgree_zero_iff hagree.positive hnum hkinds).mpr (hempty box hmem hkey)
      · have hb' : (s.booths.put booth).find? boothId = some b := hb
        rw [Table.find?_put, if_neg hid] at hb'
        exact (h boothId).counters b box hb' hbox
    · exact (h boothId).held

/-- A closed booth has nothing left, neither in its box nor in the ledger. -/
theorem agreement_close (h : Agreement s g) (owner : Name)
    (hbox : s.boxes.find? boothId = some box)
    (hrefund : ∀ sym, delivered sym outs = box.count sym) :
    Agreement { s with boxes := s.boxes.erase boothId, booths := s.booths.erase boothId }
      (g.after self (.act (.closebooth owner boothId)) outs) := by
  have hsame : SameElsewhere s
      { s with boxes := s.boxes.erase boothId, booths := s.booths.erase boothId } boothId := by
    constructor
    · intro j hj
      rw [Table.find?_erase, if_neg hj]
    · intro j hj
      rw [Table.find?_erase, if_neg hj]
  have hi : (Input.act (.closebooth owner boothId)).booth? = some boothId := rfl
  refine (agreement_iff_at h hsame (after_elsewhere g hi)).mpr ⟨?_, fun sym => ?_⟩
  · intro b box' hb
    rw [Table.find?_erase, if_pos rfl] at hb
    cases hb
  · have hgone : (s.boxes.erase boothId).find? boothId = none := by
      rw [Table.find?_erase, if_pos rfl]
    have hheld := (h boothId).held sym
    rw [units_eq_count hbox] at hheld
    have hnone : ({ s with boxes := s.boxes.erase boothId, booths := s.booths.erase boothId } :
        State).units boothId sym = 0 := units_of_none hgone sym
    rw [hnone, after_at g hi, hrefund, hheld]
    show (box.count sym : ℤ) + 0 - box.count sym = 0
    omega

/-- A box may be written in place of another when the counts stay, and the counters with them. -/
theorem agreement_putBox (h : Agreement s g) (box' : BoothBox)
    (hbox : s.boxes.find? boothId = some box) (hid : box'.boothId = boothId) :
    Agreement { s with boxes := s.boxes.put box' } g ↔
      (∀ sym, box'.count sym = box.count sym) ∧
        ∀ booth, s.booths.find? boothId = some booth → CountersAgree booth box' := by
  have hstored : (s.boxes.put box').find? boothId = some box' := by
    rw [Table.find?_put, if_pos hid.symm]
  have hsame : SameElsewhere s { s with boxes := s.boxes.put box' } boothId := by
    constructor
    · intro j _
      rfl
    · intro j hj
      rw [Table.find?_put, hid, if_neg hj]
  have hheld : ∀ sym, g boothId sym = box.count sym := by
    intro sym
    rw [(h boothId).held, units_eq_count hbox]
  have hunits : ∀ sym, ({ s with boxes := s.boxes.put box' } : State).units boothId sym
      = box'.count sym := units_eq_count hstored
  rw [agreement_iff_at h hsame fun j _ => rfl]
  constructor
  · intro hat
    refine ⟨fun sym => ?_, fun booth hbooth => hat.counters booth box' hbooth hstored⟩
    have hsym := hat.held sym
    rw [hheld, hunits] at hsym
    exact (Int.ofNat_inj.mp hsym).symm
  · rintro ⟨hcounts, hcounters⟩
    constructor
    · intro booth b hbooth hb
      obtain rfl : box' = b := Option.some.inj (hstored.symm.trans hb)
      exact hcounters booth hbooth
    · intro sym
      rw [hheld, hunits, hcounts]

/-- An entry may be deleted when the box has nothing of its kind. -/
theorem agreement_delbox (h : Agreement s g) (hbox : s.boxes.find? boothId = some box)
    (nsymb : Nsymbol) :
    Agreement { s with boxes := s.boxes.put { box with nfts := box.nfts.erase nsymb.raw } } g ↔
      s.units boothId nsymb = 0 := by
  have hid : box.boothId = boothId := (Table.find?_eq_some.mp hbox).2
  rw [agreement_putBox h { box with nfts := box.nfts.erase nsymb.raw } hbox hid,
    units_eq_count hbox]
  constructor
  · rintro ⟨hcounts, -⟩
    rw [← hcounts nsymb, count_erase, if_pos rfl]
  · intro hzero
    refine ⟨fun sym => ?_, fun booth hbooth => ?_⟩
    · rw [count_erase]
      split
      · next heq => rw [← heq, hzero]
      · rfl
    · -- a positive entry would count, so there is none to delete
      have hagree := (h boothId).counters booth box hbooth hbox
      have habsent : box.nfts.find? nsymb.raw = none := by
        cases hfind : box.nfts.find? nsymb.raw with
        | none => rfl
        | some e =>
          have hpos := hagree.positive e (Table.find?_eq_some.mp hfind).1
          rw [count_of_find hfind] at hzero
          omega
      rw [Table.erase_of_none habsent]
      exact hagree

/-- An entry may be set to the count that is there, unless that is zero and the booth exists. -/
theorem agreement_fixbox (h : Agreement s g) (hbox : s.boxes.find? boothId = some box)
    (nfts : Nasset) :
    Agreement { s with boxes := s.boxes.put { box with
      nfts := box.nfts.put ⟨nfts.symbol, UInt64.ofNat (u64 nfts.amount)⟩ } } g ↔
      s.units boothId nfts.symbol = u64 nfts.amount ∧
        (u64 nfts.amount = 0 → ∀ booth ∈ s.booths.rows, booth.id ≠ boothId) := by
  have hid : box.boothId = boothId := (Table.find?_eq_some.mp hbox).2
  have hcount : (UInt64.ofNat (u64 nfts.amount)).toNat = u64 nfts.amount := by
    rw [UInt64.toNat_ofNat', Nat.mod_eq_of_lt (u64_lt _)]
  generalize hentry : (⟨nfts.symbol, UInt64.ofNat (u64 nfts.amount)⟩ : BoxEntry) = entry
  have hsymbol : nfts.symbol = entry.symbol := by rw [← hentry]
  have hamount : u64 nfts.amount = entry.count.toNat := by rw [← hentry, hcount]
  rw [agreement_putBox h { box with nfts := box.nfts.put entry } hbox hid,
    units_eq_count hbox, hsymbol, hamount]
  constructor
  · rintro ⟨hcounts, hcounters⟩
    refine ⟨?_, fun hzero booth hmem hbooth => ?_⟩
    · rw [← hcounts entry.symbol, count_put, if_pos rfl]
    · have hagree := hcounters booth (Table.find?_eq_some.mpr ⟨hmem, hbooth⟩)
      have hpos : 0 < entry.count.toNat := hagree.positive entry (Table.mem_put_self ..)
      omega
  · rintro ⟨hsame, hzero⟩
    refine ⟨fun sym => ?_, fun booth hbooth => ?_⟩
    · rw [count_put]
      split
      · next heq => rw [← heq, hsame]
      · rfl
    · -- the entry that is there is the one that is written
      have hagree := (h boothId).counters booth box hbooth hbox
      have hne : entry.count.toNat ≠ 0 := by
        intro hnone
        obtain ⟨hmem, hkey⟩ := Table.find?_eq_some.mp hbooth
        exact hzero hnone booth hmem hkey
      cases hfind : box.nfts.find? entry.symbol.raw with
      | none =>
        rw [count_of_none hfind] at hsame
        omega
      | some e =>
        rw [count_of_find hfind] at hsame
        have hsum : ((box.nfts.put entry).sum fun e => e.count.toNat) + e.count.toNat
            = (box.nfts.sum fun e => e.count.toNat) + entry.count.toNat :=
          Table.sum_put_old (x := entry) hfind _
        have hlength : (box.nfts.put entry).rows.length = box.nfts.rows.length :=
          Table.length_put_old (x := entry) hfind
        refine ⟨?_, ?_, Table.forall_put hagree.positive (by omega)⟩
        · rw [hagree.units]
          unfold BoothBox.total
          simp only
          omega
        · rw [hagree.kinds]
          exact hlength.symm

end Maintenance

/-! ## Deposits and purchases -/

section Transfers
variable {self : Name} {env : Env} {s s₁ s' : State} {g : Ledger} {boothId : ℕ} {booth : Booth}
  {box : BoothBox} {num kinds : UInt64} {n : NftNotice}

/-- A deposit that is accepted is clean when the units fit into the counter. -/
theorem clean_deposit_iff (h : DepositAllowed self env s n boothId booth) :
    Clean self s (.ntoken n) ↔ (booth.nftNum.toNat : ℤ) + totalUnits n.assets < 2 ^ 64 := by
  obtain ⟨hmem, hid⟩ := Table.find?_eq_some.mp h.found
  have hmemo : memoBooth n.memo = some boothId := memoBooth_of_names h.memo
  constructor
  · intro hclean
    apply hclean h.recipient booth hmem
    rw [hmemo, hid]
  · intro hfits _ b hb hnames
    have hkey : b.id = boothId := Option.some.inj (hnames.symm.trans hmemo)
    rw [Table.eq_of_key_eq hb hmem (hkey.trans hid.symm)]
    exact hfits

/-- After a deposit the counters agree when and only when the units fit into them. -/
theorem countersAgree_deposited (hagree : CountersAgree booth box)
    (hpos : ∀ nft ∈ n.assets, 0 < nft.amount)
    (hloop : Deposited boothId box n.assets s s₁ 0 0 num kinds) (now : UInt32) :
    (CountersAgree (booth.deposited num kinds now) (box.receiveAll n.assets) ∧
      ∀ sym, ((box.receiveAll n.assets).count sym : ℤ) = box.count sym + unitsOf sym n.assets) ↔
      (booth.nftNum.toNat : ℤ) + totalUnits n.assets < 2 ^ 64 := by
  have hunits := hagree.units
  constructor
  · rintro ⟨hafter, hexact⟩
    have htotal := total_receiveAll hpos ((fits_iff hpos).mpr hexact)
    have hlt : (booth.deposited num kinds now).nftNum.toNat < 2 ^ 64 := UInt64.toNat_lt _
    rw [hafter.units] at hlt
    omega
  · intro hlt
    have hfits : box.Fits n.assets := fits_of_total hpos (by omega)
    have htotal := total_receiveAll hpos hfits
    have hpositive := positive_receiveAll hpos hagree.positive hfits
    have hfew := kinds_le_total hpositive
    have hkinds := kinds_receiveAll box n.assets
    have hnum := hloop.units
    have hnew := hloop.newKinds
    have hbefore := hagree.kinds
    have hzero : (0 : UInt64).toNat = 0 := rfl
    refine ⟨⟨?_, ?_, hpositive⟩, (fits_iff hpos).mp hfits⟩
    · show (booth.nftNum + num).toNat = _
      rw [UInt64.toNat_add]
      omega
    · show (booth.nftBoxNum + kinds).toNat = _
      rw [UInt64.toNat_add]
      omega

theorem agreement_deposit (h : Agreement s g)
    (hallowed : DepositAllowed self env s n boothId booth) (hpos : ∀ nft ∈ n.assets, 0 < nft.amount)
    (hbox : s.boxes.find? boothId = some box)
    (hloop : Deposited boothId box n.assets s s₁ 0 0 num kinds) (now : UInt32) :
    Agreement { s₁ with booths := s.booths.put (booth.deposited num kinds now) }
      (g.after self (.ntoken n) []) ↔ Clean self s (.ntoken n) := by
  have hid : booth.id = boothId := (Table.find?_eq_some.mp hallowed.found).2
  have hkey : (booth.deposited num kinds now).id = boothId := hid
  have hstored : (s.booths.put (booth.deposited num kinds now)).find? boothId
      = some (booth.deposited num kinds now) := by
    rw [Table.find?_put, if_pos hkey.symm]
  have hsame : SameElsewhere s
      { s₁ with booths := s.booths.put (booth.deposited num kinds now) } boothId := by
    constructor
    · intro j hj
      rw [Table.find?_put, hkey, if_neg hj]
    · exact hloop.others
  have hi : (Input.ntoken n).booth? = some boothId := memoBooth_of_names hallowed.memo
  have hagree := (h boothId).counters booth box hallowed.found hbox
  have hledger : ∀ sym, g.after self (.ntoken n) [] boothId sym
      = box.count sym + unitsOf sym n.assets := by
    intro sym
    rw [after_at g hi, (h boothId).held, units_eq_count hbox, brought_ntoken,
      if_pos hallowed.recipient]
    exact sub_zero _
  have hat := agreesAt_iff (s := { s₁ with booths := s.booths.put (booth.deposited num kinds now) })
    (g.after self (.ntoken n) [] boothId) hstored hloop.received
  rw [agreement_iff_at h hsame (after_elsewhere g hi), hat, clean_deposit_iff hallowed,
    ← countersAgree_deposited hagree hpos hloop now]
  refine and_congr_right fun _ => forall_congr' fun sym => ?_
  rw [hledger]
  exact eq_comm

/-- A draw needs a box row. -/
theorem box_of_drawEach {owner : Name} {count i : ℕ} {bought : Bought}
    {acc : State × Booth × Bought} (hpos : 0 < count)
    (h : drawEach env owner count i (s, booth, bought) = .ok acc) :
    ∃ box, s.boxes.find? booth.id = some box := by
  cases count with
  | zero => omega
  | succ count =>
    simp only [drawEach, oneNft, bind_eq_ok, require_eq_ok] at h
    obtain ⟨_, ⟨box, hbox, -⟩, -⟩ := h
    exact ⟨box, hbox⟩

/-- A purchase hands over what it takes out of the box. -/
theorem agreement_purchase {count : ℤ} {n : Notice} {outs : List Out} (h : Agreement s g)
    (hallowed : PurchaseAllowed self env s n boothId booth)
    (hsold : Sold env s n booth count s' outs) :
    Agreement s' (g.after self (.token n) outs) := by
  obtain ⟨paid, left, fundRecd, booth', bought, deals, -, -, -, hdraws, hdeals, houts⟩ := hsold.draws
  have hid : booth.id = boothId := (Table.find?_eq_some.mp hallowed.found).2
  have hcount : 0 < count.toNat := by
    have hpos := hsold.some
    omega
  have hfew : 0 + count.toNat ≤ 2 ^ 32 := by
    have hmax := hsold.allowed
    have hlt : s.gstate.maxNftsPurchase.toNat < 2 ^ 16 := UInt16.toNat_lt _
    omega
  obtain ⟨box, hbox⟩ := box_of_drawEach hcount hdraws
  have hbox' : s.boxes.find? boothId = some box := by
    rw [← hid]
    exact hbox
  have hagree := (h boothId).counters booth box hallowed.found hbox'
  have hpaid : CountersAgree { booth with fundRecd, updatedAt := env.nowSec } box :=
    hagree.of_eq rfl rfl
  have hnothing : Bought.UpTo .empty 0 := fun b hb => absurd hb (Table.not_mem_empty b)
  obtain ⟨box', hdrawn, hlast⟩ := drawn_of_drawEach hdraws hbox hpaid hnothing hfew
  have hstored : s'.booths.find? boothId = some booth' := by
    rw [← hid]
    exact hlast hcount
  have hleft : s'.boxes.find? boothId = some box' := by
    rw [hdrawn.boxes, if_pos hid.symm]
  have hsame : SameElsewhere s s' boothId := by
    constructor
    · intro j hj
      exact hdrawn.booths j fun heq => hj (heq.trans hid)
    · intro j hj
      rw [hdrawn.boxes, if_neg fun heq => hj (heq.trans hid)]
  have hi : (Input.token n).booth? = some boothId := memoBooth_of_names hallowed.memo
  refine (agreement_iff_at h hsame (after_elsewhere g hi)).mpr
    ((agreesAt_iff _ hstored hleft).mpr ⟨hdrawn.agree, fun sym => ?_⟩)
  have hdelivered : delivered sym outs = unitsOf sym bought.rows := by
    rw [houts]
    apply delivered_purchase sym _ _ _ hdeals
    split <;> rfl
  have hcounts : (box'.count sym : ℤ) + (unitsOf sym bought.rows - 0) = box.count sym :=
    hdrawn.counts sym
  rw [after_at g hi, hdelivered, (h boothId).held, units_eq_count hbox']
  show (box.count sym : ℤ) + 0 - unitsOf sym bought.rows = box'.count sym
  omega

end Transfers

/-! ## Runs -/

section Runs
variable {self : Name} {env : Env} {s s' : State} {g : Ledger} {i : Input} {a : Action}
  {outs : List Out}

/-- The actions that leave the boxes alone are about no booth, and clean. -/
theorem clean_of_quiet (self : Name) (s : State) (ha : a.IsGlobal ∨ a.IsBooth) :
    (Input.act a).booth? = none ∧ Clean self s (.act a) := by
  cases a with
  | init | setmaxbox | dealtrace | enablebooth | setboothtime => exact ⟨rfl, trivial⟩
  | createbooth | closebooth | delboothbox | fixboothbox =>
    simp [Action.IsGlobal, Action.IsBooth] at ha

/-- A move keeps the agreement when and only when its input is clean. -/
theorem agreement_of_move (hm : Move self env s i s' outs) (hsigner : i.signer? ≠ some self)
    (hpos : ∀ t, Out.deliver t ∈ outs → ∀ a ∈ t.assets, 0 < a.amount) (h : Agreement s g) :
    Agreement s' (g.after self i outs) ↔ Clean self s i := by
  cases hm with
  | ignoreToken n hn =>
    rw [after_of_balanced g fun _ => rfl]
    exact iff_of_true h trivial
  | ignoreNtoken n hn =>
    have hother : n.recipient ≠ self := by
      rcases hn with hself | hother
      · exact absurd (congrArg some hself) hsigner
      · exact hother
    have hnothing : ∀ sym, brought self sym (.ntoken n) = delivered sym [] := by
      intro sym
      rw [brought_ntoken, if_neg hother]
      rfl
    rw [after_of_balanced g hnothing]
    exact iff_of_true h fun hself => absurd hself hother
  | setGlobal a gstate ha =>
    obtain ⟨hquiet, hclean⟩ := clean_of_quiet self s (Or.inl ha)
    rw [after_of_quiet g hquiet]
    exact iff_of_true (fun j => (h j).frame rfl rfl) hclean
  | overwrite a ha gstate old booth hold hid hnum hkinds =>
    obtain ⟨owner, title, nftContract, fundContract, plan, price, openedAt, days, rfl⟩ := ha
    rw [← hid] at hold
    have hiff := agreement_overwrite h hold hnum hkinds gstate
    rw [hid] at hiff
    rw [after_of_quiet g rfl]
    exact hiff
  | touch a ha old booth hold hnum hkinds =>
    obtain ⟨hquiet, hclean⟩ := clean_of_quiet self s (Or.inr ha)
    rw [after_of_quiet g hquiet]
    exact iff_of_true (agreement_put h hold hnum hkinds) hclean
  | close owner boothId booth box hbooth hbox =>
    refine iff_of_true (agreement_close h owner hbox fun sym => ?_) trivial
    by_cases hempty : box.refund.isEmpty = true
    · rw [if_pos hempty, ← unitsOf_refund sym, List.isEmpty_iff.mp hempty]
      · rfl
      · intro a ha
        rw [List.isEmpty_iff.mp hempty] at ha
        cases ha
    · rw [if_neg hempty] at hpos ⊢
      rw [← unitsOf_refund sym (hpos _ (List.mem_singleton.mpr rfl))]
      exact add_zero _
  | delbox boothId nsymb box hbox =>
    rw [after_of_quiet g rfl]
    exact agreement_delbox h hbox nsymb
  | fixbox boothId nfts box hbox =>
    rw [after_of_quiet g rfl]
    exact agreement_fixbox h hbox nfts
  | depositNothing n boothId booth hallowed hnone =>
    have hid : (booth.deposited 0 0 env.nowSec).id = boothId :=
      (Table.find?_eq_some.mp hallowed.found).2
    have hold : s.booths.find? (booth.deposited 0 0 env.nowSec).id = some booth := by
      rw [hid]
      exact hallowed.found
    have hnothing : ∀ sym, brought self sym (.ntoken n) = delivered sym [] := by
      intro sym
      rw [brought_ntoken, hnone, unitsOf_nil, ite_self]
      rfl
    rw [after_of_balanced g hnothing, clean_deposit_iff hallowed, hnone]
    refine iff_of_true (agreement_put h hold (UInt64.add_zero _) (UInt64.add_zero _)) ?_
    have hlt : booth.nftNum.toNat < 2 ^ 64 := UInt64.toNat_lt _
    unfold totalUnits
    omega
  | deposit n boothId booth box s₁ num kinds hallowed hassets hbox hloop hroom =>
    exact agreement_deposit h hallowed hassets hbox hloop env.nowSec
  | purchase n boothId booth count s' outs hallowed hsold =>
    exact iff_of_true (agreement_purchase h hallowed hsold) trivial

/-- A step keeps the agreement when and only when its input is clean. -/
theorem agreement_of_step {p p' : World × Ledger} {i : Env × Input}
    (h : Agreement p.1.state p.2) (hs : stepLedger self p i = .ok p') :
    Agreement p'.1.state p'.2 ↔ Clean self p.1.state i.2 := by
  obtain ⟨hstep, hledger⟩ := recording_eq_ok.mp hs
  obtain ⟨hsigner, -, hrun, hsettle⟩ := step_spec hstep
  rw [hledger]
  exact agreement_of_move (move_of_run hrun) hsigner
    (fun t ht a ha => pos_of_settleAll hsettle ht ha) h

/-- From a state in which boxes, counters and ledger agree, they agree after every run of clean
inputs; and a further input keeps the agreement when and only when it is clean. -/
theorem boxes_agree (self : Name) {w : World} {g : Ledger} (hstart : Agreement w.state g)
    {is : List (Env × Input)} {p : World × Ledger}
    (hrun : Run (stepLedger self) (fun p i => Clean self p.1.state i.2) (w, g) is p) :
    Agreement p.1.state p.2 ∧ ∀ i p', stepLedger self p i = .ok p' →
      (Agreement p'.1.state p'.2 ↔ Clean self p.1.state i.2) := by
  have hagree : Agreement p.1.state p.2 :=
    hrun.invariant (P := fun p => Agreement p.1.state p.2)
      (fun p i p' h hclean hs => (agreement_of_step h hs).mpr hclean) hstart
  exact ⟨hagree, fun i p' hs => agreement_of_step hagree hs⟩

end Runs

/-! ## A booth with five cards -/

namespace Sample

def buyer : Name := .lit "user2"

/-- The booth with five cards, which the contract holds, on day 100. -/
def world : World where
  state := withBox
  holding := fun _ => 0
  nfts := fun bank sym => if bank = ntoken ∧ sym = card then 5 else 0
  clock := .ofDays 100
  sent := []

def ledger : Ledger := fun boothId sym => world.state.units boothId sym

/-- The buyer pays the price of one card. -/
def payment : Notice := ⟨mtoken, buyer, account, .lit (int64 10) must, "booth:1".toList, by decide⟩

theorem agreement_world : Agreement world.state ledger := by
  apply agreement_of_counters
  intro b hb box hbox _
  rw [List.mem_singleton.mp hb, List.mem_singleton.mp hbox]
  refine ⟨rfl, rfl, fun e he => ?_⟩
  rw [List.mem_singleton.mp he]
  decide

/-- Two cards are deposited and one is sold. -/
theorem boxes_agree_sample : ∃ p, Run (stepLedger account)
      (fun p i => Clean account p.1.state i.2) (world, ledger)
      [(env, .ntoken twoCards), (env, .token payment)] p ∧
    Agreement p.1.state p.2 ∧ p.2 1 card = 6 := by
  have hreached : Reaches (stepLedger account) (fun p i => Clean account p.1.state i.2)
      (fun p => p.2 1 card = 6) [(env, .ntoken twoCards), (env, .token payment)]
      (world, ledger) := by
    decide
  obtain ⟨p, hrun, hunits⟩ := run_of_reaches hreached
  exact ⟨p, hrun, (boxes_agree account agreement_world hrun).1, hunits⟩

/-- Deleting the entry of the cards leaves the counters as they were. -/
theorem boxes_not_agree : ¬ ∀ (self : Name) (p p' : World × Ledger) (i : Env × Input),
    Agreement p.1.state p.2 → stepLedger self p i = .ok p' → Agreement p'.1.state p'.2 := by
  intro hclaim
  have hdone : Succeeds (stepLedger account (world, ledger) (env, .act (.delboothbox 1 card)))
      fun _ => True := by
    decide
  obtain ⟨p', hs, -⟩ := succeeds_iff.mp hdone
  have hafter := hclaim account (world, ledger) p' _ agreement_world hs
  have hclean : ¬ Clean account world.state (.act (.delboothbox 1 card)) := by decide
  exact hclean ((agreement_of_step agreement_world hs).mp hafter)

end Sample

end Blindbox
end ToolkitContracts
