import ToolkitContracts.Blindbox.Moves

/-!
# Calls that pass their checks

`createbooth` and the deposit loop store their rows with the overload of `dbc::set` that has
no payer, and that one only replaces rows. A new booth has no row yet, so `createbooth` never
commits with a new id; and a deposit commits only into a booth that has a box row already. What a
deposit that commits adds to the counts is exact as long as they fit into 64 bits.
-/

namespace ToolkitContracts
namespace Blindbox

/-- The arguments of `createbooth`. -/
structure BoothTerms where
  owner : Name
  title : List Char
  nftContract : Name
  fundContract : Name
  splitPlanId : ℕ
  price : Asset
  openedAt : UInt32
  durationDays : UInt64

def BoothTerms.action (t : BoothTerms) : Action :=
  .createbooth t.owner t.title t.nftContract t.fundContract t.splitPlanId t.price t.openedAt
    t.durationDays

/-- The row that `createbooth` writes. -/
def BoothTerms.row (t : BoothTerms) (id : ℕ) (fundRecd : Asset) (now : UInt32) : Booth where
  id := id
  owner := t.owner
  title := t.title
  nftContract := t.nftContract
  fundContract := t.fundContract
  splitPlanId := t.splitPlanId
  price := t.price
  fundRecd := fundRecd
  status := .enabled
  createdAt := now
  updatedAt := now
  openedAt := t.openedAt
  closedAt := closedAt t.openedAt t.durationDays

/-- The explicit checks of `createbooth`, the lookup of the split plan included. -/
structure CreateChecks (account : Name) (env : Env) (s : State) (t : BoothTerms) : Prop where
  auth : env.hasAuth account = true ∨ env.hasAuth s.gstate.admin = true
  owner : env.isAccount t.owner = true
  fundContract : env.isAccount t.fundContract = true
  nftContract : env.isAccount t.nftContract = true
  price : 0 < t.price.amount
  plan : env.plans s.gstate.fundDistributor account t.splitPlanId = true
  closes : env.nowSec < closedAt t.openedAt t.durationDays

/-- The booth is stored under the new id, with a proper time window. -/
def BoothStored (self : Name) (env : Env) (s : State) (t : BoothTerms) : Prop :=
  ∃ s' outs, run self env (.act t.action) s = .ok (s', outs) ∧
    s'.gstate.lastBoothId = s.nextBoothId ∧
    ∃ booth, s'.booths.find? s.nextBoothId = some booth ∧ booth.owner = t.owner ∧
      booth.nftContract = t.nftContract ∧ booth.fundContract = t.fundContract ∧
      booth.price = t.price ∧ booth.openedAt < booth.closedAt

/-- The box row of a booth, or an empty one where there is none. -/
def State.boxOf (s : State) (boothId : ℕ) : BoothBox :=
  (s.boxes.find? boothId).getD ⟨boothId, .empty⟩

/-- The explicit checks of a deposit. -/
structure DepositChecks (account : Name) (env : Env) (s : State) (n : NftNotice) (boothId : ℕ)
    (booth : Booth) : Prop where
  allowed : DepositAllowed account env s n boothId booth
  positive : ∀ nft ∈ n.assets, 0 < nft.amount
  room : (booth.nftBoxNum + UInt64.ofNat ((s.boxOf boothId).newKinds n.assets)).toNat
    ≤ s.gstate.maxBoothBoxes.toNat

/-- The deposit commits, and the box then has what it had and the assets. -/
def DepositStored (self : Name) (env : Env) (s : State) (n : NftNotice) (boothId : ℕ) : Prop :=
  ∃ s' outs, run self env (.ntoken n) s = .ok (s', outs) ∧
    ∀ sym, (s'.units boothId sym : ℤ) = s.units boothId sym + unitsOf sym n.assets

section Stored
variable {self : Name} {env : Env} {s : State} {t : BoothTerms} {n : NftNotice} {boothId : ℕ}
  {booth : Booth} {box : BoothBox} {e : Effects}

/-! ## New booths -/

/-- After its checks `createbooth` succeeds when the price has a valid symbol and the new id is
taken. -/
theorem createbooth_eq_ok (h : CreateChecks self env s t) :
    run self env (.act t.action) s = .ok e ↔
      ∃ fundRecd, Asset.new 0 t.price.symbol = .ok fundRecd ∧
        (∃ old, s.booths.find? s.nextBoothId = some old) ∧
        e = ({ s with
          gstate := { s.gstate with lastBoothId := s.nextBoothId }
          booths := s.booths.put (t.row s.nextBoothId fundRecd env.nowSec) }, []) := by
  simp only [run, BoothTerms.action, exec, createbooth, bind_eq_ok, checkc_eq_ok, pure_eq_ok,
    exists_const, dbcSet_eq_ok]
  constructor
  · rintro ⟨-, -, -, -, -, -, fundRecd, hnew, -, booths, ⟨hold, rfl⟩, rfl⟩
    exact ⟨fundRecd, hnew, hold, rfl⟩
  · rintro ⟨fundRecd, hnew, hold, rfl⟩
    exact ⟨h.auth, h.owner, h.fundContract, h.nftContract, h.price, h.plan, fundRecd, hnew,
      h.closes, _, ⟨hold, rfl⟩, rfl⟩

theorem find_row (t : BoothTerms) (booths : Table Booth.id) (id : ℕ) (fundRecd : Asset)
    (now : UInt32) : (booths.put (t.row id fundRecd now)).find? id = some (t.row id fundRecd now) :=
  Table.find?_self (Table.mem_put_self booths (t.row id fundRecd now))

theorem boothStored_iff (h : CreateChecks self env s t) :
    BoothStored self env s t ↔ (∃ old, s.booths.find? s.nextBoothId = some old) ∧
      t.price.symbol.isValid = true ∧ t.openedAt < closedAt t.openedAt t.durationDays := by
  unfold BoothStored
  simp only [createbooth_eq_ok h]
  constructor
  · rintro ⟨s', outs, ⟨fundRecd, hnew, hold, he⟩, -, booth, hbooth, -, -, -, -, htimes⟩
    obtain ⟨rfl, -⟩ := Prod.mk.inj he
    rw [← Option.some.inj ((find_row t _ _ _ _).symm.trans hbooth)] at htimes
    exact ⟨hold, (Asset.new_eq_ok.mp hnew).2.2.2, htimes⟩
  · rintro ⟨hold, hvalid, htimes⟩
    obtain ⟨fundRecd, hnew, -⟩ := Asset.new_of_range (x := 0) (by decide) (by decide) hvalid
    exact ⟨_, _, ⟨fundRecd, hnew, hold, rfl⟩, rfl, t.row s.nextBoothId fundRecd env.nowSec,
      find_row t _ _ _ _, rfl, rfl, rfl, rfl, htimes⟩

/-! ## Deposits -/

/-- After its checks a deposit is its loop and the update of the booth. -/
theorem deposit_of_loop (h : DepositAllowed self env s n boothId booth) {s₁ : State}
    {num kinds : UInt64} (hloop : depositEach boothId n.assets (s, 0, 0) = .ok (s₁, num, kinds))
    (hbooths : s₁.booths = s.booths)
    (hroom : (booth.nftBoxNum + kinds).toNat ≤ s₁.gstate.maxBoothBoxes.toNat) :
    run self env (.ntoken n) s
      = .ok ({ s₁ with booths := s₁.booths.put (booth.deposited num kinds env.nowSec) }, []) := by
  have hid : booth.id = boothId := (Table.find?_eq_some.mp h.found).2
  have hfields : 0 < (splitText n.memo ':').length := by
    rw [h.memo.fields]
    omega
  show onTransferNtoken self env n s = _
  unfold onTransferNtoken
  rw [if_neg h.not_ignored]
  simp only [bind_eq_ok, check_eq_ok, checkc_eq_ok, require_eq_ok, pure_eq_ok, exists_const,
    Ctx.requireAuth_eq_ok, dbcSet_eq_ok]
  refine ⟨h.auth, hfields, h.memo.booth, h.memo.fields, boothId, h.memo.id, booth, h.found,
    h.enabled, h.contract, h.owner, (s₁, num, kinds), hloop, hroom, _, ⟨⟨booth, ?_⟩, rfl⟩, rfl⟩
  show s₁.booths.find? booth.id = some booth
  rw [hbooths, hid]
  exact h.found

theorem depositStored_iff (h : DepositChecks self env s n boothId booth) :
    DepositStored self env s n boothId ↔
      ((∃ box, s.boxes.find? boothId = some box) ∨ n.assets = []) ∧
        ∀ sym, (s.units boothId sym : ℤ) + unitsOf sym n.assets < 2 ^ 64 := by
  cases hbox : s.boxes.find? boothId with
  | some box =>
    -- the loop runs, and its counts are exact when the assets fit
    obtain ⟨s₁, num, kinds, hloop, hdone⟩ := deposited_of_box 0 0 hbox h.positive
    have hkinds : kinds = UInt64.ofNat ((s.boxOf boothId).newKinds n.assets) := by
      apply UInt64.toNat_inj.mp
      have hbefore : s.boxOf boothId = box := by
        unfold State.boxOf
        rw [hbox]
        rfl
      rw [hdone.newKinds, hbefore, UInt64.toNat_ofNat']
      show (0 + _) % 2 ^ 64 = _
      rw [Nat.zero_add]
    have hroom : (booth.nftBoxNum + kinds).toNat ≤ s₁.gstate.maxBoothBoxes.toNat := by
      rw [hkinds, hdone.gstate]
      exact h.room
    have hrun := deposit_of_loop h.allowed hloop hdone.booths hroom
    have hunits : ∀ sym, s.units boothId sym = box.count sym := units_eq_count hbox
    have hafter : ∀ sym, ({ s₁ with
        booths := s₁.booths.put (booth.deposited num kinds env.nowSec) } : State).units boothId sym
        = (box.receiveAll n.assets).count sym := units_eq_count hdone.received
    simp only [hunits]
    constructor
    · rintro ⟨s', outs, hs', hexact⟩
      obtain ⟨rfl, -⟩ := Prod.mk.inj (Except.ok.inj (hs'.symm.trans hrun))
      refine ⟨Or.inl ⟨box, rfl⟩, (fits_iff h.positive).mpr fun sym => ?_⟩
      rw [← hafter, hexact, hunits]
    · rintro ⟨-, hfits⟩
      refine ⟨_, _, hrun, fun sym => ?_⟩
      rw [hafter, hunits]
      exact (fits_iff h.positive).mp hfits sym
  | none =>
    constructor
    · rintro ⟨s', outs, hs', hexact⟩
      obtain ⟨id, booth', s₁, num, kinds, booths, hallowed, hloop, -⟩ :=
        allowed_of_onTransferNtoken h.allowed.not_ignored hs'
      have hid : id = boothId := Except.ok.inj (hallowed.memo.id.symm.trans h.allowed.memo.id)
      subst hid
      cases hassets : n.assets with
      | nil =>
        refine ⟨Or.inr rfl, fun sym => ?_⟩
        unfold State.units
        rw [hbox]
        exact (by decide : (0 : ℤ) + 0 < 2 ^ 64)
      | cons nft nfts =>
        rw [hassets] at hloop
        obtain ⟨box, hsome⟩ := box_of_depositEach hloop
        rw [hbox] at hsome
        cases hsome
    · rintro ⟨hnone, -⟩
      have hassets : n.assets = [] := by
        rcases hnone with ⟨box, hsome⟩ | hassets
        · cases hsome
        · exact hassets
      have hroom := h.room
      rw [hassets] at hroom
      refine ⟨_, _, deposit_of_loop h.allowed (by rw [hassets]; rfl) rfl hroom, fun sym => ?_⟩
      rw [hassets, unitsOf_nil, add_zero]
      rfl

/-- A `createbooth` that passes its checks stores the booth only where the new id is taken, and
the price has a valid symbol and the booth opens before it closes. A deposit that passes its
checks is stored exactly when the booth has a box row, or nothing is deposited, and no count
passes 2^64. -/
theorem accepted_calls_stored (self : Name) (env : Env) (s : State) :
    (∀ t, CreateChecks self env s t →
      (BoothStored self env s t ↔ (∃ old, s.booths.find? s.nextBoothId = some old) ∧
        t.price.symbol.isValid = true ∧ t.openedAt < closedAt t.openedAt t.durationDays)) ∧
    ∀ n boothId booth, DepositChecks self env s n boothId booth →
      (DepositStored self env s n boothId ↔
        ((∃ box, s.boxes.find? boothId = some box) ∨ n.assets = []) ∧
          ∀ sym, (s.units boothId sym : ℤ) + unitsOf sym n.assets < 2 ^ 64) :=
  ⟨fun _ h => boothStored_iff h, fun _ _ _ h => depositStored_iff h⟩

end Stored

/-! ## A booth that is not there, and one without a box -/

namespace Sample

def account : Name := .lit "flon.blind1"
def seller : Name := .lit "user1"
def ntoken : Name := .lit "flon.ntoken"
def mtoken : Name := .lit "flon.mtoken"
def must : Symbol := .lit "MUST" 6
def card : Nsymbol := ⟨20000, 7⟩

/-- A transaction on day 100 that the contract and the seller have signed. -/
def env : Env where
  auths := [account, seller]
  isAccount := fun _ => true
  now := .ofDays 100
  plans := fun _ _ _ => true
  taposBlockPrefix := 0
  taposBlockNum := 0
  sha256 := fun _ => 0
  rehashes := 0

/-- A booth that is open for the first 200 days. -/
def terms : BoothTerms where
  owner := seller
  title := []
  nftContract := ntoken
  fundContract := mtoken
  splitPlanId := 1
  price := .lit (int64 10) must
  openedAt := 0
  durationDays := 200

def booth : Booth := terms.row 1 (.lit (int64 0) must) env.nowSec

/-- The booth without a box row. -/
def withoutBox : State := ⟨{}, Table.empty.put booth, .empty⟩

/-- The booth with five cards. -/
def withBox : State where
  gstate := {}
  booths := Table.empty.put { booth with nftBoxNum := 1, nftNum := 5, nftNumSum := 5 }
  boxes := Table.empty.put ⟨1, Table.empty.put ⟨card, 5⟩⟩

/-- The seller puts two cards into booth 1. -/
def twoCards : NftNotice := ⟨ntoken, seller, account, [.new 2 card], "booth:1".toList⟩

theorem createChecks : CreateChecks account env .init terms :=
  ⟨by decide, rfl, rfl, rfl, by decide, rfl, by decide⟩

theorem memoNames : MemoNames twoCards.memo 1 := ⟨by decide, by decide, by decide⟩

/-- The first booth is never stored, and neither are the first cards of a booth. -/
theorem accepted_calls_not_stored :
    (¬ ∀ (self : Name) (env : Env) (s : State) (t : BoothTerms), CreateChecks self env s t →
      BoothStored self env s t) ∧
    ¬ ∀ (self : Name) (env : Env) (s : State) (n : NftNotice) (boothId : ℕ) (booth : Booth),
      DepositChecks self env s n boothId booth → DepositStored self env s n boothId := by
  constructor
  · intro hclaim
    have hfails : Fails (run account env (.act terms.action) .init) ⟨none, "record not found"⟩ := by
      decide
    obtain ⟨s', outs, hrun, -⟩ := hclaim account env .init terms createChecks
    rw [fails_iff, hrun] at hfails
    cases hfails
  · intro hclaim
    have hfails : Fails (run account env (.ntoken twoCards) withoutBox)
        ⟨none, "record not found"⟩ := by decide
    have hchecks : DepositChecks account env withoutBox twoCards 1 booth :=
      ⟨⟨by decide, rfl, by decide, memoNames, rfl, rfl, rfl, rfl⟩, by decide, by decide⟩
    obtain ⟨s', outs, hrun, -⟩ := hclaim account env withoutBox twoCards 1 booth hchecks
    rw [fails_iff, hrun] at hfails
    cases hfails

/-- Two more cards are stored in a booth that has five, and a first booth is not. -/
theorem accepted_calls_stored_sample :
    ¬ BoothStored account env .init terms ∧ DepositStored account env withBox twoCards 1 := by
  constructor
  · intro hstored
    obtain ⟨⟨old, hold⟩, -⟩ :=
      ((accepted_calls_stored account env .init).1 terms createChecks).mp hstored
    cases hold
  · have hchecks : DepositChecks account env withBox twoCards 1
        { booth with nftBoxNum := 1, nftNum := 5, nftNumSum := 5 } :=
      ⟨⟨by decide, rfl, by decide, memoNames, rfl, rfl, rfl, rfl⟩, by decide, by decide⟩
    have hbox : withBox.boxes.find? 1 = some ⟨1, Table.empty.put ⟨card, 5⟩⟩ := rfl
    refine ((accepted_calls_stored account env withBox).2 twoCards 1 _ hchecks).mpr
      ⟨Or.inl ⟨_, hbox⟩, fun sym => ?_⟩
    rw [units_eq_count hbox]
    exact fits_of_total hchecks.positive (by decide) sym

end Sample

end Blindbox
end ToolkitContracts
