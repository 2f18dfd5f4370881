import ToolkitContracts.Blindbox.Boxes

/-!
# The moves of flon.blindbox

A successful input is one of a few moves: it does not concern the contract, changes the global
state, writes a booth, deposits into a box, sells from one, closes a booth, or edits a box. The
deposit loop is taken apart here; the drawing loop of a purchase stays whole.
-/

namespace ToolkitContracts
namespace Blindbox

/-- The memo has the form `booth:id`. -/
structure MemoNames (memo : List Char) (boothId : ℕ) : Prop where
  fields : (splitText memo ':').length = 2
  booth : (splitText memo ':').getD 0 [] = "booth".toList
  id : stoul ((splitText memo ':').getD 1 []) = .ok boothId

/-- The checks of a deposit that come before its loop. -/
structure DepositAllowed (account : Name) (env : Env) (s : State) (n : NftNotice) (boothId : ℕ)
    (booth : Booth) : Prop where
  sender : n.sender ≠ account
  recipient : n.recipient = account
  auth : env.hasAuth n.sender = true
  memo : MemoNames n.memo boothId
  found : s.booths.find? boothId = some booth
  enabled : booth.status = .enabled
  contract : booth.nftContract = n.bank
  owner : booth.owner = n.sender

/-- What the loop of a deposit does to a box row and to its two counters. -/
structure Deposited (boothId : ℕ) (box : BoothBox) (nfts : List Nasset) (s s' : State)
    (num kinds num' kinds' : UInt64) : Prop where
  gstate : s'.gstate = s.gstate
  booths : s'.booths = s.booths
  received : s'.boxes.find? boothId = some (box.receiveAll nfts)
  others : ∀ j, j ≠ boothId → s'.boxes.find? j = s.boxes.find? j
  units : (num'.toNat : ℤ) = ((num.toNat : ℤ) + totalUnits nfts) % 2 ^ 64
  newKinds : kinds'.toNat = (kinds.toNat + box.newKinds nfts) % 2 ^ 64

/-- The booth after a deposit. -/
def Booth.deposited (booth : Booth) (num kinds : UInt64) (now : UInt32) : Booth :=
  { booth with nftBoxNum := booth.nftBoxNum + kinds, nftNum := booth.nftNum + num
               nftNumSum := booth.nftNumSum + num, updatedAt := now }

/-- The checks of a purchase that come before the price is divided. -/
structure PurchaseAllowed (account : Name) (env : Env) (s : State) (n : Notice) (boothId : ℕ)
    (booth : Booth) : Prop where
  sender : n.sender ≠ account
  recipient : n.recipient = account
  memo : MemoNames n.memo boothId
  found : s.booths.find? boothId = some booth
  enabled : booth.status = .enabled
  opened : booth.openedAt ≤ env.nowSec
  closed : env.nowSec ≤ booth.closedAt
  contract : booth.fundContract = n.bank
  symbol : booth.price.symbol = n.quantity.symbol
  left : 0 < booth.nftNum

/-- What a purchase of `count` units sends. -/
structure Sold (env : Env) (s : State) (n : Notice) (booth : Booth) (count : ℤ) (s' : State)
    (outs : List Out) : Prop where
  some : 0 < count
  enough : count ≤ booth.nftNum.toNat
  allowed : count ≤ s.gstate.maxNftsPurchase.toNat
  quotient : divTrap n.quantity.amount booth.price.amount = .ok count
  draws : ∃ paid left fundRecd booth' bought deals,
    booth.price.mul count = .ok paid ∧ n.quantity.sub paid = .ok left ∧
    booth.fundRecd.add paid = .ok fundRecd ∧
    drawEach env n.sender count.toNat 0
      (s, { booth with fundRecd, updatedAt := env.nowSec }, .empty) = .ok (s', booth', bought) ∧
    traces env booth' n.sender bought.rows = .ok deals ∧
    outs = .pay ⟨booth.fundContract, s.gstate.fundDistributor, paid, "plan:".toList ++
        (toString booth.splitPlanId).toList ++ ":1".toList⟩ ::
      (if 0 < left.amount then
        [.pay ⟨booth.fundContract, n.sender, left, "rndnft.mart change".toList⟩] else []) ++
      deals ++ [.deliver ⟨booth'.nftContract, n.sender, bought.rows,
        "booth: ".toList ++ (toString booth'.id).toList⟩]

/-- The actions that only write the global state. -/
def Action.IsGlobal : Action → Prop
  | .init .. | .setmaxbox _ | .dealtrace _ => True
  | .createbooth .. | .enablebooth .. | .setboothtime .. | .closebooth .. | .delboothbox ..
  | .fixboothbox .. => False

/-- The actions that change a booth, but not what is in it. -/
def Action.IsBooth : Action → Prop
  | .enablebooth .. | .setboothtime .. => True
  | .createbooth .. | .closebooth .. | .delboothbox .. | .fixboothbox .. | .init ..
  | .setmaxbox _ | .dealtrace _ => False

/-- What a successful input does to the tables and what it sends. -/
inductive Move (self : Name) (env : Env) (s : State) : Input → State → List Out → Prop
  | ignoreToken (n : Notice) (hn : n.sender = self ∨ n.recipient ≠ self) :
      Move self env s (.token n) s []
  | ignoreNtoken (n : NftNotice) (hn : n.sender = self ∨ n.recipient ≠ self) :
      Move self env s (.ntoken n) s []
  | setGlobal (a : Action) (gstate : Global) (ha : a.IsGlobal) :
      Move self env s (.act a) { s with gstate } []
  | overwrite (a : Action) (ha : ∃ owner title nftContract fundContract plan price openedAt days,
        a = .createbooth owner title nftContract fundContract plan price openedAt days)
      (gstate : Global) (old booth : Booth) (hold : s.booths.find? s.nextBoothId = some old)
      (hid : booth.id = s.nextBoothId) (hnum : booth.nftNum = 0) (hkinds : booth.nftBoxNum = 0) :
      Move self env s (.act a) { s with gstate, booths := s.booths.put booth } []
  | touch (a : Action) (ha : a.IsBooth) (old booth : Booth)
      (hold : s.booths.find? booth.id = some old) (hnum : booth.nftNum = old.nftNum)
      (hkinds : booth.nftBoxNum = old.nftBoxNum) :
      Move self env s (.act a) { s with booths := s.booths.put booth } []
  | close (owner : Name) (boothId : ℕ) (booth : Booth) (box : BoothBox)
      (hbooth : s.booths.find? boothId = some booth) (hbox : s.boxes.find? boothId = some box) :
      Move self env s (.act (.closebooth owner boothId))
        { s with boxes := s.boxes.erase boothId, booths := s.booths.erase boothId }
        (if box.refund.isEmpty then []
          else [.deliver ⟨booth.nftContract, owner, box.refund, "closebooth".toList⟩])
  | delbox (boothId : ℕ) (nsymb : Nsymbol) (box : BoothBox)
      (hbox : s.boxes.find? boothId = some box) :
      Move self env s (.act (.delboothbox boothId nsymb))
        { s with boxes := s.boxes.put { box with nfts := box.nfts.erase nsymb.raw } } []
  | fixbox (boothId : ℕ) (nfts : Nasset) (box : BoothBox)
      (hbox : s.boxes.find? boothId = some box) :
      Move self env s (.act (.fixboothbox boothId nfts))
        { s with boxes := s.boxes.put { box with
          nfts := box.nfts.put ⟨nfts.symbol, UInt64.ofNat (u64 nfts.amount)⟩ } } []
  | depositNothing (n : NftNotice) (boothId : ℕ) (booth : Booth)
      (hallowed : DepositAllowed self env s n boothId booth) (hnone : n.assets = []) :
      Move self env s (.ntoken n)
        { s with booths := s.booths.put (booth.deposited 0 0 env.nowSec) } []
  | deposit (n : NftNotice) (boothId : ℕ) (booth : Booth) (box : BoothBox) (s₁ : State)
      (num kinds : UInt64) (hallowed : DepositAllowed self env s n boothId booth)
      (hpos : ∀ nft ∈ n.assets, 0 < nft.amount) (hbox : s.boxes.find? boothId = some box)
      (hloop : Deposited boothId box n.assets s s₁ 0 0 num kinds)
      (hroom : (booth.nftBoxNum + kinds).toNat ≤ s.gstate.maxBoothBoxes.toNat) :
      Move self env s (.ntoken n)
        { s₁ with booths := s.booths.put (booth.deposited num kinds env.nowSec) } []
  | purchase (n : Notice) (boothId : ℕ) (booth : Booth) (count : ℤ) (s' : State)
      (outs : List Out) (hallowed : PurchaseAllowed self env s n boothId booth)
      (hsold : Sold env s n booth count s' outs) :
      Move self env s (.token n) s' outs

theorem DepositAllowed.not_ignored {self : Name} {env : Env} {s : State} {n : NftNotice}
    {boothId : ℕ} {booth : Booth} (h : DepositAllowed self env s n boothId booth) :
    ¬ (n.sender = self ∨ n.recipient ≠ self) := by
  rintro (hself | hother)
  · exact h.sender hself
  · exact hother h.recipient

theorem dbcSet_eq_ok {ρ : Type} {key : ρ → ℕ} {t t' : Table key} {r : ρ} :
    dbcSet t r = .ok t' ↔ (∃ old, t.find? (key r) = some old) ∧ t' = t.put r := by
  simp only [dbcSet, bind_eq_ok, check_eq_ok, exists_const, pure_eq_ok, Option.isSome_iff_exists,
    @eq_comm _ t']

/-! ## Deposits -/

section Deposits
variable {self : Name} {env : Env} {n : NftNotice} {s s' : State} {boothId : ℕ} {booth : Booth}
  {box : BoothBox} {nfts : List Nasset} {num kinds num' kinds' : UInt64}

theorem pos_of_depositEach {acc acc' : State × UInt64 × UInt64}
    (h : depositEach boothId nfts acc = .ok acc') : ∀ nft ∈ nfts, 0 < nft.amount := by
  induction nfts generalizing acc with
  | nil => simp
  | cons nft nfts ih =>
    obtain ⟨s, num, kinds⟩ := acc
    simp only [depositEach, bind_eq_ok, checkc_eq_ok, exists_const] at h
    obtain ⟨hpos, boxes, -, hrest⟩ := h
    intro a ha
    rcases List.mem_cons.mp ha with rfl | ha
    · exact hpos
    · exact ih hrest a ha

/-- A deposit of something into a booth without a box row fails. -/
theorem box_of_depositEach {nft : Nasset} {acc' : State × UInt64 × UInt64}
    (h : depositEach boothId (nft :: nfts) (s, num, kinds) = .ok acc') :
    ∃ box, s.boxes.find? boothId = some box := by
  simp only [depositEach, bind_eq_ok, checkc_eq_ok, exists_const, dbcSet_eq_ok] at h
  obtain ⟨-, boxes, ⟨⟨old, hold⟩, -⟩, -⟩ := h
  cases hbox : s.boxes.find? boothId with
  | some box => exact ⟨box, rfl⟩
  | none =>
    rw [hbox, boothId_receive] at hold
    have hnone : s.boxes.find? boothId = none := hbox
    exact absurd (hnone.symm.trans hold) (by simp)

/-- The loop of a deposit into a box that is there, with positive amounts only. -/
theorem deposited_of_box (num kinds : UInt64) (hbox : s.boxes.find? boothId = some box)
    (hpos : ∀ nft ∈ nfts, 0 < nft.amount) :
    ∃ s' num' kinds', depositEach boothId nfts (s, num, kinds) = .ok (s', num', kinds') ∧
      Deposited boothId box nfts s s' num kinds num' kinds' := by
  induction nfts generalizing s box num kinds with
  | nil =>
    have hnum : num.toNat < 2 ^ 64 := num.toNat_lt
    have hkinds : kinds.toNat < 2 ^ 64 := kinds.toNat_lt
    refine ⟨s, num, kinds, rfl, rfl, rfl, hbox, fun _ _ => rfl, ?_, ?_⟩
    · rw [totalUnits]
      omega
    · rw [BoothBox.newKinds]
      omega
  | cons nft nfts ih =>
    have hnft : 0 < nft.amount := hpos nft (List.mem_cons_self ..)
    have hid : box.boothId = boothId := (Table.find?_eq_some.mp hbox).2
    have hkey : (box.receive nft).1.boothId = boothId := (boothId_receive box nft).trans hid
    have hset : dbcSet s.boxes (box.receive nft).1 = .ok (s.boxes.put (box.receive nft).1) :=
      dbcSet_eq_ok.mpr ⟨⟨box, hkey ▸ hbox⟩, rfl⟩
    have hstored : (s.boxes.put (box.receive nft).1).find? boothId = some (box.receive nft).1 := by
      rw [Table.find?_put, if_pos hkey.symm]
    have hamount := toNat_amount hnft
    obtain ⟨s', num', kinds', hrest, hdone⟩ :=
      ih (s := { s with boxes := s.boxes.put (box.receive nft).1 })
        (num + UInt64.ofNat (u64 nft.amount))
        (if (box.receive nft).2 = true then kinds + 1 else kinds) hstored
        fun a ha => hpos a (List.mem_cons_of_mem _ ha)
    refine ⟨s', num', kinds', ?_, hdone.gstate, hdone.booths, hdone.received, ?_, ?_, ?_⟩
    · simp only [depositEach, checkc_of hnft, hbox, Option.getD_some, hset, ok_bind]
      exact hrest
    · intro j hj
      rw [hdone.others j hj, Table.find?_put, if_neg]
      rw [hkey]
      exact hj
    · rw [hdone.units, UInt64.toNat_add, totalUnits]
      omega
    · rw [hdone.newKinds, BoothBox.newKinds]
      split
      · rw [UInt64.toNat_add]
        show ((kinds.toNat + 1) % 2 ^ 64 + _) % 2 ^ 64 = _
        omega
      · omega

/-- What an accepted deposit is made of. -/
theorem allowed_of_onTransferNtoken {e : Effects} (hto : ¬ (n.sender = self ∨ n.recipient ≠ self))
    (h : onTransferNtoken self env n s = .ok e) :
    ∃ boothId booth s₁ num kinds booths, DepositAllowed self env s n boothId booth ∧
      depositEach boothId n.assets (s, 0, 0) = .ok (s₁, num, kinds) ∧
      (booth.nftBoxNum + kinds).toNat ≤ s₁.gstate.maxBoothBoxes.toNat ∧
      dbcSet s₁.booths (booth.deposited num kinds env.nowSec) = .ok booths ∧
      e = ({ s₁ with booths }, []) := by
  unfold onTransferNtoken at h
  rw [if_neg hto] at h
  simp only [bind_eq_ok, check_eq_ok, checkc_eq_ok, require_eq_ok, pure_eq_ok, exists_const,
    Ctx.requireAuth_eq_ok] at h
  obtain ⟨hauth, -, hbooth, hfields, boothId, hid, booth, hfound, henabled, hcontract, howner,
    ⟨s₁, num, kinds⟩, hloop, hroom, booths, hset, he⟩ := h
  have hself := not_or.mp hto
  exact ⟨boothId, booth, s₁, num, kinds, booths,
    ⟨hself.1, not_not.mp hself.2, hauth, ⟨hfields, hbooth, hid⟩, hfound, henabled, hcontract,
      howner⟩, hloop, hroom, hset, he.symm⟩

theorem move_of_onTransferNtoken {outs : List Out}
    (h : onTransferNtoken self env n s = .ok (s', outs)) :
    Move self env s (.ntoken n) s' outs := by
  by_cases hto : n.sender = self ∨ n.recipient ≠ self
  · unfold onTransferNtoken at h
    rw [if_pos hto] at h
    obtain ⟨rfl, rfl⟩ := Prod.mk.inj (Except.ok.inj h)
    exact .ignoreNtoken n hto
  · obtain ⟨boothId, booth, s₁, num, kinds, booths, hallowed, hloop, hroom, hset, he⟩ :=
      allowed_of_onTransferNtoken hto h
    obtain ⟨rfl, rfl⟩ := Prod.mk.inj he
    obtain ⟨-, rfl⟩ := dbcSet_eq_ok.mp hset
    have hpos := pos_of_depositEach hloop
    cases hassets : n.assets with
    | nil =>
      rw [hassets] at hloop
      obtain ⟨rfl, hcounters⟩ := Prod.mk.inj (Except.ok.inj hloop)
      obtain ⟨rfl, rfl⟩ := Prod.mk.inj hcounters
      exact .depositNothing n boothId booth hallowed hassets
    | cons nft nfts =>
      rw [hassets] at hloop
      obtain ⟨box, hbox⟩ := box_of_depositEach hloop
      rw [← hassets] at hloop
      obtain ⟨s₂, num₂, kinds₂, hloop₂, hdone⟩ := deposited_of_box 0 0 hbox hpos
      obtain ⟨rfl, hcounters⟩ := Prod.mk.inj (Except.ok.inj (hloop₂.symm.trans hloop))
      obtain ⟨rfl, rfl⟩ := Prod.mk.inj hcounters
      rw [hdone.gstate] at hroom
      rw [hdone.booths]
      exact .deposit n boothId booth box s₂ num₂ kinds₂ hallowed hpos hbox hdone hroom

end Deposits

/-! ## Purchases and actions -/

section Actions
variable {self : Name} {env : Env} {s s' : State} {outs : List Out}

theorem move_of_transferToken {n : Notice} (h : transferToken self env n s = .ok (s', outs)) :
    Move self env s (.token n) s' outs := by
  unfold transferToken at h
  by_cases hto : n.sender = self ∨ n.recipient ≠ self
  · rw [if_pos hto] at h
    obtain ⟨rfl, rfl⟩ := Prod.mk.inj (Except.ok.inj h)
    exact .ignoreToken n hto
  · rw [if_neg hto] at h
    simp only [bind_eq_ok, checkc_eq_ok, require_eq_ok, pure_eq_ok, exists_const] at h
    obtain ⟨hfields, hbooth, boothId, hid, booth, hfound, henabled, hopened, hclosed, hcontract,
      hsymbol, hleft, count, hcount, hpos, henough, hmax, paid, hpaid, left, hchange, fundRecd,
      hfund, ⟨s₁, booth', bought⟩, hdraws, deals, hdeals, he⟩ := h
    obtain ⟨rfl, rfl⟩ := Prod.mk.inj he
    have hself := not_or.mp hto
    refine .purchase n boothId booth count s₁ _
      ⟨hself.1, not_not.mp hself.2, ⟨hfields, hbooth, hid⟩, hfound, henabled, hopened, hclosed,
        hcontract, hsymbol, hleft⟩ ⟨hpos, henough, hmax, hcount, ?_⟩
    exact ⟨paid, left, fundRecd, booth', bought, deals, hpaid, hchange, hfund, hdraws, hdeals, rfl⟩

theorem move_of_exec {a : Action} (h : exec self env a s = .ok (s', outs)) :
    Move self env s (.act a) s' outs := by
  cases a with
  | createbooth owner title nftContract fundContract plan price openedAt days =>
    simp only [exec, createbooth, bind_eq_ok, checkc_eq_ok, pure_eq_ok, exists_const,
      dbcSet_eq_ok] at h
    obtain ⟨-, -, -, -, -, -, zero, -, -, booths, ⟨⟨old, hold⟩, rfl⟩, he⟩ := h
    obtain ⟨rfl, rfl⟩ := Prod.mk.inj he
    exact .overwrite _ ⟨_, _, _, _, _, _, _, _, rfl⟩ _ old _ hold rfl rfl rfl
  | enablebooth owner boothId enabled =>
    simp only [exec, enablebooth, ownBooth, bind_eq_ok, checkc_eq_ok, require_eq_ok, pure_eq_ok,
      exists_const, dbcSet_eq_ok] at h
    obtain ⟨booth, ⟨-, booth', hfound, -, rfl⟩, -, booths, ⟨-, rfl⟩, he⟩ := h
    obtain ⟨rfl, rfl⟩ := Prod.mk.inj he
    exact .touch (.enablebooth owner boothId enabled) trivial booth' _ (Table.find?_key hfound) rfl
      rfl
  | setboothtime owner boothId openedAt closedAt =>
    simp only [exec, setboothtime, ownBooth, bind_eq_ok, checkc_eq_ok, require_eq_ok, pure_eq_ok,
      exists_const, dbcSet_eq_ok] at h
    obtain ⟨booth, ⟨-, booth', hfound, -, rfl⟩, -, booths, ⟨-, rfl⟩, he⟩ := h
    obtain ⟨rfl, rfl⟩ := Prod.mk.inj he
    exact .touch (.setboothtime owner boothId openedAt closedAt) trivial booth' _
      (Table.find?_key hfound) rfl rfl
  | closebooth owner boothId =>
    simp only [exec, closebooth, bind_eq_ok, checkc_eq_ok, require_eq_ok, exists_const] at h
    obtain ⟨-, booth, hbooth, -, -, box, hbox, he⟩ := h
    have hmove : Move self env s (.act (.closebooth owner boothId)) _ _ :=
      .close owner boothId booth box hbooth hbox
    split at he
    · next hempty =>
      obtain ⟨rfl, rfl⟩ := Prod.mk.inj (Except.ok.inj he)
      rw [if_pos hempty] at hmove
      exact hmove
    · next hrefund =>
      obtain ⟨rfl, rfl⟩ := Prod.mk.inj (Except.ok.inj he)
      rw [if_neg hrefund] at hmove
      exact hmove
  | dealtrace trace =>
    simp only [exec, dealtrace, bind_eq_ok, Ctx.requireAuth_eq_ok, pure_eq_ok, exists_const] at h
    obtain ⟨rfl, rfl⟩ := Prod.mk.inj h.2
    exact .setGlobal _ s.gstate trivial
  | delboothbox boothId nsymb =>
    simp only [exec, delboothbox, bind_eq_ok, Ctx.requireAuth_eq_ok, require_eq_ok, pure_eq_ok,
      exists_const, dbcSet_eq_ok] at h
    obtain ⟨-, box, hbox, boxes, ⟨-, rfl⟩, he⟩ := h
    obtain ⟨rfl, rfl⟩ := Prod.mk.inj he
    exact .delbox boothId nsymb box hbox
  | setmaxbox maxNum =>
    simp only [exec, setmaxbox, bind_eq_ok, Ctx.requireAuth_eq_ok, pure_eq_ok, exists_const] at h
    obtain ⟨rfl, rfl⟩ := Prod.mk.inj h.2
    exact .setGlobal _ _ trivial
  | fixboothbox boothId nfts =>
    simp only [exec, fixboothbox, bind_eq_ok, Ctx.requireAuth_eq_ok, require_eq_ok, pure_eq_ok,
      exists_const, dbcSet_eq_ok] at h
    obtain ⟨-, box, hbox, boxes, ⟨-, rfl⟩, he⟩ := h
    obtain ⟨rfl, rfl⟩ := Prod.mk.inj he
    exact .fixbox boothId nfts box hbox
  | init admin fundDistributor =>
    simp only [exec, init, bind_eq_ok, Ctx.requireAuth_eq_ok, pure_eq_ok, exists_const] at h
    obtain ⟨rfl, rfl⟩ := Prod.mk.inj h.2
    exact .setGlobal _ _ trivial

/-- Every successful input is one of the moves. -/
theorem move_of_run {i : Input} (h : run self env i s = .ok (s', outs)) :
    Move self env s i s' outs := by
  cases i with
  | token n => exact move_of_transferToken h
  | ntoken n => exact move_of_onTransferNtoken h
  | act a => exact move_of_exec h

end Actions

end Blindbox
end ToolkitContracts
