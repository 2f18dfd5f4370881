import Mathlib.Algebra.Order.Ring.Int
import ToolkitContracts.Redpack.Moves

/-!
# Conservation across red packets and claims

The claims recorded for a red packet are exactly the shares that were taken out of it, and
the account holds, token by token, what the existing red packets still have to give. The
tables are joined by the id of the red packet: ids are handed out once, codes are not, so
that `delclaims` may erase any claim whose code is out of use without touching a claim of an
existing red packet.
-/

namespace ToolkitContracts
namespace Redpack

/-! ## What the two tables record -/

/-- The claims recorded for the red packet with a given id. -/
def claimsOf (redpackId : ℕ) (s : State) : List Claim :=
  s.claims.rows.filter fun c => decide (c.redpackId = redpackId)

/-- How many claims are recorded for a red packet. -/
def claimCount (redpackId : ℕ) (claims : Table Claim.id) : ℕ :=
  claims.sum fun c => if c.redpackId = redpackId then 1 else 0

/-- What these claims took together. -/
def claimedAmount (redpackId : ℕ) (claims : Table Claim.id) : ℤ :=
  claims.sum fun c => if c.redpackId = redpackId then c.quantity.amount else 0

/-- What the red packets still have to give of the token `x`. -/
def remainingOn (redpacks : Table fun r : RedpackRow => r.code.raw) (x : ExtendedSymbol) : ℤ :=
  redpacks.sum fun r => if r.token = x then r.remainingQuant.amount else 0

/-- The quantities and counts of a red packet fit together. -/
structure RedpackRow.Sound (r : RedpackRow) : Prop where
  valid : r.totalQuant.isValid
  symbol : r.remainingQuant.symbol = r.totalQuant.symbol
  remaining : 0 ≤ r.remainingQuant.amount ∧ r.remainingQuant.amount ≤ r.totalQuant.amount
  count : r.remainingCount ≤ r.totalCount
  created : r.status ≠ .created
  finished : r.status = .finished ↔ r.remainingCount = 0
  spent : r.remainingCount = 0 → r.remainingQuant.amount = 0
  bank : r.tokenContract ∈ handledBanks

/-- Red packets and claims agree. -/
structure Booked (s : State) : Prop where
  fee : s.gstate.unwrapFeeRequired = false
  sound : ∀ r ∈ s.redpacks, r.Sound
  ids : ∀ r ∈ s.redpacks, ∀ r' ∈ s.redpacks, r.redpackId = r'.redpackId → r = r'
  codes : ∀ c ∈ s.claims, ∀ r ∈ s.redpacks, c.redpackId = r.redpackId → c.redpackCode = r.code
  claimers : ∀ c ∈ s.claims, ∀ c' ∈ s.claims, c.redpackId = c'.redpackId →
    c.claimer = c'.claimer → c = c'
  count : ∀ r ∈ s.redpacks, claimCount r.redpackId s.claims + r.remainingCount = r.totalCount
  amount : ∀ r ∈ s.redpacks,
    claimedAmount r.redpackId s.claims + r.remainingQuant.amount = r.totalQuant.amount
  lastRedpack : ∀ r ∈ s.redpacks, r.redpackId ≤ s.globalidx.lastRedpackId
  lastClaimed : ∀ c ∈ s.claims, c.redpackId ≤ s.globalidx.lastRedpackId

/-! ## One move -/

section Moves
variable {self : Name} {ctx : Ctx} {s s' : State} {i : Input Action} {outs : List Transfer}
  {r : RedpackRow} {n : Notice} {claimer : Name} {pwhash : List Char} {dids : List DidBalance}
  {assigned rest : Asset}

theorem findClaim_eq_none {code : Name} :
    findClaim claimer code s = none ↔ ∀ c ∈ s.claims, c.claimer = claimer → c.redpackCode ≠ code := by
  rw [findClaim, List.find?_eq_none]
  constructor
  · intro h c hc hclaimer hcode
    exact h c hc (decide_eq_true ⟨hclaimer, hcode⟩)
  · intro h c hc hdec
    have hboth := of_decide_eq_true hdec
    exact h c hc hboth.1 hboth.2

theorem Fresh.sound (hr : Fresh ctx n s r) (hbank : n.bank ∈ handledBanks) : r.Sound := by
  have hcount := hr.countPos
  have hserving := hr.status
  refine ⟨?_, ?_, ?_, ?_, ?_, ?_, ?_, ?_⟩
  · rw [hr.total]
    exact n.valid
  · rw [hr.total, hr.remaining]
  · rw [hr.total, hr.remaining]
    exact ⟨hr.quantPos.le, le_refl _⟩
  · rw [hr.count]
  · rw [hserving]
    exact fun hc => by cases hc
  · rw [hserving, hr.count]
    constructor
    · exact fun hc => by cases hc
    · omega
  · rw [hr.count]
    omega
  · rw [hr.tokenContract]
    exact hbank

/-- The last share takes all that is left. -/
theorem assign_last (hlast : r.remainingCount = 1) : assign ctx r = .ok r.remainingQuant := by
  rw [assign]
  cases r.assignType with
  | random => exact if_pos hlast
  | mean => exact if_pos hlast

/-- A claim takes its share out of the red packet. -/
theorem claimed_amount (hsound : r.Sound) (hpos : 0 < assigned.amount)
    (hrest : r.remainingQuant.sub assigned = .ok rest) :
    rest.amount = r.remainingQuant.amount - assigned.amount :=
  Asset.amount_of_sub hrest hsound.remaining.1 hpos.le

theorem RedpackRow.Sound.claimed (hsound : r.Sound) (hr : Claimable ctx s r claimer pwhash dids)
    (hassign : assign ctx r = .ok assigned) (hpos : 0 < assigned.amount)
    (hle : assigned.amount ≤ r.remainingQuant.amount)
    (hrest : r.remainingQuant.sub assigned = .ok rest) (now : TimePoint) :
    (r.claimed rest now).Sound := by
  have hamount := claimed_amount hsound hpos hrest
  have hremaining := hsound.remaining
  have hcount := hsound.count
  have hcountPos := hr.countPos
  refine ⟨hsound.valid, ?_, ?_, ?_, ?_, ?_, ?_, hsound.bank⟩
  · show rest.symbol = r.totalQuant.symbol
    rw [Asset.symbol_of_sub hrest, hsound.symbol]
  · show 0 ≤ rest.amount ∧ rest.amount ≤ r.totalQuant.amount
    omega
  · show r.remainingCount - 1 ≤ r.totalCount
    omega
  · show (if r.remainingCount - 1 = 0 then .finished else r.status) ≠ .created
    rw [hr.servicing]
    split
    · exact fun hc => by cases hc
    · exact fun hc => by cases hc
  · show (if r.remainingCount - 1 = 0 then .finished else r.status) = .finished
      ↔ r.remainingCount - 1 = 0
    rw [hr.servicing]
    split
    · next hzero => exact ⟨fun _ => hzero, fun _ => rfl⟩
    · next hne => exact ⟨fun hc => (by cases hc), fun hz => absurd hz hne⟩
  · show r.remainingCount - 1 = 0 → rest.amount = 0
    intro hzero
    -- the count was one, so the share was all that was left
    have hlast : r.remainingCount = 1 := by omega
    rw [assign_last hlast, Except.ok.injEq] at hassign
    rw [hamount, hassign, sub_self]

/-- A claim row with a new key adds to the claims of its red packet. -/
theorem claimCount_put {claims : Table Claim.id} {c : Claim} (hid : claims.find? c.id = none)
    (redpackId : ℕ) : claimCount redpackId (claims.put c)
      = claimCount redpackId claims + if c.redpackId = redpackId then 1 else 0 :=
  Table.sum_put_new hid _

theorem claimedAmount_put {claims : Table Claim.id} {c : Claim} (hid : claims.find? c.id = none)
    (redpackId : ℕ) : claimedAmount redpackId (claims.put c)
      = claimedAmount redpackId claims + if c.redpackId = redpackId then c.quantity.amount else 0 :=
  Table.sum_put_new hid _

/-- The claims that `delclaims` erases belong to no existing red packet. -/
theorem ne_of_stale (h : Booked s) {c : Claim} (hc : c ∈ s.claims) (hstale : s.Stale c)
    (hr : r ∈ s.redpacks) : c.redpackId ≠ r.redpackId := by
  intro hid
  -- a claim of an existing red packet has the code of that red packet
  have hcode := h.codes c hc r hr hid
  rw [State.Stale, hcode] at hstale
  exact Table.find?_eq_none.mp hstale r hr rfl

/-- Erasing rows that do not count leaves a sum as it is. -/
theorem sum_eraseAll_eq {M : Type*} [AddCommMonoid M] {claims : Table Claim.id}
    {erased : List Claim} (hsub : erased.Sublist claims.rows) {f : Claim → M}
    (hzero : ∀ c ∈ erased, f c = 0) :
    (claims.eraseAll (erased.map Claim.id)).sum f = claims.sum f := by
  have hsum := Table.sum_eraseAll (fun c hc => hsub.subset hc)
    ((hsub.map Claim.id).nodup claims.nodup_keys) f
  have hnone : (erased.map f).sum = 0 := by
    apply List.sum_eq_zero
    intro y hy
    rcases List.mem_map.mp hy with ⟨c, hc, rfl⟩
    exact hzero c hc
  rw [hnone, add_zero] at hsum
  exact hsum

/-- A deposit opens a red packet with an id of its own and no claims. -/
theorem Booked.deposit (h : Booked s) (hr : Fresh ctx n s r) (hbank : n.bank ∈ handledBanks)
    (hlast : s.globalidx.lastRedpackId + 1 < 2 ^ 64) :
    Booked { s with
      globalidx := { s.globalidx with lastRedpackId := u64 (s.globalidx.lastRedpackId + 1) }
      redpacks := s.redpacks.put r } := by
  have hword : u64 (s.globalidx.lastRedpackId + 1) = s.globalidx.lastRedpackId + 1 := by
    have := u64_eq (x := (s.globalidx.lastRedpackId : ℤ) + 1) (by omega) (by omega)
    omega
  have hid : r.redpackId = s.globalidx.lastRedpackId + 1 := hr.redpackId.trans hword
  -- the new id is above all that were handed out, so nothing refers to it yet
  have hnoClaims : ∀ c ∈ s.claims, c.redpackId ≠ r.redpackId := by
    intro c hc
    have := h.lastClaimed c hc
    omega
  have hnoRow : ∀ r' ∈ s.redpacks, r'.redpackId ≠ r.redpackId := by
    intro r' hr'
    have := h.lastRedpack r' hr'
    omega
  refine ⟨h.fee, Table.forall_put h.sound (hr.sound hbank), ?_, ?_, h.claimers, ?_, ?_, ?_, ?_⟩
  -- ids
  · intro r₁ hr₁ r₂ hr₂ heq
    rcases Table.mem_put.mp hr₁ with rfl | ⟨hold₁, -⟩
    · rcases Table.mem_put.mp hr₂ with rfl | ⟨hold₂, -⟩
      · rfl
      · exact absurd heq.symm (hnoRow r₂ hold₂)
    · rcases Table.mem_put.mp hr₂ with rfl | ⟨hold₂, -⟩
      · exact absurd heq (hnoRow r₁ hold₁)
      · exact h.ids r₁ hold₁ r₂ hold₂ heq
  -- codes
  · intro c hc
    exact Table.forall_put (h.codes c hc) fun heq => absurd heq (hnoClaims c hc)
  -- count and amount: no claims, and everything is left
  · refine Table.forall_put h.count ?_
    show s.claims.sum _ + _ = _
    rw [Table.sum_eq_zero fun c hc => if_neg (hnoClaims c hc), zero_add, hr.count]
  · refine Table.forall_put h.amount ?_
    show s.claims.sum _ + _ = _
    rw [Table.sum_eq_zero fun c hc => if_neg (hnoClaims c hc), zero_add, hr.remaining, hr.total]
  -- the last id is that of the new red packet
  · refine Table.forall_put (fun r' hr' => ?_) hr.redpackId.le
    have := h.lastRedpack r' hr'
    show r'.redpackId ≤ u64 (s.globalidx.lastRedpackId + 1)
    omega
  · intro c hc
    have := h.lastClaimed c hc
    show c.redpackId ≤ u64 (s.globalidx.lastRedpackId + 1)
    omega

/-- The rows after a claim: the red packet that was claimed from, and rows with other ids. -/
theorem mem_put_claimed {r' : RedpackRow} {now : TimePoint} (h : Booked s) (hr : r ∈ s.redpacks)
    (hr' : r' ∈ s.redpacks.put (r.claimed rest now)) :
    r' = r.claimed rest now ∨ (r' ∈ s.redpacks ∧ r'.redpackId ≠ r.redpackId) := by
  rcases Table.mem_put.mp hr' with rfl | ⟨hr', hne⟩
  · exact Or.inl rfl
  · refine Or.inr ⟨hr', fun heq => hne ?_⟩
    rw [h.ids r' hr' r hr heq]
    rfl

/-- A claim moves its share from the red packet to a claim row of the claimer's own. -/
theorem Booked.claim (h : Booked s) (hr : Claimable ctx s r claimer pwhash dids)
    (hassign : assign ctx r = .ok assigned) (hpos : 0 < assigned.amount)
    (hle : assigned.amount ≤ r.remainingQuant.amount)
    (hrest : r.remainingQuant.sub assigned = .ok rest) {id : ℕ} (hid : s.claims.find? id = none) :
    Booked { s with
      redpacks := s.redpacks.put (r.claimed rest ctx.now)
      globalidx := { s.globalidx with lastClaimId := id }
      claims := s.claims.put (r.claimRow id claimer assigned ctx.now) } := by
  have hmem : r ∈ s.redpacks := (Table.find?_eq_some.mp hr.stored).1
  have hsound := h.sound r hmem
  have hamount := claimed_amount hsound hpos hrest
  have hcountPos := hr.countPos
  have hold : ∀ r' ∈ s.redpacks.put (r.claimed rest ctx.now), r' = r.claimed rest ctx.now ∨
      (r' ∈ s.redpacks ∧ r'.redpackId ≠ r.redpackId) := fun r' hr' => mem_put_claimed h hmem hr'
  have hfirst := findClaim_eq_none.mp hr.first
  refine ⟨h.fee, Table.forall_put h.sound (hsound.claimed hr hassign hpos hle hrest ctx.now),
    ?_, ?_, ?_, ?_, ?_, ?_, ?_⟩
  -- ids: the row keeps its id
  · intro r₁ hr₁ r₂ hr₂ heq
    rcases hold r₁ hr₁ with rfl | ⟨hold₁, hne₁⟩
    · rcases hold r₂ hr₂ with rfl | ⟨hold₂, hne₂⟩
      · rfl
      · exact absurd heq.symm hne₂
    · rcases hold r₂ hr₂ with rfl | ⟨hold₂, hne₂⟩
      · exact absurd heq hne₁
      · exact h.ids r₁ hold₁ r₂ hold₂ heq
  -- codes: the claim row copies the code
  · intro c hc r' hr' heq
    rcases hold r' hr' with rfl | ⟨hr', hne⟩
    · rcases Table.mem_put.mp hc with rfl | ⟨hc, -⟩
      · rfl
      · exact h.codes c hc r hmem heq
    · rcases Table.mem_put.mp hc with rfl | ⟨hc, -⟩
      · exact absurd heq.symm hne
      · exact h.codes c hc r' hr' heq
  -- claimers: an older claim on this red packet has its code, and the lookup found none
  · intro c hc c' hc' heq hclaimer
    rcases Table.mem_put.mp hc with rfl | ⟨hc, -⟩
    · rcases Table.mem_put.mp hc' with rfl | ⟨hc', -⟩
      · rfl
      · exact absurd (h.codes c' hc' r hmem heq.symm) (hfirst c' hc' hclaimer.symm)
    · rcases Table.mem_put.mp hc' with rfl | ⟨hc', -⟩
      · exact absurd (h.codes c hc r hmem heq) (hfirst c hc hclaimer)
      · exact h.claimers c hc c' hc' heq hclaimer
  -- count: one claim more and one share less
  · intro r' hr'
    show claimCount r'.redpackId (s.claims.put (r.claimRow id claimer assigned ctx.now)) + _ = _
    rw [claimCount_put hid]
    rcases hold r' hr' with rfl | ⟨hr', hne⟩
    · have hcount := h.count r hmem
      show claimCount r.redpackId s.claims + (if r.redpackId = r.redpackId then 1 else 0)
        + (r.remainingCount - 1) = r.totalCount
      rw [if_pos rfl]
      omega
    · show _ + (if r.redpackId = r'.redpackId then 1 else 0) + _ = _
      rw [if_neg hne.symm]
      exact h.count r' hr'
  -- amount: the share moves to the claim row
  · intro r' hr'
    show claimedAmount r'.redpackId (s.claims.put (r.claimRow id claimer assigned ctx.now)) + _ = _
    rw [claimedAmount_put hid]
    rcases hold r' hr' with rfl | ⟨hr', hne⟩
    · have htotal := h.amount r hmem
      show claimedAmount r.redpackId s.claims
        + (if r.redpackId = r.redpackId then assigned.amount else 0) + rest.amount
          = r.totalQuant.amount
      rw [if_pos rfl, hamount]
      omega
    · show _ + (if r.redpackId = r'.redpackId then assigned.amount else 0) + _ = _
      rw [if_neg hne.symm, add_zero]
      exact h.amount r' hr'
  · exact Table.forall_put h.lastRedpack (h.lastRedpack r hmem)
  · exact Table.forall_put h.lastClaimed (h.lastRedpack r hmem)

theorem Booked.cancel (h : Booked s) (k : ℕ) :
    Booked { s with redpacks := s.redpacks.erase k } where
  fee := h.fee
  sound := Table.forall_erase h.sound
  ids := fun r hr r' hr' =>
    h.ids r (Table.mem_erase.mp hr).1 r' (Table.mem_erase.mp hr').1
  codes := fun c hc r hr => h.codes c hc r (Table.mem_erase.mp hr).1
  claimers := h.claimers
  count := Table.forall_erase h.count
  amount := Table.forall_erase h.amount
  lastRedpack := Table.forall_erase h.lastRedpack
  lastClaimed := h.lastClaimed

theorem Booked.delclaims (h : Booked s) {erased : List Claim}
    (hsub : erased.Sublist s.claims.rows) (hstale : ∀ c ∈ erased, s.Stale c) :
    Booked { s with claims := s.claims.eraseAll (erased.map Claim.id) } := by
  have hkept : ∀ c ∈ s.claims.eraseAll (erased.map Claim.id), c ∈ s.claims :=
    fun c hc => (Table.mem_eraseAll.mp hc).1
  have hnone : ∀ r ∈ s.redpacks, ∀ c ∈ erased, c.redpackId ≠ r.redpackId :=
    fun r hr c hc => ne_of_stale h (hsub.subset hc) (hstale c hc) hr
  refine ⟨h.fee, h.sound, h.ids, fun c hc => h.codes c (hkept c hc),
    fun c hc c' hc' => h.claimers c (hkept c hc) c' (hkept c' hc'), ?_, ?_, h.lastRedpack,
    fun c hc => h.lastClaimed c (hkept c hc)⟩
  · intro r hr
    have hcount := h.count r hr
    unfold claimCount at hcount ⊢
    rw [sum_eraseAll_eq hsub fun c hc => if_neg (hnone r hr c hc)]
    exact hcount
  · intro r hr
    have hamount := h.amount r hr
    unfold claimedAmount at hamount ⊢
    rw [sum_eraseAll_eq hsub fun c hc => if_neg (hnone r hr c hc)]
    exact hamount

/-- The input brings a deposit, if the contract accepts it. -/
def isDeposit (self : Name) : Ctx × Input Action → Bool
  | (_, .notify n) => decide (n.recipient = self ∧ n.bank ∈ handledBanks)
  | (_, .act _) => false

/-- The input does not renumber the red packets. -/
def Numbered : Input Action → Prop
  | .act (.setglobalidx _ _) => False
  | _ => True

instance (i : Input Action) : Decidable (Numbered i) := by
  rcases i with n | a
  · exact inferInstanceAs (Decidable True)
  · rcases a with _ | _ | _ | _ | _ | _ | _ <;> dsimp only [Numbered] <;> infer_instance

/-- Every move keeps red packets and claims in agreement, as long as the transfers it orders
are positive and there is an id left for a new red packet. -/
theorem Booked.move (h : Booked s) (hm : Move self ctx s i s' outs) (hnumbered : Numbered i)
    (hpos : ∀ t ∈ outs, 0 < t.quantity.amount)
    (hlast : isDeposit self (ctx, i) = true → s.globalidx.lastRedpackId + 1 < 2 ^ 64) :
    Booked s' := by
  cases hm with
  | ignore n hn => exact h
  | deposit n r hto hbank hr => exact h.deposit hr hbank (hlast (decide_eq_true ⟨hto, hbank⟩))
  | configure a gstate tokenlist hfee => exact { h with fee := hfee.trans h.fee }
  | setglobalidx a b globalidx => exact absurd hnumbered id
  | claimredpack r claimer pwhash dids assigned rest hr hassign hsymbol hle hrest hid =>
    exact h.claim hr hassign (hpos _ (List.mem_singleton.mpr rfl)) hle hrest hid
  | cancel r hr => exact h.cancel _
  | delclaims maxRows erased hsub hstale => exact h.delclaims hsub hstale

/-- Every move keeps the quantities and counts of the red packets fitting together. -/
theorem sound_of_move (h : ∀ r ∈ s.redpacks, r.Sound) (hm : Move self ctx s i s' outs)
    (hpos : ∀ t ∈ outs, 0 < t.quantity.amount) : ∀ r ∈ s'.redpacks, r.Sound := by
  cases hm with
  | ignore | configure | setglobalidx | delclaims => exact h
  | deposit n r hto hbank hr => exact Table.forall_put h (hr.sound hbank)
  | claimredpack r claimer pwhash dids assigned rest hr hassign hsymbol hle hrest hid =>
    refine Table.forall_put h ?_
    exact (h r (Table.find?_eq_some.mp hr.stored).1).claimed hr hassign
      (hpos _ (List.mem_singleton.mpr rfl)) hle hrest ctx.now
  | cancel r hr => exact Table.forall_erase h

/-- No move asks for a fee. -/
theorem fee_of_move (h : s.gstate.unwrapFeeRequired = false) (hm : Move self ctx s i s' outs) :
    s'.gstate.unwrapFeeRequired = false := by
  cases hm with
  | configure a gstate tokenlist hfee => exact hfee.trans h
  | ignore | deposit | setglobalidx | claimredpack | cancel | delclaims => exact h

/-- The last id grows by one with a deposit and stays otherwise. -/
theorem lastRedpackId_of_move (hm : Move self ctx s i s' outs) (hnumbered : Numbered i) {k : ℕ}
    (hle : s.globalidx.lastRedpackId ≤ k)
    (hlast : isDeposit self (ctx, i) = true → k + 1 < 2 ^ 64) :
    s'.globalidx.lastRedpackId ≤ k + if isDeposit self (ctx, i) = true then 1 else 0 := by
  cases hm with
  | deposit n r hto hbank hr =>
    have hdeposit : isDeposit self (ctx, .notify n) = true := decide_eq_true ⟨hto, hbank⟩
    have hroom := hlast hdeposit
    have hword := u64_eq (x := (s.globalidx.lastRedpackId : ℤ) + 1) (by omega) (by omega)
    rw [if_pos hdeposit]
    show u64 (s.globalidx.lastRedpackId + 1) ≤ k + 1
    omega
  | setglobalidx a b globalidx => exact absurd hnumbered id
  | ignore | configure | claimredpack | cancel | delclaims => exact hle.trans (Nat.le_add_right _ _)

/-! ## What a move does to the account's tokens -/

/-- What `cancel` orders is what the red packet still has to give. -/
theorem outflow_refund (hsound : r.Sound) (x : ExtendedSymbol) :
    outflow x r.refund = if r.token = x then r.remainingQuant.amount else 0 := by
  have htoken : (⟨r.remainingQuant.symbol, r.tokenContract⟩ : ExtendedSymbol) = r.token := by
    rw [hsound.symbol]
    rfl
  rw [RedpackRow.refund]
  -- the conditions of `cancel`, which do not mention finished red packets
  by_cases hpays : (r.status = .created ∨ r.status = .servicing) ∧ 0 < r.remainingQuant.amount
  · rw [if_pos hpays, outflow_cons, outflow_nil, add_zero]
    show (if (⟨r.remainingQuant.symbol, r.tokenContract⟩ : ExtendedSymbol) = x then _ else _) = _
    rw [htoken]
  · -- a red packet that is not refunded has nothing left
    have hzero : r.remainingQuant.amount = 0 := by
      by_contra hne
      have hnonneg := hsound.remaining.1
      refine hpays ⟨?_, by omega⟩
      cases hstatus : r.status with
      | created => exact Or.inl rfl
      | servicing => exact Or.inr rfl
      | finished => exact absurd (hsound.spent (hsound.finished.mp hstatus)) hne
    rw [if_neg hpays, outflow_nil, hzero, ite_self]

theorem remainingOn_put {redpacks : Table fun r : RedpackRow => r.code.raw} (r' : RedpackRow)
    (hr : redpacks.find? r'.code.raw = some r) (htoken : r'.token = r.token) (x : ExtendedSymbol) :
    remainingOn (redpacks.put r') x = remainingOn redpacks x
      - if r.token = x then r.remainingQuant.amount - r'.remainingQuant.amount else 0 := by
  have hsum := Table.sum_put_old hr fun r => if r.token = x then r.remainingQuant.amount else 0
  simp only [htoken] at hsum
  unfold remainingOn
  split at hsum
  · next hx =>
    rw [if_pos hx]
    omega
  · next hx =>
    rw [if_neg hx]
    omega

/-- The account's tokens follow what the red packets have to give. -/
theorem flow_of_move (h : ∀ r ∈ s.redpacks, r.Sound) (hsigner : Contract.signer? i ≠ some self)
    (hm : Move self ctx s i s' outs) (hpos : ∀ t ∈ outs, 0 < t.quantity.amount) (hd : Holding)
    {x : ExtendedSymbol} (hx : x.contract ∈ handledBanks) :
    (contract self).received i hd x - outflow x outs
      = hd x + (remainingOn s'.redpacks x - remainingOn s.redpacks x) := by
  cases hm with
  | ignore n hn =>
    rw [outflow_nil, sub_zero, sub_self, add_zero]
    have hother : n.recipient ≠ self ∨ n.bank ∉ handledBanks :=
      hn.resolve_left (Contract.sender_ne hsigner)
    -- passing by, or from a token contract without a handler
    rcases hother with hto | hbank
    · rw [Contract.received_ignored _ hto]
    · by_cases hto : n.recipient = self
      · rw [Contract.received_notify _ hto, if_neg, add_zero]
        intro htoken
        rw [← htoken] at hx
        exact hbank hx
      · rw [Contract.received_ignored _ hto]
  | deposit n r hto hbank hr =>
    rw [Contract.received_notify _ hto, outflow_nil, sub_zero]
    show _ = hd x + (Table.sum (s.redpacks.put r) _ - _)
    -- the deposit is in the token that the row records
    have htoken : r.token = n.token := by
      rw [RedpackRow.token, hr.total, hr.tokenContract]
      rfl
    rw [Table.sum_put_new hr.codeFree, htoken, hr.remaining]
    unfold remainingOn
    omega
  | configure | setglobalidx | delclaims =>
    rw [Contract.received_act, outflow_nil, sub_zero, sub_self, add_zero]
  | claimredpack r claimer pwhash dids assigned rest hr hassign hsymbol hle hrest hid =>
    have hsound := h r (Table.find?_eq_some.mp hr.stored).1
    have hamount := claimed_amount hsound (hpos _ (List.mem_singleton.mpr rfl)) hrest
    have htoken : (⟨assigned.symbol, r.tokenContract⟩ : ExtendedSymbol) = r.token := by
      rw [← hsymbol, hsound.symbol]
      rfl
    rw [Contract.received_act, outflow_cons, outflow_nil, add_zero]
    show hd x - (if (⟨assigned.symbol, r.tokenContract⟩ : ExtendedSymbol) = x
      then assigned.amount else 0) = hd x + (remainingOn (s.redpacks.put (r.claimed rest ctx.now)) x - _)
    have hstored : s.redpacks.find? (r.claimed rest ctx.now).code.raw = some r := hr.stored
    have hput := remainingOn_put (r.claimed rest ctx.now) hstored rfl x
    have hrow : (r.claimed rest ctx.now).remainingQuant.amount
        = r.remainingQuant.amount - assigned.amount := hamount
    -- what is left drops by the share that goes out
    rw [hrow, sub_sub_cancel] at hput
    rw [htoken, hput]
    omega
  | cancel r hr =>
    have hsum := Table.sum_erase hr fun r => if r.token = x then r.remainingQuant.amount else 0
    rw [Contract.received_act, outflow_refund (h r (Table.find?_eq_some.mp hr).1)]
    unfold remainingOn
    show _ = hd x + (Table.sum (s.redpacks.erase r.code.raw) _ - _)
    omega

end Moves

/-! ## Whole runs -/

/-- Tables and tokens agree. -/
structure Solvent (w : World State) : Prop where
  booked : Booked w.state
  holding : ∀ x, x.contract ∈ handledBanks → w.holding x = remainingOn w.state.redpacks x

/-- The red packets fit together, and the account holds what they have to give. -/
structure Covered (w : World State) : Prop where
  fee : w.state.gstate.unwrapFeeRequired = false
  sound : ∀ r ∈ w.state.redpacks, r.Sound
  holding : ∀ x, x.contract ∈ handledBanks → w.holding x = remainingOn w.state.redpacks x

theorem Solvent.covered {w : World State} (h : Solvent w) : Covered w :=
  ⟨h.booked.fee, h.booked.sound, h.holding⟩

/-- The guard that no step renumbers the red packets. -/
def NoSetglobalidx (_ : World State) (i : Ctx × Input Action) : Prop := Numbered i.2

instance (w : World State) (i : Ctx × Input Action) : Decidable (NoSetglobalidx w i) :=
  inferInstanceAs (Decidable (Numbered i.2))

section Runs
variable {self : Name} {w w' : World State} {clock : TimePoint}
  {i : Ctx × Input Action} {is : List (Ctx × Input Action)}

/-- There is an id left, should the input bring a deposit. -/
def HasRoom (self : Name) (s : State) (i : Ctx × Input Action) : Prop :=
  isDeposit self i = true → s.globalidx.lastRedpackId + 1 < 2 ^ 64

/-- Every step whatsoever leaves the red packets covered. -/
theorem covered_of_step (h : Covered w) (hs : (contract self).step w i = .ok w') : Covered w' := by
  obtain ⟨-, hsigner, -, outs, hrun, hsettle⟩ := ((contract self).step_eq_ok).mp hs
  have hm := move_of_run h.fee hrun
  have hpos : ∀ t ∈ outs, 0 < t.quantity.amount := fun t ht => (mem_of_settle hsettle ht).2
  refine ⟨fee_of_move h.fee hm, sound_of_move h.sound hm hpos, fun x hx => ?_⟩
  have hsigner' : Contract.signer? i.2 ≠ some self := hsigner
  have hflow := flow_of_move h.sound hsigner' hm hpos w.holding hx
  rw [settle_apply hsettle x, hflow, h.holding x hx]
  omega

theorem solvent_of_step (h : Solvent w) (hnumbered : Numbered i.2)
    (hroom : HasRoom self w.state i) (hs : (contract self).step w i = .ok w') : Solvent w' := by
  obtain ⟨-, hsigner, -, outs, hrun, hsettle⟩ := ((contract self).step_eq_ok).mp hs
  have hm := move_of_run h.booked.fee hrun
  have hpos : ∀ t ∈ outs, 0 < t.quantity.amount := fun t ht => (mem_of_settle hsettle ht).2
  exact ⟨h.booked.move hm hnumbered hpos hroom, (covered_of_step h.covered hs).holding⟩

theorem solvent_genesis (clock : TimePoint) : Solvent (genesis clock) := by
  refine ⟨⟨rfl, ?_, ?_, ?_, ?_, ?_, ?_, ?_, ?_⟩, fun x _ => rfl⟩ <;>
  · intro r hr
    exact absurd hr (Table.not_mem_empty r)

/-- Fewer than `2 ^ 64` deposits leave an id for each of them. -/
theorem solvent_of_run
    (hrun : Transition.Run (contract self).step NoSetglobalidx (genesis clock) is w)
    (hcount : is.countP (isDeposit self) < 2 ^ 64) : Solvent w := by
  suffices h : Solvent w ∧ w.state.globalidx.lastRedpackId ≤ is.countP (isDeposit self) from h.1
  -- the last id is at most the number of deposits, so there is room for each of them
  refine hrun.invariant_inputs (P := fun is w => is.countP (isDeposit self) < 2 ^ 64 →
    Solvent w ∧ w.state.globalidx.lastRedpackId ≤ is.countP (isDeposit self)) ?_ ?_ hcount
  · intro is w i w' ih hnumbered hs hlt
    rw [List.countP_append, List.countP_singleton] at hlt ⊢
    rcases ih (by omega) with ⟨hsolvent, hlast⟩
    have hroom : isDeposit self i = true → is.countP (isDeposit self) + 1 < 2 ^ 64 := by
      intro hd
      rw [if_pos hd] at hlt
      exact hlt
    rcases (contract self).run_of_step hs with ⟨outs, hcode⟩
    refine ⟨solvent_of_step hsolvent hnumbered (fun hd => ?_) hs,
      lastRedpackId_of_move (move_of_run hsolvent.booked.fee hcode) hnumbered hlast hroom⟩
    have := hroom hd
    omega
  · exact fun _ => ⟨solvent_genesis clock, le_refl _⟩

theorem length_claimsOf (redpackId : ℕ) (s : State) :
    (claimsOf redpackId s).length = claimCount redpackId s.claims := by
  unfold claimsOf claimCount Table.sum
  induction s.claims.rows with
  | nil => rfl
  | cons c l ih =>
    rw [List.map_cons, List.sum_cons, ← ih, List.filter_cons]
    by_cases hc : c.redpackId = redpackId
    · rw [if_pos hc, if_pos (decide_eq_true hc), List.length_cons, add_comm]
    · rw [if_neg hc, if_neg (by simpa using hc), zero_add]

theorem sum_claimsOf (redpackId : ℕ) (s : State) :
    ((claimsOf redpackId s).map fun c => c.quantity.amount).sum
      = claimedAmount redpackId s.claims := by
  unfold claimsOf claimedAmount Table.sum
  induction s.claims.rows with
  | nil => rfl
  | cons c l ih =>
    rw [List.map_cons, List.sum_cons, ← ih, List.filter_cons]
    by_cases hc : c.redpackId = redpackId
    · rw [if_pos hc, if_pos (decide_eq_true hc), List.map_cons, List.sum_cons]
    · rw [if_neg hc, if_neg (by simpa using hc), zero_add]

/-- No account has two claims on one red packet. -/
theorem nodup_claimsOf {s : State} (h : Booked s) (redpackId : ℕ) :
    ((claimsOf redpackId s).map Claim.claimer).Nodup := by
  have hof : ∀ c ∈ claimsOf redpackId s, c ∈ s.claims ∧ c.redpackId = redpackId := by
    intro c hc
    rcases List.mem_filter.mp hc with ⟨hmem, hid⟩
    exact ⟨hmem, of_decide_eq_true hid⟩
  have hrows : (claimsOf redpackId s).Nodup :=
    (List.Nodup.of_map _ s.claims.nodup_keys).sublist List.filter_sublist
  refine List.Nodup.map_on (fun c hc c' hc' heq => ?_) hrows
  rcases hof c hc with ⟨hmem, hid⟩
  rcases hof c' hc' with ⟨hmem', hid'⟩
  exact h.claimers c hmem c' hmem' (hid.trans hid'.symm) heq

/-- The account can pay out what any one red packet still has to give. -/
theorem remaining_le_holding (h : Covered w) {r : RedpackRow} (hr : r ∈ w.state.redpacks) :
    r.remainingQuant.amount ≤ w.holding r.token := by
  rw [h.holding r.token (h.sound r hr).bank]
  have hnonneg : ∀ r' ∈ w.state.redpacks,
      0 ≤ if r'.token = r.token then r'.remainingQuant.amount else 0 := by
    intro r' hr'
    have hremaining := (h.sound r' hr').remaining
    split
    · exact hremaining.1
    · exact le_refl _
  have hle := Table.le_sum hnonneg hr
  rw [if_pos rfl] at hle
  exact hle

/-- A claim that passes the checks goes through as a transaction: the account holds what the red
packets have to give. -/
theorem claim_goes_through (h : Covered w) {ctx : Ctx} {r : RedpackRow} {claimer : Name}
    {pwhash : List Char} {dids : List DidBalance} {assigned : Asset}
    (hr : Claimable ctx w.state r claimer pwhash dids) (hassign : assign ctx r = .ok assigned)
    (hsymbol : r.remainingQuant.symbol = assigned.symbol) (hpos : 0 < assigned.amount)
    (hle : assigned.amount ≤ r.remainingQuant.amount)
    (hid : w.state.claims.find? (u64 (w.state.globalidx.lastClaimId + 1)) = none)
    (hclock : w.clock ≤ ctx.now) (hself : claimer ≠ self) :
    ∃ w', (contract self).step w (ctx, .act (.claimredpack claimer r.code pwhash dids)) = .ok w' ∧
      exec self ctx (.claimredpack claimer r.code pwhash dids) w.state
        = .ok (w'.state, [⟨r.tokenContract, claimer, assigned, redpackMemo "claim:" r⟩]) := by
  have hmem := (Table.find?_eq_some.mp hr.stored).1
  have hsound := h.sound r hmem
  -- the remainder after the share is within the range of an asset
  have hmax : Asset.maxAmount = 2 ^ 62 - 1 := rfl
  have hremaining := hsound.remaining
  have htotal := hsound.valid.1.2
  have hrest : r.remainingQuant.sub assigned
      = .ok (r.remainingQuant.setAmount (r.remainingQuant.amount - assigned.amount)) := by
    refine Asset.sub_eq_ok.mpr ⟨hsymbol.symm, rfl, ?_⟩
    have hexact : i64 (r.remainingQuant.amount - assigned.amount)
        = r.remainingQuant.amount - assigned.amount := by
      apply i64_eq
      · omega
      · omega
    show -Asset.maxAmount ≤ i64 _ ∧ i64 _ ≤ Asset.maxAmount
    rw [hexact]
    omega
  obtain ⟨s', hexec⟩ := claimredpack_of hr hassign hsymbol hle hrest hid
  have hcovered := remaining_le_holding h hmem
  have htoken : (⟨assigned.symbol, r.tokenContract⟩ : ExtendedSymbol) = r.token := by
    rw [← hsymbol, hsound.symbol]
    rfl
  have hsettle : ∃ holding, settle self w.holding
      [⟨r.tokenContract, claimer, assigned, redpackMemo "claim:" r⟩] = .ok holding := by
    refine ⟨_, settle_singleton hself hpos ?_⟩
    show assigned.amount ≤ w.holding ⟨assigned.symbol, r.tokenContract⟩
    rw [htoken]
    omega
  obtain ⟨holding, hsettle⟩ := hsettle
  refine ⟨⟨s', holding, ctx.now⟩, ?_, hexec⟩
  exact ((contract self).step_eq_ok).mpr ⟨hclock, fun hc => (by cases hc), rfl, _, hexec, hsettle⟩

/-- The refund of a red packet goes to its creator, and the account can pay it. -/
theorem refund_covered (h : Solvent w) {r : RedpackRow} (hr : r ∈ w.state.redpacks) {t : Transfer}
    (ht : t ∈ r.refund) : t.recipient = r.creator ∧ t.quantity.amount ≤ w.holding t.token := by
  have htoken : (⟨r.remainingQuant.symbol, r.tokenContract⟩ : ExtendedSymbol) = r.token := by
    rw [(h.booked.sound r hr).symbol]
    rfl
  rw [RedpackRow.refund] at ht
  split at ht
  · rw [List.mem_singleton.mp ht]
    refine ⟨rfl, ?_⟩
    show r.remainingQuant.amount ≤ w.holding ⟨r.remainingQuant.symbol, r.tokenContract⟩
    rw [htoken]
    exact remaining_le_holding h.covered hr
  · exact absurd ht List.not_mem_nil

/-- In every reachable state the claims recorded for a red packet are the shares taken out of
it, each by another account; a finished one has nothing left; the account holds of every
handled token what the red packets still have to give; and `cancel` orders for the creator
exactly what no claimer received. -/
theorem conservation
    (hrun : Transition.Run (contract self).step NoSetglobalidx (genesis clock) is w)
    (hcount : is.countP (isDeposit self) < 2 ^ 64) :
    (∀ r ∈ w.state.redpacks,
      (0 ≤ r.remainingQuant.amount ∧ r.remainingQuant.amount ≤ r.totalQuant.amount) ∧
      r.remainingCount ≤ r.totalCount ∧
      (claimsOf r.redpackId w.state).length = r.totalCount - r.remainingCount ∧
      ((claimsOf r.redpackId w.state).map Claim.claimer).Nodup ∧
      ((claimsOf r.redpackId w.state).map fun c => c.quantity.amount).sum
        = r.totalQuant.amount - r.remainingQuant.amount ∧
      (r.status = .finished → r.remainingQuant.amount = 0)) ∧
    (∀ x, x.contract ∈ handledBanks → w.holding x = remainingOn w.state.redpacks x) ∧
    ∀ (ctx : Ctx) (code : Name) (s' : State) (outs : List Transfer),
      cancel ctx code w.state = .ok (s', outs) →
      ∃ r ∈ w.state.redpacks, r.code = code ∧ s'.redpacks = w.state.redpacks.erase code.raw ∧
        (∀ t ∈ outs, t.recipient = r.creator ∧ t.quantity.amount ≤ w.holding t.token) ∧
        ∀ x, outflow x outs = if r.token = x then r.totalQuant.amount
          - ((claimsOf r.redpackId w.state).map fun c => c.quantity.amount).sum else 0 := by
  have h := solvent_of_run hrun hcount
  refine ⟨fun r hr => ?_, h.holding, fun ctx code s' outs hcancel => ?_⟩
  -- each row: the counts and amounts of the books, read through the claim list
  · have hsound := h.booked.sound r hr
    have hc := h.booked.count r hr
    have ha := h.booked.amount r hr
    refine ⟨hsound.remaining, hsound.count, ?_, nodup_claimsOf h.booked _, ?_, fun hfin => ?_⟩
    · rw [length_claimsOf]
      omega
    · rw [sum_claimsOf]
      omega
    · exact hsound.spent (hsound.finished.mp hfin)
  · obtain ⟨r, hr, rfl, rfl, rfl⟩ := cancel_spec hcancel
    have hmem := (Table.find?_eq_some.mp hr).1
    refine ⟨r, hmem, rfl, rfl, fun t ht => refund_covered h hmem ht, fun x => ?_⟩
    -- what is left is the total less what the claims took
    have ha := h.booked.amount r hmem
    rw [outflow_refund (h.booked.sound r hmem), sum_claimsOf]
    split
    · omega
    · rfl

end Runs

/-! ## A sample run -/

namespace Sample

def account : Name := .lit "flon.redpack"
def admin : Name := .lit "admin"
def alice : Name := .lit "alice"
def bob : Name := .lit "bob"
def carol : Name := .lit "carol"
def bank : Name := .lit "flon.token"
def flon : Symbol := .lit "FLON" 8
def gift : Name := .lit "gift"

/-- A contract with one listed token and an expiry of one day. -/
def setup : List (Ctx × Input Action) :=
  [(.signed account 100, .act (.init admin admin 24 false 0 admin)),
   (.signed admin 100, .act (.listtoken bank flon))]

/-- Alice transfers units of the listed token. -/
def deposit (day : ℕ) (amount : ℤ) (h : 0 ≤ amount ∧ amount < 1000000) (memo : String) :
    Ctx × Input Action :=
  (.signed alice day, .notify {
    bank
    sender := alice
    recipient := account
    quantity := ⟨amount, flon, by omega⟩
    memo := memo.toList
    valid := by
      refine ⟨?_, ?_⟩
      · show -Asset.maxAmount ≤ amount ∧ amount ≤ Asset.maxAmount
        unfold Asset.maxAmount
        omega
      · show flon.isValid = true
        decide })

/-- The administrator claims a share for `claimer`. -/
def claim (day : ℕ) (claimer : Name) (seed : UInt64) : Ctx × Input Action :=
  ({ Ctx.signed admin day with seed }, .act (.claimredpack claimer gift [] []))

/-- Alice deposits 300 units for three equal shares. -/
def threeShares (day : ℕ) : Ctx × Input Action :=
  deposit day 300 (by omega) "awrap:gift:mean:0:3::cover"

/-- One of three equal shares of 300 units is claimed. -/
def oneClaimed : List (Ctx × Input Action) := setup ++ [threeShares 100, claim 100 bob 0]

/-- `cancel` returns the other 200 units. -/
theorem conservation_sample :
    ∃ w, Transition.Run (contract account).step NoSetglobalidx (genesis (.ofDays 100)) oneClaimed w ∧
      oneClaimed.countP (isDeposit account) < 2 ^ 64 ∧
      w.holding ⟨flon, bank⟩ = remainingOn w.state.redpacks ⟨flon, bank⟩ ∧
      remainingOn w.state.redpacks ⟨flon, bank⟩ = 200 ∧
      ∃ s' outs, cancel (.signed bob 102) gift w.state = .ok (s', outs) ∧
        ∃ r ∈ w.state.redpacks, r.code = gift ∧ ∀ t ∈ outs, t.recipient = r.creator := by
  have hreach : Transition.Reaches (contract account).step NoSetglobalidx (fun w =>
      remainingOn w.state.redpacks ⟨flon, bank⟩ = 200 ∧
      Transition.Succeeds (cancel (.signed bob 102) gift w.state) fun _ => True)
      oneClaimed (genesis (.ofDays 100)) := by decide
  obtain ⟨w, hrun, hremaining, hcancel⟩ := Transition.run_of_reaches hreach
  obtain ⟨⟨s', outs⟩, hok, -⟩ := Transition.succeeds_iff.mp hcancel
  have hfew : oneClaimed.countP (isDeposit account) < 2 ^ 64 := by decide
  have hresult := conservation hrun hfew
  obtain ⟨r, hr, hcode, -, hto, -⟩ := hresult.2.2 _ _ s' outs hok
  exact ⟨w, hrun, hfew, hresult.2.1 _ (by decide), hremaining, s', outs, hok, r, hr, hcode,
    fun t ht => (hto t ht).1⟩

end Sample

end Redpack
end ToolkitContracts
