import Mathlib.Tactic.Ring
import ToolkitContracts.Redpack.Repeat

/-!
# Equal shares

Every claim on a `MEAN` red packet but the last takes the mean of the total, rounded down, and
the last one takes the rest, which is less than one unit a claimer above the mean. The shares
are there whatever else happens. A claim is refused only for what does not depend on them: a name
that is no account cannot be paid, nor can the account of the contract, a claim left under the
code shuts its account out, and a claim id that is in use again stops every claim.
-/

namespace ToolkitContracts
namespace Redpack

/-- The share that the claim after `k` others takes, of `total` for `count` claimers. -/
def meanShare (total : ℤ) (count k : ℕ) : ℤ :=
  if k + 1 = count then total - ((count : ℤ) - 1) * (total / count) else total / count

/-- The last share is the mean and less than one unit a claimer more. -/
theorem lastShare_bounds (total : ℤ) {count : ℕ} (hcount : 0 < count) :
    total / count ≤ meanShare total count (count - 1) ∧
      meanShare total count (count - 1) < total / count + count := by
  have hlast : count - 1 + 1 = count := by omega
  have hdiv := Int.mul_ediv_add_emod total count
  have hnonneg := Int.emod_nonneg total (b := (count : ℤ)) (by omega)
  have hlt := Int.emod_lt_of_pos total (b := (count : ℤ)) (by omega)
  have hshare : meanShare total count (count - 1) = total / count + total % count := by
    rw [meanShare, if_pos hlast, sub_mul, one_mul]
    omega
  rw [hshare]
  omega

/-- How many shares of a red packet have been claimed. -/
def RedpackRow.taken (r : RedpackRow) : ℕ := r.totalCount - r.remainingCount

/-- The mean of a red packet is positive, and what is left of a `MEAN` one is the total less
the mean for each claim. -/
structure RedpackRow.Even (r : RedpackRow) : Prop where
  countPos : 0 < r.totalCount
  share : 100 ≤ r.totalQuant.amount / r.totalCount
  mean : r.assignType = .mean → 0 < r.remainingCount →
    r.remainingQuant.amount
      = r.totalQuant.amount - r.taken * (r.totalQuant.amount / r.totalCount)

/-! ## One share -/

section Share
variable {self : Name} {ctx : Ctx} {s s' : State} {i : Input Action} {outs : List Transfer}
  {r : RedpackRow} {n : Notice} {claimer : Name} {pwhash : List Char} {dids : List DidBalance}
  {assigned rest : Asset}

theorem Fresh.even (hr : Fresh ctx n s r) : r.Even := by
  have hshare := hr.share
  have hpos := hr.quantPos
  rw [Int.tdiv_eq_ediv_of_nonneg hpos.le] at hshare
  refine ⟨hr.countPos, ?_, fun _ _ => ?_⟩
  · rw [hr.total]
    exact hshare
  · rw [RedpackRow.taken, hr.count, hr.remaining, hr.total]
    simp

/-- What is left of a `MEAN` red packet is a mean for every claim but the last, and what the last
one takes. -/
theorem RedpackRow.Even.remaining (h : r.Even) (hsound : r.Sound) (hmean : r.assignType = .mean)
    (hleft : 0 < r.remainingCount) :
    r.remainingQuant.amount
      = ((r.remainingCount : ℤ) - 1) * (r.totalQuant.amount / r.totalCount)
        + meanShare r.totalQuant.amount r.totalCount (r.totalCount - 1) := by
  have hcount := hsound.count
  have hpos := h.countPos
  have htaken : (r.taken : ℤ) = r.totalCount - r.remainingCount := by
    unfold RedpackRow.taken
    omega
  rw [h.mean hmean hleft, htaken, meanShare, if_pos (by omega)]
  ring

/-- The next claim on a `MEAN` red packet is assigned its share. -/
theorem assign_mean (ctx : Ctx) (h : r.Even) (hsound : r.Sound) (hmean : r.assignType = .mean)
    (hleft : 0 < r.remainingCount) :
    ∃ a, assign ctx r = .ok a ∧ r.remainingQuant.symbol = a.symbol ∧
      a.amount = meanShare r.totalQuant.amount r.totalCount r.taken ∧ 0 < a.amount ∧
      a.amount ≤ r.remainingQuant.amount := by
  have hcount := hsound.count
  have hshare := h.share
  have hcountPos := h.countPos
  have hremaining := h.remaining hsound hmean hleft
  obtain ⟨hlast, -⟩ := lastShare_bounds r.totalQuant.amount hcountPos
  by_cases hone : r.remainingCount = 1
  · have htaken : r.taken = r.totalCount - 1 := by
      unfold RedpackRow.taken
      omega
    rw [hone] at hremaining
    simp only [Nat.cast_one, sub_self, zero_mul, zero_add] at hremaining
    refine ⟨r.remainingQuant, assign_last hone, rfl, ?_, ?_, le_refl _⟩
    · rw [htaken]
      exact hremaining
    · omega
  · -- the quotient of two positive amounts, which leaves the asset range alone
    have htotal : 0 ≤ r.totalQuant.amount := hsound.remaining.1.trans hsound.remaining.2
    have hbounds := r.totalQuant.bounds
    have hself : r.totalQuant.amount / r.totalCount ≤ r.totalQuant.amount :=
      Int.ediv_le_self _ htotal
    have hexact : i64 (r.totalQuant.amount / r.totalCount)
        = r.totalQuant.amount / r.totalCount := by
      apply i64_eq
      · omega
      · omega
    have hdiv : assign ctx r
        = .ok (r.totalQuant.setAmount (r.totalQuant.amount / r.totalCount)) := by
      rw [assign, hmean]
      show assignMean r = _
      rw [assignMean, if_neg hone, Asset.div, check_of (by omega), check_of (by omega),
        Int.tdiv_eq_ediv_of_nonneg htotal]
      rfl
    refine ⟨_, hdiv, hsound.symbol, ?_, ?_, ?_⟩
    · rw [Asset.setAmount_amount, hexact, meanShare, if_neg]
      unfold RedpackRow.taken
      omega
    · rw [Asset.setAmount_amount, hexact]
      omega
    · rw [Asset.setAmount_amount, hexact, hremaining]
      have hothers : 0 ≤ ((r.remainingCount : ℤ) - 1) * (r.totalQuant.amount / r.totalCount) := by
        apply mul_nonneg
        · omega
        · omega
      omega

/-- A claim keeps a red packet even. -/
theorem RedpackRow.Even.claimed (h : r.Even) (hsound : r.Sound)
    (hr : Claimable ctx s r claimer pwhash dids) (hassign : assign ctx r = .ok assigned)
    (hpos : 0 < assigned.amount) (hrest : r.remainingQuant.sub assigned = .ok rest)
    (now : TimePoint) : (r.claimed rest now).Even := by
  refine ⟨h.countPos, h.share, fun hmean hleft => ?_⟩
  have hmean' : r.assignType = .mean := hmean
  have hleft' : 0 < r.remainingCount - 1 := hleft
  have hcount := hsound.count
  obtain ⟨a, ha, -, hamount, -⟩ := assign_mean ctx h hsound hmean' hr.countPos
  obtain rfl : a = assigned := Except.ok.inj (ha.symm.trans hassign)
  have hrestAmount := claimed_amount hsound hpos hrest
  have htaken : (r.claimed rest now).taken = r.taken + 1 := by
    show r.totalCount - (r.remainingCount - 1) = r.totalCount - r.remainingCount + 1
    omega
  have hshare : a.amount = r.totalQuant.amount / r.totalCount := by
    rw [hamount, meanShare, if_neg]
    unfold RedpackRow.taken
    omega
  show rest.amount = r.totalQuant.amount
    - (r.claimed rest now).taken * (r.totalQuant.amount / r.totalCount)
  rw [htaken, hrestAmount, h.mean hmean' hr.countPos, hshare]
  push_cast
  ring

/-- Every move keeps the red packets even. -/
theorem even_of_move (hsound : ∀ r ∈ s.redpacks, r.Sound) (h : ∀ r ∈ s.redpacks, r.Even)
    (hm : Move self ctx s i s' outs) (hpos : ∀ t ∈ outs, 0 < t.quantity.amount) :
    ∀ r ∈ s'.redpacks, r.Even := by
  cases hm with
  | ignore | configure | setglobalidx | delclaims => exact h
  | deposit n r hto hbank hr => exact Table.forall_put h hr.even
  | claimredpack r claimer pwhash dids assigned rest hr hassign hsymbol hle hrest hid =>
    have hmem := (Table.find?_eq_some.mp hr.stored).1
    refine Table.forall_put h ?_
    exact (h r hmem).claimed (hsound r hmem) hr hassign (hpos _ (List.mem_singleton.mpr rfl)) hrest
      ctx.now
  | cancel r hr => exact Table.forall_erase h

end Share

/-! ## One claim -/

/-- The claim on a red packet for an account, with its rows at the DID contract. -/
def RedpackRow.claimBy (r : RedpackRow) (accounts : Name → List DidBalance) (claimer : Name) :
    Action := .claimredpack claimer r.code r.passwdHash (accounts claimer)

/-- The transfer pays the claimer the share after `k` others. -/
def RedpackRow.Pays (r : RedpackRow) (k : ℕ) (claimer : Name) (t : Transfer) : Prop :=
  t.token = r.token ∧ t.recipient = claimer ∧
    t.quantity.amount = meanShare r.totalQuant.amount r.totalCount k

/-- The red packets are covered and even. -/
structure Dealt (w : World State) : Prop where
  covered : Covered w
  even : ∀ r ∈ w.state.redpacks, r.Even

/-- A stored `MEAN` red packet that requires no DID. -/
structure Plain (s : State) (r : RedpackRow) : Prop where
  stored : s.redpacks.find? r.code.raw = some r
  mean : r.assignType = .mean
  noDid : r.didRequired = false

/-- What a claim for an account depends on, besides the red packet. -/
structure OpenTo (account : Name) (s : State) (r : RedpackRow) (claimer : Name) : Prop where
  other : claimer ≠ account
  first : findClaim claimer r.code s = none

/-- The first `n` claim ids to be handed out are free. -/
def IdsFree (s : State) (n : ℕ) : Prop :=
  ∀ j < n, s.claims.find? (u64 (s.globalidx.lastClaimId + 1 + j)) = none

section Claim
variable {self : Name} {w w' : World State} {ctx : Ctx} {r : RedpackRow} {claimer : Name}
  {accounts : Name → List DidBalance}

theorem dealt_of_step {i : Ctx × Input Action} (h : Dealt w) (hs : (contract self).step w i = .ok w') :
    Dealt w' := by
  obtain ⟨-, -, -, outs, hrun, hsettle⟩ := ((contract self).step_eq_ok).mp hs
  have hm := move_of_run h.covered.fee hrun
  have hpos : ∀ t ∈ outs, 0 < t.quantity.amount := fun t ht => (mem_of_settle hsettle ht).2
  exact ⟨covered_of_step h.covered hs, even_of_move h.covered.sound h.even hm hpos⟩

/-- A claim row leaves the answers for other accounts alone. -/
theorem findClaim_put_iff {s s' : State} {c : Claim} {other code : Name}
    (hclaims : s'.claims = s.claims.put c) (hid : s.claims.find? c.id = none)
    (hne : other ≠ c.claimer) :
    findClaim other code s' = none ↔ findClaim other code s = none := by
  rw [findClaim_eq_none, findClaim_eq_none, hclaims]
  constructor
  · intro h d hd
    exact h d (Table.mem_put.mpr (Or.inr ⟨hd, Table.find?_eq_none.mp hid d hd⟩))
  · intro h
    exact Table.forall_put h fun hclaimer => absurd hclaimer.symm hne

/-- After a claim the next ids are those after its own. -/
theorem idsFree_put_iff {s s' : State} {c : Claim} (hclaims : s'.claims = s.claims.put c)
    (hid : c.id = u64 (s.globalidx.lastClaimId + 1)) (hlast : s'.globalidx.lastClaimId = c.id)
    {n : ℕ} (hn : n < 2 ^ 63) : IdsFree s' n ↔ ∀ j < n,
      s.claims.find? (u64 (s.globalidx.lastClaimId + 1 + (j + 1 : ℕ))) = none := by
  apply forall_congr'
  intro j
  apply imp_congr_right
  intro hj
  rw [hclaims, Table.find?_put, hlast, hid]
  have hnext : u64 ((u64 (s.globalidx.lastClaimId + 1) : ℤ) + 1 + j)
      = u64 (s.globalidx.lastClaimId + 1 + (j + 1 : ℕ)) := by
    unfold u64
    omega
  have hne : u64 (s.globalidx.lastClaimId + 1 + (j + 1 : ℕ)) ≠ u64 (s.globalidx.lastClaimId + 1) := by
    unfold u64
    omega
  rw [hnext, if_neg hne]

/-- While shares are left, a claim goes through when the account is open to it and its id is
free. -/
theorem claim_of_open (h : Dealt w) (hr : Plain w.state r) (hleft : 0 < r.remainingCount)
    (hauth : ctx.hasAuth w.state.gstate.claimAdmin = true) (hclock : w.clock ≤ ctx.now)
    (hopen : OpenTo self w.state r claimer) (hid : IdsFree w.state 1) :
    ∃ w₁, (contract self).step w (ctx, .act (r.claimBy accounts claimer)) = .ok w₁ := by
  have hmem := (Table.find?_eq_some.mp hr.stored).1
  have hsound := h.covered.sound r hmem
  obtain ⟨a, ha, hsymbol, -, hpos, hle⟩ := assign_mean ctx (h.even r hmem) hsound hr.mean hleft
  -- shares are left, so the red packet is neither finished nor waiting for a fee
  have hserving : r.status = .servicing := by
    cases hstatus : r.status with
    | created => exact absurd hstatus hsound.created
    | servicing => rfl
    | finished =>
      have hzero := hsound.finished.mp hstatus
      omega
  have hdid : checkDid r (accounts claimer) w.state = .ok () := by
    rw [checkDid, if_neg (by rw [hr.noDid]; exact Bool.false_ne_true)]
  have hclaimable : Claimable ctx w.state r claimer r.passwdHash (accounts claimer) :=
    ⟨hauth, hr.stored, rfl, hopen.first, hserving, hdid, hleft, by omega⟩
  have hnext : w.state.claims.find? (u64 (w.state.globalidx.lastClaimId + 1)) = none := by
    have hzero := hid 0 (by omega)
    rw [Nat.cast_zero, add_zero] at hzero
    exact hzero
  obtain ⟨w₁, hstep, -⟩ := claim_goes_through h.covered hclaimable ha hsymbol hpos hle hnext hclock
    hopen.other
  exact ⟨w₁, hstep⟩

/-- The state after a claim, as far as the claims after it are concerned. -/
structure After (w w₁ : World State) (ctx : Ctx) (r r₁ : RedpackRow) (claimer : Name) : Prop where
  plain : Plain w₁.state r₁
  same : r₁.claimBy = r.claimBy ∧ r₁.Pays = r.Pays ∧ r₁.code = r.code
  taken : r₁.taken = r.taken + 1
  left : r₁.remainingCount + 1 = r.remainingCount
  admin : w₁.state.gstate.claimAdmin = w.state.gstate.claimAdmin
  clock : w₁.clock = ctx.now
  others : ∀ other, other ≠ claimer →
    (findClaim other r.code w₁.state = none ↔ findClaim other r.code w.state = none)
  ids : ∀ n < 2 ^ 63, IdsFree w₁.state n ↔ ∀ j < n,
    w.state.claims.find? (u64 (w.state.globalidx.lastClaimId + 1 + (j + 1 : ℕ))) = none

/-- An accepted claim pays the share it has come to. -/
theorem paid_of_claim (h : Dealt w) (hr : Plain w.state r)
    (hs : (contract self).step w (ctx, .act (r.claimBy accounts claimer)) = .ok w') :
    OpenTo self w.state r claimer ∧ IdsFree w.state 1 ∧
    ∃ t r₁, exec self ctx (r.claimBy accounts claimer) w.state = .ok (w'.state, [t]) ∧
      r.Pays r.taken claimer t ∧ After w w' ctx r r₁ claimer := by
  obtain ⟨-, -, hclock, outs, hrun, hsettle⟩ := ((contract self).step_eq_ok).mp hs
  have hexec : claimredpack ctx claimer r.code r.passwdHash (accounts claimer) w.state
      = .ok (w'.state, outs) := hrun
  obtain ⟨assigned, rest, hclaimable, hassign, hrest, hid, hstate, rfl⟩ :=
    claimed_of_claimredpack hexec hr.stored
  have hmem := (Table.find?_eq_some.mp hr.stored).1
  have hsound := h.covered.sound r hmem
  obtain ⟨a, ha, hsymbol, hamount, -⟩ :=
    assign_mean ctx (h.even r hmem) hsound hr.mean hclaimable.countPos
  obtain rfl : a = assigned := Except.ok.inj (ha.symm.trans hassign)
  have htoken : (⟨a.symbol, r.tokenContract⟩ : ExtendedSymbol) = r.token := by
    rw [← hsymbol, hsound.symbol]
    rfl
  have hother : claimer ≠ self := (mem_of_settle hsettle (List.mem_singleton.mpr rfl)).1
  have hcount := hsound.count
  have hleft := hclaimable.countPos
  refine ⟨⟨hother, hclaimable.first⟩, ?_, _, r.claimed rest ctx.now, hexec, ⟨htoken, rfl, hamount⟩, ?_⟩
  · intro j hj
    obtain rfl : j = 0 := by omega
    rw [Nat.cast_zero, add_zero]
    exact hid
  · refine ⟨⟨?_, hr.mean, hr.noDid⟩, ⟨rfl, rfl, rfl⟩, ?_, ?_, ?_, hclock, ?_, ?_⟩
    · rw [hstate]
      exact (Table.find?_put _ _ _).trans (if_pos rfl)
    · show r.totalCount - (r.remainingCount - 1) = r.totalCount - r.remainingCount + 1
      omega
    · show r.remainingCount - 1 + 1 = r.remainingCount
      omega
    · rw [hstate]
    · intro other hne
      exact findClaim_put_iff (congrArg State.claims hstate) hid hne
    · intro n hn
      exact idsFree_put_iff (congrArg State.claims hstate) rfl
        (congrArg (fun s => s.globalidx.lastClaimId) hstate) hn

end Claim

/-! ## The claims in turn -/

/-- The calls go through one after the other, and each orders the one transfer that its turn is
to pay. -/
def PaidInTurn (account : Name) (call : Name → Action) (pays : ℕ → Name → Transfer → Prop) :
    ℕ → List (Ctx × Name) → World State → World State → Prop
  | _, [], w, w' => w' = w
  | k, (ctx, claimer) :: calls, w, w' => ∃ w₁ t,
      (contract account).step w (ctx, .act (call claimer)) = .ok w₁ ∧
      exec account ctx (call claimer) w.state = .ok (w₁.state, [t]) ∧ pays k claimer t ∧
      PaidInTurn account call pays (k + 1) calls w₁ w'

/-- The administrator's calls, each for another account. The claimers exist: the code does not look,
and a token contract pays no one else. -/
structure AdminCalls (w : World State) (calls : List (Ctx × Name)) : Prop where
  auth : ∀ call ∈ calls, call.1.hasAuth w.state.gstate.claimAdmin = true
  payable : ∀ call ∈ calls, call.1.isAccount call.2 = true
  clock : ∀ call ∈ calls, w.clock ≤ call.1.now
  order : calls.Pairwise fun a b => a.1.now ≤ b.1.now
  distinct : (calls.map Prod.snd).Nodup

/-- The calls go through and pay the shares that it is their turn to pay; when they were all that
was left, the red packet is finished and empty. -/
def PaidFairly (account : Name) (w : World State) (r : RedpackRow)
    (accounts : Name → List DidBalance) (calls : List (Ctx × Name)) : Prop :=
  ∃ w', PaidInTurn account (r.claimBy accounts) r.Pays r.taken calls w w' ∧
    (calls.length = r.remainingCount → ∃ r', w'.state.redpacks.find? r.code.raw = some r' ∧
      r'.status = .finished ∧ r'.remainingQuant.amount = 0)

section Turns
variable {account : Name} {w w' w₁ : World State} {ctx : Ctx} {r r₁ : RedpackRow}
  {claimer other : Name} {accounts : Name → List DidBalance} {calls : List (Ctx × Name)}

theorem openTo_after (h : After w w₁ ctx r r₁ claimer) (hne : other ≠ claimer) :
    OpenTo account w₁.state r₁ other ↔ OpenTo account w.state r other := by
  constructor
  · intro hopen
    refine ⟨hopen.other, (h.others other hne).mp ?_⟩
    rw [← h.same.2.2]
    exact hopen.first
  · intro hopen
    refine ⟨hopen.other, ?_⟩
    rw [h.same.2.2]
    exact (h.others other hne).mpr hopen.first

/-- The calls after the first one are made in the state that it leaves. -/
theorem AdminCalls.tail (h : AdminCalls w ((ctx, claimer) :: calls))
    (hafter : After w w₁ ctx r r₁ claimer) :
    AdminCalls w₁ calls ∧ ∀ call ∈ calls, call.2 ≠ claimer := by
  have horder := List.pairwise_cons.mp h.order
  have hdistinct := List.nodup_cons.mp h.distinct
  refine ⟨⟨?_, ?_, ?_, horder.2, hdistinct.2⟩, ?_⟩
  · intro call hcall
    rw [hafter.admin]
    exact h.auth call (List.mem_cons_of_mem _ hcall)
  · exact fun call hcall => h.payable call (List.mem_cons_of_mem _ hcall)
  · intro call hcall
    rw [hafter.clock]
    exact horder.1 call hcall
  · intro call hcall hsame
    exact hdistinct.1 (List.mem_map.mpr ⟨call, hcall, hsame⟩)

/-- There are fewer claimers than units. -/
theorem totalCount_lt (hsound : r.Sound) (heven : r.Even) : r.totalCount < 2 ^ 63 := by
  have hshare := heven.share
  have hbounds := r.totalQuant.bounds
  have htotal : 0 ≤ r.totalQuant.amount := hsound.remaining.1.trans hsound.remaining.2
  by_contra hlarge
  rw [Int.ediv_eq_zero_of_lt htotal (by omega)] at hshare
  omega

theorem idsFree_succ {s : State} {n : ℕ} : IdsFree s (n + 1) ↔ IdsFree s 1 ∧ ∀ j < n,
    s.claims.find? (u64 (s.globalidx.lastClaimId + 1 + (j + 1 : ℕ))) = none := by
  constructor
  · intro h
    exact ⟨fun j hj => h j (by omega), fun j hj => h (j + 1) (by omega)⟩
  · rintro ⟨hfirst, hrest⟩ j hj
    cases j with
    | zero => exact hfirst 0 (by omega)
    | succ j => exact hrest j (by omega)

/-- Calls on the shares that are left go through and pay them exactly when each account is open
to it and there is an id for each. -/
theorem paidInTurn_iff (h : Dealt w) (hr : Plain w.state r) (hcalls : AdminCalls w calls)
    (hlen : calls.length ≤ r.remainingCount) :
    (∃ w', PaidInTurn account (r.claimBy accounts) r.Pays r.taken calls w w') ↔
      (∀ call ∈ calls, OpenTo account w.state r call.2) ∧ IdsFree w.state calls.length := by
  induction calls generalizing w r with
  | nil =>
    refine iff_of_true ⟨w, rfl⟩ ⟨fun call hcall => absurd hcall List.not_mem_nil, ?_⟩
    intro j hj
    exact absurd hj (Nat.not_lt_zero j)
  | cons call calls ih =>
    obtain ⟨ctx, claimer⟩ := call
    rw [List.length_cons] at hlen ⊢
    have hmem := (Table.find?_eq_some.mp hr.stored).1
    have hlt := totalCount_lt (h.covered.sound r hmem) (h.even r hmem)
    have hcount := (h.covered.sound r hmem).count
    -- what a claim leaves to the rest of the calls
    have hrest : ∀ w₁ r₁, (contract account).step w (ctx, .act (r.claimBy accounts claimer)) = .ok w₁ →
        After w w₁ ctx r r₁ claimer →
        ((∃ w', PaidInTurn account (r.claimBy accounts) r.Pays (r.taken + 1) calls w₁ w') ↔
          (∀ call ∈ calls, OpenTo account w.state r call.2) ∧ ∀ j < calls.length,
            w.state.claims.find? (u64 (w.state.globalidx.lastClaimId + 1 + (j + 1 : ℕ))) = none) := by
      intro w₁ r₁ hstep hafter
      obtain ⟨htail, hne⟩ := hcalls.tail hafter
      have hleft := hafter.left
      have hih := ih (dealt_of_step h hstep) hafter.plain htail (by omega)
      rw [hafter.same.1, hafter.same.2.1, hafter.taken, hafter.ids _ (by omega)] at hih
      rw [hih]
      apply and_congr_left'
      apply forall₂_congr
      intro call hcall
      exact openTo_after hafter (hne call hcall)
    rw [List.forall_mem_cons, idsFree_succ]
    constructor
    · rintro ⟨w', w₁, t, hstep, -, -, hpaid⟩
      obtain ⟨hopen, hid, -, r₁, -, -, hafter⟩ := paid_of_claim h hr hstep
      obtain ⟨hothers, hids⟩ := (hrest w₁ r₁ hstep hafter).mp ⟨w', hpaid⟩
      exact ⟨⟨hopen, hothers⟩, hid, hids⟩
    · rintro ⟨⟨hopen, hothers⟩, hid, hids⟩
      obtain ⟨w₁, hstep⟩ := claim_of_open h hr (by omega) (hcalls.auth _ List.mem_cons_self)
        (hcalls.clock _ List.mem_cons_self) hopen hid
      obtain ⟨-, -, t, r₁, hexec, hpays, hafter⟩ := paid_of_claim h hr hstep
      obtain ⟨w', hpaid⟩ := (hrest w₁ r₁ hstep hafter).mpr ⟨hothers, hids⟩
      exact ⟨w', w₁, t, hstep, hexec, hpays, hpaid⟩

/-- Each call takes one of the shares. -/
theorem row_of_paidInTurn (h : Dealt w) (hr : Plain w.state r)
    (hpaid : PaidInTurn account (r.claimBy accounts) r.Pays r.taken calls w w') :
    Dealt w' ∧ ∃ r', w'.state.redpacks.find? r.code.raw = some r' ∧
      r'.remainingCount + calls.length = r.remainingCount := by
  induction calls generalizing w r with
  | nil =>
    have hsame : w' = w := hpaid
    subst hsame
    exact ⟨h, r, hr.stored, rfl⟩
  | cons call calls ih =>
    obtain ⟨ctx, claimer⟩ := call
    obtain ⟨w₁, t, hstep, -, -, hrest⟩ := hpaid
    obtain ⟨-, -, -, r₁, -, -, hafter⟩ := paid_of_claim h hr hstep
    have hleft := hafter.left
    rw [← hafter.same.1, ← hafter.same.2.1, ← hafter.taken] at hrest
    obtain ⟨hdealt, r', hr', hcount⟩ := ih (dealt_of_step h hstep) hafter.plain hrest
    rw [hafter.same.2.2] at hr'
    refine ⟨hdealt, r', hr', ?_⟩
    rw [List.length_cons]
    omega

theorem paidFairly_iff (h : Dealt w) (hr : Plain w.state r) (hcalls : AdminCalls w calls)
    (hlen : calls.length ≤ r.remainingCount) : PaidFairly account w r accounts calls ↔
      (∀ call ∈ calls, OpenTo account w.state r call.2) ∧ IdsFree w.state calls.length := by
  rw [← paidInTurn_iff h hr hcalls hlen]
  constructor
  · rintro ⟨w', hpaid, -⟩
    exact ⟨w', hpaid⟩
  · rintro ⟨w', hpaid⟩
    refine ⟨w', hpaid, fun hall => ?_⟩
    obtain ⟨hdealt, r', hr', hcount⟩ := row_of_paidInTurn h hr hpaid
    have hsound := hdealt.covered.sound r' (Table.find?_eq_some.mp hr').1
    have hzero : r'.remainingCount = 0 := by omega
    exact ⟨r', hr', hsound.finished.mpr hzero, hsound.spent hzero⟩

end Turns

/-! ## Runs -/

section Runs
variable {account : Name} {w : World State} {r : RedpackRow} {is : List (Ctx × Input Action)}
  {clock : TimePoint}

theorem dealt_of_run
    (hrun : Transition.Run (contract account).step Transition.Unrestricted (genesis clock) is w) :
    Dealt w :=
  hrun.invariant (fun _ _ _ hw _ hstep => dealt_of_step hw hstep)
    ⟨(solvent_genesis clock).covered, fun r hr => absurd hr (Table.not_mem_empty r)⟩

/-- After any run, the administrator's claims on the shares left of a `MEAN` red packet, each for
another account that exists, are paid: the mean to all but the last, which gets the rest, and nothing
remains after it; exactly when no account is the contract's own or has a claim left under the
code, and the next claim ids are free. -/
theorem mean_shares_paid_iff
    (hrun : Transition.Run (contract account).step Transition.Unrestricted (genesis clock) is w)
    (hr : Plain w.state r) :
    (r.totalQuant.amount / r.totalCount
        ≤ meanShare r.totalQuant.amount r.totalCount (r.totalCount - 1) ∧
      meanShare r.totalQuant.amount r.totalCount (r.totalCount - 1)
        < r.totalQuant.amount / r.totalCount + r.totalCount) ∧
    ∀ (accounts : Name → List DidBalance) (calls : List (Ctx × Name)),
      AdminCalls w calls → calls.length ≤ r.remainingCount →
      (PaidFairly account w r accounts calls ↔
        (∀ call ∈ calls, OpenTo account w.state r call.2) ∧ IdsFree w.state calls.length) := by
  have h := dealt_of_run hrun
  have hmem := (Table.find?_eq_some.mp hr.stored).1
  refine ⟨lastShare_bounds _ (h.even r hmem).countPos, ?_⟩
  intro accounts calls hcalls hlen
  exact paidFairly_iff h hr hcalls hlen

end Runs

/-! ## Three shares of a code that is used again -/

namespace Sample

/-- The administrator claims for Bob, Carol and Alice. -/
def threeCalls : List (Ctx × Name) :=
  [(.signed admin 102, bob), (.signed admin 102, carol), (.signed admin 102, alice)]

theorem threeCalls_admin {w : World State} (hadmin : w.state.gstate.claimAdmin = admin)
    (hclock : w.clock = .ofDays 102) : AdminCalls w threeCalls := by
  refine ⟨?_, by decide, ?_, by decide, by decide⟩
  · rw [hadmin]
    decide
  · rw [hclock]
    decide

/-- Bob's claim on the first red packet keeps the second one from being paid out. -/
theorem stale_claim_blocks_share :
    ¬ ∀ (is : List (Ctx × Input Action)) (w : World State) (r : RedpackRow)
      (accounts : Name → List DidBalance) (calls : List (Ctx × Name)),
      Transition.Run (contract account).step Transition.Unrestricted (genesis (.ofDays 100)) is w →
      Plain w.state r → AdminCalls w calls → calls.length = r.remainingCount →
      PaidFairly account w r accounts calls := by
  intro hclaim
  have hreach : Transition.Reaches (contract account).step Transition.Unrestricted (fun w =>
      w.state.gstate.claimAdmin = admin ∧ w.clock = .ofDays 102 ∧
      (findClaim bob gift w.state).isSome = true ∧
      ∃ r ∈ w.state.redpacks.find? gift.raw, r.code = gift ∧ r.assignType = .mean ∧
        r.didRequired = false ∧ r.remainingCount = 3)
      (cancelled ++ [again]) (genesis (.ofDays 100)) := by decide
  obtain ⟨w, hrun, hadmin, hclock, hstale, r, hr, hcode, hmean, hdid, hcount⟩ :=
    Transition.run_of_reaches hreach
  rw [← hcode] at hr hstale
  have hplain : Plain w.state r := ⟨hr, hmean, hdid⟩
  have hcalls := threeCalls_admin hadmin hclock
  have hpaid := hclaim _ w r (fun _ => []) threeCalls hrun hplain hcalls hcount.symm
  have hopen := ((paidFairly_iff (dealt_of_run hrun) hplain hcalls hcount.ge).mp hpaid).1
    _ List.mem_cons_self
  have hfirst : findClaim bob r.code w.state = none := hopen.first
  rw [hfirst] at hstale
  cases hstale

/-- When the claims are purged before the second deposit, all three are paid. -/
theorem mean_shares_paid_iff_sample :
    ∃ w r, Transition.Run (contract account).step Transition.Unrestricted (genesis (.ofDays 100))
        (cancelled ++ [(.signed carol 102, .act (.delclaims 10)), again]) w ∧
      r.remainingCount = 3 ∧ PaidFairly account w r (fun _ => []) threeCalls := by
  have hreach : Transition.Reaches (contract account).step Transition.Unrestricted (fun w =>
      w.state.gstate.claimAdmin = admin ∧ w.clock = .ofDays 102 ∧
      w.state.claims.rows.isEmpty = true ∧
      ∃ r ∈ w.state.redpacks.find? gift.raw, r.code = gift ∧ r.assignType = .mean ∧
        r.didRequired = false ∧ r.remainingCount = 3)
      (cancelled ++ [(.signed carol 102, .act (.delclaims 10)), again]) (genesis (.ofDays 100)) := by
    decide
  obtain ⟨w, hrun, hadmin, hclock, hempty, r, hr, hcode, hmean, hdid, hcount⟩ :=
    Transition.run_of_reaches hreach
  rw [← hcode] at hr
  have hplain : Plain w.state r := ⟨hr, hmean, hdid⟩
  have hnone : ∀ c, c ∉ w.state.claims := by
    intro c hc
    rw [Table.mem_def, List.isEmpty_iff.mp hempty] at hc
    exact absurd hc List.not_mem_nil
  refine ⟨w, r, hrun, hcount, ?_⟩
  refine ((mean_shares_paid_iff hrun hplain).2 _ _ (threeCalls_admin hadmin hclock) hcount.ge).mpr
    ⟨fun call hcall => ⟨?_, ?_⟩, fun j _ => ?_⟩
  · revert call
    decide
  · exact findClaim_eq_none.mpr fun c hc => absurd hc (hnone c)
  · exact Table.find?_eq_none.mpr fun c hc => absurd hc (hnone c)

end Sample

end Redpack
end ToolkitContracts
