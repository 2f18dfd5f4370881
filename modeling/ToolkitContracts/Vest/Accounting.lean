import ToolkitContracts.Vest.Moves

/-!
# Accounting and solvency of flon.vest

Three running totals of a plan, the rows of the issue table and the tokens of the account
are kept in step by arithmetic on raw amounts, most of it unchecked. The invariant that
makes the raw arithmetic exact is `Accounted`: what a plan's totals leave outstanding is
what its ongoing issues have locked. `Solvent` adds that the account holds, token by token,
what the plans have outstanding.
-/

namespace ToolkitContracts
namespace Vest

/-! ## The books -/

/-- The token a plan is about. -/
def VestPlan.token (p : VestPlan) : ExtendedSymbol := ⟨p.assetSymbol, p.assetContract⟩

/-- What was issued under a plan and neither paid out nor refunded. -/
def VestPlan.outstanding (p : VestPlan) : ℤ :=
  p.totalIssued.amount - p.totalUnlocked.amount - p.totalRefunded.amount

/-- What an issue has locked under the plan `planId`. -/
def VestIssue.lockedOf (planId : ℕ) (i : VestIssue) : ℤ :=
  if i.planId = planId ∧ i.status = .ongoing then i.locked.amount else 0

/-- The sum of `locked` over the ongoing issues of a plan. -/
def lockedOn (issues : Table VestIssue.issueId) (planId : ℕ) : ℤ :=
  issues.sum (VestIssue.lockedOf planId)

/-- What the plans on the token `x` have outstanding together. -/
def obligation (plans : Table VestPlan.id) (x : ExtendedSymbol) : ℤ :=
  plans.sum fun p => if p.token = x then p.outstanding else 0

/-- The plan of an issue exists, and its asset symbol is that of the issue's amounts. -/
def VestIssue.HasPlan (plans : Table VestPlan.id) (i : VestIssue) : Prop :=
  ∃ p, plans.find? i.planId = some p ∧ i.issued.symbol = p.assetSymbol ∧
    i.locked.symbol = p.assetSymbol ∧ i.unlocked.symbol = p.assetSymbol

structure VestPlan.Sound (p : VestPlan) : Prop where
  interval : 0 < p.unlockIntervalDays
  times : 0 < p.unlockTimes ∧ p.unlockTimes < 2 ^ 63
  symbol : p.assetSymbol.isValid = true
  issued : 0 ≤ p.totalIssued.amount ∧ p.totalIssued.amount ≤ Asset.maxAmount
  unlocked : 0 ≤ p.totalUnlocked.amount
  refunded : 0 ≤ p.totalRefunded.amount

/-- What holds of an ongoing issue at the time `clock`. -/
structure VestIssue.Sound (clock : TimePoint) (plans : Table VestPlan.id) (i : VestIssue) :
    Prop where
  plan : i.HasPlan plans
  unlocked : 0 ≤ i.unlocked.amount
  locked : i.locked.amount = i.issued.amount - i.unlocked.amount
  pos : 0 < i.locked.amount
  days : i.firstUnlockDays ≤ maxLockDays
  issuedAt : i.issuedAt ≤ clock

/-- The issue and plan tables agree with each other. -/
structure Accounted (clock : TimePoint) (plans : Table VestPlan.id)
    (issues : Table VestIssue.issueId) : Prop where
  plan : ∀ p ∈ plans, p.Sound
  issue : ∀ i ∈ issues, i.status = .ongoing → i.Sound clock plans
  status : ∀ i ∈ issues, i.status ≠ .terminated
  balance : ∀ p ∈ plans, p.outstanding = lockedOn issues p.id

/-- The tables agree with each other and with the tokens the account holds. -/
structure Solvent (w : World State) : Prop where
  accounted : Accounted w.clock w.state.plans w.state.issues
  holding : ∀ x, w.holding x = obligation w.state.plans x

/-! ## Sums after an update -/

section Sums
variable {plans : Table VestPlan.id} {issues : Table VestIssue.issueId} {p p' : VestPlan}
  {i i' : VestIssue}

theorem lockedOn_put_new (h : issues.find? i.issueId = none) (q : ℕ) :
    lockedOn (issues.put i) q = lockedOn issues q + i.lockedOf q :=
  Table.sum_put_new h _

theorem lockedOn_put_old (i' : VestIssue) (h : issues.find? i'.issueId = some i) (q : ℕ) :
    lockedOn (issues.put i') q = lockedOn issues q + (i'.lockedOf q - i.lockedOf q) := by
  have hsum := Table.sum_put_old h (VestIssue.lockedOf q)
  unfold lockedOn
  omega

/-- Replacing a plan by one on the same token moves the obligations by the change in what it
has outstanding. -/
theorem obligation_put_old (p' : VestPlan) (h : plans.find? p'.id = some p) (ht : p'.token = p.token)
    (x : ExtendedSymbol) :
    obligation (plans.put p') x =
      obligation plans x + if p.token = x then p'.outstanding - p.outstanding else 0 := by
  have hsum := Table.sum_put_old h fun p => if p.token = x then p.outstanding else 0
  simp only [ht] at hsum
  unfold obligation
  by_cases hx : p.token = x
  · simp only [if_pos hx] at hsum ⊢
    omega
  · simp only [if_neg hx] at hsum ⊢
    omega

theorem lockedOf_of_ongoing (h : i.status = .ongoing) (q : ℕ) :
    i.lockedOf q = if q = i.planId then i.locked.amount else 0 := by
  unfold VestIssue.lockedOf
  by_cases hq : q = i.planId
  · rw [if_pos ⟨hq.symm, h⟩, if_pos hq]
  · rw [if_neg fun hc => hq hc.1.symm, if_neg hq]

theorem lockedOf_of_not_ongoing (h : i.status ≠ .ongoing) (q : ℕ) : i.lockedOf q = 0 :=
  if_neg fun hc => h hc.2

/-- Purging finished issues keeps every sum that finished issues do not contribute to. -/
theorem sum_delfinissuesFrom {ids : List ℕ} {issues' : Table VestIssue.issueId}
    (h : delfinissuesFrom ids issues = .ok issues') (f : VestIssue → ℤ)
    (hf : ∀ i : VestIssue, i.status = .finished → f i = 0) : issues'.sum f = issues.sum f := by
  induction ids generalizing issues with
  | nil =>
    rw [delfinissuesFrom, Except.ok.injEq] at h
    rw [h]
  | cons id ids ih =>
    simp only [delfinissuesFrom, bind_eq_ok, require_eq_ok, check_eq_ok, exists_const] at h
    obtain ⟨i, hi, hstatus, h⟩ := h
    have hsum := Table.sum_erase hi f
    rw [hf i hstatus, add_zero] at hsum
    rw [ih h, hsum]

/-- Purging removes rows only, and only finished ones. -/
theorem mem_delfinissuesFrom {ids : List ℕ} {issues' : Table VestIssue.issueId}
    (h : delfinissuesFrom ids issues = .ok issues') :
    (∀ i ∈ issues', i ∈ issues) ∧ ∀ i ∈ issues, i.status ≠ .finished → i ∈ issues' := by
  obtain ⟨rfl, hfinished⟩ := delfinissuesFrom_eq h
  refine ⟨fun i hi => (Table.mem_eraseAll.mp hi).1, fun i hi hne => ?_⟩
  refine Table.mem_eraseAll.mpr ⟨hi, fun hid => hne ?_⟩
  -- the erased row is the only one with its id
  obtain ⟨j, hj, hstatus⟩ := hfinished i.issueId hid
  rw [Table.find?_self hi, Option.some.injEq] at hj
  rw [hj]
  exact hstatus

end Sums

/-! ## Updates that keep the books -/

section Updates
variable {clock clock' : TimePoint} {plans : Table VestPlan.id}
  {issues issues' : Table VestIssue.issueId} {p p' : VestPlan} {i i' : VestIssue}

theorem VestIssue.HasPlan.put (h : i.HasPlan plans) (hp : plans.find? p'.id = some p)
    (hsymbol : p'.assetSymbol = p.assetSymbol) : i.HasPlan (plans.put p') := by
  obtain ⟨q, hq, hsymbols⟩ := h
  unfold VestIssue.HasPlan
  rw [Table.find?_put]
  by_cases hid : i.planId = p'.id
  · rw [if_pos hid]
    -- the plan that is replaced is the plan of the issue
    have hqp : q = p := by
      rw [hid, hp] at hq
      exact (Option.some.inj hq).symm
    rw [hqp, ← hsymbol] at hsymbols
    exact ⟨p', rfl, hsymbols⟩
  · rw [if_neg hid]
    exact ⟨q, hq, hsymbols⟩

theorem VestIssue.HasPlan.put_new (h : i.HasPlan plans) (hp : plans.find? p'.id = none) :
    i.HasPlan (plans.put p') := by
  obtain ⟨q, hq, hsymbols⟩ := h
  refine ⟨q, ?_, hsymbols⟩
  rw [Table.find?_put, if_neg, hq]
  intro hid
  rw [hid, hp] at hq
  cases hq

theorem VestIssue.Sound.later (h : i.Sound clock plans) (hle : clock ≤ clock') :
    i.Sound clock' plans :=
  { h with issuedAt := le_trans h.issuedAt hle }

/-- The books survive any change of the issue table that leaves what each plan has locked. -/
theorem Accounted.with_issues (h : Accounted clock plans issues)
    (hissue : ∀ i ∈ issues', i.status = .ongoing → i.Sound clock' plans)
    (hstatus : ∀ i ∈ issues', i.status ≠ .terminated)
    (hlocked : ∀ q, lockedOn issues' q = lockedOn issues q) :
    Accounted clock' plans issues' where
  plan := h.plan
  issue := hissue
  status := hstatus
  balance := by
    intro p hp
    rw [hlocked]
    exact h.balance p hp

/-- The books survive replacing one plan when what it has outstanding changes by as much as
what the issues have locked under it. -/
theorem Accounted.with_plan (h : Accounted clock plans issues) (p' : VestPlan)
    (hp : plans.find? p'.id = some p)
    (hsymbol : p'.assetSymbol = p.assetSymbol) (hsound : p'.Sound)
    (hissue : ∀ i ∈ issues', i.status = .ongoing → i.Sound clock' plans)
    (hstatus : ∀ i ∈ issues', i.status ≠ .terminated)
    (hlocked : ∀ q, lockedOn issues' q =
      lockedOn issues q + if q = p'.id then p'.outstanding - p.outstanding else 0) :
    Accounted clock' (plans.put p') issues' where
  plan := Table.forall_put h.plan hsound
  issue := by
    intro i hi hongoing
    have hi' := hissue i hi hongoing
    exact { hi' with plan := hi'.plan.put hp hsymbol }
  status := hstatus
  balance := by
    intro q hq
    rw [hlocked]
    -- the replaced plan by its difference, the others as before
    rcases Table.mem_put.mp hq with rfl | ⟨hq, hne⟩
    · have hbalance := h.balance p (Table.find?_eq_some.mp hp).1
      rw [(Table.find?_eq_some.mp hp).2] at hbalance
      rw [if_pos rfl, ← hbalance]
      omega
    · rw [if_neg hne, add_zero]
      exact h.balance q hq

/-- The books survive replacing one plan by one that has as much outstanding. -/
theorem Accounted.with_same_plan (h : Accounted clock plans issues) (p' : VestPlan)
    (hp : plans.find? p'.id = some p) (hsymbol : p'.assetSymbol = p.assetSymbol)
    (hsound : p'.Sound) (hout : p'.outstanding = p.outstanding)
    (hissue : ∀ i ∈ issues, i.status = .ongoing → i.Sound clock' plans) :
    Accounted clock' (plans.put p') issues := by
  refine h.with_plan p' hp hsymbol hsound hissue h.status fun q => ?_
  rw [hout, sub_self, ite_self, add_zero]

/-- The books survive replacing a plan and one of its issues when what the plan has outstanding
changes by as much as what the issue has locked. -/
theorem Accounted.with_plan_issue (h : Accounted clock plans issues) (p' : VestPlan)
    (i' : VestIssue) (hp : plans.find? p'.id = some p) (hi : issues.find? i'.issueId = some i)
    (hsymbol : p'.assetSymbol = p.assetSymbol) (hsoundPlan : p'.Sound)
    (hissue : ∀ j ∈ issues, j.status = .ongoing → j.Sound clock' plans)
    (hsound : i'.status = .ongoing → i'.Sound clock' plans) (hstatus : i'.status ≠ .terminated)
    (hlocked : ∀ q, i'.lockedOf q - i.lockedOf q =
      if q = p'.id then p'.outstanding - p.outstanding else 0) :
    Accounted clock' (plans.put p') (issues.put i') := by
  refine h.with_plan p' hp hsymbol hsoundPlan ?_ ?_ fun q => ?_
  · exact Table.forall_put hissue hsound
  · exact Table.forall_put h.status hstatus
  · rw [lockedOn_put_old i' hi, hlocked]

/-- The books survive replacing one issue by one that has as much locked. -/
theorem Accounted.with_same_issue (h : Accounted clock plans issues) (i' : VestIssue)
    (hi : issues.find? i'.issueId = some i) (hsound : i'.status = .ongoing → i'.Sound clock' plans)
    (hstatus : i'.status = i.status) (hlocked : ∀ q, i'.lockedOf q = i.lockedOf q)
    (hissue : ∀ j ∈ issues, j.status = .ongoing → j.Sound clock' plans) :
    Accounted clock' plans (issues.put i') := by
  refine h.with_issues (Table.forall_put hissue hsound) (Table.forall_put h.status ?_) fun q => ?_
  · rw [hstatus]
    exact h.status i (Table.find?_eq_some.mp hi).1
  · rw [lockedOn_put_old i' hi, hlocked, sub_self, add_zero]

/-- A new plan has nothing outstanding, and no issue is locked under it yet. -/
theorem Accounted.with_new_plan (h : Accounted clock plans issues) (p' : VestPlan)
    (hp : plans.find? p'.id = none)
    (hsound : p'.Sound) (hzero : p'.outstanding = 0) :
    Accounted clock (plans.put p') issues where
  plan := Table.forall_put h.plan hsound
  issue := by
    intro i hi hongoing
    have hi' := h.issue i hi hongoing
    exact { hi' with plan := hi'.plan.put_new hp }
  status := h.status
  balance := by
    intro q hq
    rcases Table.mem_put.mp hq with rfl | ⟨hq, -⟩
    · rw [hzero]
      refine (Table.sum_eq_zero fun i hi => ?_).symm
      apply if_neg
      intro hc
      -- an issue under the new id would have had a plan before
      obtain ⟨p, hfind, -⟩ := (h.issue i hi hc.2).plan
      rw [hc.1, hp] at hfind
      cases hfind
    · exact h.balance q hq

end Updates

/-! ## What one transaction does to a plan -/

section Plans
variable {clock now : TimePoint} {s : State} {p : VestPlan} {i : VestIssue}

/-- The plan of an ongoing issue has at least the issue's locked amount outstanding. -/
theorem locked_le_outstanding (h : Accounted clock s.plans s.issues) (hi : s.issues.find? i.issueId = some i)
    (hongoing : i.status = .ongoing) (hp : s.plans.find? i.planId = some p) :
    i.locked.amount ≤ p.outstanding := by
  have hnonneg : ∀ j ∈ s.issues, 0 ≤ j.lockedOf p.id := by
    intro j hj
    by_cases hc : j.planId = p.id ∧ j.status = .ongoing
    · rw [VestIssue.lockedOf, if_pos hc]
      exact (h.issue j hj hc.2).pos.le
    · rw [VestIssue.lockedOf, if_neg hc]
  -- one summand of a sum without negative ones
  have hle := Table.le_sum hnonneg (Table.find?_eq_some.mp hi).1
  have hid : p.id = i.planId := (Table.find?_eq_some.mp hp).2
  rw [lockedOf_of_ongoing hongoing, if_pos hid] at hle
  rw [h.balance p (Table.find?_eq_some.mp hp).1]
  exact hle

/-- A deposit adds its quantity to what its plan has outstanding. -/
theorem outstanding_of_deposit (now : TimePoint) {q total : Asset} (hp : p.Sound)
    (htotal : p.totalIssued.add q = .ok total) (hq : 0 < q.amount) :
    ({ p with totalIssued := total, updatedAt := now } : VestPlan).Sound ∧
    ({ p with totalIssued := total, updatedAt := now } : VestPlan).outstanding
      = p.outstanding + q.amount := by
  have hissued := hp.issued
  have hmax : Asset.maxAmount = 2 ^ 62 - 1 := rfl
  have hexact := Asset.amount_of_add htotal ⟨by omega, hissued.2⟩ hq.le
  obtain ⟨-, -, hrange⟩ := Asset.add_eq_ok.mp htotal
  refine ⟨{ hp with issued := ?_ }, ?_⟩
  · show 0 ≤ total.amount ∧ total.amount ≤ Asset.maxAmount
    exact ⟨by omega, hrange.2⟩
  · show total.amount - p.totalUnlocked.amount - p.totalRefunded.amount = _
    unfold VestPlan.outstanding
    omega

/-- A refund takes the locked amount out of what the plan has outstanding. -/
theorem outstanding_of_refund {q total : Asset} (hp : p.Sound)
    (htotal : p.totalRefunded.add q = .ok total) (hq : 0 < q.amount)
    (hle : q.amount ≤ p.outstanding) :
    ({ p with totalRefunded := total, updatedAt := now } : VestPlan).Sound ∧
    ({ p with totalRefunded := total, updatedAt := now } : VestPlan).outstanding
      = p.outstanding - q.amount := by
  have hissued := hp.issued
  have hunlocked := hp.unlocked
  have hrefunded := hp.refunded
  have hmax : Asset.maxAmount = 2 ^ 62 - 1 := rfl
  unfold VestPlan.outstanding at hle
  have hexact := Asset.amount_of_add htotal ⟨by omega, by omega⟩ hq.le
  refine ⟨{ hp with refunded := ?_ }, ?_⟩
  · show 0 ≤ total.amount
    omega
  · show p.totalIssued.amount - p.totalUnlocked.amount - total.amount = _
    unfold VestPlan.outstanding
    omega

/-- A payment takes its amount out of what the plan has outstanding. -/
theorem outstanding_of_payment {amount : ℤ} (hp : p.Sound) (hpos : 0 < amount)
    (hle : amount ≤ p.outstanding) :
    (planPaid now p amount).Sound ∧
    (planPaid now p amount).outstanding = p.outstanding - amount := by
  have hissued := hp.issued
  have hunlocked := hp.unlocked
  have hrefunded := hp.refunded
  have hmax : Asset.maxAmount = 2 ^ 62 - 1 := rfl
  unfold VestPlan.outstanding at hle ⊢
  -- the raw sum is exact: what is paid was issued
  have hexact : i64 (p.totalUnlocked.amount + amount) = p.totalUnlocked.amount + amount := by
    apply i64_eq
    · omega
    · omega
  refine ⟨{ hp with unlocked := ?_ }, ?_⟩
  · show 0 ≤ i64 (p.totalUnlocked.amount + amount)
    omega
  · show p.totalIssued.amount - i64 (p.totalUnlocked.amount + amount) - p.totalRefunded.amount = _
    omega

/-- A plan starts out sound. -/
theorem sound_of_addplan {planId days : ℕ} {owner contract : Name} {title : List Char}
    {symbol : Symbol} {times : Int64Arg} {zero : Asset} {status : PlanStatus} (hdays : 0 < days)
    (htimes : 0 < times.val) (hzero : Asset.new 0 symbol = .ok zero) :
    ({ id := planId, owner, title, assetContract := contract, assetSymbol := symbol
       unlockIntervalDays := days, unlockTimes := u64 times.val, totalIssued := zero
       totalUnlocked := zero, totalRefunded := zero, status, createdAt := now
       updatedAt := now } : VestPlan).Sound := by
  obtain ⟨-, -, -, hvalid⟩ := Asset.new_eq_ok.mp hzero
  have hz := Asset.amount_of_new_zero hzero
  have hmax : Asset.maxAmount = 2 ^ 62 - 1 := rfl
  -- a positive `int64_t` survives the conversion to `uint64_t`
  have hbounds := times.property
  have htimes' : (u64 times.val : ℤ) = times.val := by
    apply u64_eq
    · omega
    · omega
  constructor
  · exact hdays
  · show 0 < u64 times.val ∧ u64 times.val < 2 ^ 63
    omega
  · exact hvalid
  · show 0 ≤ zero.amount ∧ zero.amount ≤ Asset.maxAmount
    omega
  · show 0 ≤ zero.amount
    omega
  · show 0 ≤ zero.amount
    omega

end Plans

/-! ## What one transaction does to an issue -/

section Issues
variable {clock now : TimePoint} {plans : Table VestPlan.id} {p : VestPlan} {i : VestIssue}
  {times : ℕ} {total : ℤ}

/-- The amount that `unlock` computes lies between what was paid before and what was
issued: on the last period by definition, earlier because the code asserts it. -/
theorem totalUnlocked_bounds (hle : i.unlocked.amount ≤ i.issued.amount)
    (h : totalUnlocked p i times = .ok total) :
    i.unlocked.amount ≤ total ∧ total ≤ i.issued.amount := by
  rw [totalUnlocked] at h
  split at h
  · rw [Except.ok.injEq] at h
    omega
  · simp only [bind_eq_ok, check_eq_ok, exists_const, pure_eq_ok] at h
    obtain ⟨r, -, hr, rfl⟩ := h
    exact hr

/-- Within these bounds the raw subtractions of `unlock` are exact. -/
theorem i64_of_bounds (hi : i.Sound clock plans)
    (h : i.unlocked.amount ≤ total ∧ total ≤ i.issued.amount) :
    i64 total = total ∧ i64 (total - i.unlocked.amount) = total - i.unlocked.amount ∧
    i64 (i.issued.amount - total) = i.issued.amount - total := by
  have hunlocked := hi.unlocked
  have hissued := i.issued.bounds
  refine ⟨i64_eq ?_ ?_, i64_eq ?_ ?_, i64_eq ?_ ?_⟩ <;> omega

/-- What an issue has locked after a payment. -/
theorem lockedOf_of_payment (hi : i.Sound clock plans) (hongoing : i.status = .ongoing)
    (h : i.unlocked.amount ≤ total ∧ total ≤ i.issued.amount) (q : ℕ) :
    (issuePaid now i total).lockedOf q - i.lockedOf q
      = if q = i.planId then -(total - i.unlocked.amount) else 0 := by
  have hexact := i64_of_bounds hi h
  have hlocked := hi.locked
  rw [lockedOf_of_ongoing hongoing]
  by_cases hfin : total = i.issued.amount
  · -- the last payment finishes the issue, which then counts as nothing locked
    have hstatus : (issuePaid now i total).status = .finished := by
      show (if i64 total = i.issued.amount then IssueStatus.finished else i.status) = _
      rw [hexact.1, if_pos hfin]
    rw [lockedOf_of_not_ongoing (by rw [hstatus]; decide)]
    split <;> omega
  · have hstatus : (issuePaid now i total).status = .ongoing := by
      show (if i64 total = i.issued.amount then IssueStatus.finished else i.status) = _
      rw [hexact.1, if_neg hfin, hongoing]
    rw [lockedOf_of_ongoing hstatus]
    have hafter : (issuePaid now i total).locked.amount = i.issued.amount - total := by
      show i64 (i64 (i.issued.amount - total)) = _
      rw [hexact.2.2, hexact.2.2]
    have hid : (issuePaid now i total).planId = i.planId := rfl
    rw [hafter, hid]
    split <;> omega

/-- A payment that does not finish the issue leaves it sound. -/
theorem sound_of_payment (hi : i.Sound clock plans)
    (h : i.unlocked.amount ≤ total ∧ total ≤ i.issued.amount)
    (hongoing : (issuePaid now i total).status = .ongoing) :
    (issuePaid now i total).Sound clock plans := by
  have hexact := i64_of_bounds hi h
  have hunlocked := hi.unlocked
  -- a payment of everything would have finished the issue
  have hne : total ≠ i.issued.amount := by
    intro he
    have hstatus : (if i64 total = i.issued.amount then IssueStatus.finished else i.status)
        = .ongoing := hongoing
    rw [hexact.1, if_pos he] at hstatus
    cases hstatus
  have hafter : (issuePaid now i total).locked.amount = i.issued.amount - total := by
    show i64 (i64 (i.issued.amount - total)) = _
    rw [hexact.2.2, hexact.2.2]
  have htotal : (issuePaid now i total).unlocked.amount = total := hexact.1
  refine { hi with plan := ?_, unlocked := ?_, locked := ?_, pos := ?_ }
  · exact hi.plan
  · rw [htotal]
    omega
  · rw [hafter, htotal]
    rfl
  · rw [hafter]
    omega

/-- The two parts of a split hold together what the issue had locked. -/
theorem split_exact (now : TimePoint) (hi : i.Sound clock plans) {q : Asset} (hpos : 0 < q.amount)
    (hle : q.amount ≤ i.locked.amount) :
    (issueRemainder now i q).locked.amount = i.locked.amount - q.amount ∧
    (issueRemainder now i q).issued.amount = i.issued.amount - q.amount := by
  have hlocked := hi.locked
  have hunlocked := hi.unlocked
  have h1 := i.locked.bounds
  have h2 := i.issued.bounds
  refine ⟨i64_eq ?_ ?_, i64_eq ?_ ?_⟩ <;> omega

theorem sound_of_remainder (hi : i.Sound clock plans) {q : Asset} (hpos : 0 < q.amount)
    (hlt : q.amount < i.locked.amount) : (issueRemainder now i q).Sound clock plans := by
  have hexact := split_exact now hi hpos hlt.le
  refine { hi with plan := ?_, unlocked := ?_, locked := ?_, pos := ?_ }
  · exact hi.plan
  · exact hi.unlocked
  · have hlocked := hi.locked
    have hunlocked : (issueRemainder now i q).unlocked.amount = i.unlocked.amount := rfl
    rw [hexact.1, hexact.2, hunlocked]
    omega
  · rw [hexact.1]
    omega

theorem sound_of_splitOff (hi : i.Sound clock plans) {q zero : Asset} {newId : ℕ}
    {toReceiver : Name} {memo : List Char} (hpos : 0 < q.amount)
    (hsymbol : i.locked.symbol = q.symbol) (hzero : Asset.new 0 q.symbol = .ok zero) :
    (issueSplitOff now i newId toReceiver q zero memo).Sound clock plans := by
  obtain ⟨-, hzsymbol, -⟩ := Asset.new_eq_ok.mp hzero
  have hz := Asset.amount_of_new_zero hzero
  obtain ⟨p, hp, -, hlsymbol, -⟩ := hi.plan
  have hq : q.symbol = p.assetSymbol := hsymbol.symm.trans hlsymbol
  refine { hi with plan := ?_, unlocked := ?_, locked := ?_, pos := ?_ }
  · exact ⟨p, hp, hq, hq, hzsymbol.trans hq⟩
  · show 0 ≤ zero.amount
    omega
  · show q.amount = q.amount - zero.amount
    omega
  · exact hpos

end Issues

/-! ## One step -/

section Books
variable {now clock : TimePoint} {s : State} {p : VestPlan} {i : VestIssue}

/-- What an `endissue` refunds is outstanding under the plan. -/
theorem refund_outstanding (now : TimePoint) {total : Asset} (h : Accounted clock s.plans s.issues)
    (hissue : s.issues.find? i.issueId = some i) (hongoing : i.status = .ongoing)
    (hplan : s.plans.find? i.planId = some p)
    (htotal : p.totalRefunded.add i.locked = .ok total) :
    ({ p with totalRefunded := total, updatedAt := now } : VestPlan).Sound ∧
    ({ p with totalRefunded := total, updatedAt := now } : VestPlan).outstanding
      = p.outstanding - i.locked.amount := by
  have hsound := h.issue i (Table.find?_eq_some.mp hissue).1 hongoing
  exact outstanding_of_refund (h.plan p (Table.find?_eq_some.mp hplan).1) htotal hsound.pos
    (locked_le_outstanding h hissue hongoing hplan)

/-- What an `unlock` pays is outstanding under the plan. -/
theorem payment_outstanding (now : TimePoint) {times : ℕ} {total : ℤ}
    (h : Accounted clock s.plans s.issues)
    (hissue : s.issues.find? i.issueId = some i) (hongoing : i.status = .ongoing)
    (hplan : s.plans.find? i.planId = some p) (htotal : totalUnlocked p i times = .ok total)
    (hpos : 0 < i64 (total - i.unlocked.amount)) :
    (i.unlocked.amount ≤ total ∧ total ≤ i.issued.amount) ∧
    i64 (total - i.unlocked.amount) ≤ p.outstanding ∧
    (planPaid now p (i64 (total - i.unlocked.amount))).Sound ∧
    (planPaid now p (i64 (total - i.unlocked.amount))).outstanding
      = p.outstanding - i64 (total - i.unlocked.amount) := by
  have hsound := h.issue i (Table.find?_eq_some.mp hissue).1 hongoing
  have hlocked := hsound.locked
  have hlockedPos := hsound.pos
  have hbounds := totalUnlocked_bounds (by omega) htotal
  have hexact := i64_of_bounds hsound hbounds
  have hout := locked_le_outstanding h hissue hongoing hplan
  have hle : i64 (total - i.unlocked.amount) ≤ p.outstanding := by omega
  exact ⟨hbounds, hle,
    outstanding_of_payment (h.plan p (Table.find?_eq_some.mp hplan).1) hpos hle⟩

/-- No issue is ever `TERMINATED`. -/
theorem ongoing_of_not_finished (h : Accounted clock s.plans s.issues)
    (hissue : s.issues.find? i.issueId = some i) (hne : i.status ≠ .finished) :
    i.status = .ongoing := by
  have hterm := h.status i (Table.find?_eq_some.mp hissue).1
  cases hs : i.status with
  | ongoing => rfl
  | terminated => exact absurd hs hterm
  | finished => exact absurd hs hne

end Books

section Step
variable {self : Name} {ctx : Ctx} {clock : TimePoint} {s s' : State} {i : Input Action}
  {outs : List Transfer}

theorem splitOff_lockedOf {now : TimePoint} {issue : VestIssue} {newId : ℕ} {toReceiver : Name}
    {q zero : Asset} {memo : List Char} (hongoing : issue.status = .ongoing) (planId : ℕ) :
    (issueSplitOff now issue newId toReceiver q zero memo).lockedOf planId
      = if planId = issue.planId then q.amount else 0 :=
  lockedOf_of_ongoing (i := issueSplitOff now issue newId toReceiver q zero memo) hongoing planId

/-- Splitting an issue keeps the books: the parts have locked together what the issue had. -/
theorem accounted_of_transissue {now : TimePoint} {issue : VestIssue} {toReceiver : Name}
    {quant zero : Asset} {newId : ℕ} {memo : List Char} (h : Accounted clock s.plans s.issues)
    (hlater : ∀ j ∈ s.issues, j.status = .ongoing → j.Sound now s.plans)
    (hissue : s.issues.find? issue.issueId = some issue) (hongoing : issue.status = .ongoing)
    (hpos : 0 < quant.amount) (hsymbol : issue.locked.symbol = quant.symbol)
    (hlocked : quant.amount ≤ issue.locked.amount) (hzero : Asset.new 0 quant.symbol = .ok zero)
    (hnew : s.issues.find? newId = none) (hid : ∀ j ∈ s.issues, j.issueId < newId) :
    Accounted now s.plans
      (let issues := s.issues.put (issueSplitOff now issue newId toReceiver quant zero memo)
      if issue.locked.amount = quant.amount then issues.erase issue.issueId
      else issues.put (issueRemainder now issue quant)) := by
  have hmem := (Table.find?_eq_some.mp hissue).1
  have hsound := hlater issue hmem hongoing
  -- the table with the new row, in both cases
  have hput : ∀ j ∈ s.issues.put (issueSplitOff now issue newId toReceiver quant zero memo),
      j.status = .ongoing → j.Sound now s.plans :=
    Table.forall_put hlater fun _ => sound_of_splitOff hsound hpos hsymbol hzero
  have hputStatus : ∀ j ∈ s.issues.put
      (issueSplitOff now issue newId toReceiver quant zero memo), j.status ≠ .terminated :=
    Table.forall_put h.status (h.status issue hmem)
  have hfind : (s.issues.put (issueSplitOff now issue newId toReceiver quant zero memo)).find?
      issue.issueId = some issue := by
    rw [Table.find?_put]
    show (if issue.issueId = newId then _ else _) = _
    rw [if_neg (hid issue hmem).ne, hissue]
  by_cases hall : issue.locked.amount = quant.amount
  · -- everything moves: the old row goes, the new one has as much locked
    simp only [if_pos hall]
    refine h.with_issues (Table.forall_erase hput) (Table.forall_erase hputStatus) fun q => ?_
    have hsum := Table.sum_erase hfind (VestIssue.lockedOf q)
    have hnewsum := lockedOn_put_new (i := issueSplitOff now issue newId toReceiver quant zero
      memo) hnew q
    rw [splitOff_lockedOf hongoing] at hnewsum
    rw [lockedOf_of_ongoing hongoing, hall] at hsum
    unfold lockedOn at hnewsum ⊢
    omega
  · simp only [if_neg hall]
    -- a part stays behind: the two rows share the amount
    have hlt : quant.amount < issue.locked.amount := by omega
    have hexact := split_exact now hsound hpos hlocked
    refine h.with_issues ?_ ?_ fun q => ?_
    · exact Table.forall_put hput fun _ => sound_of_remainder hsound hpos hlt
    · exact Table.forall_put hputStatus (h.status issue hmem)
    · rw [lockedOn_put_old (issueRemainder now issue quant) hfind,
        lockedOn_put_new (i := issueSplitOff now issue newId toReceiver quant zero memo) hnew,
        splitOff_lockedOf hongoing, lockedOf_of_ongoing hongoing,
        lockedOf_of_ongoing (i := issueRemainder now issue quant) hongoing, hexact.1]
      have hplan : (issueRemainder now issue quant).planId = issue.planId := rfl
      rw [hplan]
      split <;> omega

/-- A deposit keeps the books: what its new issue has locked is what the plan has outstanding
more. -/
theorem accounted_of_deposit {now : TimePoint} {plan : VestPlan} {issue : VestIssue}
    {total : Asset} (h : Accounted clock s.plans s.issues)
    (hlater : ∀ j ∈ s.issues, j.status = .ongoing → j.Sound now s.plans)
    (hplan : s.plans.find? plan.id = some plan)
    (htotal : plan.totalIssued.add issue.locked = .ok total)
    (hnew : s.issues.find? issue.issueId = none) (hid : issue.planId = plan.id)
    (hongoing : issue.status = .ongoing) (hsound : issue.Sound now s.plans) :
    Accounted now (s.plans.put { plan with totalIssued := total, updatedAt := now })
      (s.issues.put issue) := by
  have hp := outstanding_of_deposit now (h.plan plan (Table.find?_eq_some.mp hplan).1) htotal
    hsound.pos
  refine h.with_plan { plan with totalIssued := total, updatedAt := now } hplan rfl hp.1 ?_ ?_
    fun q => ?_
  · exact Table.forall_put hlater fun _ => hsound
  · refine Table.forall_put h.status ?_
    rw [hongoing]
    decide
  · rw [lockedOn_put_new hnew, lockedOf_of_ongoing hongoing, hp.2, hid, add_sub_cancel_left]

/-- Every move keeps the books. -/
theorem accounted_of_move (h : Accounted clock s.plans s.issues) (hle : clock ≤ ctx.now)
    (hm : Move self ctx s i s' outs) : Accounted ctx.now s'.plans s'.issues := by
  have hlater : ∀ j ∈ s.issues, j.status = .ongoing → j.Sound ctx.now s.plans :=
    fun j hj hongoing => (h.issue j hj hongoing).later hle
  cases hm with
  | ignore n hn => exact { h with issue := hlater }
  | init admin feeReceiver planFee => exact { h with issue := hlater }
  | payFee n plan hto hplan hstatus =>
    have hp := h.plan plan (Table.find?_eq_some.mp hplan).1
    exact h.with_same_plan { plan with status := .enabled, updatedAt := ctx.now } hplan rfl
      { hp with } rfl hlater
  | setplanowner plan newOwner hplan =>
    have hp := h.plan plan (Table.find?_eq_some.mp hplan).1
    exact h.with_same_plan { plan with owner := newOwner, updatedAt := ctx.now } hplan rfl
      { hp with } rfl hlater
  | enableplan plan enabled hplan hstatus =>
    have hp := h.plan plan (Table.find?_eq_some.mp hplan).1
    exact h.with_same_plan { plan with
        status := if enabled then .enabled else .disabled
        updatedAt := ctx.now } hplan rfl { hp with } rfl hlater
  | setreceiver issue receiver hissue =>
    have hmem := (Table.find?_eq_some.mp hissue).1
    exact h.with_same_issue { issue with receiver } hissue
      (fun hongoing => { hlater issue hmem hongoing with }) rfl (fun _ => rfl) hlater
  | setfirstdays issue days hissue hdays hauth =>
    have hmem := (Table.find?_eq_some.mp hissue).1
    exact h.with_same_issue { issue with firstUnlockDays := days, updatedAt := ctx.now } hissue
      (fun hongoing => { hlater issue hmem hongoing with days := hdays }) rfl (fun _ => rfl) hlater
  | addplan owner title contract symbol days times planId zero status hdays htimes hzero hnew =>
    have hnow : Accounted ctx.now s.plans s.issues := { h with issue := hlater }
    have hz := Asset.amount_of_new_zero hzero
    refine hnow.with_new_plan {
        id := planId, owner, title, assetContract := contract, assetSymbol := symbol
        unlockIntervalDays := days, unlockTimes := u64 times.val, totalIssued := zero
        totalUnlocked := zero, totalRefunded := zero, status, createdAt := ctx.now
        updatedAt := ctx.now } hnew ?_ ?_
    · exact sound_of_addplan hdays.1 htimes hzero
    · show zero.amount - zero.amount - zero.amount = 0
      omega
  | deposit n plan receiver days issueId total zero hto hplan hstatus hdays hbank hsymbol hpos
      htotal hzero hnew hid =>
    obtain ⟨-, hzsymbol, -⟩ := Asset.new_eq_ok.mp hzero
    have hz := Asset.amount_of_new_zero hzero
    refine accounted_of_deposit h hlater hplan htotal hnew rfl rfl ⟨?_, ?_, ?_, hpos, hdays, le_refl _⟩
    · exact ⟨plan, hplan, hsymbol.symm, hsymbol.symm, hzsymbol.trans hsymbol.symm⟩
    · show 0 ≤ zero.amount
      omega
    · show n.quantity.amount = n.quantity.amount - zero.amount
      omega
  | transissue issue toReceiver quant zero newId memo hissue hongoing hpos hsymbol hlocked hissued
      hzero hnew hid =>
    exact accounted_of_transissue h hlater hissue hongoing hpos hsymbol hlocked hzero hnew hid
  | endissue issuer issue plan total hissue hplan hstatus henabled htotal =>
    have hongoing := ongoing_of_not_finished h hissue hstatus
    have hid := (Table.find?_eq_some.mp hplan).2
    have hp := refund_outstanding ctx.now h hissue hongoing hplan htotal
    have hfind := Table.find?_key hplan
    refine h.with_plan_issue { plan with totalRefunded := total, updatedAt := ctx.now }
      { issue with status := .finished, updatedAt := ctx.now } hfind hissue rfl hp.1 hlater
      (fun hfin => by cases hfin) (by show IssueStatus.finished ≠ _; decide) fun q => ?_
    rw [lockedOf_of_not_ongoing (i := { issue with status := .finished, updatedAt := ctx.now })
      (by show IssueStatus.finished ≠ _; decide), lockedOf_of_ongoing hongoing, hp.2, hid]
    split <;> omega
  | unlock issuer issue plan total quantity hissue hplan hongoing henabled hdays htotal hremaining
      hpos hquantity =>
    have hmem := (Table.find?_eq_some.mp hissue).1
    have hsound := hlater issue hmem hongoing
    have hid := (Table.find?_eq_some.mp hplan).2
    obtain ⟨hbounds, -, hp⟩ :=
      payment_outstanding ctx.now h hissue hongoing hplan htotal hpos
    have hexact := i64_of_bounds hsound hbounds
    have hpid : (planPaid ctx.now plan (i64 (total - issue.unlocked.amount))).id = issue.planId :=
      hid
    have hfind := Table.find?_key hplan
    refine h.with_plan_issue (planPaid ctx.now plan (i64 (total - issue.unlocked.amount)))
      (issuePaid ctx.now issue total) hfind hissue rfl hp.1 hlater
      (sound_of_payment hsound hbounds) ?_ fun q => ?_
    · show (if i64 total = issue.issued.amount then IssueStatus.finished else issue.status) ≠ _
      split
      · decide
      · exact h.status issue hmem
    · rw [lockedOf_of_payment hsound hongoing hbounds, hp.2, hpid]
      split <;> omega
  | delfinissues issueIds issues hissues =>
    have hmem := mem_delfinissuesFrom hissues
    apply h.with_issues
    · exact fun j hj => hlater j (hmem.1 j hj)
    · exact fun j hj => h.status j (hmem.1 j hj)
    · intro q
      apply sum_delfinissuesFrom hissues
      intro j hj
      exact lockedOf_of_not_ongoing (by rw [hj]; decide) q

/-- Replacing one plan by one with the same token and the same amount outstanding leaves the
obligations. -/
theorem obligation_put_same {plans : Table VestPlan.id} {p : VestPlan} (p' : VestPlan)
    (h : plans.find? p'.id = some p) (ht : p'.token = p.token)
    (ho : p'.outstanding = p.outstanding) (x : ExtendedSymbol) :
    obligation (plans.put p') x = obligation plans x := by
  rw [obligation_put_old p' h ht, ho, sub_self, ite_self, add_zero]

/-- Every move lets the account's tokens follow the obligations. -/
theorem flow_of_move (h : Accounted clock s.plans s.issues)
    (hsigner : Contract.signer? i ≠ some self) (hm : Move self ctx s i s' outs) (hd : Holding)
    (x : ExtendedSymbol) :
    (contract self).received i hd x - outflow x outs
      = hd x + (obligation s'.plans x - obligation s.plans x) := by
  cases hm with
  | ignore n hn =>
    have hto : n.recipient ≠ (contract self).self :=
      hn.resolve_left (Contract.sender_ne hsigner)
    rw [Contract.received_ignored _ hto]
    simp
  | payFee n plan hto hplan hstatus =>
    -- the fee goes on to the fee receiver in full
    rw [Contract.received_notify _ hto, obligation_put_same
      { plan with status := .enabled, updatedAt := ctx.now } hplan rfl rfl]
    show _ - ((if n.token = x then n.quantity.amount else 0) + 0) = _
    omega
  | deposit n plan receiver days issueId total zero hto hplan hstatus hdays hbank hsymbol hpos
      htotal hzero hnew hid =>
    have hp := outstanding_of_deposit ctx.now
      (h.plan plan (Table.find?_eq_some.mp hplan).1) htotal hpos
    -- the checks of `ontransfer` make the token that of the plan
    have htoken : n.token = plan.token := by
      rw [Notice.token, VestPlan.token, hbank, hsymbol]
    rw [Contract.received_notify _ hto,
      obligation_put_old { plan with totalIssued := total, updatedAt := ctx.now } hplan rfl,
      hp.2, htoken, outflow_nil]
    split <;> omega
  | init admin feeReceiver planFee => simp [Contract.received_act]
  | setreceiver issue receiver hissue => simp [Contract.received_act]
  | addplan owner title contract symbol days times planId zero status hdays htimes hzero hnew =>
    -- a new plan owes nothing
    have hput := Table.sum_put_new (x := ({
        id := planId, owner, title, assetContract := contract, assetSymbol := symbol
        unlockIntervalDays := days, unlockTimes := u64 times.val, totalIssued := zero
        totalUnlocked := zero, totalRefunded := zero, status, createdAt := ctx.now
        updatedAt := ctx.now } : VestPlan)) hnew fun p => if p.token = x then p.outstanding else 0
    have hz := Asset.amount_of_new_zero hzero
    simp only [VestPlan.outstanding, hz, sub_zero, ite_self, add_zero] at hput
    simp only [Contract.received_act, obligation, VestPlan.outstanding, outflow_nil, sub_zero, hput]
    omega
  | setplanowner plan newOwner hplan =>
    rw [Contract.received_act, obligation_put_same
      { plan with owner := newOwner, updatedAt := ctx.now } hplan rfl rfl]
    simp
  | enableplan plan enabled hplan hstatus =>
    rw [Contract.received_act, obligation_put_same
      { plan with
        status := if enabled then .enabled else .disabled
        updatedAt := ctx.now } hplan rfl rfl]
    simp
  | transissue => simp [Contract.received_act]
  | endissue issuer issue plan total hissue hplan hstatus henabled htotal =>
    have hongoing := ongoing_of_not_finished h hissue hstatus
    have hp := refund_outstanding ctx.now h hissue hongoing hplan htotal
    have hfind := Table.find?_key hplan
    -- the refund is in the token of the plan
    obtain ⟨p, hp', -, hsymbol, -⟩ :=
      (h.issue issue (Table.find?_eq_some.mp hissue).1 hongoing).plan
    have htoken : (⟨issue.locked.symbol, plan.assetContract⟩ : ExtendedSymbol) = plan.token := by
      rw [hplan] at hp'
      rw [hsymbol, ← Option.some.inj hp', VestPlan.token]
    rw [Contract.received_act, obligation_put_old
      { plan with totalRefunded := total, updatedAt := ctx.now } hfind rfl, hp.2]
    show hd x - ((if (⟨issue.locked.symbol, plan.assetContract⟩ : ExtendedSymbol) = x
      then issue.locked.amount else 0) + 0) = _
    rw [htoken]
    split <;> omega
  | unlock issuer issue plan total quantity hissue hplan hongoing henabled hdays htotal hremaining
      hpos hquantity =>
    obtain ⟨-, -, -, hp⟩ :=
      payment_outstanding ctx.now h hissue hongoing hplan htotal hpos
    have hfind := Table.find?_key hplan
    obtain ⟨hamount, hsymbol, -⟩ := Asset.new_eq_ok.mp hquantity
    -- the quantity that is transferred is the drop in what is outstanding
    have hpaid : quantity.amount = i64 (total - issue.unlocked.amount) := by
      rw [hamount, i64_i64]
    rw [Contract.received_act, obligation_put_old
      (planPaid ctx.now plan (i64 (total - issue.unlocked.amount))) hfind rfl, hp]
    show hd x - ((if (⟨quantity.symbol, plan.assetContract⟩ : ExtendedSymbol) = x
      then quantity.amount else 0) + 0) = _
    rw [hsymbol, hpaid]
    show hd x - ((if plan.token = x then _ else 0) + 0) = _
    split <;> omega
  | delfinissues issueIds issues hissues => simp [Contract.received_act]
  | setfirstdays issue days hissue hdays hauth => simp [Contract.received_act]

/-- Actions order at most one transfer, and for a positive amount. -/
theorem orders_of_act {a : Action} (h : Accounted clock s.plans s.issues)
    (hm : Move self ctx s (.act a) s' outs) :
    outs = [] ∨ ∃ t, outs = [t] ∧ 0 < t.quantity.amount := by
  cases hm with
  | endissue issuer issue plan total hissue hplan hstatus henabled htotal =>
    have hongoing := ongoing_of_not_finished h hissue hstatus
    exact Or.inr ⟨_, rfl, (h.issue issue (Table.find?_eq_some.mp hissue).1 hongoing).pos⟩
  | unlock issuer issue plan total quantity hissue hplan hongoing henabled hdays htotal hremaining
      hpos hquantity =>
    refine Or.inr ⟨_, rfl, ?_⟩
    show 0 < quantity.amount
    rw [(Asset.new_eq_ok.mp hquantity).1, i64_i64]
    exact hpos
  | init | setreceiver | addplan | setplanowner | enableplan | transissue | delfinissues
  | setfirstdays => exact Or.inl rfl

/-- What a plan has outstanding is never negative, so neither are the obligations. -/
theorem obligation_nonneg (h : Accounted clock s.plans s.issues) (x : ExtendedSymbol) :
    0 ≤ obligation s.plans x := by
  apply Table.sum_nonneg
  intro p hp
  split
  · rw [h.balance p hp]
    apply Table.sum_nonneg
    intro j hj
    by_cases hc : j.planId = p.id ∧ j.status = .ongoing
    · rw [VestIssue.lockedOf, if_pos hc]
      exact (h.issue j hj hc.2).pos.le
    · rw [VestIssue.lockedOf, if_neg hc]
  · exact le_refl 0

end Step

/-! ## Whole runs -/

section Runs
variable {self : Name} {w w' : World State} {i : Ctx × Input Action}

/-- One transaction keeps the account solvent. -/
theorem solvent_of_step (h : Solvent w) (hs : (contract self).step w i = .ok w') : Solvent w' := by
  obtain ⟨hclock, hsigner, hnow, outs, hrun, hsettle⟩ := ((contract self).step_eq_ok).mp hs
  have hm := move_of_run hrun
  refine ⟨?_, fun x => ?_⟩
  · rw [hnow]
    exact accounted_of_move h.accounted hclock hm
  · have hsigner' : Contract.signer? i.2 ≠ some self := hsigner
    have hflow := flow_of_move h.accounted hsigner' hm w.holding x
    rw [settle_apply hsettle x, hflow, h.holding x]
    omega

theorem solvent_genesis (clock : TimePoint) : Solvent (genesis clock) := by
  refine ⟨⟨?_, ?_, ?_, ?_⟩, fun x => rfl⟩ <;>
  · intro r hr
    exact absurd hr (Table.not_mem_empty r)

/-- Every reachable state is solvent. -/
theorem solvent_of_run {ok : World State → Ctx × Input Action → Prop} {clock : TimePoint}
    {is : List (Ctx × Input Action)}
    (hrun : Transition.Run (contract self).step ok (genesis clock) is w) : Solvent w :=
  hrun.invariant (fun _ _ _ h _ hs => solvent_of_step h hs) (solvent_genesis clock)

/-- Every transfer that an action orders is positive and covered by the account: it is the
drop of the obligations, which do not drop below zero. -/
theorem paid_of_act (h : Solvent w) {ctx : Ctx} {a : Action} {s' : State} {outs : List Transfer}
    (hle : w.clock ≤ ctx.now) (hexec : exec self ctx a w.state = .ok (s', outs)) :
    ∀ t ∈ outs, 0 < t.quantity.amount ∧ t.quantity.amount ≤ w.holding t.token := by
  intro t ht
  have hm := move_of_exec hexec
  rcases orders_of_act h.accounted hm with rfl | ⟨u, rfl, hpos⟩
  · cases ht
  · obtain rfl := List.mem_singleton.mp ht
    refine ⟨hpos, ?_⟩
    have hflow := flow_of_move h.accounted (Contract.signer?_act self a) hm w.holding t.token
    have hnonneg := obligation_nonneg (accounted_of_move h.accounted hle hm) t.token
    rw [Contract.received_act, outflow_cons, if_pos rfl, outflow_nil, h.holding] at hflow
    rw [h.holding]
    omega

/-- In every reachable state the rows, the plan totals and the account's tokens agree, and
every transfer that an action orders is covered. -/
theorem accounting_and_solvency {clock : TimePoint} {is : List (Ctx × Input Action)}
    (hrun : Transition.Run (contract self).step Transition.Unrestricted (genesis clock) is w) :
    (∀ j ∈ w.state.issues, j.status = .ongoing →
      0 ≤ j.unlocked.amount ∧ j.locked.amount = j.issued.amount - j.unlocked.amount ∧
      0 < j.locked.amount) ∧
    (∀ p ∈ w.state.plans,
      p.totalIssued.amount - p.totalUnlocked.amount - p.totalRefunded.amount
        = lockedOn w.state.issues p.id ∧
      0 ≤ p.totalIssued.amount ∧ 0 ≤ p.totalUnlocked.amount ∧ 0 ≤ p.totalRefunded.amount) ∧
    (∀ x, w.holding x = obligation w.state.plans x) ∧
    ∀ (ctx : Ctx) (a : Action) (s' : State) (outs : List Transfer), w.clock ≤ ctx.now →
      exec self ctx a w.state = .ok (s', outs) →
      ∀ t ∈ outs, 0 < t.quantity.amount ∧ t.quantity.amount ≤ w.holding t.token := by
  have h := solvent_of_run hrun
  refine ⟨fun j hj hongoing => ?_, fun p hp => ?_, h.holding, ?_⟩
  · have hsound := h.accounted.issue j hj hongoing
    exact ⟨hsound.unlocked, hsound.locked, hsound.pos⟩
  · have hsound := h.accounted.plan p hp
    exact ⟨h.accounted.balance p hp, hsound.issued.1, hsound.unlocked, hsound.refunded⟩
  · intro ctx a s' outs hle hexec
    exact paid_of_act h hle hexec

end Runs

/-! ## A sample run

A plan of ten daily unlocks, an issue of 100 units under it on day 100, and half of it paid
out on day 104. -/

namespace Sample

def account : Name := .lit "flon.vest"
def alice : Name := .lit "alice"
def bob : Name := .lit "bob"
def carol : Name := .lit "carol"

/-- An amount below a million. -/
def units (n : ℕ) : Asset := ⟨n % 1000000, sysSymbol, by omega⟩

def start : World State := genesis (.ofDays 100)

/-- The deposit of the sample run, which creates the issue 1. -/
def deposit : Ctx × Notice :=
  (.signed alice 100,
    ⟨sysBank, alice, account, units 100, "issue:bob:1:0".toList, by decide⟩)

def inputs : List (Ctx × Input Action) :=
  [(.signed alice 100, .act (.addplan alice [] sysBank sysSymbol 1 ⟨10, by omega⟩)),
   (deposit.1, .notify deposit.2),
   (.signed bob 104, .act (.unlock bob 1 1))]

end Sample

open Vest.Sample in
/-- After the sample run the account holds the 50 units that are still locked, and ending
the issue refunds exactly these. -/
theorem accounting_and_solvency_sample :
    ∃ w, Transition.Run (contract account).step Transition.Unrestricted start inputs w ∧
      w.holding ⟨sysSymbol, sysBank⟩ = obligation w.state.plans ⟨sysSymbol, sysBank⟩ ∧
      ∃ s' t, exec account (.signed alice 104) (.endissue 1 alice 1) w.state = .ok (s', [t]) ∧
        t.quantity.amount = 50 ∧ t.quantity.amount ≤ w.holding t.token := by
  have hreach : Transition.Reaches (contract account).step Transition.Unrestricted (fun w =>
      w.clock ≤ .ofDays 104 ∧
      Transition.Succeeds (exec account (.signed alice 104) (.endissue 1 alice 1) w.state)
        fun e => e.2.map (fun t => t.quantity.amount) = [50]) inputs start := by decide
  obtain ⟨w, hrun, hclock, hend⟩ := Transition.run_of_reaches hreach
  obtain ⟨⟨s', outs⟩, hexec, houts⟩ := Transition.succeeds_iff.mp hend
  obtain ⟨t, rfl, ht⟩ : ∃ t, outs = [t] ∧ t.quantity.amount = 50 := by
    simpa [List.map_eq_singleton_iff] using houts
  have hresult := accounting_and_solvency hrun
  refine ⟨w, hrun, hresult.2.2.1 _, s', t, hexec, ht, ?_⟩
  exact (hresult.2.2.2 _ _ s' [t] hclock hexec t (List.mem_singleton.mpr rfl)).2

end Vest
end ToolkitContracts
