import ToolkitContracts.Vest.Schedule

/-!
# When the assertions of `unlock` hold

`unlock` asserts that the schedule, recomputed from the issue's current row, covers what
was paid under earlier versions of that row. `transissue` lowers the issued amount and
`setfirstdays` moves the first unlock day without looking at what was paid, so either can
leave a row that `unlock` aborts on. `KeepsCover` says of a step that it does not, and
`Covered` is the invariant of the runs made of such steps.
-/

namespace ToolkitContracts
namespace Vest

open Schedule

/-- What the schedule has released of an issue at the first moment, from `now` on, at which
its first unlock day is reached. -/
def dueOf (p : VestPlan) (i : VestIssue) (now : TimePoint) : ℤ :=
  released i.issued.amount (max 1 (periods p i now)) p.unlockTimes

/-- What was paid of every ongoing issue is within what its schedule has released. -/
def Covered (w : World State) : Prop :=
  ∀ i ∈ w.state.issues, i.status = .ongoing → ∀ p, w.state.plans.find? i.planId = some p →
    i.unlocked.amount ≤ dueOf p i w.clock

/-- The step leaves no row whose schedule has fallen behind what was paid: when `transissue`
leaves a part of an issue behind, the schedule of that part covers the payments, and when
`setfirstdays` moves the first unlock day of an ongoing issue, the moved schedule does. -/
def KeepsCover (w : World State) : Ctx × Input Action → Prop
  | (ctx, .act (.transissue _ _ issueId quant)) =>
    ∀ i ∈ w.state.issues.find? issueId, ∀ p ∈ w.state.plans.find? i.planId,
      i.locked.amount ≠ quant.amount →
      i.unlocked.amount ≤
        released (i.issued.amount - quant.amount) (max 1 (periods p i ctx.now)) p.unlockTimes
  | (ctx, .act (.setfirstdays issueId days)) =>
    ∀ i ∈ w.state.issues.find? issueId, ∀ p ∈ w.state.plans.find? i.planId,
      i.status = .ongoing →
      i.unlocked.amount ≤ dueOf p { i with firstUnlockDays := days } ctx.now
  | _ => True

instance (w : World State) (i : Ctx × Input Action) : Decidable (KeepsCover w i) := by
  rcases i with ⟨ctx, n | a⟩
  · exact inferInstanceAs (Decidable True)
  · rcases a with _ | _ | _ | _ | _ | _ | _ | _ | _ | _ <;> dsimp only [KeepsCover] <;> infer_instance

/-- From the first unlock day on, `unlock` on an ongoing issue of an enabled plan either
orders a payment to the receiver that the account can cover, or reports that there is
nothing to pay yet. -/
def UnlockPays (self : Name) (w : World State) : Prop :=
  ∀ i ∈ w.state.issues, i.status = .ongoing →
  ∀ p, w.state.plans.find? i.planId = some p → p.status = .enabled →
  10 * i.issued.amount < 2 ^ 63 →
  ∀ (ctx : Ctx) (issuer : Name), w.clock ≤ ctx.now → i.firstUnlockDays ≤ elapsedDays i ctx.now →
  ctx.hasAuth issuer = true →
    (∃ s' t, exec self ctx (.unlock issuer i.planId i.issueId) w.state = .ok (s', [t]) ∧
      t.recipient = i.receiver ∧ t.bank = p.assetContract ∧ 0 < t.quantity.amount ∧
      t.quantity.amount ≤ w.holding t.token) ∨
    exec self ctx (.unlock issuer i.planId i.issueId) w.state
      = .error ⟨none, "premature to unlock"⟩

/-- From the first unlock day on, the schedule of every ongoing issue of an enabled plan covers
what was paid of it. -/
def ScheduleCovers (w : World State) : Prop :=
  ∀ i ∈ w.state.issues, i.status = .ongoing →
  ∀ p, w.state.plans.find? i.planId = some p → p.status = .enabled →
  10 * i.issued.amount < 2 ^ 63 →
  ∀ now, w.clock ≤ now → i.firstUnlockDays ≤ elapsedDays i now →
    i.unlocked.amount ≤ releasedOf p i now

/-- Every ongoing issue can be unlocked now: its plan is enabled, its amount is small enough,
and its first unlock day is reached. -/
def AllDue (w : World State) : Prop :=
  ∀ i ∈ w.state.issues, i.status = .ongoing → ∀ p, w.state.plans.find? i.planId = some p →
    p.status = .enabled ∧ 10 * i.issued.amount < 2 ^ 63 ∧ i.firstUnlockDays ≤ elapsedDays i w.clock

/-! ## One call of `unlock` -/

section Call
variable {clock : TimePoint} {ctx : Ctx} {s : State} {p : VestPlan} {i : VestIssue} {issuer : Name}

theorem dueOf_le_releasedOf {now : TimePoint} (hp : p.Sound) (hissued : 0 ≤ i.issued.amount)
    (hle : clock ≤ now) (hdays : i.firstUnlockDays ≤ elapsedDays i now) :
    dueOf p i clock ≤ releasedOf p i now := by
  have htimes := hp.times
  have hpos := periods_pos (p := p) hdays
  have hmono := periods_mono (p := p) (i := i) hle
  apply released_mono_steps hissued
  · omega
  · omega

/-- Once the released amount is computed, `unlock` pays what is new of it, or reports that
there is nothing. -/
theorem unlock_of_total (hissue : s.issues.find? i.issueId = some i)
    (hplan : s.plans.find? i.planId = some p) (hongoing : i.status = .ongoing)
    (henabled : p.status = .enabled) (hp : p.Sound) (hi : i.Sound ctx.now s.plans)
    (hmax : i.locked.amount ≤ Asset.maxAmount) (hdays : i.firstUnlockDays ≤ elapsedDays i ctx.now)
    (hauth : ctx.hasAuth issuer = true) (hcovered : i.unlocked.amount ≤ releasedOf p i ctx.now)
    (htotal : totalUnlocked p i (unlockedTimes p (unlockedDays ctx.now i))
      = .ok (releasedOf p i ctx.now)) :
    (i.unlocked.amount < releasedOf p i ctx.now ∧
      ∃ s' t, unlock ctx issuer i.planId i.issueId s = .ok (s', [t]) ∧
        t.recipient = i.receiver ∧ t.bank = p.assetContract) ∨
    (releasedOf p i ctx.now ≤ i.unlocked.amount ∧
      unlock ctx issuer i.planId i.issueId s = .error ⟨none, "premature to unlock"⟩) := by
  have hlocked := hi.locked
  have hunlocked := hi.unlocked
  have hpos := hi.pos
  have htimes := hp.times
  have hissued : 0 ≤ i.issued.amount := by omega
  have hle : releasedOf p i ctx.now ≤ i.issued.amount := released_le hissued (by omega)
  -- nothing wraps around between what was paid and what was issued
  have hexact := i64_of_bounds hi ⟨hcovered, hle⟩
  have hdays' : 0 ≤ unlockedDays ctx.now i := by
    rw [unlockedDays_eq hi.issuedAt hi.days]
    omega
  obtain ⟨q, hq, hsymbols⟩ := hi.plan
  have hsame : (i.unlocked.setAmount (releasedOf p i ctx.now)).symbol = i.issued.symbol :=
    hsymbols.2.2.trans hsymbols.1.symm
  rw [unlock, Ctx.requireAuth, check_of hauth, hissue, require, ok_bind, check_of rfl,
    check_of hi.issuedAt, hplan, require, ok_bind, check_of henabled,
    check_of ⟨htimes.1, hp.interval⟩]
  simp only []
  rw [check_of hongoing, check_of hdays', htotal, ok_bind]
  simp only [hexact.2.1, hexact.2.2]
  rw [check_of (by omega)]
  -- either there is something new to pay, or the last check reports it
  by_cases hnew : 0 < releasedOf p i ctx.now - i.unlocked.amount
  · left
    have hmaxAmount : Asset.maxAmount = 2 ^ 62 - 1 := rfl
    obtain ⟨a, ha, -⟩ := Asset.new_of_range (x := releasedOf p i ctx.now - i.unlocked.amount)
      (by omega) (by omega) hp.symbol
    rw [check_of hnew, ha, ok_bind, Asset.comparable, check_of hsame]
    exact ⟨by omega, _, _, rfl, rfl, rfl⟩
  · right
    rw [check_of_not hnew]
    exact ⟨by omega, rfl⟩

/-- A covered issue passes every assertion of `unlock`. -/
theorem unlock_of_covered (hissue : s.issues.find? i.issueId = some i)
    (hplan : s.plans.find? i.planId = some p) (hongoing : i.status = .ongoing)
    (henabled : p.status = .enabled) (hp : p.Sound) (hi : i.Sound ctx.now s.plans)
    (hten : 10 * i.issued.amount < 2 ^ 63) (hdays : i.firstUnlockDays ≤ elapsedDays i ctx.now)
    (hauth : ctx.hasAuth issuer = true) (hcovered : i.unlocked.amount ≤ releasedOf p i ctx.now) :
    (∃ s' t, unlock ctx issuer i.planId i.issueId s = .ok (s', [t]) ∧
      t.recipient = i.receiver ∧ t.bank = p.assetContract) ∨
    unlock ctx issuer i.planId i.issueId s = .error ⟨none, "premature to unlock"⟩ := by
  have hlocked := hi.locked
  have hunlocked := hi.unlocked
  have hpos := hi.pos
  have hmaxAmount : Asset.maxAmount = 2 ^ 62 - 1 := rfl
  have htotal := totalUnlocked_of_covered hp hi.issuedAt hi.days hdays (by omega) hten hcovered
  rcases unlock_of_total hissue hplan hongoing henabled hp hi (by omega) hdays hauth hcovered htotal
    with hpays | hearly
  · exact Or.inl hpays.2
  · exact Or.inr hearly.2

/-- On an issue whose schedule has fallen behind, `unlock` aborts with its assertion. -/
theorem unlock_of_uncovered (hissue : s.issues.find? i.issueId = some i)
    (hplan : s.plans.find? i.planId = some p) (hongoing : i.status = .ongoing)
    (henabled : p.status = .enabled) (hp : p.Sound) (hi : i.Sound ctx.now s.plans)
    (hten : 10 * i.issued.amount < 2 ^ 63) (hdays : i.firstUnlockDays ≤ elapsedDays i ctx.now)
    (hauth : ctx.hasAuth issuer = true) (hbehind : releasedOf p i ctx.now < i.unlocked.amount) :
    unlock ctx issuer i.planId i.issueId s = .error ⟨none,
      "total_unlocked >= issue_itr->unlocked.amount && issue_itr->issued.amount >= total_unlocked"⟩
    := by
  have hlocked := hi.locked
  have hunlocked := hi.unlocked
  have hpos := hi.pos
  have hdays' : 0 ≤ unlockedDays ctx.now i := by
    rw [unlockedDays_eq hi.issuedAt hi.days]
    omega
  have htotal := totalUnlocked_of_uncovered hp hi.issuedAt hi.days hdays (by omega) hten (by omega)
    hbehind
  rw [unlock, Ctx.requireAuth, check_of hauth, hissue, require, ok_bind, check_of rfl,
    check_of hi.issuedAt, hplan, require, ok_bind, check_of henabled,
    check_of ⟨hp.times.1, hp.interval⟩]
  simp only []
  rw [check_of hongoing, check_of hdays', htotal]
  rfl

end Call

/-! ## What a step does to the cover -/

section Step
variable {self : Name} {w w' : World State} {ctx : Ctx} {s s' : State} {p p' q : VestPlan}
  {i : VestIssue} {plans : Table VestPlan.id}

/-- The schedule of an issue depends on the terms of its plan only. -/
theorem dueOf_congr (h : p.SameTerms p') (now : TimePoint) : dueOf p' i now = dueOf p i now := by
  rw [dueOf, dueOf, periods, periods, h.interval, h.times]

theorem dueOf_mono (hp : p.Sound) (hissued : 0 ≤ i.issued.amount) {now now' : TimePoint}
    (h : now ≤ now') : dueOf p i now ≤ dueOf p i now' := by
  have htimes := hp.times
  have hmono := periods_mono (p := p) (i := i) h
  apply released_mono_steps hissued
  · omega
  · omega

theorem dueOf_nonneg (hp : p.Sound) (hissued : 0 ≤ i.issued.amount) (now : TimePoint) :
    0 ≤ dueOf p i now := by
  have htimes := hp.times
  apply released_nonneg hissued
  · omega
  · omega

/-- A row that starts out unpaid is covered. -/
theorem covered_of_fresh {now clock : TimePoint} {plans : Table VestPlan.id}
    {issues : Table VestIssue.issueId} {quant zero : Asset} (hacc : Accounted clock plans issues)
    (hpos : 0 < quant.amount) (hzero : Asset.new 0 quant.symbol = .ok zero)
    (hissued : i.issued = quant) (hunlocked : i.unlocked = zero)
    (hp : plans.find? i.planId = some p) :
    ∃ p, plans.find? i.planId = some p ∧ i.unlocked.amount ≤ dueOf p i now := by
  have hz := Asset.amount_of_new_zero hzero
  refine ⟨p, hp, ?_⟩
  rw [hunlocked, hz]
  apply dueOf_nonneg (hacc.plan p (Table.find?_eq_some.mp hp).1)
  rw [hissued]
  exact hpos.le

/-- A row that stays as it is stays covered: its schedule only grows. -/
theorem covered_later {now : TimePoint}
    (hacc : Accounted w.clock w.state.plans w.state.issues) (hcov : Covered w)
    (hclock : w.clock ≤ now) (hi : i ∈ w.state.issues) (hongoing : i.status = .ongoing) :
    ∃ p, w.state.plans.find? i.planId = some p ∧ i.unlocked.amount ≤ dueOf p i now := by
  have hsound := hacc.issue i hi hongoing
  obtain ⟨p, hp, -⟩ := hsound.plan
  have hlocked := hsound.locked
  have hunlocked := hsound.unlocked
  have hpos := hsound.pos
  have hmono := dueOf_mono (i := i) (hacc.plan p (Table.find?_eq_some.mp hp).1) (by omega) hclock
  exact ⟨p, hp, (hcov i hi hongoing p hp).trans hmono⟩

/-- `unlock` brings its row to exactly what the schedule has released. -/
theorem covered_of_unlock {now : TimePoint} {total : ℤ} (hp : p.Sound)
    (hi : i.Sound now w.state.plans) (hdays : 0 ≤ unlockedDays now i)
    (htotal : totalUnlocked p i (unlockedTimes p (unlockedDays now i)) = .ok total) :
    (issuePaid now i total).unlocked.amount ≤ dueOf p (issuePaid now i total) now := by
  have hlocked := hi.locked
  have hunlocked := hi.unlocked
  have hpos := hi.pos
  have htimes := hp.times
  have hbounds := totalUnlocked_bounds (by omega) htotal
  rw [unlockedDays_eq hi.issuedAt hi.days] at hdays
  have hrel := totalUnlocked_eq hp hi.issuedAt hi.days (by omega) (by omega) htotal
  show i64 total ≤ dueOf p i now
  rw [(i64_of_bounds hi hbounds).1, hrel]
  apply released_mono_steps
  · omega
  · omega
  · omega

/-- The cover of the rows that a step stores, at the time of the step. -/
theorem covered_of_move (hacc : Accounted w.clock w.state.plans w.state.issues)
    (hcov : Covered w) (hclock : w.clock ≤ ctx.now) {inp : Input Action} {outs : List Transfer}
    (hok : KeepsCover w (ctx, inp)) (hm : Move self ctx w.state inp s' outs) :
    ∀ i ∈ s'.issues, i.status = .ongoing → ∃ p, w.state.plans.find? i.planId = some p ∧
      i.unlocked.amount ≤ dueOf p i ctx.now := by
  have hkeep : ∀ i ∈ w.state.issues, i.status = .ongoing → ∃ p,
      w.state.plans.find? i.planId = some p ∧ i.unlocked.amount ≤ dueOf p i ctx.now :=
    fun i hi hongoing => covered_later hacc hcov hclock hi hongoing
  cases hm with
  | ignore | payFee | init | addplan | setplanowner | enableplan => exact hkeep
  | deposit n plan receiver days issueId total zero hto hplan hstatus hdays hbank hsymbol hpos
      htotal hzero hnew hid =>
    exact Table.forall_put hkeep fun _ => covered_of_fresh hacc hpos hzero rfl rfl hplan
  | setreceiver issue receiver hissue =>
    exact Table.forall_put hkeep (hkeep issue (Table.find?_eq_some.mp hissue).1)
  | transissue issue toReceiver quant zero newId memo hissue hongoing hpos hsymbol hlocked hissued
      hzero hnew hid =>
    have hsound := hacc.issue issue (Table.find?_eq_some.mp hissue).1 hongoing
    obtain ⟨p, hp, -⟩ := hsound.plan
    have hput := Table.forall_put hkeep
      (x := issueSplitOff ctx.now issue newId toReceiver quant zero memo)
      fun _ => covered_of_fresh hacc hpos hzero rfl rfl hp
    -- an emptied row goes; a row that stays is what the guard speaks about
    by_cases hall : issue.locked.amount = quant.amount
    · simp only [if_pos hall]
      exact Table.forall_erase hput
    · simp only [if_neg hall]
      refine Table.forall_put hput fun _ => ⟨p, hp, ?_⟩
      have hexact := split_exact ctx.now hsound hpos hlocked
      have hguard := hok issue hissue p hp hall
      rw [← hexact.2] at hguard
      exact hguard
  | endissue issuer issue plan total hissue hplan hstatus henabled htotal =>
    -- a finished row is not asked about
    exact Table.forall_put hkeep fun hfin => by cases hfin
  | unlock issuer issue plan total quantity hissue hplan hongoing henabled hdays htotal hremaining
      hpos hquantity =>
    have hplanSound := hacc.plan plan (Table.find?_eq_some.mp hplan).1
    have hsound := (hacc.issue issue (Table.find?_eq_some.mp hissue).1 hongoing).later hclock
    exact Table.forall_put hkeep fun _ =>
      ⟨plan, hplan, covered_of_unlock hplanSound hsound hdays htotal⟩
  | delfinissues issueIds issues hissues =>
    exact fun j hj => hkeep j ((mem_delfinissuesFrom hissues).1 j hj)
  | setfirstdays issue days hissue hdays hauth =>
    refine Table.forall_put hkeep fun hongoing => ?_
    obtain ⟨p, hp, -⟩ := (hacc.issue issue (Table.find?_eq_some.mp hissue).1 hongoing).plan
    exact ⟨p, hp, hok issue hissue p hp hongoing⟩

/-- A step that keeps the cover leaves the world covered. -/
theorem covered_of_step {inp : Ctx × Input Action} (hsolvent : Solvent w) (hcov : Covered w)
    (hok : KeepsCover w inp) (hs : (contract self).step w inp = .ok w') : Covered w' := by
  obtain ⟨hclock, -, hnow, outs, hrun, -⟩ := ((contract self).step_eq_ok).mp hs
  have hm := move_of_run hrun
  intro i hi hongoing p' hp'
  obtain ⟨p, hp, hle⟩ := covered_of_move hsolvent.accounted hcov hclock hok hm i hi hongoing
  -- the plan after the step is the one before it, on the same terms
  obtain ⟨q, hq, hterms⟩ := sameTerms_of_move hm hp
  obtain rfl : q = p' := Option.some.inj (hq.symm.trans hp')
  rw [hnow, dueOf_congr hterms]
  exact hle

/-- A step that does not keep the cover leaves a row whose schedule has fallen behind. -/
theorem keepsCover_of_covered {inp : Ctx × Input Action} (hsolvent : Solvent w)
    (hs : (contract self).step w inp = .ok w') (hcov : Covered w') : KeepsCover w inp := by
  obtain ⟨ctx, inp⟩ := inp
  obtain ⟨-, -, hnow, outs, hrun, -⟩ := ((contract self).step_eq_ok).mp hs
  have hm := move_of_run hrun
  unfold Covered at hcov
  rw [hnow] at hcov
  generalize w'.state = s' at hm hcov
  cases hm with
  | transissue issue toReceiver quant zero newId memo hissue hongoing hpos hsymbol hlocked hissued
      hzero hnew hid =>
    intro i hi p hp hrest
    obtain rfl : issue = i := Option.some.inj (hissue.symm.trans hi)
    have hsound := hsolvent.accounted.issue issue (Table.find?_eq_some.mp hissue).1 hongoing
    -- the part that stays behind is one of the rows after the step
    have hstored := hcov (issueRemainder ctx.now issue quant)
    simp only [if_neg hrest] at hstored
    have hcovered := hstored (Table.mem_put_self _ _) hongoing p hp
    rw [dueOf, (split_exact ctx.now hsound hpos hlocked).2] at hcovered
    exact hcovered
  | setfirstdays issue days hissue hdays hauth =>
    intro i hi p hp hongoing
    obtain rfl : issue = i := Option.some.inj (hissue.symm.trans hi)
    exact hcov { issue with firstUnlockDays := days, updatedAt := ctx.now }
      (Table.mem_put_self _ _) hongoing p hp
  | ignore | payFee | deposit | init | setreceiver | addplan | setplanowner | enableplan | endissue
  | unlock | delfinissues => trivial

/-- The condition on a step is what decides whether the world stays covered. -/
theorem covered_iff_of_step {inp : Ctx × Input Action} (hsolvent : Solvent w) (hcov : Covered w)
    (hs : (contract self).step w inp = .ok w') : Covered w' ↔ KeepsCover w inp :=
  ⟨keepsCover_of_covered hsolvent hs, fun hok => covered_of_step hsolvent hcov hok hs⟩

end Step

/-! ## Whole runs -/

section Runs
variable {self : Name} {w : World State}

/-- A covered world stays so as time passes. -/
theorem scheduleCovers_of_covered (hsolvent : Solvent w) (hcov : Covered w) :
    ScheduleCovers w := by
  intro i hi hongoing p hp _ _ now hclock hdays
  have hplan := hsolvent.accounted.plan p (Table.find?_eq_some.mp hp).1
  have hsound := hsolvent.accounted.issue i hi hongoing
  have hlocked := hsound.locked
  have hunlocked := hsound.unlocked
  have hpos := hsound.pos
  exact (hcov i hi hongoing p hp).trans (dueOf_le_releasedOf hplan (by omega) hclock hdays)

/-- `unlock` pays or reports that there is nothing to pay yet exactly when no schedule has
fallen behind what was paid. -/
theorem unlockPays_iff (hsolvent : Solvent w) : UnlockPays self w ↔ ScheduleCovers w := by
  constructor
  · intro hpays i hi hongoing p hp henabled hten now hclock hdays
    by_contra hbehind
    -- the issuer calls at that time
    obtain ⟨ctx, rfl, hauth⟩ : ∃ ctx : Ctx, ctx.now = now ∧ ctx.hasAuth i.issuer = true :=
      ⟨{ Ctx.signed i.issuer 0 with now }, rfl, decide_eq_true (List.mem_singleton.mpr rfl)⟩
    have hplan := hsolvent.accounted.plan p (Table.find?_eq_some.mp hp).1
    have hsound := (hsolvent.accounted.issue i hi hongoing).later hclock
    have herror := unlock_of_uncovered (Table.find?_self hi) hp hongoing henabled hplan hsound
      hten hdays hauth (not_le.mp hbehind)
    rcases hpays i hi hongoing p hp henabled hten _ i.issuer hclock hdays hauth with
      ⟨s', t, hok, -⟩ | hearly
    · have hok' := herror.symm.trans hok
      cases hok'
    · have htexts := herror.symm.trans hearly
      rw [Except.error.injEq] at htexts
      exact absurd htexts (by decide)
  · intro hcovers i hi hongoing p hp henabled hten ctx issuer hclock hdays hauth
    have hplan := hsolvent.accounted.plan p (Table.find?_eq_some.mp hp).1
    have hsound := (hsolvent.accounted.issue i hi hongoing).later hclock
    have hcovered := hcovers i hi hongoing p hp henabled hten ctx.now hclock hdays
    rcases unlock_of_covered (Table.find?_self hi) hp hongoing henabled hplan hsound hten hdays
      hauth hcovered with ⟨s', t, hexec, hrecipient, hbank⟩ | herror
    · have hrun : exec self ctx (.unlock issuer i.planId i.issueId) w.state = .ok (s', [t]) :=
        hexec
      have hpay := paid_of_act hsolvent hclock hrun t (List.mem_singleton.mpr rfl)
      exact Or.inl ⟨s', t, hexec, hrecipient, hbank, hpay⟩
    · exact Or.inr herror

/-- Where every ongoing issue is due, the schedules cover what was paid. -/
theorem covered_of_unlockPays (hsolvent : Solvent w) (hdue : AllDue w)
    (hpays : UnlockPays self w) : Covered w := by
  intro i hi hongoing p hp
  obtain ⟨henabled, hten, hdays⟩ := hdue i hi hongoing p hp
  have hcovers := (unlockPays_iff hsolvent).mp hpays i hi hongoing p hp henabled hten w.clock
    (le_refl _) hdays
  have hpos := periods_pos (p := p) hdays
  rw [dueOf, max_eq_right (by omega)]
  exact hcovers

theorem covered_genesis (clock : TimePoint) : Covered (genesis clock) :=
  fun i hi => absurd hi (Table.not_mem_empty i)

/-- In every run whose `transissue` and `setfirstdays` steps keep the cover, the assertions
of `unlock` are unreachable in every state reached. A step that does not keep it makes them
reachable, where the issues are due. -/
theorem unlock_never_asserts {clock : TimePoint} {is : List (Ctx × Input Action)}
    (hrun : Transition.Run (contract self).step KeepsCover (genesis clock) is w) :
    UnlockPays self w ∧
    ∀ i w', (contract self).step w i = .ok w' → ¬ KeepsCover w i → AllDue w' →
      ¬ UnlockPays self w' := by
  have h := hrun.invariant (P := fun w => Solvent w ∧ Covered w)
    (fun _ _ _ h hok hs => ⟨solvent_of_step h.1 hs, (covered_iff_of_step h.1 h.2 hs).mpr hok⟩)
    ⟨solvent_genesis clock, covered_genesis clock⟩
  refine ⟨(unlockPays_iff h.1).mpr (scheduleCovers_of_covered h.1 h.2), ?_⟩
  intro i w' hs hbreak hdue hpays
  have hcov := covered_of_unlockPays (solvent_of_step h.1 hs) hdue hpays
  exact hbreak ((covered_iff_of_step h.1 h.2 hs).mp hcov)

end Runs

/-! ## A run that breaks the cover -/

namespace Sample

/-- The text of the assertion on the unlocked amount. -/
def assertion : String :=
  "total_unlocked >= issue_itr->unlocked.amount && issue_itr->issued.amount >= total_unlocked"

/-- After half of an issue was paid on day 104, handing on 30 of the 50 units left makes
`unlock` abort: the schedule of the remaining 70 has released 35, less than the 50 paid. -/
theorem unlock_asserts_after_transissue :
    ¬ ∀ (is : List (Ctx × Input Action)) (w : World State),
      Transition.Run (contract account).step Transition.Unrestricted start is w →
      UnlockPays account w := by
  intro hclaim
  have hreach : Transition.Reaches (contract account).step Transition.Unrestricted (fun w =>
      w.clock ≤ .ofDays 104 ∧
      (∃ i ∈ w.state.issues.find? 1, i.planId = 1 ∧ i.status = .ongoing ∧
        10 * i.issued.amount < 2 ^ 63 ∧ i.firstUnlockDays ≤ elapsedDays i (.ofDays 104)) ∧
      (∃ p ∈ w.state.plans.find? 1, p.status = .enabled) ∧
      Fails (exec account (.signed bob 104) (.unlock bob 1 1) w.state) ⟨none, assertion⟩)
      (inputs ++ [(.signed bob 104, .act (.transissue bob carol 1 (units 30)))])
      start := by decide
  obtain ⟨w, hrun, hclock, ⟨i, hi, hplanId, hongoing, hten, hdays⟩, ⟨p, hp, henabled⟩, hfails⟩ :=
    Transition.run_of_reaches hreach
  have hid := (Table.find?_eq_some.mp hi).2
  rw [fails_iff] at hfails
  have hpays := hclaim _ w hrun i (Table.find?_eq_some.mp hi).1 hongoing p (hplanId.symm ▸ hp)
    henabled hten (.signed bob 104) bob hclock hdays (by decide)
  rw [hplanId, hid, hfails] at hpays
  -- neither a payment nor the other report
  rcases hpays with ⟨s', t, hok, -⟩ | herror
  · cases hok
  · rw [Except.error.injEq] at herror
    exact absurd herror (by decide)

/-- Handing on 30 units before anything is paid keeps the cover. -/
theorem unlock_never_asserts_sample :
    ∃ is w, Transition.Run (contract account).step KeepsCover start is w ∧
      (w.state.issues.rows.map fun i => (i.issued.amount, i.unlocked.amount)) = [(70, 35), (30, 0)] ∧
      UnlockPays account w := by
  have hreach : Transition.Reaches (contract account).step KeepsCover (fun w =>
      (w.state.issues.rows.map fun i => (i.issued.amount, i.unlocked.amount)) = [(70, 35), (30, 0)])
      (inputs.take 2 ++
        [(.signed bob 100, .act (.transissue bob carol 1 (units 30))),
          (.signed bob 104, .act (.unlock bob 1 1))]) start := by decide
  obtain ⟨w, hrun, hrows⟩ := Transition.run_of_reaches hreach
  exact ⟨_, w, hrun, hrows, (unlock_never_asserts hrun).1⟩

end Sample

end Vest
end ToolkitContracts
