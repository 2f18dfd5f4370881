import ToolkitContracts.Vest.Family

/-!
# Any number of calls of `unlock`

An issue that is neither split, nor ended, nor given another first unlock day is followed
along a run, with the time of the last successful `unlock` and what was paid so far. However
often `unlock` was called, and however early or late, what was paid is what the schedule has
released at the time of the last success, and the row says so.
-/

namespace ToolkitContracts
namespace Vest

open Schedule

/-! ## The schedule as a function of time -/

/-- The unlock periods that have begun, over the integers: none or fewer before the first
unlock day. -/
def steps (p : VestPlan) (i : VestIssue) (t : TimePoint) : ℤ :=
  1 + ((elapsedDays i t : ℤ) - i.firstUnlockDays) / p.unlockIntervalDays

/-- What the plan's schedule has released of an issue at the time `t`. -/
def sched (p : VestPlan) (i : VestIssue) (t : TimePoint) : ℤ :=
  released i.issued.amount (steps p i t) p.unlockTimes

section Sched
variable {p p' : VestPlan} {i i' : VestIssue} {t t' : TimePoint}

theorem steps_mono (hp : 0 < p.unlockIntervalDays) (h : t ≤ t') : steps p i t ≤ steps p i t' := by
  have hdays := elapsedDays_mono (i := i) h
  apply Int.add_le_add_left
  apply Int.ediv_le_ediv
  · omega
  · omega

theorem sched_mono (hp : p.Sound) (hissued : 0 ≤ i.issued.amount) (h : t ≤ t') :
    sched p i t ≤ sched p i t' := by
  have htimes := hp.times
  apply released_mono_steps hissued
  · omega
  · exact steps_mono hp.interval h

theorem sched_le (hp : p.Sound) (hissued : 0 ≤ i.issued.amount) (t : TimePoint) :
    sched p i t ≤ i.issued.amount := by
  have htimes := hp.times
  apply released_le hissued
  omega

/-- From the first unlock day on, the schedule is the one that `unlock` computes. -/
theorem sched_eq_releasedOf (h : i.firstUnlockDays ≤ elapsedDays i t) :
    sched p i t = releasedOf p i t := by
  have hsteps : steps p i t = (periods p i t : ℤ) := by
    rw [steps, periods, if_neg (by omega)]
    push_cast
    rw [Nat.cast_sub h]
  rw [sched, releasedOf, hsteps]

theorem sched_congr (hp : p.SameTerms p') (hfirst : i'.firstUnlockDays = i.firstUnlockDays)
    (hat : i'.issuedAt = i.issuedAt) (hissued : i'.issued = i.issued) :
    sched p' i' t = sched p i t := by
  rw [sched, sched, steps, steps, elapsedDays, elapsedDays, hp.interval, hp.times, hfirst, hat,
    hissued]

end Sched

/-! ## Following an issue -/

/-- What happened to an issue: whether its row has been there all along, when `unlock` last
succeeded, and what was paid. -/
structure Calls where
  kept : Bool
  last : Option TimePoint
  paid : ℤ

/-- Nothing has happened yet. -/
def Calls.none : Calls := ⟨true, Option.none, 0⟩

/-- The history after a step. -/
def Calls.record (self : Name) (issueId : ℕ) (h : Calls) (w : World State)
    (i : Ctx × Input Action) (w' : World State) : Calls where
  kept := h.kept && (w'.state.issues.find? issueId).isSome
  last :=
    match i.2 with
    | .act (.unlock _ _ id) => if h.kept = true ∧ id = issueId then some i.1.now else h.last
    | _ => h.last
  paid :=
    match i.2 with
    | .act (.unlock _ _ id) =>
      if h.kept = true ∧ id = issueId then h.paid + paidOut self w i else h.paid
    | _ => h.paid

/-- The input is no `transissue`, `setfirstdays` or `endissue` of the issue. -/
def Spares (issueId : ℕ) : Input Action → Prop
  | .act (.transissue _ _ id _) => id ≠ issueId
  | .act (.setfirstdays id _) => id ≠ issueId
  | .act (.endissue _ _ id) => id ≠ issueId
  | _ => True

instance (issueId : ℕ) (i : Input Action) : Decidable (Spares issueId i) := by
  rcases i with n | a
  · exact inferInstanceAs (Decidable True)
  · rcases a with _ | _ | _ | _ | _ | _ | _ | _ | _ | _ <;> dsimp only [Spares] <;> infer_instance

/-- The row of the issue `i₀` after `paid` was paid of it. -/
structure Row (i₀ : VestIssue) (paid : ℤ) (i : VestIssue) : Prop where
  issueId : i.issueId = i₀.issueId
  planId : i.planId = i₀.planId
  first : i.firstUnlockDays = i₀.firstUnlockDays
  issuedAt : i.issuedAt = i₀.issuedAt
  issued : i.issued = i₀.issued
  unlocked : i.unlocked.amount = paid
  status : i.status = if paid = i₀.issued.amount then .finished else .ongoing

/-- The tables agree with the history of the issue. -/
structure Follows (p₀ : VestPlan) (i₀ : VestIssue) (h : Calls) (plans : Table VestPlan.id)
    (issues : Table VestIssue.issueId) : Prop where
  plan : ∃ p, plans.find? i₀.planId = some p ∧ p₀.SameTerms p
  row : h.kept = true → ∃ i ∈ issues, Row i₀ h.paid i
  gone : h.kept = false → h.paid = i₀.issued.amount
  paid : h.paid = h.last.elim 0 (sched p₀ i₀)

section Step
variable {self : Name} {w w' : World State} {ctx : Ctx} {s s' : State} {p₀ : VestPlan}
  {i i₀ : VestIssue} {h : Calls} {inp : Input Action} {outs : List Transfer}

/-- A transaction that is not an `unlock` of an issue and spares it leaves the row, but for
its receiver, unless it removes a finished row. -/
theorem row_of_move (hm : Move self ctx s inp s' outs) (hi : i ∈ s.issues)
    (hspares : Spares i.issueId inp)
    (hunlock : ∀ issuer planId, inp ≠ .act (.unlock issuer planId i.issueId)) :
    (∃ receiver, { i with receiver } ∈ s'.issues) ∨
    (i.status = .finished ∧ s'.issues.find? i.issueId = none) := by
  have hstay : ∀ {x : VestIssue} {t : Table VestIssue.issueId}, i ∈ t → i.issueId ≠ x.issueId →
      i ∈ t.put x := fun hmem hne => Table.mem_put.mpr (Or.inr ⟨hmem, hne⟩)
  cases hm with
  | ignore | payFee | init | addplan | setplanowner | enableplan => exact Or.inl ⟨i.receiver, hi⟩
  | deposit n plan receiver days issueId total zero hto hplan hstatus hdays hbank hsymbol hpos
      htotal hzero hnew hid => exact Or.inl ⟨i.receiver, hstay hi (hid i hi).ne⟩
  | setreceiver issue receiver hissue =>
    by_cases hid : i.issueId = issue.issueId
    · obtain rfl : i = issue := Table.eq_of_key_eq hi (Table.find?_eq_some.mp hissue).1 hid
      exact Or.inl ⟨receiver, Table.mem_put_self _ _⟩
    · exact Or.inl ⟨i.receiver, hstay hi hid⟩
  | transissue issue toReceiver quant zero newId memo hissue hongoing hpos hsymbol hlocked hissued
      hzero hnew hid =>
    have hne : i.issueId ≠ issue.issueId := Ne.symm hspares
    exact Or.inl ⟨i.receiver, (mem_split_iff hissue hnew).mpr (Or.inr (Or.inr ⟨hi, hne⟩))⟩
  | endissue issuer issue plan total hissue =>
    exact Or.inl ⟨i.receiver, hstay hi (Ne.symm hspares)⟩
  | unlock issuer issue plan total quantity hissue =>
    have hne : i.issueId ≠ issue.issueId := by
      intro hid
      apply hunlock issuer issue.planId
      rw [hid]
    exact Or.inl ⟨i.receiver, hstay hi hne⟩
  | delfinissues issueIds issues hissues =>
    obtain ⟨rfl, hfinished⟩ := delfinissuesFrom_eq hissues
    by_cases hid : i.issueId ∈ issueIds
    · obtain ⟨j, hj, hstatus⟩ := hfinished _ hid
      rw [Table.find?_self hi, Option.some.injEq] at hj
      rw [← hj] at hstatus
      refine Or.inr ⟨hstatus, Table.find?_eq_none.mpr fun k hk => ?_⟩
      -- the rows that are left have other ids
      intro hsame
      exact (Table.mem_eraseAll.mp hk).2 (hsame ▸ hid)
    · exact Or.inl ⟨i.receiver, Table.mem_eraseAll.mpr ⟨hi, hid⟩⟩
  | setfirstdays issue days hissue =>
    exact Or.inl ⟨i.receiver, hstay hi (Ne.symm hspares)⟩

/-- An `unlock` of an issue happens on or after its first unlock day, and brings the row to
what the schedule has released. -/
theorem row_of_unlock {issuer : Name} {planId : ℕ} (hw : Solvent w) (hclock : w.clock ≤ ctx.now)
    (hplan : ∃ p, w.state.plans.find? i₀.planId = some p ∧ p₀.SameTerms p)
    (hi : i ∈ w.state.issues) (hrow : Row i₀ h.paid i)
    (hcode : (contract self).run ctx (.act (.unlock issuer planId i₀.issueId)) w.state
      = .ok (w'.state, outs)) :
    i₀.firstUnlockDays ≤ elapsedDays i₀ ctx.now ∧
    paidOut self w (ctx, .act (.unlock issuer planId i₀.issueId))
      = sched p₀ i₀ ctx.now - h.paid ∧
    ∃ i' ∈ w'.state.issues, Row i₀ (sched p₀ i₀ ctx.now) i' := by
  have hm := move_of_run hcode
  generalize hid : i₀.issueId = issueId, hs' : w'.state = s' at hm hcode
  cases hm with
  | unlock _ issue plan total quantity hissue hfind hongoing henabled hdays htotal hremaining hpos
      hquantity =>
    obtain rfl : issue = i := by
      apply Table.eq_of_key_eq (Table.find?_eq_some.mp hissue).1 hi
      rw [hrow.issueId, hid]
    obtain ⟨p, hp, hterms⟩ := hplan
    obtain rfl : plan = p := by
      rw [hrow.planId, hp] at hfind
      exact (Option.some.inj hfind).symm
    have hplanSound := hw.accounted.plan plan (Table.find?_eq_some.mp hp).1
    have hsound := (hw.accounted.issue issue hi hongoing).later hclock
    have hlocked := hsound.locked
    have hlockedPos := hsound.pos
    have hunlocked := hsound.unlocked
    have hstarted : issue.firstUnlockDays ≤ elapsedDays issue ctx.now := by
      rw [unlockedDays_eq hsound.issuedAt hsound.days] at hdays
      omega
    have hbounds := totalUnlocked_bounds (by omega) htotal
    have hexact := i64_of_bounds hsound hbounds
    -- what the code computes is the schedule of the issue as it was created
    have hvalue : total = sched p₀ i₀ ctx.now := by
      rw [totalUnlocked_eq hplanSound hsound.issuedAt hsound.days hstarted (by omega) htotal,
        ← sched_eq_releasedOf hstarted]
      exact sched_congr hterms hrow.first hrow.issuedAt hrow.issued
    have hrunOne := paidOut_of_run hcode
    refine ⟨?_, ?_, issuePaid ctx.now issue total, Table.mem_put_self _ _, ?_⟩
    · have hdaysEq : elapsedDays issue ctx.now = elapsedDays i₀ ctx.now := by
        rw [elapsedDays, elapsedDays, hrow.issuedAt]
      rw [← hrow.first, ← hdaysEq]
      exact hstarted
    · rw [hrunOne, (Asset.new_eq_ok.mp hquantity).1, i64_i64, hexact.2.1, hvalue, hrow.unlocked]
    · refine ⟨hrow.issueId, hrow.planId, hrow.first, hrow.issuedAt, hrow.issued, ?_, ?_⟩
      · show i64 total = _
        rw [hexact.1, hvalue]
      · show (if i64 total = issue.issued.amount then IssueStatus.finished else issue.status) = _
        rw [hexact.1, hvalue, hrow.issued, hongoing]

theorem Row.withReceiver (hrow : Row i₀ h.paid i) (receiver : Name) :
    Row i₀ h.paid { i with receiver } :=
  ⟨hrow.issueId, hrow.planId, hrow.first, hrow.issuedAt, hrow.issued, hrow.unlocked, hrow.status⟩

/-- The history of an input that is not an `unlock` of the issue. -/
theorem record_of_other (hunlock : ∀ issuer planId, inp ≠ .act (.unlock issuer planId i₀.issueId)) :
    h.record self i₀.issueId w (ctx, inp) w'
      = { h with kept := h.kept && (w'.state.issues.find? i₀.issueId).isSome } := by
  cases inp with
  | notify n => rfl
  | act a =>
    cases a with
    | unlock issuer planId id =>
      have hne : ¬ (h.kept = true ∧ id = i₀.issueId) := by
        intro hc
        exact hunlock issuer planId (by rw [hc.2])
      simp only [Calls.record, if_neg hne]
    | init | setreceiver | addplan | setplanowner | enableplan | transissue | endissue
    | delfinissues | setfirstdays => rfl

/-- The history of an `unlock` of the issue. -/
theorem record_of_unlock {issuer : Name} {planId : ℕ} (hkept : h.kept = true) :
    h.record self i₀.issueId w (ctx, .act (.unlock issuer planId i₀.issueId)) w'
      = ⟨(w'.state.issues.find? i₀.issueId).isSome, some ctx.now,
          h.paid + paidOut self w (ctx, .act (.unlock issuer planId i₀.issueId))⟩ := by
  simp [Calls.record, hkept]

/-- Once the row is gone, the history does not change any more. -/
theorem record_of_gone (hgone : h.kept = false) :
    h.record self i₀.issueId w (ctx, inp) w' = h := by
  obtain ⟨kept, last, paid⟩ := h
  simp only at hgone
  subst hgone
  cases inp with
  | notify n => rfl
  | act a =>
    cases a with
    | unlock issuer planId id => simp [Calls.record]
    | init | setreceiver | addplan | setplanowner | enableplan | transissue | endissue
    | delfinissues | setfirstdays => rfl

theorem follows_of_run (hw : Solvent w) (hf : Follows p₀ i₀ h w.state.plans w.state.issues)
    (hclock : w.clock ≤ ctx.now) (hspares : h.kept = true → Spares i₀.issueId inp)
    (hcode : (contract self).run ctx inp w.state = .ok (w'.state, outs)) :
    Follows p₀ i₀ (h.record self i₀.issueId w (ctx, inp) w') w'.state.plans w'.state.issues := by
  have hm := move_of_run hcode
  obtain ⟨p, hp, hterms⟩ := hf.plan
  obtain ⟨p', hp', hterms'⟩ := sameTerms_of_move hm hp
  have hplan : ∃ p, w'.state.plans.find? i₀.planId = some p ∧ p₀.SameTerms p :=
    ⟨p', hp', hterms.trans hterms'⟩
  cases hkept : h.kept with
  | false =>
    rw [record_of_gone hkept]
    exact { hf with plan := hplan, row := fun hc => absurd (hkept.symm.trans hc) (by decide) }
  | true =>
    obtain ⟨i, hi, hrow⟩ := hf.row hkept
    by_cases hunlock : ∃ issuer planId, inp = .act (.unlock issuer planId i₀.issueId)
    · -- one more success
      obtain ⟨issuer, planId, rfl⟩ := hunlock
      obtain ⟨-, hpaid, i', hi', hrow'⟩ := row_of_unlock hw hclock hf.plan hi hrow hcode
      have hsum : h.paid + paidOut self w (ctx, .act (.unlock issuer planId i₀.issueId))
          = sched p₀ i₀ ctx.now := by omega
      have hthere : (w'.state.issues.find? i₀.issueId).isSome = true := by
        rw [← hrow'.issueId, Table.find?_self hi']
        rfl
      rw [record_of_unlock hkept, hsum, hthere]
      exact ⟨hplan, fun _ => ⟨i', hi', hrow'⟩, fun hc => Bool.noConfusion hc, rfl⟩
    · have hother : ∀ issuer planId, inp ≠ .act (.unlock issuer planId i₀.issueId) :=
        fun issuer planId hc => hunlock ⟨issuer, planId, hc⟩
      rw [record_of_other hother, hkept, Bool.true_and]
      have hsparesRow : Spares i.issueId inp := by
        rw [hrow.issueId]
        exact hspares hkept
      rcases row_of_move hm hi hsparesRow (by rw [hrow.issueId]; exact hother) with
        ⟨receiver, hmem⟩ | ⟨hfinished, hnone⟩
      · have hthere : (w'.state.issues.find? i₀.issueId).isSome = true := by
          rw [← hrow.issueId]
          exact congrArg Option.isSome (Table.find?_self hmem)
        rw [hthere]
        exact ⟨hplan, fun _ => ⟨_, hmem, hrow.withReceiver receiver⟩, fun hc => Bool.noConfusion hc, hf.paid⟩
      · -- only a row that was paid in full is removed
        have hall : h.paid = i₀.issued.amount := by
          by_contra hpart
          have hstatus := hrow.status
          rw [if_neg hpart, hfinished] at hstatus
          cases hstatus
        rw [hrow.issueId] at hnone
        rw [hnone]
        exact ⟨hplan, fun hc => Bool.noConfusion hc, fun _ => hall, hf.paid⟩

end Step

/-! ## Whole runs -/

section Runs
variable {self : Name} {w w₁ : World State} {p₀ : VestPlan} {i₀ : VestIssue} {h : Calls}

/-- A new issue is ongoing. -/
theorem ongoing_of_founds (hf : Founds self w i₀ p₀) :
    0 < i₀.issued.amount ∧ i₀.status = .ongoing := by
  obtain ⟨clock, is, w₀, ctx, n, hrun, hstep, hi, hnew, -⟩ := hf
  obtain ⟨outs, hcode⟩ := (contract self).run_of_step hstep
  have hm := move_of_run hcode
  have hold : i₀ ∉ w₀.state.issues := fun hmem => Table.find?_eq_none.mp hnew i₀ hmem rfl
  generalize hw : w.state = s' at hm hi
  cases hm with
  | ignore | payFee => exact absurd hi hold
  | deposit _ plan receiver days issueId total zero hto hplan hstatus hdays hbank hsymbol hpos =>
    rcases Table.mem_put.mp hi with rfl | ⟨hi, -⟩
    · exact ⟨hpos, rfl⟩
    · exact absurd hi hold

theorem follows_founded (hf : Founds self w i₀ p₀) :
    Follows p₀ i₀ .none w.state.plans w.state.issues := by
  obtain ⟨-, -, hunlocked⟩ := unpaid_of_founds hf
  obtain ⟨hpos, hongoing⟩ := ongoing_of_founds hf
  obtain ⟨-, -, -, -, -, -, -, hi, -, hplan⟩ := hf
  have hrow : Row i₀ 0 i₀ := by
    refine ⟨rfl, rfl, rfl, rfl, rfl, hunlocked, ?_⟩
    rw [if_neg (by omega), hongoing]
  exact ⟨⟨p₀, hplan, .refl p₀⟩, fun _ => ⟨i₀, hi, hrow⟩, fun hc => Bool.noConfusion hc, rfl⟩

/-- For an issue that is not split, ended or moved, in every run and at any time: what was
paid is what the schedule has released at the last successful `unlock`; the row states it, is
`FINISHED` exactly when everything was paid, and is removed only then. A further success is
on or after the first unlock day and pays up to the schedule of that time, whatever was
called before. The schedule never decreases and never exceeds what was issued. -/
theorem unlock_follows_schedule {is : List (Ctx × Input Action)} (hf : Founds self w₁ i₀ p₀)
    (hrun : Transition.Run (Transition.recording (contract self).step
        (Calls.record self i₀.issueId))
      (fun s i => s.2.kept = true → Spares i₀.issueId i.2) (w₁, .none) is (w, h)) :
    h.paid = h.last.elim 0 (sched p₀ i₀) ∧
    (h.kept = true → ∃ i, w.state.issues.find? i₀.issueId = some i ∧ i.issued = i₀.issued ∧
      i.unlocked.amount = h.paid ∧ (i.status = .finished ↔ h.paid = i₀.issued.amount)) ∧
    (h.kept = false → h.paid = i₀.issued.amount) ∧
    (∀ (ctx : Ctx) (issuer : Name) (planId : ℕ) (w' : World State), h.kept = true →
      (contract self).step w (ctx, .act (.unlock issuer planId i₀.issueId)) = .ok w' →
      i₀.firstUnlockDays ≤ elapsedDays i₀ ctx.now ∧
      ∃ i', w'.state.issues.find? i₀.issueId = some i' ∧
        i'.unlocked.amount = sched p₀ i₀ ctx.now ∧
        (i'.status = .finished ↔ sched p₀ i₀ ctx.now = i₀.issued.amount)) ∧
    (∀ t t', t ≤ t' → sched p₀ i₀ t ≤ sched p₀ i₀ t') ∧
    ∀ t, sched p₀ i₀ t ≤ i₀.issued.amount := by
  have hinv : Solvent w ∧ Follows p₀ i₀ h w.state.plans w.state.issues := by
    refine hrun.invariant (P := fun s => Solvent s.1 ∧
      Follows p₀ i₀ s.2 s.1.state.plans s.1.state.issues) ?_
      ⟨(unpaid_of_founds hf).1, follows_founded hf⟩
    intro s i s' hs hok hstep
    obtain ⟨hstep, hrecord⟩ := Transition.recording_eq_ok.mp hstep
    obtain ⟨hclock, -, -, outs, hcode, -⟩ := ((contract self).step_eq_ok).mp hstep
    refine ⟨solvent_of_step hs.1 hstep, ?_⟩
    rw [hrecord]
    exact follows_of_run hs.1 hs.2 hclock hok hcode
  obtain ⟨hw, hfollows⟩ := hinv
  have hstatus : ∀ {paid : ℤ} {i : VestIssue}, Row i₀ paid i →
      (i.status = .finished ↔ paid = i₀.issued.amount) := by
    intro paid i hrow
    rw [hrow.status]
    by_cases hall : paid = i₀.issued.amount
    · simp [hall]
    · simp [hall]
  have hp₀ : p₀.Sound := by
    have hfounded := (unpaid_of_founds hf).1
    obtain ⟨-, -, -, -, -, -, -, -, -, hplan⟩ := hf
    exact hfounded.accounted.plan p₀ (Table.find?_eq_some.mp hplan).1
  have hissued := (unpaid_of_founds hf).2.1
  refine ⟨hfollows.paid, fun hkept => ?_, hfollows.gone, fun ctx issuer planId w' hkept hstep => ?_,
    fun t t' hle => sched_mono hp₀ hissued hle, sched_le hp₀ hissued⟩
  · obtain ⟨i, hi, hrow⟩ := hfollows.row hkept
    exact ⟨i, hrow.issueId ▸ Table.find?_self hi, hrow.issued, hrow.unlocked, hstatus hrow⟩
  · obtain ⟨hclock, -, -, outs, hcode, -⟩ := ((contract self).step_eq_ok).mp hstep
    obtain ⟨i, hi, hrow⟩ := hfollows.row hkept
    obtain ⟨hstarted, -, i', hi', hrow'⟩ := row_of_unlock hw hclock hfollows.plan hi hrow hcode
    exact ⟨hstarted, i', hrow'.issueId ▸ Table.find?_self hi', hrow'.unlocked, hstatus hrow'⟩

end Runs

/-! ## Half a second early -/

/-- The whole days between two block times, which come in steps of half a second. -/
def wholeDays (since now : TimePoint) : ℕ := (now.us - since.us) / (86400 * 1000000)

namespace Sample

/-- A block half a second after midnight. -/
def lateBlock : TimePoint := ⟨100 * 86400 * 1000000 + 500000, by decide⟩

/-- A deposit in that block, with one day to wait. -/
def waiting : Ctx × Notice :=
  ({ Ctx.signed alice 100 with now := lateBlock },
    { deposit.2 with memo := "issue:bob:1:1".toList })

/-- At midnight of the next day half a second is missing to a whole day, and `unlock` already
succeeds: the code counts from the second in which the issue was made. -/
theorem unlock_before_whole_day :
    ¬ ∀ (w₁ w' : World State) (i₀ : VestIssue) (p₀ : VestPlan) (ctx : Ctx) (issuer : Name),
      Founds account w₁ i₀ p₀ →
      (contract account).step w₁ (ctx, .act (.unlock issuer i₀.planId i₀.issueId)) = .ok w' →
      i₀.firstUnlockDays ≤ wholeDays i₀.issuedAt ctx.now := by
  intro hclaim
  have hreach : Transition.Reaches (contract account).step Transition.Unrestricted (fun w₀ =>
      w₀.state.issues.find? 1 = none ∧
      Transition.Succeeds ((contract account).step w₀ (waiting.1, .notify waiting.2)) fun w₁ =>
        ∃ i ∈ w₁.state.issues.find? 1, ∃ p ∈ w₁.state.plans.find? i.planId,
          wholeDays i.issuedAt (.ofDays 101) < i.firstUnlockDays ∧
          Transition.Succeeds ((contract account).step w₁
            (.signed bob 101, .act (.unlock bob i.planId i.issueId))) fun _ => True)
      (inputs.take 1) start := by decide
  obtain ⟨w₀, hrun, hnone, hstep⟩ := Transition.run_of_reaches hreach
  obtain ⟨w₁, hstep, i, hi, p, hp, hearly, hunlock⟩ := Transition.succeeds_iff.mp hstep
  obtain ⟨w', hunlock, -⟩ := Transition.succeeds_iff.mp hunlock
  obtain ⟨hmem, hid⟩ := Table.find?_eq_some.mp hi
  have hfounds : Founds account w₁ i p :=
    ⟨_, _, w₀, _, _, hrun, hstep, hmem, by rw [hid, hnone], hp⟩
  exact absurd (hclaim w₁ w' i p _ bob hfounds hunlock) (not_le.mpr hearly)

/-- Two calls on the days 102 and 104 together pay 50 of 100 units, as one call on day 104
does. -/
theorem unlock_follows_schedule_sample :
    ∃ w₁ i p is w h, Founds account w₁ i p ∧
      Transition.Run (Transition.recording (contract account).step
          (Calls.record account i.issueId))
        (fun s x => s.2.kept = true → Spares i.issueId x.2) (w₁, .none) is (w, h) ∧
      h.last = some (.ofDays 104) ∧ h.paid = 50 ∧ h.paid = sched p i (.ofDays 104) := by
  have hreach : Transition.Reaches (contract account).step Transition.Unrestricted (fun w₀ =>
      w₀.state.issues.find? 1 = none ∧
      Transition.Succeeds ((contract account).step w₀ (deposit.1, .notify deposit.2)) fun w₁ =>
        ∃ i ∈ w₁.state.issues.find? 1, ∃ p ∈ w₁.state.plans.find? i.planId,
          Transition.Reaches (Transition.recording (contract account).step
              (Calls.record account i.issueId))
            (fun s x => s.2.kept = true → Spares i.issueId x.2)
            (fun s => s.2.last = some (.ofDays 104) ∧ s.2.paid = 50)
            [(.signed bob 102, .act (.unlock bob 1 1)), (.signed bob 104, .act (.unlock bob 1 1))]
            (w₁, .none)) (inputs.take 1) start := by decide
  obtain ⟨w₀, hrun, hnone, hstep⟩ := Transition.run_of_reaches hreach
  obtain ⟨w₁, hstep, i, hi, p, hp, hcalls⟩ := Transition.succeeds_iff.mp hstep
  obtain ⟨⟨w, h⟩, hcalls, hlast, hpaid⟩ := Transition.run_of_reaches hcalls
  obtain ⟨hmem, hid⟩ := Table.find?_eq_some.mp hi
  have hfounds : Founds account w₁ i p :=
    ⟨_, _, w₀, _, _, hrun, hstep, hmem, by rw [hid, hnone], hp⟩
  have hresult := (unlock_follows_schedule hfounds hcalls).1
  rw [show h.last = some (.ofDays 104) from hlast] at hresult
  exact ⟨w₁, i, p, _, w, h, hfounds, hcalls, hlast, hpaid, hresult⟩

end Sample

end Vest
end ToolkitContracts
