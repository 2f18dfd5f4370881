import ToolkitContracts.Vest.Family
import Mathlib.Logic.Function.Basic

/-!
# What an issue row says is held for it

The column `locked` of an issue is set by a deposit, lowered by a split and by a payment, and
left as it is by `endissue`, which refunds it. What the contract owes for an issue is followed
along a run by a history variable, from the quantities that come in, move and go out. Without
`endissue` every row states what is owed for it; an `endissue` always leaves a finished row
that states what was refunded.
-/

namespace ToolkitContracts
namespace Vest

/-! ## What is owed -/

/-- What the contract owes for each issue id after a step: a deposit is owed in full, a split
moves the debt, and what is paid out is owed no longer. -/
def owedAfter (self : Name) (owed : ℕ → ℤ) (w : World State) (i : Ctx × Input Action)
    (w' : World State) : ℕ → ℤ :=
  match i.2 with
  | .notify n =>
    match born w w' with
    | some newId => Function.update owed newId n.quantity.amount
    | none => owed
  | .act (.transissue _ _ issueId quant) =>
    let rest := Function.update owed issueId (owed issueId - quant.amount)
    match born w w' with
    | some newId => Function.update rest newId quant.amount
    | none => rest
  | .act (.unlock _ _ issueId) =>
    Function.update owed issueId (owed issueId - paidOut self w i)
  | .act (.endissue _ _ issueId) =>
    Function.update owed issueId (owed issueId - paidOut self w i)
  | _ => owed

/-- The step ends an issue. -/
def EndsIssue : Ctx × Input Action → Prop
  | (_, .act (.endissue _ _ _)) => True
  | _ => False

instance (i : Ctx × Input Action) : Decidable (EndsIssue i) := by
  rcases i with ⟨ctx, n | a⟩
  · exact inferInstanceAs (Decidable False)
  · rcases a with _ | _ | _ | _ | _ | _ | _ | _ | _ | _ <;> dsimp only [EndsIssue] <;> infer_instance

/-- The sum of `locked` over all rows of a plan, whatever their status. -/
def lockedColumn (issues : Table VestIssue.issueId) (planId : ℕ) : ℤ :=
  issues.sum fun i => if i.planId = planId then i.locked.amount else 0

/-- Every row states what is owed for it, a finished one nothing, and the rows of a plan
together what the totals of the plan leave. -/
structure StatesOwed (owed : ℕ → ℤ) (s : State) : Prop where
  owed : ∀ i ∈ s.issues, i.locked.amount = owed i.issueId
  finished : ∀ i ∈ s.issues, i.status = .finished → i.locked.amount = 0
  total : ∀ p ∈ s.plans, lockedColumn s.issues p.id
    = p.totalIssued.amount - p.totalUnlocked.amount - p.totalRefunded.amount

/-! ## The column after an update -/

/-- The part of `StatesOwed` about single rows. -/
def RowsOwed (owed : ℕ → ℤ) (issues : Table VestIssue.issueId) : Prop :=
  ∀ i ∈ issues, i.locked.amount = owed i.issueId ∧ (i.status = .finished → i.locked.amount = 0)

section Rows
variable {owed owed' : ℕ → ℤ} {issues issues' : Table VestIssue.issueId} {i x : VestIssue}

/-- Storing a row keeps the other rows' debts when only its own changes. -/
theorem RowsOwed.put (h : RowsOwed owed issues) (hothers : ∀ k, k ≠ x.issueId → owed' k = owed k)
    (hx : x.locked.amount = owed' x.issueId) (hfinished : x.status = .finished → x.locked.amount = 0) :
    RowsOwed owed' (issues.put x) := by
  intro j hj
  rcases Table.mem_put.mp hj with rfl | ⟨hj, hne⟩
  · exact ⟨hx, hfinished⟩
  · rw [hothers _ hne]
    exact h j hj

theorem RowsOwed.put_same (h : RowsOwed owed issues) (hi : issues.find? x.issueId = some i)
    (hlocked : x.locked = i.locked) (hstatus : x.status = i.status) :
    RowsOwed owed (issues.put x) := by
  obtain ⟨hmem, hid⟩ := Table.find?_eq_some.mp hi
  have hrow := h i hmem
  refine h.put (fun _ _ => rfl) ?_ ?_
  · rw [hlocked, ← hid]
    exact hrow.1
  · rw [hlocked, hstatus]
    exact hrow.2

/-- When finished rows state nothing, the whole column sums up to what is locked. -/
theorem lockedColumn_eq (h : RowsOwed owed issues) (hstatus : ∀ i ∈ issues, i.status ≠ .terminated)
    (planId : ℕ) : lockedColumn issues planId = lockedOn issues planId := by
  apply Table.sum_congr
  intro i hi
  have hrow := (h i hi).2
  have hterm := hstatus i hi
  unfold VestIssue.lockedOf
  cases hs : i.status with
  | ongoing => simp
  | terminated => exact absurd hs hterm
  | finished =>
    rw [hrow hs]
    simp

theorem rowsOwed_of_statesOwed {s : State} (h : StatesOwed owed s) : RowsOwed owed s.issues :=
  fun i hi => ⟨h.owed i hi, h.finished i hi⟩

end Rows

/-! ## One step -/

section Step
variable {self : Name} {w w' : World State} {ctx : Ctx} {owed : ℕ → ℤ}

/-- No issue is created when every row was there before. -/
theorem born_eq_none (h : ∀ j ∈ w'.state.issues, ∃ i, w.state.issues.find? j.issueId = some i) :
    born w w' = none := by
  rw [born, Option.map_eq_none_iff, List.find?_eq_none]
  intro j hj
  obtain ⟨i, hi⟩ := h j hj
  simp [hi]

/-- The issue that is created is the new row that is stored. -/
theorem born_of_put {x : VestIssue} (hput : w'.state.issues = w.state.issues.put x)
    (hnew : w.state.issues.find? x.issueId = none) : born w w' = some x.issueId := by
  rw [born, hput, Table.find?_new_put hnew]
  rfl

/-- A payment lowers the row and the debt by the same amount, and the last one empties the
row. -/
theorem rowsOwed_of_payment {clock now : TimePoint} {plans : Table VestPlan.id}
    {issues : Table VestIssue.issueId} {issue : VestIssue} {total : ℤ}
    (h : RowsOwed owed issues) (hissue : issues.find? issue.issueId = some issue)
    (hsound : issue.Sound clock plans) (hongoing : issue.status = .ongoing)
    (hbounds : issue.unlocked.amount ≤ total ∧ total ≤ issue.issued.amount) :
    RowsOwed (Function.update owed issue.issueId
      (owed issue.issueId - (total - issue.unlocked.amount))) (issues.put (issuePaid now issue total)) := by
  obtain ⟨htotal, -, hremaining⟩ := i64_of_bounds hsound hbounds
  have hlocked := hsound.locked
  have hid : (issuePaid now issue total).issueId = issue.issueId := rfl
  have hafter : (issuePaid now issue total).locked.amount = issue.issued.amount - total := by
    show i64 (i64 (issue.issued.amount - total)) = _
    rw [hremaining, hremaining]
  refine h.put (fun k hk => Function.update_of_ne hk _ _) ?_ fun hfinished => ?_
  · rw [hid, Function.update_self, hafter, ← (h issue (Table.find?_eq_some.mp hissue).1).1]
    omega
  · -- a row is finished by the payment of everything only
    have hstatus : (if i64 total = issue.issued.amount then IssueStatus.finished else issue.status)
        = .finished := hfinished
    rw [htotal, hongoing] at hstatus
    rw [hafter]
    by_cases hall : total = issue.issued.amount
    · omega
    · rw [if_neg hall] at hstatus
      cases hstatus

/-- A split moves the debt with the quantity. -/
theorem rowsOwed_of_split {clock now : TimePoint} {plans : Table VestPlan.id}
    {issues : Table VestIssue.issueId} {issue : VestIssue} {quant zero : Asset} {newId : ℕ}
    {toReceiver : Name} {memo : List Char} (h : RowsOwed owed issues)
    (hissue : issues.find? issue.issueId = some issue) (hsound : issue.Sound clock plans)
    (hongoing : issue.status = .ongoing) (hpos : 0 < quant.amount)
    (hlocked : quant.amount ≤ issue.locked.amount) (hnew : issues.find? newId = none) :
    RowsOwed
      (Function.update (Function.update owed issue.issueId (owed issue.issueId - quant.amount))
        newId quant.amount)
      (let issues' := issues.put (issueSplitOff now issue newId toReceiver quant zero memo)
      if issue.locked.amount = quant.amount then issues'.erase issue.issueId
      else issues'.put (issueRemainder now issue quant)) := by
  have hnewId : ∀ j ∈ issues, j.issueId ≠ newId := Table.find?_eq_none.mp hnew
  have hmem := (Table.find?_eq_some.mp hissue).1
  intro j hj
  rcases (mem_split_iff hissue hnew).mp hj with rfl | ⟨-, rfl⟩ | ⟨hj, hne⟩
  · -- the new row
    have hid : (issueSplitOff now issue newId toReceiver quant zero memo).issueId = newId := rfl
    rw [hid, Function.update_self]
    refine ⟨rfl, fun hfinished => ?_⟩
    have hstatus : issue.status = .finished := hfinished
    rw [hongoing] at hstatus
    cases hstatus
  · -- what is left of the old one
    have hid : (issueRemainder now issue quant).issueId = issue.issueId := rfl
    rw [hid, Function.update_of_ne (hnewId issue hmem), Function.update_self,
      (split_exact now hsound hpos hlocked).1, (h issue hmem).1]
    refine ⟨rfl, fun hfinished => ?_⟩
    have hstatus : issue.status = .finished := hfinished
    rw [hongoing] at hstatus
    cases hstatus
  · rw [Function.update_of_ne (hnewId j hj), Function.update_of_ne hne]
    exact h j hj

theorem rowsOwed_of_run {inp : Input Action} {outs : List Transfer} (hsolvent : Solvent w)
    (h : RowsOwed owed w.state.issues) (hends : ¬ EndsIssue (ctx, inp))
    (hrun : (contract self).run ctx inp w.state = .ok (w'.state, outs)) :
    RowsOwed (owedAfter self owed w (ctx, inp) w') w'.state.issues := by
  have hm := move_of_run hrun
  generalize hw : w'.state = s' at hm
  have hold : w'.state.issues = w.state.issues → born w w' = none := by
    intro hsame
    apply born_eq_none
    intro j hj
    rw [hsame] at hj
    exact ⟨j, Table.find?_self hj⟩
  cases hm with
  | init | addplan | setplanowner | enableplan => exact h
  | ignore | payFee =>
    have hborn := hold (by rw [hw])
    show RowsOwed (match born w w' with
      | some newId => Function.update owed newId _
      | none => owed) _
    rw [hborn]
    exact h
  | deposit n plan receiver days issueId total zero hto hplan hstatus hdays hbank hsymbol hpos
      htotal hzero hnew hid =>
    have hborn : born w w' = some issueId := born_of_put (congrArg State.issues hw) hnew
    show RowsOwed (match born w w' with
      | some newId => Function.update owed newId n.quantity.amount
      | none => owed) _
    rw [hborn]
    have hself : Function.update owed issueId n.quantity.amount issueId = n.quantity.amount :=
      Function.update_self ..
    show RowsOwed (Function.update owed issueId n.quantity.amount) _
    exact h.put (fun k hk => Function.update_of_ne hk _ _) hself.symm
      fun hfinished => by cases hfinished
  | setreceiver issue receiver hissue => exact h.put_same hissue rfl rfl
  | setfirstdays issue days hissue hdays hauth => exact h.put_same hissue rfl rfl
  | transissue issue toReceiver quant zero newId memo hissue hongoing hpos hsymbol hlocked hissued
      hzero hnew hid =>
    have hmem := (Table.find?_eq_some.mp hissue).1
    have hborn : born w w' = some newId := born_of_split (congrArg State.issues hw) hissue hnew
    show RowsOwed (match born w w' with
      | some newId => Function.update (Function.update owed issue.issueId _) newId quant.amount
      | none => _) _
    rw [hborn]
    exact rowsOwed_of_split h hissue (hsolvent.accounted.issue issue hmem hongoing) hongoing hpos
      hlocked hnew
  | endissue => exact absurd trivial hends
  | unlock issuer issue plan total quantity hissue hplan hongoing henabled hdays htotal hremaining
      hpos hquantity =>
    have hsound := hsolvent.accounted.issue issue (Table.find?_eq_some.mp hissue).1 hongoing
    obtain ⟨hbounds, -⟩ :=
      payment_outstanding ctx.now hsolvent.accounted hissue hongoing hplan htotal hpos
    have hpaid : paidOut self w (ctx, .act (.unlock issuer issue.planId issue.issueId))
        = total - issue.unlocked.amount := by
      rw [paidOut_of_run hrun, (Asset.new_eq_ok.mp hquantity).1, i64_i64,
        (i64_of_bounds hsound hbounds).2.1]
    show RowsOwed (Function.update owed issue.issueId (owed issue.issueId - paidOut self w _)) _
    rw [hpaid]
    exact rowsOwed_of_payment h hissue hsound hongoing hbounds
  | delfinissues issueIds issues hissues =>
    exact fun j hj => h j ((mem_delfinissuesFrom hissues).1 j hj)

/-- Rows that state what is owed make up the plan totals. -/
theorem statesOwed_of_rows (hsolvent : Solvent w) (h : RowsOwed owed w.state.issues) :
    StatesOwed owed w.state := by
  refine ⟨fun i hi => (h i hi).1, fun i hi => (h i hi).2, fun p hp => ?_⟩
  rw [lockedColumn_eq h hsolvent.accounted.status]
  exact (hsolvent.accounted.balance p hp).symm

/-- `endissue` leaves a finished row that still states what was refunded. -/
theorem not_statesOwed_of_endissue {inp : Input Action} {outs : List Transfer}
    {owed' : ℕ → ℤ} (hsolvent : Solvent w) (hends : EndsIssue (ctx, inp))
    (hrun : (contract self).run ctx inp w.state = .ok (w'.state, outs)) :
    ¬ StatesOwed owed' w'.state := by
  have hm := move_of_run hrun
  generalize w'.state = s' at hm
  intro hstates
  cases hm with
  | endissue issuer issue plan total hissue hplan hstatus henabled htotal =>
    have hmem := (Table.find?_eq_some.mp hissue).1
    have hongoing := ongoing_of_not_finished hsolvent.accounted hissue hstatus
    have hpos := (hsolvent.accounted.issue issue hmem hongoing).pos
    have hzero := hstates.finished { issue with status := .finished, updatedAt := ctx.now }
      (Table.mem_put_self _ _) rfl
    have hlocked : issue.locked.amount = 0 := hzero
    omega
  | ignore | payFee | deposit | init | setreceiver | addplan | setplanowner | enableplan
  | transissue | unlock | delfinissues | setfirstdays => exact hends

end Step

/-! ## Whole runs -/

section Runs
variable {self : Name} {w w' : World State} {owed owed' : ℕ → ℤ}

/-- A step keeps the rows stating what is owed exactly when it ends no issue. -/
theorem statesOwed_iff_of_step {i : Ctx × Input Action} (hsolvent : Solvent w)
    (h : StatesOwed owed w.state)
    (hs : Transition.recording (contract self).step (owedAfter self) (w, owed) i = .ok (w', owed')) :
    StatesOwed owed' w'.state ↔ ¬ EndsIssue i := by
  obtain ⟨hstep, hrecord⟩ := Transition.recording_eq_ok.mp hs
  obtain ⟨outs, hrun⟩ := (contract self).run_of_step hstep
  constructor
  · intro hstates hends
    exact not_statesOwed_of_endissue hsolvent hends hrun hstates
  · intro hends
    have hrows := rowsOwed_of_run hsolvent (rowsOwed_of_statesOwed h) hends hrun
    have howed : owed' = owedAfter self owed w i w' := hrecord
    rw [howed]
    exact statesOwed_of_rows (solvent_of_step hsolvent hstep) hrows

/-- In every run without `endissue` every row states what the contract owes for it, finished
rows nothing, and the rows of a plan together what the totals of the plan leave. -/
theorem rows_state_owed {clock : TimePoint} {is : List (Ctx × Input Action)}
    (hrun : Transition.Run (Transition.recording (contract self).step (owedAfter self))
      (fun _ i => ¬ EndsIssue i) (genesis clock, fun _ => 0) is (w, owed)) :
    StatesOwed owed w.state := by
  have h : Solvent w ∧ StatesOwed owed w.state := by
    apply hrun.invariant (P := fun p => Solvent p.1 ∧ StatesOwed p.2 p.1.state)
    · intro p i p' h hends hs
      have hstep := (Transition.recording_eq_ok.mp hs).1
      exact ⟨solvent_of_step h.1 hstep, (statesOwed_iff_of_step h.1 h.2 hs).mpr hends⟩
    · have hrows : RowsOwed (fun _ => 0) (genesis clock).state.issues :=
        fun i hi => absurd hi (Table.not_mem_empty i)
      exact ⟨solvent_genesis clock, statesOwed_of_rows (solvent_genesis clock) hrows⟩
  exact h.2

end Runs

/-! ## An issue that is ended -/

namespace Sample

/-- After the sample run the issuer ends the issue, of which 50 units are locked. -/
def endInputs : List (Ctx × Input Action) :=
  inputs ++ [(.signed alice 104, .act (.endissue 1 alice 1))]

/-- The ended issue is finished, and states 50 units that were refunded. -/
theorem ended_row_states_refund :
    ¬ ∀ (is : List (Ctx × Input Action)) (w : World State) (owed : ℕ → ℤ),
      Transition.Run (Transition.recording (contract account).step (owedAfter account))
        Transition.Unrestricted (start, fun _ => 0) is (w, owed) → StatesOwed owed w.state := by
  intro hclaim
  have hreach : Transition.Reaches
      (Transition.recording (contract account).step (owedAfter account)) Transition.Unrestricted
      (fun p => ∃ i ∈ p.1.state.issues.find? 1, i.status = .finished ∧ i.locked.amount = 50)
      endInputs (start, fun _ => 0) := by decide
  obtain ⟨⟨w, owed⟩, hrun, i, hi, hfinished, hlocked⟩ := Transition.run_of_reaches hreach
  have hzero := (hclaim _ w owed hrun).finished i (Table.find?_eq_some.mp hi).1 hfinished
  omega

/-- Without the `endissue` the row states the 50 units that are owed. -/
theorem rows_state_owed_sample :
    ∃ w owed, Transition.Run (Transition.recording (contract account).step (owedAfter account))
        (fun _ i => ¬ EndsIssue i) (start, fun _ => 0) inputs (w, owed) ∧ owed 1 = 50 ∧
      StatesOwed owed w.state := by
  have hreach : Transition.Reaches
      (Transition.recording (contract account).step (owedAfter account))
      (fun _ i => ¬ EndsIssue i) (fun p => p.2 1 = 50) inputs (start, fun _ => 0) := by
    decide
  obtain ⟨⟨w, owed⟩, hrun, howed⟩ := Transition.run_of_reaches hreach
  exact ⟨w, owed, hrun, howed, rows_state_owed hrun⟩

end Sample

end Vest
end ToolkitContracts
