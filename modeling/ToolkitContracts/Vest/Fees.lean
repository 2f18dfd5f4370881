import ToolkitContracts.Vest.Owed

/-!
# Fees of plans

A plan that is created under a fee is `PENDING` until the fee is paid. Which plans were
created under a fee, and which of them an accepted `plan:` transfer named, is followed along a
run by a history variable, while the fee and its receiver may change at any time. A plan is
`PENDING` exactly as long as no payment named it, it is paid at most once, and no issue is made
under it before.
-/

namespace ToolkitContracts
namespace Vest

/-! ## Plans and payments -/

/-- Whether the plan `k` is pending, if there is one. -/
def pendingOf (plans : Table VestPlan.id) (k : ℕ) : Option Bool :=
  (plans.find? k).map fun p => decide (p.status = .pending)

/-- The plan that a transfer with a `plan:` memo to the contract names. -/
def paidPlan (self : Name) (s : State) (n : Notice) : Option ℕ :=
  if n.sender = self ∨ n.recipient ≠ self then none
  else
    let params := (StringView.ofText n.memo).split ':'
    if (params.getD 0 default).chars = "plan".toList then
      (memoPlanId n (params.getD 1 default) s).toOption
    else none

/-- The memo is `plan:` with the id of the plan, or with nothing, and then the plan is the last
one that the sender added. -/
def NamesPlan (s : State) (n : Notice) (planId : ℕ) : Prop :=
  ∃ head param, (StringView.ofText n.memo).split ':' = [head, param] ∧
    head.chars = "plan".toList ∧
    ((param.size ≠ 0 ∧ toUint64 param "plan_id" = .ok planId) ∨
      (param.size = 0 ∧ ∃ a, s.accounts.find? n.sender.raw = some a ∧ a.lastPlanId = planId))

/-- The transfer `n` pays the fee of the plan `planId`: FLON from `flon.token`, as much as the
fee in force, all of it forwarded to the fee receiver in force. -/
structure PaysFee (s : State) (n : Notice) (planId : ℕ) (s' : State) (outs : List Transfer) :
    Prop where
  bank : n.bank = sysBank
  symbol : n.quantity.symbol = sysSymbol
  amount : n.quantity.amount = s.gstate.planFee.amount
  names : NamesPlan s n planId
  forwarded : outs = [⟨n.bank, s.gstate.feeReceiver, n.quantity, n.memo⟩]
  before : pendingOf s.plans planId = some true
  after : pendingOf s'.plans planId = some false

/-- The plans that were created under a fee, and the plans that accepted payments named. -/
structure Fees where
  charged : List ℕ
  paid : List ℕ

/-- The id of the plan that a step created, if it created one. -/
def bornPlan (w w' : World State) : Option ℕ :=
  (w'.state.plans.rows.find? fun p => (w.state.plans.find? p.id).isNone).map VestPlan.id

def Fees.record (self : Name) (h : Fees) (w : World State) (i : Ctx × Input Action)
    (w' : World State) : Fees :=
  match i.2 with
  | .notify n => { h with paid := h.paid ++ (paidPlan self w.state n).toList }
  | .act (.addplan ..) =>
    if w.state.gstate.planFee.amount ≠ 0 then
      { h with charged := h.charged ++ (bornPlan w w').toList }
    else h
  | _ => h

/-- The plans charged a fee are pending until they are paid, no others are pending, no issue
is under a pending plan, and no plan is paid twice. -/
structure Closed (h : Fees) (s : State) : Prop where
  charged : ∀ k ∈ h.charged, pendingOf s.plans k = some (decide (k ∉ h.paid))
  pending : ∀ k, pendingOf s.plans k = some true → k ∈ h.charged
  issues : ∀ i ∈ s.issues, pendingOf s.plans i.planId = some false
  paid : ∀ k ∈ h.paid, k ∈ h.charged
  once : h.paid.Nodup

/-! ## Pending plans after an update -/

section Pending
variable {plans : Table VestPlan.id} {p p' : VestPlan} {k : ℕ}

theorem pendingOf_put (p' : VestPlan) (k : ℕ) : pendingOf (plans.put p') k =
    if k = p'.id then some (decide (p'.status = .pending)) else pendingOf plans k := by
  unfold pendingOf
  rw [Table.find?_put]
  by_cases hk : k = p'.id
  · rw [if_pos hk, if_pos hk]
    rfl
  · rw [if_neg hk, if_neg hk]

theorem pendingOf_find (h : plans.find? k = some p) :
    pendingOf plans k = some (decide (p.status = .pending)) := by
  rw [pendingOf, h]
  rfl

theorem pendingOf_none (h : plans.find? k = none) : pendingOf plans k = none := by
  rw [pendingOf, h]
  rfl

/-- Replacing a plan by one that is pending as well, or neither, changes nothing. -/
theorem pendingOf_put_same (p' : VestPlan) (h : plans.find? p'.id = some p)
    (hstatus : p'.status = .pending ↔ p.status = .pending) (k : ℕ) :
    pendingOf (plans.put p') k = pendingOf plans k := by
  rw [pendingOf_put]
  by_cases hk : k = p'.id
  · rw [if_pos hk, hk, pendingOf_find h]
    simp [hstatus]
  · rw [if_neg hk]

end Pending

/-! ## One step -/

section Step
variable {self : Name} {ctx : Ctx} {s s' : State} {outs : List Transfer}

theorem memoPlanId_eq_ok {n : Notice} {param : StringView} {planId : ℕ}
    (h : memoPlanId n param s = .ok planId) :
    (param.size ≠ 0 ∧ toUint64 param "plan_id" = .ok planId) ∨
    (param.size = 0 ∧ ∃ a, s.accounts.find? n.sender.raw = some a ∧ a.lastPlanId = planId) := by
  rw [memoPlanId] at h
  by_cases hsize : param.size = 0
  · rw [if_pos hsize] at h
    simp only [bind_eq_ok, require_eq_ok, check_eq_ok, exists_const, pure_eq_ok] at h
    obtain ⟨a, ha, -, rfl⟩ := h
    exact Or.inr ⟨hsize, a, ha, rfl⟩
  · rw [if_neg hsize] at h
    simp only [bind_eq_ok, check_eq_ok, exists_const, pure_eq_ok] at h
    obtain ⟨k, hk, -, rfl⟩ := h
    exact Or.inl ⟨hsize, hk⟩

/-- What a payment leaves: the plan is enabled, and the issues are as before. -/
theorem paysFee_of_ontransferPlan {n : Notice} {params : List StringView}
    (hparams : params = (StringView.ofText n.memo).split ':')
    (hhead : (params.getD 0 default).chars = "plan".toList)
    (h : ontransferPlan ctx n params s = .ok (s', outs)) :
    ∃ planId, memoPlanId n (params.getD 1 default) s = .ok planId ∧
      PaysFee s n planId s' outs ∧ s'.issues = s.issues ∧
      ∀ k, k ≠ planId → pendingOf s'.plans k = pendingOf s.plans k := by
  simp only [ontransferPlan, bind_eq_ok, check_eq_ok, require_eq_ok, pure_eq_ok, exists_const,
    Prod.mk.injEq] at h
  obtain ⟨hlen, hbank, hsymbol, hamount, planId, hid, plan, hplan, hstatus, rfl, rfl⟩ := h
  have hkey : plan.id = planId := (Table.find?_eq_some.mp hplan).2
  obtain ⟨head, param, hsplit⟩ := List.length_eq_two.mp hlen
  rw [hsplit] at hhead hid
  refine ⟨planId, ?_, ⟨hbank, hsymbol, hamount, ?_, rfl, ?_, ?_⟩, rfl, fun k hk => ?_⟩
  · rw [hsplit]
    exact hid
  · exact ⟨head, param, hparams.symm.trans hsplit, hhead, memoPlanId_eq_ok hid⟩
  · rw [pendingOf_find hplan, hstatus]
    rfl
  · rw [← hkey]
    refine (pendingOf_put _ _).trans ?_
    exact if_pos rfl
  · refine (pendingOf_put _ _).trans ?_
    exact if_neg fun heq => hk (heq.trans hkey)

/-- A successful notification that names no plan to pay is ignored or a deposit. -/
theorem move_of_not_paid {n : Notice} (h : ontransfer self ctx n s = .ok (s', outs))
    (hnone : paidPlan self s n = none) :
    (∀ k, pendingOf s'.plans k = pendingOf s.plans k) ∧
    ∀ i ∈ s'.issues, (∃ j ∈ s.issues, j.planId = i.planId) ∨
      pendingOf s.plans i.planId = some false := by
  rw [ontransfer] at h
  rw [paidPlan] at hnone
  by_cases hignored : n.sender = self ∨ n.recipient ≠ self
  · rw [if_pos hignored, Except.ok.injEq, Prod.mk.injEq] at h
    rw [← h.1]
    exact ⟨fun _ => rfl, fun i hi => Or.inl ⟨i, hi, rfl⟩⟩
  · rw [if_neg hignored] at h hnone
    simp only [bind_eq_ok, check_eq_ok, exists_const] at h
    obtain ⟨-, -, h⟩ := h
    split at h
    · next hhead =>
      -- an accepted `plan:` memo names a plan
      obtain ⟨planId, hid, -⟩ := paysFee_of_ontransferPlan rfl hhead h
      rw [if_pos hhead, hid] at hnone
      cases hnone
    · split at h
      · simp only [ontransferIssue, bind_eq_ok, check_eq_ok, require_eq_ok, pure_eq_ok,
          exists_const, Prod.mk.injEq, emplace_eq_ok] at h
        obtain ⟨-, receiver, -, planId, -, days, -, plan, hplan, henabled, -, -, -, -, -, -, total,
          -, k, -, zero, -, issues, ⟨-, rfl⟩, rfl, -⟩ := h
        have hkey : plan.id = planId := (Table.find?_eq_some.mp hplan).2
        have hfind := Table.find?_key hplan
        refine ⟨fun j => ?_, fun i hi => ?_⟩
        · apply pendingOf_put_same { plan with totalIssued := total, updatedAt := ctx.now }
          · exact hfind
          · rfl
        · rcases Table.mem_put.mp hi with rfl | ⟨hi, -⟩
          · refine Or.inr ((pendingOf_find hplan).trans ?_)
            rw [henabled]
            rfl
          · exact Or.inl ⟨i, hi, rfl⟩
      · cases h

/-- An accepted transfer that names a plan to pay pays its fee. -/
theorem paysFee_of_ontransfer {n : Notice} {planId : ℕ}
    (h : ontransfer self ctx n s = .ok (s', outs)) (hpaid : paidPlan self s n = some planId) :
    PaysFee s n planId s' outs ∧ s'.issues = s.issues ∧
    ∀ k, k ≠ planId → pendingOf s'.plans k = pendingOf s.plans k := by
  rw [ontransfer] at h
  rw [paidPlan] at hpaid
  by_cases hignored : n.sender = self ∨ n.recipient ≠ self
  · rw [if_pos hignored] at hpaid
    cases hpaid
  · rw [if_neg hignored] at h hpaid
    simp only [bind_eq_ok, check_eq_ok, exists_const] at h
    obtain ⟨-, -, h⟩ := h
    by_cases hhead : (((StringView.ofText n.memo).split ':').getD 0 default).chars = "plan".toList
    · rw [if_pos hhead] at h hpaid
      obtain ⟨k, hid, hpays, hrest⟩ := paysFee_of_ontransferPlan rfl hhead h
      rw [hid] at hpaid
      have hk : k = planId := Option.some.inj hpaid
      rw [← hk]
      exact ⟨hpays, hrest⟩
    · rw [if_neg hhead] at hpaid
      cases hpaid

/-- `addplan` stores a new plan, pending when there is a fee. -/
theorem plan_of_addplan {owner : Name} {title : List Char} {contract : Name} {symbol : Symbol}
    {days : ℕ} {times : Int64Arg}
    (h : addplan ctx owner title contract symbol days times s = .ok (s', outs)) :
    ∃ p, s'.plans = s.plans.put p ∧ s.plans.find? p.id = none ∧ s'.issues = s.issues ∧
      p.status = if s.gstate.planFee.amount ≠ 0 then .pending else .enabled := by
  simp only [addplan, bind_eq_ok, check_eq_ok, pure_eq_ok, exists_const, Prod.mk.injEq,
    emplace_eq_ok, Ctx.requireAuth_eq_ok] at h
  obtain ⟨-, -, -, -, -, -, -, k, -, zero, -, plans, ⟨hnew, rfl⟩, rfl, -⟩ := h
  exact ⟨_, rfl, hnew, rfl, rfl⟩

/-- No other action makes a plan pending or ends that. -/
theorem pendingOf_of_act {a : Action} (h : (contract self).run ctx (.act a) s = .ok (s', outs))
    (hother : ∀ owner title contract symbol days times,
      a ≠ .addplan owner title contract symbol days times) :
    (∀ k, pendingOf s'.plans k = pendingOf s.plans k) ∧
    ∀ i ∈ s'.issues, ∃ j ∈ s.issues, j.planId = i.planId := by
  have hm := move_of_exec h
  -- a row that replaces another one is under the same plan
  have hput : ∀ {issue x : VestIssue}, s.issues.find? issue.issueId = some issue →
      x.planId = issue.planId → ∀ i ∈ s.issues.put x, ∃ j ∈ s.issues, j.planId = i.planId := by
    intro issue x hissue hplan i hi
    rcases Table.mem_put.mp hi with rfl | ⟨hi, -⟩
    · exact ⟨issue, (Table.find?_eq_some.mp hissue).1, hplan.symm⟩
    · exact ⟨i, hi, rfl⟩
  have hsame : ∀ i ∈ s.issues, ∃ j ∈ s.issues, j.planId = i.planId := fun i hi => ⟨i, hi, rfl⟩
  cases hm with
  | init => exact ⟨fun _ => rfl, hsame⟩
  | addplan => exact absurd rfl (hother _ _ _ _ _ _)
  | setreceiver issue receiver hissue => exact ⟨fun _ => rfl, hput hissue rfl⟩
  | setfirstdays issue days hissue => exact ⟨fun _ => rfl, hput hissue rfl⟩
  | setplanowner plan newOwner hplan =>
    exact ⟨pendingOf_put_same { plan with owner := newOwner, updatedAt := ctx.now } hplan Iff.rfl,
      hsame⟩
  | enableplan plan enabled hplan hstatus =>
    refine ⟨pendingOf_put_same { plan with
      status := if enabled then .enabled else .disabled
      updatedAt := ctx.now } hplan ?_, hsame⟩
    cases enabled <;> simp [hstatus]
  | transissue issue toReceiver quant zero newId memo hissue hongoing hpos hsymbol hlocked hissued
      hzero hnew hid =>
    refine ⟨fun _ => rfl, fun i hi => ?_⟩
    have hmem := (Table.find?_eq_some.mp hissue).1
    rcases (mem_split_iff hissue hnew).mp hi with rfl | ⟨-, rfl⟩ | ⟨hi, -⟩
    · exact ⟨issue, hmem, rfl⟩
    · exact ⟨issue, hmem, rfl⟩
    · exact hsame i hi
  | endissue issuer issue plan total hissue hplan =>
    have hfind := Table.find?_key hplan
    exact ⟨pendingOf_put_same { plan with totalRefunded := total, updatedAt := ctx.now } hfind
      Iff.rfl, hput hissue rfl⟩
  | unlock issuer issue plan total quantity hissue hplan =>
    have hfind := Table.find?_key hplan
    exact ⟨pendingOf_put_same (planPaid ctx.now plan (i64 (total - issue.unlocked.amount))) hfind
      Iff.rfl, hput hissue rfl⟩
  | delfinissues issueIds issues hissues =>
    refine ⟨fun _ => rfl, fun i hi => hsame i ?_⟩
    have hi' : i ∈ issues := hi
    rw [(delfinissuesFrom_eq hissues).1] at hi'
    exact (Table.mem_eraseAll.mp hi').1

end Step

/-! ## Whole runs -/

section Runs
variable {self : Name} {w w' : World State} {h h' : Fees} {s s' : State} {k : ℕ}

theorem bornPlan_of_put {p : VestPlan} (hput : w'.state.plans = w.state.plans.put p)
    (hnew : w.state.plans.find? p.id = none) : bornPlan w w' = some p.id := by
  rw [bornPlan, hput, Table.find?_new_put hnew]
  rfl

/-- A step that leaves which plans are pending, and puts issues under no pending plan. -/
theorem Closed.keep (hc : Closed h s) (hsame : ∀ k, pendingOf s'.plans k = pendingOf s.plans k)
    (hissues : ∀ i ∈ s'.issues, (∃ j ∈ s.issues, j.planId = i.planId) ∨
      pendingOf s.plans i.planId = some false) : Closed h s' where
  charged := by
    intro k hk
    rw [hsame]
    exact hc.charged k hk
  pending := by
    intro k hk
    rw [hsame] at hk
    exact hc.pending k hk
  issues := by
    intro i hi
    rw [hsame]
    rcases hissues i hi with ⟨j, hj, hplan⟩ | hfalse
    · rw [← hplan]
      exact hc.issues j hj
    · exact hfalse
  paid := hc.paid
  once := hc.once

/-- A payment of a plan that was charged and not paid. -/
theorem Closed.pay (hc : Closed h s) (hbefore : pendingOf s.plans k = some true)
    (hafter : pendingOf s'.plans k = some false)
    (hothers : ∀ j, j ≠ k → pendingOf s'.plans j = pendingOf s.plans j)
    (hissues : s'.issues = s.issues) : Closed { h with paid := h.paid ++ [k] } s' := by
  have hcharged := hc.pending k hbefore
  have hunpaid : k ∉ h.paid := by
    have hstatus := hc.charged k hcharged
    rw [hbefore, Option.some.injEq] at hstatus
    exact of_decide_eq_true hstatus.symm
  refine ⟨fun j hj => ?_, fun j hj => ?_, fun i hi => ?_, fun j hj => ?_, ?_⟩
  · by_cases hjk : j = k
    · rw [hjk, hafter]
      simp
    · rw [hothers j hjk, hc.charged j hj]
      simp [hjk]
  · have hjk : j ≠ k := by
      intro heq
      rw [heq, hafter] at hj
      cases hj
    rw [hothers j hjk] at hj
    exact hc.pending j hj
  · rw [hissues] at hi
    have hfalse := hc.issues i hi
    have hik : i.planId ≠ k := by
      intro heq
      rw [heq, hbefore] at hfalse
      cases hfalse
    rw [hothers _ hik]
    exact hfalse
  · rcases List.mem_append.mp hj with hj | hj
    · exact hc.paid j hj
    · rw [List.mem_singleton.mp hj]
      exact hcharged
  · refine List.nodup_append.mpr ⟨hc.once, List.nodup_singleton k, fun a ha b hb => ?_⟩
    rw [List.mem_singleton.mp hb]
    exact fun heq => hunpaid (heq ▸ ha)

/-- A new plan is charged when there is a fee, and is not pending when there is none. -/
theorem Closed.add (hc : Closed h s) {p : VestPlan} (hput : s'.plans = s.plans.put p)
    (hnew : s.plans.find? p.id = none) (hissues : s'.issues = s.issues) {fee : ℤ}
    (hstatus : p.status = if fee ≠ 0 then .pending else .enabled) :
    Closed (if fee ≠ 0 then { h with charged := h.charged ++ [p.id] } else h) s' := by
  have hnone := pendingOf_none hnew
  have hcharged : p.id ∉ h.charged := by
    intro hmem
    rw [hc.charged _ hmem] at hnone
    cases hnone
  have hother : ∀ j, j ≠ p.id → pendingOf s'.plans j = pendingOf s.plans j := by
    intro j hj
    rw [hput, pendingOf_put, if_neg hj]
  have hself : pendingOf s'.plans p.id = some (decide (fee ≠ 0)) := by
    rw [hput, pendingOf_put, if_pos rfl, hstatus]
    by_cases hfee : fee ≠ 0
    · simp [hfee]
    · simp [hfee]
  have hold : ∀ i ∈ s'.issues, pendingOf s'.plans i.planId = some false := by
    intro i hi
    rw [hissues] at hi
    have hfalse := hc.issues i hi
    rw [hother, hfalse]
    intro heq
    rw [heq, hnone] at hfalse
    cases hfalse
  have hkeep : ∀ j ∈ h.charged, pendingOf s'.plans j = some (decide (j ∉ h.paid)) := by
    intro j hj
    rw [hother j fun heq => hcharged (heq ▸ hj)]
    exact hc.charged j hj
  by_cases hfee : fee ≠ 0
  · rw [if_pos hfee]
    refine ⟨fun j hj => ?_, fun j hj => ?_, hold, fun j hj => ?_, hc.once⟩
    · rcases List.mem_append.mp hj with hj | hj
      · exact hkeep j hj
      · have hunpaid : p.id ∉ h.paid := fun hmem => hcharged (hc.paid _ hmem)
        rw [List.mem_singleton.mp hj, hself]
        simp [hfee, hunpaid]
    · by_cases hjp : j = p.id
      · rw [hjp]
        simp
      · rw [hother j hjp] at hj
        exact List.mem_append_left _ (hc.pending j hj)
    · exact List.mem_append_left _ (hc.paid j hj)
  · rw [if_neg hfee]
    refine ⟨hkeep, fun j hj => ?_, hold, hc.paid, hc.once⟩
    by_cases hjp : j = p.id
    · rw [hjp, hself] at hj
      simp [hfee] at hj
    · rw [hother j hjp] at hj
      exact hc.pending j hj

/-- Every step keeps unpaid plans closed. -/
theorem closed_of_step {i : Ctx × Input Action} (hc : Closed h w.state)
    (hs : Transition.recording (contract self).step (Fees.record self) (w, h) i = .ok (w', h')) :
    Closed h' w'.state := by
  obtain ⟨hstep, hrecord⟩ := Transition.recording_eq_ok.mp hs
  obtain ⟨outs, hrun⟩ := (contract self).run_of_step hstep
  have hrec : h' = h.record self w i w' := hrecord
  rw [hrec]
  obtain ⟨ctx, inp⟩ := i
  cases inp with
  | notify n =>
    show Closed { h with paid := h.paid ++ (paidPlan self w.state n).toList } _
    cases hpaid : paidPlan self w.state n with
    | none =>
      obtain ⟨hsame, hissues⟩ := move_of_not_paid hrun hpaid
      rw [Option.toList_none, List.append_nil]
      exact hc.keep hsame hissues
    | some k =>
      obtain ⟨hpays, hissues, hothers⟩ := paysFee_of_ontransfer hrun hpaid
      exact hc.pay hpays.before hpays.after hothers hissues
  | act a =>
    cases a with
    | addplan owner title contract symbol days times =>
      obtain ⟨p, hput, hnew, hissues, hstatus⟩ := plan_of_addplan hrun
      show Closed (if w.state.gstate.planFee.amount ≠ 0 then
        { h with charged := h.charged ++ (bornPlan w w').toList } else h) _
      rw [bornPlan_of_put hput hnew]
      exact hc.add hput hnew hissues hstatus
    | init | setreceiver | setplanowner | enableplan | transissue | endissue | unlock | delfinissues
    | setfirstdays =>
      have hother := pendingOf_of_act hrun fun _ _ _ _ _ _ hc => by cases hc
      exact hc.keep hother.1 fun i hi => Or.inl (hother.2 i hi)

theorem closed_genesis (clock : TimePoint) : Closed ⟨[], []⟩ (genesis clock).state where
  charged := fun k hk => absurd hk List.not_mem_nil
  pending := fun k hk => by cases hk
  issues := fun i hi => absurd hi (Table.not_mem_empty i)
  paid := fun k hk => absurd hk List.not_mem_nil
  once := List.nodup_nil

/-- Along every run a plan that was created under a fee is pending exactly as long as no
accepted payment named it, it is paid at most once, and no issue is under it before. A payment
that is accepted is in FLON from `flon.token`, of the amount of the fee in force, and all of
it goes to the fee receiver in force. `enableplan` and `setplanowner` leave which plans are
pending. -/
theorem unpaid_plans_closed {clock : TimePoint} {is : List (Ctx × Input Action)}
    (hrun : Transition.Run (Transition.recording (contract self).step (Fees.record self))
      Transition.Unrestricted (genesis clock, ⟨[], []⟩) is (w, h)) :
    (∀ k ∈ h.charged, ∃ p, w.state.plans.find? k = some p ∧ (p.status = .pending ↔ k ∉ h.paid)) ∧
    h.paid.Nodup ∧
    (∀ i ∈ w.state.issues, i.planId ∈ h.charged → i.planId ∈ h.paid) ∧
    (∀ ctx n s' outs planId, (contract self).run ctx (.notify n) w.state = .ok (s', outs) →
      paidPlan self w.state n = some planId → PaysFee w.state n planId s' outs) ∧
    ∀ ctx a s' outs, (contract self).run ctx (.act a) w.state = .ok (s', outs) →
      (∃ owner planId enabled, a = .enableplan owner planId enabled) ∨
      (∃ owner planId newOwner, a = .setplanowner owner planId newOwner) →
      ∀ k, pendingOf s'.plans k = pendingOf w.state.plans k := by
  have hc : Closed h w.state :=
    hrun.invariant (P := fun p => Closed p.2 p.1.state)
      (fun _ _ _ hc _ hs => closed_of_step hc hs) (closed_genesis clock)
  refine ⟨fun k hk => ?_, hc.once, fun i hi hcharged => ?_, ?_, ?_⟩
  · obtain ⟨p, hp, hstatus⟩ := Option.map_eq_some_iff.mp (hc.charged k hk)
    refine ⟨p, hp, ?_⟩
    rw [decide_eq_decide] at hstatus
    exact hstatus
  · have hfalse := hc.issues i hi
    rw [hc.charged _ hcharged, Option.some.injEq, decide_eq_false_iff_not, not_not] at hfalse
    exact hfalse
  · intro ctx n s' outs planId hcode hpaid
    exact (paysFee_of_ontransfer hcode hpaid).1
  · intro ctx a s' outs hcode haction
    refine (pendingOf_of_act hcode fun owner title contract symbol days times hadd => ?_).1
    rcases haction with ⟨_, _, _, rfl⟩ | ⟨_, _, _, rfl⟩
    · cases hadd
    · cases hadd

end Runs

/-! ## A fee in another symbol -/

namespace Sample

/-- The contract charges `fee`, and Alice adds a plan. -/
def feeInputs (fee : Asset) : List (Ctx × Input Action) :=
  [(.signed account 100, .act (.init carol fee carol)),
   (.signed alice 100, .act (.addplan alice [] sysBank sysSymbol 1 (int64 10)))]

/-- Alice pays 100 units of FLON for her last plan. -/
def feeNotice : Notice := ⟨sysBank, alice, account, units 100, "plan:".toList, deposit.2.valid⟩

/-- A fee of 100 units of another token. -/
def otherFee : Asset := .lit (int64 100) (.lit "MUST" 6)

/-- The amount is all that is compared with the fee, so the fee of another token is paid in
FLON. -/
theorem fee_paid_in_other_symbol :
    ¬ ∀ (is : List (Ctx × Input Action)) (w : World State) (h : Fees) (ctx : Ctx) (n : Notice)
      (s' : State) (outs : List Transfer) (planId : ℕ),
      Transition.Run (Transition.recording (contract account).step (Fees.record account))
        Transition.Unrestricted (start, ⟨[], []⟩) is (w, h) →
      (contract account).run ctx (.notify n) w.state = .ok (s', outs) →
      paidPlan account w.state n = some planId → n.quantity = w.state.gstate.planFee := by
  intro hclaim
  have hreach : Transition.Reaches
      (Transition.recording (contract account).step (Fees.record account)) Transition.Unrestricted
      (fun p => p.1.state.gstate.planFee.symbol ≠ sysSymbol ∧
        paidPlan account p.1.state feeNotice = some 1 ∧
        Transition.Succeeds ((contract account).run (.signed alice 100) (.notify feeNotice)
          p.1.state) fun e => e.2.map (fun t => t.recipient) = [carol])
      (feeInputs otherFee) (start, ⟨[], []⟩) := by decide
  obtain ⟨⟨w, h⟩, hrun, hsymbol, hpaid, hcode⟩ := Transition.run_of_reaches hreach
  obtain ⟨⟨s', outs⟩, hcode, -⟩ := Transition.succeeds_iff.mp hcode
  have hexact := hclaim _ w h _ _ s' outs 1 hrun hcode hpaid
  exact hsymbol (congrArg Asset.symbol hexact).symm

/-- With a fee in FLON the plan of the sample is pending, and the payment is forwarded. -/
theorem unpaid_plans_closed_sample :
    ∃ w p s' outs, Transition.Run
        (Transition.recording (contract account).step (Fees.record account))
        Transition.Unrestricted (start, ⟨[], []⟩) (feeInputs (units 100)) (w, ⟨[1], []⟩) ∧
      w.state.plans.find? 1 = some p ∧ p.status = .pending ∧
      (contract account).run (.signed alice 100) (.notify feeNotice) w.state = .ok (s', outs) ∧
      PaysFee w.state feeNotice 1 s' outs := by
  have hreach : Transition.Reaches
      (Transition.recording (contract account).step (Fees.record account)) Transition.Unrestricted
      (fun p => p.2.charged = [1] ∧ p.2.paid = [] ∧ paidPlan account p.1.state feeNotice = some 1 ∧
        Transition.Succeeds ((contract account).run (.signed alice 100) (.notify feeNotice)
          p.1.state) fun e => e.2.map (fun t => t.recipient) = [carol])
      (feeInputs (units 100)) (start, ⟨[], []⟩) := by decide
  obtain ⟨⟨w, charged, paid⟩, hrun, hcharged, hunpaid, hpaid, hcode⟩ :=
    Transition.run_of_reaches hreach
  obtain ⟨⟨s', outs⟩, hcode, -⟩ := Transition.succeeds_iff.mp hcode
  have hc : charged = [1] := hcharged
  have hp : paid = [] := hunpaid
  subst hc hp
  have hresult := unpaid_plans_closed hrun
  obtain ⟨p, hfind, hpending⟩ := hresult.1 1 (List.mem_singleton.mpr rfl)
  exact ⟨w, p, s', outs, hrun, hfind, hpending.mpr List.not_mem_nil, hcode,
    hresult.2.2.2.1 _ _ s' outs 1 hcode hpaid⟩

end Sample

end Vest
end ToolkitContracts
