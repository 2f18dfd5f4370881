import ToolkitContracts.Airdrop.Payment

/-!
# Plan numbers

A new plan gets the number behind the last one, and `init` sets the last number back to zero. The
old plans stay, and `init` is the only way to a new admin: after it, no plan can be added as long as
the plan with the number 1 is there.
-/

namespace ToolkitContracts
namespace Airdrop

/-- The plans that were added since the last `init`, and the numbers in use, the last one first. -/
structure Numbers where
  added : ℕ
  used : List ℕ

/-- The number that the next plan gets. -/
def Numbers.next (g : Numbers) : ℕ := u64 (g.added + 1)

/-- The numbers after an accepted input. -/
def Numbers.after (g : Numbers) : Input Action → Numbers
  | .act (.init _ _) => { g with added := 0 }
  | .act (.addplan _ _ _) => ⟨g.added + 1, g.next :: g.used⟩
  | .act (.delplan planId) => { g with used := g.used.filter (· ≠ planId) }
  | _ => g

/-- The numbers after a list of accepted inputs. -/
def numbersOf (is : List (Ctx × Input Action)) : Numbers := is.foldl (fun g i => g.after i.2) ⟨0, []⟩

/-- The tables agree with the numbers. -/
structure Numbered (g : Numbers) (s : State) : Prop where
  last : s.gstate.lastPlanId = u64 g.added
  plans : ∀ k, s.plans.find? k ≠ none ↔ k ∈ g.used

/-- The input adds a plan. -/
def AddsPlan : Input Action → Prop
  | .act (.addplan _ _ _) => True
  | _ => False

/-- The input is not the removal of the plan. -/
def KeepsPlan (planId : ℕ) : Input Action → Prop
  | .act (.delplan q) => q ≠ planId
  | _ => True

instance (planId : ℕ) (i : Input Action) : Decidable (KeepsPlan planId i) := by
  rcases i with n | a
  · exact inferInstanceAs (Decidable True)
  · rcases a with _ | _ | _ | _ | _ | _ | _ | _ | _ | _ | _ <;> dsimp only [KeepsPlan] <;>
      infer_instance

/-! ## One transaction -/

section Steps
variable {self : Name} {ctx : Ctx} {s s' : State} {outs : List Transfer} {g : Numbers}
  {title : List Char} {startedAt endedAt : Int64Arg} {w w' : World State} {i : Ctx × Input Action}

theorem u64_succ (n : ℕ) : u64 (u64 n + 1) = u64 (n + 1) := by
  unfold u64
  omega

/-- When `addplan` goes through. -/
theorem exec_addplan_iff (h : Numbered g s) :
    (∃ e, exec self ctx (.addplan title startedAt endedAt) s = .ok e) ↔
      (ctx.hasAuth s.gstate.admin = true ∨ ctx.hasAuth self = true) ∧ startedAt.1 ≤ endedAt.1 ∧
      g.next ∉ g.used := by
  simp only [exec, addplan, requireAdmin, bind_eq_ok, check_eq_ok, checkc_eq_ok, pure_eq_ok,
    exists_const, emplace_eq_ok, h.last, u64_succ, ← h.plans]
  constructor
  · rintro ⟨e, hauth, hwindow, plans, ⟨hnew, -⟩, -⟩
    exact ⟨hauth, hwindow, fun hused => hused hnew⟩
  · rintro ⟨hauth, hwindow, hnew⟩
    exact ⟨_, hauth, hwindow, _, ⟨not_not.mp hnew, rfl⟩, rfl⟩

/-- What `addplan` stores. -/
theorem numbered_of_addplan (h : Numbered g s)
    (hexec : exec self ctx (.addplan title startedAt endedAt) s = .ok (s', outs)) :
    Numbered (g.after (.act (.addplan title startedAt endedAt))) s' := by
  simp only [exec, addplan, requireAdmin, bind_eq_ok, check_eq_ok, checkc_eq_ok, pure_eq_ok,
    exists_const, emplace_eq_ok, Prod.mk.injEq, h.last, u64_succ] at hexec
  obtain ⟨-, -, plans, ⟨-, rfl⟩, rfl, -⟩ := hexec
  refine ⟨rfl, fun k => ?_⟩
  show (Table.put _ _).find? k ≠ none ↔ k ∈ g.next :: g.used
  rw [Table.find?_put, List.mem_cons, ← h.plans]
  by_cases hk : k = u64 (g.added + 1)
  · rw [if_pos hk]
    exact iff_of_true (Option.some_ne_none _) (Or.inl hk)
  · rw [if_neg hk]
    exact (or_iff_right hk).symm

/-- A plan that is stored again keeps the numbers. -/
theorem Numbered.put {plan plan' : Plan} {planId : ℕ} (h : Numbered g s)
    (hplan : s.plans.find? planId = some plan) (hid : plan'.id = plan.id) :
    Numbered g { s with plans := s.plans.put plan' } := by
  refine ⟨h.last, fun k => ?_⟩
  rw [← h.plans]
  show (s.plans.put plan').find? k ≠ none ↔ _
  have hkey := (Table.find?_eq_some.mp hplan).2
  rw [Table.find?_put, hid, hkey]
  by_cases hk : k = planId
  · rw [if_pos hk, hk, hplan]
    exact iff_of_true (Option.some_ne_none _) (Option.some_ne_none _)
  · rw [if_neg hk]

theorem Numbered.erase (h : Numbered g s) (planId : ℕ) :
    Numbered { g with used := g.used.filter (· ≠ planId) }
      { s with plans := s.plans.erase planId } := by
  refine ⟨h.last, fun k => ?_⟩
  show (s.plans.erase planId).find? k ≠ none ↔ k ∈ g.used.filter (· ≠ planId)
  rw [Table.find?_erase, List.mem_filter, decide_eq_true_eq, ← h.plans]
  by_cases hk : k = planId
  · rw [if_pos hk]
    exact iff_of_false (fun hne => hne rfl) (fun hmem => hmem.2 hk)
  · rw [if_neg hk]
    exact (and_iff_left hk).symm

/-- Every accepted action keeps the tables and the numbers in step. -/
theorem numbered_of_exec {a : Action} (h : Numbered g s) (hexec : exec self ctx a s = .ok (s', outs)) :
    Numbered (g.after (.act a)) s' := by
  cases a with
  | init admin oracles =>
    simp only [exec, Airdrop.init, bind_eq_ok, checkc_eq_ok, pure_eq_ok, exists_const,
      Prod.mk.injEq, Ctx.requireAuth_eq_ok] at hexec
    obtain ⟨-, -, -, -, rfl, rfl⟩ := hexec
    exact ⟨rfl, h.plans⟩
  | addoracle oracle =>
    simp only [exec, addoracle, requireAdmin, bind_eq_ok, check_eq_ok, checkc_eq_ok, pure_eq_ok,
      exists_const, Prod.mk.injEq] at hexec
    obtain ⟨-, -, -, rfl, rfl⟩ := hexec
    exact ⟨h.last, h.plans⟩
  | deloracle oracle =>
    simp only [exec, deloracle, requireAdmin, bind_eq_ok, check_eq_ok, checkc_eq_ok, pure_eq_ok,
      exists_const, Prod.mk.injEq] at hexec
    obtain ⟨-, -, rfl, rfl⟩ := hexec
    exact ⟨h.last, h.plans⟩
  | addtoken tokenBank sym =>
    simp only [exec, addtoken, requireAdmin, bind_eq_ok, check_eq_ok, checkc_eq_ok, pure_eq_ok,
      exists_const, Prod.mk.injEq] at hexec
    obtain ⟨-, -, -, -, tokens, -, rfl, rfl⟩ := hexec
    exact ⟨h.last, h.plans⟩
  | deltoken tokenBank sym =>
    simp only [exec, deltoken, requireAdmin, bind_eq_ok, check_eq_ok, require_eq_ok, pure_eq_ok,
      exists_const, Prod.mk.injEq] at hexec
    obtain ⟨-, token, -, rfl, rfl⟩ := hexec
    exact ⟨h.last, h.plans⟩
  | addplan title startedAt endedAt => exact numbered_of_addplan h hexec
  | setclaim planId symb singleClaim allocated =>
    cases move_of_exec hexec with
    | configure _ ha => exact absurd ha id
    | setclaim _ _ _ _ plan c hplan => exact h.put hplan rfl
  | delclaim planId symb =>
    cases move_of_exec hexec with
    | configure _ ha => exact absurd ha id
    | delclaim _ _ plan hplan => exact h.put hplan rfl
  | setplan planId title startedAt endedAt =>
    cases move_of_exec hexec with
    | configure _ ha => exact absurd ha id
    | setplan _ _ _ _ plan plan' hplan hid => exact h.put hplan hid
  | delplan planId =>
    cases move_of_exec hexec with
    | configure _ ha => exact absurd ha id
    | delplan => exact h.erase planId
  | claim planId claimer beneficiary =>
    cases move_of_exec hexec with
    | configure _ ha => exact absurd ha id
    | claim _ _ _ plan plan' _ hallowed hclaimed => exact h.put hallowed.found hclaimed.id

theorem numbered_of_step (h : Numbered g w.state) (hs : (contract self).step w i = .ok w') :
    Numbered (g.after i.2) w'.state := by
  obtain ⟨outs, hcode⟩ := (contract self).run_of_step hs
  obtain ⟨ctx, n | a⟩ := i
  · have hrun : Except.ok (w.state, []) = Except.ok (w'.state, outs) := hcode
    rw [Except.ok.injEq, Prod.mk.injEq] at hrun
    rw [← hrun.1]
    exact h
  · exact numbered_of_exec h hcode

/-- When the chain accepts a new plan. -/
theorem step_addplan_iff (h : Numbered g w.state) :
    (∃ w', (contract self).step w (ctx, .act (.addplan title startedAt endedAt)) = .ok w') ↔
      w.clock ≤ ctx.now ∧ (ctx.hasAuth w.state.gstate.admin = true ∨ ctx.hasAuth self = true) ∧
      startedAt.1 ≤ endedAt.1 ∧ g.next ∉ g.used := by
  have hexec : (∃ e, exec self ctx (.addplan title startedAt endedAt) w.state = .ok e) ↔ _ :=
    exec_addplan_iff h
  rw [← hexec]
  constructor
  · rintro ⟨w', hs⟩
    obtain ⟨hclock, -, -, outs, hcode, -⟩ := ((contract self).step_eq_ok).mp hs
    exact ⟨hclock, _, hcode⟩
  · rintro ⟨hclock, ⟨s', outs⟩, hcode⟩
    -- a new plan pays nothing
    have hm := move_of_exec hcode
    have houts : outs = [] := by
      cases hm with
      | configure => rfl
      | addplan => rfl
    refine ⟨⟨s', w.holding, ctx.now⟩, ((contract self).step_eq_ok).mpr
      ⟨hclock, Contract.signer?_act _ _, rfl, outs, hcode, ?_⟩⟩
    rw [houts]
    rfl

/-- While the counter stands at zero and the plan 1 is there, no plan is added, and the counter
stays. -/
theorem stuck_of_step (h : Numbered g w.state) (hzero : g.added = 0) (hused : 1 ∈ g.used)
    (hkeeps : KeepsPlan 1 i.2) (hs : (contract self).step w i = .ok w') :
    ¬ AddsPlan i.2 ∧ (g.after i.2).added = 0 ∧ 1 ∈ (g.after i.2).used := by
  obtain ⟨ctx, n | a⟩ := i
  · exact ⟨id, hzero, hused⟩
  · cases a with
    | addplan title startedAt endedAt =>
      obtain ⟨-, -, -, hnew⟩ := (step_addplan_iff h).mp ⟨w', hs⟩
      have hnext : g.next = 1 := by
        unfold Numbers.next
        rw [hzero]
        rfl
      rw [hnext] at hnew
      exact absurd hused hnew
    | delplan q =>
      refine ⟨id, hzero, List.mem_filter.mpr ⟨hused, ?_⟩⟩
      exact decide_eq_true hkeeps.symm
    | init => exact ⟨id, rfl, hused⟩
    | addoracle | deloracle | addtoken | deltoken | setclaim | delclaim | setplan | claim =>
      exact ⟨id, hzero, hused⟩

end Steps

/-! ## Whole runs -/

section Runs
variable {self : Name} {clock : TimePoint} {w : World State} {is : List (Ctx × Input Action)}

theorem numbered_of_run
    (hrun : Transition.Run (contract self).step Transition.Unrestricted (genesis clock) is w) :
    Numbered (numbersOf is) w.state := by
  refine hrun.invariant_inputs (P := fun is w => Numbered (numbersOf is) w.state) ?_ ?_
  · intro is w i w' ih _ hs
    unfold numbersOf
    rw [List.foldl_append]
    exact numbered_of_step ih hs
  · exact ⟨rfl, fun k => iff_of_false (fun hne => hne rfl) List.not_mem_nil⟩

/-- In every reachable state the plans stored are those that were added and not deleted since, and a
plan can be added exactly when its number, counted from the last `init`, is not in use. So when the
contract is initialised again, no plan can be added until the plan 1 is deleted, whoever tries and
however often `init` is called. -/
theorem plans_of_run
    (hrun : Transition.Run (contract self).step Transition.Unrestricted (genesis clock) is w) :
    (∀ k, w.state.plans.find? k ≠ none ↔ k ∈ (numbersOf is).used) ∧
    (∀ ctx title startedAt endedAt,
      (∃ w', (contract self).step w (ctx, .act (.addplan title startedAt endedAt)) = .ok w') ↔
        w.clock ≤ ctx.now ∧ (ctx.hasAuth w.state.gstate.admin = true ∨ ctx.hasAuth self = true) ∧
        startedAt.1 ≤ endedAt.1 ∧ (numbersOf is).next ∉ (numbersOf is).used) ∧
    ((numbersOf is).added = 0 → 1 ∈ (numbersOf is).used → ∀ js w',
      Transition.Run (contract self).step (fun _ i => KeepsPlan 1 i.2) w js w' →
      ∀ j ∈ js, ¬ AddsPlan j.2) := by
  have hnumbered := numbered_of_run hrun
  refine ⟨hnumbered.plans, fun ctx title startedAt endedAt => step_addplan_iff hnumbered,
    fun hzero hused js w' hrest => ?_⟩
  have hall : (∀ j ∈ js, ¬ AddsPlan j.2) ∧
      ∃ g : Numbers, Numbered g w'.state ∧ g.added = 0 ∧ 1 ∈ g.used := by
    refine hrest.invariant_inputs (P := fun js w' => (∀ j ∈ js, ¬ AddsPlan j.2) ∧
      ∃ g : Numbers, Numbered g w'.state ∧ g.added = 0 ∧ 1 ∈ g.used) ?_ ?_
    · rintro js w i w' ⟨hnone, g, hg, hzero, hused⟩ hkeeps hs
      obtain ⟨hother, hzero', hused'⟩ := stuck_of_step hg hzero hused hkeeps hs
      refine ⟨fun j hj => ?_, g.after i.2, numbered_of_step hg hs, hzero', hused'⟩
      rcases List.mem_append.mp hj with hj | hj
      · exact hnone j hj
      · rw [List.mem_singleton.mp hj]
        exact hother
    · exact ⟨fun j hj => absurd hj List.not_mem_nil, _, hnumbered, hzero, hused⟩
  exact hall.1

end Runs

/-! ## A second initialisation -/

namespace Sample

/-- The plan 1 is there when Bob becomes the admin. -/
def changeAdmin : List (Ctx × Input Action) :=
  setup ++ [(.signed account 101, .act (.init bob (Table.empty.put oracle)))]

/-- Bob cannot add a plan, and nobody else can, before the plan 1 is deleted. -/
theorem plans_of_run_sample :
    ∃ w, Transition.Run (contract account).step Transition.Unrestricted (genesis (.ofDays 100))
        changeAdmin w ∧
      w.state.gstate.admin = bob ∧
      ∀ js w', Transition.Run (contract account).step (fun _ i => KeepsPlan 1 i.2) w js w' →
        ∀ j ∈ js, ¬ AddsPlan j.2 := by
  have hreach : Transition.Reaches (contract account).step Transition.Unrestricted
      (fun w => w.state.gstate.admin = bob) changeAdmin (genesis (.ofDays 100)) := by decide
  obtain ⟨w, hrun, hadmin⟩ := Transition.run_of_reaches hreach
  exact ⟨w, hrun, hadmin, (plans_of_run hrun).2.2 (by decide) (by decide)⟩

end Sample

end Airdrop
end ToolkitContracts
