import ToolkitContracts.Airdrop.Payment

/-!
# Repeated claims

The plan table is documented as one claim per person and plan, but a plan only counts its
claims: nothing says who they were for. A history variable keeps the beneficiaries. What stops
a second claim for one of them is what would stop a claim for anybody: that the plan is closed,
or that one of its rules has nothing left.
-/

namespace ToolkitContracts
namespace Airdrop

/-- The claims that every plan has paid: the plan and the beneficiary, the last one first. -/
abbrev Claimants := List (ℕ × Name)

/-- The claims after a successful input. A plan that is created under the id of a deleted one is
another plan. -/
def Claimants.after (g : Claimants) : Input Action → Claimants
  | .act (.claim planId _ beneficiary) => (planId, beneficiary) :: g
  | .act (.delplan planId) => g.filter fun e => decide (e.1 ≠ planId)
  | _ => g

/-- One transaction, with the beneficiary of a claim written down. -/
def stepClaimed (self : Name) :
    World State × Claimants → Ctx × Input Action → Except Abort (World State × Claimants) :=
  Transition.recording (contract self).step fun g _ i _ => g.after i.2

/-- No plan has paid a beneficiary twice. -/
def OncePerPerson (p : World State × Claimants) : Prop := p.2.Nodup

/-- The plan can pay a claim at the time `now`: it is within its window, it has rules, and each
of them has something left and can pay. -/
structure Plan.Open (now : TimePoint) (plan : Plan) : Prop where
  window : plan.planStartedAt.1 ≤ now.us ∧ now.us ≤ plan.planEndedAt.1
  rules : plan.claims.rows ≠ []
  left : ∀ c ∈ plan.claims.rows, 0 < c.available.amount ∧
    c.available.amount - c.claimQuant.amount ≤ Asset.maxAmount

/-- A claim for somebody whom the plan has paid before finds the plan unable to pay anybody. -/
def RepeatsClosed (p : World State × Claimants) (i : Ctx × Input Action) : Prop :=
  match i.2 with
  | .act (.claim planId _ beneficiary) => (planId, beneficiary) ∈ p.2 →
      ∀ plan ∈ p.1.state.plans.find? planId, ¬ plan.Open i.1.now
  | _ => True

instance (now : TimePoint) (plan : Plan) : Decidable (plan.Open now) :=
  decidable_of_iff ((plan.planStartedAt.1 ≤ now.us ∧ now.us ≤ plan.planEndedAt.1) ∧
      plan.claims.rows.isEmpty = false ∧ ∀ c ∈ plan.claims.rows, 0 < c.available.amount ∧
        c.available.amount - c.claimQuant.amount ≤ Asset.maxAmount)
    ⟨fun h => ⟨h.1, List.isEmpty_eq_false_iff.mp h.2.1, h.2.2⟩,
      fun h => ⟨h.window, List.isEmpty_eq_false_iff.mpr h.rules, h.left⟩⟩

instance (p : World State × Claimants) (i : Ctx × Input Action) :
    Decidable (RepeatsClosed p i) := by
  rcases i with ⟨ctx, n | a⟩
  · exact inferInstanceAs (Decidable True)
  · rcases a with _ | _ | _ | _ | _ | _ | _ | _ | _ | _ | _ <;> dsimp only [RepeatsClosed] <;>
      infer_instance

/-! ## One move -/

section Moves
variable {self : Name} {ctx : Ctx} {s : State} {planId : ℕ} {claimer beneficiary : Name}
  {plan : Plan} {p p' : World State × Claimants} {i : Ctx × Input Action}

/-- A claim takes effect exactly when the plan is open, whoever the beneficiary is. -/
theorem commits_iff_open (h : ClaimAllowed ctx s planId claimer beneficiary plan) :
    (∃ e, Commits (exec self ctx (.claim planId claimer beneficiary) s) e) ↔ plan.Open ctx.now := by
  constructor
  · rintro ⟨e, he⟩
    obtain ⟨plan', -, hclaimed, hpos⟩ := claimed_of_commits h he
    refine ⟨h.window, hclaimed.rules, ?_⟩
    intro c hc
    obtain ⟨c', hpay, -⟩ := hclaimed.paid c hc
    exact ⟨hpos c hc, pay_iff.mp ⟨c', hpay⟩⟩
  · intro hopen
    apply commits_of h hopen.rules
    · exact fun c hc => (hopen.left c hc).1
    · exact fun c hc => pay_iff.mpr (hopen.left c hc).2

/-- An accepted claim found its plan open. -/
theorem open_of_step
    (hs : stepClaimed self p (ctx, .act (.claim planId claimer beneficiary)) = .ok p') :
    ∃ plan, p.1.state.plans.find? planId = some plan ∧ plan.Open ctx.now := by
  obtain ⟨hstep, -⟩ := Transition.recording_eq_ok.mp hs
  obtain ⟨-, -, -, outs, hcode, hsettle⟩ := ((contract self).step_eq_ok).mp hstep
  have hexec : exec self ctx (.claim planId claimer beneficiary) p.1.state
      = .ok (p'.1.state, outs) := hcode
  obtain ⟨plan, plan', hallowed, -, -⟩ := claimed_of_claim hexec
  -- the token contracts accepted the transfers, so they are positive
  have hcommits : Commits (exec self ctx (.claim planId claimer beneficiary) p.1.state)
      (p'.1.state, outs) := ⟨hexec, fun t ht => (mem_of_settle hsettle ht).2⟩
  exact ⟨plan, hallowed.found, (commits_iff_open hallowed).mp ⟨_, hcommits⟩⟩

/-- An accepted claim for somebody who was paid before pays a second time. -/
theorem not_oncePerPerson_of_step (hs : stepClaimed self p i = .ok p')
    (hbreak : ¬ RepeatsClosed p i) : ¬ OncePerPerson p' := by
  obtain ⟨-, hrecord⟩ := Transition.recording_eq_ok.mp hs
  unfold OncePerPerson
  rw [hrecord]
  rcases i with ⟨ctx, n | a⟩
  · exact absurd trivial hbreak
  · cases a with
    | claim planId claimer beneficiary =>
      show ¬ ((planId, beneficiary) :: p.2).Nodup
      rw [List.nodup_cons]
      rintro ⟨hnew, -⟩
      apply hbreak
      intro hmem
      exact absurd hmem hnew
    | init | addoracle | deloracle | addtoken | deltoken | addplan | setclaim | delclaim | setplan
      | delplan => exact absurd trivial hbreak

end Moves

/-! ## Whole runs -/

section Runs
variable {self : Name} {p : World State × Claimants} {is : List (Ctx × Input Action)}
  {clock : TimePoint}

/-- In every run in which a claim for somebody who was paid before finds the plan closed or used
up, no plan pays a beneficiary twice. Nothing else stops the second claim: once the plan is
open, a claim by an oracle takes effect for somebody who was paid before as for anybody, and
the beneficiary is paid twice. -/
theorem one_claim_per_person
    (hrun : Transition.Run (stepClaimed self) RepeatsClosed (genesis clock, []) is p) :
    OncePerPerson p ∧
    (∀ i p', stepClaimed self p i = .ok p' → ¬ RepeatsClosed p i → ¬ OncePerPerson p') ∧
    ∀ ctx planId claimer beneficiary plan,
      ClaimAllowed ctx p.1.state planId claimer beneficiary plan →
      ((∃ e, Commits (exec self ctx (.claim planId claimer beneficiary) p.1.state) e) ↔
        plan.Open ctx.now) := by
  refine ⟨?_, fun i p' hs hbreak => not_oncePerPerson_of_step hs hbreak,
    fun ctx planId claimer beneficiary plan h => commits_iff_open h⟩
  apply hrun.invariant (P := OncePerPerson)
  · intro p i p' ih hok hs
    obtain ⟨-, hrecord⟩ := Transition.recording_eq_ok.mp hs
    unfold OncePerPerson at ih ⊢
    rw [hrecord]
    rcases i with ⟨ctx, n | a⟩
    · exact ih
    · cases a with
      | claim planId claimer beneficiary =>
        obtain ⟨plan, hplan, hopen⟩ := open_of_step hs
        show ((planId, beneficiary) :: p.2).Nodup
        rw [List.nodup_cons]
        refine ⟨?_, ih⟩
        intro hmem
        exact hok hmem plan hplan hopen
      | delplan planId => exact ih.filter _
      | init | addoracle | deloracle | addtoken | deltoken | addplan | setclaim | delclaim
        | setplan => exact ih
  · exact List.nodup_nil

end Runs

/-! ## A beneficiary paid twice -/

namespace Sample

/-- No plan has paid anybody. -/
def start : World State × Claimants := (genesis (.ofDays 100), [])

/-- The plan with the rule for FLON only. -/
def flonOnly : List (Ctx × Input Action) := setup ++ [setrule flon (int64 10) (int64 100)]

/-- The oracle claims for alice twice, and the plan pays her twice. -/
theorem claimed_twice :
    ¬ ∀ (is : List (Ctx × Input Action)) (p : World State × Claimants),
      Transition.Run (stepClaimed account) Transition.Unrestricted start is p →
      OncePerPerson p := by
  intro hclaim
  have hreach : Transition.Reaches (stepClaimed account) Transition.Unrestricted
      (fun p => p.2 = [(1, alice), (1, alice)])
      (flonOnly ++ [claimFor alice, claimFor alice]) start := by decide
  obtain ⟨p, hrun, hclaims⟩ := Transition.run_of_reaches hreach
  have hnodup : p.2.Nodup := hclaim _ p hrun
  rw [hclaims] at hnodup
  exact absurd hnodup (by decide)

/-- The plan pays alice and bob once each. -/
theorem one_claim_per_person_sample :
    ∃ p, Transition.Run (stepClaimed account) RepeatsClosed start
        (flonOnly ++ [claimFor alice, claimFor bob]) p ∧
      p.2 = [(1, bob), (1, alice)] ∧ OncePerPerson p := by
  have hreach : Transition.Reaches (stepClaimed account) RepeatsClosed
      (fun p => p.2 = [(1, bob), (1, alice)])
      (flonOnly ++ [claimFor alice, claimFor bob]) start := by decide
  obtain ⟨p, hrun, hclaims⟩ := Transition.run_of_reaches hreach
  exact ⟨p, hrun, hclaims, (one_claim_per_person hrun).1⟩

end Sample

end Airdrop
end ToolkitContracts
