import Mathlib.Logic.Basic

/-!
# Runs of a transition function

A system is a function `step : σ → ι → Except ε σ` from a state and an input to the next
state or a failure. A failed input leaves no trace, so a run lists the inputs that
succeeded. Runs carry a guard `ok : σ → ι → Prop` on the state before a step and its
input: the runs of the whole system are those guarded by `Unrestricted`, and a result about
inputs of a certain kind is a result about runs under the guard that says so.

`Run.invariant` packages the induction over a run once. `recording` adds a history variable
to a system, for properties that mention what happened earlier in the run.
-/

namespace Transition

variable {σ ι ε γ : Type*}

/-- The guard that admits every step. -/
def Unrestricted : σ → ι → Prop := fun _ _ => True

/-- `Run step ok s is s'`: the inputs `is` lead from `s` to `s'`, each of them meeting `ok`
at the state it is applied to. -/
inductive Run (step : σ → ι → Except ε σ) (ok : σ → ι → Prop) : σ → List ι → σ → Prop
  | nil (s : σ) : Run step ok s [] s
  | snoc {s s' s'' : σ} {is : List ι} {i : ι} :
      Run step ok s is s' → ok s' i → step s' i = .ok s'' → Run step ok s (is ++ [i]) s''

variable {step : σ → ι → Except ε σ} {ok ok' : σ → ι → Prop}

/-- What every guarded step preserves, every guarded run preserves. -/
theorem Run.invariant {P : σ → Prop}
    (hstep : ∀ s i s', P s → ok s i → step s i = .ok s' → P s')
    {s s' : σ} {is : List ι} (hrun : Run step ok s is s') (h0 : P s) : P s' := by
  induction hrun with
  | nil => exact h0
  | snoc _ hok hs ih => exact hstep _ _ _ ih hok hs

/-- Like `Run.invariant`, for a property that also mentions the inputs seen so far. -/
theorem Run.invariant_inputs {s : σ} {P : List ι → σ → Prop}
    (hstep : ∀ is s' i s'', P is s' → ok s' i → step s' i = .ok s'' → P (is ++ [i]) s'')
    {s' : σ} {is : List ι} (hrun : Run step ok s is s') (h0 : P [] s) : P is s' := by
  induction hrun with
  | nil => exact h0
  | snoc _ hok hs ih => exact hstep _ _ _ _ ih hok hs

/-- A run under a guard is one under every weaker guard. -/
theorem Run.relax (h : ∀ s i, ok s i → ok' s i) {s s' : σ} {is : List ι}
    (hrun : Run step ok s is s') : Run step ok' s is s' := by
  induction hrun with
  | nil => exact .nil _
  | snoc _ hok hs ih => exact .snoc ih (h _ _ hok) hs

/-- Prepend one step. -/
theorem Run.cons {s s' s'' : σ} {i : ι} {is : List ι} (hok : ok s i) (hs : step s i = .ok s')
    (hrun : Run step ok s' is s'') : Run step ok s (i :: is) s'' := by
  induction hrun with
  | nil => exact .snoc (.nil s) hok hs
  | snoc _ hok' hs' ih => exact .snoc ih hok' hs'

/-- Put two runs together. -/
theorem Run.trans {s s' s'' : σ} {is js : List ι} (hrun : Run step ok s is s')
    (hrest : Run step ok s' js s'') : Run step ok s (is ++ js) s'' := by
  induction hrest with
  | nil =>
    rw [List.append_nil]
    exact hrun
  | snoc _ hok hs ih =>
    rw [← List.append_assoc]
    exact .snoc ih hok hs

/-- What holds at the end of a run and not at its start begins to hold in one of its steps. -/
theorem Run.exists_step {P : σ → Prop} {s s' : σ} {is : List ι} (hrun : Run step ok s is s')
    (h0 : ¬ P s) (h : P s') : ∃ js i ks s₁ s₂, is = js ++ i :: ks ∧ Run step ok s js s₁ ∧
      step s₁ i = .ok s₂ ∧ Run step ok s₂ ks s' ∧ ¬ P s₁ ∧ P s₂ := by
  induction hrun with
  | nil => exact absurd h h0
  | @snoc s₁ s' is i hrun hok hs ih =>
    by_cases hbefore : P s₁
    · obtain ⟨js, j, ks, u₁, u₂, rfl, hjs, hu, hks, hnot, hholds⟩ := ih hbefore
      refine ⟨js, j, ks ++ [i], u₁, u₂, ?_, hjs, hu, .snoc hks hok hs, hnot, hholds⟩
      rw [List.append_assoc, List.cons_append]
    · exact ⟨is, i, [], s₁, s', rfl, hrun, hs, .nil s', hbefore, h⟩

/-- The inputs of a run determine where it ends. -/
theorem Run.unique {s s₁ s₂ : σ} {is : List ι} (h₁ : Run step ok s is s₁)
    (h₂ : Run step ok s is s₂) : s₁ = s₂ := by
  induction h₁ generalizing s₂ with
  | nil =>
    generalize hnil : ([] : List ι) = js at h₂
    cases h₂ with
    | nil => rfl
    | snoc => simp at hnil
  | @snoc t₁ t₁' is i _ _ hs ih =>
    generalize hsnoc : is ++ [i] = js at h₂
    cases h₂ with
    | nil => simp at hsnoc
    | snoc hrun _ hs' =>
      obtain ⟨rfl, hlast⟩ := List.append_inj' hsnoc rfl
      rw [List.singleton_inj] at hlast
      subst hlast
      rw [← ih hrun, hs, Except.ok.injEq] at hs'
      exact hs'

/-- A run of a system that another one simulates is a run of that other system: `abs` reads
an abstract state off a state, and `label` an abstract input off an input. -/
theorem Run.simulates {τ κ ε' : Type*} {astep : τ → κ → Except ε' τ} (abs : σ → τ)
    (label : ι → κ)
    (hstep : ∀ s i s', ok s i → step s i = .ok s' → astep (abs s) (label i) = .ok (abs s'))
    {s s' : σ} {is : List ι} (hrun : Run step ok s is s') :
    Run astep Unrestricted (abs s) (is.map label) (abs s') := by
  induction hrun with
  | nil => exact .nil _
  | snoc _ hok hs ih =>
    rw [List.map_append]
    exact .snoc ih trivial (hstep _ _ _ hok hs)

/-! ## Computed runs -/

/-- The computation succeeds, with a result that has the property `P`. -/
def Succeeds (x : Except ε σ) (P : σ → Prop) : Prop :=
  match x with
  | .ok s => P s
  | .error _ => False

instance (x : Except ε σ) (P : σ → Prop) [∀ s, Decidable (P s)] : Decidable (Succeeds x P) :=
  match x with
  | .ok s => inferInstanceAs (Decidable (P s))
  | .error _ => inferInstanceAs (Decidable False)

theorem succeeds_iff {x : Except ε σ} {P : σ → Prop} : Succeeds x P ↔ ∃ s, x = .ok s ∧ P s := by
  cases x with
  | ok s => simp [Succeeds]
  | error e => simp [Succeeds]

/-- The inputs all meet the guard and succeed, one after the other, and lead to a state with
the property `P`. -/
def Reaches (step : σ → ι → Except ε σ) (ok : σ → ι → Prop) (P : σ → Prop) : List ι → σ → Prop
  | [], s => P s
  | i :: is, s => ok s i ∧ Succeeds (step s i) (Reaches step ok P is)

instance : ∀ (s : σ) (i : ι), Decidable (Unrestricted s i) := fun _ _ => .isTrue trivial

instance decidableReaches (step : σ → ι → Except ε σ) (ok : σ → ι → Prop) (P : σ → Prop)
    [∀ s i, Decidable (ok s i)] [∀ s, Decidable (P s)] :
    ∀ is s, Decidable (Reaches step ok P is s)
  | [], s => inferInstanceAs (Decidable (P s))
  | i :: is, s =>
    have := decidableReaches step ok P is
    inferInstanceAs (Decidable (ok s i ∧ Succeeds (step s i) (Reaches step ok P is)))

/-- What can be computed to hold at the end of a run does hold at the end of a run. -/
theorem run_of_reaches {P : σ → Prop} {s : σ} {is : List ι} (h : Reaches step ok P is s) :
    ∃ s', Run step ok s is s' ∧ P s' := by
  induction is generalizing s with
  | nil => exact ⟨s, .nil s, h⟩
  | cons i is ih =>
    obtain ⟨hok, hs⟩ := h
    obtain ⟨s₁, hs, hrest⟩ := succeeds_iff.mp hs
    obtain ⟨s', hrun, hP⟩ := ih hrest
    exact ⟨s', Run.cons hok hs hrun, hP⟩

/-! ## History variables -/

/-- `step` with a history variable, updated from the state before the step, the input and
the state after it. -/
def recording (step : σ → ι → Except ε σ) (record : γ → σ → ι → σ → γ) (p : σ × γ) (i : ι) :
    Except ε (σ × γ) :=
  match step p.1 i with
  | .ok s' => .ok (s', record p.2 p.1 i s')
  | .error e => .error e

variable {record : γ → σ → ι → σ → γ}

theorem recording_eq_ok {p p' : σ × γ} {i : ι} :
    recording step record p i = .ok p' ↔
      step p.1 i = .ok p'.1 ∧ p'.2 = record p.2 p.1 i p'.1 := by
  rw [recording]
  cases hs : step p.1 i with
  | error e => simp
  | ok s' =>
    simp only [Except.ok.injEq, Prod.ext_iff]
    constructor
    · rintro ⟨rfl, h⟩
      exact ⟨rfl, h.symm⟩
    · rintro ⟨rfl, h⟩
      exact ⟨rfl, h.symm⟩

end Transition
