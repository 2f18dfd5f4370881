import Mathlib.Data.List.Nodup
import Mathlib.Tactic.Common
import ToolkitContracts.Lib.Transition

/-!
# Clearing a store

A store keeps items, and an input can clear an item away when its time has come. Where clearing
one item leaves the others as they are, and what was ready stays ready, any list of inputs that
names every item once is a run, in whatever order it names them, and leaves no item behind.
-/

namespace Clearing

open Transition

/-- Which item an input clears, and which state has which items. -/
structure Store (σ ι κ : Type*) where
  clears : ι → κ
  has : σ → κ → Prop
  /-- The input can clear its item as soon as it is its turn. -/
  ready : σ → ι → Prop
  /-- The second input may follow the first. -/
  before : ι → ι → Prop

variable {σ ι κ ε : Type*} {step : σ → ι → Except ε σ}

/-- What clearing one item does: it succeeds, takes away that item alone, and leaves ready what
may follow. -/
structure Store.Clears (S : Store σ ι κ) (step : σ → ι → Except ε σ) (s : σ) (i : ι) (s' : σ) :
    Prop where
  succeeds : step s i = .ok s'
  has : ∀ k, S.has s' k ↔ S.has s k ∧ k ≠ S.clears i
  ready : ∀ j, S.before i j → S.has s (S.clears j) → S.ready s j → S.ready s' j

/-- Inputs that name every item once clear the store, in any order. The invariant may speak about
the inputs that are still to come. -/
theorem Store.run_of_clears (S : Store σ ι κ) {Inv : List ι → σ → Prop}
    (hclears : ∀ is s i, Inv (i :: is) s → S.has s (S.clears i) → S.ready s i →
      ∃ s', S.Clears step s i s' ∧ Inv is s')
    {is : List ι} {s : σ} (hinv : Inv is s) (hnodup : (is.map S.clears).Nodup)
    (hall : ∀ k, S.has s k ↔ k ∈ is.map S.clears) (hready : ∀ i ∈ is, S.ready s i)
    (horder : is.Pairwise S.before) :
    ∃ s', Run step Unrestricted s is s' ∧ Inv [] s' ∧ ∀ k, ¬ S.has s' k := by
  induction is generalizing s with
  | nil =>
    refine ⟨s, .nil s, hinv, fun k hk => ?_⟩
    have hmem := (hall k).mp hk
    simp at hmem
  | cons i is ih =>
    rw [List.map_cons, List.nodup_cons] at hnodup
    obtain ⟨hfirst, horder⟩ := List.pairwise_cons.mp horder
    have hhere : S.has s (S.clears i) := (hall _).mpr (by simp)
    obtain ⟨s₁, hcleared, hinv₁⟩ := hclears is s i hinv hhere (hready i (by simp))
    have hall₁ : ∀ k, S.has s₁ k ↔ k ∈ is.map S.clears := by
      intro k
      rw [hcleared.has, hall, List.map_cons, List.mem_cons]
      constructor
      · rintro ⟨hk | hk, hne⟩
        · exact absurd hk hne
        · exact hk
      · intro hk
        refine ⟨Or.inr hk, ?_⟩
        rintro rfl
        exact hnodup.1 hk
    have hready₁ : ∀ j ∈ is, S.ready s₁ j := by
      intro j hj
      have hitem : S.has s (S.clears j) :=
        (hall _).mpr (List.mem_map_of_mem (List.mem_cons_of_mem i hj))
      exact hcleared.ready j (hfirst j hj) hitem (hready j (List.mem_cons_of_mem i hj))
    obtain ⟨s', hrun, hinv', hnone⟩ := ih hinv₁ hnodup.2 hall₁ hready₁ horder
    exact ⟨s', .cons trivial hcleared.succeeds hrun, hinv', hnone⟩

end Clearing
