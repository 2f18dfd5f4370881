import Mathlib.Order.Lattice
import Mathlib.Order.Monotone.Basic
import Mathlib.Tactic.Common

/-!
# Walks

A walk of a relation is the list of the points it visits after its first one. On a linear order,
where from each point `x` every point up to `f x` is one step away, `n` steps lead to every
point up to the `n`-th iterate of `f`; on the dual order the same is said of walking down.
-/

namespace Walks

/-- `Walk r a bs c`: the points `bs` lead from `a` to `c`, each related to the next. -/
inductive Walk {α : Type*} (r : α → α → Prop) : α → List α → α → Prop
  | nil (a : α) : Walk r a [] a
  | cons {a b c : α} {cs : List α} : r a b → Walk r b cs c → Walk r a (b :: cs) c

variable {α : Type*} {r : α → α → Prop} {a b c : α} {bs cs : List α}

theorem Walk.single (h : r a b) : Walk r a [b] b := .cons h (.nil b)

/-- Put two walks together. -/
theorem Walk.trans (h : Walk r a bs b) (hrest : Walk r b cs c) : Walk r a (bs ++ cs) c := by
  induction h with
  | nil => exact hrest
  | cons hstep _ ih => exact .cons hstep (ih hrest)

/-- What each step preserves, a walk preserves. -/
theorem Walk.invariant {P : α → Prop} (hstep : ∀ x y, P x → r x y → P y) (h : Walk r a bs b)
    (h0 : P a) : P b := by
  induction h with
  | nil => exact h0
  | cons hxy _ ih => exact ih (hstep _ _ h0 hxy)

section Climb
variable [LinearOrder α] {f : α → α}

theorem le_iterate (hf : ∀ x, a ≤ x → x ≤ f x) (n : ℕ) : a ≤ f^[n] a := by
  induction n with
  | zero => exact le_rfl
  | succ n ih =>
    rw [Function.iterate_succ_apply']
    exact ih.trans (hf _ ih)

/-- Between `a` and `z`, `n` steps that each reach everything up to `f` of their start reach
everything up to the `n`-th iterate. -/
theorem exists_walk_up {z : α} (hf : ∀ x, a ≤ x → x ≤ f x)
    (hr : ∀ x y, a ≤ x → x < y → y ≤ z → y ≤ f x → r x y) (n : ℕ) :
    ∀ y, a ≤ y → y ≤ z → y ≤ f^[n] a → ∃ bs, bs.length ≤ n ∧ Walk r a bs y := by
  induction n with
  | zero =>
    intro y hay _ hya
    obtain rfl : a = y := le_antisymm hay hya
    exact ⟨[], le_rfl, .nil a⟩
  | succ n ih =>
    intro y hay hyz hy
    rcases le_or_gt y (f^[n] a) with hle | hlt
    · obtain ⟨bs, hlen, hwalk⟩ := ih y hay hyz hle
      exact ⟨bs, by omega, hwalk⟩
    · -- the last step starts at the iterate itself
      rw [Function.iterate_succ_apply'] at hy
      have hfrom : a ≤ f^[n] a := le_iterate hf n
      obtain ⟨bs, hlen, hwalk⟩ := ih (f^[n] a) hfrom (hlt.le.trans hyz) le_rfl
      refine ⟨bs ++ [y], ?_, hwalk.trans (.single (hr _ y hfrom hlt hyz hy))⟩
      rw [List.length_append, List.length_singleton]
      omega

/-- The same downwards. -/
theorem exists_walk_down {z : α} (hf : ∀ x, x ≤ a → f x ≤ x)
    (hr : ∀ x y, x ≤ a → y < x → z ≤ y → f x ≤ y → r x y) (n : ℕ) :
    ∀ y, y ≤ a → z ≤ y → f^[n] a ≤ y → ∃ bs, bs.length ≤ n ∧ Walk r a bs y := by
  intro y hya hzy hy
  exact @exists_walk_up αᵒᵈ r a _ f z hf hr n y hya hzy hy

end Climb

end Walks
