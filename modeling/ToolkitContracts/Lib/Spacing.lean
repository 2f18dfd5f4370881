import Mathlib.Algebra.Order.Group.Nat
import Mathlib.Tactic.Common

/-!
# Spaced numbers

A list of numbers of which each lies at least `d` above all earlier ones: the times of something
that a limit allows once in `d` units. Any window of the number line then contains one of them for
each full `d` units of its length, and one more.
-/

namespace Spacing

/-- Each number of the list lies at least `d` above all earlier ones. -/
def Spaced (d : ℕ) (ts : List ℕ) : Prop := ts.Pairwise fun s t => s + d ≤ t

instance (d : ℕ) (ts : List ℕ) : Decidable (Spaced d ts) :=
  inferInstanceAs (Decidable (ts.Pairwise _))

variable {d t : ℕ} {ts : List ℕ}

theorem spaced_nil : Spaced d [] := List.Pairwise.nil

/-- Append a number that lies at least `d` above the last one. -/
theorem Spaced.snoc (h : Spaced d ts) (hlast : ∀ s ∈ ts.getLast?, s + d ≤ t) :
    Spaced d (ts ++ [t]) := by
  rcases List.eq_nil_or_concat ts with rfl | ⟨front, last, rfl⟩
  · exact List.pairwise_singleton _ _
  · rw [List.concat_eq_append] at h hlast ⊢
    have hbelow : last + d ≤ t := hlast last (by simp)
    refine List.pairwise_append.mpr ⟨h, List.pairwise_singleton _ _, ?_⟩
    intro s hs u hu
    rw [List.mem_singleton] at hu
    subst hu
    rcases List.mem_append.mp hs with hs | hs
    · have hs' : s + d ≤ last := (List.pairwise_append.mp h).2.2 s hs last (by simp)
      omega
    · rw [List.mem_singleton] at hs
      subst hs
      exact hbelow

/-- Leaving numbers out keeps the others spaced. -/
theorem Spaced.filter (h : Spaced d ts) (p : ℕ → Bool) : Spaced d (ts.filter p) :=
  List.Pairwise.filter p h

/-- From the first number on, every further one takes up another `d` units. -/
theorem Spaced.room {hi : ℕ} (h : Spaced d (t :: ts)) (hhi : ∀ s ∈ t :: ts, s ≤ hi) :
    t + ts.length * d ≤ hi := by
  induction ts generalizing t with
  | nil =>
    have ht : t ≤ hi := hhi t (by simp)
    simpa using ht
  | cons u us ih =>
    obtain ⟨hfirst, hrest⟩ := List.pairwise_cons.mp h
    have htu : t + d ≤ u := hfirst u (by simp)
    have hroom : u + us.length * d ≤ hi := ih hrest fun s hs => hhi s (List.mem_cons_of_mem _ hs)
    rw [List.length_cons, Nat.succ_mul]
    omega

/-- The number of spaced numbers in a window is bounded by the length of the window. -/
theorem Spaced.length_window_le (h : Spaced d ts) (hd : 0 < d) (lo hi : ℕ) :
    (ts.filter fun t => decide (lo ≤ t ∧ t ≤ hi)).length ≤ 1 + (hi - lo) / d := by
  have hspaced := h.filter fun t => decide (lo ≤ t ∧ t ≤ hi)
  have hmem : ∀ t ∈ ts.filter fun t => decide (lo ≤ t ∧ t ≤ hi), lo ≤ t ∧ t ≤ hi :=
    fun t ht => of_decide_eq_true (List.mem_filter.mp ht).2
  generalize ts.filter (fun t => decide (lo ≤ t ∧ t ≤ hi)) = us at hspaced hmem ⊢
  cases us with
  | nil => simp
  | cons t us =>
    have hroom : t + us.length * d ≤ hi := hspaced.room fun s hs => (hmem s hs).2
    have hlo : lo ≤ t := (hmem t (by simp)).1
    have hcount : us.length ≤ (hi - lo) / d := (Nat.le_div_iff_mul_le hd).mpr (by omega)
    rw [List.length_cons]
    omega

end Spacing
