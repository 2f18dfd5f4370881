import Mathlib.Algebra.BigOperators.Group.List.Basic
import Mathlib.Algebra.Order.BigOperators.Group.List
import Mathlib.Algebra.Order.Ring.Int
import Mathlib.Tactic.Common

/-!
# Apportioning an amount by weights

An amount `q` is divided between takers whose weights add up to `D`. Each taker is entitled
to its proportion rounded down, and the first one to what the rounding leaves over. Shares
that never exceed the proportions fit the amount, however they were computed.
-/

namespace Apportion

/-- The proportion of one taker, rounded down. -/
def floorShare (D : ℕ) (q : ℤ) (w : ℕ) : ℤ := q * w / D

/-- What the rounding leaves over. -/
def remainder (D : ℕ) (q : ℤ) (ws : List ℕ) : ℤ := q - (ws.map (floorShare D q)).sum

/-- The rounded proportions, the first one together with the remainder. -/
def entitlements (D : ℕ) (q : ℤ) : List ℕ → List ℤ
  | [] => []
  | w :: ws => (floorShare D q w + remainder D q (w :: ws)) :: ws.map (floorShare D q)

/-- Shares in which the first one is whatever the others leave of `q`. -/
def topUp (q : ℤ) : List ℤ → List ℤ
  | [] => []
  | _ :: xs => (q - xs.sum) :: xs

/-- The shares before the first empty one; the others are lost. -/
def untilZero : List ℤ → List ℤ
  | [] => []
  | x :: xs => if x ≤ 0 then 0 :: xs.map (fun _ => 0) else x :: untilZero xs

variable {D : ℕ} {q : ℤ} {ws : List ℕ} {xs : List ℤ}

theorem entitlements_eq_topUp (D : ℕ) (q : ℤ) (ws : List ℕ) :
    entitlements D q ws = topUp q (ws.map (floorShare D q)) := by
  cases ws with
  | nil => rfl
  | cons w ws =>
    have hhead : floorShare D q w + remainder D q (w :: ws) = q - (ws.map (floorShare D q)).sum := by
      rw [remainder, List.map_cons, List.sum_cons]
      omega
    rw [entitlements, List.map_cons, topUp, hhead]

/-- Two lists that are topped up to the same amount agree when they agree after the head. -/
theorem topUp_inj (x y : ℤ) (xs ys : List ℤ) : topUp q (x :: xs) = topUp q (y :: ys) ↔ xs = ys := by
  rw [topUp, topUp, List.cons_eq_cons]
  constructor
  · intro h
    exact h.2
  · intro h
    rw [h]
    exact ⟨rfl, rfl⟩

/-- Lists of one length that are topped up to the same amount agree when they agree at every place
after the first. -/
theorem topUp_eq_iff {ys : List ℤ} (hlength : xs.length = ys.length) :
    topUp q xs = topUp q ys ↔ ∀ i, 0 < i → xs[i]? = ys[i]? := by
  cases xs with
  | nil =>
    rw [List.length_nil, eq_comm, List.length_eq_zero_iff] at hlength
    simp [hlength]
  | cons x xs =>
    cases ys with
    | nil => simp at hlength
    | cons y ys =>
      rw [topUp_inj]
      constructor
      · intro htails i hi
        cases i with
        | zero => exact absurd hi (lt_irrefl 0)
        | succ i => rw [List.getElem?_cons_succ, List.getElem?_cons_succ, htails]
      · intro hall
        apply List.ext_getElem?
        intro i
        have hnext := hall (i + 1) (Nat.succ_pos i)
        rwa [List.getElem?_cons_succ, List.getElem?_cons_succ] at hnext

/-- Shares that do not exceed the proportions add up to no more than their proportion. -/
theorem sum_mul_le {share : ℕ → ℤ} (hshare : ∀ w ∈ ws, share w * D ≤ q * w) :
    (ws.map share).sum * D ≤ q * (ws.sum : ℕ) := by
  induction ws with
  | nil => simp
  | cons w ws ih =>
    have hhead := hshare w (List.mem_cons_self ..)
    have htail := ih fun v hv => hshare v (List.mem_cons_of_mem _ hv)
    rw [List.map_cons, List.sum_cons, List.sum_cons, Nat.cast_add, add_mul, mul_add]
    omega

/-- Shares that do not exceed the proportions fit the amount. -/
theorem sum_le {share : ℕ → ℤ} (hD : 0 < D) (hq : 0 ≤ q) (hws : ws.sum ≤ D)
    (hshare : ∀ w ∈ ws, share w * D ≤ q * w) : (ws.map share).sum ≤ q := by
  have hsum := sum_mul_le hshare
  have hall : q * (ws.sum : ℕ) ≤ q * D := Int.mul_le_mul_of_nonneg_left (by omega) hq
  have hD' : 0 < (D : ℤ) := by omega
  exact le_of_mul_le_mul_right (hsum.trans hall) hD'

/-- Shares that do not exceed the proportions make up the proportion of their sum when and only
when each of them is exact. -/
theorem sum_mul_eq_iff {share : ℕ → ℤ} (hshare : ∀ w ∈ ws, share w * D ≤ q * w) :
    (ws.map share).sum * D = q * (ws.sum : ℕ) ↔ ∀ w ∈ ws, share w * D = q * w := by
  induction ws with
  | nil => simp
  | cons w ws ih =>
    have hhead := hshare w (List.mem_cons_self ..)
    have hrest : ∀ v ∈ ws, share v * D ≤ q * v := fun v hv => hshare v (List.mem_cons_of_mem _ hv)
    have htail := sum_mul_le hrest
    rw [List.forall_mem_cons, ← ih hrest, List.map_cons, List.sum_cons, List.sum_cons, Nat.cast_add,
      add_mul, mul_add]
    omega

/-- No share is lost when none is empty. -/
theorem untilZero_of_pos (h : ∀ x ∈ xs, 0 < x) : untilZero xs = xs := by
  induction xs with
  | nil => rfl
  | cons x xs ih =>
    rw [untilZero, if_neg (not_le.mpr (h x (List.mem_cons_self ..))),
      ih fun y hy => h y (List.mem_cons_of_mem _ hy)]

theorem sum_map_zero (xs : List ℤ) : (xs.map fun _ => (0 : ℤ)).sum = 0 := by
  induction xs with
  | nil => rfl
  | cons x xs ih => rw [List.map_cons, List.sum_cons, ih, add_zero]

/-- What survives is no more than all of it. -/
theorem sum_untilZero_le (h : ∀ x ∈ xs, 0 ≤ x) : (untilZero xs).sum ≤ xs.sum := by
  induction xs with
  | nil => exact le_refl _
  | cons x xs ih =>
    have hx := h x (List.mem_cons_self ..)
    have hrest : ∀ y ∈ xs, 0 ≤ y := fun y hy => h y (List.mem_cons_of_mem _ hy)
    have hsum := ih hrest
    have hnonneg := List.sum_nonneg hrest
    rw [untilZero]
    split
    · rw [List.sum_cons, List.sum_cons, sum_map_zero]
      omega
    · rw [List.sum_cons, List.sum_cons]
      omega

/-- The surviving shares leave nothing of the amount when and only when all of them are exact. -/
theorem sum_untilZero_eq_iff {share : ℕ → ℤ} (hD : 0 < D) (hq : 0 < q) (hws : ws.sum = D)
    (hpos : ∀ w ∈ ws, 0 < w) (hnonneg : ∀ w ∈ ws, 0 ≤ share w)
    (hshare : ∀ w ∈ ws, share w * D ≤ q * w) :
    (untilZero (ws.map share)).sum = q ↔ ∀ w ∈ ws, share w * D = q * w := by
  have hD' : (0 : ℤ) < D := by omega
  rw [← sum_mul_eq_iff hshare, hws, mul_left_inj' hD'.ne']
  constructor
  · intro hsum
    have hle : (untilZero (ws.map share)).sum ≤ (ws.map share).sum := sum_untilZero_le fun x hx => by
      obtain ⟨w, hw, rfl⟩ := List.mem_map.mp hx
      exact hnonneg w hw
    exact le_antisymm (sum_le hD hq.le hws.le hshare) (hsum ▸ hle)
  · intro hsum
    have hexact : ∀ w ∈ ws, share w * D = q * w := by
      rw [← sum_mul_eq_iff hshare, hws, hsum]
    have hall : ∀ x ∈ ws.map share, 0 < x := by
      intro x hx
      obtain ⟨w, hw, rfl⟩ := List.mem_map.mp hx
      have hw' : (0 : ℤ) < w := by
        have := hpos w hw
        omega
      have hprod : 0 < share w * D := by
        rw [hexact w hw]
        exact mul_pos hq hw'
      exact (mul_pos_iff_of_pos_right hD').mp hprod
    rw [untilZero_of_pos hall, hsum]

theorem length_untilZero (xs : List ℤ) : (untilZero xs).length = xs.length := by
  induction xs with
  | nil => rfl
  | cons x xs ih =>
    rw [untilZero]
    split
    · simp
    · rw [List.length_cons, List.length_cons, ih]

/-- A share survives when no earlier one is empty. -/
theorem getElem?_untilZero (hxs : ∀ x ∈ xs, 0 ≤ x) (i : ℕ) :
    (untilZero xs)[i]? = xs[i]?.map fun x => if ∀ y ∈ xs.take i, 0 < y then x else 0 := by
  induction xs generalizing i with
  | nil => simp [untilZero]
  | cons x xs ih =>
    have hx := hxs x (List.mem_cons_self ..)
    have hrest : ∀ y ∈ xs, 0 ≤ y := fun y hy => hxs y (List.mem_cons_of_mem _ hy)
    rw [untilZero]
    by_cases hzero : x ≤ 0
    · rw [if_pos hzero]
      cases i with
      | zero =>
        have hx0 : x = 0 := by omega
        simp [hx0]
      | succ i =>
        rw [List.getElem?_cons_succ, List.getElem?_cons_succ, List.getElem?_map]
        simp [not_lt.mpr hzero]
    · rw [if_neg hzero]
      cases i with
      | zero => simp
      | succ i =>
        have hpos : 0 < x := by omega
        simp [ih hrest, hpos]

/-- What survives at a place is what its taker is entitled to exactly when that is nothing, or the
share is right and no earlier one is empty. -/
theorem getElem?_untilZero_eq_iff {share : ℕ → ℤ} (hshare : ∀ w ∈ ws, 0 ≤ share w)
    (hzero : ∀ w ∈ ws, floorShare D q w = 0 → share w = 0) {i w : ℕ} (hw : ws[i]? = some w) :
    (untilZero (ws.map share))[i]? = (ws.map (floorShare D q))[i]? ↔
      floorShare D q w = 0 ∨ (share w = floorShare D q w ∧ ∀ v ∈ ws.take i, 0 < share v) := by
  have hnonneg : ∀ x ∈ ws.map share, 0 ≤ x := by
    intro x hx
    obtain ⟨v, hv, rfl⟩ := List.mem_map.mp hx
    exact hshare v hv
  have hmem : w ∈ ws := List.mem_of_getElem? hw
  -- the share at the place, after the cut
  have hget : (untilZero (ws.map share))[i]?
      = some (if ∀ v ∈ ws.take i, 0 < share v then share w else 0) := by
    rw [getElem?_untilZero hnonneg, List.getElem?_map, hw]
    simp [← List.map_take]
  rw [hget, List.getElem?_map, hw, Option.map_some, Option.some.injEq]
  by_cases hbefore : ∀ v ∈ ws.take i, 0 < share v
  · rw [if_pos hbefore]
    constructor
    · exact fun h => Or.inr ⟨h, hbefore⟩
    · rintro (h | h)
      · rw [hzero w hmem h, h]
      · exact h.1
  · rw [if_neg hbefore]
    constructor
    · exact fun h => Or.inl h.symm
    · rintro (h | h)
      · exact h.symm
      · exact absurd h.2 hbefore

/-- What survives of the shares of the later takers is what they are entitled to exactly when
each of them is entitled to nothing, or its share is right and no earlier one is empty. -/
theorem topUp_untilZero_iff {share : ℕ → ℤ} (hshare : ∀ w ∈ ws, 0 ≤ share w)
    (hzero : ∀ w ∈ ws, floorShare D q w = 0 → share w = 0) :
    topUp q (untilZero (ws.map share)) = entitlements D q ws ↔
      ∀ i w, ws[i]? = some w → 0 < i →
        floorShare D q w = 0 ∨ (share w = floorShare D q w ∧ ∀ v ∈ ws.take i, 0 < share v) := by
  have hlength : (untilZero (ws.map share)).length = (ws.map (floorShare D q)).length := by
    rw [length_untilZero, List.length_map, List.length_map]
  rw [entitlements_eq_topUp, topUp_eq_iff hlength]
  constructor
  · intro hall i w hw hi
    exact (getElem?_untilZero_eq_iff hshare hzero hw).mp (hall i hi)
  · intro hall i hi
    cases hw : ws[i]? with
    | none =>
      -- behind the end of the list there is nothing to compare
      have hout := List.getElem?_eq_none_iff.mp hw
      rw [List.getElem?_map, hw, List.getElem?_eq_none_iff.mpr (by
        rwa [length_untilZero, List.length_map])]
      rfl
    | some w => exact (getElem?_untilZero_eq_iff hshare hzero hw).mpr (hall i w hw hi)

end Apportion
