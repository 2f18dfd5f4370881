import Mathlib.Algebra.BigOperators.Group.List.Basic
import Mathlib.Algebra.Order.BigOperators.Group.List
import Mathlib.Data.List.Nodup
import Mathlib.Order.Basic

/-!
# Keyed tables

A table is a list of rows in strictly ascending order of a key, so that no two rows share
a key and iteration by key is iteration over the list. The order is a field of the
structure: every operation below returns a table, and nothing later has to re-prove that
the rows it looks at have distinct keys.

Three groups of facts are what a program proof needs:

* membership and lookup after `put` and `erase`;
* sums of a column after `put` and `erase`, in the form "new row minus old row";
* the largest key, for tables whose keys are handed out in increasing order.
-/

/-- Rows in strictly ascending order of `key`. -/
structure Table {ρ κ : Type*} [LinearOrder κ] (key : ρ → κ) where
  rows : List ρ
  sorted : rows.Pairwise fun a b => key a < key b

namespace Table

variable {ρ κ : Type*} [LinearOrder κ] {key : ρ → κ}

instance : Membership ρ (Table key) := ⟨fun t r => r ∈ t.rows⟩

theorem mem_def {t : Table key} {r : ρ} : r ∈ t ↔ r ∈ t.rows := Iff.rfl

/-- The table with no rows. -/
def empty : Table key := ⟨[], List.Pairwise.nil⟩

@[simp] theorem not_mem_empty (r : ρ) : r ∉ (empty : Table key) := by
  simp [mem_def, empty]

/-- The row with key `k`. -/
def find? (t : Table key) (k : κ) : Option ρ := t.rows.find? fun r => decide (key r = k)

/-- Remove the row with key `k`, if there is one. -/
def erase (t : Table key) (k : κ) : Table key :=
  ⟨t.rows.filter fun r => decide (key r ≠ k), t.sorted.filter _⟩

/-- Remove the rows with the keys `ks`. -/
def eraseAll (t : Table key) (ks : List κ) : Table key :=
  ⟨t.rows.filter fun r => decide (key r ∉ ks), t.sorted.filter _⟩

/-- Store a row, replacing the row with the same key if there is one. -/
def put (t : Table key) (x : ρ) : Table key where
  rows := t.rows.filter (fun r => decide (key r < key x)) ++
    x :: t.rows.filter (fun r => decide (key x < key r))
  sorted := by
    refine List.pairwise_append.mpr ⟨t.sorted.filter _, List.pairwise_cons.mpr
      ⟨fun b hb => by simpa using (List.mem_filter.mp hb).2, t.sorted.filter _⟩, ?_⟩
    intro a ha b hb
    have hax : key a < key x := by simpa using (List.mem_filter.mp ha).2
    rcases List.mem_cons.mp hb with rfl | hb
    · exact hax
    · exact hax.trans (by simpa using (List.mem_filter.mp hb).2)

/-- The first row behind the key `k`. -/
def next? (t : Table key) (k : κ) : Option ρ := t.rows.find? fun r => decide (k < key r)

/-- The largest key of the table. -/
def lastKey? (t : Table key) : Option κ := t.rows.getLast?.map key

/-! ## Membership and lookup -/

theorem nodup_keys (t : Table key) : (t.rows.map key).Nodup :=
  List.pairwise_map.mpr (t.sorted.imp fun hlt => hlt.ne)

/-- Two rows with one key are one row. -/
theorem eq_of_key_eq {t : Table key} {r r' : ρ} (hr : r ∈ t) (hr' : r' ∈ t)
    (h : key r = key r') : r = r' :=
  List.inj_on_of_nodup_map t.nodup_keys hr hr' h

theorem find?_eq_some {t : Table key} {k : κ} {r : ρ} :
    t.find? k = some r ↔ r ∈ t ∧ key r = k := by
  constructor
  · intro h
    exact ⟨List.mem_of_find?_eq_some h, by simpa using List.find?_some h⟩
  · rintro ⟨hr, hk⟩
    cases hf : t.find? k with
    | none =>
      have hnone := List.find?_eq_none.mp hf r hr
      simp [hk] at hnone
    | some r' =>
      have hr' : r' ∈ t := List.mem_of_find?_eq_some hf
      have hk' : key r' = k := by simpa using List.find?_some hf
      rw [eq_of_key_eq hr' hr (hk'.trans hk.symm)]

theorem find?_eq_none {t : Table key} {k : κ} :
    t.find? k = none ↔ ∀ r ∈ t, key r ≠ k := by
  simp [find?, mem_def, List.find?_eq_none]

theorem find?_self {t : Table key} {r : ρ} (hr : r ∈ t) : t.find? (key r) = some r :=
  find?_eq_some.mpr ⟨hr, rfl⟩

/-- A row that was found is the row of its own key. -/
theorem find?_key {t : Table key} {k : κ} {r : ρ} (h : t.find? k = some r) :
    t.find? (key r) = some r :=
  find?_self (find?_eq_some.mp h).1

theorem mem_erase {t : Table key} {k : κ} {r : ρ} : r ∈ t.erase k ↔ r ∈ t ∧ key r ≠ k := by
  simp [mem_def, erase]

/-- Removing an absent key changes nothing. -/
theorem erase_of_none {t : Table key} {k : κ} (h : t.find? k = none) : t.erase k = t := by
  have hall : ∀ r ∈ t.rows, (decide (key r ≠ k)) = true := by
    intro r hr
    simpa using find?_eq_none.mp h r hr
  cases t
  simp only [erase, List.filter_eq_self.mpr hall]

theorem mem_eraseAll {t : Table key} {ks : List κ} {r : ρ} :
    r ∈ t.eraseAll ks ↔ r ∈ t ∧ key r ∉ ks := by
  simp [mem_def, eraseAll]

/-- Erasing the keys of some rows erases these rows and no others. -/
theorem mem_eraseAll_map {t : Table key} {rs : List ρ} (hrs : ∀ r ∈ rs, r ∈ t) {r : ρ} :
    r ∈ t.eraseAll (rs.map key) ↔ r ∈ t ∧ r ∉ rs := by
  rw [mem_eraseAll]
  refine and_congr_right fun hr => not_congr ?_
  constructor
  · intro hkey
    obtain ⟨r', hr', hsame⟩ := List.mem_map.mp hkey
    rwa [← eq_of_key_eq (hrs r' hr') hr hsame]
  · exact List.mem_map_of_mem

theorem eraseAll_nil (t : Table key) : t.eraseAll [] = t := by
  cases t
  simp [eraseAll]

theorem eraseAll_cons (t : Table key) (k : κ) (ks : List κ) :
    t.eraseAll (k :: ks) = (t.erase k).eraseAll ks := by
  rw [eraseAll, eraseAll, mk.injEq, erase, List.filter_filter]
  refine List.filter_congr fun r _ => ?_
  by_cases hr : key r = k
  · simp [hr]
  · simp [hr]

/-- Without the keys of its first elements a list with distinct keys is what is behind them. -/
theorem filter_keys_take {l : List ρ} (h : (l.map key).Nodup) (n : ℕ) :
    l.filter (fun r => decide (key r ∉ (l.take n).map key)) = l.drop n := by
  have hkeys := h
  rw [← List.take_append_drop n l, List.map_append] at hkeys
  obtain ⟨-, -, hdisjoint⟩ := List.nodup_append'.mp hkeys
  conv_lhs => rw [← List.take_append_drop n l]
  rw [List.filter_append, List.take_append_drop, List.filter_eq_nil_iff.mpr,
    List.filter_eq_self.mpr, List.nil_append]
  · intro r hr
    exact decide_eq_true fun hmem => hdisjoint hmem (List.mem_map_of_mem hr)
  · intro r hr
    rw [decide_eq_true_eq, not_not]
    exact List.mem_map_of_mem hr

theorem mem_put {t : Table key} {x r : ρ} : r ∈ t.put x ↔ r = x ∨ (r ∈ t ∧ key r ≠ key x) := by
  simp only [mem_def, put, List.mem_append, List.mem_filter, List.mem_cons, decide_eq_true_eq]
  constructor
  · rintro (⟨hr, hlt⟩ | rfl | ⟨hr, hlt⟩)
    · exact Or.inr ⟨hr, hlt.ne⟩
    · exact Or.inl rfl
    · exact Or.inr ⟨hr, hlt.ne'⟩
  · rintro (rfl | ⟨hr, hne⟩)
    · exact Or.inr (Or.inl rfl)
    · rcases lt_or_gt_of_ne hne with hlt | hgt
      · exact Or.inl ⟨hr, hlt⟩
      · exact Or.inr (Or.inr ⟨hr, hgt⟩)

theorem mem_put_self (t : Table key) (x : ρ) : x ∈ t.put x := mem_put.mpr (Or.inl rfl)

theorem find?_put (t : Table key) (x : ρ) (k : κ) :
    (t.put x).find? k = if k = key x then some x else t.find? k := by
  split
  · next h => exact find?_eq_some.mpr ⟨mem_put_self t x, h.symm⟩
  · next h =>
    cases hf : t.find? k with
    | none =>
      refine find?_eq_none.mpr fun r hr => ?_
      rcases mem_put.mp hr with rfl | ⟨hr, -⟩
      · exact fun hk => h hk.symm
      · exact find?_eq_none.mp hf r hr
    | some r =>
      obtain ⟨hr, hk⟩ := find?_eq_some.mp hf
      exact find?_eq_some.mpr ⟨mem_put.mpr (Or.inr ⟨hr, fun hx => h (hk ▸ hx)⟩), hk⟩

theorem find?_erase (t : Table key) (j k : κ) :
    (t.erase j).find? k = if k = j then none else t.find? k := by
  split
  · next h =>
    subst h
    exact find?_eq_none.mpr fun r hr => (mem_erase.mp hr).2
  · next h =>
    cases hf : t.find? k with
    | none => exact find?_eq_none.mpr fun r hr => find?_eq_none.mp hf r (mem_erase.mp hr).1
    | some r =>
      obtain ⟨hr, hk⟩ := find?_eq_some.mp hf
      exact find?_eq_some.mpr ⟨mem_erase.mpr ⟨hr, fun hj => h (hk ▸ hj)⟩, hk⟩

/-- The row that is new after a new row was stored is that row. -/
theorem find?_new_put {t : Table key} {x : ρ} (h : t.find? (key x) = none) :
    ((t.put x).rows.find? fun r => (t.find? (key r)).isNone) = some x := by
  cases hf : (t.put x).rows.find? fun r => (t.find? (key r)).isNone with
  | none =>
    have hnone := List.find?_eq_none.mp hf x (mem_put_self t x)
    simp [h] at hnone
  | some r =>
    have hnew := List.find?_some hf
    rcases mem_put.mp (List.mem_of_find?_eq_some hf) with rfl | ⟨hr, -⟩
    · rfl
    · simp [find?_self hr] at hnew

theorem nodup_rows (t : Table key) : t.rows.Nodup := t.nodup_keys.of_map

/-- Storing a new row adds it to the others. -/
theorem perm_put_new {t : Table key} {x : ρ} (h : t.find? (key x) = none) :
    (t.put x).rows.Perm (x :: t.rows) := by
  have hnew : ∀ r ∈ t, key r ≠ key x := find?_eq_none.mp h
  have hx : x ∉ t.rows := fun hmem => hnew x hmem rfl
  apply (List.perm_ext_iff_of_nodup (t.put x).nodup_rows (t.nodup_rows.cons hx)).mpr
  intro r
  rw [List.mem_cons]
  refine mem_put.trans (or_congr Iff.rfl ?_)
  exact ⟨fun hr => hr.1, fun hr => ⟨hr, hnew r hr⟩⟩

/-- A property of every row survives storing a row that has it. -/
theorem forall_put {t : Table key} {x : ρ} {P : ρ → Prop} (ht : ∀ r ∈ t, P r) (hx : P x) :
    ∀ r ∈ t.put x, P r := by
  intro r hr
  rcases mem_put.mp hr with rfl | ⟨hr, -⟩
  · exact hx
  · exact ht r hr

/-- A property of every row survives removing one. -/
theorem forall_erase {t : Table key} {k : κ} {P : ρ → Prop} (ht : ∀ r ∈ t, P r) :
    ∀ r ∈ t.erase k, P r :=
  fun r hr => ht r (mem_erase.mp hr).1

/-! ## Iteration -/

section Iteration
variable {t : Table key} {front back : List ρ} {r : ρ}

/-- The rows before a row have smaller keys, those behind it larger ones. -/
theorem keys_around (h : t.rows = front ++ r :: back) :
    (∀ r' ∈ front, key r' < key r) ∧ ∀ r' ∈ back, key r < key r' := by
  have hsorted := t.sorted
  rw [h] at hsorted
  obtain ⟨-, hback, hcross⟩ := List.pairwise_append.mp hsorted
  exact ⟨fun r' hr' => hcross r' hr' r List.mem_cons_self,
    fun r' hr' => List.rel_of_pairwise_cons hback hr'⟩

theorem find?_behind {k : κ} (hfront : ∀ r' ∈ front, key r' ≤ k) (hback : ∀ r' ∈ back, k < key r') :
    (front ++ back).find? (fun r' => decide (k < key r')) = back.head? := by
  have hskip : front.find? (fun r' => decide (k < key r')) = none := by
    rw [List.find?_eq_none]
    intro r' hr'
    simpa using hfront r' hr'
  rw [List.find?_append, hskip, Option.none_or]
  cases back with
  | nil => rfl
  | cons r' back =>
    rw [List.find?_cons_of_pos, List.head?_cons]
    simpa using hback r' List.mem_cons_self

theorem next?_of_rows (h : t.rows = front ++ r :: back) : t.next? (key r) = back.head? := by
  obtain ⟨hfront, hback⟩ := keys_around h
  rw [next?, h, List.append_cons]
  refine find?_behind (fun r' hr' => ?_) hback
  rcases List.mem_append.mp hr' with hr' | hr'
  · exact (hfront r' hr').le
  · rw [List.mem_singleton.mp hr']

/-- Erasing a row leaves the rows before and behind it. -/
theorem rows_erase (h : t.rows = front ++ r :: back) :
    (t.erase (key r)).rows = front ++ back := by
  obtain ⟨hfront, hback⟩ := keys_around h
  have hkeep : ∀ l : List ρ, (∀ r' ∈ l, key r' ≠ key r) →
      l.filter (fun r' => decide (key r' ≠ key r)) = l := by
    intro l hl
    exact List.filter_eq_self.mpr fun r' hr' => by simpa using hl r' hr'
  show t.rows.filter (fun r' => decide (key r' ≠ key r)) = front ++ back
  rw [h, List.filter_append, List.filter_cons_of_neg (by simp),
    hkeep front fun r' hr' => (hfront r' hr').ne, hkeep back fun r' hr' => (hback r' hr').ne']

/-- Behind an erased row the iteration goes on as before. -/
theorem next?_erase (h : t.rows = front ++ r :: back) :
    (t.erase (key r)).next? (key r) = back.head? := by
  obtain ⟨hfront, hback⟩ := keys_around h
  rw [next?, rows_erase h]
  exact find?_behind (fun r' hr' => (hfront r' hr').le) hback

end Iteration

/-! ## Sums of a column -/

section Sum
variable {M : Type*} [AddCommMonoid M]

/-- The sum of `f` over the rows. -/
def sum (t : Table key) (f : ρ → M) : M := (t.rows.map f).sum

@[simp] theorem sum_empty (f : ρ → M) : (empty : Table key).sum f = 0 := rfl

theorem sum_congr {t : Table key} {f g : ρ → M} (h : ∀ r ∈ t, f r = g r) : t.sum f = t.sum g := by
  rw [sum, sum, List.map_congr_left h]

theorem sum_eq_zero {t : Table key} {f : ρ → M} (h : ∀ r ∈ t, f r = 0) : t.sum f = 0 := by
  rw [sum_congr h]
  simp [sum]

/-- Splitting a sum at the rows that satisfy `p`. -/
theorem sum_filter_add (l : List ρ) (p : ρ → Bool) (f : ρ → M) :
    ((l.filter p).map f).sum + ((l.filter fun r => !p r).map f).sum = (l.map f).sum := by
  induction l with
  | nil => simp
  | cons r l ih =>
    cases hp : p r
    · simp only [List.filter_cons, hp, Bool.not_false, Bool.false_eq_true, if_true, if_false,
        List.map_cons, List.sum_cons, ← ih]
      exact add_left_comm _ _ _
    · simp only [List.filter_cons, hp, Bool.not_true, Bool.false_eq_true, if_true, if_false,
        List.map_cons, List.sum_cons, ← ih]
      exact add_assoc _ _ _

theorem rows_filter_eq {t : Table key} {k : κ} {r : ρ} (h : t.find? k = some r) :
    (t.rows.filter fun x => decide (key x = k)) = [r] := by
  obtain ⟨hr, rfl⟩ := find?_eq_some.mp h
  have hall : ∀ x ∈ t.rows.filter (fun x => decide (key x = key r)), x = r := by
    intro x hx
    obtain ⟨hx, hk⟩ := List.mem_filter.mp hx
    exact eq_of_key_eq hx hr (by simpa using hk)
  have hnodup : (t.rows.filter fun x => decide (key x = key r)).Nodup :=
    (t.sorted.imp fun hlt heq => (heq ▸ hlt).false).filter _
  have hmem : r ∈ t.rows.filter fun x => decide (key x = key r) :=
    List.mem_filter.mpr ⟨hr, by simp⟩
  generalize t.rows.filter (fun x => decide (key x = key r)) = l at hall hnodup hmem
  match l, hall, hnodup, hmem with
  | [x], hall, _, _ => rw [hall x (by simp)]
  | x :: y :: l, hall, hnodup, _ =>
    have hx := hall x (by simp)
    have hy := hall y (by simp)
    simp [hx, hy] at hnodup

/-- Removing a row takes its summand out. -/
theorem sum_erase {t : Table key} {k : κ} {r : ρ} (h : t.find? k = some r) (f : ρ → M) :
    (t.erase k).sum f + f r = t.sum f := by
  have hsplit := sum_filter_add t.rows (fun x => decide (key x = k)) f
  rw [rows_filter_eq h] at hsplit
  rw [sum, sum, erase, ← hsplit, add_comm]
  congr 3
  · simp
  · refine List.filter_congr fun x _ => ?_
    simp

theorem sum_erase_of_none {t : Table key} {k : κ} (h : t.find? k = none) (f : ρ → M) :
    (t.erase k).sum f = t.sum f := by
  rw [erase_of_none h]

/-- Storing a row adds its summand to the other rows'. -/
theorem sum_put (t : Table key) (x : ρ) (f : ρ → M) :
    (t.put x).sum f = (t.erase (key x)).sum f + f x := by
  have hsplit := sum_filter_add (t.erase (key x)).rows (fun r => decide (key r < key x)) f
  have hlow : (t.erase (key x)).rows.filter (fun r => decide (key r < key x))
      = t.rows.filter fun r => decide (key r < key x) := by
    rw [erase, List.filter_filter]
    refine List.filter_congr fun r _ => ?_
    by_cases hlt : key r < key x
    · simp [hlt, hlt.ne]
    · simp [hlt]
  have hhigh : (t.erase (key x)).rows.filter (fun r => !decide (key r < key x))
      = t.rows.filter fun r => decide (key x < key r) := by
    rw [erase, List.filter_filter]
    refine List.filter_congr fun r _ => ?_
    rcases lt_trichotomy (key r) (key x) with hlt | heq | hgt
    · simp [hlt, hlt.not_gt]
    · simp [heq]
    · simp [hgt, hgt.not_gt, hgt.ne']
  rw [hlow, hhigh] at hsplit
  rw [sum, sum, put, ← hsplit, List.map_append, List.sum_append, List.map_cons, List.sum_cons]
  rw [add_assoc, add_comm (f x)]

theorem sum_put_new {t : Table key} {x : ρ} (h : t.find? (key x) = none) (f : ρ → M) :
    (t.put x).sum f = t.sum f + f x := by
  rw [sum_put, sum_erase_of_none h]

/-- Replacing a row takes the old summand out and puts the new one in. -/
theorem sum_put_old {t : Table key} {x r : ρ} (h : t.find? (key x) = some r) (f : ρ → M) :
    (t.put x).sum f + f r = t.sum f + f x := by
  rw [sum_put, ← sum_erase h f, add_right_comm]

/-- Removing several rows takes their summands out. -/
theorem sum_eraseAll {t : Table key} {l : List ρ} (hl : ∀ r ∈ l, r ∈ t)
    (hnodup : (l.map key).Nodup) (f : ρ → M) :
    (t.eraseAll (l.map key)).sum f + (l.map f).sum = t.sum f := by
  induction l generalizing t with
  | nil => rw [List.map_nil, eraseAll_nil, List.map_nil, List.sum_nil, add_zero]
  | cons r l ih =>
    rw [List.map_cons, List.nodup_cons] at hnodup
    have hrest : ∀ x ∈ l, x ∈ t.erase (key r) := by
      intro x hx
      refine mem_erase.mpr ⟨hl x (List.mem_cons_of_mem _ hx), fun hk => hnodup.1 ?_⟩
      rw [← hk]
      exact List.mem_map_of_mem hx
    rw [List.map_cons, eraseAll_cons, List.map_cons, List.sum_cons, add_comm (f r), ← add_assoc,
      ih hrest hnodup.2]
    exact sum_erase (find?_self (hl r (List.mem_cons_self ..))) f

/-- A sum over the row with one key. -/
theorem sum_ite_key (t : Table key) (k : κ) (f : ρ → M) :
    (t.sum fun r => if key r = k then f r else 0) = (t.find? k).elim 0 f := by
  cases hfind : t.find? k with
  | none => exact sum_eq_zero fun r hr => if_neg (find?_eq_none.mp hfind r hr)
  | some r =>
    have hrest : ((t.erase k).sum fun r => if key r = k then f r else 0) = 0 :=
      sum_eq_zero fun r hr => if_neg (mem_erase.mp hr).2
    rw [← sum_erase hfind, hrest, zero_add, if_pos (find?_eq_some.mp hfind).2]
    rfl

end Sum

section OrderedSum
variable {M : Type*} [AddCommMonoid M] [PartialOrder M] [IsOrderedAddMonoid M]

theorem sum_nonneg {t : Table key} {f : ρ → M} (h : ∀ r ∈ t, 0 ≤ f r) : 0 ≤ t.sum f := by
  refine List.sum_nonneg fun y hy => ?_
  obtain ⟨r, hr, rfl⟩ := List.mem_map.mp hy
  exact h r hr

/-- One row's summand is at most the sum, when no summand is negative. -/
theorem le_sum {t : Table key} {f : ρ → M} (h : ∀ r ∈ t, 0 ≤ f r) {r : ρ} (hr : r ∈ t) :
    f r ≤ t.sum f := by
  have hrest : 0 ≤ (t.erase (key r)).sum f := sum_nonneg (forall_erase h)
  rw [← sum_erase (find?_self hr) f]
  exact le_add_of_nonneg_left hrest

end OrderedSum

/-! ## The number of rows -/

theorem length_eq_sum (t : Table key) : t.rows.length = t.sum fun _ => 1 := by
  simp [sum]

theorem length_put_new {t : Table key} {x : ρ} (h : t.find? (key x) = none) :
    (t.put x).rows.length = t.rows.length + 1 := by
  rw [length_eq_sum, length_eq_sum, sum_put_new h]

theorem length_put_old {t : Table key} {x r : ρ} (h : t.find? (key x) = some r) :
    (t.put x).rows.length = t.rows.length := by
  have hsum := sum_put_old h fun _ => 1
  rw [length_eq_sum, length_eq_sum]
  exact Nat.add_right_cancel hsum

theorem length_erase {t : Table key} {k : κ} {r : ρ} (h : t.find? k = some r) :
    (t.erase k).rows.length + 1 = t.rows.length := by
  rw [length_eq_sum, length_eq_sum]
  exact sum_erase h fun _ => 1

/-! ## The largest key -/

theorem lastKey?_eq_none {t : Table key} : t.lastKey? = none ↔ t.rows = [] := by
  simp [lastKey?]

/-- The largest key is the key of a row. -/
theorem exists_of_lastKey? {t : Table key} {k : κ} (h : t.lastKey? = some k) :
    ∃ r ∈ t, key r = k := by
  obtain ⟨last, hlast, hkey⟩ := Option.map_eq_some_iff.mp h
  exact ⟨last, List.mem_of_getLast? hlast, hkey⟩

theorem le_of_lastKey? {t : Table key} {k : κ} (h : t.lastKey? = some k) {r : ρ} (hr : r ∈ t) :
    key r ≤ k := by
  obtain ⟨last, hlast, rfl⟩ := Option.map_eq_some_iff.mp h
  obtain ⟨init, hrows⟩ := List.getLast?_eq_some_iff.mp hlast
  have hsorted := t.sorted
  rw [mem_def, hrows] at hr
  rw [hrows] at hsorted
  rcases List.mem_append.mp hr with hr | hr
  · exact ((List.pairwise_append.mp hsorted).2.2 r hr last (by simp)).le
  · rw [List.mem_singleton.mp hr]

end Table
