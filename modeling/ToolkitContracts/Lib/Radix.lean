import Mathlib.Data.List.DropRight
import Mathlib.Data.Nat.Digits.Lemmas
import Mathlib.Tactic.Ring

/-!
# Numerals in two bases

A number that is written in one base is converted to another by Horner's rule: the digits are
read from the highest on, and for each the number so far is multiplied by the first base and the
digit added, in a buffer of digits of the second. Mathlib's `Nat.ofDigits` and `Nat.digits` put
the lowest digit first, and so does the buffer. What it needs is that its unused places hold
zeros, and that it is long enough.
-/

namespace Radix

/-- Horner's rule: `ds` are read after the digits of `acc`, the highest first. -/
def horner (b acc : ℕ) (ds : List ℕ) : ℕ := ds.foldl (fun acc d => acc * b + d) acc

/-- From the place `used` on there are zeros only. -/
def ZerosFrom (used : ℕ) (l : List ℕ) : Prop := ∀ d ∈ l.drop used, d = 0

variable {b used acc : ℕ} {l ds : List ℕ}

/-! ## Horner's rule -/

@[simp] theorem horner_nil : horner b acc [] = acc := rfl

@[simp] theorem horner_cons {d : ℕ} : horner b acc (d :: ds) = horner b (acc * b + d) ds := rfl

theorem horner_append {ds' : List ℕ} : horner b acc (ds ++ ds') = horner b (horner b acc ds) ds' :=
  List.foldl_append

/-- Read from the highest digit on, a list denotes what it does from the lowest on. -/
theorem horner_reverse (b : ℕ) (l : List ℕ) : horner b 0 l.reverse = Nat.ofDigits b l := by
  induction l with
  | nil => rfl
  | cons d l ih =>
    rw [List.reverse_cons, horner_append, ih, horner_cons, horner_nil, Nat.ofDigits_cons]
    ring

/-- Digits read behind a number of `k` places make one of so many places more. -/
theorem horner_lt (hds : ∀ d ∈ ds, d < b) {k : ℕ} (hacc : acc < b ^ k) :
    horner b acc ds < b ^ (k + ds.length) := by
  induction ds generalizing acc k with
  | nil => exact hacc
  | cons d ds ih =>
    have hd := hds d List.mem_cons_self
    have hstep : acc * b + d < b ^ (k + 1) := by
      calc acc * b + d < acc * b + b := Nat.add_lt_add_left hd _
        _ = (acc + 1) * b := by ring
        _ ≤ b ^ k * b := Nat.mul_le_mul_right b hacc
        _ = b ^ (k + 1) := (pow_succ b k).symm
    have hrest := ih (fun e he => hds e (List.mem_cons_of_mem _ he)) hstep
    rw [horner_cons, List.length_cons]
    rwa [Nat.add_assoc, Nat.add_comm 1] at hrest

/-! ## Unused places -/

theorem ofDigits_eq_zero (h : ∀ d ∈ l, d = 0) : Nat.ofDigits b l = 0 := by
  rw [List.eq_replicate_of_mem h, Nat.ofDigits_replicate_zero]

/-- The places in use denote the whole number. -/
theorem ofDigits_take (h : ZerosFrom used l) : Nat.ofDigits b (l.take used) = Nat.ofDigits b l := by
  have hsplit : Nat.ofDigits b l = Nat.ofDigits b (l.take used ++ l.drop used) := by
    rw [List.take_append_drop]
  rw [hsplit, Nat.ofDigits_append, ofDigits_eq_zero h, mul_zero, add_zero]

/-- Without the zeros above them, digits are the digits of the number that they denote. -/
theorem rdropWhile_eq_digits (hb : 1 < b) (h : ∀ d ∈ l, d < b) :
    l.rdropWhile (· == 0) = Nat.digits b (Nat.ofDigits b l) := by
  have hvalue : Nat.ofDigits b l = Nat.ofDigits b (l.rdropWhile (· == 0)) := by
    have hsplit : l.rdropWhile (· == 0) ++ l.rtakeWhile (· == 0) = l :=
      List.rdropWhile_append_rtakeWhile
    have hzeros : ∀ d ∈ l.rtakeWhile (· == 0), d = 0 := by
      intro d hd
      simpa using List.mem_rtakeWhile_imp hd
    conv_lhs => rw [← hsplit]
    rw [Nat.ofDigits_append, ofDigits_eq_zero hzeros, mul_zero, add_zero]
  rw [hvalue, Nat.digits_ofDigits b hb]
  · intro d hd
    exact h d (List.IsPrefix.mem hd (List.rdropWhile_prefix _ l))
  · intro hne
    simpa using List.rdropWhile_last_not (· == 0) l hne

/-- Read from the highest digit on, the digits in use without leading zeros. -/
theorem dropWhile_reverse_take (hb : 1 < b) (hl : ∀ d ∈ l, d < b) (h : ZerosFrom used l) :
    (l.take used).reverse.dropWhile (· == 0) = (Nat.digits b (Nat.ofDigits b l)).reverse := by
  have htake : ∀ d ∈ l.take used, d < b := fun d hd => hl d (List.mem_of_mem_take hd)
  rw [← ofDigits_take h, ← rdropWhile_eq_digits hb htake, List.rdropWhile, List.reverse_reverse]

/-- The digits of a number do not start with a zero. -/
theorem head_digits_reverse (b n : ℕ) : (Nat.digits b n).reverse.head? ≠ some 0 := by
  rw [List.head?_reverse]
  intro hzero
  by_cases hn : n = 0
  · rw [hn, Nat.digits_zero] at hzero
    cases hzero
  · have hne : Nat.digits b n ≠ [] := Nat.digits_ne_nil_iff_ne_zero.mpr hn
    exact Nat.getLast_digit_ne_zero b hn ((List.getLast_eq_iff_getLast?_eq_some hne).mpr hzero)

/-! ## The buffer's length -/

/-- Where `b ^ p` fits in `c ^ q`, a numeral in base `b` fits in `q / p` as many places of base
`c`, rounded up. -/
theorem pow_le_pow_of_rate {c p q n m : ℕ} (hc : 0 < c) (hp : p ≠ 0) (hrate : b ^ p ≤ c ^ q)
    (hn : n * q ≤ m * p) : b ^ n ≤ c ^ m := by
  apply (Nat.pow_le_pow_iff_left hp).mp
  calc (b ^ n) ^ p = (b ^ p) ^ n := by rw [← pow_mul, ← pow_mul, mul_comm]
    _ ≤ (c ^ q) ^ n := Nat.pow_le_pow_left hrate n
    _ = c ^ (n * q) := by rw [← pow_mul, mul_comm]
    _ ≤ c ^ (m * p) := Nat.pow_le_pow_right hc hn
    _ = (c ^ m) ^ p := by rw [pow_mul]

end Radix
