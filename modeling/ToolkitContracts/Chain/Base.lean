import Mathlib.Algebra.Order.Ring.Int
import Mathlib.Tactic.Common

/-!
# Machine words and failing checks

The contracts compute with fixed-width C++ integers and fail through `eosio::check`, which
aborts the transaction with a text. Here an integer is a Lean `ℤ` or `ℕ`, and each place
where C++ stores a result in a word applies the function of that word (`i64`, `u64`, ...);
an action is a computation in `Except Abort`.
-/

namespace ToolkitContracts

/-! ## Words -/

/-- The value an `int64_t` holds after `x` is stored in it. -/
def i64 (x : ℤ) : ℤ := (x + 2 ^ 63) % 2 ^ 64 - 2 ^ 63

/-- The value an `int32_t` holds after `x` is stored in it. -/
def i32 (x : ℤ) : ℤ := (x + 2 ^ 31) % 2 ^ 32 - 2 ^ 31

/-- The value a `uint64_t` holds after `x` is stored in it. -/
def u64 (x : ℤ) : ℕ := (x % 2 ^ 64).toNat

/-- The value a `uint32_t` holds after `x` is stored in it. -/
def u32 (x : ℤ) : ℕ := (x % 2 ^ 32).toNat

theorem i64_bounds (x : ℤ) : -2 ^ 63 ≤ i64 x ∧ i64 x < 2 ^ 63 := by
  unfold i64
  omega

theorem i64_eq {x : ℤ} (h1 : -2 ^ 63 ≤ x) (h2 : x < 2 ^ 63) : i64 x = x := by
  unfold i64
  omega

theorem i64_i64 (x : ℤ) : i64 (i64 x) = i64 x := i64_eq (i64_bounds x).1 (i64_bounds x).2

theorem u64_eq {x : ℤ} (h1 : 0 ≤ x) (h2 : x < 2 ^ 64) : (u64 x : ℤ) = x := by
  unfold u64
  omega

theorem u64_lt (x : ℤ) : u64 x < 2 ^ 64 := by
  unfold u64
  omega

theorem u32_eq {x : ℤ} (h1 : 0 ≤ x) (h2 : x < 2 ^ 32) : (u32 x : ℤ) = x := by
  unfold u32
  omega

/-- A difference that wraps in `uint64_t` and is then narrowed to `int` comes out right when
it fits an `int`. -/
theorem i32_u64 {x : ℤ} (h1 : -2 ^ 31 ≤ x) (h2 : x < 2 ^ 31) : i32 (u64 x) = x := by
  unfold i32 u64
  omega

/-- An `int64_t` argument of an action. -/
abbrev Int64Arg := { x : ℤ // -2 ^ 63 ≤ x ∧ x < 2 ^ 63 }

/-- An `int64_t` literal. -/
def int64 (x : ℤ) : Int64Arg := ⟨i64 x, i64_bounds x⟩

/-! ## Checks -/

/-- Why a transaction was aborted: the error code, where the check has one, and the text. -/
structure Abort where
  code : Option ℕ
  msg : String
deriving DecidableEq, Repr

/-- `eosio::check`, `CHECK` and `ASSERT`. -/
def check (p : Prop) [Decidable p] (msg : String) : Except Abort Unit :=
  if p then .ok () else .error ⟨none, msg⟩

/-- `CHECKC`: a check that also reports an error code. -/
def checkc (p : Prop) [Decidable p] (code : ℕ) (msg : String) : Except Abort Unit :=
  if p then .ok () else .error ⟨some code, msg⟩

section Except
variable {ε α β : Type}

@[simp] theorem bind_eq_ok {x : Except ε α} {f : α → Except ε β} {b : β} :
    (x >>= f) = .ok b ↔ ∃ a, x = .ok a ∧ f a = .ok b := by
  cases x with
  | error e => simp [bind, Except.bind]
  | ok a => simp [bind, Except.bind]

theorem ok_bind (a : α) (f : α → Except ε β) : (Except.ok a >>= f) = f a := rfl

theorem error_bind (e : ε) (f : α → Except ε β) : (Except.error e >>= f) = .error e := rfl

@[simp] theorem pure_eq_ok {a b : α} : (pure a : Except ε α) = .ok b ↔ a = b := by
  simp [pure, Except.pure]

end Except

section Checks
variable {α β : Type} {p : Prop} [Decidable p] {msg : String} {code : ℕ}

@[simp] theorem check_eq_ok {u : Unit} : check p msg = .ok u ↔ p := by
  by_cases h : p <;> simp [check, h]

@[simp] theorem checkc_eq_ok {u : Unit} : checkc p code msg = .ok u ↔ p := by
  by_cases h : p <;> simp [checkc, h]

theorem check_of (h : p) (f : Unit → Except Abort β) : (check p msg >>= f) = f () := by
  simp [check, h, ok_bind]

theorem checkc_of (h : p) (f : Unit → Except Abort β) : (checkc p code msg >>= f) = f () := by
  simp [checkc, h, ok_bind]

theorem check_of_not (h : ¬p) (f : Unit → Except Abort β) :
    (check p msg >>= f) = .error ⟨none, msg⟩ := by
  simp [check, h, error_bind]

theorem checkc_of_not (h : ¬p) (f : Unit → Except Abort β) :
    (checkc p code msg >>= f) = .error ⟨some code, msg⟩ := by
  simp [checkc, h, error_bind]

end Checks

/-- A check that hands on the proof of what it checked. -/
def checkThat (p : Prop) [Decidable p] (msg : String) : Except Abort (PLift p) :=
  if h : p then .ok ⟨h⟩ else .error ⟨none, msg⟩

/-- `checkThat` with an error code. -/
def checkcThat (p : Prop) [Decidable p] (code : ℕ) (msg : String) : Except Abort (PLift p) :=
  if h : p then .ok ⟨h⟩ else .error ⟨some code, msg⟩

theorem checkcThat_eq_ok {p : Prop} [Decidable p] {code : ℕ} {msg : String} {h : PLift p} :
    checkcThat p code msg = .ok h ↔ p := by
  rw [checkcThat, dif_pos h.down]
  exact iff_of_true rfl h.down

/-- Integer division, which traps on a zero divisor. -/
def divTrap (a b : ℤ) : Except Abort ℤ := do
  check (b ≠ 0) "integer divide by zero"
  return a.tdiv b

theorem divTrap_of {a b : ℤ} (h : b ≠ 0) : divTrap a b = .ok (a.tdiv b) := by
  rw [divTrap, check_of h]
  rfl

/-- The remainder of unsigned integers, which traps on a zero divisor. -/
def modTrap (a b : ℕ) : Except Abort ℕ := do
  check (b ≠ 0) "integer divide by zero"
  return a % b

theorem modTrap_of {a b : ℕ} (h : b ≠ 0) : modTrap a b = .ok (a % b) := by
  rw [modTrap, check_of h]
  rfl

/-- The computation fails with `e`. -/
def Fails {β : Type} (x : Except Abort β) (e : Abort) : Prop :=
  match x with
  | .ok _ => False
  | .error e' => e' = e

instance {β : Type} (x : Except Abort β) (e : Abort) : Decidable (Fails x e) :=
  match x with
  | .ok _ => inferInstanceAs (Decidable False)
  | .error e' => inferInstanceAs (Decidable (e' = e))

theorem fails_iff {β : Type} {x : Except Abort β} {e : Abort} : Fails x e ↔ x = .error e := by
  cases x <;> simp [Fails]

/-- A computation that starts with a check fails in the check or after it. -/
theorem fails_check {β : Type} {p : Prop} [Decidable p] {msg : String} {f : Unit → Except Abort β}
    {e : Abort} : Fails (check p msg >>= f) e ↔ (¬ p ∧ e = ⟨none, msg⟩) ∨ (p ∧ Fails (f ()) e) := by
  by_cases hp : p
  · rw [check_of hp]
    simp [hp]
  · rw [check_of_not hp]
    simp [hp, Fails, eq_comm]

/-- The value of an optional lookup, or an abort when there is none. -/
def require {α : Type} (o : Option α) (code : Option ℕ) (msg : String) : Except Abort α :=
  match o with
  | some a => .ok a
  | none => .error ⟨code, msg⟩

@[simp] theorem require_eq_ok {α : Type} {o : Option α} {code : Option ℕ} {msg : String} {a : α} :
    require o code msg = .ok a ↔ o = some a := by
  cases o <;> simp [require]

/-! ## Computations that do not report an error code -/

/-- The computation does not fail with the error code `code`. -/
def Avoids {α : Type} (code : ℕ) (x : Except Abort α) : Prop :=
  ∀ e, x = .error e → e.code ≠ some code

section Avoids
variable {α β : Type} {code code' : ℕ} {x : Except Abort α} {f : α → Except Abort β}

theorem avoids_ok (a : α) : Avoids code (.ok a : Except Abort α) := by
  intro e he
  cases he

theorem avoids_bind (hx : Avoids code x) (hf : ∀ a, Avoids code (f a)) :
    Avoids code (x >>= f) := by
  intro e he
  cases x with
  | ok a => exact hf a e he
  | error e' =>
    rw [error_bind, Except.error.injEq] at he
    rw [← he]
    exact hx e' rfl

theorem avoids_check (p : Prop) [Decidable p] (msg : String) : Avoids code (check p msg) := by
  intro e he
  unfold check at he
  split at he
  · cases he
  · rw [Except.error.injEq] at he
    rw [← he]
    exact fun hc => by cases hc

theorem avoids_checkc (p : Prop) [Decidable p] (msg : String) (hne : code' ≠ code) :
    Avoids code (checkc p code' msg) := by
  intro e he
  unfold checkc at he
  split at he
  · cases he
  · rw [Except.error.injEq] at he
    rw [← he]
    exact fun hc => hne (Option.some.inj hc)

theorem avoids_divTrap (k : ℕ) (a b : ℤ) : Avoids k (divTrap a b) :=
  avoids_bind (avoids_check _ _) fun _ => avoids_ok _

theorem avoids_modTrap (k a b : ℕ) : Avoids k (modTrap a b) :=
  avoids_bind (avoids_check _ _) fun _ => avoids_ok _

end Avoids

end ToolkitContracts
