import ToolkitContracts.Chain.Base
import Mathlib.Order.Basic

/-!
# The chain's value types

`name`, `symbol`, `extended_symbol`, `asset` and `time_point`, with the constructors and
operators the contracts use. A text is the list of its characters. An `Asset` carries the
proof that its amount is an `int64_t`, and a `TimePoint` the proof that its second fits the
`uint32_t` of `sec_since_epoch`, so that later proofs read these bounds off the value.
-/

namespace ToolkitContracts

/-! ## Account names -/

/-- An account name, as the 64-bit value it is stored in. -/
structure Name where
  value : UInt64
deriving DecidableEq, Inhabited

namespace Name

/-- The name as a table key. -/
def raw (n : Name) : ℕ := n.value.toNat

theorem raw_inj {a b : Name} : a.raw = b.raw ↔ a = b := by
  cases a
  cases b
  simp [raw, UInt64.toNat_inj]

/-- The five bits of one character of a name. -/
def charToValue (c : Char) : Except Abort ℕ :=
  if c = '.' then .ok 0
  else if '1' ≤ c ∧ c ≤ '5' then .ok (c.toNat - '1'.toNat + 1)
  else if 'a' ≤ c ∧ c ≤ 'z' then .ok (c.toNat - 'a'.toNat + 6)
  else .error ⟨none, "character is not in allowed character set for names"⟩

/-- The five-bit groups of a text, from the left. -/
def charsToValues : List Char → Except Abort (List ℕ)
  | [] => .ok []
  | c :: cs => do
    let v ← charToValue c
    let vs ← charsToValues cs
    return v :: vs

/-- `name(string_view)`: twelve groups of five bits from the top, then four bits. -/
def ofText (s : List Char) : Except Abort Name := do
  check (s.length ≤ 13) "string is too long to be a valid name"
  let vs ← charsToValues s
  let high := (vs.take 12).foldl (fun acc v => acc * 32 + v) 0 * 2 ^ (4 + 5 * (12 - s.length))
  let low := (vs.drop 12).headD 0
  check (low ≤ 15) "thirteenth character in name cannot be a letter that comes after j"
  return ⟨UInt64.ofNat (high + low)⟩

/-- A name literal (`"flon.token"_n`). -/
def lit (s : String) : Name :=
  match ofText s.toList with
  | .ok n => n
  | .error _ => ⟨0⟩

def charmap : List Char := ".12345abcdefghijklmnopqrstuvwxyz".toList

/-- The characters of a name from its top bits, for the last `n` of the thirteen positions. -/
def toTextFrom : ℕ → ℕ → List Char
  | 0, _ => []
  | n + 1, v =>
    if v = 0 then []
    else charmap.getD (v / 2 ^ (if n = 0 then 60 else 59)) '.' :: toTextFrom n (v * 32 % 2 ^ 64)

/-- `name::to_string`. -/
def toText (n : Name) : List Char := toTextFrom 13 n.raw

end Name

/-! ## Symbols -/

/-- A token symbol, as the 64-bit value it is stored in: seven bytes of code above one byte
of precision. -/
structure Symbol where
  value : UInt64
deriving DecidableEq, Inhabited

namespace Symbol

def raw (s : Symbol) : ℕ := s.value.toNat

theorem raw_inj {a b : Symbol} : a.raw = b.raw ↔ a = b := by
  cases a
  cases b
  simp [raw, UInt64.toNat_inj]

def precision (s : Symbol) : ℕ := s.raw % 256

def code (s : Symbol) : ℕ := s.raw / 256

def make (code precision : ℕ) : Symbol := ⟨UInt64.ofNat (code * 256 + precision)⟩

/-- The seven bytes of a code, the first letter first. -/
def codeBytes (code : ℕ) : List ℕ := (List.range 7).map fun i => code / 256 ^ i % 256

def isUpper (b : ℕ) : Bool := decide ('A'.toNat ≤ b ∧ b ≤ 'Z'.toNat)

/-- `symbol_code::is_valid`: one or more capital letters, then zero bytes only. -/
def isValidCode (code : ℕ) : Bool :=
  isUpper ((codeBytes code).headD 0) && ((codeBytes code).dropWhile isUpper).all (· == 0)

def isValid (s : Symbol) : Bool := isValidCode s.code

/-- `symbol_code::to_string`. -/
def codeText (code : ℕ) : List Char :=
  ((codeBytes code).take (if code = 0 then 0 else Nat.log2 code / 8 + 1)).map Char.ofNat

/-- `symbol_code(string_view)`. -/
def codeOfText (s : List Char) : Except Abort ℕ := do
  check (s.length ≤ 7) "string is too long to be a valid symbol_code"
  check (s.all fun c => 'A' ≤ c ∧ c ≤ 'Z')
    "only uppercase letters allowed in symbol_code string"
  return s.foldr (fun c acc => acc * 256 + c.toNat) 0

/-- A symbol literal (`SYMBOL(code, precision)`). -/
def lit (code : String) (precision : ℕ) : Symbol :=
  match codeOfText code.toList with
  | .ok c => make c precision
  | .error _ => ⟨0⟩

end Symbol

/-- A symbol together with the token contract that issues it. -/
structure ExtendedSymbol where
  sym : Symbol
  contract : Name
deriving DecidableEq, Inhabited

/-! ## Assets -/

/-- An amount of a token. -/
structure Asset where
  amount : ℤ
  symbol : Symbol
  bounds : -2 ^ 63 ≤ amount ∧ amount < 2 ^ 63
deriving DecidableEq

namespace Asset

/-- An asset literal. -/
def lit (amount : Int64Arg) (symbol : Symbol) : Asset := ⟨amount.1, symbol, amount.2⟩

/-- `asset::max_amount`. -/
def maxAmount : ℤ := 2 ^ 62 - 1

theorem zero_bounds : -2 ^ 63 ≤ (0 : ℤ) ∧ (0 : ℤ) < 2 ^ 63 := by omega

/-- Assign the `amount` field of an asset, without any check. -/
def setAmount (a : Asset) (x : ℤ) : Asset := ⟨i64 x, a.symbol, i64_bounds x⟩

@[simp] theorem setAmount_amount (a : Asset) (x : ℤ) : (a.setAmount x).amount = i64 x := rfl

def isAmountWithinRange (a : Asset) : Prop := -maxAmount ≤ a.amount ∧ a.amount ≤ maxAmount

instance (a : Asset) : Decidable a.isAmountWithinRange := inferInstanceAs (Decidable (_ ∧ _))

def isValid (a : Asset) : Prop := a.isAmountWithinRange ∧ a.symbol.isValid = true

instance (a : Asset) : Decidable a.isValid := inferInstanceAs (Decidable (_ ∧ _))

/-- `asset(int64_t, symbol)`. -/
def new (amount : ℤ) (sym : Symbol) : Except Abort Asset := do
  let a : Asset := ⟨i64 amount, sym, i64_bounds amount⟩
  check a.isAmountWithinRange "magnitude of asset amount must be less than 2^62"
  check (sym.isValid = true) "invalid symbol name"
  return a

/-- `asset::operator+=`. -/
def add (a b : Asset) : Except Abort Asset := do
  check (b.symbol = a.symbol) "attempt to add asset with different symbol"
  let r := a.setAmount (a.amount + b.amount)
  check (-maxAmount ≤ r.amount) "addition underflow"
  check (r.amount ≤ maxAmount) "addition overflow"
  return r

/-- `asset::operator-=`. -/
def sub (a b : Asset) : Except Abort Asset := do
  check (b.symbol = a.symbol) "attempt to subtract asset with different symbol"
  let r := a.setAmount (a.amount - b.amount)
  check (-maxAmount ≤ r.amount) "subtraction underflow"
  check (r.amount ≤ maxAmount) "subtraction overflow"
  return r

/-- `asset::operator*=`. -/
def mul (a : Asset) (x : ℤ) : Except Abort Asset := do
  check (a.amount * x ≤ maxAmount) "multiplication overflow"
  check (-maxAmount ≤ a.amount * x) "multiplication underflow"
  return a.setAmount (a.amount * x)

/-- `asset::operator/=`. -/
def div (a : Asset) (x : ℤ) : Except Abort Asset := do
  check (x ≠ 0) "divide by zero"
  check (¬(a.amount = -2 ^ 63 ∧ x = -1)) "signed division overflow"
  return a.setAmount (a.amount.tdiv x)

/-- The comparison operators compare amounts of one symbol only. -/
def comparable (a b : Asset) : Except Abort Unit :=
  check (a.symbol = b.symbol) "comparison of assets with different symbols is not allowed"

@[simp] theorem comparable_eq_ok {a b : Asset} {u : Unit} :
    a.comparable b = .ok u ↔ a.symbol = b.symbol := check_eq_ok

theorem new_eq_ok {amount : ℤ} {sym : Symbol} {a : Asset} :
    new amount sym = .ok a ↔
      a.amount = i64 amount ∧ a.symbol = sym ∧ a.isAmountWithinRange ∧ sym.isValid = true := by
  simp only [new, bind_eq_ok, check_eq_ok, exists_const, pure_eq_ok]
  constructor
  · rintro ⟨hr, hv, rfl⟩
    exact ⟨rfl, rfl, hr, hv⟩
  · rintro ⟨h1, rfl, hr, hv⟩
    cases a
    simp only at h1
    subst h1
    exact ⟨hr, hv, rfl⟩

/-- `asset(0, sym)`. -/
theorem amount_of_new_zero {sym : Symbol} {a : Asset} (h : new 0 sym = .ok a) : a.amount = 0 :=
  (new_eq_ok.mp h).1

/-- The constructor accepts an amount within range and a valid symbol. -/
theorem new_of_range {x : ℤ} {sym : Symbol} (h1 : -maxAmount ≤ x) (h2 : x ≤ maxAmount)
    (hv : sym.isValid = true) : ∃ a, new x sym = .ok a ∧ a.amount = x ∧ a.symbol = sym := by
  have hmax : maxAmount = 2 ^ 62 - 1 := rfl
  have hx : i64 x = x := by
    apply i64_eq
    · omega
    · omega
  refine ⟨⟨i64 x, sym, i64_bounds x⟩, ?_, hx, rfl⟩
  rw [new_eq_ok]
  refine ⟨rfl, rfl, ?_, hv⟩
  show -maxAmount ≤ i64 x ∧ i64 x ≤ maxAmount
  rw [hx]
  exact ⟨h1, h2⟩

theorem add_eq_ok {a b r : Asset} :
    a.add b = .ok r ↔ b.symbol = a.symbol ∧ r = a.setAmount (a.amount + b.amount) ∧
      r.isAmountWithinRange := by
  simp only [add, bind_eq_ok, check_eq_ok, exists_const, pure_eq_ok]
  constructor
  · rintro ⟨hs, h1, h2, rfl⟩
    exact ⟨hs, rfl, h1, h2⟩
  · rintro ⟨hs, rfl, h1, h2⟩
    exact ⟨hs, h1, h2, rfl⟩

theorem sub_eq_ok {a b r : Asset} :
    a.sub b = .ok r ↔ b.symbol = a.symbol ∧ r = a.setAmount (a.amount - b.amount) ∧
      r.isAmountWithinRange := by
  simp only [sub, bind_eq_ok, check_eq_ok, exists_const, pure_eq_ok]
  constructor
  · rintro ⟨hs, h1, h2, rfl⟩
    exact ⟨hs, rfl, h1, h2⟩
  · rintro ⟨hs, rfl, h1, h2⟩
    exact ⟨hs, h1, h2, rfl⟩

/-- A product within range is exact. -/
theorem mul_of_range {a : Asset} {x : ℤ} (h1 : -maxAmount ≤ a.amount * x)
    (h2 : a.amount * x ≤ maxAmount) :
    ∃ r, a.mul x = .ok r ∧ r.amount = a.amount * x ∧ r.symbol = a.symbol := by
  have hmax : maxAmount = 2 ^ 62 - 1 := rfl
  have hexact : i64 (a.amount * x) = a.amount * x := by
    apply i64_eq
    · omega
    · omega
  refine ⟨a.setAmount (a.amount * x), ?_, hexact, rfl⟩
  rw [mul, check_of h2, check_of h1]
  rfl

/-- Adding a positive amount to one within range either overflows the range, and is
refused, or is exact. -/
theorem amount_of_add {a b r : Asset} (h : a.add b = .ok r) (ha : a.isAmountWithinRange)
    (hb : 0 ≤ b.amount) : r.amount = a.amount + b.amount := by
  obtain ⟨-, rfl, hlo, hhi⟩ := add_eq_ok.mp h
  have h1 := a.bounds
  have h2 := b.bounds
  unfold isAmountWithinRange maxAmount at ha
  simp only [setAmount_amount, i64, maxAmount] at hlo hhi ⊢
  omega

/-- Subtracting a positive amount from a non-negative one is exact. -/
theorem amount_of_sub {a b r : Asset} (h : a.sub b = .ok r) (ha : 0 ≤ a.amount)
    (hb : 0 ≤ b.amount) : r.amount = a.amount - b.amount := by
  obtain ⟨-, rfl, -, -⟩ := sub_eq_ok.mp h
  have h1 := a.bounds
  have h2 := b.bounds
  exact i64_eq (by omega) (by omega)

theorem symbol_of_add {a b r : Asset} (h : a.add b = .ok r) : r.symbol = a.symbol := by
  obtain ⟨-, rfl, -⟩ := add_eq_ok.mp h
  rfl

theorem symbol_of_sub {a b r : Asset} (h : a.sub b = .ok r) : r.symbol = a.symbol := by
  obtain ⟨-, rfl, -⟩ := sub_eq_ok.mp h
  rfl

/-- Adding two amounts within range either leaves the range, and is refused, or is exact. -/
theorem amount_of_add_range {a b r : Asset} (h : a.add b = .ok r) (ha : a.isAmountWithinRange)
    (hb : b.isAmountWithinRange) : r.amount = a.amount + b.amount := by
  obtain ⟨-, rfl, -, -⟩ := add_eq_ok.mp h
  unfold isAmountWithinRange maxAmount at ha hb
  apply i64_eq
  · omega
  · omega

/-- Subtracting two amounts within range either leaves the range, and is refused, or is
exact. -/
theorem amount_of_sub_range {a b r : Asset} (h : a.sub b = .ok r) (ha : a.isAmountWithinRange)
    (hb : b.isAmountWithinRange) : r.amount = a.amount - b.amount := by
  obtain ⟨-, rfl, -, -⟩ := sub_eq_ok.mp h
  unfold isAmountWithinRange maxAmount at ha hb
  apply i64_eq
  · omega
  · omega

/-- A sum of valid assets is valid. -/
theorem isValid_of_add {a b r : Asset} (h : a.add b = .ok r) (ha : a.isValid) : r.isValid := by
  obtain ⟨-, hr, hrange⟩ := add_eq_ok.mp h
  rw [isValid, hr]
  rw [hr] at hrange
  exact ⟨hrange, ha.2⟩

/-- The arithmetic of assets reports no error code. -/
theorem avoids_new (code : ℕ) (x : ℤ) (sym : Symbol) : Avoids code (new x sym) :=
  avoids_bind (avoids_check _ _) fun _ => avoids_bind (avoids_check _ _) fun _ => avoids_ok _

theorem avoids_add (code : ℕ) (a b : Asset) : Avoids code (a.add b) :=
  avoids_bind (avoids_check _ _) fun _ => avoids_bind (avoids_check _ _) fun _ =>
    avoids_bind (avoids_check _ _) fun _ => avoids_ok _

theorem avoids_sub (code : ℕ) (a b : Asset) : Avoids code (a.sub b) :=
  avoids_bind (avoids_check _ _) fun _ => avoids_bind (avoids_check _ _) fun _ =>
    avoids_bind (avoids_check _ _) fun _ => avoids_ok _

theorem avoids_div (code : ℕ) (a : Asset) (x : ℤ) : Avoids code (a.div x) :=
  avoids_bind (avoids_check _ _) fun _ => avoids_bind (avoids_check _ _) fun _ => avoids_ok _

end Asset

/-! ## Time -/

/-- A block time, in microseconds since the epoch. -/
structure TimePoint where
  us : ℕ
  lt : us < 2 ^ 32 * 1000000
deriving DecidableEq

namespace TimePoint

instance : Preorder TimePoint := Preorder.lift TimePoint.us

instance (a b : TimePoint) : Decidable (a ≤ b) := inferInstanceAs (Decidable (a.us ≤ b.us))

/-- The start of a day, for the days that `sec_since_epoch` can count. -/
def ofDays (d : ℕ) : TimePoint := ⟨d % 49710 * 86400 * 1000000, by omega⟩

/-- `time_point::sec_since_epoch`. -/
def secSinceEpoch (t : TimePoint) : ℕ := t.us / 1000000

theorem secSinceEpoch_lt (t : TimePoint) : t.secSinceEpoch < 2 ^ 32 := by
  have := t.lt
  unfold secSinceEpoch
  omega

theorem secSinceEpoch_mono {a b : TimePoint} (h : a ≤ b) : a.secSinceEpoch ≤ b.secSinceEpoch :=
  Nat.div_le_div_right h

end TimePoint

end ToolkitContracts
