import ToolkitContracts.Chain.Types

/-!
# Memo texts

Transfer memos are parsed with a few string helpers that most of the contracts carry in
their `utils.hpp`, on top of the C++ standard library. A `StringView` keeps the buffer it
points into: the number parsers are handed the address of a view's first character and read
on past the view's end, up to the first character that is not part of a number.
-/

namespace ToolkitContracts

/-- `std::string::npos` on the 32-bit target. -/
def npos : ℕ := 2 ^ 32 - 1

/-- `std::string_view`: the buffer from the first character of the view on, and the number
of characters the view spans. -/
structure StringView where
  data : List Char
  size : ℕ
  le : size ≤ data.length

namespace StringView

/-- The view of a whole string. -/
def ofText (s : List Char) : StringView := ⟨s, s.length, le_rfl⟩

instance : Inhabited StringView := ⟨ofText []⟩

/-- The characters the view spans. -/
def chars (v : StringView) : List Char := v.data.take v.size

def removePrefix (v : StringView) (n : ℕ) : StringView where
  data := v.data.drop n
  size := v.size - n
  le := by
    have := v.le
    rw [List.length_drop]
    omega

def removeSuffix (v : StringView) (n : ℕ) : StringView :=
  ⟨v.data, v.size - n, le_trans (Nat.sub_le _ _) v.le⟩

/-- `substr(pos, n)`. -/
def substr (v : StringView) (pos n : ℕ) : StringView where
  data := v.data.drop pos
  size := min n (v.size - pos)
  le := by
    have := v.le
    rw [List.length_drop]
    omega

/-- `find_first_of(c, pos)`; `none` stands for `npos`. -/
def findFirstOf (v : StringView) (c : Char) (pos : ℕ) : Option ℕ :=
  ((v.chars.drop pos).findIdx? (· == c)).map (pos + ·)

/-- `find_first_not_of(c)`. -/
def findFirstNotOf (v : StringView) (c : Char) : Option ℕ := v.chars.findIdx? (· != c)

/-- `find_last_not_of(c)`. -/
def findLastNotOf (v : StringView) (c : Char) : Option ℕ :=
  (v.chars.reverse.findIdx? (· != c)).map (v.size - 1 - ·)

/-- `trim`: both counts are computed with `npos` when there is nothing but spaces. -/
def trim (v : StringView) : StringView :=
  let v := v.removePrefix (min ((v.findFirstNotOf ' ').getD npos) v.size)
  v.removeSuffix (min (u32 (v.size - (v.findLastNotOf ' ').getD npos - 1)) v.size)

/-- The loop of `split` on views, from the position `previous`. -/
def splitFrom (c : Char) (v : StringView) : ℕ → ℕ → List StringView
  | 0, _ => []
  | fuel + 1, previous =>
    match v.findFirstOf c previous with
    | some current =>
      (v.substr previous (current - previous)).trim :: splitFrom c v fuel (current + 1)
    | none => [(v.substr previous (npos - previous)).trim]

/-- `split` of flon.vest and flon.split, with a delimiter of one character. -/
def split (v : StringView) (c : Char) : List StringView := splitFrom c v (v.size + 1) 0

end StringView

/-- The loop of `split` on strings, from the position `posStart`. -/
def splitTextFrom (c : Char) (s : List Char) : ℕ → ℕ → List (List Char)
  | 0, _ => []
  | fuel + 1, posStart =>
    match (s.drop posStart).findIdx? (· == c) with
    | some i => (s.drop posStart).take i :: splitTextFrom c s fuel (posStart + i + 1)
    | none => [s.drop posStart]

/-- `split` of flon.redpack and flon.proxyswap, with a delimiter of one character. -/
def splitText (s : List Char) (c : Char) : List (List Char) := splitTextFrom c s (s.length + 1) 0

/-! ## Numbers -/

/-- `isspace`. -/
def isSpace (c : Char) : Bool := c = ' ' || (9 ≤ c.toNat && c.toNat ≤ 13)

/-- `isdigit`. -/
def isDigit (c : Char) : Bool := '0' ≤ c && c ≤ '9'

/-- The number a list of decimal digits denotes. -/
def digitsValue (ds : List Char) : ℕ :=
  ds.foldl (fun acc c => acc * 10 + (c.toNat - '0'.toNat)) 0

/-- What the `strto...` functions recognise at the start of a buffer: white space, an
optional sign and digits. `none` when there is no digit. -/
def scanNumber (s : List Char) : Option (Bool × ℕ) :=
  let s := s.dropWhile isSpace
  let signed := match s with
    | '-' :: rest => (true, rest)
    | '+' :: rest => (false, rest)
    | _ => (false, s)
  let ds := signed.2.takeWhile isDigit
  if ds.isEmpty then none else some (signed.1, digitsValue ds)

/-- A signed reading of a scanned number. -/
def signedValue (neg : Bool) (n : ℕ) : ℤ := if neg then -n else n

/-- `strtoull`: the value, and whether `errno` is set to `ERANGE`. -/
def strtoull (s : List Char) : ℕ × Bool :=
  match scanNumber s with
  | none => (0, false)
  | some (neg, n) => if n < 2 ^ 64 then (u64 (signedValue neg n), false) else (2 ^ 64 - 1, true)

/-- `strtoll`. -/
def strtoll (s : List Char) : ℤ × Bool :=
  match scanNumber s with
  | none => (0, false)
  | some (neg, n) =>
    if signedValue neg n < -2 ^ 63 then (-2 ^ 63, true)
    else if 2 ^ 63 ≤ signedValue neg n then (2 ^ 63 - 1, true)
    else (signedValue neg n, false)

/-- `to_uint64`. -/
def toUint64 (s : StringView) (errTitle : String) : Except Abort ℕ := do
  let r := strtoull s.data
  check (r.2 = false) (errTitle ++ ": convert str to uint64 error: ")
  return r.1

/-- `to_int64`. -/
def toInt64 (s : StringView) (errTitle : String) : Except Abort ℤ := do
  let r := strtoll s.data
  check (r.2 = false) (errTitle ++ ": convert str to int64 error: ")
  return r.1

/-- `std::stoi`. -/
def stoi (s : List Char) : Except Abort ℤ := do
  let (neg, n) ← require (scanNumber s) none "stoi: no conversion"
  check (-2 ^ 31 ≤ signedValue neg n ∧ signedValue neg n < 2 ^ 31) "stoi: out of range"
  return signedValue neg n

/-- `std::stoll`. -/
def stoll (s : List Char) : Except Abort ℤ := do
  let (neg, n) ← require (scanNumber s) none "stoll: no conversion"
  check (-2 ^ 63 ≤ signedValue neg n ∧ signedValue neg n < 2 ^ 63) "stoll: out of range"
  return signedValue neg n

/-- `std::stoul`; an `unsigned long` has 32 bits on the target. -/
def stoul (s : List Char) : Except Abort ℕ := do
  let (neg, n) ← require (scanNumber s) none "stoul: no conversion"
  check (n < 2 ^ 32) "stoul: out of range"
  return u32 (signedValue neg n)

/-! ## Amounts -/

/-- `asset::to_string`: the amount with as many decimals as the precision says, and the
symbol code. -/
def Asset.toText (a : Asset) : List Char :=
  let p := a.symbol.precision
  let digits := (toString a.amount.natAbs).toList
  let padded := List.replicate (p + 1 - digits.length) '0' ++ digits
  let whole := padded.take (padded.length - p)
  let decimals := padded.drop (padded.length - p)
  (if a.amount < 0 then ['-'] else []) ++ whole ++ (if p = 0 then [] else '.' :: decimals) ++
    ' ' :: Symbol.codeText a.symbol.code

/-- `operator *` of `safe<int64_t>`. -/
def safeMul (a b : ℤ) : Except Abort ℤ := do
  if 0 < a then
    if 0 < b then check (a ≤ (2 ^ 63 - 1 : ℤ).tdiv b) "overflow_exception, (a)(b)"
    else check ((-2 ^ 63 : ℤ).tdiv a ≤ b) "underflow_exception, (a)(b)"
  else
    if 0 < b then check ((-2 ^ 63 : ℤ).tdiv b ≤ a) "underflow_exception, (a)(b)"
    else check (a = 0 ∨ (2 ^ 63 - 1 : ℤ).tdiv a ≤ b) "overflow_exception, (a)(b)"
  return i64 (a * b)

/-- `operator +` of `safe<int64_t>`. -/
def safeAdd (a b : ℤ) : Except Abort ℤ := do
  check (¬(0 < b ∧ 2 ^ 63 - 1 - b < a)) "overflow_exception, (a)(b)"
  check (¬(b < 0 ∧ a < -2 ^ 63 - b)) "underflow_exception, (a)(b)"
  return i64 (a + b)

/-- `precision_from_decimals`, whose parameter is an `int8_t`: precisions from 128 on arrive
negative and pass the check. -/
def precisionFromDecimals (precision : ℕ) : Except Abort ℤ := do
  check (precision ≤ 18 ∨ 128 ≤ precision) "symbol precision should be <= 18"
  return if precision ≤ 18 then 10 ^ precision else 1

/-- `asset_from_string` of flon.proxyswap. -/
def assetFromString (src : StringView) : Except Abort Asset := do
  let s := src.trim
  let spacePos ← require (s.findFirstOf ' ' 0) none
    "Asset's amount and symbol should be separated with space"
  let symbolStr := (s.substr (spacePos + 1) npos).trim
  let amountStr := s.substr 0 spacePos
  let dotPos := amountStr.findFirstOf '.' 0
  check (dotPos.all fun d => d + 1 ≠ amountStr.size)
    "Missing decimal fraction after decimal point"
  let precisionDigit := dotPos.elim 0 fun d => (amountStr.size - d - 1) % 256
  let code ← Symbol.codeOfText symbolStr.chars
  let sym := Symbol.make code precisionDigit
  let (intPart, fractPart) ← match dotPos with
    | some d => do
      let i ← toInt64 (amountStr.substr 0 d) "asset"
      let f ← toUint64 (amountStr.substr (d + 1) npos) "asset"
      if amountStr.data.head? = some '-' then do
        let f ← safeMul (i64 f) (-1)
        pure (i, f)
      else pure (i, i64 f)
    | none => do
      let i ← toInt64 amountStr "asset"
      pure (i, 0)
  let precision ← precisionFromDecimals sym.precision
  let scaled ← safeMul intPart precision
  let amount ← safeAdd scaled fractPart
  Asset.new amount sym

end ToolkitContracts
