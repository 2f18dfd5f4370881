import ToolkitContracts.Chain.Printing
import ToolkitContracts.TokenSummary.Model

/-!
# Amounts in a summary

`format_amount` writes the digits of an amount, with zeros in front if there are too few, and puts a
dot in front of the decimals. What it writes for a valid asset is an amount that `asset_from_string`
of flon.proxyswap reads back: the same integer, and as many decimals as the symbol has.
-/

namespace ToolkitContracts
namespace TokenSummary

/-- The form of an amount: digits with no surplus zero in front, and as many decimals as the
precision says. -/
structure AmountText (int frac : List Char) (precision : ℕ) : Prop where
  whole : IsNumeral int
  zero : int.head? = some '0' → int = ['0']
  decimals : frac.length = precision
  digits : ∀ c ∈ frac, isDigit c = true

/-- The digits of an amount, as many as are needed for one in front of the dot. -/
def padded (n precision : ℕ) : List Char :=
  List.replicate (precision + 1 - (toString n).toList.length) '0' ++ (toString n).toList

/-- The digits in front of the dot. -/
def wholeDigits (n precision : ℕ) : List Char :=
  (padded n precision).take ((padded n precision).length - precision)

/-- The decimals. -/
def decimals (n precision : ℕ) : List Char :=
  (padded n precision).drop ((padded n precision).length - precision)

section Format
variable {amount : ℤ} {precision n : ℕ}

theorem length_padded (n precision : ℕ) :
    (padded n precision).length = max (precision + 1) (toString n).toList.length := by
  rw [padded, List.length_append, List.length_replicate]
  omega

theorem digits_padded (n precision : ℕ) : ∀ c ∈ padded n precision, isDigit c = true := by
  intro c hc
  rcases List.mem_append.mp hc with hc | hc
  · rw [List.eq_of_mem_replicate hc]
    rfl
  · exact (isNumeral_toString n).2 c hc

theorem formatAmount_eq (hnonneg : 0 ≤ amount) :
    formatAmount amount precision
      = wholeDigits amount.natAbs precision ++ fractionText (decimals amount.natAbs precision) := by
  have hpadded : (if (toString amount.natAbs).toList.length ≤ precision
      then List.replicate (precision - (toString amount.natAbs).toList.length + 1) '0'
        ++ (toString amount.natAbs).toList
      else (toString amount.natAbs).toList) = padded amount.natAbs precision := by
    rw [padded]
    split
    · next hle => rw [Nat.sub_add_comm hle]
    · next hlong =>
      rw [Nat.sub_eq_zero_of_le (by omega), List.replicate_zero, List.nil_append]
  have hlen := length_padded amount.natAbs precision
  rw [formatAmount, if_neg (not_lt.mpr hnonneg), hpadded]
  unfold wholeDigits decimals fractionText
  by_cases hzero : precision = 0
  · have hpos := List.length_pos_iff.mpr (isNumeral_toString amount.natAbs).1
    have hempty : precision + 1 - (toString amount.natAbs).toList.length = 0 := by omega
    rw [if_neg (by omega), hzero, Nat.sub_zero, List.take_length, List.drop_length, if_pos rfl,
      List.append_nil, padded, ← hzero, hempty]
    rfl
  · have hne : (padded amount.natAbs precision).drop
        ((padded amount.natAbs precision).length - precision) ≠ [] := by
      intro hnil
      have hle := List.drop_eq_nil_iff.mp hnil
      omega
    rw [if_pos (by omega), if_neg hne]

/-- What is in front of the dot is no zero with a digit behind it. -/
theorem head_wholeDigits (h : (wholeDigits n precision).head? = some '0') :
    wholeDigits n precision = ['0'] := by
  have hlen := length_padded n precision
  by_cases hle : (toString n).toList.length ≤ precision + 1
  · -- one digit only
    have hone : (wholeDigits n precision).length = 1 := by
      rw [wholeDigits, List.length_take]
      omega
    obtain ⟨c, hc⟩ := List.length_eq_one_iff.mp hone
    rw [hc] at h ⊢
    rw [Option.some.inj h]
  · -- the number's own first digit
    have hempty : precision + 1 - (toString n).toList.length = 0 := by omega
    have hpadded : padded n precision = (toString n).toList := by
      rw [padded, hempty]
      rfl
    rw [wholeDigits, List.head?_take, if_neg (by omega), hpadded] at h
    have hlength := congrArg List.length (head_toString h)
    rw [List.length_singleton] at hlength
    omega

theorem amountText (n precision : ℕ) :
    AmountText (wholeDigits n precision) (decimals n precision) precision where
  whole := by
    refine ⟨?_, fun c hc => digits_padded n precision c (List.mem_of_mem_take hc)⟩
    intro hnil
    have hlen := length_padded n precision
    have hzero := congrArg List.length hnil
    rw [wholeDigits, List.length_take, List.length_nil] at hzero
    omega
  zero := head_wholeDigits
  decimals := by
    have hlen := length_padded n precision
    rw [decimals, List.length_drop]
    omega
  digits := fun c hc => digits_padded n precision c (List.mem_of_mem_drop hc)

/-- The digits on both sides of the dot are those of the number. -/
theorem digitsValue_parts (n precision : ℕ) :
    digitsValue (wholeDigits n precision) * 10 ^ precision + digitsValue (decimals n precision)
      = n := by
  have hvalue := digitsValue_append (wholeDigits n precision) (decimals n precision)
  rw [(amountText n precision).decimals] at hvalue
  rw [← hvalue, wholeDigits, decimals, List.take_append_drop, padded, digitsValue_zeros,
    digitsValue_toString]

end Format

section Reading
variable {a : Asset} {int frac code : List Char}

/-- A decimal amount of an asset is read as this amount. -/
theorem readAs_of_digits (hvalid : a.isValid) (hprecision : a.symbol.precision ≤ 18)
    (htext : AmountText int frac a.symbol.precision)
    (hvalue : (digitsValue int * 10 ^ a.symbol.precision + digitsValue frac : ℤ) = a.amount)
    (hcode : Symbol.codeOfText (trimSpaces code) = .ok a.symbol.code) :
    ReadAs int frac code a where
  code := hcode
  symbol := by
    have hbyte : a.symbol.precision % 256 = a.symbol.precision := Nat.mod_eq_of_lt (by omega)
    have hraw : a.symbol.raw / 256 * 256 + a.symbol.raw % 256 = a.symbol.raw := by omega
    rw [htext.decimals, hbyte, Symbol.make, Symbol.code, Symbol.precision, hraw, Symbol.raw,
      UInt64.ofNat_toNat]
  supported := .inl hprecision
  numbers := by
    have hmax : a.amount ≤ 2 ^ 62 - 1 := hvalid.1.2
    have hscale : scaleOf a.symbol.precision = 10 ^ a.symbol.precision := if_pos hprecision
    have hpos : (1 : ℤ) ≤ 10 ^ a.symbol.precision := one_le_pow₀ (by norm_num)
    have hwhole : (digitsValue int : ℤ) * 1 ≤ digitsValue int * 10 ^ a.symbol.precision :=
      Int.mul_le_mul_of_nonneg_left hpos (by omega)
    have hfraction : digitsValue frac < 10 ^ 18 := by
      calc digitsValue frac < 10 ^ frac.length := digitsValue_lt htext.digits
        _ ≤ 10 ^ 18 := Nat.pow_le_pow_right (by omega) (htext.decimals.trans_le hprecision)
    have hword : i64 (digitsValue frac) = digitsValue frac := i64_eq (by omega) (by omega)
    have hminus : int.head? ≠ some '-' := by
      intro hhead
      exact htext.whole.not_mem (by decide) (List.mem_of_head? hhead)
    have hread : strtoull frac = (digitsValue frac, false) := by
      by_cases hnone : frac = []
      · rw [hnone]
        rfl
      · rw [strtoull_numeral ⟨hnone, htext.digits⟩, if_pos (by omega)]
    refine ⟨digitsValue int, digitsValue frac, ?_, hread, fun hhead => absurd hhead hminus, ?_, ?_⟩
    · rw [strtoll_numeral htext.whole, if_neg (by omega)]
    · rw [hscale]
      omega
    · rw [hscale, signedFraction, if_neg hminus, hword]
      exact hvalue.symm
  valid := hvalid

/-- An amount and a symbol code have no spaces around them, and one between them. -/
theorem cut_of_amount {precision : ℕ} (htext : AmountText int frac precision)
    (hcode : code ≠ [] ∧ ∀ c ∈ code, 'A' ≤ c ∧ c ≤ 'Z') :
    Cut (trimSpaces (int ++ fractionText frac ++ ' ' :: code)) int frac code := by
  have hnospace : ∀ c, isDigit c = true → c ≠ ' ' := by
    rintro c hc rfl
    cases hc
  have hamount : ' ' ∉ int ++ fractionText frac := by
    intro hmem
    rcases List.mem_append.mp hmem with hmem | hmem
    · exact hnospace _ (htext.whole.2 _ hmem) rfl
    · unfold fractionText at hmem
      split at hmem
      · cases hmem
      · rcases List.mem_cons.mp hmem with hmem | hmem
        · cases hmem
        · exact hnospace _ (htext.digits _ hmem) rfl
  refine ⟨?_, hamount, htext.whole.not_mem (by decide)⟩
  have hfront : ∀ rest, (int ++ rest).dropWhile (· == ' ') = int ++ rest := by
    intro rest
    obtain ⟨hne, hdigits⟩ := htext.whole
    cases int with
    | nil => exact absurd rfl hne
    | cons c int =>
      rw [List.cons_append, List.dropWhile_cons_of_neg]
      simpa using hnospace c (hdigits c List.mem_cons_self)
  rw [trimSpaces, List.append_assoc, hfront, List.rdropWhile_eq_self_iff]
  intro hne hlast
  -- the last character is a letter
  have hletter := hcode.2 (code.getLast hcode.1) (List.getLast_mem hcode.1)
  have hbehind : ' ' :: code ≠ [] := List.cons_ne_nil _ _
  have hrest : fractionText frac ++ ' ' :: code ≠ [] := List.append_ne_nil_of_right_ne_nil _ hbehind
  rw [List.getLast_append_of_ne_nil _ hrest, List.getLast_append_of_ne_nil _ hbehind,
    List.getLast_cons hcode.1, beq_iff_eq] at hlast
  rw [hlast] at hletter
  exact absurd hletter.1 (by decide)

/-- A valid asset has 19 digits at most in front of the dot. -/
theorem length_wholeDigits (hvalid : a.isValid) :
    (wholeDigits a.amount.natAbs a.symbol.precision).length ≤ 19 := by
  have hmax : a.amount ≤ 2 ^ 62 - 1 := hvalid.1.2
  have hmin : -(2 ^ 62 - 1) ≤ a.amount := hvalid.1.1
  have hdigits : (toString a.amount.natAbs).toList.length ≤ 19 := by
    rw [length_toString_le (by omega)]
    omega
  have hlen := length_padded a.amount.natAbs a.symbol.precision
  rw [wholeDigits, List.length_take]
  omega

theorem length_fractionText_le (frac : List Char) : (fractionText frac).length ≤ frac.length + 1 := by
  unfold fractionText
  split
  · exact Nat.zero_le _
  · exact le_refl _

/-- `format_amount` writes what `asset_from_string` reads: exactly the decimals of the symbol, and
in front of the dot at least one digit and no surplus zero. -/
theorem assetFromString_formatAmount (hvalid : a.isValid) (hnonneg : 0 ≤ a.amount)
    (hprecision : a.symbol.precision ≤ 18) :
    assetFromString (.ofText (formatAmount a.amount a.symbol.precision ++
      ' ' :: Symbol.codeText a.symbol.code)) = .ok a ∧
    ∃ int frac, formatAmount a.amount a.symbol.precision = int ++ fractionText frac ∧
      AmountText int frac a.symbol.precision := by
  have htext := amountText a.amount.natAbs a.symbol.precision
  have hraw : a.symbol.raw < 2 ^ 64 := UInt64.toNat_lt _
  have hcode : a.symbol.code < 2 ^ 56 := by
    unfold Symbol.code
    omega
  obtain ⟨hne, hletters, hlen, hread⟩ := Symbol.codeOfText_codeText hcode hvalid.2
  have htrim : trimSpaces (Symbol.codeText a.symbol.code) = Symbol.codeText a.symbol.code :=
    trimSpaces_replicate 0 fun x hx => (upper_spec (hletters x hx)).2.2.2.2.1
  refine ⟨?_, _, _, formatAmount_eq hnonneg, htext⟩
  rw [formatAmount_eq hnonneg]
  generalize hparts : wholeDigits a.amount.natAbs a.symbol.precision ++
    fractionText (decimals a.amount.natAbs a.symbol.precision) ++
    ' ' :: Symbol.codeText a.symbol.code = text
  have hcut : Cut (trimSpaces (StringView.ofText text).chars)
      (wholeDigits a.amount.natAbs a.symbol.precision)
      (decimals a.amount.natAbs a.symbol.precision) (Symbol.codeText a.symbol.code) := by
    rw [StringView.chars_ofText, ← hparts]
    exact cut_of_amount htext ⟨hne, hletters⟩
  have hsize : (StringView.ofText text).size ≤ npos := by
    show text.length ≤ 2 ^ 32 - 1
    have hwhole := length_wholeDigits hvalid
    have hfraction := length_fractionText_le (decimals a.amount.natAbs a.symbol.precision)
    rw [htext.decimals] at hfraction
    rw [← hparts, List.length_append, List.length_append, List.length_cons]
    omega
  refine (assetFromString_eq_ok hsize List.drop_length hcut).mpr ?_
  apply readAs_of_digits hvalid hprecision htext
  · have hvalue := congrArg (Nat.cast (R := ℤ))
      (digitsValue_parts a.amount.natAbs a.symbol.precision)
    rw [Int.natAbs_of_nonneg hnonneg] at hvalue
    push_cast at hvalue
    exact hvalue
  · rw [htrim]
    exact hread

/-- Five cents are written with both decimals and a zero in front. -/
theorem Sample.assetFromString_formatAmount_cents :
    assetFromString (.ofText (formatAmount 5 2 ++ ' ' :: Symbol.codeText (Symbol.lit "FLON" 2).code))
        = .ok (.lit (int64 5) (Symbol.lit "FLON" 2)) :=
  (@assetFromString_formatAmount (.lit (int64 5) (Symbol.lit "FLON" 2)) (by decide) (by decide)
    (by decide)).1

example : formatAmount 5 2 = ['0', '.', '0', '5'] := by decide

end Reading

end TokenSummary
end ToolkitContracts
