import Mathlib.Data.Nat.Log
import ToolkitContracts.Chain.AssetText

/-!
# Numbers and codes in print

`std::to_string` writes a number in decimal digits, and none of them is a surplus zero in front.
`symbol_code::to_string` writes the letters of a code up to its highest byte. The parsers read both
back.
-/

namespace ToolkitContracts

open Radix

/-! ## Decimal numbers -/

section Decimals
variable {s t : List Char} {n : ℕ}

theorem digitsValue_eq (s : List Char) : digitsValue s = Nat.ofDigitChars 10 s 0 := by
  rw [digitsValue, Nat.ofDigitChars_eq_foldl]
  congr 1
  funext acc c
  rw [Nat.mul_comm]

theorem digitsValue_append (s t : List Char) :
    digitsValue (s ++ t) = digitsValue s * 10 ^ t.length + digitsValue t := by
  rw [digitsValue_eq, digitsValue_eq, digitsValue_eq, Nat.ofDigitChars_append,
    Nat.ofDigitChars_eq_ofDigitChars_zero, Nat.mul_comm]

theorem digitsValue_zeros (m : ℕ) (s : List Char) :
    digitsValue (List.replicate m '0' ++ s) = digitsValue s := by
  rw [digitsValue_eq, Nat.ofDigitChars_append, Nat.ofDigitChars_replicate_zero, Nat.mul_zero,
    ← digitsValue_eq]

theorem toList_toString (n : ℕ) : (toString n).toList = Nat.toDigits 10 n := by
  rw [Nat.toString_eq_repr, Nat.toList_repr]

theorem isNumeral_toString (n : ℕ) : IsNumeral (toString n).toList := by
  rw [toList_toString]
  exact ⟨Nat.toDigits_ne_nil, fun c hc => Nat.isDigit_of_mem_toDigits (by omega) (by omega) hc⟩

theorem digitsValue_toString (n : ℕ) : digitsValue (toString n).toList = n := by
  rw [toList_toString, digitsValue_eq, Nat.ofDigitChars_ten_toDigits]

/-- A number is written with `k` digits at most if it has no more. -/
theorem length_toString_le {k : ℕ} (hk : 0 < k) :
    (toString n).toList.length ≤ k ↔ n < 10 ^ k := by
  rw [toList_toString, Nat.length_toDigits_le_iff (by omega) hk]

/-- A zero in front stands alone. -/
theorem head_toString (h : (toString n).toList.head? = some '0') : (toString n).toList = ['0'] := by
  obtain ⟨-, hdigits⟩ := isNumeral_toString n
  have hvalue := digitsValue_toString n
  cases hs : (toString n).toList with
  | nil =>
    rw [hs] at h
    cases h
  | cons c t =>
    rw [hs] at h hvalue hdigits
    obtain rfl : c = '0' := Option.some.inj h
    cases ht : t with
    | nil => rfl
    | cons d t' =>
      -- the number is less than the power of ten with the rest's length
      have hzero := digitsValue_zeros 1 t
      have hlt := digitsValue_lt fun c hc => hdigits c (List.mem_cons_of_mem _ hc)
      have hcons : List.replicate 1 '0' ++ t = '0' :: t := rfl
      rw [← hzero, hcons, hvalue] at hlt
      have hpos : 0 < t.length := by
        rw [ht]
        exact Nat.succ_pos _
      have hlength := (length_toString_le hpos).mpr hlt
      rw [hs, List.length_cons] at hlength
      omega

end Decimals

/-! ## Symbol codes -/

namespace Symbol
variable {code : ℕ}

theorem ofDigits_codeBytes (hcode : code < 2 ^ 56) : Nat.ofDigits 256 (codeBytes code) = code := by
  have hmod : ∀ k, Nat.ofDigits 256 ((List.range k).map fun i => code / 256 ^ i % 256)
      = code % 256 ^ k := by
    intro k
    induction k with
    | zero => rw [List.range_zero, List.map_nil, Nat.ofDigits_nil, pow_zero, Nat.mod_one]
    | succ k ih =>
      rw [List.range_succ, List.map_append, List.map_singleton, Nat.ofDigits_append, ih,
        List.length_map, List.length_range, Nat.ofDigits_singleton, Nat.mod_pow_succ]
  rw [codeBytes, hmod, Nat.mod_eq_of_lt]
  exact hcode

/-- The bytes of a valid code are those of its letters, and zeros. -/
theorem codeBytes_valid (hcode : code < 2 ^ 56) (h : isValidCode code = true) :
    Nat.digits 256 code ≠ [] ∧ (∀ b ∈ Nat.digits 256 code, isUpper b = true) ∧
      ∃ m, codeBytes code = Nat.digits 256 code ++ List.replicate m 0 := by
  have hvalue := ofDigits_codeBytes hcode
  have hbytes : ∀ b ∈ codeBytes code, b < 256 := by
    intro b hb
    obtain ⟨i, -, rfl⟩ := List.mem_map.mp hb
    exact Nat.mod_lt _ (by omega)
  simp only [isValidCode, Bool.and_eq_true, List.all_eq_true, beq_iff_eq] at h
  obtain ⟨hfirst, hzeros⟩ := h
  generalize codeBytes code = bytes at *
  have hsplit : bytes.takeWhile isUpper ++ bytes.dropWhile isUpper = bytes :=
    List.takeWhile_append_dropWhile
  have hupper : ∀ b ∈ bytes.takeWhile isUpper, isUpper b = true :=
    fun b hb => List.mem_takeWhile_imp hb
  have hreplicate := List.eq_replicate_of_mem hzeros
  -- the digits are what is left without the zeros
  have hdigits : bytes.takeWhile isUpper = Nat.digits 256 code := by
    rw [← hvalue, ← rdropWhile_eq_digits (by omega) hbytes]
    have hdrop : ∀ b ∈ (bytes.dropWhile isUpper).reverse, (b == 0) = true := by
      intro b hb
      exact beq_iff_eq.mpr (hzeros b (List.mem_reverse.mp hb))
    have hkeep : (bytes.takeWhile isUpper).rdropWhile (· == 0) = bytes.takeWhile isUpper := by
      apply List.rdropWhile_eq_self_iff.mpr
      intro hne hzero
      have hlast := hupper _ (List.getLast_mem hne)
      rw [beq_iff_eq.mp hzero] at hlast
      cases hlast
    conv_rhs => rw [← hsplit]
    rw [List.rdropWhile, List.reverse_append, List.dropWhile_append_of_pos hdrop]
    exact hkeep.symm
  rw [← hdigits]
  refine ⟨?_, hupper, (bytes.dropWhile isUpper).length, ?_⟩
  · intro hnil
    cases bytes with
    | nil => cases hfirst
    | cons b bytes =>
      have hletter : isUpper b = true := hfirst
      rw [List.takeWhile_cons_of_pos hletter] at hnil
      cases hnil
  · conv_lhs => rw [← hsplit, hreplicate]

/-- `symbol_code::to_string` writes the letters of a valid code. -/
theorem codeText_eq (hcode : code < 2 ^ 56) (h : isValidCode code = true) :
    codeText code = (Nat.digits 256 code).map Char.ofNat := by
  obtain ⟨hne, -, m, hbytes⟩ := codeBytes_valid hcode h
  have hzero : code ≠ 0 := Nat.digits_ne_nil_iff_ne_zero.mp hne
  have hlen : Nat.log2 code / 8 + 1 = (Nat.digits 256 code).length := by
    rw [Nat.length_digits 256 code (by omega) hzero, Nat.log2_eq_log_two, ← Nat.log_pow_left]
  rw [codeText, if_neg hzero, hlen, hbytes, List.take_left]

theorem isUpper_spec {b : ℕ} (h : isUpper b = true) :
    (Char.ofNat b).toNat = b ∧ 'A' ≤ Char.ofNat b ∧ Char.ofNat b ≤ 'Z' := by
  have hbounds : 'A'.toNat ≤ b ∧ b ≤ 'Z'.toNat := of_decide_eq_true h
  have hlo : 'A'.toNat = 65 := rfl
  have hhi : 'Z'.toNat = 90 := rfl
  have hsmall : ∀ x < 91, (Char.ofNat x).toNat = x := by decide
  have hvalue : (Char.ofNat b).toNat = b := hsmall b (by omega)
  have hle : ∀ x y : Char, x.toNat ≤ y.toNat → x ≤ y := fun _ _ hxy => hxy
  refine ⟨hvalue, hle _ _ ?_, hle _ _ ?_⟩ <;> rw [hvalue]
  · exact hbounds.1
  · exact hbounds.2

/-- A valid code is printed as capital letters, and is read back from them. -/
theorem codeOfText_codeText (hcode : code < 2 ^ 56) (h : isValidCode code = true) :
    codeText code ≠ [] ∧ (∀ c ∈ codeText code, 'A' ≤ c ∧ c ≤ 'Z') ∧ (codeText code).length ≤ 7 ∧
      codeOfText (codeText code) = .ok code := by
  obtain ⟨hne, hupper, -⟩ := codeBytes_valid hcode h
  have hletters : ∀ c ∈ codeText code, 'A' ≤ c ∧ c ≤ 'Z' := by
    rw [codeText_eq hcode h]
    intro c hc
    obtain ⟨b, hb, rfl⟩ := List.mem_map.mp hc
    exact (isUpper_spec (hupper b hb)).2
  have hlen : (codeText code).length ≤ 7 := by
    rw [codeText_eq hcode h, List.length_map, Nat.digits_length_le_iff (by omega)]
    exact hcode
  have hvalue : (codeText code).foldr (fun c acc => acc * 256 + c.toNat) 0 = code := by
    rw [codeText_eq hcode h, List.foldr_map]
    calc (Nat.digits 256 code).foldr (fun b acc => acc * 256 + (Char.ofNat b).toNat) 0
        = (Nat.digits 256 code).foldr (fun b acc => b + 256 * acc) 0 := by
          apply List.foldr_ext
          intro b hb acc
          rw [(isUpper_spec (hupper b hb)).1, Nat.mul_comm, Nat.add_comm]
      _ = Nat.ofDigits 256 (Nat.digits 256 code) := (Nat.ofDigits_eq_foldr ..).symm
      _ = code := Nat.ofDigits_digits 256 code
  refine ⟨?_, hletters, hlen, ?_⟩
  · rw [codeText_eq hcode h]
    exact fun hnil => hne (List.map_eq_nil_iff.mp hnil)
  · simp only [codeOfText, bind_eq_ok, check_eq_ok, exists_const, pure_eq_ok, List.all_eq_true,
      decide_eq_true_eq]
    exact ⟨hlen, fun c hc => by simpa using hletters c hc, hvalue⟩

end Symbol

end ToolkitContracts
