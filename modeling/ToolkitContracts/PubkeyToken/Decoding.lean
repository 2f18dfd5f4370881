import ToolkitContracts.Chain.Base58
import ToolkitContracts.PubkeyToken.Backing

/-!
# Decoding a memo

The memo of a deposit is `FU` and the base58 form of 37 bytes, of which the first 33 are a key.
`DecodeBase58` is exact on it: bytes and texts without white space correspond to each other one to
one, and the buffer, whose length is computed from an approximation of `log 58 / log 256`, holds
every number of as many digits, so that no carry is ever left.
-/

namespace ToolkitContracts
namespace PubkeyToken

/-- A text without white space. -/
def NoSpace (s : List Char) : Prop := ∀ c ∈ s, isSpace c = false

instance (s : List Char) : Decidable (NoSpace s) := List.decidableBAll _ s

/-- The memo for a key and the four bytes behind it. -/
def memoOf (first tail : List UInt8) : List Char := "FU".toList ++ encodeBase58 (first ++ tail)

section Memo
variable {memo : List Char} {key : PublicKey} {first tail : List UInt8}

/-- An accepted memo is about 37 bytes, of which the first 33 are the key. -/
theorem strToPubkey_spec (h : strToPubkey memo = .ok key) :
    ∃ (first : EccPublicKey) (tail : List UInt8), tail.length = 4 ∧
      decodeBase58 (memo.drop 2) = some (first.1 ++ tail) ∧ key = .k1 first := by
  simp only [strToPubkey, bind_eq_ok, check_eq_ok, require_eq_ok, exists_const, pure_eq_ok] at h
  obtain ⟨-, v, hdecode, hsize, -, hkey⟩ := h
  refine ⟨⟨v.take 33, ?_⟩, v.drop 33, ?_, ?_, hkey.symm⟩
  · rw [List.length_take, hsize.down]
    rfl
  · rw [List.length_drop, hsize.down]
  · rw [hdecode, List.take_append_drop]

theorem noSpace_memoOf (first tail : List UInt8) : NoSpace (memoOf first tail) := by
  intro c hc
  have hprefix : NoSpace "FU".toList := by decide
  rcases List.mem_append.mp hc with hc | hc
  · exact hprefix c hc
  · exact (encodeBase58_spec _ c hc).2

/-- The memo for a key and any four bytes is decoded to them. -/
theorem decode_memoOf (hfirst : first.length = 33) (htail : tail.length = 4) :
    decodeBase58 ((memoOf first tail).drop 2) = some (first ++ tail) := by
  have hlen : (first ++ tail).length < 2 ^ 21 := by
    rw [List.length_append, hfirst, htail]
    omega
  exact decodeBase58_encode (short_encodeBase58 hlen)

/-- The memo for a key and any four bytes is accepted for that key. -/
theorem strToPubkey_memoOf (first : EccPublicKey) (htail : tail.length = 4) :
    strToPubkey (memoOf first.1 tail) = .ok (.k1 first) := by
  have hsize : (first.1 ++ tail).length = 37 := by
    rw [List.length_append, first.2, htail]
  have hkey : (first.1 ++ tail).take 33 = first.1 := List.take_left' first.2
  have hprefix : (memoOf first.1 tail).take 2 = "FU".toList := rfl
  rw [strToPubkey, check_of hprefix, decode_memoOf first.2 htail, require, ok_bind, checkThat,
    dif_pos hsize, ok_bind]
  exact congrArg (fun k => Except.ok (PublicKey.k1 k)) (Subtype.ext hkey)

/-- Other four bytes make another memo. -/
theorem memoOf_ne {check : List UInt8} (hfirst : first.length = 33) (htail : tail.length = 4)
    (hdecode : decodeBase58 (memo.drop 2) = some (first ++ check)) (hne : tail ≠ check) :
    memoOf first tail ≠ memo := by
  rintro rfl
  rw [decode_memoOf hfirst htail, Option.some.injEq] at hdecode
  exact hne (List.append_cancel_left hdecode)

end Memo

/-- The bytes of every text are decoded from it, and a text without white space that is decoded to
some bytes is their text. On any text that is not too long the outer loop has no carry left and
stays inside the buffer. So the memo for a key names it, whatever the four bytes behind it are. -/
theorem base58_exact :
    (∀ v : List UInt8, Short (encodeBase58 v) → decodeBase58 (encodeBase58 v) = some v) ∧
    (∀ (s : List Char) (v : List UInt8), (∀ c ∈ s, c ≠ Char.ofNat 0 ∧ isSpace c = false) →
      Short s → decodeBase58 s = some v → encodeBase58 v = s) ∧
    (∀ s : List Char, Short s →
      let digits := (psz s).dropWhile (· == '1')
      let size := u32 (digits.length * 733) / 1000 + 1
      let loop := decodeDigitsExit digits 0 (List.replicate size 0)
      decodeDigits digits 0 (List.replicate size 0) = loop.toOption ∧
      (∀ e, loop = .error e → e = .invalidCharacter) ∧
      ∀ b256 length rest, loop = .ok (b256, length, rest) → b256.length = size ∧ length ≤ size) ∧
    ∀ (key : EccPublicKey) (tail : List UInt8), tail.length = 4 →
      strToPubkey (memoOf key.1 tail) = .ok (.k1 key) := by
  refine ⟨fun v hshort => decodeBase58_encode hshort,
    fun s v hs hshort h => encode_decodeBase58 hs hshort h, fun s hshort => ?_,
    fun key tail htail => strToPubkey_memoOf key htail⟩
  obtain ⟨hexit, hdone⟩ := decodeDigitsExit_of_short hshort
  refine ⟨decodeDigits_eq _ _ _, fun e he => (hexit e he).1, fun b256 length rest h => ?_⟩
  obtain ⟨hsize, hle, -⟩ := hdone b256 length rest h
  exact ⟨hsize, hsize ▸ hle⟩

namespace Sample

/-- Two zero bytes and a one are two ones and a two. -/
theorem base58_exact_sample :
    decodeBase58 (encodeBase58 [0, 0, 1]) = some [0, 0, 1] ∧
      encodeBase58 [0, 0, 1] = "112".toList :=
  ⟨base58_exact.1 _ (short_encodeBase58 (by decide)),
    base58_exact.2.1 "112".toList [0, 0, 1] (by simp; decide) (by unfold Short; decide) (by decide)⟩

end Sample

end PubkeyToken
end ToolkitContracts
