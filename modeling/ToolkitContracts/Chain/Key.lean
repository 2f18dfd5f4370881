import ToolkitContracts.Chain.Text

/-!
# Public keys

`eosio::public_key` is a variant of two 33-byte elliptic curve keys and a webauthn key. Users
name a key in a memo, as the prefix `FU` and the base58 form of 37 bytes: the key of the first
alternative, then a checksum that the parser in `pubkey_utils.hpp` does not look at.
-/

namespace ToolkitContracts

/-- `eosio::ecc_public_key`. -/
abbrev EccPublicKey := { data : List UInt8 // data.length = 33 }

/-- `eosio::webauthn_public_key`. -/
structure WebauthnPublicKey where
  key : EccPublicKey
  userPresence : UInt8
  rpid : List UInt8
deriving DecidableEq

/-- `eosio::public_key`, the alternatives in the order of the variant. -/
inductive PublicKey where
  | k1 (key : EccPublicKey)
  | r1 (key : EccPublicKey)
  | webauthn (key : WebauthnPublicKey)
deriving DecidableEq

namespace PublicKey

/-- `public_key()`. -/
instance : Inhabited PublicKey := ⟨.k1 ⟨List.replicate 33 0, List.length_replicate ..⟩⟩

/-- The key is of the variant's first alternative. -/
def IsK1 (k : PublicKey) : Prop := ∃ key, k = .k1 key

end PublicKey

/-! ## Base58 -/

/-- `pszBase58`: the letters and digits without `0`, `I`, `O` and `l`. -/
def pszBase58 : List Char := "123456789ABCDEFGHJKLMNPQRSTUVWXYZabcdefghijkmnopqrstuvwxyz".toList

/-- `mapBase58`, with `none` for its entries -1. -/
def mapBase58 (c : Char) : Option ℕ := pszBase58.findIdx? (· == c)

/-- The inner loop of `DecodeBase58`: multiply the number by 58 and add the carry. The bytes
come with the lowest first; the result has the bytes, the carry that is left and the number
of bytes that were visited. -/
def mulAdd58 (length : ℕ) : ℕ → ℕ → List ℕ → List ℕ × ℕ × ℕ
  | carry, i, [] => ([], carry, i)
  | carry, i, b :: bs =>
    if carry ≠ 0 ∨ i < length then
      let carry := carry + 58 * b
      let r := mulAdd58 length (carry / 256) (i + 1) bs
      (carry % 256 :: r.1, r.2)
    else (b :: bs, carry, i)

/-- The outer loop of `DecodeBase58`: the bytes, how many of them are in use, and the rest of
the text from the first space on. -/
def decodeDigits : List Char → ℕ → List ℕ → Option (List ℕ × ℕ × List Char)
  | [], length, b256 => some (b256, length, [])
  | c :: cs, length, b256 =>
    if isSpace c then some (b256, length, c :: cs)
    else match mapBase58 c with
      | none => none
      | some digit =>
        let r := mulAdd58 length digit 0 b256
        if r.2.1 ≠ 0 then none else decodeDigits cs r.2.2 r.1

/-- Why the outer loop of `DecodeBase58` makes it return false. -/
inductive Base58Exit where
  | invalidCharacter
  | nonZeroCarry

/-- The outer loop with the exit that it takes. -/
def decodeDigitsExit : List Char → ℕ → List ℕ → Except Base58Exit (List ℕ × ℕ × List Char)
  | [], length, b256 => .ok (b256, length, [])
  | c :: cs, length, b256 =>
    if isSpace c then .ok (b256, length, c :: cs)
    else match mapBase58 c with
      | none => .error .invalidCharacter
      | some digit =>
        let r := mulAdd58 length digit 0 b256
        if r.2.1 ≠ 0 then .error .nonZeroCarry else decodeDigitsExit cs r.2.2 r.1

theorem decodeDigits_eq (cs : List Char) (length : ℕ) (b256 : List ℕ) :
    decodeDigits cs length b256 = (decodeDigitsExit cs length b256).toOption := by
  induction cs generalizing length b256 with
  | nil => rfl
  | cons c cs ih =>
    rw [decodeDigits, decodeDigitsExit]
    split
    · rfl
    · cases mapBase58 c with
      | none => rfl
      | some digit =>
        dsimp only
        split
        · rfl
        · exact ih _ _

/-- `DecodeBase58`. The text is a C string, which ends at the first zero byte. -/
def decodeBase58 (s : List Char) : Option (List UInt8) := do
  let psz := (s.takeWhile (· != Char.ofNat 0)).dropWhile isSpace
  let digits := psz.dropWhile (· == '1')
  let zeroes := psz.length - digits.length
  let size := u32 (digits.length * 733) / 1000 + 1
  let (b256, length, rest) ← decodeDigits digits 0 (List.replicate size 0)
  -- only spaces may follow the digits
  if rest.dropWhile isSpace ≠ [] then none
  else some (List.replicate zeroes 0 ++
    (((b256.take length).reverse.dropWhile (· == 0)).map UInt8.ofNat))

/-- `str_to_pubkey`. -/
def strToPubkey (pubkey : List Char) : Except Abort PublicKey := do
  check (pubkey.take 2 = "FU".toList) "Invalid public key prefix"
  let vch ← require (decodeBase58 (pubkey.drop 2)) none "Failed to decode base58 for pubkey"
  let hsize ← checkThat (vch.length = 37) "Invalid public key length"
  return .k1 ⟨vch.take 33, by rw [List.length_take, hsize.down]; rfl⟩

/-- Keys that come from a memo are of the first alternative. -/
theorem isK1_of_strToPubkey {s : List Char} {k : PublicKey} (h : strToPubkey s = .ok k) :
    k.IsK1 := by
  simp only [strToPubkey, bind_eq_ok, check_eq_ok, exists_const, pure_eq_ok] at h
  obtain ⟨-, vch, -, hsize, -, hk⟩ := h
  exact ⟨_, hk.symm⟩

end ToolkitContracts
