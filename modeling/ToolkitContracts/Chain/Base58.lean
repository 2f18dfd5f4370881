import ToolkitContracts.Chain.Key
import ToolkitContracts.Lib.Radix

/-!
# The base58 form of bytes

`DecodeBase58` is onto: every sequence of bytes that is not absurdly long has a text, in the
58 letters and digits alone, that it decodes to those bytes. The text is the usual one, the
digits of the number that the bytes denote behind a `1` for each leading zero byte, so this says
that the decoder is right; it also says that there is a text for every checksum. On texts without white
space it is one to one: a text that is decoded to some bytes is the one that they encode to.
-/

namespace ToolkitContracts

open Radix

/-- The letter or digit that stands for `d`. -/
def base58Char (d : ℕ) : Char := pszBase58.getD d '1'

theorem base58Char_spec : ∀ d < 58, mapBase58 (base58Char d) = some d ∧
    isSpace (base58Char d) = false ∧ base58Char d ≠ Char.ofNat 0 ∧
    (base58Char d == '1') = (d == 0) := by decide

/-- The number that bytes denote, the highest first. -/
def bytesValue (v : List UInt8) : ℕ := Nat.ofDigits 256 (v.reverse.map UInt8.toNat)

/-- The base58 form of bytes. -/
def encodeBase58 (v : List UInt8) : List Char :=
  List.replicate (v.takeWhile (· == 0)).length '1' ++
    (Nat.digits 58 (bytesValue (v.dropWhile (· == 0)))).reverse.map base58Char

/-! ## The loops -/

/-- The inner loop multiplies the number by 58 and adds the carry; what does not fit in the
buffer is the carry that is left. -/
theorem mulAdd58_spec (length : ℕ) {carry i : ℕ} {bs : List ℕ} (hbytes : ∀ b ∈ bs, b < 256)
    (hzeros : ZerosFrom (length - i) bs) :
    (mulAdd58 length carry i bs).1.length = bs.length ∧
    (∀ b ∈ (mulAdd58 length carry i bs).1, b < 256) ∧
    Nat.ofDigits 256 (mulAdd58 length carry i bs).1
      + 256 ^ bs.length * (mulAdd58 length carry i bs).2.1 = 58 * Nat.ofDigits 256 bs + carry ∧
    i ≤ (mulAdd58 length carry i bs).2.2 ∧
    ZerosFrom ((mulAdd58 length carry i bs).2.2 - i) (mulAdd58 length carry i bs).1 := by
  induction bs generalizing carry i with
  | nil =>
    refine ⟨rfl, hbytes, ?_, le_refl i, ?_⟩
    · simp [mulAdd58]
    · simp [mulAdd58, ZerosFrom]
  | cons b bs ih =>
    rw [mulAdd58]
    split
    · -- the byte is visited, and the loop goes on with what is carried
      have htail : ZerosFrom (length - (i + 1)) bs := by
        intro d hd
        apply hzeros d
        by_cases hi : i < length
        · have hsucc : length - i = length - (i + 1) + 1 := by omega
          rw [hsucc, List.drop_succ_cons]
          exact hd
        · have hzero : length - i = 0 := by omega
          rw [hzero, List.drop_zero]
          exact List.mem_cons_of_mem _ (List.mem_of_mem_drop hd)
      obtain ⟨hlen, hbytes', hvalue, hle, hzeros'⟩ := @ih ((carry + 58 * b) / 256) (i + 1)
        (fun d hd => hbytes d (List.mem_cons_of_mem _ hd)) htail
      dsimp only
      generalize mulAdd58 length ((carry + 58 * b) / 256) (i + 1) bs = r at *
      refine ⟨?_, ?_, ?_, ?_, ?_⟩
      · simp [hlen]
      · intro d hd
        rcases List.mem_cons.mp hd with rfl | hd
        · exact Nat.mod_lt _ (by omega)
        · exact hbytes' d hd
      · have hdiv := Nat.mod_add_div (carry + 58 * b) 256
        calc Nat.ofDigits 256 ((carry + 58 * b) % 256 :: r.1) + 256 ^ (b :: bs).length * r.2.1
            = (carry + 58 * b) % 256 + 256 * (Nat.ofDigits 256 r.1 + 256 ^ bs.length * r.2.1) := by
              rw [Nat.ofDigits_cons, List.length_cons, pow_succ]
              ring
          _ = 58 * Nat.ofDigits 256 (b :: bs) + carry := by
              rw [hvalue, Nat.ofDigits_cons]
              omega
      · show i ≤ r.2.2
        omega
      · have hsucc : r.2.2 - i = r.2.2 - (i + 1) + 1 := by omega
        show ZerosFrom (r.2.2 - i) ((carry + 58 * b) % 256 :: r.1)
        rw [hsucc, ZerosFrom, List.drop_succ_cons]
        exact hzeros'
    · -- nothing is carried, and from here on there are only zeros
      next hstop =>
      have hcarry : carry = 0 := by omega
      have hused : length - i = 0 := by omega
      rw [hused] at hzeros
      have hzero : Nat.ofDigits 256 (b :: bs) = 0 := ofDigits_eq_zero hzeros
      refine ⟨rfl, hbytes, ?_, le_refl i, ?_⟩
      · show Nat.ofDigits 256 (b :: bs) + 256 ^ (b :: bs).length * carry = _
        rw [hzero, hcarry, mul_zero, mul_zero]
      · rw [Nat.sub_self]
        exact hzeros

/-- The inner loop does not leave the buffer. -/
theorem mulAdd58_visited (length carry i : ℕ) (bs : List ℕ) :
    (mulAdd58 length carry i bs).2.2 ≤ i + bs.length := by
  induction bs generalizing carry i with
  | nil => exact le_refl i
  | cons b bs ih =>
    rw [mulAdd58]
    split
    · have hrest := ih ((carry + 58 * b) / 256) (i + 1)
      rw [List.length_cons]
      dsimp only
      omega
    · exact Nat.le_add_right i _

theorem mapBase58_eq_some {c : Char} {d : ℕ} (h : mapBase58 c = some d) : d < 58 ∧ base58Char d = c := by
  obtain ⟨hlt, hbeq, -⟩ := List.findIdx?_eq_some_iff_getElem.mp h
  refine ⟨hlt, ?_⟩
  rw [base58Char, List.getD_eq_getElem?_getD, List.getElem?_eq_getElem hlt]
  exact eq_of_beq hbeq

/-- What the outer loop does in a buffer that holds every number of as many digits as there are
characters: it stops at an invalid character, or has converted all digits up to the first space.
No carry is ever left. -/
theorem decodeDigitsExit_spec {cs : List Char} {length k : ℕ} {b256 : List ℕ}
    (hbytes : ∀ b ∈ b256, b < 256) (hzeros : ZerosFrom length b256) (hlength : length ≤ b256.length)
    (hvalue : Nat.ofDigits 256 b256 < 58 ^ k) (hfits : 58 ^ (k + cs.length) ≤ 256 ^ b256.length) :
    (∀ e, decodeDigitsExit cs length b256 = .error e →
      e = .invalidCharacter ∧ ∃ c ∈ cs, mapBase58 c = none) ∧
    ∀ b256' length' rest, decodeDigitsExit cs length b256 = .ok (b256', length', rest) →
      (∀ b ∈ b256', b < 256) ∧ ZerosFrom length' b256' ∧ length' ≤ b256'.length ∧
      b256'.length = b256.length ∧ (∀ c ∈ rest.head?, isSpace c = true) ∧
      ∃ ds : List ℕ, (∀ d ∈ ds, d < 58) ∧ cs = ds.map base58Char ++ rest ∧
        Nat.ofDigits 256 b256' = horner 58 (Nat.ofDigits 256 b256) ds := by
  induction cs generalizing length k b256 with
  | nil =>
    refine ⟨fun e he => (by cases he), fun b256' length' rest h => ?_⟩
    simp only [decodeDigitsExit, Except.ok.injEq, Prod.mk.injEq] at h
    obtain ⟨rfl, rfl, rfl⟩ := h
    exact ⟨hbytes, hzeros, hlength, rfl, fun c hc => (by cases hc), [], by simp, rfl, rfl⟩
  | cons c cs ih =>
    rw [decodeDigitsExit]
    by_cases hspace : isSpace c = true
    · -- a space ends the digits
      rw [if_pos hspace]
      refine ⟨fun e he => (by cases he), fun b256' length' rest h => ?_⟩
      simp only [Except.ok.injEq, Prod.mk.injEq] at h
      obtain ⟨rfl, rfl, rfl⟩ := h
      refine ⟨hbytes, hzeros, hlength, rfl, fun x hx => ?_, [], by simp, rfl, rfl⟩
      rw [← Option.some.inj hx]
      exact hspace
    · rw [if_neg hspace]
      cases hmap : mapBase58 c with
      | none =>
        refine ⟨fun e he => ?_, fun b256' length' rest h => by cases h⟩
        cases he
        exact ⟨rfl, c, List.mem_cons_self, hmap⟩
      | some d =>
        obtain ⟨hd, hchar⟩ := mapBase58_eq_some hmap
        have hall : ZerosFrom (length - 0) b256 := hzeros
        obtain ⟨hlen, hbytes', hnext, -, hzeros'⟩ := @mulAdd58_spec length d 0 b256 hbytes hall
        have hvisited := mulAdd58_visited length d 0 b256
        dsimp only
        generalize mulAdd58 length d 0 b256 = r at *
        rw [List.length_cons] at hfits
        -- one digit more, and still it fits
        have hsofar : Nat.ofDigits 256 b256 * 58 + d < 58 ^ (k + 1) := by
          rw [pow_succ]
          omega
        have hroom : 58 ^ (k + 1) ≤ 256 ^ b256.length :=
          (Nat.pow_le_pow_right (by omega) (by omega)).trans hfits
        have hcarry : r.2.1 = 0 := by
          by_contra hne
          have hle : 256 ^ b256.length ≤ 256 ^ b256.length * r.2.1 :=
            Nat.le_mul_of_pos_right _ (Nat.pos_of_ne_zero hne)
          omega
        rw [hcarry, mul_zero, add_zero, mul_comm] at hnext
        rw [Nat.sub_zero] at hzeros'
        rw [hcarry, if_neg fun hne => hne rfl]
        have hsum : k + (cs.length + 1) = k + 1 + cs.length := by omega
        rw [hsum, ← hlen] at hfits
        obtain ⟨hexit, hdone⟩ := ih hbytes' hzeros' (by omega) (hnext ▸ hsofar) hfits
        refine ⟨fun e he => ?_, fun b256' length' rest h => ?_⟩
        · obtain ⟨hinvalid, x, hx, hnone⟩ := hexit e he
          exact ⟨hinvalid, x, List.mem_cons_of_mem _ hx, hnone⟩
        · obtain ⟨hb, hz, hle, hsize, hrest, ds, hds, hcs, hresult⟩ := hdone b256' length' rest h
          refine ⟨hb, hz, hle, hsize.trans hlen, hrest, d :: ds, ?_, ?_, ?_⟩
          · intro e he
            rcases List.mem_cons.mp he with rfl | he
            · exact hd
            · exact hds e he
          · rw [List.map_cons, List.cons_append, ← hcs, hchar]
          · rw [horner_cons, ← hnext, hresult]

/-! ## Texts of digits -/

/-- The text that is left to convert once the spaces in front are skipped. -/
def psz (s : List Char) : List Char := (s.takeWhile (· != Char.ofNat 0)).dropWhile isSpace

/-- `strlen(psz) * 733` does not overflow. -/
def Short (s : List Char) : Prop := ((psz s).dropWhile (· == '1')).length * 733 < 2 ^ 32

/-- The buffer of `DecodeBase58` is long enough for the digits. -/
theorem buffer_fits {n : ℕ} (hshort : n * 733 < 2 ^ 32) :
    58 ^ n ≤ 256 ^ (u32 (n * 733) / 1000 + 1) := by
  have hexact : u32 (n * 733) = n * 733 := by
    unfold u32
    omega
  have hrate : 58 ^ 86 ≤ 256 ^ 63 := by norm_num
  apply pow_le_pow_of_rate (by omega) (by omega) hrate
  rw [hexact]
  omega

section Digits
variable {s : List Char} {v : List UInt8} {ds : List ℕ} {k : ℕ}

/-- The outer loop on a text that is not too long: it never leaves a carry, and what it converts
is the number that the digits denote, in a buffer of which it uses no more than there is. -/
theorem decodeDigitsExit_of_short {cs : List Char} (hshort : cs.length * 733 < 2 ^ 32) :
    (∀ e, decodeDigitsExit cs 0 (List.replicate (u32 (cs.length * 733) / 1000 + 1) 0) = .error e →
      e = .invalidCharacter ∧ ∃ c ∈ cs, mapBase58 c = none) ∧
    ∀ b256 length rest,
      decodeDigitsExit cs 0 (List.replicate (u32 (cs.length * 733) / 1000 + 1) 0)
        = .ok (b256, length, rest) →
      b256.length = u32 (cs.length * 733) / 1000 + 1 ∧ length ≤ b256.length ∧
      (∀ c ∈ rest.head?, isSpace c = true) ∧
      ∃ ds : List ℕ, (∀ d ∈ ds, d < 58) ∧ cs = ds.map base58Char ++ rest ∧
        (b256.take length).reverse.dropWhile (· == 0) = (Nat.digits 256 (horner 58 0 ds)).reverse := by
  generalize hbuffer : List.replicate (u32 (cs.length * 733) / 1000 + 1) 0 = buffer
  have hempty : ∀ b ∈ buffer, b = 0 := by
    intro b hb
    rw [← hbuffer] at hb
    exact List.eq_of_mem_replicate hb
  have hbytes : ∀ b ∈ buffer, b < 256 := by
    intro b hb
    rw [hempty b hb]
    omega
  have hzero : Nat.ofDigits 256 buffer = 0 := ofDigits_eq_zero hempty
  have hlen : buffer.length = u32 (cs.length * 733) / 1000 + 1 := by
    rw [← hbuffer, List.length_replicate]
  have hfits : 58 ^ (0 + cs.length) ≤ 256 ^ buffer.length := by
    rw [Nat.zero_add, hlen]
    exact buffer_fits hshort
  have hunused : ZerosFrom 0 buffer := hempty
  obtain ⟨hexit, hdone⟩ := decodeDigitsExit_spec hbytes hunused (Nat.zero_le _)
    (by rw [hzero]; exact Nat.one_pos) hfits
  refine ⟨hexit, fun b256 length rest h => ?_⟩
  obtain ⟨hbytes', hzeros', hle, hsize, hrest, ds, hds, hcs, hresult⟩ := hdone b256 length rest h
  refine ⟨hsize.trans hlen, hle, hrest, ds, hds, hcs, ?_⟩
  rw [dropWhile_reverse_take (by omega) hbytes' hzeros', hresult, hzero]

/-- What stands behind ones is the digits, if they do not start with a one. -/
theorem dropWhile_ones (k : ℕ) (hds : ∀ d ∈ ds, d < 58) (hhead : ds.head? ≠ some 0) :
    (List.replicate k '1' ++ ds.map base58Char).dropWhile (· == '1') = ds.map base58Char := by
  have hones : ∀ c ∈ List.replicate k '1', (c == '1') = true := by
    intro c hc
    rw [List.eq_of_mem_replicate hc]
    rfl
  rw [List.dropWhile_append_of_pos hones]
  cases ds with
  | nil => rfl
  | cons d ds =>
    obtain ⟨-, -, -, hone⟩ := base58Char_spec d (hds d List.mem_cons_self)
    have hne : d ≠ 0 := fun hzero => hhead (by rw [hzero]; rfl)
    rw [List.map_cons, List.dropWhile_cons_of_neg]
    rw [hone, beq_iff_eq]
    exact hne

/-- Base58 digits end no C string and are no spaces. -/
theorem chars_of_digits (hds : ∀ d ∈ ds, d < 58) :
    ∀ c ∈ List.replicate k '1' ++ ds.map base58Char, c ≠ Char.ofNat 0 ∧ isSpace c = false := by
  intro c hc
  rcases List.mem_append.mp hc with hone | hdigit
  · rw [List.eq_of_mem_replicate hone]
    decide
  · obtain ⟨d, hd, rfl⟩ := List.mem_map.mp hdigit
    obtain ⟨-, hspace, hnul, -⟩ := base58Char_spec d (hds d hd)
    exact ⟨hnul, hspace⟩

/-- A text without white space and zero bytes is converted as it is. -/
theorem psz_eq (hs : ∀ c ∈ s, c ≠ Char.ofNat 0 ∧ isSpace c = false) : psz s = s := by
  rw [psz, List.takeWhile_eq_self_iff.mpr fun c hc => bne_iff_ne.mpr (hs c hc).1]
  cases s with
  | nil => rfl
  | cons c cs =>
    rw [List.dropWhile_cons_of_neg]
    rw [(hs c List.mem_cons_self).2]
    exact Bool.false_ne_true

/-- Nothing is left where a space is expected and there is none. -/
theorem nil_of_head {rest : List Char} (hhead : ∀ c ∈ rest.head?, isSpace c = true)
    (hs : ∀ c ∈ rest, isSpace c = false) : rest = [] := by
  cases rest with
  | nil => rfl
  | cons c cs =>
    have hspace := hhead c rfl
    rw [hs c List.mem_cons_self] at hspace
    cases hspace

theorem map_base58Char_inj {ds' : List ℕ} (hds : ∀ d ∈ ds, d < 58) (hds' : ∀ d ∈ ds', d < 58)
    (h : ds.map base58Char = ds'.map base58Char) : ds = ds' := by
  have hback : ∀ l : List ℕ, (∀ d ∈ l, d < 58) → (l.map base58Char).map mapBase58 = l.map some := by
    intro l hl
    rw [List.map_map]
    exact List.map_congr_left fun d hd => (base58Char_spec d (hl d hd)).1
  have hsame := congrArg (List.map mapBase58) h
  rw [hback ds hds, hback ds' hds'] at hsame
  exact List.map_injective_iff.mpr (Option.some_injective ℕ) hsame

/-- Ones and digits are decoded to zero bytes and the bytes of the number. -/
theorem decodeBase58_of_digits (hds : ∀ d ∈ ds, d < 58) (hhead : ds.head? ≠ some 0)
    (hshort : ds.length * 733 < 2 ^ 32) :
    decodeBase58 (List.replicate k '1' ++ ds.map base58Char)
      = some (List.replicate k 0 ++ (Nat.digits 256 (horner 58 0 ds)).reverse.map UInt8.ofNat) := by
  have hchars : ∀ c ∈ List.replicate k '1' ++ ds.map base58Char,
      c ≠ Char.ofNat 0 ∧ isSpace c = false := chars_of_digits hds
  have hpsz := psz_eq hchars
  have hones := dropWhile_ones k hds hhead
  have hlen : (ds.map base58Char).length = ds.length := List.length_map _
  have hzeroes : (List.replicate k '1' ++ ds.map base58Char).length - ds.length = k := by
    rw [List.length_append, List.length_replicate, hlen]
    omega
  have hshort' : (ds.map base58Char).length * 733 < 2 ^ 32 := by rwa [hlen]
  obtain ⟨hexit, hdone⟩ := decodeDigitsExit_of_short hshort'
  rw [hlen] at hexit hdone
  unfold psz at hpsz
  simp only [decodeBase58, hpsz, hones, hlen, hzeroes, decodeDigits_eq]
  cases hloop : decodeDigitsExit (ds.map base58Char) 0
      (List.replicate (u32 (ds.length * 733) / 1000 + 1) 0) with
  | error e =>
    -- every character is a digit
    obtain ⟨-, c, hc, hnone⟩ := hexit e hloop
    obtain ⟨d, hd, rfl⟩ := List.mem_map.mp hc
    rw [(base58Char_spec d (hds d hd)).1] at hnone
    cases hnone
  | ok r =>
    obtain ⟨b256, length, rest⟩ := r
    obtain ⟨-, -, hrest, ds', hds', hsplit, hbytes⟩ := hdone b256 length rest hloop
    have hend : rest = [] := nil_of_head hrest fun c hc => (hchars c (List.mem_append_right _
      (by rw [hsplit]; exact List.mem_append_right _ hc))).2
    rw [hend, List.append_nil] at hsplit
    rw [hend, map_base58Char_inj hds hds' hsplit]
    show some (List.replicate k 0
      ++ ((b256.take length).reverse.dropWhile (· == 0)).map UInt8.ofNat) = _
    rw [hbytes]

end Digits

/-! ## Encoding and decoding -/

section Encode
variable {v : List UInt8} {s : List Char}

/-- The characters of an encoded text end no C string and are no spaces. -/
theorem encodeBase58_spec (v : List UInt8) :
    ∀ c ∈ encodeBase58 v, c ≠ Char.ofNat 0 ∧ isSpace c = false :=
  chars_of_digits fun _ hd => Nat.digits_lt_base (by omega) (List.mem_reverse.mp hd)

theorem bytesValue_lt (v : List UInt8) : bytesValue v < 256 ^ v.length := by
  have hlt := Nat.ofDigits_lt_base_pow_length (b := 256) (l := v.reverse.map UInt8.toNat) (by omega)
    (fun d hd => by
      obtain ⟨x, -, rfl⟩ := List.mem_map.mp hd
      exact x.toNat_lt)
  simpa [bytesValue] using hlt

/-- The bytes of a number without leading zeros. -/
theorem digits_bytesValue (v : List UInt8) :
    ((Nat.digits 256 (bytesValue (v.dropWhile (· == 0)))).reverse).map UInt8.ofNat
      = v.dropWhile (· == 0) := by
  have hdigits : Nat.digits 256 (bytesValue (v.dropWhile (· == 0)))
      = (v.dropWhile (· == 0)).reverse.map UInt8.toNat := by
    apply Nat.digits_ofDigits 256 (by omega)
    · intro d hd
      obtain ⟨x, -, rfl⟩ := List.mem_map.mp hd
      exact x.toNat_lt
    · intro hne
      have hne' : v.dropWhile (· == 0) ≠ [] := by
        intro hnil
        rw [hnil] at hne
        exact hne rfl
      have hhead := List.head_dropWhile_not (· == 0) hne'
      rw [List.getLast_map, List.getLast_reverse]
      intro hzero
      have hsame : (v.dropWhile (· == 0)).head hne' = 0 := UInt8.toNat_inj.mp hzero
      rw [hsame] at hhead
      cases hhead
  rw [hdigits, ← List.map_reverse, List.reverse_reverse, List.map_map]
  conv_rhs => rw [← List.map_id (v.dropWhile (· == 0))]
  apply List.map_congr_left
  intro x _
  exact UInt8.ofNat_toNat

/-- The leading zero bytes in front of the bytes of a number. -/
theorem leading_zeros (k n : ℕ) :
    (List.replicate k 0 ++ (Nat.digits 256 n).reverse.map UInt8.ofNat).takeWhile (· == 0)
        = List.replicate k 0 ∧
      (List.replicate k 0 ++ (Nat.digits 256 n).reverse.map UInt8.ofNat).dropWhile (· == 0)
        = (Nat.digits 256 n).reverse.map UInt8.ofNat := by
  have hzeros : ∀ x ∈ List.replicate k (0 : UInt8), (x == 0) = true := by
    intro x hx
    rw [List.eq_of_mem_replicate hx]
    rfl
  rw [List.takeWhile_append_of_pos hzeros, List.dropWhile_append_of_pos hzeros]
  have hhead := head_digits_reverse 256 n
  have hlt : ∀ d ∈ (Nat.digits 256 n).reverse, d < 256 :=
    fun d hd => Nat.digits_lt_base (by omega) (List.mem_reverse.mp hd)
  generalize (Nat.digits 256 n).reverse = ds at *
  cases ds with
  | nil => exact ⟨List.append_nil _, rfl⟩
  | cons d ds =>
    have hne : (UInt8.ofNat d == 0) = false := by
      rw [beq_eq_false_iff_ne]
      intro hzero
      have hsame := congrArg UInt8.toNat hzero
      rw [UInt8.toNat_ofNat_of_lt' (hlt d List.mem_cons_self)] at hsame
      rw [hsame] at hhead
      exact hhead rfl
    constructor
    · rw [List.map_cons, List.takeWhile_cons_of_neg (by rw [hne]; exact Bool.false_ne_true),
        List.append_nil]
    · rw [List.map_cons, List.dropWhile_cons_of_neg (by rw [hne]; exact Bool.false_ne_true)]

/-- A number denotes itself through its bytes. -/
theorem bytesValue_digits (n : ℕ) :
    bytesValue ((Nat.digits 256 n).reverse.map UInt8.ofNat) = n := by
  have hback : ((Nat.digits 256 n).map UInt8.ofNat).map UInt8.toNat = Nat.digits 256 n := by
    rw [List.map_map]
    conv_rhs => rw [← List.map_id (Nat.digits 256 n)]
    refine List.map_congr_left fun d hd => ?_
    have hlt : d < 256 := Nat.digits_lt_base (by omega) hd
    exact UInt8.toNat_ofNat_of_lt hlt
  rw [bytesValue, ← List.map_reverse, List.reverse_reverse, hback, Nat.ofDigits_digits]

/-- A byte takes at most two digits. -/
theorem length_digits_le (v : List UInt8) :
    (Nat.digits 58 (bytesValue (v.dropWhile (· == 0)))).length ≤ 2 * v.length := by
  apply (Nat.digits_length_le_iff (by omega) _).mpr
  calc bytesValue (v.dropWhile (· == 0))
      < 256 ^ (v.dropWhile (· == 0)).length := bytesValue_lt _
    _ ≤ 256 ^ v.length := Nat.pow_le_pow_right (by omega) (List.length_dropWhile_le _ _)
    _ ≤ (58 ^ 2) ^ v.length := Nat.pow_le_pow_left (by omega) _
    _ = 58 ^ (2 * v.length) := (pow_mul _ _ _).symm

/-- What an encoded text holds behind its ones. -/
theorem digits_encodeBase58 (v : List UInt8) : (psz (encodeBase58 v)).dropWhile (· == '1')
    = (Nat.digits 58 (bytesValue (v.dropWhile (· == 0)))).reverse.map base58Char := by
  rw [psz_eq (encodeBase58_spec v), encodeBase58]
  exact dropWhile_ones _ (fun d hd => Nat.digits_lt_base (by omega) (List.mem_reverse.mp hd))
    (head_digits_reverse _ _)

theorem short_encodeBase58 (hlen : v.length < 2 ^ 21) : Short (encodeBase58 v) := by
  have hfew := length_digits_le v
  rw [Short, digits_encodeBase58, List.length_map, List.length_reverse]
  omega

/-- `DecodeBase58` yields the bytes of an encoded text. -/
theorem decodeBase58_encode (hshort : Short (encodeBase58 v)) :
    decodeBase58 (encodeBase58 v) = some v := by
  have hleading : List.replicate (v.takeWhile (· == 0)).length 0 = v.takeWhile (· == 0) := by
    symm
    apply List.eq_replicate_of_mem
    intro x hx
    have hzero : (x == 0) = true := List.mem_takeWhile_imp (p := (· == 0)) hx
    exact eq_of_beq hzero
  rw [Short, digits_encodeBase58, List.length_map] at hshort
  rw [encodeBase58, decodeBase58_of_digits
    (fun d hd => Nat.digits_lt_base (by omega) (List.mem_reverse.mp hd)) (head_digits_reverse _ _)
    hshort, horner_reverse, Nat.ofDigits_digits, digits_bytesValue, hleading,
    List.takeWhile_append_dropWhile]

/-- A text that is decoded to something consists of ones and digits. -/
theorem digits_of_decodeBase58 (hs : ∀ c ∈ s, c ≠ Char.ofNat 0 ∧ isSpace c = false)
    (hshort : Short s) (h : decodeBase58 s = some v) :
    ∃ (k : ℕ) (ds : List ℕ), (∀ d ∈ ds, d < 58) ∧ ds.head? ≠ some 0 ∧
      s = List.replicate k '1' ++ ds.map base58Char := by
  have hpsz := psz_eq hs
  rw [Short, hpsz] at hshort
  have hdigits : ∀ c ∈ s.dropWhile (· == '1'), isSpace c = false :=
    fun c hc => (hs c ((List.dropWhile_suffix _).mem hc)).2
  obtain ⟨-, hdone⟩ := decodeDigitsExit_of_short hshort
  unfold psz at hpsz
  simp only [decodeBase58, hpsz, decodeDigits_eq] at h
  cases hloop : decodeDigitsExit (s.dropWhile (· == '1')) 0
      (List.replicate (u32 ((s.dropWhile (· == '1')).length * 733) / 1000 + 1) 0) with
  | error e =>
    rw [hloop] at h
    cases h
  | ok r =>
    obtain ⟨b256, length, rest⟩ := r
    obtain ⟨-, -, hrest, ds, hds, hsplit, -⟩ := hdone b256 length rest hloop
    have hend : rest = [] := nil_of_head hrest fun c hc => hdigits c
      (by rw [hsplit]; exact List.mem_append_right _ hc)
    rw [hend, List.append_nil] at hsplit
    refine ⟨(s.takeWhile (· == '1')).length, ds, hds, ?_, ?_⟩
    · intro hzero
      have hne : (s.dropWhile (· == '1')).head? ≠ some '1' := by
        intro hone
        have hnot := List.head?_dropWhile_not (· == '1') s
        rw [hone] at hnot
        cases hnot
      apply hne
      rw [hsplit, List.head?_map, hzero]
      rfl
    · have hones : s.takeWhile (· == '1') = List.replicate (s.takeWhile (· == '1')).length '1' := by
        apply List.eq_replicate_of_mem
        intro c hc
        have hone : (c == '1') = true := List.mem_takeWhile_imp (p := (· == '1')) hc
        exact eq_of_beq hone
      rw [← hsplit, ← hones, List.takeWhile_append_dropWhile]

/-- Encoding what a text was decoded to gives the text back. -/
theorem encode_decodeBase58 (hs : ∀ c ∈ s, c ≠ Char.ofNat 0 ∧ isSpace c = false)
    (hshort : Short s) (h : decodeBase58 s = some v) : encodeBase58 v = s := by
  obtain ⟨k, ds, hds, hhead, rfl⟩ := digits_of_decodeBase58 hs hshort h
  rw [Short, psz_eq hs, dropWhile_ones k hds hhead, List.length_map] at hshort
  rw [decodeBase58_of_digits hds hhead hshort, Option.some.injEq] at h
  -- the digits are those of the number that they denote
  have hdigits : (Nat.digits 58 (horner 58 0 ds)).reverse = ds := by
    have hvalue : horner 58 0 ds = Nat.ofDigits 58 ds.reverse := by
      rw [← horner_reverse, List.reverse_reverse]
    rw [hvalue, Nat.digits_ofDigits 58 (by omega), List.reverse_reverse]
    · intro d hd
      exact hds d (List.mem_reverse.mp hd)
    · intro hne hzero
      rw [List.getLast_eq_iff_getLast?_eq_some, List.getLast?_reverse] at hzero
      exact hhead hzero
  rw [← h, encodeBase58, (leading_zeros _ _).1, (leading_zeros _ _).2, bytesValue_digits, hdigits,
    List.length_replicate]

end Encode

end ToolkitContracts
