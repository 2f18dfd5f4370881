import ToolkitContracts.Chain.Views

/-!
# The text of an asset

`asset_from_string` takes a text apart at its first space and the amount at its first dot. It hands
the two parts of the amount to `strtoll` and `strtoull`, and counts the characters behind the dot
for the precision. `assetFromString_eq_ok` says what it reads, of any text: `Cut` is how the text
is taken apart, `ReadAs` what is made of the parts. Where the parts are numerals, this is the
decimal that was written as long as the fraction has 18 digits at most. From 128 digits on the
precision arrives negative, and the digits in front of the dot are taken for as many of the
smallest units.
-/

namespace ToolkitContracts

/-- The text behind the integer part of an amount. -/
def fractionText (frac : List Char) : List Char := if frac = [] then [] else '.' :: frac

/-- The text is taken apart at its first space, and what is before it at its first dot. -/
structure Cut (text int frac code : List Char) : Prop where
  parts : text = int ++ fractionText frac ++ ' ' :: code
  space : ' ' ∉ int ++ fractionText frac
  dot : '.' ∉ int

/-- What `asset_from_string` does with the two numbers of an amount. -/
def amountOfParts (sym : Symbol) (parts : ℤ × ℤ) : Except Abort Asset := do
  let precision ← precisionFromDecimals sym.precision
  let scaled ← safeMul parts.1 precision
  let amount ← safeAdd scaled parts.2
  Asset.new amount sym

/-- What the digits in front of the dot are multiplied with. -/
def scaleOf (digits : ℕ) : ℤ := if digits ≤ 18 then 10 ^ digits else 1

/-- The fraction counts down behind a minus sign. -/
def signedFraction (int : List Char) (fraction : ℕ) : ℤ :=
  if int.head? = some '-' then -i64 fraction else i64 fraction

/-- The parts of a text are read as the asset `a`. -/
structure ReadAs (int frac code : List Char) (a : Asset) : Prop where
  code : Symbol.codeOfText (trimSpaces code) = .ok a.symbol.code
  symbol : a.symbol = Symbol.make a.symbol.code (frac.length % 256)
  supported : a.symbol.precision ≤ 18 ∨ 128 ≤ a.symbol.precision
  numbers : ∃ whole fraction, strtoll int = (whole, false) ∧ strtoull frac = (fraction, false) ∧
    (int.head? = some '-' → i64 fraction ≠ -2 ^ 63) ∧
    (-2 ^ 63 ≤ whole * scaleOf a.symbol.precision ∧
      whole * scaleOf a.symbol.precision < 2 ^ 63) ∧
    a.amount = whole * scaleOf a.symbol.precision + signedFraction int fraction
  valid : a.isValid

/-- A text in the form of an asset: digits, a dot and digits if there is a fraction, spaces and a
symbol code. -/
structure AssetText (text int frac code : List Char) : Prop where
  whole : IsNumeral int
  fraction : frac = [] ∨ IsNumeral frac
  letters : code ≠ [] ∧ ∀ c ∈ code, 'A' ≤ c ∧ c ≤ 'Z'
  parts : ∃ m, text = int ++ fractionText frac ++ ' ' :: (List.replicate m ' ' ++ code)

/-- The asset is what the text says: as many decimals as were written, and the decimal number. -/
def Denotes (text : List Char) (a : Asset) : Prop :=
  ∃ int frac code, AssetText text int frac code ∧ Symbol.codeOfText code = .ok a.symbol.code ∧
    a.symbol.precision = frac.length ∧
    a.amount = digitsValue int * 10 ^ frac.length + digitsValue frac

/-! ## Sums and products -/

section Numbers
variable {a b r : ℤ}

/-- A product with a positive number is checked against both ends of the range. -/
theorem safeMul_eq_ok (hb : 0 < b) :
    safeMul a b = .ok r ↔ (-2 ^ 63 ≤ a * b ∧ a * b < 2 ^ 63) ∧ r = a * b := by
  have hcheck : safeMul a b = .ok r ↔ (-2 ^ 63 ≤ a * b ∧ a * b < 2 ^ 63) ∧ i64 (a * b) = r := by
    rw [safeMul]
    by_cases hpos : 0 < a
    · rw [if_pos hpos, if_pos hb]
      simp only [bind_eq_ok, check_eq_ok, exists_const, pure_eq_ok, and_congr_left_iff]
      intro _
      have hnonneg : 0 ≤ a * b := Int.mul_nonneg hpos.le hb.le
      rw [Int.tdiv_eq_ediv_of_nonneg (by omega), Int.le_ediv_iff_mul_le hb]
      omega
    · rw [if_neg hpos, if_pos hb]
      simp only [bind_eq_ok, check_eq_ok, exists_const, pure_eq_ok, and_congr_left_iff]
      intro _
      have hneg : a * b ≤ 0 := Int.mul_nonpos_of_nonpos_of_nonneg (by omega) hb.le
      have hdiv : (-2 ^ 63 : ℤ).tdiv b = -(2 ^ 63 / b) := by
        rw [Int.neg_tdiv, Int.tdiv_eq_ediv_of_nonneg (by omega)]
      have hle : -a ≤ 2 ^ 63 / b ↔ -a * b ≤ 2 ^ 63 := Int.le_ediv_iff_mul_le hb
      rw [Int.neg_mul] at hle
      rw [hdiv]
      omega
  rw [hcheck]
  constructor
  · rintro ⟨hrange, rfl⟩
    exact ⟨hrange, i64_eq hrange.1 hrange.2⟩
  · rintro ⟨hrange, rfl⟩
    exact ⟨hrange, i64_eq hrange.1 hrange.2⟩

/-- The smallest number has no negative. -/
theorem safeMul_neg_eq_ok (ha : -2 ^ 63 ≤ a ∧ a < 2 ^ 63) :
    safeMul a (-1) = .ok r ↔ a ≠ -2 ^ 63 ∧ r = -a := by
  have hone : ¬ (0 : ℤ) < -1 := by omega
  have hneg : a ≠ -2 ^ 63 → i64 (a * -1) = -a := by
    intro hne
    rw [i64_eq] <;> omega
  rw [safeMul]
  by_cases hpos : 0 < a
  · rw [if_pos hpos, if_neg hone]
    simp only [bind_eq_ok, check_eq_ok, exists_const, pure_eq_ok]
    have hdiv : (-2 ^ 63 : ℤ).tdiv a = -(2 ^ 63 / a) := by
      rw [Int.neg_tdiv, Int.tdiv_eq_ediv_of_nonneg (by omega)]
    have hle : 1 ≤ 2 ^ 63 / a ↔ 1 * a ≤ 2 ^ 63 := Int.le_ediv_iff_mul_le hpos
    have hne : a ≠ -2 ^ 63 := by omega
    rw [hdiv, hneg hne]
    omega
  · rw [if_neg hpos, if_neg hone]
    simp only [bind_eq_ok, check_eq_ok, exists_const, pure_eq_ok]
    have hdiv : (2 ^ 63 - 1 : ℤ).tdiv a = -((2 ^ 63 - 1) / -a) := by
      rw [← Int.tdiv_eq_ediv_of_nonneg (by omega), Int.tdiv_neg, neg_neg]
    by_cases hne : a = -2 ^ 63
    · subst hne
      simp
    · rw [hdiv, hneg hne]
      by_cases hzero : a = 0
      · omega
      · have hle : 1 ≤ (2 ^ 63 - 1) / -a ↔ 1 * -a ≤ 2 ^ 63 - 1 :=
          Int.le_ediv_iff_mul_le (by omega)
        omega

theorem safeAdd_eq_ok (ha : -2 ^ 63 ≤ a ∧ a < 2 ^ 63) (hb : -2 ^ 63 ≤ b ∧ b < 2 ^ 63) :
    safeAdd a b = .ok r ↔ (-2 ^ 63 ≤ a + b ∧ a + b < 2 ^ 63) ∧ r = a + b := by
  simp only [safeAdd, bind_eq_ok, check_eq_ok, exists_const, pure_eq_ok]
  constructor
  · rintro ⟨hover, hunder, rfl⟩
    refine ⟨by omega, ?_⟩
    apply i64_eq
    · omega
    · omega
  · rintro ⟨hrange, rfl⟩
    exact ⟨by omega, by omega, i64_eq hrange.1 hrange.2⟩

end Numbers

/-! ## The parts of the text -/

section Parts
variable {v : StringView} {c : Char} {a r text int frac code : List Char}

/-- `find` comes to the first place of a character. -/
theorem findFirstOf_eq_some {i : ℕ} : v.findFirstOf c 0 = some i ↔
    ∃ a r, v.chars = a ++ c :: r ∧ c ∉ a ∧ a.length = i := by
  have hfind : v.findFirstOf c 0 = v.chars.findIdx? (· == c) := by
    rw [StringView.findFirstOf, List.drop_zero]
    simp
  rw [hfind]
  constructor
  · intro h
    obtain ⟨hcut, -⟩ := splitOn_of_findIdx? h
    obtain ⟨hlt, -⟩ := List.findIdx?_eq_some_iff_findIdx_eq.mp h
    refine ⟨v.chars.take i, v.chars.drop (i + 1), ?_, ?_, ?_⟩
    · rw [← hcut, List.take_append_drop]
    · intro hmem
      rw [(take_findIdx? h).1] at hmem
      have hne := List.mem_takeWhile_imp hmem
      rw [beq_self_eq_true] at hne
      cases hne
    · rw [List.length_take]
      omega
  · rintro ⟨a, r, hchars, ha, rfl⟩
    have hnone : a.findIdx? (· == c) = none := by
      apply List.findIdx?_eq_none_iff.mpr
      intro x hx
      apply beq_eq_false_iff_ne.mpr
      rintro rfl
      exact ha hx
    rw [hchars, List.findIdx?_append, hnone, List.findIdx?_cons]
    simp

theorem findFirstOf_eq_none : v.findFirstOf c 0 = none ↔ c ∉ v.chars := by
  rw [StringView.findFirstOf, List.drop_zero, Option.map_eq_none_iff, List.findIdx?_eq_none_iff]
  constructor
  · intro h hmem
    have hne := h c hmem
    rw [beq_self_eq_true] at hne
    cases hne
  · intro h x hx
    apply beq_eq_false_iff_ne.mpr
    rintro rfl
    exact h hx

/-- There is one way to cut a text at the first place of a character. -/
theorem cut_unique {a' r' : List Char} (ha : c ∉ a) (ha' : c ∉ a')
    (h : a ++ c :: r = a' ++ c :: r') : a = a' ∧ r = r' := by
  have htake : ∀ b t : List Char, c ∉ b → (b ++ c :: t).takeWhile (· != c) = b := by
    intro b t hb
    rw [takeWhile_append_stop (by simp)]
    apply List.takeWhile_eq_self_iff.mpr
    intro x hx
    apply bne_iff_ne.mpr
    rintro rfl
    exact hb hx
  have hsame : a = a' := by rw [← htake a r ha, h, htake a' r' ha']
  subst hsame
  exact ⟨rfl, (List.cons.inj (List.append_cancel_left h)).2⟩

theorem IsNumeral.not_mem (h : IsNumeral a) (hc : isDigit c = false) : c ∉ a := by
  intro hmem
  rw [h.2 c hmem] at hc
  cases hc

/-- The characters before and behind a place of a view. -/
theorem substr_of_append (h : v.chars = a ++ r) :
    (v.substr 0 a.length).chars = a ∧ (v.substr 0 a.length).rest = r ++ v.rest ∧
      (v.substr 0 a.length).size = a.length := by
  obtain ⟨hchars, hrest⟩ := StringView.substr_spec (Nat.zero_le v.size) a.length
  rw [List.drop_zero, h] at hchars hrest
  rw [List.take_left] at hchars
  rw [List.drop_left] at hrest
  refine ⟨hchars, hrest, ?_⟩
  rw [← StringView.length_chars, hchars]

theorem substr_behind (hsize : v.size ≤ npos) (h : v.chars = a ++ c :: r) :
    (v.substr (a.length + 1) npos).chars = r ∧ (v.substr (a.length + 1) npos).rest = v.rest ∧
      (v.substr (a.length + 1) npos).size ≤ npos := by
  have hlen : v.size = a.length + 1 + r.length := by
    rw [← v.length_chars, h, List.length_append, List.length_cons]
    omega
  obtain ⟨hchars, hrest⟩ := @StringView.substr_spec v (a.length + 1) (by omega) npos
  have hdrop : v.chars.drop (a.length + 1) = r := by
    rw [h, ← List.drop_drop, List.drop_left]
    rfl
  rw [hdrop] at hchars hrest
  rw [List.take_of_length_le (by omega)] at hchars
  rw [List.drop_eq_nil_of_le (by omega), List.nil_append] at hrest
  refine ⟨hchars, hrest, ?_⟩
  rw [← StringView.length_chars, hchars]
  omega

/-- A part of the amount is read up to its end. -/
theorem toInt64_part (hrest : EndsNumber v.rest) {title : String} {x : ℤ} :
    toInt64 v title = .ok x ↔ strtoll v.chars = (x, false) := by
  rw [toInt64_eq_ok, v.data_eq, strtoll_append hrest]

theorem toUint64_part (hrest : EndsNumber v.rest) {title : String} {x : ℕ} :
    toUint64 v title = .ok x ↔ strtoull v.chars = (x, false) := by
  rw [toUint64_eq_ok, v.data_eq, strtoull_append hrest]

/-- A letter of a symbol code is none of the other characters of the text. -/
theorem upper_spec {x : Char} (h : 'A' ≤ x ∧ x ≤ 'Z') :
    isDigit x = false ∧ isSpace x = false ∧ x ≠ '-' ∧ x ≠ '+' ∧ x ≠ ' ' ∧ x.toNat < 256 := by
  have hlo : 65 ≤ x.toNat := h.1
  have hhi : x.toNat ≤ 90 := h.2
  have hne : ∀ y : Char, y.toNat < 65 → x ≠ y := by
    rintro y hy rfl
    omega
  refine ⟨?_, ?_, hne '-' (by decide), hne '+' (by decide), hne ' ' (by decide), by omega⟩
  · have hnine : ¬ x ≤ '9' := by
      intro hle
      have hle' : x.toNat ≤ 57 := hle
      omega
    simp [isDigit, hnine]
  · have hspace := hne ' ' (by decide)
    simp only [isSpace, hspace, decide_false, Bool.false_or, Bool.and_eq_false_iff,
      decide_eq_false_iff_not]
    right
    omega

theorem codeOfText_lt {k : ℕ} (h : Symbol.codeOfText code = .ok k) : k < 2 ^ 56 := by
  simp only [Symbol.codeOfText, bind_eq_ok, check_eq_ok, exists_const, pure_eq_ok, List.all_eq_true,
    decide_eq_true_eq] at h
  obtain ⟨hlen, hletters, rfl⟩ := h
  have hlt : ∀ l : List Char, (∀ x ∈ l, 'A' ≤ x ∧ x ≤ 'Z') →
      l.foldr (fun x acc => acc * 256 + x.toNat) 0 < 256 ^ l.length := by
    intro l hl
    induction l with
    | nil => exact Nat.one_pos
    | cons x l ih =>
      have hx := (upper_spec (hl x List.mem_cons_self)).2.2.2.2.2
      have hrest := ih fun y hy => hl y (List.mem_cons_of_mem _ hy)
      rw [List.foldr_cons, List.length_cons, pow_succ]
      omega
  calc code.foldr (fun x acc => acc * 256 + x.toNat) 0
      < 256 ^ code.length := hlt code fun x hx => by simpa using hletters x hx
    _ ≤ 256 ^ 7 := Nat.pow_le_pow_right (by omega) hlen
    _ = 2 ^ 56 := by norm_num

theorem make_spec {k p : ℕ} (hk : k < 2 ^ 56) (hp : p < 256) :
    (Symbol.make k p).precision = p ∧ (Symbol.make k p).code = k := by
  have hraw : (Symbol.make k p).raw = k * 256 + p := by
    show (UInt64.ofNat (k * 256 + p)).toNat = k * 256 + p
    apply UInt64.toNat_ofNat_of_lt'
    show k * 256 + p < 2 ^ 64
    omega
  unfold Symbol.precision Symbol.code
  rw [hraw]
  omega

theorem trimSpaces_replicate (m : ℕ) (h : ∀ x ∈ code, x ≠ ' ') :
    trimSpaces (List.replicate m ' ' ++ code) = code := by
  have hspaces : ∀ x ∈ List.replicate m ' ', (x == ' ') = true := by
    intro x hx
    rw [List.eq_of_mem_replicate hx]
    rfl
  have hdrop : code.dropWhile (· == ' ') = code := by
    apply List.dropWhile_eq_self_iff.mpr
    intro hpos
    simpa using h _ (List.getElem_mem hpos)
  rw [trimSpaces, List.dropWhile_append_of_pos hspaces, hdrop, List.rdropWhile_eq_self_iff]
  intro hne
  simpa using h _ (List.getLast_mem hne)

/-- A number in front of a dot ends there. -/
theorem endsNumber_dot (r : List Char) : EndsNumber ('.' :: r) := by
  refine ⟨0, '.' :: r, rfl, fun c hc => ?_⟩
  obtain rfl : '.' = c := Option.some.inj hc
  decide

/-- A number in front of the symbol code ends there. -/
theorem endsNumber_code (h : ∀ x ∈ trimSpaces code, 'A' ≤ x ∧ x ≤ 'Z') (k : ℕ) :
    EndsNumber (' ' :: code ++ List.replicate k ' ') := by
  have hsplit : code.takeWhile (· == ' ') ++ code.dropWhile (· == ' ') = code :=
    List.takeWhile_append_dropWhile
  obtain ⟨m, hspaces⟩ : ∃ m, code.takeWhile (· == ' ') = List.replicate m ' ' := by
    refine ⟨_, List.eq_replicate_of_mem fun x hx => ?_⟩
    have hspace : (x == ' ') = true := List.mem_takeWhile_imp (p := (· == ' ')) hx
    exact eq_of_beq hspace
  unfold trimSpaces at h
  rw [← hsplit, hspaces]
  cases hbehind : code.dropWhile (· == ' ') with
  | nil =>
    refine ⟨m + 1 + k, [], ?_, fun x hx => by cases hx⟩
    rw [List.append_nil, List.append_nil, List.replicate_add, List.replicate_succ]
  | cons y tail =>
    refine ⟨m + 1, y :: tail ++ List.replicate k ' ', ?_, fun x hx => ?_⟩
    · rw [List.replicate_succ, List.cons_append, List.cons_append, List.append_assoc]
    · obtain rfl : y = x := Option.some.inj hx
      have hy : (y == ' ') = false := by
        have hhead := List.head?_dropWhile_not (· == ' ') code
        rw [hbehind] at hhead
        simpa using hhead
      -- the first letter stays when the spaces behind the code are trimmed
      rw [hbehind] at h
      have hmem : y ∈ (y :: tail).rdropWhile (· == ' ') := by
        obtain ⟨t, ht⟩ := List.rdropWhile_prefix (p := (· == ' ')) (y :: tail)
        cases hkept : (y :: tail).rdropWhile (· == ' ') with
        | nil =>
          have hall := List.rdropWhile_eq_nil_iff.mp hkept y List.mem_cons_self
          rw [hy] at hall
          cases hall
        | cons z kept =>
          rw [hkept, List.cons_append] at ht
          rw [(List.cons.inj ht).1]
          exact List.mem_cons_self
      obtain ⟨hdigit, hspace, hminus, hplus, -⟩ := upper_spec (h y hmem)
      exact ⟨hdigit, hspace, hminus, hplus⟩

theorem letters_of_codeOfText {k : ℕ} (h : Symbol.codeOfText code = .ok k) :
    ∀ x ∈ code, 'A' ≤ x ∧ x ≤ 'Z' := by
  simp only [Symbol.codeOfText, bind_eq_ok, check_eq_ok, exists_const, pure_eq_ok, List.all_eq_true,
    decide_eq_true_eq] at h
  intro x hx
  simpa using h.2.1 x hx

end Parts

/-! ## The whole text -/

section Whole
variable {v src : StringView} {text int frac code : List Char} {a : Asset}

/-- The first dot is the one behind the integer part. -/
theorem findFirstOf_dot (hv : v.chars = int ++ fractionText frac) (hdot : '.' ∉ int) :
    v.findFirstOf '.' 0 = if frac = [] then none else some int.length := by
  by_cases hnone : frac = []
  · rw [if_pos hnone, findFirstOf_eq_none, hv, fractionText, if_pos hnone, List.append_nil]
    exact hdot
  · rw [fractionText, if_neg hnone] at hv
    rw [if_neg hnone, findFirstOf_eq_some]
    exact ⟨int, frac, hv, hdot, rfl⟩

/-- The characters behind the dot are counted, in a byte. -/
theorem precisionDigit_eq (hv : v.chars = int ++ fractionText frac) (hdot : '.' ∉ int) :
    (v.findFirstOf '.' 0).elim 0 (fun d => (v.size - d - 1) % 256) = frac.length % 256 := by
  have hsize : v.size = int.length + (fractionText frac).length := by
    rw [← v.length_chars, hv, List.length_append]
  rw [findFirstOf_dot hv hdot, hsize]
  by_cases hnone : frac = []
  · rw [if_pos hnone, hnone]
    rfl
  · rw [if_neg hnone, fractionText, if_neg hnone, List.length_cons]
    show (int.length + (frac.length + 1) - int.length - 1) % 256 = frac.length % 256
    congr 1
    omega

/-- There is something behind the dot. -/
theorem fraction_behind_dot (hv : v.chars = int ++ fractionText frac) (hdot : '.' ∉ int) :
    ((v.findFirstOf '.' 0).all fun d => decide (d + 1 ≠ v.size)) = true := by
  have hsize : v.size = int.length + (fractionText frac).length := by
    rw [← v.length_chars, hv, List.length_append]
  rw [findFirstOf_dot hv hdot, hsize]
  by_cases hnone : frac = []
  · rw [if_pos hnone]
    rfl
  · have hpos := List.length_pos_of_ne_nil hnone
    rw [if_neg hnone, Option.all_some, fractionText, if_neg hnone, List.length_cons]
    simp only [decide_eq_true_eq]
    omega

theorem signedFraction_bounds {fraction : ℕ}
    (hmin : int.head? = some '-' → i64 fraction ≠ -2 ^ 63) :
    -2 ^ 63 ≤ signedFraction int fraction ∧ signedFraction int fraction < 2 ^ 63 := by
  have hbounds := i64_bounds fraction
  unfold signedFraction
  split
  · next hminus =>
    have hne := hmin hminus
    omega
  · exact hbounds

/-- The two numbers of the amount, whatever is done with them. -/
theorem amountParts_eq_ok (hv : v.chars = int ++ fractionText frac) (hdot : '.' ∉ int)
    (hsize : v.size ≤ npos) (hrest : EndsNumber v.rest) {g : ℤ × ℤ → Except Abort Asset} :
    (match v.findFirstOf '.' 0 with
      | some d => do
        let i ← toInt64 (v.substr 0 d) "asset"
        let f ← toUint64 (v.substr (d + 1) npos) "asset"
        if v.data.head? = some '-' then do
          let f ← safeMul (i64 f) (-1)
          let parts ← pure (i, f)
          g parts
        else do
          let parts ← pure (i, i64 f)
          g parts
      | none => do
        let i ← toInt64 v "asset"
        let parts ← pure (i, 0)
        g parts) = Except.ok a ↔
      ∃ whole fraction, strtoll int = (whole, false) ∧ strtoull frac = (fraction, false) ∧
        (int.head? = some '-' → i64 fraction ≠ -2 ^ 63) ∧
        g (whole, signedFraction int fraction) = .ok a := by
  rw [findFirstOf_dot hv hdot]
  by_cases hnone : frac = []
  · subst hnone
    have hwhole : v.chars = int := by
      rw [hv, fractionText, if_pos rfl, List.append_nil]
    have hempty : strtoull [] = (0, false) := rfl
    have hzero : signedFraction int 0 = 0 := by
      unfold signedFraction
      split <;> rfl
    rw [if_pos rfl, hempty]
    simp only [bind_eq_ok, pure_eq_ok, exists_eq_left', toInt64_part hrest, hwhole]
    constructor
    · rintro ⟨i, hi, hg⟩
      refine ⟨i, 0, hi, rfl, fun _ => by decide, ?_⟩
      rw [hzero]
      exact hg
    · rintro ⟨i, f, hi, hf, -, hg⟩
      obtain rfl : 0 = f := congrArg Prod.fst hf
      rw [hzero] at hg
      exact ⟨i, hi, hg⟩
  · rw [fractionText, if_neg hnone] at hv
    obtain ⟨hchars, hbehind, -⟩ := substr_of_append hv
    obtain ⟨hchars', hbehind', -⟩ := substr_behind hsize hv
    have hends : EndsNumber (v.substr 0 int.length).rest := by
      rw [hbehind]
      exact endsNumber_dot _
    have hends' : EndsNumber (v.substr (int.length + 1) npos).rest := by
      rw [hbehind']
      exact hrest
    have hhead : v.data.head? = some '-' ↔ int.head? = some '-' := by
      rw [v.data_eq, hv]
      cases int with
      | nil => simp
      | cons c int => rfl
    rw [if_neg hnone]
    simp only [bind_eq_ok, toInt64_part hends, hchars, toUint64_part hends', hchars', hhead]
    by_cases hminus : int.head? = some '-'
    · simp only [if_pos hminus, signedFraction, bind_eq_ok, pure_eq_ok, exists_eq_left',
        safeMul_neg_eq_ok (i64_bounds _)]
      constructor
      · rintro ⟨i, hi, f, hf, signed, ⟨hmin, hsigned⟩, hg⟩
        rw [hsigned] at hg
        exact ⟨i, f, hi, hf, fun _ => hmin, hg⟩
      · rintro ⟨i, f, hi, hf, hmin, hg⟩
        exact ⟨i, hi, f, hf, _, ⟨hmin hminus, rfl⟩, hg⟩
    · simp only [if_neg hminus, signedFraction, pure_eq_ok, exists_eq_left', bind_eq_ok]
      constructor
      · rintro ⟨i, hi, f, hf, hg⟩
        exact ⟨i, f, hi, hf, fun h => absurd h hminus, hg⟩
      · rintro ⟨i, f, hi, hf, -, hg⟩
        exact ⟨i, hi, f, hf, hg⟩

/-- The amount that the two numbers make up. -/
theorem amountOfParts_eq_ok {whole fraction : ℤ} {sym : Symbol}
    (hfraction : -2 ^ 63 ≤ fraction ∧ fraction < 2 ^ 63) :
    amountOfParts sym (whole, fraction) = .ok a ↔
      a.symbol = sym ∧ (sym.precision ≤ 18 ∨ 128 ≤ sym.precision) ∧
        (-2 ^ 63 ≤ whole * scaleOf sym.precision ∧ whole * scaleOf sym.precision < 2 ^ 63) ∧
        a.amount = whole * scaleOf sym.precision + fraction ∧ a.isValid := by
  have hunits : 0 < scaleOf sym.precision := by
    unfold scaleOf
    split
    · positivity
    · omega
  have hprecision : precisionFromDecimals sym.precision
      = (check (sym.precision ≤ 18 ∨ 128 ≤ sym.precision) "symbol precision should be <= 18" >>=
          fun _ => pure (scaleOf sym.precision)) := rfl
  rw [amountOfParts, hprecision]
  simp only [bind_eq_ok, check_eq_ok, exists_const, pure_eq_ok, Asset.new_eq_ok]
  constructor
  · rintro ⟨units, ⟨hsupported, rfl⟩, scaled, hscaled, amount, hsum, hamount, rfl, hvalid⟩
    rw [safeMul_eq_ok hunits] at hscaled
    obtain ⟨hrange, rfl⟩ := hscaled
    rw [safeAdd_eq_ok hrange hfraction] at hsum
    obtain ⟨hrange', rfl⟩ := hsum
    rw [i64_eq hrange'.1 hrange'.2] at hamount
    exact ⟨rfl, hsupported, hrange, hamount, hvalid⟩
  · rintro ⟨rfl, hsupported, hrange, hamount, hvalid⟩
    have hrange' := a.bounds
    rw [hamount] at hrange'
    refine ⟨_, ⟨hsupported, rfl⟩, _, (safeMul_eq_ok hunits).mpr ⟨hrange, rfl⟩, _,
      (safeAdd_eq_ok hrange hfraction).mpr ⟨hrange', rfl⟩, ?_, rfl, hvalid⟩
    rw [hamount, i64_eq hrange'.1 hrange'.2]

/-- A text that is read has a space, and characters behind its dot if it has one. -/
theorem exists_cut (hsize : src.size ≤ npos) (h : assetFromString src = .ok a) :
    ∃ int frac code, Cut (trimSpaces src.chars) int frac code := by
  obtain ⟨hchars, -⟩ := StringView.trim_spec hsize
  rw [← hchars]
  rw [assetFromString] at h
  dsimp only at h
  generalize src.trim = s at *
  simp only [bind_eq_ok, require_eq_ok, check_eq_ok, exists_const] at h
  obtain ⟨spacePos, hspace, hbehind, -⟩ := h
  obtain ⟨amount, code, hsplit, hnospace, rfl⟩ := findFirstOf_eq_some.mp hspace
  obtain ⟨hamount, -, hamountSize⟩ := substr_of_append hsplit
  cases hdot : (s.substr 0 amount.length).findFirstOf '.' 0 with
  | none =>
    have hnodot := findFirstOf_eq_none.mp hdot
    rw [hamount] at hnodot
    refine ⟨amount, [], code, ?_, ?_, hnodot⟩
    · rw [fractionText, if_pos rfl, List.append_nil]
      exact hsplit
    · rw [fractionText, if_pos rfl, List.append_nil]
      exact hnospace
  | some d =>
    obtain ⟨int, frac, hparts, hnodot, rfl⟩ := findFirstOf_eq_some.mp hdot
    rw [hamount] at hparts
    have hfrac : frac ≠ [] := by
      rintro rfl
      rw [hdot, Option.all_some, hamountSize, hparts, List.length_append] at hbehind
      simp at hbehind
    refine ⟨int, frac, code, ?_, ?_, hnodot⟩
    · rw [fractionText, if_neg hfrac, ← hparts]
      exact hsplit
    · rw [fractionText, if_neg hfrac, ← hparts]
      exact hnospace

/-- `asset_from_string` reads a text by its parts. -/
theorem assetFromString_eq_ok (hsize : src.size ≤ npos) (hend : src.rest = [])
    (hcut : Cut (trimSpaces src.chars) int frac code) :
    assetFromString src = .ok a ↔ ReadAs int frac code a := by
  obtain ⟨hparts, hnospace, hnodot⟩ := hcut
  obtain ⟨hchars, k, hrest⟩ := StringView.trim_spec hsize
  rw [hparts] at hchars
  rw [hend, List.append_nil] at hrest
  have hsize' : src.trim.size ≤ npos := (Nat.sub_le _ _).trans ((Nat.sub_le _ _).trans hsize)
  rw [assetFromString]
  dsimp only
  generalize src.trim = s at *
  have hspace : s.findFirstOf ' ' 0 = some (int ++ fractionText frac).length :=
    findFirstOf_eq_some.mpr ⟨_, _, hchars, hnospace, rfl⟩
  obtain ⟨hamount, hamountRest, -⟩ := substr_of_append hchars
  obtain ⟨hsymbol, -, hsymbolSize⟩ := substr_behind hsize' hchars
  have hcode : (s.substr ((int ++ fractionText frac).length + 1) npos).trim.chars
      = trimSpaces code := by
    rw [(StringView.trim_spec hsymbolSize).1, hsymbol]
  have hamountSize' : (s.substr 0 (int ++ fractionText frac).length).size ≤ npos :=
    (min_le_right _ _).trans ((Nat.sub_le _ _).trans hsize')
  simp only [hspace, bind_eq_ok, require_eq_ok, check_eq_ok, exists_const, Option.some.injEq,
    exists_eq_left', fraction_behind_dot hamount hnodot, true_and, hcode, precisionDigit_eq hamount hnodot]
  have hends : ∀ symbolCode, Symbol.codeOfText (trimSpaces code) = .ok symbolCode →
      EndsNumber (s.substr 0 (int ++ fractionText frac).length).rest := by
    intro symbolCode hsymbolCode
    rw [hamountRest, hrest]
    exact endsNumber_code (letters_of_codeOfText hsymbolCode) k
  -- the numbers of the amount, for a symbol code that is read
  have hbyte : frac.length % 256 < 256 := Nat.mod_lt _ (by omega)
  constructor
  · rintro ⟨symbolCode, hsymbolCode, h⟩
    obtain ⟨whole, fraction, hwhole, hfraction, hmin, h⟩ := (amountParts_eq_ok
      (g := amountOfParts (Symbol.make symbolCode (frac.length % 256))) hamount hnodot hamountSize'
      (hends symbolCode hsymbolCode)).mp h
    rw [amountOfParts_eq_ok (signedFraction_bounds hmin)] at h
    obtain ⟨hsym, hsupported, hscaled, hvalue, hvalid⟩ := h
    obtain ⟨-, hmakeCode⟩ := make_spec (codeOfText_lt hsymbolCode) hbyte
    rw [← hsym] at hsupported hscaled hvalue
    refine ⟨?_, ?_, hsupported, ⟨whole, fraction, hwhole, hfraction, hmin, hscaled, hvalue⟩, hvalid⟩
    · rw [hsym, hmakeCode]
      exact hsymbolCode
    · rw [hsym, hmakeCode]
  · rintro ⟨hsymbolCode, hsym, hsupported, ⟨whole, fraction, hwhole, hfraction, hmin, hscaled,
      hvalue⟩, hvalid⟩
    refine ⟨a.symbol.code, hsymbolCode, (amountParts_eq_ok
      (g := amountOfParts (Symbol.make a.symbol.code (frac.length % 256))) hamount hnodot
      hamountSize' (hends _ hsymbolCode)).mpr ?_⟩
    refine ⟨whole, fraction, hwhole, hfraction, hmin, ?_⟩
    rw [amountOfParts_eq_ok (signedFraction_bounds hmin), ← hsym]
    exact ⟨rfl, hsupported, hscaled, hvalue, hvalid⟩

end Whole

/-! ## Texts in the form of an asset -/

section Numerals
variable {text int frac code : List Char} {a : Asset}

/-- A text is taken apart in one way. -/
theorem Cut.unique {int' frac' code' : List Char} (h : Cut text int frac code)
    (h' : Cut text int' frac' code') : int = int' ∧ frac = frac' ∧ code = code' := by
  obtain ⟨hparts, hspace, hdot⟩ := h
  obtain ⟨hparts', hspace', hdot'⟩ := h'
  obtain ⟨hamount, hcode⟩ := cut_unique hspace hspace' (hparts.symm.trans hparts')
  have hboth : int = int' ∧ frac = frac' := by
    unfold fractionText at hamount
    by_cases hfrac : frac = []
    · rw [if_pos hfrac, List.append_nil] at hamount
      by_cases hfrac' : frac' = []
      · rw [if_pos hfrac', List.append_nil] at hamount
        exact ⟨hamount, hfrac.trans hfrac'.symm⟩
      · rw [if_neg hfrac'] at hamount
        exact absurd (by rw [hamount]; simp) hdot
    · rw [if_neg hfrac] at hamount
      by_cases hfrac' : frac' = []
      · rw [if_pos hfrac', List.append_nil] at hamount
        exact absurd (by rw [← hamount]; simp) hdot'
      · rw [if_neg hfrac'] at hamount
        exact cut_unique hdot hdot' hamount
  exact ⟨hboth.1, hboth.2, hcode⟩

theorem Cut.length_frac (h : Cut text int frac code) : frac.length < text.length := by
  have hparts := congrArg List.length h.parts
  rw [List.length_append, List.length_append, List.length_cons, fractionText] at hparts
  split at hparts
  · next hnone =>
    rw [hnone, List.length_nil]
    omega
  · rw [List.length_cons] at hparts
    omega

/-- A text in the form of an asset is taken apart as it was put together. -/
theorem AssetText.cut (h : AssetText text int frac code) :
    ∃ behind, Cut text int frac behind ∧ trimSpaces behind = code := by
  obtain ⟨m, hparts⟩ := h.parts
  refine ⟨List.replicate m ' ' ++ code, ⟨hparts, ?_, h.whole.not_mem (by decide)⟩, ?_⟩
  · intro hmem
    rcases List.mem_append.mp hmem with hmem | hmem
    · exact h.whole.not_mem (by decide) hmem
    · unfold fractionText at hmem
      split at hmem
      · exact List.not_mem_nil hmem
      · next hne =>
        rcases List.mem_cons.mp hmem with hdot | hmem
        · exact absurd hdot (by decide)
        · exact (h.fraction.resolve_left hne).not_mem (by decide) hmem
  · exact trimSpaces_replicate m fun x hx => (upper_spec (h.letters.2 x hx)).2.2.2.2.1

/-- Numerals are read as what they denote, if they fit. -/
theorem ReadAs.amount_eq (h : ReadAs int frac code a) (hint : IsNumeral int)
    (hfrac : frac = [] ∨ IsNumeral frac) : digitsValue frac < 2 ^ 64 ∧
      a.amount = digitsValue int * scaleOf a.symbol.precision + i64 (digitsValue frac) := by
  obtain ⟨whole, fraction, hwhole, hfraction, -, -, hamount⟩ := h.numbers
  have hminus : int.head? ≠ some '-' := by
    intro hhead
    exact hint.not_mem (by decide) (List.mem_of_head? hhead)
  have hwhole' : whole = digitsValue int := by
    rw [strtoll_numeral hint] at hwhole
    split at hwhole
    · cases congrArg Prod.snd hwhole
    · exact (congrArg Prod.fst hwhole).symm
  have hfraction' : digitsValue frac < 2 ^ 64 ∧ fraction = digitsValue frac := by
    rcases hfrac with rfl | hfrac
    · exact ⟨by decide, (congrArg Prod.fst hfraction).symm⟩
    · rw [strtoull_numeral hfrac] at hfraction
      split at hfraction
      · next hlt => exact ⟨hlt, (congrArg Prod.fst hfraction).symm⟩
      · cases congrArg Prod.snd hfraction
  rw [signedFraction, if_neg hminus, hwhole', hfraction'.2] at hamount
  exact ⟨hfraction'.1, hamount⟩

theorem ReadAs.precision_eq (h : ReadAs int frac code a) :
    a.symbol.precision = frac.length % 256 := by
  have hmake := make_spec (codeOfText_lt h.code) (Nat.mod_lt frac.length (by omega : 0 < 256))
  rw [← h.symbol] at hmake
  exact hmake.1

/-- An asset in a word has 18 decimals at most, or nothing in front of the dot. -/
theorem Denotes.short (h : Denotes text a) : ∃ int frac code, AssetText text int frac code ∧
    (frac.length ≤ 18 ∨ digitsValue int = 0) := by
  obtain ⟨int, frac, code, htext, -, -, hamount⟩ := h
  refine ⟨int, frac, code, htext, ?_⟩
  by_contra hmany
  obtain ⟨hlong, hwhole⟩ := not_or.mp hmany
  -- the number has 20 digits or more
  have hpow : (10 : ℤ) ^ 19 ≤ 10 ^ frac.length := pow_le_pow_right₀ (by omega) (by omega)
  have hone : (1 : ℤ) ≤ digitsValue int := by omega
  have hscaled : (10 : ℤ) ^ frac.length ≤ digitsValue int * 10 ^ frac.length :=
    le_mul_of_one_le_left (by positivity) hone
  have hbound := a.bounds.2
  omega

/-- A positive amount that is read from such a text is what the text says. -/
theorem ReadAs.denotes {int' frac' code' : List Char} (hread : ReadAs int frac code a)
    (hcut : Cut text int frac code) (hlen : frac.length < 256) (hpos : 0 < a.amount)
    (htext : AssetText text int' frac' code') (hshort : frac'.length ≤ 18 ∨ digitsValue int' = 0) :
    Denotes text a := by
  obtain ⟨behind, hcut', hcode⟩ := htext.cut
  obtain ⟨rfl, rfl, rfl⟩ := hcut.unique hcut'
  obtain ⟨hfits, hamount⟩ := hread.amount_eq htext.whole htext.fraction
  have hprecision := hread.precision_eq
  rw [Nat.mod_eq_of_lt hlen] at hprecision
  refine ⟨int, frac, code', htext, ?_, hprecision, ?_⟩
  · rw [← hcode]
    exact hread.code
  rw [hprecision] at hamount
  unfold scaleOf at hamount
  by_cases hle : frac.length ≤ 18
  · have hsmall : digitsValue frac < 10 ^ 18 := by
      have hdigits : ∀ c ∈ frac, isDigit c = true := by
        rcases htext.fraction with hnone | hnumeral
        · intro c hc
          rw [hnone] at hc
          cases hc
        · exact hnumeral.2
      calc digitsValue frac < 10 ^ frac.length := digitsValue_lt hdigits
        _ ≤ 10 ^ 18 := Nat.pow_le_pow_right (by omega) hle
    rw [if_pos hle, i64_eq (by omega) (by omega)] at hamount
    exact hamount
  · have hzero := hshort.resolve_left hle
    rw [if_neg hle, hzero] at hamount
    rw [hamount, hzero]
    -- a fraction from 2^63 on would be read below zero
    rw [hamount] at hpos
    unfold i64 at hpos ⊢
    omega

end Numerals

end ToolkitContracts
