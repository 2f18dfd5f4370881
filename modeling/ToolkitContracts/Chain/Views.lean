import Mathlib.Data.List.DropRight
import ToolkitContracts.Chain.Text
import ToolkitContracts.Lib.Radix

/-!
# Views into a text

What the string helpers compute, said about the characters: `trim` takes the spaces off both ends,
`split` cuts at the delimiter. Both leave views into the buffer that they were given, and a number
parser that is handed such a view does not see its end. It stops all the same: behind a field
come the spaces that were trimmed off, and then a delimiter or the end of the buffer.
-/

namespace ToolkitContracts

open Radix

/-- A text without the spaces at its ends. -/
def trimSpaces (s : List Char) : List Char := (s.dropWhile (· == ' ')).rdropWhile (· == ' ')

theorem length_trimSpaces_le (s : List Char) : (trimSpaces s).length ≤ s.length := by
  calc (trimSpaces s).length ≤ (s.dropWhile (· == ' ')).length :=
        (List.rdropWhile_prefix _ _).length_le
    _ ≤ s.length := (List.dropWhile_suffix _).length_le

/-- Decimal digits, and at least one. -/
def IsNumeral (s : List Char) : Prop := s ≠ [] ∧ ∀ c ∈ s, isDigit c = true

instance (s : List Char) : Decidable (IsNumeral s) :=
  @instDecidableAnd _ _ inferInstance (List.decidableBAll _ s)

/-! ## Lists of characters -/

section Lists
variable {α : Type*} {p : α → Bool} {l rest : List α}

/-- An element before which none is found is the first behind the others. -/
theorem take_findIdx? {i : ℕ} (h : l.findIdx? p = some i) :
    l.take i = l.takeWhile (fun x => !p x) ∧ l.drop i = l.dropWhile (fun x => !p x) := by
  induction l generalizing i with
  | nil => cases h
  | cons x l ih =>
    rw [List.findIdx?_cons] at h
    split at h
    · next hx =>
      rw [Option.some.injEq] at h
      subst h
      simp [hx]
    · next hx =>
      obtain ⟨j, hj, rfl⟩ := Option.map_eq_some_iff.mp h
      obtain ⟨htake, hdrop⟩ := ih hj
      simp [hx, htake, hdrop]

theorem takeWhile_of_findIdx?_none (h : l.findIdx? p = none) :
    l.takeWhile (fun x => !p x) = l ∧ l.dropWhile (fun x => !p x) = [] := by
  have hall := List.findIdx?_eq_none_iff.mp h
  constructor
  · apply List.takeWhile_eq_self_iff.mpr
    intro x hx
    simp [hall x hx]
  · apply List.dropWhile_eq_nil_iff.mpr
    intro x hx
    simp [hall x hx]

/-- What is taken is the same with more behind it, if that does not go on. -/
theorem takeWhile_append_stop (h : ∀ x ∈ rest.head?, p x = false) :
    (l ++ rest).takeWhile p = l.takeWhile p := by
  induction l with
  | nil =>
    cases rest with
    | nil => rfl
    | cons x rest =>
      have hx := h x rfl
      simp [hx]
  | cons x l ih =>
    rw [List.cons_append, List.takeWhile_cons, List.takeWhile_cons, ih]

/-- The first place of an element cuts the list there. -/
theorem splitOn_of_findIdx? [BEq α] [LawfulBEq α] {c : α} {i : ℕ}
    (h : l.findIdx? (· == c) = some i) :
    l.drop i = c :: l.drop (i + 1) ∧ l.splitOn c = l.take i :: (l.drop (i + 1)).splitOn c := by
  obtain ⟨hlt, hbeq, -⟩ := List.findIdx?_eq_some_iff_getElem.mp h
  have hcut : l.drop i = c :: l.drop (i + 1) := by
    rw [List.drop_eq_getElem_cons hlt, eq_of_beq hbeq]
  have hnot : c ∉ l.take i := by
    rw [(take_findIdx? h).1]
    intro hmem
    have hne := List.mem_takeWhile_imp hmem
    rw [beq_self_eq_true] at hne
    cases hne
  refine ⟨hcut, ?_⟩
  calc l.splitOn c = (l.take i ++ c :: l.drop (i + 1)).splitOn c := by
        rw [← hcut, List.take_append_drop]
    _ = l.take i :: (l.drop (i + 1)).splitOn c := List.splitOn_append_cons_self_of_not_mem hnot _

theorem splitOn_of_findIdx?_none [BEq α] [LawfulBEq α] {c : α} (h : l.findIdx? (· == c) = none) :
    l.splitOn c = [l] := by
  apply List.splitOn_eq_singleton
  intro hmem
  have hne := List.findIdx?_eq_none_iff.mp h c hmem
  rw [beq_self_eq_true] at hne
  cases hne

/-- A field is no longer than what it was cut out of. -/
theorem length_le_of_mem_splitOn [BEq α] [LawfulBEq α] {c : α} {field : List α}
    (h : field ∈ l.splitOn c) : field.length ≤ l.length := by
  induction hn : l.length using Nat.strong_induction_on generalizing l with
  | _ n ih =>
    subst hn
    cases hfind : l.findIdx? (· == c) with
    | none =>
      rw [splitOn_of_findIdx?_none hfind, List.mem_singleton] at h
      rw [h]
    | some i =>
      have hlt := (List.findIdx?_eq_some_iff_findIdx_eq.mp hfind).1
      rw [(splitOn_of_findIdx? hfind).2, List.mem_cons] at h
      rcases h with rfl | h
      · exact List.length_take_le' _ _
      · have hdrop : (l.drop (i + 1)).length < l.length := by
          rw [List.length_drop]
          omega
        exact (ih _ hdrop h rfl).trans hdrop.le

theorem drop_length_takeWhile (p : α → Bool) (l : List α) :
    l.drop (l.takeWhile p).length = l.dropWhile p := by
  calc l.drop (l.takeWhile p).length
      = (l.takeWhile p ++ l.dropWhile p).drop (l.takeWhile p).length := by
        rw [List.takeWhile_append_dropWhile]
    _ = l.dropWhile p := List.drop_left

theorem take_length_rdropWhile (p : α → Bool) (l : List α) :
    l.take (l.rdropWhile p).length = l.rdropWhile p ∧
      l.drop (l.rdropWhile p).length = l.rtakeWhile p := by
  have hsplit : l.rdropWhile p ++ l.rtakeWhile p = l := List.rdropWhile_append_rtakeWhile
  constructor
  · calc l.take (l.rdropWhile p).length
        = (l.rdropWhile p ++ l.rtakeWhile p).take (l.rdropWhile p).length := by rw [hsplit]
      _ = l.rdropWhile p := List.take_left
  · calc l.drop (l.rdropWhile p).length
        = (l.rdropWhile p ++ l.rtakeWhile p).drop (l.rdropWhile p).length := by rw [hsplit]
      _ = l.rtakeWhile p := List.drop_left

end Lists

/-! ## Scanning a number -/

/-- What may come behind a number that a parser reads: spaces, and a character that neither
belongs to a number nor is skipped before one. -/
def EndsNumber (rest : List Char) : Prop :=
  ∃ m tail, rest = List.replicate m ' ' ++ tail ∧
    ∀ c ∈ tail.head?, isDigit c = false ∧ isSpace c = false ∧ c ≠ '-' ∧ c ≠ '+'

/-- A sign and what comes behind it. -/
def splitSign (s : List Char) : Bool × List Char :=
  match s with
  | '-' :: rest => (true, rest)
  | '+' :: rest => (false, rest)
  | _ => (false, s)

/-- The part of `scanNumber` behind the white space. -/
def scanSigned (s : List Char) : Option (Bool × ℕ) :=
  let ds := (splitSign s).2.takeWhile isDigit
  if ds.isEmpty then none else some ((splitSign s).1, digitsValue ds)

theorem scanNumber_eq (s : List Char) : scanNumber s = scanSigned (s.dropWhile isSpace) := rfl

theorem splitSign_unsigned {c : Char} {s : List Char} (hminus : c ≠ '-') (hplus : c ≠ '+') :
    splitSign (c :: s) = (false, c :: s) := by
  unfold splitSign
  split
  · next heq => exact absurd (List.cons.inj heq).1 hminus
  · next heq => exact absurd (List.cons.inj heq).1 hplus
  · rfl

/-- A sign is found in a text whatever is behind it. -/
theorem splitSign_append {s rest : List Char} (hs : s ≠ []) :
    splitSign (s ++ rest) = ((splitSign s).1, (splitSign s).2 ++ rest) := by
  cases s with
  | nil => exact absurd rfl hs
  | cons c s =>
    by_cases hminus : c = '-'
    · subst hminus
      rfl
    by_cases hplus : c = '+'
    · subst hplus
      rfl
    rw [List.cons_append, splitSign_unsigned hminus hplus, splitSign_unsigned hminus hplus]
    rfl

section Scan
variable {s rest : List Char}

theorem EndsNumber.head (h : EndsNumber rest) : ∀ c ∈ rest.head?, isDigit c = false := by
  obtain ⟨m, tail, rfl, htail⟩ := h
  cases m with
  | zero =>
    intro c hc
    exact (htail c hc).1
  | succ m =>
    intro c hc
    obtain rfl : ' ' = c := Option.some.inj hc
    rfl

/-- A sign and digits are read up to what ends a number. -/
theorem scanSigned_append (hs : s ≠ []) (h : ∀ c ∈ rest.head?, isDigit c = false) :
    scanSigned (s ++ rest) = scanSigned s := by
  unfold scanSigned
  rw [splitSign_append hs]
  dsimp only
  rw [takeWhile_append_stop h]

/-- A parser that reads on past the end of a text reads what is in it. -/
theorem scanNumber_append (h : EndsNumber rest) : scanNumber (s ++ rest) = scanNumber s := by
  rw [scanNumber_eq, scanNumber_eq, List.dropWhile_append]
  split
  · next hempty =>
    have hnil := List.isEmpty_iff.mp hempty
    rw [hnil]
    -- only white space: the parser comes to what ends a number
    obtain ⟨m, tail, rfl, htail⟩ := h
    have hspaces : ∀ c ∈ List.replicate m ' ', isSpace c = true := by
      intro c hc
      rw [List.eq_of_mem_replicate hc]
      rfl
    rw [List.dropWhile_append_of_pos hspaces]
    cases tail with
    | nil => rfl
    | cons c tail =>
      obtain ⟨hdigit, hspace, hminus, hplus⟩ := htail c rfl
      rw [List.dropWhile_cons_of_neg (by rw [hspace]; exact Bool.false_ne_true)]
      unfold scanSigned
      rw [splitSign_unsigned hminus hplus]
      simp [hdigit, splitSign]
  · next hne =>
    exact scanSigned_append (fun hnil => hne (List.isEmpty_iff.mpr hnil)) h.head

theorem isDigit_ne {c : Char} (h : isDigit c = true) : c ≠ '-' ∧ c ≠ '+' ∧ isSpace c = false := by
  simp only [isDigit, Bool.and_eq_true, decide_eq_true_eq] at h
  obtain ⟨hlo, hhi⟩ := h
  have hlo' : 48 ≤ c.toNat := hlo
  refine ⟨?_, ?_, ?_⟩
  · rintro rfl
    revert hlo'
    decide
  · rintro rfl
    revert hlo'
    decide
  · have hne : c ≠ ' ' := by
      rintro rfl
      revert hlo'
      decide
    simp only [isSpace, hne, decide_false, Bool.false_or, Bool.and_eq_false_iff,
      decide_eq_false_iff_not]
    right
    omega

/-- A numeral is read as the number it denotes. -/
theorem scanNumber_numeral (h : IsNumeral s) : scanNumber s = some (false, digitsValue s) := by
  obtain ⟨hne, hdigits⟩ := h
  cases s with
  | nil => exact absurd rfl hne
  | cons c s =>
    obtain ⟨hminus, hplus, hspace⟩ := isDigit_ne (hdigits c List.mem_cons_self)
    have hall : (c :: s).takeWhile isDigit = c :: s := List.takeWhile_eq_self_iff.mpr hdigits
    rw [scanNumber_eq, List.dropWhile_cons_of_neg (by rw [hspace]; exact Bool.false_ne_true)]
    unfold scanSigned
    rw [splitSign_unsigned hminus hplus]
    dsimp only
    rw [hall]
    rfl

theorem strtoull_append (h : EndsNumber rest) : strtoull (s ++ rest) = strtoull s := by
  rw [strtoull, scanNumber_append h]
  rfl

/-- `strtoull` on a numeral. -/
theorem strtoull_numeral (h : IsNumeral s) : strtoull s
    = if digitsValue s < 2 ^ 64 then (digitsValue s, false) else (2 ^ 64 - 1, true) := by
  rw [strtoull, scanNumber_numeral h]
  dsimp only
  split
  · next hlt =>
    have hword : u64 (signedValue false (digitsValue s)) = digitsValue s := by
      simp only [signedValue, Bool.false_eq_true, if_false]
      unfold u64
      omega
    rw [hword]
  · rfl

theorem strtoll_append (h : EndsNumber rest) : strtoll (s ++ rest) = strtoll s := by
  rw [strtoll, scanNumber_append h]
  rfl

/-- `strtoll` on a numeral. -/
theorem strtoll_numeral (h : IsNumeral s) : strtoll s
    = if (2 ^ 63 : ℤ) ≤ digitsValue s then (2 ^ 63 - 1, true) else ((digitsValue s : ℤ), false) := by
  rw [strtoll, scanNumber_numeral h]
  have hsigned : signedValue false (digitsValue s) = digitsValue s := rfl
  dsimp only
  rw [hsigned, if_neg (by omega)]

theorem toUint64_eq_ok {v : StringView} {title : String} {x : ℕ} :
    toUint64 v title = .ok x ↔ strtoull v.data = (x, false) := by
  simp only [toUint64, bind_eq_ok, check_eq_ok, exists_const, pure_eq_ok]
  constructor
  · rintro ⟨hrange, rfl⟩
    exact Prod.ext rfl hrange
  · intro h
    rw [h]
    exact ⟨rfl, rfl⟩

theorem toInt64_eq_ok {v : StringView} {title : String} {x : ℤ} :
    toInt64 v title = .ok x ↔ strtoll v.data = (x, false) := by
  simp only [toInt64, bind_eq_ok, check_eq_ok, exists_const, pure_eq_ok]
  constructor
  · rintro ⟨hrange, rfl⟩
    exact Prod.ext rfl hrange
  · intro h
    rw [h]
    exact ⟨rfl, rfl⟩

theorem stoi_eq_ok {k : ℤ} : stoi s = .ok k ↔ ∃ r, scanNumber s = some r ∧
    (-2 ^ 31 ≤ signedValue r.1 r.2 ∧ signedValue r.1 r.2 < 2 ^ 31) ∧ signedValue r.1 r.2 = k := by
  simp only [stoi, bind_eq_ok, require_eq_ok, check_eq_ok, exists_const, pure_eq_ok]

/-- `stoi` on a numeral. -/
theorem stoi_numeral {k : ℤ} (h : IsNumeral s) (hk : stoi s = .ok k) : u64 k = digitsValue s := by
  obtain ⟨r, hr, hrange, rfl⟩ := stoi_eq_ok.mp hk
  rw [scanNumber_numeral h, Option.some.injEq] at hr
  subst hr
  have hlt : (digitsValue s : ℤ) < 2 ^ 31 := hrange.2
  have hword : (2 : ℤ) ^ 31 ≤ 2 ^ 64 := by norm_num
  exact Int.natCast_inj.mp (u64_eq (Int.natCast_nonneg _) (hlt.trans_le hword))

/-- A numeral denotes less than the power of ten with its length. -/
theorem digitsValue_lt (h : ∀ c ∈ s, isDigit c = true) : digitsValue s < 10 ^ s.length := by
  have hhorner : digitsValue s = horner 10 0 (s.map fun c => c.toNat - '0'.toNat) := by
    rw [digitsValue, horner, List.foldl_map]
  have hdigits : ∀ d ∈ s.map (fun c => c.toNat - '0'.toNat), d < 10 := by
    intro d hd
    obtain ⟨c, hc, rfl⟩ := List.mem_map.mp hd
    have hdigit := h c hc
    simp only [isDigit, Bool.and_eq_true, decide_eq_true_eq] at hdigit
    have hhi : c.toNat ≤ '9'.toNat := hdigit.2
    have hzero : '0'.toNat = 48 := rfl
    have hnine : '9'.toNat = 57 := rfl
    omega
  have hlt := horner_lt hdigits (by omega : 0 < 10 ^ 0)
  rw [hhorner]
  rwa [Nat.zero_add, List.length_map] at hlt

end Scan

/-! ## Splitting a string -/

/-- The loop of `split` on strings cuts the rest of the text. -/
theorem splitTextFrom_eq {c : Char} {s : List Char} {fuel posStart : ℕ}
    (hfuel : s.length - posStart < fuel) :
    splitTextFrom c s fuel posStart = (s.drop posStart).splitOn c := by
  induction fuel generalizing posStart with
  | zero => omega
  | succ fuel ih =>
    rw [splitTextFrom]
    cases hfind : (s.drop posStart).findIdx? (· == c) with
    | none => exact (splitOn_of_findIdx?_none hfind).symm
    | some i =>
      obtain ⟨hlt, -⟩ := List.findIdx?_eq_some_iff_findIdx_eq.mp hfind
      obtain ⟨-, hsplit⟩ := splitOn_of_findIdx? hfind
      rw [List.length_drop] at hlt
      rw [hsplit, List.drop_drop]
      dsimp only
      rw [ih (by omega), Nat.add_assoc]

theorem splitText_eq (s : List Char) (c : Char) : splitText s c = s.splitOn c := by
  rw [splitText, splitTextFrom_eq (by omega), List.drop_zero]

/-! ## Views -/

namespace StringView

/-- What the buffer holds behind a view. -/
def rest (v : StringView) : List Char := v.data.drop v.size

variable {v : StringView} {n : ℕ} {c : Char}

theorem data_eq (v : StringView) : v.data = v.chars ++ v.rest := (List.take_append_drop _ _).symm

theorem length_chars (v : StringView) : v.chars.length = v.size := by
  rw [chars, List.length_take]
  exact min_eq_left v.le

@[simp] theorem chars_ofText (s : List Char) : (ofText s).chars = s := List.take_length

theorem chars_removePrefix (h : n ≤ v.size) :
    (v.removePrefix n).chars = v.chars.drop n ∧ (v.removePrefix n).rest = v.rest := by
  constructor
  · rw [chars, chars, List.drop_take]
    rfl
  · show (v.data.drop n).drop (v.size - n) = v.data.drop v.size
    rw [List.drop_drop]
    congr 1
    omega

theorem chars_removeSuffix (v : StringView) (n : ℕ) :
    (v.removeSuffix n).chars = v.chars.take (v.size - n) ∧
      (v.removeSuffix n).rest = v.chars.drop (v.size - n) ++ v.rest := by
  have hle : v.size - n ≤ v.size := Nat.sub_le _ _
  constructor
  · rw [chars, chars, List.take_take, min_eq_left hle]
    rfl
  · show v.data.drop (v.size - n) = _
    conv_lhs => rw [v.data_eq]
    rw [List.drop_append_of_le_length]
    rw [length_chars]
    exact hle

/-- The spaces that `trim` takes off a view in front of it. -/
theorem leading_eq (hsize : v.size ≤ npos) :
    min ((v.findFirstNotOf ' ').getD npos) v.size = (v.chars.takeWhile (· == ' ')).length := by
  unfold findFirstNotOf
  have hlen := v.length_chars
  have hneg : (fun x : Char => !(x != ' ')) = (· == ' ') := by
    funext x
    rw [bne, Bool.not_not]
  cases hfind : v.chars.findIdx? (· != ' ') with
  | none =>
    obtain ⟨hall, -⟩ := takeWhile_of_findIdx?_none hfind
    rw [hneg] at hall
    rw [hall, Option.getD_none]
    omega
  | some i =>
    obtain ⟨htake, -⟩ := take_findIdx? hfind
    rw [hneg] at htake
    have hlt := (List.findIdx?_eq_some_iff_findIdx_eq.mp hfind).1
    rw [← htake, List.length_take, Option.getD_some]
    omega

/-- The spaces that `trim` takes off a view behind it. -/
theorem trailing_eq (hsize : v.size ≤ npos) :
    min (u32 (v.size - (v.findLastNotOf ' ').getD npos - 1)) v.size
      = (v.chars.rtakeWhile (· == ' ')).length := by
  unfold findLastNotOf npos at *
  have hlen := v.length_chars
  have hneg : (fun x : Char => !(x != ' ')) = (· == ' ') := by
    funext x
    rw [bne, Bool.not_not]
  rw [List.rtakeWhile, List.length_reverse]
  cases hfind : v.chars.reverse.findIdx? (· != ' ') with
  | none =>
    obtain ⟨hall, -⟩ := takeWhile_of_findIdx?_none hfind
    rw [hneg] at hall
    rw [hall, List.length_reverse, hlen]
    simp only [Option.map_none, Option.getD_none]
    unfold u32
    omega
  | some i =>
    obtain ⟨htake, -⟩ := take_findIdx? hfind
    rw [hneg] at htake
    have hlt := (List.findIdx?_eq_some_iff_findIdx_eq.mp hfind).1
    rw [List.length_reverse] at hlt
    rw [← htake, List.length_take, List.length_reverse]
    simp only [Option.map_some, Option.getD_some]
    unfold u32
    omega

/-- `trim` takes the spaces off, and leaves those behind the text in the buffer. -/
theorem trim_spec (hsize : v.size ≤ npos) :
    v.trim.chars = trimSpaces v.chars ∧ ∃ m, v.trim.rest = List.replicate m ' ' ++ v.rest := by
  have hleading := leading_eq hsize
  have hle : (v.chars.takeWhile (· == ' ')).length ≤ v.size := by
    rw [← v.length_chars]
    exact (List.takeWhile_prefix _).length_le
  obtain ⟨hchars, hrest⟩ := chars_removePrefix hle
  unfold trim
  dsimp only
  rw [hleading]
  generalize hv' : v.removePrefix (v.chars.takeWhile (· == ' ')).length = v' at *
  have hsize' : v'.size ≤ npos := by
    rw [← hv']
    exact (Nat.sub_le _ _).trans hsize
  have hdrop : v'.chars = v.chars.dropWhile (· == ' ') := by
    rw [hchars, drop_length_takeWhile]
  rw [trailing_eq hsize']
  obtain ⟨htake, hsuffix⟩ := v'.chars_removeSuffix (v'.chars.rtakeWhile (· == ' ')).length
  have hlen : v'.size - (v'.chars.rtakeWhile (· == ' ')).length
      = (v'.chars.rdropWhile (· == ' ')).length := by
    have hsplit : v'.chars.rdropWhile (· == ' ') ++ v'.chars.rtakeWhile (· == ' ') = v'.chars :=
      List.rdropWhile_append_rtakeWhile
    have hcount := congrArg List.length hsplit
    rw [List.length_append, v'.length_chars] at hcount
    omega
  obtain ⟨hkept, htrimmed⟩ := take_length_rdropWhile (· == ' ') v'.chars
  rw [hlen] at htake hsuffix
  constructor
  · rw [htake, hkept, hdrop]
    rfl
  · refine ⟨(v'.chars.rtakeWhile (· == ' ')).length, ?_⟩
    rw [hsuffix, hrest, htrimmed]
    congr 1
    apply List.eq_replicate_of_mem
    intro x hx
    have hspace : (x == ' ') = true := List.mem_rtakeWhile_imp (p := (· == ' ')) hx
    exact eq_of_beq hspace

theorem substr_spec {pos : ℕ} (hpos : pos ≤ v.size) (n : ℕ) :
    (v.substr pos n).chars = (v.chars.drop pos).take n ∧
      (v.substr pos n).rest = (v.chars.drop pos).drop n ++ v.rest := by
  constructor
  · show (v.data.drop pos).take (min n (v.size - pos)) = _
    rw [chars, List.drop_take, List.take_take]
  · show (v.data.drop pos).drop (min n (v.size - pos)) = _
    have hlen : (v.chars.drop pos).length = v.size - pos := by
      rw [List.length_drop, v.length_chars]
    conv_lhs => rw [v.data_eq]
    rw [List.drop_append_of_le_length (by rw [v.length_chars]; exact hpos), List.drop_append]
    by_cases hn : n ≤ v.size - pos
    · have hzero : n - (v.chars.drop pos).length = 0 := by omega
      rw [min_eq_left hn, hzero, List.drop_zero]
    · have hall : (v.chars.drop pos).drop n = [] := by
        apply List.drop_eq_nil_of_le
        omega
      rw [min_eq_right (by omega), ← hlen, List.drop_length, hall, Nat.sub_self, List.drop_zero]

/-! ## Splitting -/

/-- Behind a view come spaces, and then `c` or the end of the buffer. -/
def EndsAt (v : StringView) (c : Char) : Prop :=
  ∃ m tail, v.rest = List.replicate m ' ' ++ tail ∧ ∀ x ∈ tail.head?, x = c

theorem EndsAt.trim (hsize : v.size ≤ npos) (h : ∀ x ∈ v.rest.head?, x = c) : v.trim.EndsAt c := by
  obtain ⟨-, m, hrest⟩ := trim_spec hsize
  exact ⟨m, v.rest, hrest, h⟩

/-- The loop of `split` cuts the rest of the text. -/
theorem splitFrom_spec {s : List Char} (hsize : s.length ≤ npos) {fuel previous : ℕ}
    (hprevious : previous ≤ s.length) (hfuel : s.length - previous < fuel) :
    (splitFrom c (ofText s) fuel previous).map chars
        = ((s.drop previous).splitOn c).map trimSpaces ∧
      ∀ v ∈ splitFrom c (ofText s) fuel previous, v.EndsAt c := by
  induction fuel generalizing previous with
  | zero => omega
  | succ fuel ih =>
    have hsub : ∀ n, (ofText s).size = s.length ∧ ((ofText s).substr previous n).size ≤ npos :=
      fun n => ⟨rfl, (min_le_right _ _).trans ((Nat.sub_le _ _).trans hsize)⟩
    rw [splitFrom]
    cases hfind : (ofText s).findFirstOf c previous with
    | none =>
      -- the last field
      rw [findFirstOf, chars_ofText, Option.map_eq_none_iff] at hfind
      obtain ⟨hchars, hrest⟩ :=
        @substr_spec (ofText s) previous hprevious (npos - previous)
      rw [chars_ofText] at hchars hrest
      have hlen : (s.drop previous).length ≤ npos - previous := by
        rw [List.length_drop]
        omega
      rw [List.take_of_length_le hlen] at hchars
      rw [List.drop_eq_nil_of_le hlen] at hrest
      have hempty : ((ofText s).substr previous (npos - previous)).rest = [] := by
        rw [hrest, rest]
        exact List.drop_length
      constructor
      · show [_] = _
        rw [(trim_spec (hsub _).2).1, hchars, splitOn_of_findIdx?_none hfind]
        rfl
      · intro v hv
        rw [List.mem_singleton.mp hv]
        apply EndsAt.trim (hsub _).2
        rw [hempty]
        intro x hx
        cases hx
    | some current =>
      -- a field with the delimiter behind it, and the fields that follow
      rw [findFirstOf, chars_ofText] at hfind
      obtain ⟨i, hi, rfl⟩ := Option.map_eq_some_iff.mp hfind
      obtain ⟨hlt, -⟩ := List.findIdx?_eq_some_iff_findIdx_eq.mp hi
      obtain ⟨hcut, hsplit⟩ := splitOn_of_findIdx? hi
      rw [List.drop_drop] at hsplit
      rw [List.length_drop] at hlt
      obtain ⟨hchars, hrest⟩ := @substr_spec (ofText s) previous hprevious i
      rw [chars_ofText] at hchars hrest
      have hlast : (ofText s).rest = [] := List.drop_length
      rw [hlast, List.append_nil, hcut] at hrest
      obtain ⟨hfields, hends⟩ := @ih (previous + i + 1) (by omega) (by omega)
      have hwidth : previous + i - previous = i := by omega
      dsimp only
      rw [hwidth]
      constructor
      · rw [List.map_cons, (trim_spec (hsub _).2).1, hchars, hfields, hsplit]
        rfl
      · intro v hv
        rcases List.mem_cons.mp hv with rfl | hv
        · apply EndsAt.trim (hsub _).2
          rw [hrest]
          intro x hx
          exact (Option.some.inj hx).symm
        · exact hends v hv

/-- `split` yields the fields of the text without the spaces around them. -/
theorem split_spec {s : List Char} (hsize : s.length ≤ npos) (c : Char) :
    ((ofText s).split c).map chars = (s.splitOn c).map trimSpaces ∧
      ∀ v ∈ (ofText s).split c, v.EndsAt c := by
  have hspec := @splitFrom_spec c s hsize (s.length + 1) 0 (Nat.zero_le _) (by omega)
  rw [List.drop_zero] at hspec
  exact hspec

/-- The parsers read a field as if the text ended behind it. -/
theorem EndsAt.strtoull (h : v.EndsAt c)
    (hc : isDigit c = false ∧ isSpace c = false ∧ c ≠ '-' ∧ c ≠ '+') :
    ToolkitContracts.strtoull v.data = ToolkitContracts.strtoull v.chars := by
  obtain ⟨m, tail, hrest, htail⟩ := h
  rw [v.data_eq]
  apply strtoull_append
  refine ⟨m, tail, hrest, ?_⟩
  intro x hx
  rw [htail x hx]
  exact hc

end StringView

end ToolkitContracts
