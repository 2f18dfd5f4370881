import ToolkitContracts.Chain.Views

/-!
# The two splitters of memos

The contracts have two functions `split`. That on strings searches for the delimiter and copies what
is before it; that on views searches for the delimiter's characters and trims what it cuts out.
Both end, and cut at every occurrence of the delimiter and nowhere else, so nothing is lost: the
parts joined are the text again. The views are the same parts without the spaces at their ends.
-/

namespace ToolkitContracts

/-- `t` is the text `p` without the spaces at its ends. -/
def IsTrimmed (p t : List Char) : Prop :=
  (∃ i j, p = List.replicate i ' ' ++ t ++ List.replicate j ' ') ∧
    t.head? ≠ some ' ' ∧ t.getLast? ≠ some ' '

/-! ## Parts of a text -/

section Parts
variable {α : Type*} [BEq α] [LawfulBEq α] {c : α} {l part : List α}

theorem not_mem_of_mem_splitOn (h : part ∈ l.splitOn c) : c ∉ part := by
  induction hn : l.length using Nat.strong_induction_on generalizing l with
  | _ n ih =>
    subst hn
    cases hfind : l.findIdx? (· == c) with
    | none =>
      rw [splitOn_of_findIdx?_none hfind, List.mem_singleton] at h
      rw [h]
      intro hmem
      have hne := List.findIdx?_eq_none_iff.mp hfind c hmem
      rw [beq_self_eq_true] at hne
      cases hne
    | some i =>
      have hlt := (List.findIdx?_eq_some_iff_findIdx_eq.mp hfind).1
      rw [(splitOn_of_findIdx? hfind).2, List.mem_cons] at h
      rcases h with rfl | h
      · rw [(take_findIdx? hfind).1]
        intro hmem
        have hne := List.mem_takeWhile_imp hmem
        rw [beq_self_eq_true] at hne
        cases hne
      · have hdrop : (l.drop (i + 1)).length < l.length := by
          rw [List.length_drop]
          omega
        exact ih _ hdrop h rfl

omit [LawfulBEq α] in
/-- There is one part more than there are delimiters. -/
theorem length_splitOn (c : α) (l : List α) : (l.splitOn c).length = l.count c + 1 := by
  induction l with
  | nil => rfl
  | cons x l ih =>
    rw [List.splitOn_cons_eq_if_modifyHead, List.count_cons]
    split
    · rw [List.length_cons, ih]
    · rw [List.length_modifyHead, ih, Nat.add_zero]

end Parts

/-- What `trim` leaves starts and ends with no space, and only spaces are taken off. -/
theorem isTrimmed_trimSpaces (p : List Char) : IsTrimmed p (trimSpaces p) := by
  have hspaces : ∀ l : List Char, (∀ x ∈ l, (x == ' ') = true) → l = List.replicate l.length ' ' :=
    fun l hl => List.eq_replicate_of_mem fun x hx => eq_of_beq (hl x hx)
  have hfront : p.takeWhile (· == ' ') ++ p.dropWhile (· == ' ') = p :=
    List.takeWhile_append_dropWhile
  have hback : trimSpaces p ++ (p.dropWhile (· == ' ')).rtakeWhile (· == ' ')
      = p.dropWhile (· == ' ') := List.rdropWhile_append_rtakeWhile
  refine ⟨⟨(p.takeWhile (· == ' ')).length,
    ((p.dropWhile (· == ' ')).rtakeWhile (· == ' ')).length, ?_⟩, ?head, ?last⟩
  · rw [← hspaces _ fun x hx => List.mem_takeWhile_imp (p := (· == ' ')) hx,
      ← hspaces _ fun x hx => List.mem_rtakeWhile_imp (p := (· == ' ')) hx, List.append_assoc,
      hback, hfront]
  case head =>
    intro hhead
    -- the first character is the first one behind the spaces in front
    have hnot := List.head?_dropWhile_not (· == ' ') p
    rw [← hback, List.head?_append, hhead] at hnot
    cases hnot
  case last =>
    intro hlast
    have hne : trimSpaces p ≠ [] := by
      intro hnil
      rw [hnil] at hlast
      cases hlast
    rw [List.getLast?_eq_some_getLast hne, Option.some.injEq] at hlast
    have hnot := List.rdropWhile_last_not (· == ' ') (p.dropWhile (· == ' ')) hne
    exact hnot (beq_iff_eq.mpr hlast)

/-! ## The loops -/

/-- More fuel changes nothing: the loop on views has ended. -/
theorem StringView.splitFrom_fuel {c : Char} {s : List Char} {fuel fuel' previous : ℕ}
    (hfuel : s.length - previous < fuel) (hfuel' : s.length - previous < fuel') :
    splitFrom c (ofText s) fuel previous = splitFrom c (ofText s) fuel' previous := by
  induction fuel generalizing fuel' previous with
  | zero => omega
  | succ fuel ih =>
    cases fuel' with
    | zero => omega
    | succ fuel' =>
      rw [splitFrom, splitFrom]
      cases hfind : (ofText s).findFirstOf c previous with
      | none => rfl
      | some current =>
        rw [findFirstOf, chars_ofText] at hfind
        obtain ⟨i, hi, rfl⟩ := Option.map_eq_some_iff.mp hfind
        have hlt := (List.findIdx?_eq_some_iff_findIdx_eq.mp hi).1
        rw [List.length_drop] at hlt
        dsimp only
        rw [@ih fuel' (previous + i + 1) (by omega) (by omega)]

/-- Both splitters end. That on strings yields the parts between the delimiters, which joined are
the text again, and that on views yields these parts without the spaces at their ends. The length
of a text is a `size_t`, so no text is longer than `npos`. -/
theorem splitters_agree (s : List Char) (c : Char) :
    (∀ fuel, s.length < fuel → splitTextFrom c s fuel 0 = splitText s c) ∧
    (∀ part ∈ splitText s c, c ∉ part) ∧
    (splitText s c).length = s.count c + 1 ∧
    [c].intercalate (splitText s c) = s ∧
    (∀ fuel, s.length < fuel → StringView.splitFrom c (.ofText s) fuel 0
      = (StringView.ofText s).split c) ∧
    (s.length ≤ npos → List.Forall₂ IsTrimmed (splitText s c)
      (((StringView.ofText s).split c).map StringView.chars)) := by
  refine ⟨?ends, ?parts, ?count, ?join, ?viewsEnd, ?views⟩
  case ends =>
    intro fuel hfuel
    rw [splitTextFrom_eq (by omega), splitText_eq, List.drop_zero]
  case parts =>
    intro part hpart
    rw [splitText_eq] at hpart
    exact not_mem_of_mem_splitOn hpart
  case count => rw [splitText_eq, length_splitOn]
  case join => rw [splitText_eq, List.intercalate_splitOn]
  case viewsEnd =>
    intro fuel hfuel
    exact StringView.splitFrom_fuel (by omega) (by show s.length - 0 < s.length + 1; omega)
  case views =>
    intro hsize
    rw [(StringView.split_spec hsize c).1, splitText_eq, List.forall₂_map_right_iff,
      List.forall₂_same]
    exact fun part _ => isTrimmed_trimSpaces part

/-- A part of spaces only is cut out as such, and is empty as a view. -/
theorem Sample.splitters_agree_spaces :
    List.Forall₂ IsTrimmed [[' ', 'x'], [' ', ' ']] [['x'], []] :=
  (splitters_agree [' ', 'x', ':', ' ', ' '] ':').2.2.2.2.2 (by decide)

end ToolkitContracts
