import ToolkitContracts.Vest.Owed

/-!
# Issue ids

A new issue gets the id above the largest one in the table. The ids that were ever assigned
are followed along a run by a history variable. While the newest row stays in the table they
are `1, 2, 3, ...`, each assigned once. When `delfinissues` purges the newest row, its id is
forgotten, and every issue that is created afterwards repeats an id.
-/

namespace ToolkitContracts
namespace Vest

/-! ## Assigned ids -/

/-- The ids that were assigned, with the id of the issue that a step created. -/
def recordIds (ids : List ℕ) (w : World State) (_ : Ctx × Input Action) (w' : World State) :
    List ℕ :=
  ids ++ (born w w').toList

/-- The id that the next issue gets. -/
def nextIssueId (issues : Table VestIssue.issueId) : ℕ :=
  match issues.lastKey? with
  | none => 1
  | some k => k + 1

/-- The step does not purge the issue with the largest id. -/
def KeepsNewest (w : World State) : Ctx × Input Action → Prop
  | (_, .act (.delfinissues ids)) => ∀ k ∈ w.state.issues.lastKey?, k ∉ ids
  | _ => True

instance (w : World State) (i : Ctx × Input Action) : Decidable (KeepsNewest w i) := by
  rcases i with ⟨ctx, n | a⟩
  · exact inferInstanceAs (Decidable True)
  · rcases a with _ | _ | _ | _ | _ | _ | _ | _ | _ | _ <;> dsimp only [KeepsNewest] <;>
      infer_instance

/-- The table has a row with the id `k`. -/
def HasId (issues : Table VestIssue.issueId) (k : ℕ) : Prop := ∃ i ∈ issues, i.issueId = k

/-- The assigned ids are `1, 2, 3, ...`, no row has another id, and the row of the last id is
there. -/
structure Numbered (ids : List ℕ) (issues : Table VestIssue.issueId) : Prop where
  sequence : ids = List.range' 1 ids.length
  range : ∀ k, HasId issues k → 1 ≤ k ∧ k ≤ ids.length
  newest : 0 < ids.length → HasId issues ids.length

/-- The assigned ids are `1, 2, 3, ...`, and the row of the last id is gone. -/
structure Behind (ids : List ℕ) (issues : Table VestIssue.issueId) : Prop where
  sequence : ids = List.range' 1 ids.length
  pos : 0 < ids.length
  range : ∀ k, HasId issues k → 1 ≤ k ∧ k < ids.length

/-! ## The id of a new issue -/

section Next
variable {issues : Table VestIssue.issueId} {k : ℕ}

theorem nextIssueId_eq (h : availablePrimaryKey issues = .ok k) :
    (if k = 0 then 1 else k) = nextIssueId issues := by
  simp only [availablePrimaryKey, bind_eq_ok, check_eq_ok, exists_const, pure_eq_ok] at h
  obtain ⟨-, rfl⟩ := h
  rw [nextIssueId]
  cases issues.lastKey? with
  | none => rfl
  | some last => exact if_neg (Nat.succ_ne_zero last)

theorem not_hasId_of_empty (h : issues.lastKey? = none) : ¬ HasId issues k := by
  intro hk
  obtain ⟨i, hi, -⟩ := hk
  simp [Table.mem_def, Table.lastKey?_eq_none.mp h] at hi

/-- The newest row has the largest id. -/
theorem Numbered.lastKey {ids : List ℕ} (h : Numbered ids issues) (hpos : 0 < ids.length) :
    issues.lastKey? = some ids.length := by
  obtain ⟨i, hi, hid⟩ := h.newest hpos
  cases hlast : issues.lastKey? with
  | none => exact absurd ⟨i, hi, hid⟩ (not_hasId_of_empty hlast)
  | some last =>
    have hle := (h.range last (Table.exists_of_lastKey? hlast)).2
    have hmax := Table.le_of_lastKey? hlast hi
    have heq : last = ids.length := by omega
    rw [heq]

/-- When the newest row is there, the next id is new. -/
theorem Numbered.next {ids : List ℕ} (h : Numbered ids issues) :
    nextIssueId issues = ids.length + 1 := by
  rw [nextIssueId]
  by_cases hpos : 0 < ids.length
  · rw [h.lastKey hpos]
  · cases hlast : issues.lastKey? with
    | none =>
      show 1 = ids.length + 1
      omega
    | some last =>
      have hrange := h.range last (Table.exists_of_lastKey? hlast)
      omega

/-- When the newest row is gone, the next id was assigned before. -/
theorem Behind.next {ids : List ℕ} (h : Behind ids issues) : nextIssueId issues ∈ ids := by
  have hpos := h.pos
  rw [h.sequence, List.mem_range'_1, nextIssueId]
  cases hlast : issues.lastKey? with
  | none =>
    show 1 ≤ 1 ∧ 1 < 1 + ids.length
    omega
  | some last =>
    have hrange := h.range last (Table.exists_of_lastKey? hlast)
    show 1 ≤ last + 1 ∧ last + 1 < 1 + ids.length
    omega

end Next

/-! ## What a step does to the ids -/

/-- After the step the table has the ids of before, without those that are gone, and the id
of the new issue, which is the next one. -/
structure IdsAfter (w w' : World State) (gone : List ℕ) : Prop where
  next : ∀ k ∈ born w w', k = nextIssueId w.state.issues
  has : ∀ k, HasId w'.state.issues k ↔ k ∈ born w w' ∨ (HasId w.state.issues k ∧ k ∉ gone)

section Step
variable {self : Name} {ctx : Ctx} {w w' : World State}

theorem next_of_ontransferIssue {n : Notice} {params : List StringView} {s s' : State}
    {outs : List Transfer} {x : VestIssue}
    (h : ontransferIssue ctx n params s = .ok (s', outs)) (hx : x ∈ s'.issues)
    (hnew : s.issues.find? x.issueId = none) : x.issueId = nextIssueId s.issues := by
  simp only [ontransferIssue, bind_eq_ok, check_eq_ok, require_eq_ok, pure_eq_ok, exists_const,
    Prod.mk.injEq, emplace_eq_ok] at h
  obtain ⟨-, receiver, -, planId, -, days, -, plan, -, -, -, -, -, -, -, -, total, -, k, hk, zero,
    -, issues, ⟨-, rfl⟩, rfl, -⟩ := h
  rcases Table.mem_put.mp hx with rfl | ⟨hx, -⟩
  · exact nextIssueId_eq hk
  · exact absurd rfl (Table.find?_eq_none.mp hnew x hx)

theorem next_of_ontransfer {n : Notice} {s s' : State} {outs : List Transfer} {x : VestIssue}
    (h : ontransfer self ctx n s = .ok (s', outs)) (hx : x ∈ s'.issues)
    (hnew : s.issues.find? x.issueId = none) : x.issueId = nextIssueId s.issues := by
  rw [ontransfer] at h
  split at h
  · rw [Except.ok.injEq, Prod.mk.injEq] at h
    rw [← h.1] at hx
    exact absurd rfl (Table.find?_eq_none.mp hnew x hx)
  · simp only [bind_eq_ok, check_eq_ok, exists_const] at h
    obtain ⟨-, -, h⟩ := h
    split at h
    · simp only [ontransferPlan, bind_eq_ok, check_eq_ok, require_eq_ok, pure_eq_ok, exists_const,
        Prod.mk.injEq] at h
      obtain ⟨-, -, -, -, planId, -, plan, -, -, rfl, -⟩ := h
      exact absurd rfl (Table.find?_eq_none.mp hnew x hx)
    · split at h
      · exact next_of_ontransferIssue h hx hnew
      · cases h

theorem next_of_transissue {fromReceiver toReceiver : Name} {issueId : ℕ} {quant : Asset}
    {s s' : State} {outs : List Transfer} {x : VestIssue}
    (h : transissue ctx fromReceiver toReceiver issueId quant s = .ok (s', outs))
    (hx : x ∈ s'.issues) (hnew : s.issues.find? x.issueId = none) :
    x.issueId = nextIssueId s.issues := by
  simp only [transissue, bind_eq_ok, check_eq_ok, require_eq_ok, exists_const, emplace_eq_ok,
    Ctx.requireAuth_eq_ok] at h
  obtain ⟨-, -, -, -, -, issue, hissue, -, -, -, -, -, k, hk, zero, -, issues, ⟨-, rfl⟩, h⟩ := h
  have hold : ∀ {y : VestIssue}, y ∈ s.issues → y.issueId ≠ x.issueId :=
    fun hy => Table.find?_eq_none.mp hnew _ hy
  split at h
  · rw [pure_eq_ok, Prod.mk.injEq] at h
    rw [← h.1] at hx
    rcases Table.mem_put.mp (Table.mem_erase.mp hx).1 with rfl | ⟨hx, -⟩
    · exact nextIssueId_eq hk
    · exact absurd rfl (hold hx)
  · rw [pure_eq_ok, Prod.mk.injEq] at h
    rw [← h.1] at hx
    rcases Table.mem_put.mp hx with rfl | ⟨hx, -⟩
    · exact absurd rfl (hold (y := issue) (Table.find?_eq_some.mp hissue).1)
    · rcases Table.mem_put.mp hx with rfl | ⟨hx, -⟩
      · exact nextIssueId_eq hk
      · exact absurd rfl (hold hx)

/-- Replacing a row creates no issue. -/
theorem not_created_of_put {issues : Table VestIssue.issueId} {i x y : VestIssue}
    (hx : x ∈ issues.put y) (hi : issues.find? y.issueId = some i)
    (hnew : issues.find? x.issueId = none) : False := by
  rcases Table.mem_put.mp hx with rfl | ⟨hx, -⟩
  · rw [hi] at hnew
    cases hnew
  · exact Table.find?_eq_none.mp hnew x hx rfl

/-- A created issue has the next id. -/
theorem next_of_run {inp : Input Action} {s s' : State} {outs : List Transfer} {x : VestIssue}
    (h : (contract self).run ctx inp s = .ok (s', outs)) (hx : x ∈ s'.issues)
    (hnew : s.issues.find? x.issueId = none) : x.issueId = nextIssueId s.issues := by
  have hold : x ∉ s.issues := fun hx => Table.find?_eq_none.mp hnew x hx rfl
  cases inp with
  | notify n => exact next_of_ontransfer h hx hnew
  | act a =>
    have hm := move_of_run h
    cases hm with
    | transissue => exact next_of_transissue h hx hnew
    | init | addplan | setplanowner | enableplan => exact absurd hx hold
    | setreceiver issue receiver hissue => exact (not_created_of_put hx hissue hnew).elim
    | setfirstdays issue days hissue => exact (not_created_of_put hx hissue hnew).elim
    | endissue issuer issue plan total hissue => exact (not_created_of_put hx hissue hnew).elim
    | unlock issuer issue plan total quantity hissue =>
      exact (not_created_of_put hx hissue hnew).elim
    | delfinissues issueIds issues hissues =>
      rw [(delfinissuesFrom_eq hissues).1] at hx
      exact absurd (Table.mem_eraseAll.mp hx).1 hold

/-- The next id of a step is the id of a row that it stored. -/
theorem mem_of_born {k : ℕ} (h : k ∈ born w w') :
    ∃ x ∈ w'.state.issues, x.issueId = k ∧ w.state.issues.find? k = none := by
  obtain ⟨x, hx, rfl⟩ := Option.map_eq_some_iff.mp h
  have hnew := List.find?_some hx
  exact ⟨x, List.mem_of_find?_eq_some hx, rfl, by simpa using hnew⟩

theorem hasId_put {issues : Table VestIssue.issueId} {x : VestIssue} {k : ℕ} :
    HasId (issues.put x) k ↔ k = x.issueId ∨ HasId issues k := by
  constructor
  · intro h
    obtain ⟨i, hi, hid⟩ := h
    rcases Table.mem_put.mp hi with rfl | ⟨hi, -⟩
    · exact Or.inl hid.symm
    · exact Or.inr ⟨i, hi, hid⟩
  · intro h
    by_cases hk : k = x.issueId
    · exact ⟨x, Table.mem_put_self _ _, hk.symm⟩
    · obtain ⟨i, hi, hid⟩ := h.resolve_left hk
      exact ⟨i, Table.mem_put.mpr (Or.inr ⟨hi, fun he => hk (hid.symm.trans he)⟩), hid⟩

/-- Replacing a row leaves the ids. -/
theorem hasId_put_old {issues : Table VestIssue.issueId} {i x : VestIssue} {k : ℕ}
    (hi : issues.find? x.issueId = some i) : HasId (issues.put x) k ↔ HasId issues k := by
  obtain ⟨hmem, hid⟩ := Table.find?_eq_some.mp hi
  rw [hasId_put]
  constructor
  · intro h
    rcases h with rfl | h
    · exact ⟨i, hmem, hid⟩
    · exact h
  · exact Or.inr

theorem hasId_eraseAll {issues : Table VestIssue.issueId} {ids : List ℕ} {k : ℕ} :
    HasId (issues.eraseAll ids) k ↔ HasId issues k ∧ k ∉ ids := by
  constructor
  · intro h
    obtain ⟨i, hi, hid⟩ := h
    obtain ⟨hi, hnot⟩ := Table.mem_eraseAll.mp hi
    exact ⟨⟨i, hi, hid⟩, hid ▸ hnot⟩
  · intro h
    obtain ⟨⟨i, hi, hid⟩, hnot⟩ := h
    exact ⟨i, Table.mem_eraseAll.mpr ⟨hi, hid.symm ▸ hnot⟩, hid⟩

theorem hasId_erase {issues : Table VestIssue.issueId} {j k : ℕ} :
    HasId (issues.erase j) k ↔ HasId issues k ∧ k ≠ j := by
  have heq : issues.erase j = issues.eraseAll [j] := by
    rw [Table.eraseAll_cons, Table.eraseAll_nil]
  rw [heq, hasId_eraseAll, List.mem_singleton]

/-- A step that replaces and erases rows only creates no issue. -/
theorem born_of_kept {gone : List ℕ}
    (hkept : ∀ k, HasId w'.state.issues k ↔ HasId w.state.issues k ∧ k ∉ gone) :
    born w w' = none := by
  rw [Option.eq_none_iff_forall_not_mem]
  intro k hk
  obtain ⟨x, hx, hid, hnew⟩ := mem_of_born hk
  obtain ⟨⟨i, hi, hid'⟩, -⟩ := (hkept k).mp ⟨x, hx, hid⟩
  exact Table.find?_eq_none.mp hnew i hi hid'

theorem idsAfter_of_kept {gone : List ℕ}
    (hkept : ∀ k, HasId w'.state.issues k ↔ HasId w.state.issues k ∧ k ∉ gone) :
    IdsAfter w w' gone := by
  have hnone := born_of_kept hkept
  refine ⟨fun k hk => ?_, fun k => ?_⟩
  · rw [hnone] at hk
    cases hk
  · rw [hkept, hnone]
    simp

/-- A step that stores a new row, with what it keeps of the others. -/
theorem idsAfter_of_new {inp : Input Action} {outs : List Transfer} {n : ℕ} {gone : List ℕ}
    (hrun : (contract self).run ctx inp w.state = .ok (w'.state, outs))
    (hborn : born w w' = some n)
    (hhas : ∀ k, HasId w'.state.issues k ↔ k = n ∨ (HasId w.state.issues k ∧ k ∉ gone)) :
    IdsAfter w w' gone := by
  refine ⟨fun k hk => ?_, fun k => ?_⟩
  · obtain ⟨x, hx, rfl, hnew⟩ := mem_of_born hk
    exact next_of_run hrun hx hnew
  · rw [hhas, hborn, Option.mem_some_iff, @eq_comm _ n]

/-- A purge erases the rows it names. -/
theorem hasId_of_delfinissues {gone : List ℕ} {outs : List Transfer}
    (hrun : (contract self).run ctx (.act (.delfinissues gone)) w.state = .ok (w'.state, outs))
    (k : ℕ) : HasId w'.state.issues k ↔ HasId w.state.issues k ∧ k ∉ gone := by
  have hm := move_of_run hrun
  generalize w'.state = s' at hm
  cases hm with
  | delfinissues _ issues hissues =>
    show HasId issues k ↔ _
    rw [(delfinissuesFrom_eq hissues).1]
    exact hasId_eraseAll

theorem idsAfter_of_run {inp : Input Action} {outs : List Transfer}
    (hrun : (contract self).run ctx inp w.state = .ok (w'.state, outs)) :
    ∃ gone, IdsAfter w w' gone ∧
      (gone = [] ∨ (born w w').isSome = true ∨ inp = .act (.delfinissues gone)) := by
  have hm := move_of_run hrun
  generalize hw : w'.state = s' at hm
  have hissues : w'.state.issues = s'.issues := congrArg State.issues hw
  -- a step that leaves the ids
  have hsame : (∀ k, HasId s'.issues k ↔ HasId w.state.issues k) →
      ∃ gone, IdsAfter w w' gone ∧
        (gone = [] ∨ (born w w').isSome = true ∨ inp = .act (.delfinissues gone)) := by
    intro h
    rw [← hissues] at h
    refine ⟨[], idsAfter_of_kept fun k => ?_, Or.inl rfl⟩
    rw [h]
    simp
  cases hm with
  | ignore | payFee | init | addplan | setplanowner | enableplan => exact hsame fun _ => Iff.rfl
  | setreceiver issue receiver hissue => exact hsame fun _ => hasId_put_old hissue
  | setfirstdays issue days hissue => exact hsame fun _ => hasId_put_old hissue
  | endissue issuer issue plan total hissue => exact hsame fun _ => hasId_put_old hissue
  | unlock issuer issue plan total quantity hissue => exact hsame fun _ => hasId_put_old hissue
  | deposit n plan receiver days issueId total zero hto hplan hstatus hdays hbank hsymbol hpos
      htotal hzero hnew hid =>
    have hborn : born w w' = some issueId := born_of_put hissues hnew
    refine ⟨[], idsAfter_of_new hrun hborn fun k => ?_, Or.inl rfl⟩
    rw [hissues]
    refine hasId_put.trans ?_
    simp
  | transissue issue toReceiver quant zero newId memo hissue hongoing hpos hsymbol hlocked hissued
      hzero hnew hid =>
    have hne : issue.issueId ≠ newId := (hid issue (Table.find?_eq_some.mp hissue).1).ne
    have hborn : born w w' = some newId := born_of_split (congrArg State.issues hw) hissue hnew
    have hoff : (issueSplitOff ctx.now issue newId toReceiver quant zero memo).issueId = newId := rfl
    have hrest : (issueRemainder ctx.now issue quant).issueId = issue.issueId := rfl
    -- an emptied row goes, any other stays under its id
    refine ⟨if issue.locked.amount = quant.amount then [issue.issueId] else [],
      idsAfter_of_new hrun hborn fun k => ?_, Or.inr (Or.inl (by rw [hborn]; rfl))⟩
    rw [hissues]
    show HasId (if issue.locked.amount = quant.amount then _ else _) k ↔ _
    by_cases hall : issue.locked.amount = quant.amount
    · rw [if_pos hall, if_pos hall, hasId_erase, hasId_put, hoff, List.mem_singleton]
      grind
    · have hfind : (w.state.issues.put (issueSplitOff ctx.now issue newId toReceiver quant zero
          memo)).find? (issueRemainder ctx.now issue quant).issueId = some issue := by
        rw [Table.find?_put, hoff, hrest, if_neg hne, hissue]
      rw [if_neg hall, if_neg hall, hasId_put_old hfind, hasId_put, hoff]
      simp
  | delfinissues issueIds issues hissues' =>
    exact ⟨issueIds, idsAfter_of_kept (hasId_of_delfinissues hrun), Or.inr (Or.inr rfl)⟩

end Step

/-! ## Whole runs -/

section Runs
variable {self : Name} {w w' w₁ : World State} {ids ids' ids₁ : List ℕ} {i : Ctx × Input Action}

/-- Extending `1, 2, 3, ...` by the next number. -/
theorem range'_concat_length (h : ids = List.range' 1 ids.length) :
    ids ++ [ids.length + 1] = List.range' 1 (ids ++ [ids.length + 1]).length := by
  rw [List.length_append, List.length_singleton, List.range'_concat, ← h, Nat.one_mul, Nat.add_comm]

/-- A step that creates no issue leaves the assigned ids. -/
theorem recordIds_of_none (hborn : born w w' = none) : recordIds ids w i w' = ids := by
  rw [recordIds, hborn, Option.toList_none, List.append_nil]

theorem recordIds_of_some {k : ℕ} (hborn : born w w' = some k) :
    recordIds ids w i w' = ids ++ [k] := by
  rw [recordIds, hborn]
  rfl

/-- A step that keeps the newest row keeps the numbering. -/
theorem numbered_of_step (h : Numbered ids w.state.issues) (hkeeps : KeepsNewest w i)
    (hs : Transition.recording (contract self).step recordIds (w, ids) i = .ok (w', ids')) :
    Numbered ids' w'.state.issues := by
  obtain ⟨hstep, hrecord⟩ := Transition.recording_eq_ok.mp hs
  obtain ⟨outs, hrun⟩ := (contract self).run_of_step hstep
  obtain ⟨gone, hids, hgone⟩ := idsAfter_of_run hrun
  have hrec : ids' = recordIds ids w i w' := hrecord
  rw [hrec]
  cases hborn : born w w' with
  | none =>
    have hhas : ∀ k, HasId w'.state.issues k ↔ HasId w.state.issues k ∧ k ∉ gone := by
      intro k
      rw [hids.has, hborn]
      simp
    rw [recordIds_of_none hborn]
    refine ⟨h.sequence, fun k hk => h.range k ((hhas k).mp hk).1, fun hpos => ?_⟩
    -- the newest row is not among those that are gone
    refine (hhas _).mpr ⟨h.newest hpos, fun hmem => ?_⟩
    rcases hgone with rfl | hsome | hpurge
    · cases hmem
    · rw [hborn] at hsome
      cases hsome
    · obtain ⟨ctx, inp⟩ := i
      have hinp : inp = .act (.delfinissues gone) := hpurge
      rw [hinp] at hkeeps
      exact hkeeps _ (h.lastKey hpos) hmem
  | some k =>
    have hnext : k = ids.length + 1 := by
      rw [← h.next]
      exact hids.next k hborn
    rw [recordIds_of_some hborn, hnext]
    refine ⟨range'_concat_length h.sequence, fun j hj => ?_, fun _ => ?_⟩
    · rw [List.length_append, List.length_singleton]
      rcases (hids.has j).mp hj with hj | ⟨hj, -⟩
      · rw [hborn, Option.mem_some_iff] at hj
        omega
      · have hrange := h.range j hj
        omega
    · rw [List.length_append, List.length_singleton, ← hnext]
      exact (hids.has k).mpr (Or.inl hborn)

theorem numbered_genesis (clock : TimePoint) : Numbered [] (genesis clock).state.issues := by
  refine ⟨rfl, fun k hk => ?_, fun hpos => ?_⟩
  · exact absurd hk (not_hasId_of_empty rfl)
  · cases hpos

theorem numbered_of_run {clock : TimePoint} {is : List (Ctx × Input Action)}
    (hrun : Transition.Run (Transition.recording (contract self).step recordIds)
      (fun p i => KeepsNewest p.1 i) (genesis clock, []) is (w, ids)) :
    Numbered ids w.state.issues :=
  hrun.invariant (P := fun p => Numbered p.2 p.1.state.issues)
    (fun _ _ _ h hkeeps hs => numbered_of_step h hkeeps hs) (numbered_genesis clock)

/-! ## After the newest issue was purged -/

/-- Only `delfinissues` can purge the newest issue. -/
theorem purge_of_not_keepsNewest (hpurge : ¬ KeepsNewest w i) :
    ∃ gone, i.2 = .act (.delfinissues gone) ∧ ∃ k, w.state.issues.lastKey? = some k ∧ k ∈ gone := by
  obtain ⟨ctx, n | a⟩ := i
  · exact absurd trivial hpurge
  · cases a with
    | delfinissues gone =>
      refine ⟨gone, rfl, ?_⟩
      by_contra hnone
      apply hpurge
      intro k hk hmem
      exact hnone ⟨k, hk, hmem⟩
    | init | setreceiver | addplan | setplanowner | enableplan | transissue | endissue | unlock
    | setfirstdays => exact absurd trivial hpurge

theorem behind_of_purge (h : Numbered ids w.state.issues) (hpurge : ¬ KeepsNewest w i)
    (hs : Transition.recording (contract self).step recordIds (w, ids) i = .ok (w', ids')) :
    ids' = ids ∧ Behind ids' w'.state.issues := by
  obtain ⟨hstep, hrecord⟩ := Transition.recording_eq_ok.mp hs
  obtain ⟨outs, hrun⟩ := (contract self).run_of_step hstep
  obtain ⟨gone, hinp, k, hlast, hmem⟩ := purge_of_not_keepsNewest hpurge
  rw [hinp] at hrun
  have hkept := hasId_of_delfinissues hrun
  -- the purged row is the one of the last id
  have hk := h.range k (Table.exists_of_lastKey? hlast)
  have hlen := h.lastKey (by omega)
  rw [hlast, Option.some.injEq] at hlen
  have hrec : ids' = recordIds ids w i w' := hrecord
  rw [hrec, recordIds_of_none (born_of_kept hkept)]
  refine ⟨rfl, h.sequence, by omega, fun j hj => ?_⟩
  obtain ⟨hold, hnot⟩ := (hkept j).mp hj
  have hj' := h.range j hold
  have hne : j ≠ k := fun heq => hnot (heq ▸ hmem)
  omega

/-- From there on every issue that is created repeats an id. -/
theorem repeats_of_step
    (h : (ids = ids₁ ∧ Behind ids w.state.issues) ∨ ¬ ids.Nodup)
    (hs : Transition.recording (contract self).step recordIds (w, ids) i = .ok (w', ids')) :
    (ids' = ids₁ ∧ Behind ids' w'.state.issues) ∨ ¬ ids'.Nodup := by
  obtain ⟨hstep, hrecord⟩ := Transition.recording_eq_ok.mp hs
  obtain ⟨outs, hrun⟩ := (contract self).run_of_step hstep
  obtain ⟨gone, hids, -⟩ := idsAfter_of_run hrun
  have hrec : ids' = recordIds ids w i w' := hrecord
  rw [hrec]
  rcases h with ⟨rfl, hbehind⟩ | hrepeated
  · cases hborn : born w w' with
    | none =>
      rw [recordIds_of_none hborn]
      refine Or.inl ⟨rfl, hbehind.sequence, hbehind.pos, fun k hk => ?_⟩
      rw [hids.has, hborn] at hk
      exact hbehind.range k (hk.resolve_left (Option.not_mem_none k)).1
    | some k =>
      have hmem : k ∈ ids := by
        rw [hids.next k hborn]
        exact hbehind.next
      rw [recordIds_of_some hborn]
      exact Or.inr fun hnodup => (List.nodup_append.mp hnodup).2.2 k hmem k (by simp) rfl
  · exact Or.inr fun hnodup => hrepeated (List.nodup_append.mp hnodup).1

/-- Once the newest issue was purged, a run creates no issue or assigns an id twice. -/
theorem repeats_of_run {is : List (Ctx × Input Action)} (h : Behind ids w.state.issues)
    (hrun : Transition.Run (Transition.recording (contract self).step recordIds)
      Transition.Unrestricted (w, ids) is (w', ids')) : ids' = ids ∨ ¬ ids'.Nodup := by
  have hinv : (ids' = ids ∧ Behind ids' w'.state.issues) ∨ ¬ ids'.Nodup :=
    hrun.invariant (P := fun p => (p.2 = ids ∧ Behind p.2 p.1.state.issues) ∨ ¬ p.2.Nodup)
      (fun _ _ _ h _ hs => repeats_of_step h hs) (Or.inl ⟨rfl, h⟩)
  exact hinv.imp_left And.left

/-! ## Distinct ids -/

/-- In every run in which no `delfinissues` purges the newest issue, no id is assigned
twice. The first purge of the newest issue assigns no id, and from there on the ids are
distinct exactly as long as no further issue is created. -/
theorem issue_ids_assigned_once {clock : TimePoint} {is : List (Ctx × Input Action)}
    (hrun : Transition.Run (Transition.recording (contract self).step recordIds)
      (fun p i => KeepsNewest p.1 i) (genesis clock, []) is (w, ids)) :
    ids.Nodup ∧
      ∀ (i : Ctx × Input Action) (w₁ : World State) (ids₁ : List ℕ), ¬ KeepsNewest w i →
        Transition.recording (contract self).step recordIds (w, ids) i = .ok (w₁, ids₁) →
        ids₁ = ids ∧
          ∀ (is' : List (Ctx × Input Action)) (w' : World State) (ids' : List ℕ),
            Transition.Run (Transition.recording (contract self).step recordIds)
              Transition.Unrestricted (w₁, ids₁) is' (w', ids') →
            (ids'.Nodup ↔ ids' = ids) := by
  have hnumbered := numbered_of_run hrun
  have hnodup : ids.Nodup := by
    rw [hnumbered.sequence]
    exact List.nodup_range'
  refine ⟨hnodup, fun i w₁ ids₁ hpurge hs => ?_⟩
  obtain ⟨hsame, hbehind⟩ := behind_of_purge hnumbered hpurge hs
  refine ⟨hsame, fun is' w' ids' hrest => ⟨fun hdistinct => ?_, fun hnone => ?_⟩⟩
  · rw [hsame] at hbehind hrest
    exact (repeats_of_run hbehind hrest).resolve_right fun hrepeated => hrepeated hdistinct
  · rw [hnone]
    exact hnodup

end Runs

/-! ## A purged id and a kept one -/

namespace Sample

/-- The issue 1 is paid in full and purged, and then there is another deposit. -/
def purgeInputs : List (Ctx × Input Action) :=
  inputs.take 2 ++
    [(.signed bob 110, .act (.unlock bob 1 1)),
     (.signed carol 110, .act (.delfinissues [1])),
     (.signed alice 110, .notify deposit.2)]

/-- The id of the purged issue is assigned again. -/
theorem purged_id_assigned_again :
    ¬ ∀ (is : List (Ctx × Input Action)) (w : World State) (ids : List ℕ),
      Transition.Run (Transition.recording (contract account).step recordIds)
        Transition.Unrestricted (start, []) is (w, ids) → ids.Nodup := by
  intro hclaim
  have hreach : Transition.Reaches (Transition.recording (contract account).step recordIds)
      Transition.Unrestricted (fun p => p.2 = [1, 1]) purgeInputs (start, []) := by decide
  obtain ⟨⟨w, ids⟩, hrun, hids⟩ := Transition.run_of_reaches hreach
  have hnodup := hclaim _ w ids hrun
  have htwice : ids = [1, 1] := hids
  rw [htwice] at hnodup
  simp at hnodup

/-- With a second issue before the purge, the third one gets the id 3. When the second issue is
not there, the purge of the first one is a purge of the newest, and the ids stay distinct until
the next deposit. -/
theorem issue_ids_assigned_once_sample :
    (∃ is w, Transition.Run (Transition.recording (contract account).step recordIds)
        (fun p i => KeepsNewest p.1 i) (start, []) is (w, [1, 2, 3]) ∧ [1, 2, 3].Nodup) ∧
      ∃ w, Transition.Run (Transition.recording (contract account).step recordIds)
        Transition.Unrestricted (start, []) (purgeInputs.take 4) (w, [1]) ∧
        ∀ is w' ids', Transition.Run (Transition.recording (contract account).step recordIds)
          Transition.Unrestricted (w, [1]) is (w', ids') → (ids'.Nodup ↔ ids' = [1]) := by
  constructor
  · have hreach : Transition.Reaches (Transition.recording (contract account).step recordIds)
        (fun p i => KeepsNewest p.1 i) (fun p => p.2 = [1, 2, 3])
        (inputs.take 2 ++ (deposit.1, .notify deposit.2) :: purgeInputs.drop 2) (start, []) := by
      decide
    obtain ⟨⟨w, ids⟩, hrun, hids⟩ := Transition.run_of_reaches hreach
    have hthree : ids = [1, 2, 3] := hids
    rw [hthree] at hrun
    exact ⟨_, w, hrun, (issue_ids_assigned_once hrun).1⟩
  · have hreach : Transition.Reaches (Transition.recording (contract account).step recordIds)
        (fun p i => KeepsNewest p.1 i)
        (fun p => p.2 = [1] ∧ ¬ KeepsNewest p.1 (.signed carol 110, .act (.delfinissues [1])) ∧
          Transition.Succeeds (Transition.recording (contract account).step recordIds p
            (.signed carol 110, .act (.delfinissues [1]))) (fun q => q.2 = [1]))
        (purgeInputs.take 3) (start, []) := by
      decide
    obtain ⟨⟨w, ids⟩, hrun, hids, hpurge, hone⟩ := Transition.run_of_reaches hreach
    obtain ⟨⟨w₁, ids₁⟩, hs, hids₁⟩ := Transition.succeeds_iff.mp hone
    have hids : ids = [1] := hids
    have hids₁ : ids₁ = [1] := hids₁
    rw [hids] at hrun hs
    rw [hids₁] at hs
    exact ⟨w₁, .snoc (hrun.relax fun _ _ _ => trivial) trivial hs,
      ((issue_ids_assigned_once hrun).2 _ _ _ hpurge hs).2⟩

end Sample

end Vest
end ToolkitContracts
