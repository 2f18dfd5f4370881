import ToolkitContracts.Vest.Schedule

/-!
# The schedule of an issue and its descendants

`transissue` splits an issue: a part moves to a new row, which can be split again. The
family of an issue is that issue and every row descended from it. It is followed along a
run by a history variable, together with what `unlock` paid out to its members.

A split that leaves a part behind whose schedule no longer covers what was paid lets the
family be paid faster than the plan says. `KeepsShare` excludes such splits, and then the
payments to the whole family stay within the schedule of the issue it descends from.
-/

namespace ToolkitContracts
namespace Vest

open Schedule

/-! ## Following a family -/

/-- The members of a family that are still in the table, what was paid out to members so
far, and how many members there have been. -/
structure Family where
  members : List ℕ
  paid : ℤ
  count : ℕ

/-- The family of an issue that was just created. -/
def Family.founded (issueId : ℕ) : Family := ⟨[issueId], 0, 1⟩

/-- The id of the issue that a step created, if it created one. -/
def born (w w' : World State) : Option ℕ :=
  (w'.state.issues.rows.find? fun i => (w.state.issues.find? i.issueId).isNone).map
    VestIssue.issueId

/-- What an input makes the contract pay out. -/
def paidOut (self : Name) (w : World State) (i : Ctx × Input Action) : ℤ :=
  match (contract self).run i.1 i.2 w.state with
  | .ok (_, outs) => (outs.map fun t => t.quantity.amount).sum
  | .error _ => 0

/-- Drop the members whose rows are gone. -/
def Family.surviving (f : Family) (w : World State) : Family :=
  { f with members := f.members.filter fun id => (w.state.issues.find? id).isSome }

/-- The family after a step: `transissue` of a member adds the row it creates, `unlock` of a
member adds to what was paid. -/
def Family.record (self : Name) (f : Family) (w : World State) (i : Ctx × Input Action)
    (w' : World State) : Family :=
  Family.surviving (w := w') <|
    match i.2 with
    | .act (.transissue _ _ issueId _) =>
      if issueId ∈ f.members then
        { f with members := f.members ++ (born w w').toList, count := f.count + 1 }
      else f
    | .act (.unlock _ _ issueId) =>
      if issueId ∈ f.members then { f with paid := f.paid + paidOut self w i } else f
    | _ => f

/-- No `setfirstdays`, `setreceiver` or `endissue` on a member of the family. -/
def Untouched (f : Family) (i : Ctx × Input Action) : Prop :=
  match i.2 with
  | .act (.setfirstdays issueId _) => issueId ∉ f.members
  | .act (.setreceiver issueId _) => issueId ∉ f.members
  | .act (.endissue _ _ issueId) => issueId ∉ f.members
  | _ => True

instance (f : Family) (i : Ctx × Input Action) : Decidable (Untouched f i) := by
  rcases i with ⟨ctx, n | a⟩
  · exact inferInstanceAs (Decidable True)
  · rcases a with _ | _ | _ | _ | _ | _ | _ | _ | _ | _ <;> dsimp only [Untouched] <;> infer_instance

/-- When a member is split before its last unlock period, the part that stays has released
at least what was paid of the member, up to one unit of rounding. -/
def KeepsShare (f : Family) (w : World State) : Ctx × Input Action → Prop
  | (ctx, .act (.transissue _ _ issueId quant)) =>
    issueId ∈ f.members → ∀ i ∈ w.state.issues.find? issueId, ∀ p ∈ w.state.plans.find? i.planId,
      periods p i ctx.now < p.unlockTimes →
      p.unlockTimes * i.unlocked.amount
        ≤ (i.issued.amount - quant.amount) * periods p i ctx.now + p.unlockTimes
  | _ => True

instance (f : Family) (w : World State) (i : Ctx × Input Action) :
    Decidable (KeepsShare f w i) := by
  rcases i with ⟨ctx, n | a⟩
  · exact inferInstanceAs (Decidable True)
  · rcases a with _ | _ | _ | _ | _ | _ | _ | _ | _ | _ <;> dsimp only [KeepsShare] <;> infer_instance

/-- The issue `i` on the plan `p` was just created by a transfer to the contract. -/
def Founds (self : Name) (w : World State) (i : VestIssue) (p : VestPlan) : Prop :=
  ∃ clock is w₀ ctx n,
    Transition.Run (contract self).step Transition.Unrestricted (genesis clock) is w₀ ∧
    (contract self).step w₀ (ctx, .notify n) = .ok w ∧
    i ∈ w.state.issues ∧ w₀.state.issues.find? i.issueId = none ∧
    w.state.plans.find? i.planId = some p

/-- What was paid to the family of `i` by the time `t` is what the schedule of `i` allows:
nothing before its first unlock day, at most the issued amount from the last period on, and
in between at most the released share and one unit for every member there has been. -/
def Capped (p : VestPlan) (i : VestIssue) (f : Family) (t : TimePoint) : Prop :=
  (periods p i t = 0 → f.paid = 0) ∧
  (p.unlockTimes ≤ periods p i t → f.paid ≤ i.issued.amount) ∧
  (periods p i t < p.unlockTimes →
    p.unlockTimes * f.paid ≤ i.issued.amount * periods p i t + p.unlockTimes * f.count)

instance (p : VestPlan) (i : VestIssue) (f : Family) (t : TimePoint) :
    Decidable (Capped p i f t) := by
  unfold Capped
  infer_instance

/-! ## Sums over the members of a family -/

/-- The sum of a column over the rows of the members `m`. -/
def memberSum (m : List ℕ) (issues : Table VestIssue.issueId) (g : VestIssue → ℤ) : ℤ :=
  issues.sum fun i => if i.issueId ∈ m then g i else 0

section Sums
variable {m m' : List ℕ} {issues : Table VestIssue.issueId} {i x : VestIssue} (g : VestIssue → ℤ)

theorem memberSum_congr (h : ∀ i ∈ issues, i.issueId ∈ m ↔ i.issueId ∈ m') :
    memberSum m issues g = memberSum m' issues g := by
  apply Table.sum_congr
  intro i hi
  by_cases hm : i.issueId ∈ m
  · rw [if_pos hm, if_pos ((h i hi).mp hm)]
  · rw [if_neg hm, if_neg fun hm' => hm ((h i hi).mpr hm')]

theorem memberSum_put_member (h : issues.find? x.issueId = some i) (hx : x.issueId ∈ m) :
    memberSum m (issues.put x) g = memberSum m issues g + (g x - g i) := by
  have hsum := Table.sum_put_old h fun i => if i.issueId ∈ m then g i else 0
  rw [if_pos hx, if_pos ((Table.find?_eq_some.mp h).2 ▸ hx)] at hsum
  unfold memberSum
  omega

theorem memberSum_put_new (h : issues.find? x.issueId = none) (hx : x.issueId ∈ m) :
    memberSum m (issues.put x) g = memberSum m issues g + g x := by
  have hsum := Table.sum_put_new h fun i => if i.issueId ∈ m then g i else 0
  rw [if_pos hx] at hsum
  exact hsum

/-- Storing a row of another family changes no member sum. -/
theorem memberSum_put_outside (hx : x.issueId ∉ m) :
    memberSum m (issues.put x) g = memberSum m issues g := by
  unfold memberSum
  cases h : issues.find? x.issueId with
  | none =>
    have hsum := Table.sum_put_new h fun i => if i.issueId ∈ m then g i else 0
    rw [if_neg hx, add_zero] at hsum
    exact hsum
  | some i =>
    have hsum := Table.sum_put_old h fun i => if i.issueId ∈ m then g i else 0
    rw [if_neg hx, if_neg ((Table.find?_eq_some.mp h).2 ▸ hx), add_zero, add_zero] at hsum
    exact hsum

theorem memberSum_erase_member (h : issues.find? i.issueId = some i) (hi : i.issueId ∈ m) :
    memberSum m (issues.erase i.issueId) g = memberSum m issues g - g i := by
  have hsum := Table.sum_erase h fun i => if i.issueId ∈ m then g i else 0
  rw [if_pos hi] at hsum
  unfold memberSum
  omega

theorem memberSum_erase_outside {id : ℕ} (hid : id ∉ m) :
    memberSum m (issues.erase id) g = memberSum m issues g := by
  unfold memberSum
  cases h : issues.find? id with
  | none => exact Table.sum_erase_of_none h _
  | some i =>
    have hsum := Table.sum_erase h fun i => if i.issueId ∈ m then g i else 0
    rw [if_neg ((Table.find?_eq_some.mp h).2.symm ▸ hid), add_zero] at hsum
    exact hsum

/-- A new row that joins the family adds its amount. -/
theorem memberSum_born (h : issues.find? x.issueId = none) :
    memberSum (m ++ [x.issueId]) (issues.put x) g = memberSum m issues g + g x := by
  have hx : x.issueId ∈ m ++ [x.issueId] := by simp
  rw [memberSum_put_new g h hx]
  congr 1
  apply memberSum_congr
  intro i hi
  have hne := Table.find?_eq_none.mp h i hi
  simp [hne]

end Sums

/-! ## The invariant -/

/-- A member has the schedule of the issue `i₀` it descends from, and is within it. -/
structure Member (p₀ : VestPlan) (i₀ : VestIssue) (now : TimePoint) (i : VestIssue) : Prop where
  planId : i.planId = i₀.planId
  first : i.firstUnlockDays = i₀.firstUnlockDays
  issuedAt : i.issuedAt = i₀.issuedAt
  issued : 0 ≤ i.issued.amount
  within : Within (periods p₀ i₀ now) p₀.unlockTimes i.issued.amount i.unlocked.amount 1

/-- The members' rows, and what is gone with rows that were removed, add up to the issue the
family descends from, and what was paid is within the schedule for both. -/
structure Tracks (p₀ : VestPlan) (i₀ : VestIssue) (f : Family) (now : TimePoint)
    (plans : Table VestPlan.id) (issues : Table VestIssue.issueId) : Prop where
  plan : ∃ p, plans.find? i₀.planId = some p ∧ p₀.SameTerms p
  member : ∀ i ∈ issues, i.issueId ∈ f.members → Member p₀ i₀ now i
  books : ∃ goneIssued gonePaid goneParts : ℤ, 0 ≤ goneIssued ∧
    Within (periods p₀ i₀ now) p₀.unlockTimes goneIssued gonePaid goneParts ∧
    memberSum f.members issues (fun i => i.issued.amount) + goneIssued = i₀.issued.amount ∧
    memberSum f.members issues (fun i => i.unlocked.amount) + gonePaid = f.paid ∧
    memberSum f.members issues (fun _ => 1) + goneParts = f.count
  early : periods p₀ i₀ now = 0 → f.paid = 0

section Invariant
variable {p₀ p : VestPlan} {i₀ i x : VestIssue} {f : Family} {now now' : TimePoint}
  {plans plans' : Table VestPlan.id} {issues issues' : Table VestIssue.issueId}

theorem periods_congr (hp : p₀.SameTerms p) (hfirst : i.firstUnlockDays = i₀.firstUnlockDays)
    (hat : i.issuedAt = i₀.issuedAt) : periods p i now = periods p₀ i₀ now := by
  rw [periods, periods, elapsedDays, elapsedDays, hp.interval, hfirst, hat]

theorem Member.later (h : Member p₀ i₀ now i) (hle : now ≤ now') :
    Member p₀ i₀ now' i := by
  have hmono := periods_mono (p := p₀) (i := i₀) hle
  exact { h with within := h.within.later h.issued (by omega) }

theorem Tracks.later (h : Tracks p₀ i₀ f now plans issues) (hle : now ≤ now') :
    Tracks p₀ i₀ f now' plans issues := by
  have hmono := periods_mono (p := p₀) (i := i₀) hle
  obtain ⟨gi, gp, gn, hgi, hgone, hsums⟩ := h.books
  refine ⟨h.plan, fun i hi hm => (h.member i hi hm).later hle, ?_, fun h0 => h.early (by omega)⟩
  exact ⟨gi, gp, gn, hgi, hgone.later hgi (by omega), hsums⟩

theorem Tracks.with_plans (h : Tracks p₀ i₀ f now plans issues)
    (hplans : ∀ k p, plans.find? k = some p → ∃ p', plans'.find? k = some p' ∧ p.SameTerms p') :
    Tracks p₀ i₀ f now plans' issues := by
  obtain ⟨p, hp, hterms⟩ := h.plan
  obtain ⟨p', hp', hterms'⟩ := hplans _ p hp
  exact { h with plan := ⟨p', hp', hterms.trans hterms'⟩ }

/-- Rows of other families may change freely. -/
theorem Tracks.put_outside (h : Tracks p₀ i₀ f now plans issues) (hx : x.issueId ∉ f.members) :
    Tracks p₀ i₀ f now plans (issues.put x) := by
  refine ⟨h.plan, Table.forall_put h.member fun hm => absurd hm hx, ?_, h.early⟩
  rw [memberSum_put_outside _ hx, memberSum_put_outside _ hx, memberSum_put_outside _ hx]
  exact h.books

/-- A row that is removed takes its amounts along. -/
theorem Tracks.erase (h : Tracks p₀ i₀ f now plans issues)
    (hi : issues.find? i.issueId = some i) :
    Tracks p₀ i₀ f now plans (issues.erase i.issueId) := by
  refine ⟨h.plan, Table.forall_erase h.member, ?_, h.early⟩
  -- the books of what is gone take over a member, and nothing from other rows
  by_cases hm : i.issueId ∈ f.members
  · have hmember := h.member i (Table.find?_eq_some.mp hi).1 hm
    obtain ⟨gi, gp, gn, hgi, hgone, hissued, hpaid, hcount⟩ := h.books
    rw [memberSum_erase_member _ hi hm, memberSum_erase_member _ hi hm,
      memberSum_erase_member _ hi hm]
    have hnonneg := hmember.issued
    refine ⟨gi + i.issued.amount, gp + i.unlocked.amount, gn + 1, ?_,
      hgone.add hmember.within, ?_, ?_, ?_⟩ <;> omega
  · rw [memberSum_erase_outside _ hm, memberSum_erase_outside _ hm, memberSum_erase_outside _ hm]
    exact h.books

/-- A payment to a member brings it to what its schedule has released. -/
theorem Tracks.pay (h : Tracks p₀ i₀ f now plans issues) (hi : issues.find? i.issueId = some i)
    (hm : i.issueId ∈ f.members) (hx : x.issueId = i.issueId) (hplanId : x.planId = i.planId)
    (hfirst : x.firstUnlockDays = i.firstUnlockDays) (hat : x.issuedAt = i.issuedAt)
    (hissued : x.issued.amount = i.issued.amount) (hstarted : 0 < periods p₀ i₀ now)
    (htimes : 0 < p₀.unlockTimes)
    (hpaid : x.unlocked.amount = released i.issued.amount (periods p₀ i₀ now) p₀.unlockTimes) :
    Tracks p₀ i₀ { f with paid := f.paid + (x.unlocked.amount - i.unlocked.amount) } now plans
      (issues.put x) := by
  have hmember := h.member i (Table.find?_eq_some.mp hi).1 hm
  have hfind : issues.find? x.issueId = some i := hx.symm ▸ hi
  have hxm : x.issueId ∈ f.members := hx.symm ▸ hm
  refine ⟨h.plan, Table.forall_put h.member fun _ => ⟨?_, ?_, ?_, ?_, ?_⟩, ?_, fun h0 => ?_⟩
  · exact hplanId.trans hmember.planId
  · exact hfirst.trans hmember.first
  · exact hat.trans hmember.issuedAt
  · rw [hissued]
    exact hmember.issued
  · rw [hissued, hpaid]
    exact Within.of_released hmember.issued (by omega)
  -- the payment raises both sides of the account of payments
  · obtain ⟨gi, gp, gn, hgi, hgone, hsumIssued, hsumPaid, hcount⟩ := h.books
    rw [memberSum_put_member _ hfind hxm, memberSum_put_member _ hfind hxm,
      memberSum_put_member _ hfind hxm]
    refine ⟨gi, gp, gn, hgi, hgone, ?_, ?_, ?_⟩
    · omega
    · show _ = f.paid + (x.unlocked.amount - i.unlocked.amount)
      omega
    · show _ = (f.count : ℤ)
      omega
  · omega

/-- The rows of the family after a new row has joined it. -/
theorem member_of_born (h : Tracks p₀ i₀ f now plans issues)
    (hnew : issues.find? x.issueId = none) (hx : Member p₀ i₀ now x) :
    ∀ j ∈ issues.put x, j.issueId ∈ f.members ++ [x.issueId] → Member p₀ i₀ now j := by
  intro j hj hm
  rcases Table.mem_put.mp hj with rfl | ⟨hj, hne⟩
  · exact hx
  · rcases List.mem_append.mp hm with hm | hm
    · exact h.member j hj hm
    · exact absurd (List.mem_singleton.mp hm) hne

/-- A split that leaves a part of the member behind. -/
theorem Tracks.split {y : VestIssue} (h : Tracks p₀ i₀ f now plans issues)
    (hi : issues.find? i.issueId = some i) (hm : i.issueId ∈ f.members)
    (hnew : issues.find? x.issueId = none) (hx : Member p₀ i₀ now x) (hy : Member p₀ i₀ now y)
    (hyid : y.issueId = i.issueId) (hpaid : x.unlocked.amount = 0)
    (hissued : y.issued.amount = i.issued.amount - x.issued.amount)
    (hunlocked : y.unlocked.amount = i.unlocked.amount) :
    Tracks p₀ i₀ { f with members := f.members ++ [x.issueId], count := f.count + 1 } now plans
      ((issues.put x).put y) := by
  have hne : i.issueId ≠ x.issueId := Table.find?_eq_none.mp hnew i (Table.find?_eq_some.mp hi).1
  -- the old row is still the one it was when the remainder replaces it
  have hfind : (issues.put x).find? y.issueId = some i := by
    rw [Table.find?_put, hyid, if_neg hne, hi]
  have hym : y.issueId ∈ f.members ++ [x.issueId] := by simp [hyid, hm]
  refine ⟨h.plan, Table.forall_put (member_of_born h hnew hx) fun _ => hy, ?_, h.early⟩
  obtain ⟨gi, gp, gn, hgi, hgone, hsumIssued, hsumPaid, hcount⟩ := h.books
  rw [memberSum_put_member _ hfind hym, memberSum_put_member _ hfind hym,
    memberSum_put_member _ hfind hym, memberSum_born _ hnew, memberSum_born _ hnew,
    memberSum_born _ hnew]
  -- issued amounts move between two members; one member more
  refine ⟨gi, gp, gn, hgi, hgone, ?_, ?_, ?_⟩
  · omega
  · show _ = f.paid
    omega
  · push_cast
    omega

/-- A split that moves all that a member has locked removes its row. -/
theorem Tracks.move (h : Tracks p₀ i₀ f now plans issues)
    (hi : issues.find? i.issueId = some i) (hm : i.issueId ∈ f.members)
    (hnew : issues.find? x.issueId = none) (hx : Member p₀ i₀ now x)
    (hpaid : x.unlocked.amount = 0) (hle : x.issued.amount ≤ i.issued.amount)
    (hshare : Within (periods p₀ i₀ now) p₀.unlockTimes (i.issued.amount - x.issued.amount)
      i.unlocked.amount 1) :
    Tracks p₀ i₀ { f with members := f.members ++ [x.issueId], count := f.count + 1 } now plans
      ((issues.put x).erase i.issueId) := by
  have hne : i.issueId ≠ x.issueId := Table.find?_eq_none.mp hnew i (Table.find?_eq_some.mp hi).1
  have hfind : (issues.put x).find? i.issueId = some i := by
    rw [Table.find?_put, if_neg hne, hi]
  have him : i.issueId ∈ f.members ++ [x.issueId] := by simp [hm]
  refine ⟨h.plan, Table.forall_erase (member_of_born h hnew hx), ?_, h.early⟩
  obtain ⟨gi, gp, gn, hgi, hgone, hsumIssued, hsumPaid, hcount⟩ := h.books
  rw [memberSum_erase_member _ hfind him, memberSum_erase_member _ hfind him,
    memberSum_erase_member _ hfind him, memberSum_born _ hnew, memberSum_born _ hnew,
    memberSum_born _ hnew]
  -- what the old row keeps when its locked amount has left goes to the gone part
  refine ⟨gi + (i.issued.amount - x.issued.amount), gp + i.unlocked.amount, gn + 1, ?_,
    hgone.add hshare, ?_, ?_, ?_⟩
  · omega
  · omega
  · show _ = f.paid
    omega
  · push_cast
    omega

/-- Removing finished issues keeps the family's books. -/
theorem Tracks.delfinissues {ids : List ℕ} (h : Tracks p₀ i₀ f now plans issues)
    (hdel : delfinissuesFrom ids issues = .ok issues') : Tracks p₀ i₀ f now plans issues' := by
  induction ids generalizing issues with
  | nil =>
    rw [delfinissuesFrom, Except.ok.injEq] at hdel
    exact hdel ▸ h
  | cons id ids ih =>
    simp only [delfinissuesFrom, bind_eq_ok, require_eq_ok, check_eq_ok, exists_const] at hdel
    obtain ⟨j, hj, -, hdel⟩ := hdel
    have hid := (Table.find?_eq_some.mp hj).2
    subst hid
    exact ih (h.erase hj) hdel

/-- Only the members whose rows are there matter. -/
theorem Tracks.surviving {w : World State} (h : Tracks p₀ i₀ f now plans w.state.issues) :
    Tracks p₀ i₀ (f.surviving w) now plans w.state.issues := by
  have hiff : ∀ i ∈ w.state.issues, i.issueId ∈ f.members ↔ i.issueId ∈ (f.surviving w).members := by
    intro i hi
    simp [Family.surviving, List.mem_filter, Table.find?_self hi]
  refine ⟨h.plan, fun i hi hm => h.member i hi ((hiff i hi).mpr hm), ?_, h.early⟩
  rw [← memberSum_congr _ hiff, ← memberSum_congr _ hiff, ← memberSum_congr _ hiff]
  exact h.books

end Invariant

/-! ## One step -/

section Step
variable {self : Name} {w w' : World State} {ctx : Ctx} {p₀ : VestPlan} {i₀ : VestIssue}
  {f : Family}

theorem born_eq {x : VestIssue} (hnew : w.state.issues.find? x.issueId = none)
    (hx : x ∈ w'.state.issues)
    (hold : ∀ j ∈ w'.state.issues, j.issueId ≠ x.issueId →
      ∃ i, w.state.issues.find? j.issueId = some i) : born w w' = some x.issueId := by
  rw [born]
  cases hfind : w'.state.issues.rows.find? fun i => (w.state.issues.find? i.issueId).isNone with
  | none =>
    have hnone := List.find?_eq_none.mp hfind x hx
    simp [hnew] at hnone
  | some j =>
    have hj : j ∈ w'.state.issues := List.mem_of_find?_eq_some hfind
    have hjnew := List.find?_some hfind
    -- the first new row that is found is the only one
    by_cases hid : j.issueId = x.issueId
    · rw [Option.map_some, hid]
    · obtain ⟨i, hi⟩ := hold j hj hid
      simp [hi] at hjnew

/-- The issue born by a split is the one under the new id. -/
theorem born_of_split {issue : VestIssue} {newId : ℕ} {now : TimePoint} {toReceiver : Name}
    {quant zero : Asset} {memo : List Char}
    (hissues : w'.state.issues =
      (let issues' := w.state.issues.put (issueSplitOff now issue newId toReceiver quant zero memo)
      if issue.locked.amount = quant.amount then issues'.erase issue.issueId
      else issues'.put (issueRemainder now issue quant)))
    (hissue : w.state.issues.find? issue.issueId = some issue)
    (hnew : w.state.issues.find? newId = none) : born w w' = some newId := by
  apply born_eq (x := issueSplitOff now issue newId toReceiver quant zero memo) hnew
  · rw [hissues]
    exact (mem_split_iff hissue hnew).mpr (Or.inl rfl)
  · intro j hj hne
    rw [hissues] at hj
    rcases (mem_split_iff hissue hnew).mp hj with rfl | ⟨-, rfl⟩ | ⟨hj, -⟩
    · exact absurd rfl hne
    · exact ⟨issue, hissue⟩
    · exact ⟨j, Table.find?_self hj⟩

/-- The plan of a member is the plan the family was founded on. -/
theorem sameTerms_of_member {p : VestPlan} {i : VestIssue} {now : TimePoint}
    (h : Tracks p₀ i₀ f w.clock w.state.plans w.state.issues) (hi : Member p₀ i₀ now i)
    (hp : w.state.plans.find? i.planId = some p) : p₀.SameTerms p := by
  obtain ⟨q, hq, hterms⟩ := h.plan
  rw [hi.planId, hq] at hp
  exact Option.some.inj hp ▸ hterms

section Split
variable {issue : VestIssue} {newId : ℕ} {toReceiver : Name} {quant zero : Asset}
  {memo : List Char} {now : TimePoint}

/-- The condition on a split, in terms of the family's schedule. -/
theorem share_of_member {p : VestPlan} (hsound : issue.Sound w.clock w.state.plans)
    (hi : Member p₀ i₀ now issue) (hterms : p₀.SameTerms p)
    (hlocked : quant.amount ≤ issue.locked.amount)
    (hshare : periods p issue now < p.unlockTimes →
      p.unlockTimes * issue.unlocked.amount
        ≤ (issue.issued.amount - quant.amount) * periods p issue now + p.unlockTimes) :
    Within (periods p₀ i₀ now) p₀.unlockTimes (issue.issued.amount - quant.amount)
      issue.unlocked.amount 1 := by
  have heq := hsound.locked
  rw [periods_congr hterms hi.first hi.issuedAt, hterms.times] at hshare
  -- the amount paid is within the remainder, since only locked tokens move
  refine ⟨by omega, fun hk => ?_⟩
  rw [mul_one]
  apply hshare
  omega

theorem member_of_splitOff (hi : Member p₀ i₀ now issue) (hpos : 0 < quant.amount)
    (hzero : Asset.new 0 quant.symbol = .ok zero) :
    Member p₀ i₀ now (issueSplitOff now issue newId toReceiver quant zero memo) := by
  have hz := Asset.amount_of_new_zero hzero
  refine { hi with issued := hpos.le, within := ?_ }
  show Within _ _ quant.amount zero.amount 1
  rw [hz]
  apply Within.unpaid
  · exact hpos.le
  · omega

end Split

/-- What an input pays out that orders one transfer. -/
theorem paidOut_of_run {inp : Input Action} {s' : State} {t : Transfer}
    (hrun : (contract self).run ctx inp w.state = .ok (s', [t])) :
    paidOut self w (ctx, inp) = t.quantity.amount := by
  rw [paidOut, hrun]
  simp only [List.map_cons, List.map_nil, List.sum_cons, List.sum_nil, add_zero]

/-- `unlock` on a member pays it what the family's schedule has released of it. -/
theorem tracks_of_unlock {now : TimePoint} {plans : Table VestPlan.id} {plan : VestPlan}
    {issue : VestIssue} {total : ℤ} (hsolvent : Solvent w)
    (h : Tracks p₀ i₀ f w.clock w.state.plans w.state.issues)
    (hkeep : Tracks p₀ i₀ f now plans w.state.issues) (hclock : w.clock ≤ now)
    (hissue : w.state.issues.find? issue.issueId = some issue) (hmem : issue.issueId ∈ f.members)
    (hplan : w.state.plans.find? issue.planId = some plan) (hongoing : issue.status = .ongoing)
    (hdays : 0 ≤ unlockedDays now issue)
    (htotal : totalUnlocked plan issue (unlockedTimes plan (unlockedDays now issue)) = .ok total)
    (hpos : 0 < i64 (total - issue.unlocked.amount)) :
    Tracks p₀ i₀ { f with paid := f.paid + i64 (total - issue.unlocked.amount) } now plans
      (w.state.issues.put (issuePaid now issue total)) := by
  have hmember := hkeep.member issue (Table.find?_eq_some.mp hissue).1 hmem
  have hterms := sameTerms_of_member h hmember hplan
  have hsound := (hsolvent.accounted.issue issue (Table.find?_eq_some.mp hissue).1
    hongoing).later hclock
  have hplanSound := hsolvent.accounted.plan plan (Table.find?_eq_some.mp hplan).1
  obtain ⟨hbounds, -⟩ := payment_outstanding now hsolvent.accounted hissue hongoing hplan htotal
    hpos
  have hexact := i64_of_bounds hsound hbounds
  have hstarted : issue.firstUnlockDays ≤ elapsedDays issue now := by
    rw [unlockedDays_eq hsound.issuedAt hsound.days] at hdays
    omega
  have htotal' := totalUnlocked_eq hplanSound hsound.issuedAt hsound.days hstarted
    hmember.issued htotal
  -- the member's plan and row have the schedule that the family was founded on
  have hperiods : periods plan issue now = periods p₀ i₀ now :=
    periods_congr hterms hmember.first hmember.issuedAt
  have hpaid : i64 (total - issue.unlocked.amount)
      = (issuePaid now issue total).unlocked.amount - issue.unlocked.amount := by
    show _ = i64 total - issue.unlocked.amount
    rw [hexact.1, hexact.2.1]
  rw [hpaid]
  apply hkeep.pay (x := issuePaid now issue total) hissue hmem rfl rfl rfl rfl rfl
  · rw [← hperiods]
    exact periods_pos hstarted
  · rw [← hterms.times]
    exact hplanSound.times.1
  · show i64 total = _
    rw [hexact.1, htotal', releasedOf, hperiods, hterms.times]

/-- `transissue` on a member adds the new row to the family. -/
theorem tracks_of_transissue {now : TimePoint} {plans : Table VestPlan.id} {issue : VestIssue}
    {toReceiver : Name} {quant zero : Asset} {newId : ℕ} {memo : List Char} (hsolvent : Solvent w)
    (h : Tracks p₀ i₀ f w.clock w.state.plans w.state.issues)
    (hkeep : Tracks p₀ i₀ f now plans w.state.issues)
    (hissue : w.state.issues.find? issue.issueId = some issue) (hmem : issue.issueId ∈ f.members)
    (hongoing : issue.status = .ongoing) (hpos : 0 < quant.amount)
    (hlocked : quant.amount ≤ issue.locked.amount) (hissued : quant.amount ≤ issue.issued.amount)
    (hzero : Asset.new 0 quant.symbol = .ok zero) (hnew : w.state.issues.find? newId = none)
    (hshare : ∀ p ∈ w.state.plans.find? issue.planId, periods p issue now < p.unlockTimes →
      p.unlockTimes * issue.unlocked.amount
        ≤ (issue.issued.amount - quant.amount) * periods p issue now + p.unlockTimes) :
    Tracks p₀ i₀ { f with members := f.members ++ [newId], count := f.count + 1 } now plans
      (let issues := w.state.issues.put (issueSplitOff now issue newId toReceiver quant zero memo)
      if issue.locked.amount = quant.amount then issues.erase issue.issueId
      else issues.put (issueRemainder now issue quant)) := by
  have hmember := hkeep.member issue (Table.find?_eq_some.mp hissue).1 hmem
  have hsound := hsolvent.accounted.issue issue (Table.find?_eq_some.mp hissue).1 hongoing
  obtain ⟨p, hp, -⟩ := hsound.plan
  have hterms := sameTerms_of_member h hmember hp
  have hwithin := share_of_member hsound hmember hterms hlocked (hshare p hp)
  have hx : Member p₀ i₀ now (issueSplitOff now issue newId toReceiver quant zero memo) :=
    member_of_splitOff hmember hpos hzero
  have hz := Asset.amount_of_new_zero hzero
  by_cases hall : issue.locked.amount = quant.amount
  · simp only [if_pos hall]
    exact hkeep.move hissue hmem hnew hx hz hissued hwithin
  · simp only [if_neg hall]
    have hexact := split_exact now hsound hpos hlocked
    refine hkeep.split hissue hmem hnew hx ?_ rfl hz hexact.2 rfl
    -- the remainder is within the schedule by the condition on the split
    refine { hmember with issued := ?_, within := ?_ }
    · rw [hexact.2]
      omega
    · rw [hexact.2]
      exact hwithin

/-- `transissue` on a row of another family changes rows of that family only. -/
theorem tracks_of_transissue_outside {now : TimePoint} {plans : Table VestPlan.id}
    {issue : VestIssue} {toReceiver : Name} {quant zero : Asset} {newId : ℕ} {memo : List Char}
    (hkeep : Tracks p₀ i₀ f now plans w.state.issues)
    (hissue : w.state.issues.find? issue.issueId = some issue) (hmem : issue.issueId ∉ f.members)
    (hnewMem : newId ∉ f.members) (hne : issue.issueId ≠ newId) :
    Tracks p₀ i₀ f now plans
      (let issues := w.state.issues.put (issueSplitOff now issue newId toReceiver quant zero memo)
      if issue.locked.amount = quant.amount then issues.erase issue.issueId
      else issues.put (issueRemainder now issue quant)) := by
  have hput := hkeep.put_outside
    (x := issueSplitOff now issue newId toReceiver quant zero memo) hnewMem
  by_cases hall : issue.locked.amount = quant.amount
  · simp only [if_pos hall]
    refine hput.erase (i := issue) ?_
    rw [Table.find?_put]
    show (if issue.issueId = newId then _ else _) = _
    rw [if_neg hne, hissue]
  · simp only [if_neg hall]
    exact hput.put_outside hmem

/-- A step that respects the family keeps its books. -/
theorem tracks_of_run {inp : Input Action} {outs : List Transfer} (hsolvent : Solvent w)
    (h : Tracks p₀ i₀ f w.clock w.state.plans w.state.issues)
    (halive : ∀ id ∈ f.members, (w.state.issues.find? id).isSome = true)
    (hclock : w.clock ≤ ctx.now) (huntouched : Untouched f (ctx, inp))
    (hshare : KeepsShare f w (ctx, inp))
    (hrun : (contract self).run ctx inp w.state = .ok (w'.state, outs)) :
    Tracks p₀ i₀ (f.record self w (ctx, inp) w') ctx.now w'.state.plans w'.state.issues := by
  have hm := move_of_run hrun
  have hkeep : Tracks p₀ i₀ f ctx.now w'.state.plans w.state.issues :=
    (h.later hclock).with_plans fun k p hp => sameTerms_of_move hm hp
  -- ids that no row has are no members
  have hfresh : ∀ id, w.state.issues.find? id = none → id ∉ f.members := by
    intro id hnone hmem
    have hsome := halive id hmem
    rw [hnone] at hsome
    cases hsome
  apply Tracks.surviving
  generalize hw : w'.state = s' at hm hkeep
  cases hm with
  | ignore | payFee | init | addplan | setplanowner | enableplan => exact hkeep
  | deposit n plan receiver days issueId total zero hto hplan hstatus hdays hbank hsymbol hpos
      htotal hzero hnew hid =>
    exact hkeep.put_outside (hfresh issueId hnew)
  | setreceiver issue receiver hissue => exact hkeep.put_outside huntouched
  | setfirstdays issue days hissue hdays hauth => exact hkeep.put_outside huntouched
  | endissue issuer issue plan total hissue => exact hkeep.put_outside huntouched
  | delfinissues issueIds issues hissues => exact hkeep.delfinissues hissues
  | unlock issuer issue plan total quantity hissue hplan hongoing henabled hdays htotal hremaining
      hpos hquantity =>
    by_cases hmem : issue.issueId ∈ f.members
    · have hpaid : paidOut self w (ctx, .act (.unlock issuer issue.planId issue.issueId))
          = i64 (total - issue.unlocked.amount) := by
        rw [paidOut_of_run hrun, (Asset.new_eq_ok.mp hquantity).1, i64_i64]
      show Tracks p₀ i₀ (if issue.issueId ∈ f.members then
        { f with paid := f.paid + paidOut self w _ } else f) _ _ _
      rw [if_pos hmem, hpaid]
      exact tracks_of_unlock hsolvent h hkeep hclock hissue hmem hplan hongoing hdays htotal hpos
    · show Tracks p₀ i₀ (if issue.issueId ∈ f.members then _ else f) _ _ _
      rw [if_neg hmem]
      exact hkeep.put_outside hmem
  | transissue issue toReceiver quant zero newId memo hissue hongoing hpos hsymbol hlocked hissued
      hzero hnew hid =>
    have hne : issue.issueId ≠ newId := (hid issue (Table.find?_eq_some.mp hissue).1).ne
    by_cases hmem : issue.issueId ∈ f.members
    · have hborn : born w w' = some newId := born_of_split (congrArg State.issues hw) hissue hnew
      show Tracks p₀ i₀ (if issue.issueId ∈ f.members then
        { f with members := f.members ++ (born w w').toList, count := f.count + 1 } else f) _ _ _
      rw [if_pos hmem, hborn]
      exact tracks_of_transissue hsolvent h hkeep hissue hmem hongoing hpos hlocked hissued hzero
        hnew (hshare hmem issue hissue)
    · show Tracks p₀ i₀ (if issue.issueId ∈ f.members then _ else f) _ _ _
      rw [if_neg hmem]
      exact tracks_of_transissue_outside hkeep hissue hmem (hfresh newId hnew) hne

end Step

/-! ## Whole runs -/

section Runs
variable {self : Name} {w w₁ : World State} {p₀ : VestPlan} {i₀ : VestIssue} {f : Family}

theorem memberSum_singleton {issues : Table VestIssue.issueId} {i : VestIssue} (hi : i ∈ issues)
    (g : VestIssue → ℤ) : memberSum [i.issueId] issues g = g i := by
  have herase := memberSum_erase_member (m := [i.issueId]) g (Table.find?_self hi) (by simp)
  have hzero : memberSum [i.issueId] (issues.erase i.issueId) g = 0 := by
    apply Table.sum_eq_zero
    intro j hj
    apply if_neg
    rw [List.mem_singleton]
    exact (Table.mem_erase.mp hj).2
  omega

/-- An issue that a transfer has just created has nothing unlocked. -/
theorem unpaid_of_founds (hf : Founds self w i₀ p₀) :
    Solvent w ∧ 0 ≤ i₀.issued.amount ∧ i₀.unlocked.amount = 0 := by
  obtain ⟨clock, is, w₀, ctx, n, hrun, hstep, hi, hnew, -⟩ := hf
  have hsolvent := solvent_of_run hrun
  obtain ⟨outs, hcode⟩ := (contract self).run_of_step hstep
  have hm := move_of_run hcode
  refine ⟨solvent_of_step hsolvent hstep, ?_⟩
  generalize hw : w.state = s' at hm hi
  -- the step before did not have the row
  have hold : i₀ ∉ w₀.state.issues := by
    intro hmem
    exact Table.find?_eq_none.mp hnew i₀ hmem rfl
  cases hm with
  | ignore | payFee => exact absurd hi hold
  | deposit _ plan receiver days issueId total zero hto hplan hstatus hdays hbank hsymbol hpos
      htotal hzero hnew hid =>
    rcases Table.mem_put.mp hi with rfl | ⟨hi, -⟩
    · exact ⟨hpos.le, Asset.amount_of_new_zero hzero⟩
    · exact absurd hi hold

theorem tracks_founded (hf : Founds self w i₀ p₀) :
    Tracks p₀ i₀ (.founded i₀.issueId) w.clock w.state.plans w.state.issues := by
  obtain ⟨-, hissued, hunlocked⟩ := unpaid_of_founds hf
  obtain ⟨-, -, -, -, -, -, -, hi, -, hplan⟩ := hf
  refine ⟨⟨p₀, hplan, .refl p₀⟩, fun j hj hm => ?_, ?_, fun _ => rfl⟩
  · obtain rfl : j = i₀ := Table.eq_of_key_eq hj hi (List.mem_singleton.mp hm)
    refine ⟨rfl, rfl, rfl, hissued, ?_⟩
    rw [hunlocked]
    apply Within.unpaid hissued
    omega
  · refine ⟨0, 0, 0, le_refl 0, Within.nothing _ _, ?_, ?_, ?_⟩
    · show memberSum [i₀.issueId] _ _ + 0 = _
      rw [memberSum_singleton hi, add_zero]
    · show memberSum [i₀.issueId] _ _ + 0 = 0
      rw [memberSum_singleton hi, hunlocked, add_zero]
    · show memberSum [i₀.issueId] _ _ + 0 = 1
      rw [memberSum_singleton hi, add_zero]

/-- The books of a family bound what was paid to it. -/
theorem capped_of_tracks {now : TimePoint} (h : Tracks p₀ i₀ f now w.state.plans w.state.issues) :
    Capped p₀ i₀ f now := by
  obtain ⟨gi, gp, gn, hgi, hgone, hissued, hpaid, hcount⟩ := h.books
  -- the members in the table, taken together
  have hlive : Within (periods p₀ i₀ now) p₀.unlockTimes
      (memberSum f.members w.state.issues fun i => i.issued.amount)
      (memberSum f.members w.state.issues fun i => i.unlocked.amount)
      (memberSum f.members w.state.issues fun _ => 1) := by
    apply Within.sum
    intro i hi
    by_cases hm : i.issueId ∈ f.members
    · simp only [if_pos hm]
      exact (h.member i hi hm).within
    · simp only [if_neg hm]
      exact Within.nothing _ _
  have hall := hlive.add hgone
  rw [hissued, hpaid, hcount] at hall
  refine ⟨h.early, fun _ => hall.le_total, fun hk => hall.le_share ?_⟩
  omega

/-- In every run whose splits leave parts that have released what was paid of them, the
payments to a whole family stay within the schedule of the issue it descends from. -/
theorem schedule_cap {is : List (Ctx × Input Action)} (hf : Founds self w₁ i₀ p₀)
    (hrun : Transition.Run (Transition.recording (contract self).step (Family.record self))
      (fun s i => Untouched s.2 i ∧ KeepsShare s.2 s.1 i) (w₁, .founded i₀.issueId) is (w, f))
    {t : TimePoint} (ht : w.clock ≤ t) : Capped p₀ i₀ f t := by
  -- the members' rows exist at every step, so a new row is never a member already
  have hinv := hrun.invariant (P := fun s => Solvent s.1 ∧
      Tracks p₀ i₀ s.2 s.1.clock s.1.state.plans s.1.state.issues ∧
      ∀ id ∈ s.2.members, (s.1.state.issues.find? id).isSome = true) ?_ ?_
  · exact capped_of_tracks (hinv.2.1.later ht)
  · intro s i s' h hok hs
    obtain ⟨hstep, hrecord⟩ := Transition.recording_eq_ok.mp hs
    obtain ⟨hclock, -, hnow, outs, hcode, -⟩ := ((contract self).step_eq_ok).mp hstep
    refine ⟨solvent_of_step h.1 hstep, ?_, ?_⟩
    · rw [hrecord, hnow]
      exact tracks_of_run h.1 h.2.1 h.2.2 hclock hok.1 hok.2 hcode
    · rw [hrecord]
      intro id hid
      exact (List.mem_filter.mp hid).2
  · refine ⟨(unpaid_of_founds hf).1, tracks_founded hf, fun id hid => ?_⟩
    obtain ⟨-, -, -, -, -, -, -, hi, -⟩ := hf
    rw [List.mem_singleton.mp hid, Table.find?_self hi]
    rfl

end Runs

/-! ## A split that speeds the schedule up -/

namespace Sample

/-- Day 104, in the fifth of ten periods: half of the issue is paid, the other half moves to
a new row, and that row is paid half of its amount at once. -/
def splitInputs : List (Ctx × Input Action) :=
  [(.signed bob 104, .act (.unlock bob 1 1)),
   (.signed bob 104, .act (.transissue bob carol 1 (units 50))),
   (.signed carol 104, .act (.unlock carol 1 2))]

/-- The inputs before the deposit lead to a state in which it succeeds, and then the inputs
`is`, each of them meeting `ok`, lead to a state and a family with the property `P`. -/
def FoundedRun (ok : World State × Family → Ctx × Input Action → Prop)
    (P : VestPlan → VestIssue → World State × Family → Prop) (is : List (Ctx × Input Action)) :
    Prop :=
  Transition.Reaches (contract account).step Transition.Unrestricted (fun w₀ =>
    w₀.state.issues.find? 1 = none ∧
    Transition.Succeeds ((contract account).step w₀ (deposit.1, .notify deposit.2)) fun w₁ =>
      ∃ i ∈ w₁.state.issues.find? 1, ∃ p ∈ w₁.state.plans.find? i.planId,
        Transition.Reaches (Transition.recording (contract account).step (Family.record account))
          ok (P p i) is (w₁, .founded i.issueId)) (inputs.take 1) start

instance (ok : World State × Family → Ctx × Input Action → Prop)
    (P : VestPlan → VestIssue → World State × Family → Prop) (is : List (Ctx × Input Action))
    [∀ s i, Decidable (ok s i)] [∀ p i s, Decidable (P p i s)] :
    Decidable (FoundedRun ok P is) :=
  Transition.decidableReaches ..

theorem founds_of_foundedRun {ok : World State × Family → Ctx × Input Action → Prop}
    {P : VestPlan → VestIssue → World State × Family → Prop} {is : List (Ctx × Input Action)}
    (h : FoundedRun ok P is) : ∃ w₁ i p w f, Founds account w₁ i p ∧
      Transition.Run (Transition.recording (contract account).step (Family.record account)) ok
        (w₁, .founded i.issueId) is (w, f) ∧ P p i (w, f) := by
  obtain ⟨w₀, hrun, hnone, hstep⟩ := Transition.run_of_reaches h
  obtain ⟨w₁, hstep, i, hi, p, hp, hreach⟩ := Transition.succeeds_iff.mp hstep
  obtain ⟨⟨w, f⟩, hfamily, hP⟩ := Transition.run_of_reaches hreach
  obtain ⟨hmem, hid⟩ := Table.find?_eq_some.mp hi
  refine ⟨w₁, i, p, w, f, ⟨_, _, w₀, _, _, hrun, hstep, hmem, ?_, hp⟩, hfamily, hP⟩
  rw [hid, hnone]

/-- Without the condition on splits the family is paid 75 of 100 units in the fifth of ten
periods: more than the released 50 and a unit for each of its two members. -/
theorem split_breaks_schedule_cap :
    ¬ ∀ (w₁ : World State) (i₀ : VestIssue) (p₀ : VestPlan) (is : List (Ctx × Input Action))
      (w : World State) (f : Family) (t : TimePoint), Founds account w₁ i₀ p₀ →
      Transition.Run (Transition.recording (contract account).step (Family.record account))
        (fun s i => Untouched s.2 i) (w₁, .founded i₀.issueId) is (w, f) →
      w.clock ≤ t → Capped p₀ i₀ f t := by
  intro hclaim
  have hfast : FoundedRun (fun s i => Untouched s.2 i)
      (fun p i s => ¬ Capped p i s.2 s.1.clock) splitInputs := by decide
  obtain ⟨w₁, i, p, w, f, hfounds, hrun, hfails⟩ := founds_of_foundedRun hfast
  exact hfails (hclaim w₁ i p _ w f w.clock hfounds hrun (le_refl _))

/-- A split before anything is paid meets the condition, and the two rows are then paid 50
units together. -/
theorem schedule_cap_sample :
    ∃ w₁ i p is w f, Founds account w₁ i p ∧
      Transition.Run (Transition.recording (contract account).step (Family.record account))
        (fun s i => Untouched s.2 i ∧ KeepsShare s.2 s.1 i) (w₁, .founded i.issueId) is (w, f) ∧
      f.paid = 50 ∧ f.count = 2 ∧ Capped p i f w.clock := by
  have hslow : FoundedRun (fun s i => Untouched s.2 i ∧ KeepsShare s.2 s.1 i)
      (fun _ _ s => s.2.paid = 50 ∧ s.2.count = 2)
      [(.signed bob 100, .act (.transissue bob carol 1 (units 50))),
        (.signed bob 104, .act (.unlock bob 1 1)),
        (.signed carol 104, .act (.unlock carol 1 2))] := by decide
  obtain ⟨w₁, i, p, w, f, hfounds, hrun, hpaid, hcount⟩ := founds_of_foundedRun hslow
  exact ⟨w₁, i, p, _, w, f, hfounds, hrun, hpaid, hcount,
    schedule_cap hfounds hrun (le_refl _)⟩

end Sample

end Vest
end ToolkitContracts
