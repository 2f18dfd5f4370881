import ToolkitContracts.Redpack.Moves

/-!
# Purging claims

`delclaims` walks through the claim rows with an iterator, erases those whose code is not in use and
stops after the number of rows that it was asked for. It remembers the codes that it did not find.
Its loop is that of `delclaims` on the list of the rows: neither the erasing nor the memory makes a
difference, and what goes is the first of the orphans.
-/

namespace ToolkitContracts
namespace Redpack

/-! ## The loop with its iterator -/

/-- The variables of the loop: the claims that are left, the row at which the iterator stands, the
codes that were looked up in vain, and how many rows were erased. -/
structure Purge where
  claims : Table Claim.id
  claimItr : Option Claim
  missingRedpacks : List Name
  count : ℕ

namespace Purge

/-- `claim_itr = claim_idx.erase(claim_itr)` and `count++`. -/
def erase (p : Purge) (c : Claim) : Purge :=
  { p with
    claims := p.claims.erase c.id
    claimItr := (p.claims.erase c.id).next? c.id
    count := p.count + 1 }

/-- A round of the loop, at the row `c`. -/
def round (s : State) (p : Purge) (c : Claim) : Purge :=
  if c.redpackCode ∈ p.missingRedpacks then p.erase c
  else if (s.redpacks.find? c.redpackCode.raw).isNone = true then
    { p.erase c with missingRedpacks := c.redpackCode :: p.missingRedpacks }
  else { p with claimItr := p.claims.next? c.id }

/-- The loop. -/
def loop (maxRows : ℕ) (s : State) : ℕ → Purge → Option Purge
  | 0, _ => none
  | fuel + 1, p =>
    if p.count < maxRows then
      match p.claimItr with
      | some c => loop maxRows s fuel (p.round s c)
      | none => some p
    else some p

/-- The variables before the loop. -/
def start (s : State) : Purge := ⟨s.claims, s.claims.rows.head?, [], 0⟩

end Purge

/-- `delclaims` with the iterator and the memory of its loop. -/
def purge (maxRows : ℕ) (s : State) : Except Abort (Effect State) := do
  let p ← require (Purge.loop maxRows s (s.claims.rows.length + 1) (.start s)) none
    "transaction deadline exceeded"
  checkc (0 < p.count) Err.noneDeleted.code "delete invalid"
  return ({ s with claims := p.claims }, [])

/-- The claims, in the order of their ids, whose code has no red packet. -/
def State.orphans (s : State) : List Claim := s.claims.rows.filter s.orphaned

section Purging
variable {s : State} {p : Purge} {passed rest : List Claim} {c : Claim} {maxRows count : ℕ}

/-! ## The invariant -/

/-- The iterator stands between the rows that were passed over and those to come, and the codes in
memory are not in use. -/
structure Purge.At (s : State) (passed rest : List Claim) (p : Purge) : Prop where
  rows : p.claims.rows = passed ++ rest
  itr : p.claimItr = rest.head?
  missing : ∀ code ∈ p.missingRedpacks, s.redpacks.find? code.raw = none

/-- A row whose code is not in use is erased, whether the code is in memory or not. -/
theorem Purge.At.round_stale (h : p.At s passed (c :: rest)) (hstale : s.Stale c) :
    (p.round s c).At s passed rest ∧ (p.round s c).claims = p.claims.erase c.id ∧
      (p.round s c).count = p.count + 1 := by
  have hrows := Table.rows_erase h.rows
  have hnext := Table.next?_erase h.rows
  unfold Purge.round
  split
  · exact ⟨⟨hrows, hnext, h.missing⟩, rfl, rfl⟩
  · rw [if_pos (Option.isNone_iff_eq_none.mpr hstale)]
    refine ⟨⟨hrows, hnext, fun code hcode => ?_⟩, rfl, rfl⟩
    rcases List.mem_cons.mp hcode with rfl | hcode
    · exact hstale
    · exact h.missing code hcode

/-- A row whose code is in use is passed over. -/
theorem Purge.At.round_used (h : p.At s passed (c :: rest)) (hused : ¬ s.Stale c) :
    (p.round s c).At s (passed ++ [c]) rest ∧ (p.round s c).claims = p.claims ∧
      (p.round s c).count = p.count := by
  unfold Purge.round
  rw [if_neg fun hmem => hused (h.missing _ hmem),
    if_neg fun hnone => hused (Option.isNone_iff_eq_none.mp hnone)]
  exact ⟨⟨h.rows.trans (List.append_cons ..), Table.next?_of_rows h.rows, h.missing⟩, rfl, rfl⟩

/-- The loop ends, and does on the table what the loop over the list of the rows does. -/
theorem Purge.At.loop_eq (maxRows : ℕ) (h : p.At s passed rest) :
    ∃ q, (∀ fuel, rest.length < fuel → Purge.loop maxRows s fuel p = some q) ∧
      delclaimsFrom maxRows s rest p.count p.claims = (q.count, q.claims) := by
  induction rest generalizing passed p with
  | nil =>
    refine ⟨p, fun fuel hfuel => ?_, rfl⟩
    obtain ⟨fuel, rfl⟩ := Nat.exists_eq_succ_of_ne_zero hfuel.ne'
    rw [Purge.loop, h.itr]
    exact ite_self _
  | cons c rest ih =>
    rw [delclaimsFrom_cons]
    by_cases hmore : p.count < maxRows
    · rw [if_pos hmore]
      obtain ⟨q, hloop, hq⟩ : ∃ q, (∀ fuel, rest.length < fuel →
          Purge.loop maxRows s fuel (p.round s c) = some q) ∧
          (if s.orphaned c = true then delclaimsFrom maxRows s rest (p.count + 1) (p.claims.erase c.id)
            else delclaimsFrom maxRows s rest p.count p.claims) = (q.count, q.claims) := by
        by_cases hstale : s.orphaned c = true
        · obtain ⟨hat, hclaims, hcount⟩ := h.round_stale (Option.isNone_iff_eq_none.mp hstale)
          rw [if_pos hstale, ← hclaims, ← hcount]
          exact ih hat
        · obtain ⟨hat, hclaims, hcount⟩ :=
            h.round_used fun hnone => hstale (Option.isNone_iff_eq_none.mpr hnone)
          rw [if_neg hstale, ← hclaims, ← hcount]
          exact ih hat
      refine ⟨q, fun fuel hfuel => ?_, hq⟩
      obtain ⟨fuel, rfl⟩ := Nat.exists_eq_succ_of_ne_zero (Nat.ne_zero_of_lt hfuel)
      rw [List.length_cons] at hfuel
      rw [Purge.loop, if_pos hmore, h.itr]
      exact hloop fuel (by omega)
    · rw [if_neg hmore]
      refine ⟨p, fun fuel hfuel => ?_, rfl⟩
      obtain ⟨fuel, rfl⟩ := Nat.exists_eq_succ_of_ne_zero (Nat.ne_zero_of_lt hfuel)
      rw [Purge.loop, if_neg hmore]

theorem Purge.start_at (s : State) : (Purge.start s).At s [] s.claims.rows :=
  ⟨rfl, rfl, fun _ hcode => absurd hcode List.not_mem_nil⟩

/-- `delclaims` is the same without iterator and memory. -/
theorem purge_eq (maxRows : ℕ) (s : State) : purge maxRows s = delclaims maxRows s := by
  obtain ⟨q, hloop, hq⟩ := (Purge.start_at s).loop_eq maxRows
  have hfrom : delclaimsFrom maxRows s s.claims.rows 0 s.claims = (q.count, q.claims) := hq
  rw [purge, delclaims, hloop _ (Nat.lt_succ_self _), hfrom]
  rfl

/-! ## The first of the orphans -/

theorem delclaims_eq (maxRows : ℕ) (s : State) :
    delclaims maxRows s = do
      checkc (0 < min maxRows s.orphans.length) Err.noneDeleted.code "delete invalid"
      return ({ s with claims := s.claims.eraseAll ((s.orphans.take maxRows).map Claim.id) }, []) := by
  rw [delclaims, delclaimsFrom_eq, Nat.zero_add]
  rfl

/-- What is left of the claims are the rows that are not among those erased. -/
theorem mem_eraseAll_orphans {n : ℕ} :
    c ∈ s.claims.eraseAll ((s.orphans.take n).map Claim.id) ↔
      c ∈ s.claims ∧ c ∉ s.orphans.take n :=
  Table.mem_eraseAll_map fun _ hd => (List.mem_filter.mp (List.mem_of_mem_take hd)).1

/-- `delclaims` removes the first orphans, as many as it was asked for, and nothing else. It fails
where there is nothing to remove, and its loop ends on every table. -/
theorem purge_spec (maxRows : ℕ) (s : State) :
    (∃ p, ∀ fuel, s.claims.rows.length < fuel → Purge.loop maxRows s fuel (.start s) = some p) ∧
    (0 < maxRows → s.orphans ≠ [] → ∃ claims, purge maxRows s = .ok ({ s with claims }, []) ∧
      ∀ c, c ∈ claims ↔ c ∈ s.claims ∧ c ∉ s.orphans.take (min maxRows s.orphans.length)) ∧
    (¬ (0 < maxRows ∧ s.orphans ≠ []) → ∃ e, purge maxRows s = .error e) := by
  obtain ⟨q, hloop, -⟩ := (Purge.start_at s).loop_eq maxRows
  refine ⟨⟨q, hloop⟩, fun hpos hne => ?_, fun hnone => ?_⟩
  · have hlen : 0 < s.orphans.length := List.length_pos_iff.mpr hne
    refine ⟨s.claims.eraseAll ((s.orphans.take maxRows).map Claim.id), ?_, fun c => ?_⟩
    · rw [purge_eq, delclaims_eq, checkc_of (by omega)]
      rfl
    · rw [mem_eraseAll_orphans, List.take_eq_take_min]
  · have hzero : ¬ 0 < min maxRows s.orphans.length := by
      intro hlt
      exact hnone ⟨by omega, List.length_pos_iff.mp (by omega)⟩
    rw [purge_eq, delclaims_eq, checkc_of_not hzero]
    exact ⟨_, rfl⟩

end Purging

namespace Sample

/-- Bob's claim with an id, under a code. -/
def claimed (id : ℕ) (code : Name) : Claim where
  id := id
  redpackId := id
  redpackCode := code
  redpackCreator := .lit "alice"
  claimer := .lit "bob"
  quantity := .lit (int64 100) sysSymbol
  claimedAt := .ofDays 101

/-- The red packet that is still there. -/
def birthday : RedpackRow where
  redpackId := 2
  code := .lit "birthday"
  assignType := .mean
  creator := .lit "alice"
  didRequired := false
  unwrappedByAdmin := true
  coverCode := .lit "cover"
  passwdHash := []
  tokenContract := .lit "flon.token"
  totalQuant := .lit (int64 200) sysSymbol
  totalCount := 2
  remainingQuant := .lit (int64 100) sysSymbol
  remainingCount := 1
  status := .servicing
  createdAt := .ofDays 101
  updatedAt := .ofDays 101

/-- Four claims, of which the second is under a code in use. -/
def purgeable : State :=
  { State.init with
    redpacks := Table.empty.put birthday
    claims := (((Table.empty.put (claimed 1 (.lit "lucky"))).put (claimed 2 birthday.code)).put
      (claimed 3 (.lit "lucky"))).put (claimed 4 (.lit "easter")) }

/-- Of three orphans the first two go, when two rows are asked for. -/
theorem purge_spec_orphans :
    ∃ claims, purge 2 purgeable = .ok ({ purgeable with claims }, []) ∧ ∀ c, c ∈ claims ↔
      c ∈ purgeable.claims ∧ c ∉ [claimed 1 (.lit "lucky"), claimed 3 (.lit "lucky")] :=
  (purge_spec 2 purgeable).2.1 (by decide) (List.cons_ne_nil _ _)

end Sample

end Redpack
end ToolkitContracts
