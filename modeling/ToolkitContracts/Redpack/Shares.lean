import ToolkitContracts.Redpack.Depletion
import ToolkitContracts.Redpack.Repeat

/-!
# Random shares

While several shares are left of a `RANDOM` red packet, there is something to draw whatever was
drawn before. Only the last one may find nothing: two shares of 200 units may be drawn as 200
and nothing. As long as the draw before the last share leaves something, each share can be claimed
and the shares add up to the total.
-/

namespace ToolkitContracts
namespace Redpack

open Drawing

/-! ## The guard and the property -/

/-- When two shares are left, the seed draws less than all that is left. -/
def LeavesLast (ctx : Ctx) (r : RedpackRow) : Prop :=
  r.assignType = .random → r.remainingCount = 2 →
    share ctx.seed.toNat (smallestUnit r.precision) r.remainingQuant.amount 2
      < r.remainingQuant.amount

instance (ctx : Ctx) (r : RedpackRow) : Decidable (LeavesLast ctx r) :=
  inferInstanceAs (Decidable (_ → _))

/-- The guard of the runs: deposits under the code are clean, draws under the code leave something
for the last claimer, and the counter of claims does not run out. -/
def SparesLast (self code : Name) (w : World State) (i : Ctx × Input Action) : Prop :=
  CleanCode self code w i ∧
    match i.2 with
    | .act (.claimredpack _ code' _ _) =>
      w.state.globalidx.lastClaimId + 1 < 2 ^ 64 ∧
        (code' = code → ∀ r ∈ w.state.redpacks.find? code.raw, LeavesLast i.1 r)
    | _ => True

instance (self code : Name) (w : World State) (i : Ctx × Input Action) :
    Decidable (SparesLast self code w i) := by
  rcases i with ⟨ctx, n | a⟩
  · dsimp only [SparesLast]
    infer_instance
  · rcases a with _ | _ | _ | _ | _ | _ | _ <;> dsimp only [SparesLast] <;> infer_instance

/-- The administrator's next claim, for an existing account that has no claim on the red packet,
goes through and pays that account a positive amount. -/
def NextClaimPays (self : Name) (w : World State) (r : RedpackRow) : Prop :=
  ∀ (ctx : Ctx) (claimer : Name) (dids : List DidBalance), w.clock ≤ ctx.now →
  ctx.hasAuth w.state.gstate.claimAdmin = true → ctx.isAccount claimer = true → claimer ≠ self →
  (∀ c ∈ w.state.claims, c.redpackId = r.redpackId → c.claimer ≠ claimer) →
    ∃ w' t, (contract self).step w (ctx, .act (.claimredpack claimer r.code r.passwdHash dids))
        = .ok w' ∧
      exec self ctx (.claimredpack claimer r.code r.passwdHash dids) w.state = .ok (w'.state, [t]) ∧
      t.recipient = claimer ∧ 0 < t.quantity.amount

/-- Every share of the random red packet under the code can be claimed, and all shares
together are the total. -/
def SharesClaimable (self code : Name) (w : World State) : Prop :=
  ∀ r ∈ w.state.redpacks.find? code.raw, r.assignType = .random → r.didRequired = false →
    r.precision ≤ 18 →
    (0 < r.remainingCount → 0 < r.remainingQuant.amount ∧ NextClaimPays self w r) ∧
    ((claimsOf r.redpackId w.state).length = r.totalCount →
      r.status = .finished ∧ r.remainingQuant.amount = 0 ∧
      ((claimsOf r.redpackId w.state).map fun c => c.quantity.amount).sum = r.totalQuant.amount)

/-- Something is left for the shares that are left. -/
def RedpackRow.Funded (r : RedpackRow) : Prop :=
  r.assignType = .random → r.precision ≤ 18 → 0 < r.remainingCount → 0 < r.remainingQuant.amount

/-- Claim ids run from one to the last id handed out. -/
structure ClaimIds (s : State) : Prop where
  last : s.globalidx.lastClaimId < 2 ^ 64
  ids : ∀ c ∈ s.claims, 0 < c.id ∧ c.id ≤ s.globalidx.lastClaimId

/-! ## What a move leaves -/

section Moves
variable {self code : Name} {ctx : Ctx} {s s' : State} {i : Input Action} {outs : List Transfer}
  {r : RedpackRow} {n : Notice} {claimer : Name} {pwhash : List Char} {dids : List DidBalance}
  {assigned rest : Asset}

/-- A cushioned red packet with several shares left is funded. -/
theorem RedpackRow.Cushioned.funded (h : r.Cushioned) (hn : 2 ≤ r.remainingCount) : r.Funded := by
  intro hrandom hprecision _
  have hcushion : 0 < cushion (smallestUnit r.precision) r.remainingCount := by
    apply Int.mul_pos
    · omega
    · omega
  exact hcushion.trans_le (h hrandom hprecision)

/-- A new red packet is funded. -/
theorem Fresh.funded (hr : Fresh ctx n s r) : r.Funded := by
  intro _ _ _
  rw [hr.remaining]
  exact hr.quantPos

/-- A draw that leaves something for the last share leaves the red packet funded. -/
theorem RedpackRow.Cushioned.funded_claimed (h : r.Cushioned) (hsound : r.Sound)
    (hassign : assign ctx r = .ok assigned)
    (hpos : 0 < assigned.amount) (hrest : r.remainingQuant.sub assigned = .ok rest)
    (hcushioned : (r.claimed rest ctx.now).Cushioned) (hleaves : LeavesLast ctx r) :
    (r.claimed rest ctx.now).Funded := by
  intro hrandom hprecision hleft
  have hleft' : 0 < r.remainingCount - 1 := hleft
  by_cases hlast : r.remainingCount = 2
  · have hprecision' : r.precision ≤ 18 := by
      rw [← precision_claimed hrest ctx.now]
      exact hprecision
    have hchoices := h.choices_pos hrandom hprecision' hlast.ge
    obtain ⟨a, ha, -, hshare⟩ :=
      assign_random ctx hsound hrandom hprecision' hlast.ge hchoices
    obtain rfl : a = assigned := Except.ok.inj (ha.symm.trans hassign)
    -- what was drawn is the share that the guard speaks about
    have hless := hleaves hrandom hlast
    rw [hlast] at hshare
    show 0 < rest.amount
    rw [claimed_amount hsound hpos hrest, hshare]
    exact sub_pos.mpr hless
  · refine hcushioned.funded ?_ hrandom hprecision hleft
    show 2 ≤ r.remainingCount - 1
    omega

theorem funded_of_move (hbooked : Booked s) (hcushioned : ∀ r ∈ s.redpacks, r.Cushioned)
    (hcushioned' : ∀ r ∈ s'.redpacks, r.Cushioned)
    (h : ∀ r ∈ s.redpacks, r.code = code → r.Funded)
    (hm : Move self ctx s i s' outs) (hpos : ∀ t ∈ outs, 0 < t.quantity.amount)
    (hleaves : ∀ claimer pwhash dids, i = .act (.claimredpack claimer code pwhash dids) →
      ∀ r ∈ s.redpacks.find? code.raw, LeavesLast ctx r) :
    ∀ r ∈ s'.redpacks, r.code = code → r.Funded := by
  cases hm with
  | ignore | configure | setglobalidx | delclaims => exact h
  | deposit n r hto hbank hr => exact Table.forall_put h fun _ => hr.funded
  | claimredpack r claimer pwhash dids assigned rest hr hassign hsymbol hle hrest hid =>
    refine Table.forall_put h fun hcode => ?_
    have hcode' : r.code = code := hcode
    subst hcode'
    have hmem := (Table.find?_eq_some.mp hr.stored).1
    exact (hcushioned r hmem).funded_claimed (hbooked.sound r hmem) hassign
      (hpos _ (List.mem_singleton.mpr rfl)) hrest (hcushioned' _ (Table.mem_put_self _ _))
      (hleaves claimer pwhash dids rfl r hr.stored)
  | cancel r hr => exact Table.forall_erase h

theorem claimIds_of_move (h : ClaimIds s) (hm : Move self ctx s i s' outs)
    (hnumbered : Numbered i)
    (hroom : ∀ claimer code pwhash dids, i = .act (.claimredpack claimer code pwhash dids) →
      s.globalidx.lastClaimId + 1 < 2 ^ 64) : ClaimIds s' := by
  cases hm with
  | ignore | configure | cancel | deposit => exact ⟨h.last, h.ids⟩
  | setglobalidx a b globalidx => exact absurd hnumbered id
  | claimredpack r claimer pwhash dids assigned rest hr hassign hsymbol hle hrest hid =>
    have hlt := hroom _ _ _ _ rfl
    have hword := u64_eq (x := (s.globalidx.lastClaimId : ℤ) + 1) (by omega) (by omega)
    refine ⟨?_, Table.forall_put (fun c hc => ?_) ?_⟩
    · show u64 (s.globalidx.lastClaimId + 1) < 2 ^ 64
      omega
    · have hids := h.ids c hc
      show 0 < c.id ∧ c.id ≤ u64 (s.globalidx.lastClaimId + 1)
      omega
    · show 0 < u64 (s.globalidx.lastClaimId + 1)
        ∧ u64 (s.globalidx.lastClaimId + 1) ≤ u64 (s.globalidx.lastClaimId + 1)
      omega
  | delclaims maxRows erased hsub hstale =>
    exact ⟨h.last, fun c hc => h.ids c (Table.mem_eraseAll.mp hc).1⟩

/-- The next claim id is not in use. -/
theorem ClaimIds.find?_next (h : ClaimIds s) :
    s.claims.find? (u64 (s.globalidx.lastClaimId + 1)) = none := by
  refine Table.find?_eq_none.mpr fun c hc => ?_
  have hids := h.ids c hc
  have hlast := h.last
  unfold u64
  omega

/-- While shares are left of a funded red packet, every seed draws a share of it. -/
theorem assign_of_funded (ctx : Ctx) (h : r.Funded) (hcushioned : r.Cushioned) (hsound : r.Sound)
    (hrandom : r.assignType = .random) (hprecision : r.precision ≤ 18)
    (hcount : 0 < r.remainingCount) :
    ∃ a, assign ctx r = .ok a ∧ r.remainingQuant.symbol = a.symbol ∧ 0 < a.amount ∧
      a.amount ≤ r.remainingQuant.amount := by
  have hpos := h hrandom hprecision hcount
  by_cases hlast : r.remainingCount = 1
  · exact ⟨r.remainingQuant, assign_last hlast, rfl, hpos, le_refl _⟩
  · have hn : 2 ≤ r.remainingCount := by omega
    obtain ⟨hunit, -⟩ := smallestUnit_bounds r.precision
    have hchoices := hcushioned.choices_pos hrandom hprecision hn
    obtain ⟨a, ha, hsymbol, hshare⟩ := assign_random ctx hsound hrandom hprecision hn hchoices
    refine ⟨a, ha, hsymbol.symm, ?_, ?_⟩
    · rw [hshare]
      exact share_pos _ hunit hchoices
    · rw [hshare]
      exact share_le _ hunit hsound.remaining.1 hn hchoices

end Moves

/-! ## Whole runs -/

section Runs
variable {self code : Name} {w w' : World State} {clock : TimePoint} {r : RedpackRow}
  {is : List (Ctx × Input Action)}

/-- What holds in every state of a run whose draws leave something for the last claimer. -/
structure Claims (code : Name) (w : World State) : Prop where
  solvent : Solvent w
  linked : Linked code w.state
  cushioned : ∀ r ∈ w.state.redpacks, r.Cushioned
  funded : ∀ r ∈ w.state.redpacks, r.code = code → r.Funded
  claimIds : ClaimIds w.state

theorem nextClaimPays (h : Claims code w) (hr : r ∈ w.state.redpacks) (hcode : r.code = code)
    (hrandom : r.assignType = .random) (hdid : r.didRequired = false) (hprecision : r.precision ≤ 18)
    (hcount : 0 < r.remainingCount) : NextClaimPays self w r := by
  intro ctx claimer dids hclock hauth _ hself hfirst
  have hsound := h.solvent.booked.sound r hr
  have hfunded := h.funded r hr hcode
  obtain ⟨a, ha, hsymbol, hpos, hle⟩ :=
    assign_of_funded ctx hfunded (h.cushioned r hr) hsound hrandom hprecision hcount
  -- shares are left, so the red packet is neither finished nor waiting for a fee
  have hserving : r.status = .servicing := by
    cases hstatus : r.status with
    | created => exact absurd hstatus hsound.created
    | servicing => rfl
    | finished =>
      have hzero := hsound.finished.mp hstatus
      omega
  -- a claim under the code would be a claim on this red packet
  have hnone : findClaim claimer r.code w.state = none := by
    refine findClaim_eq_none.mpr fun c hc hclaimer hclaim => ?_
    exact hfirst c hc (h.linked c hc r hr (hclaim.trans hcode) hcode) hclaimer
  have hclaimable : Claimable ctx w.state r claimer r.passwdHash dids := by
    refine ⟨hauth, Table.find?_self hr, rfl, hnone, hserving, ?_, hcount, by omega⟩
    rw [checkDid, if_neg (by rw [hdid]; exact Bool.false_ne_true)]
  obtain ⟨w', hstep, hexec⟩ := claim_goes_through h.solvent.covered hclaimable ha hsymbol hpos hle
    h.claimIds.find?_next hclock hself
  exact ⟨w', _, hstep, hexec, rfl, hpos⟩

theorem claims_genesis (clock : TimePoint) : Claims code (genesis clock) where
  solvent := solvent_genesis clock
  linked := fun c hc => absurd hc (Table.not_mem_empty c)
  cushioned := fun r hr => absurd hr (Table.not_mem_empty r)
  funded := fun r hr => absurd hr (Table.not_mem_empty r)
  claimIds := ⟨Nat.two_pow_pos 64, fun c hc => absurd hc (Table.not_mem_empty c)⟩

theorem claims_of_step {i : Ctx × Input Action} (h : Claims code w)
    (hok : SparesLast self code w i) (hs : (contract self).step w i = .ok w') :
    Claims code w' := by
  obtain ⟨ctx, inp⟩ := i
  obtain ⟨hclean, hspares⟩ := hok
  obtain ⟨-, -, -, outs, hrun, hsettle⟩ := ((contract self).step_eq_ok).mp hs
  have hm := move_of_run h.solvent.booked.fee hrun
  have hpos : ∀ t ∈ outs, 0 < t.quantity.amount := fun t ht => (mem_of_settle hsettle ht).2
  rcases linked_of_step h.solvent h.linked hclean hs with ⟨hsolvent, hlinked⟩
  have hdrawable := drawable_of_step ⟨h.solvent.covered, h.cushioned⟩ hs
  refine ⟨hsolvent, hlinked, hdrawable.cushioned, ?_, ?_⟩
  · refine funded_of_move h.solvent.booked h.cushioned hdrawable.cushioned h.funded hm hpos ?_
    rintro claimer pwhash dids rfl
    exact hspares.2 rfl
  · refine claimIds_of_move h.claimIds hm hclean.1 ?_
    rintro claimer code' pwhash dids rfl
    exact hspares.1

/-- A draw that leaves nothing for the last claimer breaks the property. -/
theorem not_sharesClaimable_of_draw {ctx : Ctx} {claimer : Name} {pwhash : List Char}
    {dids : List DidBalance} (h : Claims code w)
    (hs : (contract self).step w (ctx, .act (.claimredpack claimer code pwhash dids)) = .ok w')
    (hr : w.state.redpacks.find? code.raw = some r) (hdid : r.didRequired = false)
    (hprecision : r.precision ≤ 18) (hbreak : ¬ LeavesLast ctx r) :
    ¬ SharesClaimable self code w' := by
  intro hshares
  simp only [LeavesLast, Classical.not_imp] at hbreak
  obtain ⟨hrandom, hlast, hnothing⟩ := hbreak
  obtain ⟨hmem, hkey⟩ := Table.find?_eq_some.mp hr
  have hsound := h.solvent.booked.sound r hmem
  obtain ⟨outs, hrun⟩ := (contract self).run_of_step hs
  obtain ⟨assigned, rest, -, hassign, hrest, -, hput, -⟩ := claimed_of_claimredpack hrun hr
  obtain ⟨hunit, -⟩ := smallestUnit_bounds r.precision
  have hchoices := (h.cushioned r hmem).choices_pos hrandom hprecision hlast.ge
  obtain ⟨a, ha, -, hshare⟩ := assign_random ctx hsound hrandom hprecision hlast.ge hchoices
  obtain rfl : a = assigned := Except.ok.inj (ha.symm.trans hassign)
  have hpos : 0 < a.amount := hshare ▸ share_pos _ hunit hchoices
  -- the red packet after the draw
  have hfind : w'.state.redpacks.find? code.raw = some (r.claimed rest ctx.now) := by
    rw [hput, Table.find?_put]
    exact if_pos hkey.symm
  have hcount : 0 < (r.claimed rest ctx.now).remainingCount := by
    show 0 < r.remainingCount - 1
    omega
  have hprecision' : (r.claimed rest ctx.now).precision ≤ 18 :=
    (precision_claimed hrest ctx.now).le.trans hprecision
  have hleft : 0 < rest.amount := ((hshares _ hfind hrandom hdid hprecision').1 hcount).1
  rw [hlast] at hshare
  rw [claimed_amount hsound hpos hrest, hshare] at hleft
  exact hnothing (sub_pos.mp hleft)

theorem sharesClaimable_of_claims (h : Claims code w) : SharesClaimable self code w := by
  intro r hr hrandom hdid hprecision
  obtain ⟨hmem, hkey⟩ := Table.find?_eq_some.mp hr
  have hcode : r.code = code := Name.raw_inj.mp hkey
  have hsound := h.solvent.booked.sound r hmem
  refine ⟨fun hcount => ⟨h.funded r hmem hcode hrandom hprecision hcount,
    nextClaimPays h hmem hcode hrandom hdid hprecision hcount⟩, fun hall => ?_⟩
  -- all shares are claimed: by the books nothing is left
  have hc := h.solvent.booked.count r hmem
  have ha := h.solvent.booked.amount r hmem
  rw [length_claimsOf] at hall
  have hzero : r.remainingCount = 0 := by omega
  have hspent := hsound.spent hzero
  refine ⟨hsound.finished.mpr hzero, hspent, ?_⟩
  rw [sum_claimsOf]
  omega

/-- In every run whose draws leave something for the last claimer, every share of a random red
packet under the code can be claimed in every state reached; when all are, it is finished and the
shares add up to the total. A draw that takes all of it with one more share left breaks this. -/
theorem every_share_claimable
    (hrun : Transition.Run (contract self).step (SparesLast self code) (genesis clock) is w) :
    SharesClaimable self code w ∧
    ∀ (ctx : Ctx) (claimer : Name) (pwhash : List Char) (dids : List DidBalance) (w' : World State),
      (contract self).step w (ctx, .act (.claimredpack claimer code pwhash dids)) = .ok w' →
      ∀ r ∈ w.state.redpacks.find? code.raw, r.didRequired = false → r.precision ≤ 18 →
      ¬ LeavesLast ctx r → ¬ SharesClaimable self code w' := by
  have h : Claims code w := hrun.invariant (P := Claims code)
    (fun _ _ _ h hok hs => claims_of_step h hok hs) (claims_genesis clock)
  refine ⟨sharesClaimable_of_claims h, ?_⟩
  intro ctx claimer pwhash dids w' hs r hr hdid hprecision hbreak
  exact not_sharesClaimable_of_draw h hs hr hdid hprecision hbreak

end Runs

/-! ## A draw that takes everything -/

namespace Sample

/-- A red packet of 200 units for two claimers. -/
def forTwo : List (Ctx × Input Action) :=
  setup ++ [deposit 100 200 (by omega) "awrap:gift:random:0:2::cover"]

/-- The first of two claimers draws all 200 units; nothing is left for the second. -/
theorem draw_takes_everything :
    ¬ ∀ (is : List (Ctx × Input Action)) (w : World State),
      Transition.Run (contract account).step NoSetglobalidx (genesis (.ofDays 100)) is w →
      is.countP (isDeposit account) < 2 ^ 64 → SharesClaimable account gift w := by
  intro hclaim
  -- the seed 1 draws the second multiple of 100, and one share is left without tokens
  have hreach : Transition.Reaches (contract account).step NoSetglobalidx (fun w =>
      ∃ r ∈ w.state.redpacks.find? gift.raw, r.assignType = .random ∧ r.didRequired = false ∧
        r.precision ≤ 18 ∧ 0 < r.remainingCount ∧ ¬ 0 < r.remainingQuant.amount)
      (forTwo ++ [claim 100 bob 1]) (genesis (.ofDays 100)) := by decide
  obtain ⟨w, hrun, r, hr, hrandom, hdid, hprecision, hcount, hnothing⟩ :=
    Transition.run_of_reaches hreach
  exact hnothing ((hclaim _ w hrun (by decide) r hr hrandom hdid hprecision).1 hcount).1

/-- When the first claimer draws 100 units, the second gets the other 100. -/
theorem every_share_claimable_sample :
    ∃ w, Transition.Run (contract account).step (SparesLast account gift)
        (genesis (.ofDays 100)) (forTwo ++ [claim 100 bob 0, claim 100 carol 1]) w ∧
      (w.state.claims.rows.map fun c => c.quantity.amount) = [100, 100] ∧
      SharesClaimable account gift w := by
  have hreach : Transition.Reaches (contract account).step (SparesLast account gift) (fun w =>
      (w.state.claims.rows.map fun c => c.quantity.amount) = [100, 100])
      (forTwo ++ [claim 100 bob 0, claim 100 carol 1]) (genesis (.ofDays 100)) := by decide
  obtain ⟨w, hrun, hrows⟩ := Transition.run_of_reaches hreach
  exact ⟨w, hrun, hrows, (every_share_claimable hrun).1⟩

end Sample

end Redpack
end ToolkitContracts
