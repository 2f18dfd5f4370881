import ToolkitContracts.Redpack.Conservation

/-!
# The repeat-claim check

`claimredpack` refuses an account that has a claim under the code of the red packet. That is
the right question as long as the claims under a code are the claims of the red packet stored
under it. A claim outlives its red packet, so a code that is deposited again while such
claims are left shuts their accounts out of the new red packet.
-/

namespace ToolkitContracts
namespace Redpack

/-- On a red packet that is stored under the code and in service, `claimredpack` with the
right hash refuses exactly the accounts that have claimed that red packet already. -/
def RepeatExact (self code : Name) (w : World State) : Prop :=
  ∀ r ∈ w.state.redpacks.find? code.raw, r.status = .servicing →
  ∀ (ctx : Ctx) (claimer : Name) (dids : List DidBalance),
  ctx.hasAuth w.state.gstate.claimAdmin = true →
    (exec self ctx (.claimredpack claimer code r.passwdHash dids) w.state
        = .error ⟨some Err.notRepeatReceive.code, "already claimed"⟩ ↔
      ∃ c ∈ w.state.claims, c.claimer = claimer ∧ c.redpackId = r.redpackId)

/-- The deposit is made under a code that no claim is left under. -/
def CleanDeposit (code : Name) (s : State) (n : Notice) : Prop :=
  memoCode n = .ok code → ∀ c ∈ s.claims.rows, c.redpackCode ≠ code

instance (code : Name) (s : State) (n : Notice) : Decidable (CleanDeposit code s n) :=
  inferInstanceAs (Decidable (_ → _))

/-- The guard of the runs: deposits under the code are clean, and the counter of red packets
is not reset and does not run out. -/
def CleanCode (self code : Name) (w : World State) (i : Ctx × Input Action) : Prop :=
  Numbered i.2 ∧ HasRoom self w.state i ∧
    match i.2 with
    | .notify n => isDeposit self i = true → CleanDeposit code w.state n
    | .act _ => True

instance (self : Name) (s : State) (i : Ctx × Input Action) : Decidable (HasRoom self s i) :=
  inferInstanceAs (Decidable (_ → _))

instance (self code : Name) (w : World State) (i : Ctx × Input Action) :
    Decidable (CleanCode self code w i) := by
  rcases i with ⟨ctx, n | a⟩ <;> dsimp only [CleanCode] <;> infer_instance

/-- The claims under the code are claims of the red packet stored under it. -/
def Linked (code : Name) (s : State) : Prop :=
  ∀ c ∈ s.claims, ∀ r ∈ s.redpacks, c.redpackCode = code → r.code = code →
    c.redpackId = r.redpackId

/-! ## What the check answers -/

section Check
variable {ctx : Ctx} {s : State} {r : RedpackRow} {claimer code : Name} {pwhash : List Char}
  {dids : List DidBalance}

/-- Assigning a share reports no error code. -/
theorem avoids_assign (k : ℕ) (r : RedpackRow) : Avoids k (assign ctx r) := by
  have hrand : ∀ (q : Asset) (m : ℕ), Avoids k (rand ctx q m) := by
    intro q m
    refine avoids_bind (avoids_divTrap _ _ _) fun unit => ?_
    refine avoids_bind (avoids_divTrap _ _ _) fun maxUnits => ?_
    exact avoids_bind (avoids_modTrap _ _ _) fun _ => avoids_ok _
  rw [assign]
  cases r.assignType with
  | random =>
    show Avoids k (assignRedpack ctx r)
    rw [assignRedpack]
    split
    · exact avoids_ok _
    · refine avoids_bind (avoids_divTrap _ _ _) fun quotient => ?_
      refine avoids_bind (Asset.avoids_new _ _ _) fun maxQuantity => ?_
      exact avoids_bind (hrand _ _) fun _ => Asset.avoids_new _ _ _
  | mean =>
    show Avoids k (assignMean r)
    rw [assignMean]
    split
    · exact avoids_ok _
    · exact Asset.avoids_div _ _ _

theorem avoids_checkDid : Avoids Err.notRepeatReceive.code (checkDid r dids s) := by
  rw [checkDid]
  split
  · exact avoids_bind (avoids_checkc _ _ (by decide)) fun _ => avoids_checkc _ _ (by decide)
  · exact avoids_ok _

/-- With the right hash, the error code is reported exactly when there is a claim by the
account under the code. -/
theorem claimredpack_refused (hauth : ctx.hasAuth s.gstate.claimAdmin = true)
    (hr : s.redpacks.find? code.raw = some r) :
    claimredpack ctx claimer code r.passwdHash dids s
        = .error ⟨some Err.notRepeatReceive.code, "already claimed"⟩ ↔
      ∃ c ∈ s.claims, c.claimer = claimer ∧ c.redpackCode = code := by
  rw [claimredpack, Ctx.requireAuth, check_of hauth, hr, require, ok_bind, checkc_of rfl]
  by_cases hfirst : findClaim claimer code s = none
  -- no claim under the code: this check is passed
  · rw [checkc_of (by rw [hfirst]; rfl)]
    constructor
    · -- none of the checks that follow reports this code
      intro herror
      exfalso
      revert herror
      suffices h : ∀ x : Except Abort (Effect State), Avoids Err.notRepeatReceive.code x →
          x ≠ .error ⟨some Err.notRepeatReceive.code, "already claimed"⟩ by
        refine h _ ?_
        refine avoids_bind (avoids_checkc _ _ (by decide)) fun _ => ?_
        refine avoids_bind avoids_checkDid fun _ => ?_
        refine avoids_bind (avoids_checkc _ _ (by decide)) fun _ => ?_
        refine avoids_bind (avoids_checkc _ _ (by decide)) fun _ => ?_
        refine avoids_bind (avoids_assign _ _) fun assigned => ?_
        refine avoids_bind (avoids_check _ _) fun _ => ?_
        refine avoids_bind (avoids_checkc _ _ (by decide)) fun _ => ?_
        refine avoids_bind (Asset.avoids_sub _ _ _) fun rest => ?_
        refine avoids_bind (avoids_bind (avoids_check _ _) fun _ => avoids_ok _) fun _ => ?_
        exact avoids_ok _
      intro x hx heq
      exact hx _ heq rfl
    · rintro ⟨c, hc, hclaimer, hcode⟩
      exact absurd hcode (findClaim_eq_none.mp hfirst c hc hclaimer)
  · rw [checkc_of_not (fun hnone => hfirst (Option.isNone_iff_eq_none.mp hnone))]
    constructor
    · intro _
      by_contra hno
      refine hfirst (findClaim_eq_none.mpr fun c hc hclaimer hcode => ?_)
      exact hno ⟨c, hc, hclaimer, hcode⟩
    · exact fun _ => rfl

end Check

/-! ## Runs with clean deposits -/

section Runs
variable {self code : Name} {w w' : World State} {clock : TimePoint} {ctx : Ctx} {s s' : State}
  {i : Input Action} {outs : List Transfer} {is : List (Ctx × Input Action)}

/-- A move keeps the claims under the code linked, when its deposits are clean. -/
theorem linked_of_move (h : Linked code s) (hm : Move self ctx s i s' outs)
    (hclean : ∀ n, i = .notify n → isDeposit self (ctx, i) = true → CleanDeposit code s n) :
    Linked code s' := by
  cases hm with
  | ignore | configure | setglobalidx => exact h
  | deposit n r hto hbank hr =>
    intro c hc r' hr' hcode hcode'
    rcases Table.mem_put.mp hr' with rfl | ⟨hold, -⟩
    -- no claim is left under the code of a clean deposit
    · have hn := hclean n rfl (decide_eq_true ⟨hto, hbank⟩)
      refine absurd hcode (hn ?_ c hc)
      rw [← hcode']
      exact hr.code
    · exact h c hc r' hold hcode hcode'
  | claimredpack r claimer pwhash dids assigned rest hr hassign hsymbol hle hrest hid =>
    have hmem := (Table.find?_eq_some.mp hr.stored).1
    intro c hc r' hr' hcode hcode'
    rcases Table.mem_put.mp hr' with rfl | ⟨hold, hne⟩
    · rcases Table.mem_put.mp hc with rfl | ⟨hc, -⟩
      · rfl
      · exact h c hc r hmem hcode hcode'
    · rcases Table.mem_put.mp hc with rfl | ⟨hc, -⟩
      · -- two rows under one code are one row
        refine absurd ?_ hne
        show r'.code.raw = r.code.raw
        rw [hcode']
        exact congrArg Name.raw hcode.symm
      · exact h c hc r' hold hcode hcode'
  | cancel r hr => exact fun c hc r' hr' => h c hc r' (Table.mem_erase.mp hr').1
  | delclaims maxRows erased hsub hstale =>
    exact fun c hc r' hr' => h c (Table.mem_eraseAll.mp hc).1 r' hr'

/-- Where the claims under the code are linked, the check is exact. -/
theorem repeatExact_of_linked (hbooked : Booked w.state) (h : Linked code w.state) :
    RepeatExact self code w := by
  intro r hr _ ctx claimer dids hauth
  rcases Table.find?_eq_some.mp hr with ⟨hmem, hkey⟩
  have hcode : r.code = code := Name.raw_inj.mp hkey
  refine (claimredpack_refused hauth hr).trans ?_
  -- under the code the claims of the account are those on the red packet
  constructor
  · rintro ⟨c, hc, hclaimer, hclaim⟩
    exact ⟨c, hc, hclaimer, h c hc r hmem hclaim hcode⟩
  · rintro ⟨c, hc, hclaimer, hid⟩
    exact ⟨c, hc, hclaimer, (hbooked.codes c hc r hmem hid).trans hcode⟩

/-- A step under the guard keeps the claims under the code linked. -/
theorem linked_of_step {i : Ctx × Input Action} (h : Solvent w) (hlinked : Linked code w.state)
    (hok : CleanCode self code w i) (hs : (contract self).step w i = .ok w') :
    Solvent w' ∧ Linked code w'.state := by
  rcases i with ⟨ctx, inp⟩
  rcases hok with ⟨hnumbered, hroom, hclean⟩
  rcases (contract self).run_of_step hs with ⟨outs, hrun⟩
  refine ⟨solvent_of_step h hnumbered hroom hs, ?_⟩
  refine linked_of_move hlinked (move_of_run h.booked.fee hrun) ?_
  rintro n rfl hd
  exact hclean hd

/-- A deposit under a code that a claim is left under breaks the check: the account of that
claim is refused, although it has no claim on the new red packet. -/
theorem not_repeatExact_of_deposit (h : Solvent w) {n : Notice}
    (hs : (contract self).step w (ctx, .notify n) = .ok w') (hd : isDeposit self (ctx, .notify n) = true)
    (hroom : HasRoom self w.state (ctx, .notify n)) (hunclean : ¬ CleanDeposit code w.state n) :
    ¬ RepeatExact self code w' := by
  intro hexact
  rcases ((contract self).step_eq_ok).mp hs with ⟨-, hsigner, -, outs, hrun, -⟩
  have hm := move_of_run h.booked.fee hrun
  have hto : n.recipient = self ∧ n.bank ∈ handledBanks := of_decide_eq_true hd
  simp only [CleanDeposit, not_forall, not_not] at hunclean
  rcases hunclean with ⟨hmemo, c, hc, hcode⟩
  generalize hs' : w'.state = s' at hm
  cases hm with
  | ignore n hn =>
    rcases hn with hsender | hne | hbank
    · exact Contract.sender_ne hsigner hsender
    · exact hne hto.1
    · exact hbank hto.2
  | deposit n r hto' hbank hr =>
    have hrcode : r.code = code := Except.ok.inj (hr.code.symm.trans hmemo)
    have hfind : w'.state.redpacks.find? code.raw = some r := by
      rw [hs', ← hrcode]
      exact Table.find?_self (Table.mem_put_self _ _)
    have hstored : c ∈ w'.state.claims := by
      rw [hs']
      exact hc
    -- the administrator's claim for the account of the left-over claim
    have hadmin : Ctx.hasAuth { ctx with auths := [w'.state.gstate.claimAdmin] }
        w'.state.gstate.claimAdmin = true := decide_eq_true (List.mem_singleton.mpr rfl)
    have hiff := hexact r hfind hr.status { ctx with auths := [w'.state.gstate.claimAdmin] }
      c.claimer [] hadmin
    rcases hiff.mp ((claimredpack_refused hadmin hfind).mpr ⟨c, hstored, rfl, hcode⟩)
      with ⟨c', hc', -, hid⟩
    rw [hs'] at hc'
    -- a claim recorded before the deposit has a smaller id than the new red packet
    have hlast := h.booked.lastClaimed c' hc'
    have hlt := hroom hd
    have hword := u64_eq (x := (w.state.globalidx.lastRedpackId : ℤ) + 1) (by omega) (by omega)
    have hnew := hr.redpackId
    omega

/-- In every run whose deposits under the code find no claim left under it, the check is
exact for the code in every state reached; and a deposit that does find one breaks it. -/
theorem repeat_check_exact
    (hrun : Transition.Run (contract self).step (CleanCode self code) (genesis clock) is w) :
    RepeatExact self code w ∧
    ∀ (ctx : Ctx) (n : Notice) (w' : World State),
      (contract self).step w (ctx, .notify n) = .ok w' → isDeposit self (ctx, .notify n) = true →
      HasRoom self w.state (ctx, .notify n) → ¬ CleanDeposit code w.state n →
      ¬ RepeatExact self code w' := by
  obtain ⟨hsolvent, hlinked⟩ := hrun.invariant (P := fun w => Solvent w ∧ Linked code w.state)
    (fun _ _ _ h hok hs => linked_of_step h.1 h.2 hok hs)
    ⟨solvent_genesis clock, fun c hc => absurd hc (Table.not_mem_empty c)⟩
  refine ⟨repeatExact_of_linked hsolvent.booked hlinked, ?_⟩
  intro ctx n w' hs hd hroom hunclean
  exact not_repeatExact_of_deposit hsolvent hs hd hroom hunclean

end Runs

/-! ## A code that is used again -/

namespace Sample

/-- Bob claims from a first red packet, which is cancelled when it has expired. -/
def cancelled : List (Ctx × Input Action) :=
  oneClaimed ++ [(.signed carol 102, .act (.cancel gift))]

/-- Alice deposits under the same code again. -/
def again : Ctx × Input Action := threeShares 102

/-- Bob is refused by the second red packet, which he has no claim on. -/
theorem refused_by_stale_claim :
    ¬ ∀ (is : List (Ctx × Input Action)) (w : World State),
      Transition.Run (contract account).step NoSetglobalidx (genesis (.ofDays 100)) is w →
      is.countP (isDeposit account) < 2 ^ 64 → RepeatExact account gift w := by
  intro hclaim
  -- the second red packet has no claims, and the claim for bob is refused
  have hreach : Transition.Reaches (contract account).step NoSetglobalidx (fun w =>
      (∃ r ∈ w.state.redpacks.find? gift.raw, r.status = .servicing ∧ r.passwdHash = [] ∧
        ∀ c ∈ w.state.claims.rows, c.redpackId ≠ r.redpackId) ∧
      w.state.gstate.claimAdmin = admin ∧
      Fails (exec account (.signed admin 102) (.claimredpack bob gift [] []) w.state)
        ⟨some Err.notRepeatReceive.code, "already claimed"⟩)
      (cancelled ++ [again]) (genesis (.ofDays 100)) := by decide
  obtain ⟨w, hrun, ⟨r, hr, hserving, hhash, hnone⟩, hadmin, hfails⟩ :=
    Transition.run_of_reaches hreach
  have hauth : (Ctx.signed admin 102).hasAuth w.state.gstate.claimAdmin = true := by
    rw [hadmin]
    decide
  have hexact := hclaim _ w hrun (by decide) r hr hserving (.signed admin 102) bob [] hauth
  rw [hhash] at hexact
  obtain ⟨c, hc, -, hid⟩ := hexact.mp (fails_iff.mp hfails)
  exact hnone c hc hid

/-- When the claims are purged before the second deposit, Bob may claim again. -/
theorem repeat_check_exact_sample :
    ∃ w, Transition.Run (contract account).step (CleanCode account gift) (genesis (.ofDays 100))
        (cancelled ++ [(.signed carol 102, .act (.delclaims 10)), again, claim 102 bob 0]) w ∧
      (w.state.claims.rows.map fun c => c.redpackId) = [2] ∧ RepeatExact account gift w := by
  have hreach : Transition.Reaches (contract account).step (CleanCode account gift) (fun w =>
      (w.state.claims.rows.map fun c => c.redpackId) = [2])
      (cancelled ++ [(.signed carol 102, .act (.delclaims 10)), again, claim 102 bob 0])
      (genesis (.ofDays 100)) := by decide
  obtain ⟨w, hrun, hrows⟩ := Transition.run_of_reaches hreach
  exact ⟨w, hrun, hrows, (repeat_check_exact hrun).1⟩

end Sample

end Redpack
end ToolkitContracts
