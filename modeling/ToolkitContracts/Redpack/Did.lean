import ToolkitContracts.Redpack.Conservation

/-!
# Red packets that require a DID

A claim on such a red packet looks for a DID of the claimer in a set in the global state. No
action puts anything into the set, the flag and the DID that `init` takes included, so the set
is empty for good and every claim is refused, whatever DID the claimer holds.
-/

namespace ToolkitContracts
namespace Redpack

/-- What `init` is told about DIDs. -/
structure DidConfig where
  supported : Bool
  did : ℕ
  contract : Name
deriving DecidableEq

def didConfig? : Input Action → Option DidConfig
  | .act (.init _ _ _ didSupported didId didContract) => some ⟨didSupported, didId, didContract⟩
  | _ => none

/-- What the last `init` of a run was told. -/
def lastConfig (is : List (Ctx × Input Action)) : Option DidConfig :=
  (is.filterMap fun i => didConfig? i.2).getLast?

/-- The rows show a positive balance of the DID. -/
def HoldsDid (did : ℕ) (rows : List DidBalance) : Prop := ∃ d ∈ rows, d.did = did ∧ 0 < d.amount

/-- The computation was refused by one of the two DID checks. -/
def RefusedByDid {β : Type} (x : Except Abort β) : Prop :=
  ∃ e, x = .error e ∧
    (e.code = some Err.didNotSupported.code ∨ e.code = some Err.didNotAuth.code)

/-- A claim is not refused by the DID checks when the claimer holds the DID, and refused when
not. -/
def DecidedByDid {β : Type} (holds : Prop) (x : Except Abort β) : Prop :=
  (holds → ¬ RefusedByDid x) ∧ (¬ holds → ∀ e, x ≠ .ok e)

/-- The red packet requires a DID, and the claimer may have a share of it but for that. -/
structure Awaits (s : State) (r : RedpackRow) (claimer : Name) : Prop where
  stored : s.redpacks.find? r.code.raw = some r
  did : r.didRequired = true
  first : findClaim claimer r.code s = none
  servicing : r.status = .servicing
  left : 0 < r.remainingCount

/-! ## The set of DIDs -/

section Steps
variable {account : Name} {ctx : Ctx} {s s' : State} {i : Input Action} {outs : List Transfer}

theorem gstate_of_handleDeposit {n : Notice} {parts : List (List Char)}
    (h : handleDeposit ctx n parts s = .ok (s', outs)) : s'.gstate = s.gstate := by
  simp only [handleDeposit, bind_eq_ok, pure_eq_ok, Prod.mk.injEq] at h
  grind

theorem gstate_of_handleFeePayment {n : Notice} {parts : List (List Char)}
    (h : handleFeePayment ctx n parts s = .ok (s', outs)) : s'.gstate = s.gstate := by
  simp only [handleFeePayment, bind_eq_ok, pure_eq_ok, Prod.mk.injEq] at h
  grind

theorem gstate_of_ontransfer {n : Notice} (h : ontransfer account ctx n s = .ok (s', outs)) :
    s'.gstate = s.gstate := by
  unfold ontransfer tokenTransfer at h
  split at h
  · split at h
    · rw [Except.ok.injEq, Prod.mk.injEq] at h
      rw [← h.1]
    · simp only [bind_eq_ok, checkc_eq_ok, exists_const] at h
      obtain ⟨-, -, -, h⟩ := h
      -- the three actions a memo may name
      split at h
      · simp only [bind_eq_ok, checkc_eq_ok, exists_const] at h
        exact gstate_of_handleDeposit h.2
      · split at h
        · simp only [bind_eq_ok, checkc_eq_ok, exists_const] at h
          exact gstate_of_handleFeePayment h.2
        · split at h
          · cases h
          · cases h
  · rw [Except.ok.injEq, Prod.mk.injEq] at h
    rw [← h.1]

/-- Only `init` writes the global state, and it leaves the set of DIDs alone. -/
theorem gstate_of_run (h : (contract account).run ctx i s = .ok (s', outs)) :
    s'.gstate.dids = s.gstate.dids ∧
      s'.gstate.didContract = ((didConfig? i).map DidConfig.contract).getD s.gstate.didContract := by
  cases i with
  | notify n =>
    rw [gstate_of_ontransfer h]
    exact ⟨rfl, rfl⟩
  | act a =>
    have hexec : exec account ctx a s = .ok (s', outs) := h
    cases a with
    | init admin claimAdmin hours didSupported didId didContract =>
      simp only [exec, Redpack.init, bind_eq_ok, checkc_eq_ok, pure_eq_ok, exists_const,
        Prod.mk.injEq] at hexec
      obtain ⟨-, -, -, -, -, rfl, -⟩ := hexec
      exact ⟨rfl, rfl⟩
    | listtoken | delisttoken | setglobalidx | claimredpack | cancel | delclaims =>
      simp only [exec, listtoken, delisttoken, setglobalidx, claimredpack, cancel, delclaims,
        bind_eq_ok, pure_eq_ok, Prod.mk.injEq] at hexec
      simp only [didConfig?, Option.map_none, Option.getD_none]
      grind

/-- With an empty set a claim is refused before it looks at the claimer's DIDs, or for want of
the administrator's authority. -/
theorem claimredpack_unsupported {r : RedpackRow} {claimer : Name} {dids : List DidBalance}
    (hempty : s.gstate.dids = []) (h : Awaits s r claimer) :
    claimredpack ctx claimer r.code r.passwdHash dids s =
      if ctx.hasAuth s.gstate.claimAdmin = true then
        .error ⟨some Err.didNotSupported.code, "DID not supported"⟩
      else .error ⟨none, "missing authority"⟩ := by
  rw [claimredpack, Ctx.requireAuth]
  split
  · next hauth =>
    rw [check_of hauth, h.stored, require, ok_bind, checkc_of rfl, checkc_of (by rw [h.first]; rfl),
      checkc_of h.servicing, checkDid, if_pos h.did, checkc_of_not (by simp [hempty]), error_bind]
  · next hauth => rw [check_of_not hauth]

end Steps

/-! ## Runs -/

section Runs
variable {account : Name} {w w' : World State} {is : List (Ctx × Input Action)}
  {clock : TimePoint}

theorem lastConfig_snoc (is : List (Ctx × Input Action)) (i : Ctx × Input Action) :
    lastConfig (is ++ [i]) = (didConfig? i.2).or (lastConfig is) := by
  unfold lastConfig
  rw [List.filterMap_append, List.getLast?_append]
  cases hconfig : didConfig? i.2 with
  | none => simp [hconfig]
  | some config => simp [hconfig]

/-- The set of DIDs stays empty, and the DID contract is that of the last `init`. -/
theorem didState_of_run
    (hrun : Transition.Run (contract account).step Transition.Unrestricted (genesis clock) is w) :
    w.state.gstate.dids = [] ∧
      ∀ config, lastConfig is = some config → w.state.gstate.didContract = config.contract := by
  refine hrun.invariant_inputs (P := fun is w => w.state.gstate.dids = [] ∧
    ∀ config, lastConfig is = some config → w.state.gstate.didContract = config.contract) ?_
    ⟨rfl, fun config hconfig => by cases hconfig⟩
  intro is w i w' hw _ hstep
  obtain ⟨outs, hrun⟩ := (contract account).run_of_step hstep
  obtain ⟨hdids, hcontract⟩ := gstate_of_run hrun
  refine ⟨hdids.trans hw.1, fun config hconfig => ?_⟩
  rw [lastConfig_snoc] at hconfig
  rw [hcontract]
  cases hinput : didConfig? i.2 with
  | none =>
    rw [hinput, Option.none_or] at hconfig
    exact hw.2 config hconfig
  | some last =>
    rw [hinput, Option.some_or, Option.some.injEq] at hconfig
    rw [← hconfig]
    rfl

/-- After any run whose last `init` said that DIDs are supported, claims look at the DID contract
that it named; and a claim that only the DID stands in the way of is decided by the DID unless
its claimer holds it and the administrator signs: then it is refused all the same. -/
theorem decided_by_did_iff {did : ℕ} {didContract : Name}
    (hrun : Transition.Run (contract account).step Transition.Unrestricted (genesis clock) is w)
    (hinit : lastConfig is = some ⟨true, did, didContract⟩) :
    w.state.gstate.didContract = didContract ∧
    ∀ (accounts : Name → Name → List DidBalance) (r : RedpackRow) (claimer : Name) (ctx : Ctx),
      Awaits w.state r claimer →
      (DecidedByDid (HoldsDid did (accounts didContract claimer))
          (exec account ctx (.claimredpack claimer r.code r.passwdHash
            (accounts didContract claimer)) w.state) ↔
        ¬ (HoldsDid did (accounts didContract claimer) ∧
          ctx.hasAuth w.state.gstate.claimAdmin = true)) := by
  obtain ⟨hempty, hcontract⟩ := didState_of_run hrun
  refine ⟨hcontract _ hinit, ?_⟩
  intro accounts r claimer ctx h
  show DecidedByDid _ (claimredpack ctx claimer r.code r.passwdHash _ w.state) ↔ _
  rw [claimredpack_unsupported hempty h]
  constructor
  · rintro ⟨hholder, -⟩ ⟨hholds, hauth⟩
    apply hholder hholds
    rw [if_pos hauth]
    exact ⟨_, rfl, Or.inl rfl⟩
  · intro hnot
    constructor
    · intro hholds
      rw [if_neg fun hauth => hnot ⟨hholds, hauth⟩]
      rintro ⟨e, he, hcode⟩
      rw [Except.error.injEq] at he
      rw [← he] at hcode
      simp at hcode
    · intro _ e
      split <;> simp

end Runs

/-! ## A holder who is refused -/

namespace Sample

/-- The DID contract. -/
def dids : Name := .lit "flon.did"

/-- Everybody holds the DID 7 there. -/
def everyoneHolds : Name → Name → List DidBalance := fun _ _ => [⟨7, 1⟩]

theorem small_deposit : (0 : ℤ) ≤ 200 ∧ (200 : ℤ) < 1000000 := by omega

/-- DIDs are supported, and Alice deposits 200 units for two claimers with a DID. -/
def forHolders : List (Ctx × Input Action) :=
  [(.signed account 100, .act (.init admin admin 24 true 7 dids)),
   (.signed admin 100, .act (.listtoken bank flon)),
   deposit 100 200 small_deposit "awrap:gift:mean:1:2::cover"]

/-- Bob may have a share of it but for the DID. -/
theorem bob_awaits : ∃ (w : World State) (r : RedpackRow),
    Transition.Run (contract account).step Transition.Unrestricted (genesis (.ofDays 100)) forHolders
      w ∧
    w.state.gstate.claimAdmin = admin ∧ Awaits w.state r bob := by
  have hreach : Transition.Reaches (contract account).step Transition.Unrestricted (fun w =>
      w.state.gstate.claimAdmin = admin ∧ (findClaim bob gift w.state).isNone = true ∧
      ∃ r ∈ w.state.redpacks.find? gift.raw, r.code = gift ∧ r.didRequired = true ∧
        r.status = .servicing ∧ 0 < r.remainingCount) forHolders (genesis (.ofDays 100)) := by
    decide
  obtain ⟨w, hrun, hadmin, hfirst, r, hr, hcode, hdid, hserving, hleft⟩ :=
    Transition.run_of_reaches hreach
  rw [Option.isNone_iff_eq_none] at hfirst
  rw [← hcode] at hr hfirst
  exact ⟨w, r, hrun, hadmin, hr, hdid, hfirst, hserving, hleft⟩

/-- Bob holds the DID, and his claim is refused by the DID check. -/
theorem holder_refused :
    ¬ ∀ (is : List (Ctx × Input Action)) (w : World State) (did : ℕ) (didContract : Name)
      (accounts : Name → Name → List DidBalance) (r : RedpackRow) (claimer : Name) (ctx : Ctx),
      Transition.Run (contract account).step Transition.Unrestricted (genesis (.ofDays 100)) is w →
      lastConfig is = some ⟨true, did, didContract⟩ → Awaits w.state r claimer →
      DecidedByDid (HoldsDid did (accounts didContract claimer))
        (exec account ctx (.claimredpack claimer r.code r.passwdHash
          (accounts didContract claimer)) w.state) := by
  intro hclaim
  obtain ⟨w, r, hrun, hadmin, hawaits⟩ := bob_awaits
  have hdecided := hclaim _ w 7 dids everyoneHolds r bob (.signed admin 100) hrun (by decide) hawaits
  have hauth : (Ctx.signed admin 100).hasAuth w.state.gstate.claimAdmin = true := by
    rw [hadmin]
    decide
  refine hdecided.1 ⟨⟨7, 1⟩, List.mem_singleton.mpr rfl, rfl, Int.one_pos⟩ ?_
  show RefusedByDid (claimredpack _ _ _ _ _ _)
  rw [claimredpack_unsupported (didState_of_run hrun).1 hawaits, if_pos hauth]
  exact ⟨_, rfl, Or.inl rfl⟩

/-- Where nobody holds a DID, Bob is refused, as he should be. -/
theorem decided_by_did_iff_sample : ∃ (w : World State) (r : RedpackRow),
    Transition.Run (contract account).step Transition.Unrestricted (genesis (.ofDays 100)) forHolders
      w ∧
    DecidedByDid (HoldsDid 7 []) (exec account (.signed admin 100)
      (.claimredpack bob r.code r.passwdHash []) w.state) := by
  obtain ⟨w, r, hrun, -, hawaits⟩ := bob_awaits
  refine ⟨w, r, hrun, ?_⟩
  apply ((decided_by_did_iff hrun (by decide : lastConfig forHolders = some ⟨true, 7, dids⟩)).2
    (fun _ _ => []) r bob (.signed admin 100) hawaits).mpr
  rintro ⟨⟨d, hd, -⟩, -⟩
  exact absurd hd List.not_mem_nil

end Sample

end Redpack
end ToolkitContracts
