import ToolkitContracts.Chain.Datastream
import ToolkitContracts.Split.Model

/-!
# The stored plans of flon.split

A plan is stored as the bytes of its fields in declaration order, in the scope of the
contract's own account. `addplan` and `editplan` store rows that fit their fields' widths, so
the contract reads back what it stored. The token symbol and the rate flag keep their initial
values, since no action assigns them.
-/

namespace ToolkitContracts
namespace Split

/-! ## Bytes -/

/-- The value of `split_type`. -/
def SplitType.name : SplitType → Name
  | .auto => .lit "auto"
  | .manual => .lit "manual"

theorem SplitType.name_ne : SplitType.manual.name ≠ SplitType.auto.name := by decide

/-- `split_unit_s`. -/
def splitUnit : Codec SplitUnit where
  put u := Datastream.name.put u.tokenReceiver ++ Datastream.uint64.put u.tokenSplitAmount
  get := do
    let tokenReceiver ← Datastream.name.get
    let tokenSplitAmount ← Datastream.uint64.get
    return ⟨tokenReceiver, tokenSplitAmount⟩

/-- The `split_type` of a row; the contract stores two names only. -/
def splitType : Codec SplitType :=
  Datastream.name.imap (fun n => if n = SplitType.auto.name then .auto else .manual)
    SplitType.name

/-- `token_split_plan_t`, its fields in declaration order. -/
def tokenSplitPlan : Codec TokenSplitPlan where
  put p := Datastream.uint64.put p.id ++ (Datastream.name.put p.creator ++
    (Datastream.symbol.put p.tokenSymbol ++ (Datastream.bool.put p.splitByRate ++
    ((Datastream.vector splitUnit).put p.splitConf ++ (splitType.put p.splitType ++
    (Datastream.string.put p.title ++ Datastream.uint32.put p.createAt))))))
  get := do
    let id ← Datastream.uint64.get
    let creator ← Datastream.name.get
    let tokenSymbol ← Datastream.symbol.get
    let splitByRate ← Datastream.bool.get
    let splitConf ← (Datastream.vector splitUnit).get
    let splitType ← splitType.get
    let title ← Datastream.string.get
    let createAt ← Datastream.uint32.get
    return { id, creator, tokenSymbol, splitByRate, splitConf, splitType, title, createAt }

/-- The rows of the tables `plans`: the contract at `account` keeps its plans in its own
scope. -/
def plansTable (account : Name) (s : State) (code scope : Name) (id : ℕ) : Option (List UInt8) :=
  if code = account ∧ scope = account then (s.plans.find? id).map tokenSplitPlan.put else none

/-! ## What is stored -/

/-- The fields fit their widths, and the ones that no action assigns have their initial
values. -/
structure TokenSplitPlan.Stored (p : TokenSplitPlan) : Prop where
  id : p.id < 2 ^ 64
  tokenSymbol : p.tokenSymbol = ⟨0⟩
  splitByRate : p.splitByRate = true
  size : p.splitConf.length ≤ 50
  rate : ∀ u ∈ p.splitConf, u.tokenSplitAmount < 2 ^ 64
  title : p.title.length ≤ 255
  createAt : p.createAt < 2 ^ 32

theorem splitUnit_roundTrips {u : SplitUnit} (h : u.tokenSplitAmount < 2 ^ 64) :
    splitUnit.RoundTrips u := by
  intro rest
  show (Datastream.name.get >>= _).run ((Datastream.name.put u.tokenReceiver ++
    Datastream.uint64.put u.tokenSplitAmount) ++ rest) = _
  rw [List.append_assoc, (Datastream.name_roundTrips _).bind,
    (Datastream.uint64_roundTrips h).bind]
  rfl

theorem splitType_roundTrips (t : SplitType) : splitType.RoundTrips t := by
  apply Codec.imap_roundTrips (Datastream.name_roundTrips _)
  cases t with
  | auto => exact if_pos rfl
  | manual => exact if_neg SplitType.name_ne

/-- A stored plan is read back, when its title is a text of bytes. -/
theorem tokenSplitPlan_roundTrips {p : TokenSplitPlan} (h : p.Stored)
    (htitle : ∀ c ∈ p.title, c.toNat < 256) : tokenSplitPlan.RoundTrips p := by
  intro rest
  have hconf : (Datastream.vector splitUnit).RoundTrips p.splitConf := by
    apply Datastream.vector_roundTrips
    · have hsize := h.size
      omega
    · exact fun u hu => splitUnit_roundTrips (h.rate u hu)
  have htext : Datastream.string.RoundTrips p.title := by
    apply Datastream.string_roundTrips
    · have hsize := h.title
      omega
    · exact htitle
  simp only [tokenSplitPlan, List.append_assoc]
  rw [(Datastream.uint64_roundTrips h.id).bind, (Datastream.name_roundTrips _).bind,
    (Datastream.symbol_roundTrips _).bind, (Datastream.bool_roundTrips _).bind, hconf.bind,
    (splitType_roundTrips _).bind, htext.bind, (Datastream.uint32_roundTrips h.createAt).bind]
  rfl

/-! ## Every reachable state -/

/-- Every plan is a stored one, and the bound on the number of receivers is at most 50. -/
structure PlansStored (s : State) : Prop where
  maxSplitCount : s.gstate.maxSplitCount ≤ 50
  plans : ∀ p ∈ s.plans, p.Stored

section Steps
variable {self : Name} {ctx : Ctx} {s s' : State} {outs : List Transfer}

theorem rate_lt_of_checkRateFrom {confs : List SplitUnit} {seen : List Name} {sum r : ℕ}
    (h : checkRateFrom ctx confs seen sum = .ok r) :
    ∀ u ∈ confs, u.tokenSplitAmount < 2 ^ 64 := by
  induction confs generalizing seen sum with
  | nil => simp
  | cons c confs ih =>
    simp only [checkRateFrom, bind_eq_ok, checkc_eq_ok, exists_const] at h
    obtain ⟨-, ⟨-, hmax⟩, -, h⟩ := h
    intro u hu
    rcases List.mem_cons.mp hu with rfl | hu
    · unfold pctBoost at hmax
      omega
    · exact ih h u hu

theorem rate_lt_of_checkRate {confs : List SplitUnit} {u : Unit} (h : checkRate ctx confs = .ok u) :
    ∀ u ∈ confs, u.tokenSplitAmount < 2 ^ 64 := by
  simp only [checkRate, bind_eq_ok] at h
  obtain ⟨sum, hsum, -⟩ := h
  exact rate_lt_of_checkRateFrom hsum

theorem size_of_checkSize {size : ℕ} {u : Unit} (h : checkSize size s = .ok u) :
    size ≤ s.gstate.maxSplitCount := (checkc_eq_ok.mp h).2

/-- Paying wallets out changes no plan and no setting. -/
theorem claimall_frame {planId : ℕ} (h : claimall planId s = .ok (s', outs)) :
    s'.plans = s.plans ∧ s'.gstate = s.gstate := by
  simp only [claimall, bind_eq_ok, require_eq_ok, checkc_eq_ok, exists_const, pure_eq_ok,
    Prod.mk.injEq] at h
  obtain ⟨plan, -, -, rfl, -⟩ := h
  exact ⟨rfl, rfl⟩

theorem claim_frame {planId : ℕ} {owner : Name} (h : claim planId owner s = .ok (s', outs)) :
    s'.plans = s.plans ∧ s'.gstate = s.gstate := by
  simp only [claim, bind_eq_ok, require_eq_ok, checkc_eq_ok, exists_const, pure_eq_ok,
    Prod.mk.injEq] at h
  obtain ⟨plan, -, w, -, -, rfl, -⟩ := h
  exact ⟨rfl, rfl⟩

theorem inlineClaimall_frame {planId : ℕ} {isAuto : Bool}
    (h : inlineClaimall planId isAuto s = .ok (s', outs)) :
    s'.plans = s.plans ∧ s'.gstate = s.gstate := by
  rw [inlineClaimall] at h
  split at h
  · exact claimall_frame h
  · rw [Except.ok.injEq, Prod.mk.injEq] at h
    rw [← h.1]
    exact ⟨rfl, rfl⟩

/-- Distributing a transfer changes no plan and no setting. -/
theorem split_frame {bank : Name} {planId : ℕ} {quant : Asset}
    (h : split ctx bank planId quant s = .ok (s', outs)) :
    s'.plans = s.plans ∧ s'.gstate = s.gstate := by
  simp only [split, bind_eq_ok, require_eq_ok, pure_eq_ok, Prod.mk.injEq] at h
  obtain ⟨plan, -, ⟨rest, acc⟩, -, first, -, ⟨wallets, outs'⟩, -, rfl, -⟩ := h
  exact ⟨rfl, rfl⟩

theorem ontransfer_frame {n : Notice} (h : ontransfer self ctx n s = .ok (s', outs)) :
    s'.plans = s.plans ∧ s'.gstate = s.gstate := by
  rw [ontransfer] at h
  split at h
  · rw [Except.ok.injEq, Prod.mk.injEq] at h
    rw [← h.1]
    exact ⟨rfl, rfl⟩
  · simp only [bind_eq_ok, checkc_eq_ok, check_eq_ok, exists_const] at h
    obtain ⟨-, -, -, actionName, -, h⟩ := h
    split at h
    · simp only [bind_eq_ok] at h
      obtain ⟨planId, -, h⟩ := h
      split at h
      · simp only [bind_eq_ok] at h
        obtain ⟨boost, -, h⟩ := h
        exact split_frame h
      · exact split_frame h
    · cases h

theorem plansStored_of_exec {a : Action} (hs : PlansStored s)
    (h : exec self ctx a s = .ok (s', outs)) : PlansStored s' := by
  cases a with
  | init admin minCount maxCount =>
    simp only [exec, Split.init, bind_eq_ok, Ctx.requireAuth_eq_ok, checkc_eq_ok, exists_const,
      pure_eq_ok, Prod.mk.injEq] at h
    obtain ⟨-, -, hmax, rfl, -⟩ := h
    exact ⟨hmax.2, hs.plans⟩
  | addplan owner title conf isAuto =>
    simp only [exec, addplan, bind_eq_ok, checkc_eq_ok, exists_const, pure_eq_ok,
      Prod.mk.injEq, emplace_eq_ok] at h
    obtain ⟨-, _, hsize, htitle, _, hrate, plans, ⟨-, rfl⟩, rfl, -⟩ := h
    refine ⟨hs.maxSplitCount, Table.forall_put hs.plans ?_⟩
    exact
      { id := u64_lt (s.gstate.lastPlanId + 1)
        tokenSymbol := rfl
        splitByRate := rfl
        size := (size_of_checkSize hsize).trans hs.maxSplitCount
        rate := rate_lt_of_checkRate hrate
        title := htitle.2
        createAt := ctx.now.secSinceEpoch_lt }
  | editplan owner planId conf isAuto =>
    simp only [exec, editplan, bind_eq_ok, Ctx.requireAuth_eq_ok, require_eq_ok, checkc_eq_ok,
      exists_const] at h
    obtain ⟨-, _, hsize, _, hrate, plan, hplan, -, h⟩ := h
    obtain ⟨hplans, hglobal⟩ := inlineClaimall_frame h
    have hold := hs.plans plan (Table.find?_eq_some.mp hplan).1
    refine ⟨?_, ?_⟩
    · rw [hglobal]
      exact hs.maxSplitCount
    · rw [hplans]
      -- the edited plan keeps the fields it is not given
      refine Table.forall_put hs.plans ?_
      exact
        { id := hold.id
          tokenSymbol := hold.tokenSymbol
          splitByRate := hold.splitByRate
          size := (size_of_checkSize hsize).trans hs.maxSplitCount
          rate := rate_lt_of_checkRate hrate
          title := hold.title
          createAt := hold.createAt }
  | claim planId owner =>
    obtain ⟨hplans, hglobal⟩ := claim_frame h
    exact ⟨hglobal ▸ hs.maxSplitCount, hplans ▸ hs.plans⟩
  | claimall planId =>
    obtain ⟨hplans, hglobal⟩ := claimall_frame h
    exact ⟨hglobal ▸ hs.maxSplitCount, hplans ▸ hs.plans⟩

theorem plansStored_of_step {w w' : World State} {i : Ctx × Input Action}
    (hs : PlansStored w.state) (h : (contract self).step w i = .ok w') : PlansStored w'.state := by
  obtain ⟨outs, hrun⟩ := (contract self).run_of_step h
  obtain ⟨ctx, inp⟩ := i
  cases inp with
  | act a => exact plansStored_of_exec hs hrun
  | notify n =>
    obtain ⟨hplans, hglobal⟩ := ontransfer_frame hrun
    exact ⟨hglobal ▸ hs.maxSplitCount, hplans ▸ hs.plans⟩

end Steps

theorem plansStored_genesis (clock : TimePoint) : PlansStored (genesis clock).state :=
  ⟨Nat.le_of_ble_eq_true rfl, fun p hp => absurd hp (Table.not_mem_empty p)⟩

/-- Every plan of a reachable state is a stored one. -/
theorem plansStored_of_run {self : Name} {clock : TimePoint} {is : List (Ctx × Input Action)}
    {w : World State}
    (hrun : Transition.Run (contract self).step Transition.Unrestricted (genesis clock) is w) :
    PlansStored w.state :=
  hrun.invariant (P := fun w => PlansStored w.state)
    (fun _ _ _ hs _ h => plansStored_of_step hs h) (plansStored_genesis clock)

end Split
end ToolkitContracts
