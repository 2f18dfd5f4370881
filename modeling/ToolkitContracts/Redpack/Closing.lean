import ToolkitContracts.Chain.Payments
import ToolkitContracts.Redpack.Conservation

/-!
# Closing every red packet

`cancel` asks for no authority, and what it returns is there. So once the red packets have expired,
anyone can cancel them all, in any order, whatever happened before: each call returns to the
creator what is left of one red packet, and at the end the account holds nothing.
-/

namespace ToolkitContracts
namespace Redpack

open Transition

/-- The time for the claims of a red packet is over. -/
def RedpackRow.Expired (r : RedpackRow) (s : State) (ctx : Ctx) : Prop :=
  r.createdAt.us + s.gstate.redpackExpiryHours * 3600 * 1000000 < ctx.now.us

instance (r : RedpackRow) (s : State) (ctx : Ctx) : Decidable (r.Expired s ctx) :=
  inferInstanceAs (Decidable (_ < _))

/-- What `cancel` returns for a code. -/
def refundOf (s : State) (code : Name) : List Transfer :=
  match s.redpacks.find? code.raw with
  | some r => r.refund
  | none => []

/-- Nobody's red packet is the contract's own. -/
def ForeignCreators (self : Name) (s : State) : Prop := ∀ r ∈ s.redpacks, r.creator ≠ self

section Creators
variable {self : Name} {ctx : Ctx} {s s' : State} {outs : List Transfer} {w w' : World State}
  {is : List (Ctx × Input Action)} {clock : TimePoint}

/-- A deposit stores a red packet of the account that sent it. -/
theorem creator_of_handleDeposit {n : Notice} {parts : List (List Char)}
    (h : handleDeposit ctx n parts s = .ok (s', outs)) :
    ∀ r ∈ s'.redpacks, r ∈ s.redpacks ∨ r.creator = n.sender := by
  simp only [handleDeposit, bind_eq_ok, checkc_eq_ok, pure_eq_ok, exists_const, Prod.mk.injEq] at h
  obtain ⟨-, -, -, code, -, -, typeName, -, assignType, -, did, -, count, -, -, -, coverCode, -,
    -, -, redpacks, hput, rfl, -⟩ := h
  intro r hr
  rcases (mem_of_emplace hput).mp hr with rfl | hold
  · exact Or.inr rfl
  · exact Or.inl hold

theorem creator_of_ontransfer {n : Notice} (hfee : s.gstate.unwrapFeeRequired = false)
    (h : ontransfer self ctx n s = .ok (s', outs)) :
    ∀ r ∈ s'.redpacks, r ∈ s.redpacks ∨ r.creator = n.sender := by
  unfold ontransfer tokenTransfer at h
  split at h
  · split at h
    · rw [Except.ok.injEq, Prod.mk.injEq] at h
      exact fun r hr => Or.inl (h.1 ▸ hr)
    · simp only [bind_eq_ok, checkc_eq_ok, exists_const] at h
      obtain ⟨-, -, -, h⟩ := h
      split at h
      · simp only [bind_eq_ok, checkc_eq_ok, exists_const] at h
        exact creator_of_handleDeposit h.2
      · split at h
        · -- no fee is required
          simp only [handleFeePayment, bind_eq_ok, checkc_eq_ok, exists_const, hfee] at h
          obtain ⟨-, -, hfalse, -⟩ := h
          cases hfalse
        · split at h
          · cases h
          · cases h
  · rw [Except.ok.injEq, Prod.mk.injEq] at h
    exact fun r hr => Or.inl (h.1 ▸ hr)

/-- An action leaves the creators of the red packets as they are. -/
theorem creator_of_act {a : Action} (hm : Move self ctx s (.act a) s' outs) :
    ∀ r ∈ s'.redpacks, ∃ r' ∈ s.redpacks, r'.creator = r.creator := by
  cases hm with
  | configure | setglobalidx | delclaims => exact fun r hr => ⟨r, hr, rfl⟩
  | cancel r₁ hr₁ => exact fun r hr => ⟨r, (Table.mem_erase.mp hr).1, rfl⟩
  | claimredpack r₁ claimer pwhash dids assigned rest hr₁ =>
    intro r hr
    rcases Table.mem_put.mp hr with rfl | ⟨hold, -⟩
    · exact ⟨r₁, (Table.find?_eq_some.mp hr₁.stored).1, rfl⟩
    · exact ⟨r, hold, rfl⟩

theorem foreignCreators_of_step {i : Ctx × Input Action}
    (hfee : w.state.gstate.unwrapFeeRequired = false) (h : ForeignCreators self w.state)
    (hs : (contract self).step w i = .ok w') : ForeignCreators self w'.state := by
  obtain ⟨-, hsigner, -, outs, hcode, -⟩ := ((contract self).step_eq_ok).mp hs
  obtain ⟨ctx, input⟩ := i
  intro r hr
  cases input with
  | notify n =>
    rcases creator_of_ontransfer hfee hcode r hr with hold | hnew
    · exact h r hold
    · rw [hnew]
      exact Contract.sender_ne hsigner
  | act a =>
    obtain ⟨r', hr', hsame⟩ := creator_of_act (move_of_run hfee hcode) r hr
    rw [← hsame]
    exact h r' hr'

/-- In every run, whatever is done to the counters, the red packets are covered, and none is the
contract's own. -/
theorem covered_of_run
    (hrun : Run (contract self).step Unrestricted (genesis clock) is w) :
    Covered w ∧ ForeignCreators self w.state := by
  refine hrun.invariant (P := fun w => Covered w ∧ ForeignCreators self w.state) ?_ ?_
  · rintro w i w' ⟨hcovered, hforeign⟩ - hs
    exact ⟨covered_of_step hcovered hs, foreignCreators_of_step hcovered.fee hforeign hs⟩
  · exact ⟨(solvent_genesis clock).covered, fun r hr => absurd hr (Table.not_mem_empty r)⟩

end Creators

/-! ## One call -/

section Calls
variable {self : Name} {ctx : Ctx} {w w₀ : World State} {r : RedpackRow} {code : Name}
  {calls : List (Ctx × Name)} {is : List (Ctx × Input Action)} {clock : TimePoint}

/-- What is kept for the codes, as it was in the state `s`. -/
def keeping (s : State) : Contract.Keeping State Name where
  has := fun s code => ∃ r ∈ s.redpacks, r.code = code
  ready := fun s call => ∀ r ∈ s.redpacks, r.code = call.2 → r.Expired s call.1
  pays := refundOf s

/-- The red packets that are left are as they were in the state `s`. -/
structure Closing (account : Name) (s : State) (w : World State) : Prop where
  covered : Covered w
  foreign : ForeignCreators account w.state
  left : ∀ r ∈ w.state.redpacks, r ∈ s.redpacks
  gstate : w.state.gstate = s.gstate

/-- An expired red packet is cancelled by anyone. -/
theorem cancel_of (hr : r ∈ w.state.redpacks) (hexpired : r.Expired w.state ctx) :
    cancel ctx r.code w.state
      = .ok ({ w.state with redpacks := w.state.redpacks.erase r.code.raw }, r.refund) := by
  have hpassed : r.createdAt.us + w.state.gstate.redpackExpiryHours * 3600 * 1000000
      < ctx.now.us := hexpired
  unfold cancel
  rw [Table.find?_self hr, require, ok_bind, checkc_of hpassed]
  rfl

/-- The account can pay what `cancel` orders. -/
theorem refund_settles (h : Covered w) (hforeign : ForeignCreators self w.state)
    (hr : r ∈ w.state.redpacks) : ∃ holding, settle self w.holding r.refund = .ok holding := by
  have hcovered := remaining_le_holding h hr
  have htoken : (⟨r.remainingQuant.symbol, r.tokenContract⟩ : ExtendedSymbol) = r.token := by
    rw [(h.sound r hr).symbol]
    rfl
  unfold RedpackRow.refund
  split
  · next hpays =>
    refine ⟨_, settle_singleton (hforeign r hr) hpays.2 ?_⟩
    show r.remainingQuant.amount ≤ w.holding ⟨r.remainingQuant.symbol, r.tokenContract⟩
    rw [htoken]
    exact hcovered
  · exact ⟨w.holding, rfl⟩

/-- Cancelling one red packet leaves the others to be cancelled. -/
theorem closing_of_cancel {s : State} {call : Ctx × Name} (h : Closing self s w)
    (hhas : (keeping s).has w.state call.2) (hready : (keeping s).ready w.state call)
    (hclock : w.clock ≤ call.1.now) :
    ∃ s' holding, exec self call.1 (.cancel call.2) w.state = .ok (s', refundOf s call.2) ∧
      settle self w.holding (refundOf s call.2) = .ok holding ∧
      Closing self s ⟨s', holding, call.1.now⟩ ∧
      (∀ code, (keeping s).has s' code ↔ (keeping s).has w.state code ∧ code ≠ call.2) ∧
      ∀ next, (keeping s).has w.state next.2 → (keeping s).ready w.state next →
        (keeping s).ready s' next := by
  obtain ⟨ctx, code⟩ := call
  obtain ⟨r, hr, rfl⟩ := hhas
  have hrefund : refundOf s r.code = r.refund := by
    unfold refundOf
    rw [Table.find?_self (h.left r hr)]
  have hexec := cancel_of hr (hready r hr rfl)
  obtain ⟨holding, hsettle⟩ := refund_settles h.covered h.foreign hr
  have hstep : (contract self).step w (ctx, .act (.cancel r.code))
      = .ok ⟨{ w.state with redpacks := w.state.redpacks.erase r.code.raw }, holding, ctx.now⟩ :=
    ((contract self).step_eq_ok).mpr ⟨hclock, Contract.signer?_act _ _, rfl, _, hexec, hsettle⟩
  rw [hrefund]
  refine ⟨_, holding, hexec, hsettle, ⟨covered_of_step h.covered hstep,
    foreignCreators_of_step h.covered.fee h.foreign hstep, ?_, h.gstate⟩, fun code => ?_, ?_⟩
  · exact fun r' hr' => h.left r' (Table.mem_erase.mp hr').1
  · constructor
    · rintro ⟨r', hr', rfl⟩
      obtain ⟨hold, hne⟩ := Table.mem_erase.mp hr'
      exact ⟨⟨r', hold, rfl⟩, fun he => hne (congrArg Name.raw he)⟩
    · rintro ⟨⟨r', hr', rfl⟩, hne⟩
      exact ⟨r', Table.mem_erase.mpr ⟨hr', fun he => hne (Name.raw_inj.mp he)⟩, rfl⟩
  · exact fun next _ hnext r' hr' hcode => hnext r' (Table.mem_erase.mp hr').1 hcode

/-! ## All of them -/

/-- In every reachable state, calls of `cancel` that name each red packet once, by whomever and in
whatever order, all go through once the red packets have expired. What they send is what is left of
each red packet, to its creator; and then there is no red packet, and the account holds nothing of
the handled tokens. -/
theorem closed_of_run (hrun : Run (contract self).step Unrestricted (genesis clock) is w)
    (hnodup : (calls.map Prod.snd).Nodup)
    (hall : ∀ code, (∃ r ∈ w.state.redpacks, r.code = code) ↔ code ∈ calls.map Prod.snd)
    (hexpired : ∀ call ∈ calls, ∀ r ∈ w.state.redpacks, r.code = call.2 → r.Expired w.state call.1)
    (hclock : ∀ call ∈ calls, w.clock ≤ call.1.now)
    (horder : calls.Pairwise fun a b => a.1.now ≤ b.1.now) :
    ∃ w', Run (contract self).stepPaying Unrestricted (w, [])
        (calls.map (Contract.clearing .cancel))
        (w', calls.flatMap fun call => refundOf w.state call.2) ∧
      (∀ r, r ∉ w'.state.redpacks) ∧ ∀ x, x.contract ∈ handledBanks → w'.holding x = 0 := by
  obtain ⟨hcovered, hforeign⟩ := covered_of_run hrun
  obtain ⟨w', hrun', hclosing, hnone⟩ := Contract.run_of_clears (C := contract self)
    (keeping w.state) .cancel (fun w₁ call h hhas hready hnow => closing_of_cancel h hhas hready hnow)
    ⟨hcovered, hforeign, fun r hr => hr, rfl⟩ hnodup hall hexpired hclock horder
  have hempty : ∀ r, r ∉ w'.state.redpacks := fun r hr => hnone r.code ⟨r, hr, rfl⟩
  refine ⟨w', hrun', hempty, fun x hx => ?_⟩
  rw [hclosing.covered.holding x hx]
  exact Table.sum_eq_zero fun r hr => absurd hr (hempty r)

end Calls

/-! ## Two red packets -/

namespace Sample

def present : Name := .lit "present"

/-- A red packet of which a share is taken, and another that nobody claimed. -/
def twoOpen : List (Ctx × Input Action) :=
  oneClaimed ++ [deposit 100 400 (by omega) "awrap:present:random:0:2::cover"]

/-- Bob cancels one and Carol the other. -/
def cancels : List (Ctx × Name) := [(.signed bob 102, present), (.signed carol 103, gift)]

theorem closed_of_run_sample :
    ∃ w w' paid, Run (contract account).step Unrestricted (genesis (.ofDays 100)) twoOpen w ∧
      w.holding ⟨flon, bank⟩ = 600 ∧
      Run (contract account).stepPaying Unrestricted (w, [])
        (cancels.map (Contract.clearing .cancel)) (w', paid) ∧
      w'.holding ⟨flon, bank⟩ = 0 := by
  have hreach : Reaches (contract account).step Unrestricted (fun w =>
      w.holding ⟨flon, bank⟩ = 600 ∧ w.clock = .ofDays 100 ∧
      w.state.redpacks.rows.map RedpackRow.code = [gift, present] ∧
      ∀ call ∈ cancels, ∀ r ∈ w.state.redpacks.rows, r.code = call.2 → r.Expired w.state call.1)
      twoOpen (genesis (.ofDays 100)) := by decide
  obtain ⟨w, hrun, hholding, hnow, hcodes, hexpired⟩ := run_of_reaches hreach
  have hall : ∀ code, (∃ r ∈ w.state.redpacks, r.code = code) ↔ code ∈ cancels.map Prod.snd := by
    intro code
    have hmem : (∃ r ∈ w.state.redpacks, r.code = code)
        ↔ code ∈ w.state.redpacks.rows.map RedpackRow.code := List.mem_map.symm
    rw [hmem, hcodes]
    simp [cancels, or_comm]
  have hclock : ∀ call ∈ cancels, w.clock ≤ call.1.now := by
    rw [hnow]
    decide
  obtain ⟨w', hrun', -, hempty⟩ :=
    closed_of_run hrun (by decide) hall hexpired hclock (by decide)
  exact ⟨w, w', _, hrun, hholding, hrun', hempty _ (by decide)⟩

end Sample

end Redpack
end ToolkitContracts
