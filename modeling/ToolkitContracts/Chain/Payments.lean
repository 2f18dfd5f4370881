import ToolkitContracts.Chain.Deployment
import ToolkitContracts.Lib.Clearing

/-!
# What a contract pays out

The transfers that a contract orders in a run, in the order in which it orders them; and the runs
that clear a contract: one call for each item that it keeps tokens for, in any order.
-/

namespace ToolkitContracts

open Transition

/-- Settled transfers overdraw nothing. -/
theorem nonneg_of_settle {self : Name} {ts : List Transfer} {h h' : Holding}
    (hs : settle self h ts = .ok h') (h0 : ∀ x, 0 ≤ h x) : ∀ x, 0 ≤ h' x := by
  induction ts generalizing h with
  | nil =>
    rw [settle, Except.ok.injEq] at hs
    exact hs ▸ h0
  | cons t ts ih =>
    simp only [settle, bind_eq_ok, check_eq_ok, exists_const] at hs
    obtain ⟨-, -, hcovered, hrest⟩ := hs
    refine ih hrest fun x => ?_
    have hx := h0 x
    rw [Holding.credit_apply]
    split
    · next heq =>
      rw [heq] at hcovered
      omega
    · omega

/-- Transfers are settled when they are positive, go to other accounts and are covered in full. -/
theorem settle_iff_of_nonneg {self : Name} {ts : List Transfer} {h : Holding}
    (h0 : ∀ x, 0 ≤ h x) : (∃ h', settle self h ts = .ok h') ↔
      (∀ t ∈ ts, t.recipient ≠ self ∧ 0 < t.quantity.amount) ∧ ∀ x, outflow x ts ≤ h x := by
  constructor
  · rintro ⟨h', hs⟩
    refine ⟨fun t ht => mem_of_settle hs ht, fun x => ?_⟩
    have hleft := nonneg_of_settle hs h0 x
    rw [settle_apply hs] at hleft
    omega
  · rintro ⟨hto, hcovered⟩
    exact settle_of_covered hto hcovered

theorem settle_append {self : Name} {ts us : List Transfer} {h h' : Holding} :
    settle self h (ts ++ us) = .ok h' ↔
      ∃ h₁, settle self h ts = .ok h₁ ∧ settle self h₁ us = .ok h' := by
  induction ts generalizing h with
  | nil => simp [settle]
  | cons t ts ih =>
    simp only [List.cons_append, settle, bind_eq_ok, check_eq_ok, exists_const, ih]
    tauto

/-- Transfers of different tokens are settled when each of them is. -/
theorem settle_iff_of_distinct {self : Name} {ts : List Transfer} {h : Holding}
    (hnodup : (ts.map Transfer.token).Nodup) : (∃ h', settle self h ts = .ok h') ↔
      ∀ t ∈ ts, t.recipient ≠ self ∧ 0 < t.quantity.amount ∧ t.quantity.amount ≤ h t.token := by
  induction ts generalizing h with
  | nil => exact ⟨fun _ t ht => absurd ht List.not_mem_nil, fun _ => ⟨h, rfl⟩⟩
  | cons t ts ih =>
    rw [List.map_cons, List.nodup_cons] at hnodup
    obtain ⟨hnew, hnodup⟩ := hnodup
    -- the first transfer leaves the tokens of the others alone
    have hother : ∀ u ∈ ts, h.credit t.token (-t.quantity.amount) u.token = h u.token := by
      intro u hu
      rw [Holding.credit_apply, if_neg, add_zero]
      intro hsame
      exact hnew (hsame ▸ List.mem_map_of_mem hu)
    rw [List.forall_mem_cons]
    constructor
    · rintro ⟨h', hs⟩
      simp only [settle, bind_eq_ok, check_eq_ok, exists_const] at hs
      obtain ⟨hto, hpos, hcovered, hrest⟩ := hs
      refine ⟨⟨hto, hpos, hcovered⟩, fun u hu => ?_⟩
      rw [← hother u hu]
      exact (ih hnodup).mp ⟨h', hrest⟩ u hu
    · rintro ⟨⟨hto, hpos, hcovered⟩, hrest⟩
      have hsettle := (ih (h := h.credit t.token (-t.quantity.amount)) hnodup).mpr fun u hu => by
        rw [hother u hu]
        exact hrest u hu
      rw [settle, check_of hto, check_of hpos, check_of hcovered]
      exact hsettle

namespace Contract

variable {σ α κ : Type} (C : Contract σ α)

/-- One transaction, with the transfers that it orders written down. -/
def stepPaying (p : World σ × List Transfer) (i : Ctx × Input α) :
    Except Abort (World σ × List Transfer) := do
  let (w, outs) ← C.order id p.1 i
  return (w, p.2 ++ outs)

variable {C} {p p' : World σ × List Transfer} {i : Ctx × Input α} {is : List (Ctx × Input α)}

theorem stepPaying_eq_ok : C.stepPaying p i = .ok p' ↔ C.step p.1 i = .ok p'.1 ∧
    ∃ outs, C.run i.1 i.2 p.1.state = .ok (p'.1.state, outs) ∧ p'.2 = p.2 ++ outs := by
  simp only [stepPaying, bind_eq_ok, pure_eq_ok, Prod.exists, order_eq_ok]
  constructor
  · rintro ⟨w, outs, ⟨hstep, hrun⟩, rfl⟩
    exact ⟨hstep, outs, hrun, rfl⟩
  · rintro ⟨hstep, outs, hrun, hpaid⟩
    exact ⟨p'.1, outs, ⟨hstep, hrun⟩, Prod.ext rfl hpaid.symm⟩

/-- Writing the transfers down changes nothing. -/
theorem run_of_stepPaying (hrun : Run C.stepPaying Unrestricted p is p') :
    Run C.step Unrestricted p.1 is p'.1 := by
  have hsim : Run C.step Unrestricted p.1 (is.map id) p'.1 :=
    hrun.simulates Prod.fst id fun _ _ _ _ hs => (stepPaying_eq_ok.mp hs).1
  rwa [List.map_id] at hsim

/-! ## Clearing a contract -/

/-- The call that clears an item away. -/
def clearing (clear : κ → α) (call : Ctx × κ) : Ctx × Input α := (call.1, .act (clear call.2))

/-- What a contract does for an item: the state keeps it, a call may clear it, and that call
orders these transfers. -/
structure Keeping (σ κ : Type) where
  has : σ → κ → Prop
  ready : σ → Ctx × κ → Prop
  pays : κ → List Transfer

/-- The store of these items; a call has to wait for its time. -/
def Keeping.store (K : Keeping σ κ) :
    Clearing.Store (World σ × List Transfer) (Ctx × κ) κ where
  clears := Prod.snd
  has := fun p => K.has p.1.state
  ready := fun p call => K.ready p.1.state call ∧ p.1.clock ≤ call.1.now
  before := fun a b => a.1.now ≤ b.1.now

/-- Calls that name every item once clear the contract, in any order in which time does not go
back, and order for each item what the contract keeps for it. -/
theorem run_of_clears (K : Keeping σ κ) (clear : κ → α) {Inv : World σ → Prop}
    (hclears : ∀ w call, Inv w → K.has w.state call.2 → K.ready w.state call →
      w.clock ≤ call.1.now → ∃ s' holding,
        C.exec call.1 (clear call.2) w.state = .ok (s', K.pays call.2) ∧
        settle C.self w.holding (K.pays call.2) = .ok holding ∧
        Inv ⟨s', holding, call.1.now⟩ ∧
        (∀ k, K.has s' k ↔ K.has w.state k ∧ k ≠ call.2) ∧
        ∀ next, K.has w.state next.2 → K.ready w.state next → K.ready s' next)
    {w : World σ} {calls : List (Ctx × κ)} (hinv : Inv w) (hnodup : (calls.map Prod.snd).Nodup)
    (hall : ∀ k, K.has w.state k ↔ k ∈ calls.map Prod.snd)
    (hready : ∀ call ∈ calls, K.ready w.state call)
    (hclock : ∀ call ∈ calls, w.clock ≤ call.1.now)
    (horder : calls.Pairwise fun a b => a.1.now ≤ b.1.now) :
    ∃ w', Run C.stepPaying Unrestricted (w, []) (calls.map (clearing clear))
        (w', calls.flatMap fun call => K.pays call.2) ∧
      Inv w' ∧ ∀ k, ¬ K.has w'.state k := by
  let step := fun p call => C.stepPaying p (clearing clear call)
  -- what is paid so far and what is still to be paid add up all along
  let sofar : List (Ctx × κ) → World σ × List Transfer → Prop := fun is p => Inv p.1 ∧
    p.2 ++ is.flatMap (fun call => K.pays call.2) = calls.flatMap fun call => K.pays call.2
  have hone : ∀ is p call, sofar (call :: is) p → K.store.has p (K.store.clears call) →
      K.store.ready p call → ∃ p', K.store.Clears step p call p' ∧ sofar is p' := by
    rintro is ⟨w, paid⟩ call ⟨hinv, hpaid⟩ hhas ⟨hready, hclock⟩
    obtain ⟨s', holding, hexec, hsettle, hinv', hhas', hready'⟩ :=
      hclears w call hinv hhas hready hclock
    refine ⟨(⟨s', holding, call.1.now⟩, paid ++ K.pays call.2), ⟨?_, hhas', ?_⟩, hinv', ?_⟩
    · refine stepPaying_eq_ok.mpr ⟨?_, K.pays call.2, hexec, rfl⟩
      exact C.step_eq_ok.mpr ⟨hclock, signer?_act _ _, rfl, K.pays call.2, hexec, hsettle⟩
    · rintro next hbefore hnext ⟨hnextReady, -⟩
      exact ⟨hready' next hnext hnextReady, hbefore⟩
    · rw [List.flatMap_cons, ← List.append_assoc] at hpaid
      exact hpaid
  have hstart : sofar calls (w, []) := ⟨hinv, List.nil_append _⟩
  obtain ⟨⟨w', paid⟩, hrun, ⟨hinv', hpaid⟩, hnone⟩ := K.store.run_of_clears hone hstart hnodup hall
    (fun call hcall => ⟨hready call hcall, hclock call hcall⟩) horder
  rw [List.flatMap_nil, List.append_nil] at hpaid
  have hsim : Run C.stepPaying Unrestricted (w, []) (calls.map (clearing clear)) (w', paid) :=
    hrun.simulates id (clearing clear) fun _ _ _ _ hs => hs
  dsimp only at hpaid
  rw [hpaid] at hsim
  exact ⟨w', hsim, hinv', hnone⟩

end Contract

end ToolkitContracts
