import Mathlib.Algebra.BigOperators.Group.Finset.Basic
import Mathlib.Data.Fintype.Basic
import Mathlib.Tactic.Abel
import ToolkitContracts.Lib.Transition

/-!
# Parties that send each other messages

Each party has a state of its own and a handler, which reads a message, changes the party's
state and sends messages to parties. A message is delivered together with everything that is
sent because of it, depth first, and either all of it succeeds or nothing happens. The nesting
is bounded: a delivery that goes deeper than the bound fails.

A handler sees the state of its own party only. So what a run of the network does to a party is
a run of that party alone, with other messages as its inputs, and an invariant that a party
keeps by itself it also keeps among others (`run_of_run`). The messages of that run are those
from outside and those the parties send, and whatever holds of these may be assumed of them.

What the parties pass on to each other with their messages is neither lost nor made on the way
(`sum_of_deliver`), and where every message is sent because of a larger one, the bound on the
nesting is never reached (`deliver_eq_of_rank`).
-/

namespace Network

universe u v

variable {ι : Type u} [DecidableEq ι] {σ μ : ι → Type v} {ε : Type v}

/-- A message and the party it is for. -/
abbrev Message (μ : ι → Type v) := Σ i, μ i

/-- What a party does with a message: its next state, and the messages that it sends. -/
abbrev Handler (σ μ : ι → Type v) (ε : Type v) := ∀ i, σ i → μ i → Except ε (σ i × List (Message μ))

section Deliveries
variable (handle : Handler σ μ ε) (tooDeep : ε)

/-- Deliver a message, and before the next one what is sent because of it. -/
def deliver : ℕ → (∀ i, σ i) → Message μ → Except ε (∀ i, σ i)
  | 0, _, _ => .error tooDeep
  | depth + 1, w, m =>
    match handle m.1 (w m.1) m.2 with
    | .ok (s, sent) => sent.foldlM (deliver depth) (Function.update w m.1 s)
    | .error e => .error e

/-- What a party does by itself: the messages that it sends are lost. -/
def alone (i : ι) (s : σ i) (m : μ i) : Except ε (σ i) :=
  match handle i s m with
  | .ok (s', _) => .ok s'
  | .error e => .error e

/-- Whoever receives a message with the property `P` sends only such messages. -/
def Closed (P : ∀ i, μ i → Prop) : Prop :=
  ∀ i s m s' sent, P i m → handle i s m = .ok (s', sent) → ∀ m' ∈ sent, P m'.1 m'.2

end Deliveries

section Results
variable {handle : Handler σ μ ε} {tooDeep : ε} {depth : ℕ} {w w' : ∀ i, σ i} {m : Message μ}

theorem deliver_succ_eq_ok : deliver handle tooDeep (depth + 1) w m = .ok w' ↔
    ∃ s sent, handle m.1 (w m.1) m.2 = .ok (s, sent) ∧
      sent.foldlM (deliver handle tooDeep depth) (Function.update w m.1 s) = .ok w' := by
  rw [deliver]
  cases hm : handle m.1 (w m.1) m.2 with
  | error e => simp
  | ok r =>
    obtain ⟨s, sent⟩ := r
    simp only [Except.ok.injEq, Prod.mk.injEq]
    constructor
    · intro h
      exact ⟨s, sent, ⟨rfl, rfl⟩, h⟩
    · rintro ⟨_, _, ⟨rfl, rfl⟩, h⟩
      exact h

omit [DecidableEq ι] in
theorem alone_eq_ok {i : ι} {s s' : σ i} {a : μ i} :
    alone handle i s a = .ok s' ↔ ∃ sent, handle i s a = .ok (s', sent) := by
  rw [alone]
  cases ha : handle i s a with
  | error e => simp
  | ok r =>
    obtain ⟨s₁, sent⟩ := r
    simp

/-! ## What a party sees of a run -/

variable {P : ∀ i, μ i → Prop}

/-- A delivery is, for each party, a run of that party alone. -/
theorem run_of_deliver (hclosed : Closed handle P) (hm : P m.1 m.2)
    (h : deliver handle tooDeep depth w m = .ok w') (i : ι) :
    ∃ ms, Transition.Run (alone handle i) (fun _ => P i) (w i) ms (w' i) := by
  induction depth generalizing w w' m with
  | zero => cases h
  | succ depth ih =>
    obtain ⟨s, sent, hs, hsent⟩ := deliver_succ_eq_ok.mp h
    have hall : ∀ m' ∈ sent, P m'.1 m'.2 := hclosed _ _ _ _ _ hm hs
    -- the party itself takes one step, the others none
    have hfirst : ∃ ms, Transition.Run (alone handle i) (fun _ => P i) (w i) ms
        (Function.update w m.1 s i) := by
      by_cases hi : i = m.1
      · subst hi
        rw [Function.update_self]
        exact ⟨_, Transition.Run.snoc (.nil _) hm (alone_eq_ok.mpr ⟨sent, hs⟩)⟩
      · rw [Function.update_of_ne hi]
        exact ⟨[], .nil _⟩
    -- and then the messages that it sent are delivered, one after the other
    generalize Function.update w m.1 s = w₁ at hfirst hsent
    clear hs
    induction sent generalizing w₁ with
    | nil =>
      cases hsent
      exact hfirst
    | cons m' sent ihsent =>
      rw [List.foldlM_cons] at hsent
      cases hhead : deliver handle tooDeep depth w₁ m' with
      | error e =>
        rw [hhead] at hsent
        cases hsent
      | ok w₂ =>
        rw [hhead] at hsent
        obtain ⟨ms, hms⟩ := hfirst
        obtain ⟨ms', hms'⟩ := ih (hall m' List.mem_cons_self) hhead
        exact ihsent (fun a ha => hall a (List.mem_cons_of_mem _ ha)) w₂ ⟨_, hms.trans hms'⟩ hsent

/-- A run of the network is, for each party, a run of that party alone. -/
theorem run_of_run {ok : (∀ i, σ i) → Message μ → Prop} (hclosed : Closed handle P)
    (hok : ∀ w m, ok w m → P m.1 m.2) {ms : List (Message μ)}
    (h : Transition.Run (deliver handle tooDeep depth) ok w ms w') (i : ι) :
    ∃ ms, Transition.Run (alone handle i) (fun _ => P i) (w i) ms (w' i) := by
  induction h with
  | nil => exact ⟨[], .nil _⟩
  | snoc _ hm hstep ih =>
    obtain ⟨before, hbefore⟩ := ih
    obtain ⟨after, hafter⟩ := run_of_deliver hclosed (hok _ _ hm) hstep i
    exact ⟨_, hbefore.trans hafter⟩

/-! ## Messages one after the other -/

section Folds
variable {α β : Type*} {f : β → α → Except ε β} (P : List α → β → Prop) {as : List α} {b b' : β}

/-- What holds with the steps that are left to do, through to the end. -/
theorem rest_of_foldlM (hstep : ∀ a as b b', P (a :: as) b → f b a = .ok b' → P as b')
    (hb : P as b) (h : as.foldlM f b = .ok b') : P [] b' := by
  induction as generalizing b with
  | nil =>
    cases h
    exact hb
  | cons a as ih =>
    rw [List.foldlM_cons] at h
    cases hhead : f b a with
    | error e =>
      rw [hhead] at h
      cases h
    | ok b₁ =>
      rw [hhead] at h
      exact ih (hstep a as b b₁ hb hhead) h

theorem foldlM_singleton (f : β → α → Except ε β) (a : α) (b : β) : [a].foldlM f b = f b a := by
  rw [List.foldlM_cons]
  cases f b a with
  | error e => rfl
  | ok b' => rfl

/-- Steps that succeed under conditions that the earlier ones do not change: all of them succeed
when every condition is met. -/
theorem foldlM_iff {accepts : α → Prop}
    (haccepts : ∀ a as b, P (a :: as) b → ((∃ b', f b a = .ok b') ↔ accepts a))
    (hstep : ∀ a as b b', P (a :: as) b → f b a = .ok b' → P as b') (hb : P as b) :
    (∃ b', as.foldlM f b = .ok b') ↔ ∀ a ∈ as, accepts a := by
  induction as generalizing b with
  | nil => exact iff_of_true ⟨b, rfl⟩ fun a ha => absurd ha List.not_mem_nil
  | cons a as ih =>
    rw [List.forall_mem_cons, ← haccepts a as b hb]
    constructor
    · rintro ⟨b', h⟩
      rw [List.foldlM_cons] at h
      cases hhead : f b a with
      | error e =>
        rw [hhead] at h
        cases h
      | ok b₁ =>
        rw [hhead] at h
        exact ⟨⟨b₁, rfl⟩, (ih (hstep a as b b₁ hb hhead)).mp ⟨b', h⟩⟩
    · rintro ⟨⟨b₁, hhead⟩, hall⟩
      obtain ⟨b', h⟩ := (ih (hstep a as b b₁ hb hhead)).mpr hall
      refine ⟨b', ?_⟩
      rw [List.foldlM_cons, hhead]
      exact h

end Folds

/-! ## What is passed on -/

/-- Steps that add the weights of their inputs add up to the sum of the weights. -/
theorem sum_of_foldlM {α β M : Type*} [AddCommMonoid M] {f : β → α → Except ε β} (total : β → M)
    (weight : α → M) {as : List α} {b b' : β}
    (hf : ∀ a ∈ as, ∀ b b', f b a = .ok b' → total b' = total b + weight a)
    (h : as.foldlM f b = .ok b') : total b' = total b + (as.map weight).sum := by
  induction as generalizing b with
  | nil =>
    cases h
    rw [List.map_nil, List.sum_nil, add_zero]
  | cons a as ih =>
    rw [List.foldlM_cons] at h
    cases hhead : f b a with
    | error e =>
      rw [hhead] at h
      cases h
    | ok b₁ =>
      rw [hhead] at h
      rw [ih (fun a' ha' => hf a' (List.mem_cons_of_mem _ ha')) h,
        hf a List.mem_cons_self b b₁ hhead, List.map_cons, List.sum_cons, add_assoc]

section Weights
variable [Fintype ι] {M : Type*} [AddCommGroup M] (measure : ∀ i, σ i → M) (weight : Message μ → M)

/-- Replacing the state of one party changes the sum by the difference at that party. -/
theorem sum_update (w : ∀ i, σ i) (i : ι) (s : σ i) :
    ∑ j, measure j (Function.update w i s j)
      = ∑ j, measure j (w j) + (measure i s - measure i (w i)) := by
  have hw := Finset.add_sum_erase Finset.univ (fun j => measure j (w j)) (Finset.mem_univ i)
  rw [← Finset.add_sum_erase _ _ (Finset.mem_univ i), ← hw, Function.update_self]
  have hothers : ∑ j ∈ Finset.univ.erase i, measure j (Function.update w i s j)
      = ∑ j ∈ Finset.univ.erase i, measure j (w j) := by
    refine Finset.sum_congr rfl fun j hj => ?_
    rw [Function.update_of_ne (Finset.ne_of_mem_erase hj)]
  rw [hothers]
  abel

/-- When every party passes on with its messages what it does not keep of the one it received,
a delivery adds the weight of its message to what the parties have together. -/
theorem sum_of_deliver (hstep : ∀ i s m s' sent, handle i s m = .ok (s', sent) →
      measure i s' + (sent.map weight).sum = measure i s + weight ⟨i, m⟩)
    (h : deliver handle tooDeep depth w m = .ok w') :
    ∑ i, measure i (w' i) = ∑ i, measure i (w i) + weight m := by
  induction depth generalizing w w' m with
  | zero => cases h
  | succ depth ih =>
    obtain ⟨s, sent, hs, hsent⟩ := deliver_succ_eq_ok.mp h
    have hall := sum_of_foldlM (fun w : ∀ i, σ i => ∑ i, measure i (w i)) weight
      (fun m' _ w w' h' => ih h') hsent
    have hone := hstep _ _ _ _ _ hs
    rw [hall, sum_update, add_assoc, add_right_inj, sub_add_eq_add_sub, hone, add_sub_cancel_left]

end Weights

/-! ## How deep a delivery goes -/

/-- Where every message is sent because of one of a higher rank, the bound does not matter as
long as it is above the rank. -/
theorem deliver_eq_of_rank {rank : Message μ → ℕ}
    (hrank : ∀ i s m s' sent, handle i s m = .ok (s', sent) → ∀ m' ∈ sent, rank m' < rank ⟨i, m⟩)
    {depth' : ℕ} (h : rank m < depth) (h' : rank m < depth') :
    deliver handle tooDeep depth w m = deliver handle tooDeep depth' w m := by
  induction depth generalizing depth' w m with
  | zero => exact absurd h (Nat.not_lt_zero _)
  | succ depth ih =>
    cases depth' with
    | zero => exact absurd h' (Nat.not_lt_zero _)
    | succ depth' =>
      rw [deliver, deliver]
      cases hm : handle m.1 (w m.1) m.2 with
      | error e => rfl
      | ok r =>
        obtain ⟨s, sent⟩ := r
        dsimp only
        have hsent : ∀ m' ∈ sent, rank m' < depth ∧ rank m' < depth' := by
          intro m' hm'
          have hlt : rank m' < rank m := hrank _ _ _ _ _ hm m' hm'
          omega
        -- one message after the other, with either bound
        generalize Function.update w m.1 s = w₁
        clear hm
        induction sent generalizing w₁ with
        | nil => rfl
        | cons m' sent ihsent =>
          obtain ⟨hlt, hlt'⟩ := hsent m' List.mem_cons_self
          rw [List.foldlM_cons, List.foldlM_cons, ih hlt hlt']
          cases deliver handle tooDeep depth' w₁ m' with
          | error e => rfl
          | ok w₂ => exact ihsent (fun a ha => hsent a (List.mem_cons_of_mem _ ha)) w₂

end Results

end Network
