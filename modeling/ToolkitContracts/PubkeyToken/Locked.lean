import ToolkitContracts.PubkeyToken.Lookup

/-!
# Deposits that stay

No lookup finds a row, so a deposit is never added to one and a withdrawal never goes through. What
is left of the contract is a list of deposits that grows: the table is the history of the accepted
transfers, and their tokens stay on the account.
-/

namespace ToolkitContracts
namespace PubkeyToken

open Transition

section Bookings
variable {S : Type} (self : Name)

/-- A key, the amount that was booked to it, and when. -/
abbrev Booking := PublicKey × ℤ × TimePoint

/-- What a row records. -/
def PubkeyAccount.booking (r : PubkeyAccount) : Booking := (r.pubkey, r.quantity.amount, r.lastRecvAt)

/-- What an accepted input books, if it is a transfer to the contract. -/
def booking? (i : Ctx × Input (Action S)) : Option Booking :=
  match i.2 with
  | .notify n =>
    if n.recipient = self then
      match strToPubkey n.memo with
      | .ok pubkey => some (pubkey, n.quantity.amount, i.1.now)
      | .error _ => none
    else none
  | .act _ => none

/-- What a run books. -/
def bookings (is : List (Ctx × Input (Action S))) : List Booking := is.filterMap (booking? self)

theorem bookings_snoc (is : List (Ctx × Input (Action S))) (i : Ctx × Input (Action S)) :
    bookings self (is ++ [i]) = bookings self is ++ (booking? self i).toList := by
  unfold bookings
  rw [List.filterMap_append]
  rfl

/-- The action takes tokens out. -/
def Action.Withdraws : Action S → Prop
  | .newaccount _ _ _ _ | .move _ _ _ _ _ => True
  | .init _ => False

end Bookings

/-! ## One transaction -/

section Moves
variable {D S : Type} [DecidableEq D] {C : Crypto D S} {self : Name} {ctx : Ctx} {s s' : State}
  {outs : List Transfer}

/-- An accepted transfer opens a row for what it books. -/
theorem row_of_ontransfer (hC : C.Standard) (hs : FromMemos s) {n : Notice}
    (hto : n.recipient = self) (hsender : n.sender ≠ self)
    (h : ontransfer C self ctx n s = .ok (s', outs)) :
    ∃ row, s.pkaccts.find? row.id = none ∧ s'.pkaccts = s.pkaccts.put row ∧
      booking? self (ctx, (.notify n : Input (Action S))) = some row.booking ∧
      row.quantity.amount = n.quantity.amount ∧ n.token = flonToken ∧ outs = [] := by
  rw [ontransfer, if_neg (not_or.mpr ⟨not_not.mpr hto, hsender⟩)] at h
  simp only [bind_eq_ok, check_eq_ok, exists_const] at h
  obtain ⟨hbank, hsymbol, -, pubkey, hmemo, hrecv⟩ := h
  unfold onPubkeyRecvToken at hrecv
  simp only [find_eq_none hC hs, bind_eq_ok, pure_eq_ok, emplace_eq_ok, Prod.mk.injEq] at hrecv
  obtain ⟨pkaccts, ⟨hnew, rfl⟩, rfl, rfl⟩ := hrecv
  refine ⟨_, hnew, rfl, ?_, rfl, ?_, rfl⟩
  · unfold booking?
    simp only [hto, hmemo, if_true]
    rfl
  · unfold Notice.token flonToken
    rw [hbank, hsymbol.down]

variable [DecidableEq S] [Inhabited S]

/-- An action leaves the rows alone and sends nothing. -/
theorem rows_of_act (hC : C.Standard) (hs : FromMemos s) {a : Action S}
    (h : exec C self ctx a s = .ok (s', outs)) :
    ¬ a.Withdraws ∧ s'.pkaccts = s.pkaccts ∧ outs = [] := by
  cases move_of_exec h with
  | newaccount miner pubkey acct sig row paid hfind
  | move miner pubkey lastRecvAt toAcct sig row paid hfind =>
    -- both start from a lookup
    rw [find_eq_none hC hs] at hfind
    cases hfind
  | init admin => exact ⟨id, rfl, rfl⟩

end Moves

/-! ## Runs -/

section Runs
variable {D S : Type} [DecidableEq D] [DecidableEq S] [Inhabited S] {C : Crypto D S} {self : Name}
  {clock : TimePoint} {is : List (Ctx × Input (Action S))} {w w' : World State}
  {i : Ctx × Input (Action S)}

/-- The amounts of some bookings together. -/
def total (bs : List Booking) : ℤ := (bs.map fun b => b.2.1).sum

/-- The rows are the bookings, and their tokens are there. -/
structure Locked (account : Name) (is : List (Ctx × Input (Action S))) (w : World State) :
    Prop where
  memos : FromMemos w.state
  rows : (w.state.pkaccts.rows.map PubkeyAccount.booking).Perm (bookings account is)
  holding : ∀ x, w.holding x = if x = flonToken then total (bookings account is) else 0

theorem locked_of_step (hC : C.Standard) (h : Locked self is w)
    (hs : (contract C self).step w i = .ok w') : Locked self (is ++ [i]) w' := by
  obtain ⟨-, hsigner, -, outs, hcode, hsettle⟩ := ((contract C self).step_eq_ok).mp hs
  have hmemos := fromMemos_of_move hC h.memos (move_of_run hcode)
  obtain ⟨ctx, input⟩ := i
  cases input with
  | act a =>
    obtain ⟨-, hrows, rfl⟩ := rows_of_act hC h.memos hcode
    have hnone : bookings self (is ++ [(ctx, .act a)]) = bookings self is :=
      (bookings_snoc self is _).trans (List.append_nil _)
    refine ⟨hmemos, ?_, fun x => ?_⟩
    · rw [hrows, hnone]
      exact h.rows
    · rw [settle_apply hsettle x, outflow_nil, sub_zero, hnone]
      exact h.holding x
  | notify n =>
    have hsender : n.sender ≠ self := Contract.sender_ne hsigner
    by_cases hto : n.recipient = self
    · obtain ⟨row, hnew, hrows, hbooking, hamount, htoken, rfl⟩ :=
        row_of_ontransfer hC h.memos hto hsender hcode
      have hsnoc : bookings self (is ++ [(ctx, .notify n)]) = bookings self is ++ [row.booking] := by
        rw [bookings_snoc, hbooking]
        rfl
      refine ⟨hmemos, ?_, fun x => ?_⟩
      · rw [hrows, hsnoc]
        refine ((Table.perm_put_new hnew).map _).trans ?_
        rw [List.map_cons]
        exact (h.rows.cons _).trans (List.perm_append_singleton _ _).symm
      · have hreceived := (contract C self).received_notify hto w.holding x
        have htotal : total (bookings self is ++ [row.booking])
            = total (bookings self is) + n.quantity.amount := by
          rw [← hamount]
          simp [total, PubkeyAccount.booking]
        rw [settle_apply hsettle x, outflow_nil, sub_zero, hsnoc, htotal, hreceived, h.holding x,
          htoken]
        by_cases hx : x = flonToken
        · rw [if_pos hx, if_pos hx.symm, if_pos hx]
        · rw [if_neg hx, if_neg (Ne.symm hx), if_neg hx, add_zero]
    · -- a transfer between others
      have hnone : bookings self (is ++ [(ctx, .notify n)]) = bookings self is := by
        rw [bookings_snoc]
        simp [booking?, hto]
      have hignored : ontransfer C self ctx n w.state = .ok (w'.state, outs) := hcode
      rw [ontransfer, if_pos (Or.inl hto), Except.ok.injEq, Prod.mk.injEq] at hignored
      obtain ⟨hstate, rfl⟩ := hignored
      refine ⟨hmemos, ?_, fun x => ?_⟩
      · rw [← hstate, hnone]
        exact h.rows
      · rw [settle_apply hsettle x, outflow_nil, sub_zero, hnone,
          (contract C self).received_ignored hto]
        exact h.holding x

/-- In every run the rows are the accepted transfers, one each, whatever keys they name; the account
holds all that was ever deposited, and nothing else; and no withdrawal is accepted, whoever signs
it. -/
theorem locked_of_run (hC : C.Standard)
    (hrun : Run (contract C self).step Unrestricted (genesis self clock) is w) :
    (w.state.pkaccts.rows.map PubkeyAccount.booking).Perm (bookings self is) ∧
    (∀ x, w.holding x = if x = flonToken then total (bookings self is) else 0) ∧
    ∀ (ctx : Ctx) (a : Action S), a.Withdraws → ∀ e, exec C self ctx a w.state ≠ .ok e := by
  have hlocked : Locked self is w := by
    refine hrun.invariant_inputs (P := Locked self)
      (fun _ _ _ _ h _ hs => locked_of_step hC h hs) ⟨?_, .nil, fun x => ?_⟩
    · exact fun r hr => absurd hr (Table.not_mem_empty r)
    · exact (ite_self 0).symm
  refine ⟨hlocked.rows, hlocked.holding, fun ctx a hwithdraws e hexec => ?_⟩
  have hcall : exec C self ctx a w.state = .ok (e.1, e.2) := hexec
  exact (rows_of_act hC hlocked.memos hcall).1 hwithdraws

end Runs

/-! ## Two deposits to one key -/

namespace Sample

/-- Alice and Bob pay to one key. -/
def twice : List (Ctx × Input (Action (List UInt8))) :=
  [depositOfAlice, deposit bob (.ofAmount 3500000 (by decide)) memo1]

theorem locked_of_run_sample :
    ∃ w, Run (contract objectImages account).step Unrestricted
        (genesis account (.ofDays 100)) twice w ∧
      w.state.pkaccts.rows.length = 2 ∧ w.holding flonToken = 5500000 ∧
      ∀ (ctx : Ctx) (a : Action (List UInt8)), a.Withdraws →
        ∀ e, exec objectImages account ctx a w.state ≠ .ok e := by
  have hreach : Reaches (contract objectImages account).step Unrestricted (fun _ => True) twice
      (genesis account (.ofDays 100)) := by decide +kernel
  obtain ⟨w, hrun, -⟩ := run_of_reaches hreach
  obtain ⟨hrows, hholding, hrefused⟩ := locked_of_run objectImages_standard hrun
  have hlength : (bookings account twice).length = 2 := by decide +kernel
  have htotal : total (bookings account twice) = 5500000 := by decide +kernel
  refine ⟨w, hrun, ?_, ?_, hrefused⟩
  · rw [← List.length_map (f := PubkeyAccount.booking), hrows.length_eq, hlength]
  · rw [hholding, if_pos rfl, htotal]

end Sample

end PubkeyToken
end ToolkitContracts
