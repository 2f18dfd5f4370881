import ToolkitContracts.PubkeyToken.Model

/-!
# What a transaction does to the booked keys

`Move` lists the successful transactions: which row each of them stores or removes, and the
transfers it orders. `move_of_run` is the only place where the contract's code is taken apart.
-/

namespace ToolkitContracts
namespace PubkeyToken

/-- The contract accepts the transfer `n` for a key. -/
structure Accepts (account : Name) (n : Notice) (pubkey : PublicKey) : Prop where
  recipient : n.recipient = account
  bank : n.bank = sysBank
  symbol : n.quantity.symbol = flonSymbol
  memo : strToPubkey n.memo = .ok pubkey

/-- The transfers `paid` are what a withdrawal of the row `row` pays out. -/
structure Pays (s : State) (row : PubkeyAccount) (paid : List Transfer) : Prop where
  stored : s.pkaccts.find? row.id = some row
  total : outflow flonToken paid = row.quantity.amount

section Moves
variable {D S : Type} [DecidableEq D] (C : Crypto D S) (self : Name)

/-- The successful transactions on the tables `s`. -/
inductive Move (ctx : Ctx) (s : State) : Input (Action S) → State → List Transfer → Prop
  | ignore (n : Notice) (hn : n.recipient ≠ self ∨ n.sender = self) :
      Move ctx s (.notify n) s []
  | book (n : Notice) (row : PubkeyAccount) (hn : Accepts self n row.pubkey)
      (hnone : s.find C ctx row.pubkey = none) (hnew : s.pkaccts.find? row.id = none)
      (hquantity : row.quantity.amount = n.quantity.amount) :
      Move ctx s (.notify n)
        { s with gstate := { s.gstate with lastIdx := row.id }, pkaccts := s.pkaccts.put row } []
  | add (n : Notice) (pubkey : PublicKey) (old row : PubkeyAccount) (hn : Accepts self n pubkey)
      (hfind : s.find C ctx pubkey = some old) (hid : s.pkaccts.find? row.id = some old)
      (hquantity : row.quantity.amount = old.quantity.amount + n.quantity.amount) :
      Move ctx s (.notify n) { s with pkaccts := s.pkaccts.put row } []
  | newaccount (miner : Name) (pubkey : PublicKey) (acct : Name) (sig : S) (row : PubkeyAccount)
      (paid : List Transfer) (hfind : s.find C ctx pubkey = some row) (hpays : Pays s row paid) :
      Move ctx s (.act (.newaccount miner pubkey acct sig))
        { s with pkaccts := s.pkaccts.erase row.id }
        ((sendNewaccount self acct pubkey).flatMap (·.charge self) ++ paid)
  | move (miner : Name) (pubkey : PublicKey) (lastRecvAt : TimePoint) (toAcct : Name) (sig : S)
      (row : PubkeyAccount) (paid : List Transfer) (hfind : s.find C ctx pubkey = some row)
      (hpays : Pays s row paid) :
      Move ctx s (.act (.move miner pubkey lastRecvAt toAcct sig))
        { s with pkaccts := s.pkaccts.erase row.id } paid
  | init (admin : Name) :
      Move ctx s (.act (.init admin)) { s with gstate := { s.gstate with admin } } []

end Moves

/-! ## Taking the code apart -/

section Lookup
variable {D S : Type} [DecidableEq D] {C : Crypto D S} {ctx : Ctx} {s : State}

/-- A row that a lookup finds is the row of its id. -/
theorem find?_of_find {pubkey : PublicKey} {row : PubkeyAccount}
    (h : s.find C ctx pubkey = some row) : s.pkaccts.find? row.id = some row := by
  have hmem : row ∈ s.pkaccts := List.mem_of_find?_eq_some h
  exact Table.find?_self hmem

end Lookup

/-- The token of a transfer of FLON from the system bank. -/
theorem token_eq_flon {t : Transfer} (hbank : t.bank = sysBank)
    (hsymbol : t.quantity.symbol = flonSymbol) : t.token = flonToken := by
  unfold Transfer.token flonToken
  rw [hbank, hsymbol]

/-- The fee and the rest make up the quantity. -/
theorem outflow_payments {quantity minerFee : FlonAsset} {miner recipient : Name}
    {feeMemo memo : List Char} {paid : List Transfer}
    (h : payments quantity minerFee miner recipient feeMemo memo = .ok paid)
    (hfee : minerFee.amount ≤ quantity.amount) : outflow flonToken paid = quantity.amount := by
  have htoken : Transfer.token ⟨sysBank, miner, minerFee.1, feeMemo⟩ = flonToken :=
    token_eq_flon rfl minerFee.2.2
  simp only [payments, bind_eq_ok, Asset.comparable_eq_ok, exists_const] at h
  replace h := h.2
  by_cases hrest : minerFee.amount < quantity.amount
  · rw [if_pos hrest] at h
    simp only [bind_eq_ok, pure_eq_ok] at h
    obtain ⟨rest, hsub, rfl⟩ := h
    -- both operands are within range, so the difference is exact
    have hamount := Asset.amount_of_sub_range hsub quantity.2.1.1 minerFee.2.1.1
    have htoken' : Transfer.token ⟨sysBank, recipient, rest, memo⟩ = flonToken :=
      token_eq_flon rfl ((Asset.symbol_of_sub hsub).trans quantity.2.2)
    rw [outflow_cons, outflow_cons, outflow_nil, if_pos htoken, if_pos htoken', add_zero]
    show minerFee.1.amount + rest.amount = quantity.1.amount
    omega
  · rw [if_neg hrest, pure_eq_ok] at h
    -- nothing is left beside the fee: the row had exactly the fee
    rw [← h, outflow_cons, outflow_nil, if_pos htoken, add_zero]
    exact le_antisymm hfee (not_lt.mp hrest)

section Inversion
variable {D S : Type} [DecidableEq D] {C : Crypto D S} {self : Name}
  {ctx : Ctx} {s s' : State} {outs : List Transfer}

theorem move_of_onPubkeyRecvToken {n : Notice} {pubkey : PublicKey} (hn : Accepts self n pubkey)
    (h : onPubkeyRecvToken C ctx pubkey ⟨n.quantity, n.valid, hn.symbol⟩ s = .ok (s', outs)) :
    Move C self ctx s (.notify n) s' outs := by
  unfold onPubkeyRecvToken at h
  cases hfind : s.find C ctx pubkey with
  | none =>
    simp only [hfind, bind_eq_ok, pure_eq_ok, emplace_eq_ok, Prod.mk.injEq] at h
    obtain ⟨pkaccts, ⟨hnew, rfl⟩, rfl, rfl⟩ := h
    refine .book n { id := _, pubkey, quantity := _, lastRecvAt := _ } hn hfind hnew ?_
    rfl
  | some old =>
    simp only [hfind, bind_eq_ok, pure_eq_ok, Prod.mk.injEq] at h
    obtain ⟨quantity, hadd, rfl, rfl⟩ := h
    have hamount := FlonAsset.amount_of_add hadd
    exact .add n pubkey old { old with quantity, lastRecvAt := _ } hn hfind (find?_of_find hfind) hamount

theorem move_of_ontransfer {n : Notice} (h : ontransfer C self ctx n s = .ok (s', outs)) :
    Move C self ctx s (.notify n) s' outs := by
  rw [ontransfer] at h
  by_cases hn : n.recipient ≠ self ∨ n.sender = self
  · rw [if_pos hn, Except.ok.injEq, Prod.mk.injEq] at h
    obtain ⟨rfl, rfl⟩ := h
    exact .ignore n hn
  · rw [if_neg hn] at h
    have hto : n.recipient = self := by
      by_contra hne
      exact hn (Or.inl hne)
    simp only [bind_eq_ok, check_eq_ok, exists_const] at h
    obtain ⟨hbank, hsymbol, -, pubkey, hmemo, hrecv⟩ := h
    exact move_of_onPubkeyRecvToken ⟨hto, hbank, hsymbol.down, hmemo⟩ hrecv

variable [DecidableEq S] [Inhabited S]

theorem move_of_exec {a : Action S} (h : exec C self ctx a s = .ok (s', outs)) :
    Move C self ctx s (.act a) s' outs := by
  cases a with
  | newaccount miner pubkey acct sig =>
    simp only [exec, newaccount, Crypto.assertRecoverKey, bind_eq_ok, check_eq_ok, require_eq_ok,
      pure_eq_ok, exists_const, Prod.mk.injEq, Ctx.requireAuth_eq_ok, Asset.comparable_eq_ok] at h
    obtain ⟨-, -, row, hfind, -, hfee, -, paid, hpaid, rfl, rfl⟩ := h
    exact .newaccount miner pubkey acct sig row paid hfind
      ⟨find?_of_find hfind, outflow_payments hpaid hfee⟩
  | move miner pubkey lastRecvAt toAcct sig =>
    simp only [exec, move, Crypto.assertRecoverKey, bind_eq_ok, check_eq_ok, require_eq_ok,
      pure_eq_ok, exists_const, Prod.mk.injEq, Asset.comparable_eq_ok] at h
    obtain ⟨-, -, -, row, hfind, -, hfee, -, -, paid, hpaid, rfl, rfl⟩ := h
    exact .move miner pubkey lastRecvAt toAcct sig row paid hfind
      ⟨find?_of_find hfind, outflow_payments hpaid hfee⟩
  | init admin =>
    simp only [exec, PubkeyToken.init, bind_eq_ok, checkc_eq_ok, pure_eq_ok, exists_const,
      Prod.mk.injEq] at h
    obtain ⟨-, rfl, rfl⟩ := h
    exact .init admin

/-- Every successful transaction is one of the moves. -/
theorem move_of_run {i : Input (Action S)}
    (h : (contract C self).run ctx i s = .ok (s', outs)) : Move C self ctx s i s' outs := by
  cases i with
  | notify n => exact move_of_ontransfer h
  | act a => exact move_of_exec h

end Inversion

end PubkeyToken
end ToolkitContracts
