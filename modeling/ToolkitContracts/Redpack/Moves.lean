import ToolkitContracts.Redpack.Model

/-!
# What a transaction does to the red packets

`Move` lists the successful transactions: the rows a transaction stores and removes, the
transfers it orders, and the checks it has passed. Fee payments do not appear in it, since
no action ever sets `unwrap_fee_required` and the contract refuses a fee that it does not
require. `move_of_run` is the only place where the contract's code is taken apart.
-/

namespace ToolkitContracts
namespace Redpack

/-! ## The rows a transaction stores -/

/-- The code that the memo of a deposit asks for. -/
def memoCode (n : Notice) : Except Abort Name := Name.ofText ((splitText n.memo ':').getD 1 [])

/-- The row that a deposit stores in the tables `s`. -/
structure Fresh (ctx : Ctx) (n : Notice) (s : State) (r : RedpackRow) : Prop where
  code : memoCode n = .ok r.code
  codeFree : s.redpacks.find? r.code.raw = none
  redpackId : r.redpackId = u64 (s.globalidx.lastRedpackId + 1)
  tokenContract : r.tokenContract = n.bank
  total : r.totalQuant = n.quantity
  remaining : r.remainingQuant = n.quantity
  count : r.remainingCount = r.totalCount
  countPos : 0 < r.totalCount
  quantPos : 0 < n.quantity.amount
  share : 100 ≤ n.quantity.amount.tdiv r.totalCount
  status : r.status = .servicing

/-- The red packet after a claim that leaves `rest`. -/
def RedpackRow.claimed (r : RedpackRow) (rest : Asset) (now : TimePoint) : RedpackRow :=
  { r with
    remainingQuant := rest
    remainingCount := r.remainingCount - 1
    status := if r.remainingCount - 1 = 0 then .finished else r.status
    updatedAt := now }

/-- The claim row of a claim of `assigned`. -/
def RedpackRow.claimRow (r : RedpackRow) (id : ℕ) (claimer : Name) (assigned : Asset)
    (now : TimePoint) : Claim where
  id
  redpackId := r.redpackId
  redpackCode := r.code
  redpackCreator := r.creator
  claimer
  quantity := assigned
  claimedAt := now

/-- What `claimredpack` checks before it assigns a share of the red packet `r`. -/
structure Claimable (ctx : Ctx) (s : State) (r : RedpackRow) (claimer : Name)
    (pwhash : List Char) (dids : List DidBalance) : Prop where
  auth : ctx.hasAuth s.gstate.claimAdmin = true
  stored : s.redpacks.find? r.code.raw = some r
  hash : r.passwdHash = pwhash
  first : findClaim claimer r.code s = none
  servicing : r.status = .servicing
  did : checkDid r dids s = .ok ()
  countPos : 0 < r.remainingCount
  quantPos : 0 < r.remainingQuant.amount

/-- The token a red packet is about. -/
def RedpackRow.token (r : RedpackRow) : ExtendedSymbol := ⟨r.totalQuant.symbol, r.tokenContract⟩

/-- The transfer that `cancel` orders, if there is anything to return. -/
def RedpackRow.refund (r : RedpackRow) : List Transfer :=
  if (r.status = .created ∨ r.status = .servicing) ∧ 0 < r.remainingQuant.amount
  then [⟨r.tokenContract, r.creator, r.remainingQuant, redpackMemo "returned:" r⟩]
  else []

/-- The claim row's red packet code is not in use, so that `delclaims` may erase it. -/
def State.Stale (s : State) (c : Claim) : Prop := s.redpacks.find? c.redpackCode.raw = none

/-- No red packet has the code of the claim. -/
def State.orphaned (s : State) (c : Claim) : Bool := (s.redpacks.find? c.redpackCode.raw).isNone

/-- The successful transactions on the tables `s`. -/
inductive Move (self : Name) (ctx : Ctx) (s : State) :
    Input Action → State → List Transfer → Prop
  | ignore (n : Notice) (hn : n.sender = self ∨ n.recipient ≠ self ∨ n.bank ∉ handledBanks) :
      Move self ctx s (.notify n) s []
  | deposit (n : Notice) (r : RedpackRow) (hto : n.recipient = self) (hbank : n.bank ∈ handledBanks)
      (hr : Fresh ctx n s r) :
      Move self ctx s (.notify n)
        { s with
          globalidx := { s.globalidx with lastRedpackId := u64 (s.globalidx.lastRedpackId + 1) }
          redpacks := s.redpacks.put r } []
  | configure (a : Action) (gstate : Global) (tokenlist : Table TokenRow.id)
      (hfee : gstate.unwrapFeeRequired = s.gstate.unwrapFeeRequired) :
      Move self ctx s (.act a) { s with gstate, tokenlist } []
  | setglobalidx (lastRedpackId lastClaimId : ℕ) (globalidx : GlobalIdx) :
      Move self ctx s (.act (.setglobalidx lastRedpackId lastClaimId)) { s with globalidx } []
  | claimredpack (r : RedpackRow) (claimer : Name) (pwhash : List Char) (dids : List DidBalance)
      (assigned rest : Asset) (hr : Claimable ctx s r claimer pwhash dids)
      (hassign : assign ctx r = .ok assigned)
      (hsymbol : r.remainingQuant.symbol = assigned.symbol)
      (hle : assigned.amount ≤ r.remainingQuant.amount)
      (hrest : r.remainingQuant.sub assigned = .ok rest)
      (hid : s.claims.find? (u64 (s.globalidx.lastClaimId + 1)) = none) :
      Move self ctx s (.act (.claimredpack claimer r.code pwhash dids))
        { s with
          redpacks := s.redpacks.put (r.claimed rest ctx.now)
          globalidx := { s.globalidx with lastClaimId := u64 (s.globalidx.lastClaimId + 1) }
          claims := s.claims.put
            (r.claimRow (u64 (s.globalidx.lastClaimId + 1)) claimer assigned ctx.now) }
        [⟨r.tokenContract, claimer, assigned, redpackMemo "claim:" r⟩]
  | cancel (r : RedpackRow) (hr : s.redpacks.find? r.code.raw = some r) :
      Move self ctx s (.act (.cancel r.code)) { s with redpacks := s.redpacks.erase r.code.raw }
        r.refund
  | delclaims (maxRows : ℕ) (erased : List Claim) (hsub : erased.Sublist s.claims.rows)
      (hstale : ∀ c ∈ erased, s.Stale c) :
      Move self ctx s (.act (.delclaims maxRows))
        { s with claims := s.claims.eraseAll (erased.map Claim.id) } []

/-! ## Taking the code apart -/

section Inversion
variable {self : Name} {ctx : Ctx} {s s' : State} {outs : List Transfer}

theorem move_of_handleDeposit {n : Notice} (hfee : s.gstate.unwrapFeeRequired = false)
    (hto : n.recipient = self) (hbank : n.bank ∈ handledBanks) (hquant : 0 < n.quantity.amount)
    (h : handleDeposit ctx n (splitText n.memo ':') s = .ok (s', outs)) :
    Move self ctx s (.notify n) s' outs := by
  simp only [handleDeposit, bind_eq_ok, checkc_eq_ok, require_eq_ok, exists_const, pure_eq_ok,
    Prod.mk.injEq, emplace_eq_ok, hfee, Bool.false_eq_true, if_false] at h
  obtain ⟨-, token, -, code, hcode, -, typeName, -, assignType, -, did, -, count, -, hpos, -, cover,
    -, hshare, -, redpacks, ⟨hfree, rfl⟩, rfl, rfl⟩ := h
  -- the count is positive, so it survives the conversion
  have hcount : (count.toNat : ℤ) = count := Int.toNat_of_nonneg hpos.le
  refine .deposit n _ hto hbank ?_
  refine ⟨hcode, hfree, rfl, rfl, rfl, rfl, rfl, ?_, hquant, ?_, rfl⟩
  · show 0 < count.toNat
    omega
  · show 100 ≤ n.quantity.amount.tdiv (count.toNat : ℤ)
    rw [hcount]
    exact hshare

theorem move_of_ontransfer {n : Notice} (hfee : s.gstate.unwrapFeeRequired = false)
    (h : ontransfer self ctx n s = .ok (s', outs)) : Move self ctx s (.notify n) s' outs := by
  rw [ontransfer] at h
  by_cases hbank : n.bank ∈ handledBanks
  · rw [if_pos hbank, tokenTransfer] at h
    by_cases hn : n.sender = self ∨ n.recipient ≠ self
    · rw [if_pos hn, Except.ok.injEq, Prod.mk.injEq] at h
      obtain ⟨rfl, rfl⟩ := h
      exact .ignore n (hn.imp_right Or.inl)
    · rw [if_neg hn] at h
      have hto : n.recipient = self := by
        by_contra hne
        exact hn (Or.inr hne)
      simp only [bind_eq_ok, checkc_eq_ok, exists_const] at h
      obtain ⟨hquant, -, -, h⟩ := h
      -- the three actions a memo may name
      split at h
      · simp only [bind_eq_ok, checkc_eq_ok, exists_const] at h
        exact move_of_handleDeposit hfee hto hbank hquant h.2
      · split at h
        · -- a fee that is not required is refused
          simp only [handleFeePayment, bind_eq_ok, checkc_eq_ok, exists_const, hfee] at h
          obtain ⟨-, -, hfalse, -⟩ := h
          cases hfalse
        · split at h
          · cases h
          · cases h
  · rw [if_neg hbank, Except.ok.injEq, Prod.mk.injEq] at h
    obtain ⟨rfl, rfl⟩ := h
    exact .ignore n (Or.inr (Or.inr hbank))

/-- A claim takes the assigned share out of the red packet stored under the code, and pays it. -/
theorem claimredpack_spec {claimer code : Name} {pwhash : List Char} {dids : List DidBalance}
    (h : claimredpack ctx claimer code pwhash dids s = .ok (s', outs)) :
    ∃ r assigned rest, r.code = code ∧ Claimable ctx s r claimer pwhash dids ∧
      assign ctx r = .ok assigned ∧ r.remainingQuant.symbol = assigned.symbol ∧
      assigned.amount ≤ r.remainingQuant.amount ∧ r.remainingQuant.sub assigned = .ok rest ∧
      s.claims.find? (u64 (s.globalidx.lastClaimId + 1)) = none ∧
      s' = { s with
        redpacks := s.redpacks.put (r.claimed rest ctx.now)
        globalidx := { s.globalidx with lastClaimId := u64 (s.globalidx.lastClaimId + 1) }
        claims := s.claims.put
          (r.claimRow (u64 (s.globalidx.lastClaimId + 1)) claimer assigned ctx.now) } ∧
      outs = [⟨r.tokenContract, claimer, assigned, redpackMemo "claim:" r⟩] := by
  simp only [claimredpack, bind_eq_ok, checkc_eq_ok, require_eq_ok, exists_const, pure_eq_ok,
    Prod.mk.injEq, emplace_eq_ok, Ctx.requireAuth_eq_ok, Asset.comparable_eq_ok,
    Option.isNone_iff_eq_none] at h
  obtain ⟨hauth, r, hr, hhash, hfirst, hserv, ⟨⟩, hdid, hcount, hquant, assigned, hassign, hsymbol,
    hle, rest, hrest, claims, ⟨hid, rfl⟩, rfl, rfl⟩ := h
  have hcode : r.code = code := Name.raw_inj.mp (Table.find?_eq_some.mp hr).2
  subst hcode
  exact ⟨r, assigned, rest, rfl, ⟨hauth, hr, hhash, hfirst, hserv, hdid, hcount, hquant⟩, hassign,
    hsymbol, hle, hrest, hid, rfl, rfl⟩

theorem move_of_claimredpack {claimer code : Name} {pwhash : List Char} {dids : List DidBalance}
    (h : claimredpack ctx claimer code pwhash dids s = .ok (s', outs)) :
    Move self ctx s (.act (.claimredpack claimer code pwhash dids)) s' outs := by
  obtain ⟨r, assigned, rest, rfl, hr, hassign, hsymbol, hle, hrest, hid, rfl, rfl⟩ :=
    claimredpack_spec h
  exact .claimredpack r claimer pwhash dids assigned rest hr hassign hsymbol hle hrest hid

/-- The red packet that a claim takes its share from is the one found under the code. -/
theorem claimed_of_claimredpack {claimer code : Name} {pwhash : List Char}
    {dids : List DidBalance} {r : RedpackRow}
    (h : claimredpack ctx claimer code pwhash dids s = .ok (s', outs))
    (hr : s.redpacks.find? code.raw = some r) :
    ∃ assigned rest, Claimable ctx s r claimer pwhash dids ∧ assign ctx r = .ok assigned ∧
      r.remainingQuant.sub assigned = .ok rest ∧
      s.claims.find? (u64 (s.globalidx.lastClaimId + 1)) = none ∧
      s' = { s with
        redpacks := s.redpacks.put (r.claimed rest ctx.now)
        globalidx := { s.globalidx with lastClaimId := u64 (s.globalidx.lastClaimId + 1) }
        claims := s.claims.put
          (r.claimRow (u64 (s.globalidx.lastClaimId + 1)) claimer assigned ctx.now) } ∧
      outs = [⟨r.tokenContract, claimer, assigned, redpackMemo "claim:" r⟩] := by
  obtain ⟨r', assigned, rest, rfl, hclaimable, hassign, -, -, hrest, hid, hs', houts⟩ :=
    claimredpack_spec h
  obtain rfl : r' = r := Option.some.inj (hclaimable.stored.symm.trans hr)
  exact ⟨assigned, rest, hclaimable, hassign, hrest, hid, hs', houts⟩

/-- A claim that passes the checks goes through, and orders the assigned share. -/
theorem claimredpack_of {r : RedpackRow} {claimer : Name} {pwhash : List Char}
    {dids : List DidBalance} {assigned rest : Asset} (hr : Claimable ctx s r claimer pwhash dids)
    (hassign : assign ctx r = .ok assigned) (hsymbol : r.remainingQuant.symbol = assigned.symbol)
    (hle : assigned.amount ≤ r.remainingQuant.amount)
    (hrest : r.remainingQuant.sub assigned = .ok rest)
    (hid : s.claims.find? (u64 (s.globalidx.lastClaimId + 1)) = none) :
    ∃ s', claimredpack ctx claimer r.code pwhash dids s
      = .ok (s', [⟨r.tokenContract, claimer, assigned, redpackMemo "claim:" r⟩]) := by
  rw [claimredpack, Ctx.requireAuth, check_of hr.auth, hr.stored, require, ok_bind,
    checkc_of hr.hash, checkc_of (by rw [hr.first]; rfl), checkc_of hr.servicing, hr.did, ok_bind,
    checkc_of hr.countPos, checkc_of hr.quantPos, hassign, ok_bind, Asset.comparable,
    check_of hsymbol, checkc_of hle, hrest, ok_bind]
  dsimp only
  rw [emplace, check_of (by rw [hid]; rfl)]
  exact ⟨_, rfl⟩

/-- `cancel` returns what is left of the red packet stored under the code, and erases it. -/
theorem cancel_spec {code : Name} (h : cancel ctx code s = .ok (s', outs)) :
    ∃ r, s.redpacks.find? r.code.raw = some r ∧ r.code = code ∧
      s' = { s with redpacks := s.redpacks.erase r.code.raw } ∧ outs = r.refund := by
  simp only [cancel, bind_eq_ok, checkc_eq_ok, require_eq_ok, pure_eq_ok, exists_const,
    Prod.mk.injEq] at h
  obtain ⟨r, hr, -, rfl, rfl⟩ := h
  have hcode : r.code = code := Name.raw_inj.mp (Table.find?_eq_some.mp hr).2
  subst hcode
  exact ⟨r, hr, rfl, rfl, rfl⟩

theorem delclaimsFrom_cons {maxRows count : ℕ} {c : Claim} {rest : List Claim}
    {claims : Table Claim.id} :
    delclaimsFrom maxRows s (c :: rest) count claims =
      if count < maxRows then
        if s.orphaned c = true then delclaimsFrom maxRows s rest (count + 1) (claims.erase c.id)
        else delclaimsFrom maxRows s rest count claims
      else (count, claims) := rfl

/-- The loop erases as many of the orphans to come as it may, the first ones first. -/
theorem delclaimsFrom_eq {maxRows count : ℕ} {l : List Claim} {claims : Table Claim.id} :
    delclaimsFrom maxRows s l count claims =
      (count + min (maxRows - count) (l.filter s.orphaned).length,
        claims.eraseAll (((l.filter s.orphaned).take (maxRows - count)).map Claim.id)) := by
  induction l generalizing count claims with
  | nil =>
    rw [delclaimsFrom, List.filter_nil, List.take_nil, List.map_nil, Table.eraseAll_nil,
      List.length_nil, Nat.min_zero, Nat.add_zero]
  | cons c l ih =>
    rw [delclaimsFrom_cons]
    by_cases hmore : count < maxRows
    · rw [if_pos hmore]
      by_cases hstale : s.orphaned c = true
      · have hleft : maxRows - count = maxRows - (count + 1) + 1 := by omega
        rw [if_pos hstale, ih, List.filter_cons_of_pos hstale, hleft, List.take_succ_cons,
          List.map_cons, Table.eraseAll_cons, List.length_cons, Nat.add_min_add_right]
        congr 1
        omega
      · rw [if_neg hstale, ih, List.filter_cons_of_neg hstale]
    · have hdone : maxRows - count = 0 := by omega
      rw [if_neg hmore, hdone, Nat.zero_min, Nat.add_zero, List.take_zero, List.map_nil,
        Table.eraseAll_nil]

theorem move_of_exec {a : Action} (h : exec self ctx a s = .ok (s', outs)) :
    Move self ctx s (.act a) s' outs := by
  cases a with
  | init admin claimAdmin hours didSupported didId didContract =>
    simp only [exec, Redpack.init, bind_eq_ok, checkc_eq_ok, pure_eq_ok, exists_const,
      Prod.mk.injEq, Ctx.requireAuth_eq_ok] at h
    obtain ⟨-, -, -, -, rfl, rfl⟩ := h
    exact .configure _ _ _ rfl
  | listtoken contract sym =>
    simp only [exec, listtoken, bind_eq_ok, pure_eq_ok, exists_const, Prod.mk.injEq,
      Ctx.requireAuth_eq_ok] at h
    obtain ⟨-, tid, -, rfl, rfl⟩ := h
    exact .configure _ _ _ rfl
  | delisttoken tokenId =>
    simp only [exec, delisttoken, bind_eq_ok, require_eq_ok, pure_eq_ok, exists_const,
      Prod.mk.injEq, Ctx.requireAuth_eq_ok] at h
    obtain ⟨-, token, -, rfl, rfl⟩ := h
    exact .configure _ _ _ rfl
  | setglobalidx lastRedpackId lastClaimId =>
    simp only [exec, setglobalidx, bind_eq_ok, pure_eq_ok, exists_const, Prod.mk.injEq,
      Ctx.requireAuth_eq_ok] at h
    obtain ⟨-, rfl, rfl⟩ := h
    exact .setglobalidx _ _ _
  | claimredpack claimer code pwhash dids => exact move_of_claimredpack h
  | cancel code =>
    obtain ⟨r, hr, rfl, rfl, rfl⟩ := cancel_spec h
    exact .cancel r hr
  | delclaims maxRows =>
    simp only [exec, delclaims, bind_eq_ok, checkc_eq_ok, pure_eq_ok, exists_const,
      Prod.mk.injEq] at h
    obtain ⟨-, rfl, rfl⟩ := h
    rw [delclaimsFrom_eq]
    refine .delclaims maxRows ((s.claims.rows.filter s.orphaned).take (maxRows - 0))
      ((List.take_sublist _ _).trans List.filter_sublist) fun c hc => ?_
    exact Option.isNone_iff_eq_none.mp (List.mem_filter.mp (List.mem_of_mem_take hc)).2

/-- Every successful transaction is one of the moves. -/
theorem move_of_run {i : Input Action} (hfee : s.gstate.unwrapFeeRequired = false)
    (h : (contract self).run ctx i s = .ok (s', outs)) : Move self ctx s i s' outs := by
  cases i with
  | notify n => exact move_of_ontransfer hfee h
  | act a => exact move_of_exec h

end Inversion

end Redpack
end ToolkitContracts
