import ToolkitContracts.Split.Model

/-!
# Wallet solvency of flon.split

Tokens enter with a transfer and are either forwarded or booked in wallets, and wallets are
only ever paid out and erased whole. Every function on that way is shown to move tokens
between three places without loss: what is left to distribute, the wallets, and the
transfers ordered so far. In every reachable state the account then holds, token by token,
what its wallets record.
-/

namespace ToolkitContracts
namespace Split

/-! ## What the wallets record -/

/-- The balance a wallet records of the token `x`. -/
def Wallet.recorded (w : Wallet) (x : ExtendedSymbol) : ℤ :=
  w.balances.sum fun b => if b.sym = x then b.quantity.amount else 0

/-- The balances that all wallets of all plans record of the token `x`. -/
def recorded (wallets : Table Wallet.key) (x : ExtendedSymbol) : ℤ :=
  wallets.sum fun w => w.recorded x

/-- A recorded balance is a positive amount of its own token. -/
def Balance.Sound (b : Balance) : Prop :=
  b.quantity.symbol = b.sym.sym ∧ 0 < b.quantity.amount ∧ b.quantity.amount ≤ Asset.maxAmount

def WalletsSound (wallets : Table Wallet.key) : Prop :=
  ∀ w ∈ wallets, ∀ b ∈ w.balances, b.Sound

/-- The transfers of all balances of a wallet to its owner. -/
def Wallet.payments (w : Wallet) (memo : String) : List Transfer :=
  w.balances.rows.map fun b => ⟨b.sym.contract, w.owner, b.quantity, memo.toList⟩

/-- The amount of the token `x` in a quantity of the token `y`. -/
def portion (x y : ExtendedSymbol) (amount : ℤ) : ℤ := if y = x then amount else 0

section Wallets
variable {w : Wallet} {wallets wallets' : Table Wallet.key} {x : ExtendedSymbol} {memo : String}

theorem balanceKey_inj {x y : ExtendedSymbol} : balanceKey x = balanceKey y ↔ x = y := by
  constructor
  · intro h
    have hpair := toLex.injective h
    rw [Prod.mk.injEq] at hpair
    obtain ⟨hsym, hcontract⟩ := hpair
    cases x
    cases y
    rw [ExtendedSymbol.mk.injEq]
    exact ⟨Symbol.raw_inj.mp hsym, Name.raw_inj.mp hcontract⟩
  · intro h
    rw [h]

/-- A sound wallet has nothing but positive balances, so it is paid out in full. -/
theorem payout_eq (memo : String) (h : ∀ b ∈ w.balances, b.Sound) : w.payout memo = w.payments memo := by
  have hall : (w.balances.rows.filter fun b => decide (0 < b.quantity.amount)) = w.balances.rows := by
    rw [List.filter_eq_self]
    intro b hb
    exact decide_eq_true (h b hb).2.1
  rw [Wallet.payout, hall, Wallet.payments]

/-- Paying a wallet out moves what it records. -/
theorem outflow_payments (h : ∀ b ∈ w.balances, b.Sound) :
    outflow x (w.payments memo) = w.recorded x := by
  have hrows : ∀ l : List Balance, (∀ b ∈ l, b.Sound) →
      outflow x (l.map fun b => (⟨b.sym.contract, w.owner, b.quantity, memo.toList⟩ : Transfer))
        = (l.map fun b => if b.sym = x then b.quantity.amount else 0).sum := by
    intro l hl
    induction l with
    | nil => rfl
    | cons b l ih =>
      -- a sound balance is an amount of the token it is booked under
      have htoken : (⟨b.quantity.symbol, b.sym.contract⟩ : ExtendedSymbol) = b.sym := by
        rw [(hl b (List.mem_cons_self ..)).1]
      rw [List.map_cons, outflow_cons, List.map_cons, List.sum_cons,
        ih fun b' hb' => hl b' (List.mem_cons_of_mem _ hb')]
      show (if (⟨b.quantity.symbol, b.sym.contract⟩ : ExtendedSymbol) = x then _ else _) + _ = _
      rw [htoken]
  exact hrows w.balances.rows h

theorem recorded_of_put (w' : Wallet) (h : wallets.find? w'.key = some w) :
    recorded (wallets.put w') x = recorded wallets x + (w'.recorded x - w.recorded x) := by
  have hsum := Table.sum_put_old h fun w => w.recorded x
  unfold recorded
  omega

theorem recorded_of_put_new (h : wallets.find? w.key = none) :
    recorded (wallets.put w) x = recorded wallets x + w.recorded x :=
  Table.sum_put_new h _

end Wallets

/-! ## Booking in a wallet -/

section AddWallet
variable {ctx : Ctx} {owner contract : Name} {planId : ℕ} {q : Asset}
  {wallets wallets' : Table Wallet.key} {balances : Table Balance.key}

/-- Storing a balance under a token's key replaces what was recorded of that token. -/
theorem sum_put_balance {sym : ExtendedSymbol} {total : Asset} {old : ℤ}
    (hold : match balances.find? (balanceKey sym) with
      | some b => b.quantity.amount = old
      | none => old = 0) (x : ExtendedSymbol) :
    (balances.put ⟨sym, total⟩).sum (fun b => if b.sym = x then b.quantity.amount else 0)
      = balances.sum (fun b => if b.sym = x then b.quantity.amount else 0)
        + portion x sym (total.amount - old) := by
  unfold portion
  cases hfind : balances.find? (balanceKey sym) with
  | none =>
    rw [hfind] at hold
    have hnew : balances.find? (Balance.key ⟨sym, total⟩) = none := hfind
    rw [Table.sum_put_new hnew]
    show _ + (if sym = x then total.amount else 0) = _
    rw [hold, sub_zero]
  | some b =>
    rw [hfind] at hold
    have hfind' : balances.find? (Balance.key ⟨sym, total⟩) = some b := hfind
    have hsum := Table.sum_put_old hfind' fun b => if b.sym = x then b.quantity.amount else 0
    -- the entry that was found is the one for this token
    have hb : b.sym = sym := balanceKey_inj.mp (Table.find?_eq_some.mp hfind).2
    have hold' : b.quantity.amount = old := hold
    rw [hb, hold'] at hsum
    by_cases hx : sym = x
    · simp only [if_pos hx] at hsum ⊢
      omega
    · simp only [if_neg hx] at hsum ⊢
      omega

/-- The wallets are still there, with at least the balances they had. -/
def Grows (wallets wallets' : Table Wallet.key) : Prop :=
  ∀ w ∈ wallets, ∃ w' ∈ wallets', w'.key = w.key ∧ ∀ x, w.recorded x ≤ w'.recorded x

theorem Grows.refl (wallets : Table Wallet.key) : Grows wallets wallets :=
  fun w hw => ⟨w, hw, rfl, fun _ => le_refl _⟩

theorem Grows.trans {wallets'' : Table Wallet.key} (h : Grows wallets wallets')
    (h' : Grows wallets' wallets'') : Grows wallets wallets'' := by
  intro w hw
  obtain ⟨w', hw', hkey, hle⟩ := h w hw
  obtain ⟨w'', hw'', hkey', hle'⟩ := h' w' hw'
  exact ⟨w'', hw'', hkey'.trans hkey, fun x => (hle x).trans (hle' x)⟩

/-- The sum of two quantities of a token, the first of them recorded, is exact. -/
theorem sound_of_total {total : Asset} (hq : 0 < q.amount ∧ q.amount ≤ Asset.maxAmount)
    (hs : ∀ b ∈ balances, b.Sound)
    (htotal : newBalance balances ⟨q.symbol, contract⟩ q = .ok total) :
    Balance.Sound ⟨⟨q.symbol, contract⟩, total⟩ ∧
    match balances.find? (balanceKey ⟨q.symbol, contract⟩) with
      | some b => b.quantity.amount = total.amount - q.amount
      | none => total.amount - q.amount = 0 := by
  rw [newBalance] at htotal
  cases hfind : balances.find? (balanceKey ⟨q.symbol, contract⟩) with
  | none =>
    simp only [hfind, Except.ok.injEq] at htotal
    subst htotal
    exact ⟨⟨rfl, hq⟩, sub_self _⟩
  | some b =>
    simp only [hfind] at htotal
    obtain ⟨hmem, hkey⟩ := Table.find?_eq_some.mp hfind
    have hb : b.sym = ⟨q.symbol, contract⟩ := balanceKey_inj.mp hkey
    obtain ⟨hsymbol, hpos, hmax⟩ := hs b hmem
    have hmaxAmount : Asset.maxAmount = 2 ^ 62 - 1 := rfl
    have hexact := Asset.amount_of_add htotal ⟨by omega, hmax⟩ hq.1.le
    obtain ⟨-, -, hrange⟩ := Asset.add_eq_ok.mp htotal
    refine ⟨⟨?_, ?_, hrange.2⟩, ?_⟩
    · show total.symbol = q.symbol
      rw [Asset.symbol_of_add htotal, hsymbol, hb]
    · show 0 < total.amount
      omega
    · show b.quantity.amount = total.amount - q.amount
      omega

/-- What the wallet of `owner` under a plan records of the token `x`. -/
def booked (wallets : Table Wallet.key) (planId : ℕ) (owner : Name) (x : ExtendedSymbol) : ℤ :=
  (wallets.find? (walletKey planId owner)).elim 0 fun w => w.recorded x

/-- `_add_wallet` stores the wallet of the owner, in which the quantity is added to what it
recorded of that token. -/
theorem addWallet_put (h : addWallet ctx owner planId contract q wallets = .ok wallets')
    (hs : WalletsSound wallets) (hq : 0 < q.amount ∧ q.amount ≤ Asset.maxAmount) :
    ∃ w, wallets' = wallets.put w ∧ w.key = walletKey planId owner ∧ (∀ b ∈ w.balances, b.Sound) ∧
      ∀ x, w.recorded x
        = booked wallets planId owner x + portion x ⟨q.symbol, contract⟩ q.amount := by
  simp only [addWallet, bind_eq_ok, pure_eq_ok] at h
  obtain ⟨total, htotal, rfl⟩ := h
  -- the total less what it was before is the quantity, in both cases
  have hdiff : total.amount - (total.amount - q.amount) = q.amount := by omega
  refine ⟨_, rfl, ?_⟩
  unfold booked
  cases hfind : wallets.find? (walletKey planId owner) with
  | none =>
    simp only [hfind, Option.getD_none] at htotal ⊢
    -- a new wallet starts without balances
    have hnil : ∀ b ∈ (Table.empty : Table Balance.key), b.Sound :=
      fun b hb => absurd hb (Table.not_mem_empty b)
    obtain ⟨hsound, hold⟩ := sound_of_total hq hnil htotal
    refine ⟨rfl, Table.forall_put hnil hsound, fun x => ?_⟩
    rw [Wallet.recorded, sum_put_balance hold, hdiff]
    rfl
  | some w =>
    simp only [hfind, Option.getD_some] at htotal ⊢
    obtain ⟨hmem, hkey⟩ := Table.find?_eq_some.mp hfind
    obtain ⟨hsound, hold⟩ := sound_of_total hq (hs w hmem) htotal
    refine ⟨hkey, Table.forall_put (hs w hmem) hsound, fun x => ?_⟩
    rw [Wallet.recorded, sum_put_balance hold, hdiff]
    rfl

/-- `_add_wallet` books exactly the quantity, and under the token it came in. -/
theorem addWallet_spec (h : addWallet ctx owner planId contract q wallets = .ok wallets')
    (hs : WalletsSound wallets) (hq : 0 < q.amount ∧ q.amount ≤ Asset.maxAmount) :
    WalletsSound wallets' ∧ Grows wallets wallets' ∧
    ∀ x, recorded wallets' x = recorded wallets x + portion x ⟨q.symbol, contract⟩ q.amount := by
  obtain ⟨w, rfl, hkey, hsound, hrec⟩ := addWallet_put h hs hq
  refine ⟨Table.forall_put hs hsound, fun v hv => ?_, fun x => ?_⟩
  · by_cases hv' : v.key = w.key
    · refine ⟨w, Table.mem_put_self _ _, hv'.symm, fun x => ?_⟩
      have hfind := Table.find?_self hv
      rw [hv', hkey] at hfind
      rw [hrec, booked, hfind, portion]
      show v.recorded x ≤ v.recorded x + _
      split
      · omega
      · omega
    · exact ⟨v, Table.mem_put.mpr (Or.inr ⟨hv, hv'⟩), rfl, fun _ => le_refl _⟩
  · cases hfind : wallets.find? (walletKey planId owner) with
    | none =>
      rw [← hkey] at hfind
      rw [recorded_of_put_new hfind, hrec, booked, ← hkey, hfind]
      show _ + (0 + _) = _
      rw [zero_add]
    | some v =>
      rw [← hkey] at hfind
      rw [recorded_of_put w hfind, hrec, booked, ← hkey, hfind]
      show _ + (v.recorded x + _ - v.recorded x) = _
      rw [add_sub_cancel_left]

end AddWallet

/-! ## Distributing a transfer -/

section Distribute
variable {ctx : Ctx} {plan : TokenSplitPlan} {bank owner : Name} {q currentQuant rest : Asset}
  {acc acc' : Table Wallet.key × List Transfer}

/-- What is booked or forwarded of the token `x`. -/
def handed (acc : Table Wallet.key × List Transfer) (x : ExtendedSymbol) : ℤ :=
  recorded acc.1 x + outflow x acc.2

/-- From `acc` to `acc'` exactly `amount` of the token `tok` was handed on, and no wallet lost
anything. -/
structure Hands (tok : ExtendedSymbol) (amount : ℤ) (acc acc' : Table Wallet.key × List Transfer) :
    Prop where
  sound : WalletsSound acc.1 → WalletsSound acc'.1
  grows : Grows acc.1 acc'.1
  handed : ∀ x, handed acc' x = handed acc x + portion x tok amount

theorem Hands.refl (tok : ExtendedSymbol) (acc : Table Wallet.key × List Transfer) :
    Hands tok 0 acc acc := by
  refine ⟨id, Grows.refl _, fun x => ?_⟩
  rw [portion, ite_self, add_zero]

theorem Hands.trans {tok : ExtendedSymbol} {a b : ℤ} {acc'' : Table Wallet.key × List Transfer}
    (h : Hands tok a acc acc') (h' : Hands tok b acc' acc'') : Hands tok (a + b) acc acc'' := by
  refine ⟨h'.sound ∘ h.sound, h.grows.trans h'.grows, fun x => ?_⟩
  rw [h'.handed, h.handed, portion, portion, portion]
  split <;> omega

theorem give_spec (h : give ctx plan bank owner q acc = .ok acc') (hs : WalletsSound acc.1)
    (hq : 0 < q.amount ∧ q.amount ≤ Asset.maxAmount) :
    Hands ⟨q.symbol, bank⟩ q.amount acc acc' := by
  rw [give] at h
  cases htype : plan.splitType with
  | auto =>
    simp only [htype, Except.ok.injEq] at h
    subst h
    refine ⟨id, Grows.refl _, fun x => ?_⟩
    -- forwarded: the quantity is one more transfer
    show _ + outflow x (acc.2 ++ [_]) = _ + _ + _
    rw [outflow_append, outflow_cons, outflow_nil, add_zero, portion, ← add_assoc]
    rfl
  | manual =>
    simp only [htype, bind_eq_ok, pure_eq_ok] at h
    obtain ⟨wallets, hwallets, rfl⟩ := h
    -- booked: the wallets record the quantity
    obtain ⟨hsound, hgrows, hrec⟩ := addWallet_spec hwallets hs hq
    refine ⟨fun _ => hsound, hgrows, fun x => ?_⟩
    show recorded wallets x + outflow x acc.2 = recorded acc.1 x + outflow x acc.2 + _
    rw [hrec]
    omega

/-- The loop of `_split` hands on what it takes out of the quantity to distribute. -/
theorem splitFrom_spec {confs : List SplitUnit}
    (h : splitFrom ctx plan bank q confs currentQuant acc = .ok (rest, acc'))
    (hs : WalletsSound acc.1) (hsymbol : currentQuant.symbol = q.symbol)
    (hrange : 0 ≤ currentQuant.amount ∧ currentQuant.amount ≤ Asset.maxAmount) :
    rest.symbol = q.symbol ∧ 0 ≤ rest.amount ∧ rest.amount ≤ Asset.maxAmount ∧
    WalletsSound acc'.1 ∧ Hands ⟨q.symbol, bank⟩ (currentQuant.amount - rest.amount) acc acc' := by
  induction confs generalizing currentQuant acc with
  | nil =>
    rw [splitFrom, Except.ok.injEq, Prod.mk.injEq] at h
    obtain ⟨rfl, rfl⟩ := h
    refine ⟨hsymbol, hrange.1, hrange.2, hs, ?_⟩
    rw [sub_self]
    exact Hands.refl _ _
  | cons p confs ih =>
    simp only [splitFrom, bind_eq_ok] at h
    obtain ⟨tokens, htokens, h⟩ := h
    split at h
    · -- an empty share ends the loop
      rw [Except.ok.injEq, Prod.mk.injEq] at h
      obtain ⟨rfl, rfl⟩ := h
      refine ⟨hsymbol, hrange.1, hrange.2, hs, ?_⟩
      rw [sub_self]
      exact Hands.refl _ _
    · next hpos =>
      simp only [bind_eq_ok, checkc_eq_ok, exists_const] at h
      obtain ⟨hle, acc₁, hgive, next, hnext, h⟩ := h
      obtain ⟨-, htokensSymbol, -⟩ := Asset.new_eq_ok.mp htokens
      have hgiven := give_spec hgive hs ⟨by omega, by omega⟩
      have hexact := Asset.amount_of_sub hnext hrange.1 (by omega)
      have hnextSymbol := Asset.symbol_of_sub hnext
      obtain ⟨hrestSymbol, hrest0, hrestMax, hsound, hhands⟩ := ih h (hgiven.sound hs)
        (hnextSymbol.trans hsymbol) ⟨by omega, by omega⟩
      refine ⟨hrestSymbol, hrest0, hrestMax, hsound, ?_⟩
      rw [htokensSymbol] at hgiven
      -- this share, and what the rest of the loop hands on
      have hboth := hgiven.trans hhands
      rw [hexact] at hboth
      have hsum : tokens.amount + (currentQuant.amount - tokens.amount - rest.amount)
          = currentQuant.amount - rest.amount := by omega
      rw [hsum] at hboth
      exact hboth

theorem giveRest_spec (h : giveRest ctx plan bank owner currentQuant acc = .ok acc')
    (hs : WalletsSound acc.1)
    (hrange : 0 ≤ currentQuant.amount ∧ currentQuant.amount ≤ Asset.maxAmount) :
    Hands ⟨currentQuant.symbol, bank⟩ currentQuant.amount acc acc' := by
  rw [giveRest] at h
  by_cases hpos : 0 < currentQuant.amount
  · rw [if_pos hpos] at h
    exact give_spec h hs ⟨hpos, hrange.2⟩
  · rw [if_neg hpos, Except.ok.injEq] at h
    have hzero : currentQuant.amount = 0 := by omega
    rw [hzero, ← h]
    exact Hands.refl _ _

/-- `_split` hands the whole quantity on. -/
theorem split_spec {planId : ℕ} {s s' : State} {outs : List Transfer}
    (h : split ctx bank planId q s = .ok (s', outs)) (hs : WalletsSound s.wallets)
    (hq : 0 < q.amount ∧ q.amount ≤ Asset.maxAmount) :
    Hands ⟨q.symbol, bank⟩ q.amount (s.wallets, []) (s'.wallets, outs) := by
  simp only [split, bind_eq_ok, require_eq_ok, pure_eq_ok, Prod.mk.injEq] at h
  obtain ⟨plan, -, ⟨rest, acc⟩, hloop, first, -, ⟨wallets, outs'⟩, hrest, rfl, rfl⟩ := h
  obtain ⟨hsymbol, h0, hmax, hsound, hhands⟩ := splitFrom_spec hloop hs rfl ⟨hq.1.le, hq.2⟩
  have hlast := giveRest_spec hrest hsound ⟨h0, hmax⟩
  rw [hsymbol] at hlast
  -- the loop and the remainder make up the quantity
  have hboth := hhands.trans hlast
  rw [sub_add_cancel] at hboth
  exact hboth

end Distribute

/-! ## Paying wallets out -/

/-- The wallets `paid` are erased, and every balance recorded in them is paid to its owner,
once. -/
structure PaysOut (s s' : State) (paid : List Wallet) (memo : String) (outs : List Transfer) :
    Prop where
  recorded : ∀ w ∈ paid, w ∈ s.wallets
  once : (paid.map Wallet.key).Nodup
  rest : s'.wallets = s.wallets.eraseAll (paid.map Wallet.key)
  outs : outs = paid.flatMap fun w => w.payments memo

section Payouts
variable {s s' : State} {paid : List Wallet} {memo : String} {outs : List Transfer} {planId : ℕ}

theorem outflow_flatMap {x : ExtendedSymbol} (hs : ∀ w ∈ paid, ∀ b ∈ w.balances, b.Sound) :
    outflow x (paid.flatMap fun w => w.payments memo)
      = (paid.map fun w => w.recorded x).sum := by
  induction paid with
  | nil => rfl
  | cons w paid ih =>
    rw [List.flatMap_cons, outflow_append, List.map_cons, List.sum_cons,
      outflow_payments (hs w (List.mem_cons_self ..)),
      ih fun v hv => hs v (List.mem_cons_of_mem _ hv)]

/-- A payout takes out of the wallets exactly what it transfers. -/
theorem PaysOut.flow (h : PaysOut s s' paid memo outs) (hs : WalletsSound s.wallets)
    (x : ExtendedSymbol) : Split.recorded s'.wallets x + outflow x outs = Split.recorded s.wallets x := by
  rw [h.outs, h.rest, outflow_flatMap fun w hw => hs w (h.recorded w hw)]
  exact Table.sum_eraseAll h.recorded h.once _

theorem PaysOut.sound (h : PaysOut s s' paid memo outs) (hs : WalletsSound s.wallets) :
    WalletsSound s'.wallets := by
  intro w hw
  rw [h.rest] at hw
  exact hs w (Table.mem_eraseAll.mp hw).1

/-- The loop of `_empty_wallets` pays and erases the first wallets it is given, up to 20. -/
theorem emptyWalletsFrom_eq {ws : List Wallet} {curr : ℕ} (hcurr : curr < 20)
    {wallets : Table Wallet.key} {outs : List Transfer} :
    emptyWalletsFrom ws curr wallets outs =
      (wallets.eraseAll ((ws.take (20 - curr)).map Wallet.key),
        outs ++ (ws.take (20 - curr)).flatMap fun w => w.payout "claim") := by
  induction ws generalizing curr wallets outs with
  | nil => simp [emptyWalletsFrom, Table.eraseAll_nil]
  | cons w ws ih =>
    obtain ⟨n, hn⟩ : ∃ n, 20 - curr = n + 1 := ⟨19 - curr, by omega⟩
    rw [emptyWalletsFrom, hn, List.take_succ_cons, List.map_cons, Table.eraseAll_cons,
      List.flatMap_cons]
    by_cases hlast : 20 ≤ curr + 1
    -- the limit is reached with this wallet
    · have hzero : n = 0 := by omega
      rw [hzero, List.take_zero, List.map_nil, List.flatMap_nil, Table.eraseAll_nil, List.append_nil]
      exact if_pos hlast
    · have hnext : 20 - (curr + 1) = n := by omega
      have hloop : emptyWalletsFrom ws (curr + 1) (wallets.erase w.key)
          (outs ++ w.payout "claim") = _ := ih (by omega)
      rw [hnext, List.append_assoc] at hloop
      rw [← hloop]
      exact if_neg hlast

theorem mem_walletsOf {w : Wallet} : w ∈ walletsOf planId s ↔ w ∈ s.wallets ∧ w.planId = planId := by
  simp [walletsOf, Table.mem_def]

theorem walletsOf_eraseAll (ks : List (ℕ ×ₗ ℕ)) :
    walletsOf planId { s with wallets := s.wallets.eraseAll ks }
      = (walletsOf planId s).filter fun w => decide (w.key ∉ ks) := by
  rw [walletsOf, walletsOf, Table.eraseAll, List.filter_filter, List.filter_filter]
  refine List.filter_congr fun w _ => ?_
  simp [Bool.and_comm]

/-- `claimall` pays out wallets of its plan, and at least one. -/
theorem claimall_spec (h : claimall planId s = .ok (s', outs)) (hs : WalletsSound s.wallets) :
    ∃ paid, PaysOut s s' paid "claim" outs ∧ paid ≠ [] ∧ ∀ w ∈ paid, w.planId = planId := by
  simp only [claimall, bind_eq_ok, require_eq_ok, checkc_eq_ok, exists_const, pure_eq_ok,
    Prod.mk.injEq] at h
  obtain ⟨plan, -, hne, rfl, rfl⟩ := h
  rw [emptyWalletsFrom_eq (by omega)]
  -- at most 20 wallets, all of the plan
  have htake : ∀ w ∈ (walletsOf planId s).take 20, w ∈ walletsOf planId s :=
    fun w hw => List.mem_of_mem_take hw
  have hpay : ∀ w ∈ (walletsOf planId s).take 20, w.payout "claim" = w.payments "claim" :=
    fun w hw => payout_eq _ (hs w (mem_walletsOf.mp (htake w hw)).1)
  refine ⟨(walletsOf planId s).take 20, ⟨fun w hw => (mem_walletsOf.mp (htake w hw)).1, ?_, rfl,
    List.flatMap_congr hpay⟩, ?_, fun w hw => (mem_walletsOf.mp (htake w hw)).2⟩
  · have hsub : ((walletsOf planId s).take 20).Sublist s.wallets.rows :=
      (List.take_sublist _ _).trans List.filter_sublist
    exact (hsub.map Wallet.key).nodup s.wallets.nodup_keys
  · intro hnil
    cases hw : walletsOf planId s with
    | nil => simp [hw] at hne
    | cons w ws => simp [hw] at hnil

/-- `claim` pays out the wallet of one owner. -/
theorem claim_spec {owner : Name} (h : claim planId owner s = .ok (s', outs))
    (hs : WalletsSound s.wallets) :
    ∃ w, PaysOut s s' [w] "claim rewards" outs ∧ w.key = walletKey planId owner := by
  simp only [claim, bind_eq_ok, require_eq_ok, checkc_eq_ok, exists_const, pure_eq_ok,
    Prod.mk.injEq] at h
  obtain ⟨plan, -, w, hw, -, rfl, rfl⟩ := h
  obtain ⟨hmem, hkey⟩ := Table.find?_eq_some.mp hw
  refine ⟨w, ⟨?_, ?_, ?_, ?_⟩, hkey⟩
  · intro v hv
    rw [List.mem_singleton.mp hv]
    exact hmem
  · simp
  · show s.wallets.erase w.key = _
    rw [List.map_cons, List.map_nil, Table.eraseAll_cons, Table.eraseAll_nil]
  · rw [payout_eq _ (hs w hmem), List.flatMap_cons, List.flatMap_nil, List.append_nil]

end Payouts

/-! ## One transaction -/

/-- The wallets that an action may pay out. -/
def Action.Claims : Action → Wallet → Prop
  | .claim planId owner, w => w.planId = planId ∧ w.owner = owner
  | .claimall planId, w => w.planId = planId
  | .editplan _ planId _ isAuto, w => isAuto = true ∧ w.planId = planId
  | _, _ => False

/-- The actions that fail when there is nothing to pay out. -/
def Action.MustPay : Action → Prop
  | .claim _ _ => True
  | .claimall _ => True
  | _ => False

section Transactions
variable {self : Name} {ctx : Ctx} {s s' : State} {outs : List Transfer} {a : Action} {n : Notice}

theorem PaysOut.none {memo : String} (h : s'.wallets = s.wallets) : PaysOut s s' [] memo [] where
  recorded := fun w hw => absurd hw (List.not_mem_nil)
  once := List.nodup_nil
  rest := by rw [h, List.map_nil, Table.eraseAll_nil]
  outs := rfl

/-- Every action pays out some wallets, of those it may claim, and leaves the others. -/
theorem exec_spec (h : exec self ctx a s = .ok (s', outs)) (hs : WalletsSound s.wallets) :
    ∃ paid memo, PaysOut s s' paid memo outs ∧ (∀ w ∈ paid, a.Claims w) ∧
      (a.MustPay → paid ≠ []) := by
  -- actions that pay nothing out
  have hnothing : ∀ {a : Action} {outs : List Transfer}, ¬ a.MustPay → s'.wallets = s.wallets →
      outs = [] → ∃ paid memo, PaysOut s s' paid memo outs ∧ (∀ w ∈ paid, a.Claims w) ∧
        (a.MustPay → paid ≠ []) := by
    intro a outs hmust hsame houts
    rw [houts]
    exact ⟨[], "", PaysOut.none hsame, fun w hw => absurd hw List.not_mem_nil,
      fun hc => absurd hc hmust⟩
  cases a with
  | init admin minCount maxCount =>
    simp only [exec, Split.init, bind_eq_ok, Ctx.requireAuth_eq_ok, checkc_eq_ok, exists_const,
      pure_eq_ok, Prod.mk.injEq] at h
    obtain ⟨-, -, -, rfl, rfl⟩ := h
    exact hnothing id rfl rfl
  | addplan owner title conf isAuto =>
    simp only [exec, addplan, bind_eq_ok, checkc_eq_ok, exists_const, pure_eq_ok,
      Prod.mk.injEq] at h
    obtain ⟨-, -, -, -, -, -, plans, -, rfl, rfl⟩ := h
    exact hnothing id rfl rfl
  | editplan owner planId conf isAuto =>
    simp only [exec, editplan, bind_eq_ok, Ctx.requireAuth_eq_ok, require_eq_ok, checkc_eq_ok,
      exists_const] at h
    obtain ⟨-, -, -, -, -, plan, -, -, h⟩ := h
    rw [inlineClaimall] at h
    by_cases hauto : isAuto = true ∧ (walletsOf planId { s with plans := s.plans.put { plan with
        splitConf := conf
        splitType := if isAuto then .auto else .manual } }).isEmpty = false
    · rw [if_pos hauto] at h
      -- the inline action pays out wallets of the plan
      obtain ⟨paid, hpays, -, hclaims⟩ := claimall_spec h hs
      refine ⟨paid, "claim", ?_, fun w hw => ⟨hauto.1, hclaims w hw⟩, fun hc => absurd hc id⟩
      exact ⟨hpays.recorded, hpays.once, hpays.rest, hpays.outs⟩
    · rw [if_neg hauto, Except.ok.injEq, Prod.mk.injEq] at h
      obtain ⟨rfl, rfl⟩ := h
      exact hnothing id rfl rfl
  | claim planId owner =>
    obtain ⟨w, hpays, hkey⟩ := claim_spec h hs
    refine ⟨[w], _, hpays, fun v hv => ?_, fun _ => List.cons_ne_nil _ _⟩
    rw [List.mem_singleton.mp hv]
    have hpair := toLex.injective hkey
    rw [Prod.mk.injEq] at hpair
    exact ⟨hpair.1, Name.raw_inj.mp hpair.2⟩
  | claimall planId =>
    obtain ⟨paid, hpays, hne, hclaims⟩ := claimall_spec h hs
    exact ⟨paid, _, hpays, hclaims, fun _ => hne⟩

/-- An incoming transfer is handed on in full, any other notification changes nothing. -/
theorem ontransfer_spec (h : ontransfer self ctx n s = .ok (s', outs)) (hs : WalletsSound s.wallets)
    (hsender : n.sender ≠ self) :
    Hands n.token (if n.recipient = self then n.quantity.amount else 0) (s.wallets, [])
      (s'.wallets, outs) := by
  rw [ontransfer] at h
  by_cases hto : n.recipient = self
  · rw [if_neg (by simp [hsender, hto])] at h
    simp only [bind_eq_ok, checkc_eq_ok, check_eq_ok, exists_const] at h
    obtain ⟨-, -, hpos, actionName, -, h⟩ := h
    rw [if_pos hto]
    have hquantity : 0 < n.quantity.amount ∧ n.quantity.amount ≤ Asset.maxAmount :=
      ⟨hpos, n.valid.1.2⟩
    -- the memo names a plan, or the transfer is refused
    split at h
    · simp only [bind_eq_ok] at h
      obtain ⟨planId, -, h⟩ := h
      split at h
      · simp only [bind_eq_ok] at h
        obtain ⟨boost, -, h⟩ := h
        exact split_spec h hs hquantity
      · exact split_spec h hs hquantity
    · cases h
  · rw [if_pos (Or.inr hto), Except.ok.injEq, Prod.mk.injEq] at h
    obtain ⟨rfl, rfl⟩ := h
    rw [if_neg hto]
    exact Hands.refl _ _

end Transactions

/-! ## Whole runs -/

/-- The account holds what its wallets record. -/
structure Solvent (w : World State) : Prop where
  sound : WalletsSound w.state.wallets
  holding : ∀ x, w.holding x = recorded w.state.wallets x

section Runs
variable {self : Name} {w w' : World State} {i : Ctx × Input Action}

theorem solvent_of_step (h : Solvent w) (hs : (contract self).step w i = .ok w') : Solvent w' := by
  obtain ⟨-, hsigner, -, outs, hrun, hsettle⟩ := ((contract self).step_eq_ok).mp hs
  obtain ⟨ctx, inp⟩ := i
  cases inp with
  | act a =>
    -- the wallets drop by the transfers
    obtain ⟨paid, memo, hpays, -⟩ := exec_spec hrun h.sound
    refine ⟨hpays.sound h.sound, fun x => ?_⟩
    have hflow := hpays.flow h.sound x
    rw [settle_apply hsettle x, Contract.received_act, h.holding]
    omega
  | notify n =>
    have hsender : n.sender ≠ self := Contract.sender_ne hsigner
    -- what comes in is forwarded or booked
    have hhands := ontransfer_spec hrun h.sound hsender
    refine ⟨hhands.sound h.sound, fun x => ?_⟩
    have hhanded : recorded w'.state.wallets x + outflow x outs
        = recorded w.state.wallets x + outflow x []
          + portion x n.token (if n.recipient = self then n.quantity.amount else 0) :=
      hhands.handed x
    rw [outflow_nil, portion] at hhanded
    rw [settle_apply hsettle x]
    by_cases hto : n.recipient = self
    · rw [Contract.received_notify _ hto, h.holding]
      rw [if_pos hto] at hhanded
      by_cases hx : n.token = x
      · rw [if_pos hx] at hhanded ⊢
        omega
      · rw [if_neg hx] at hhanded ⊢
        omega
    · rw [Contract.received_ignored _ hto, h.holding]
      rw [if_neg hto, ite_self] at hhanded
      omega

theorem solvent_genesis (clock : TimePoint) : Solvent (genesis clock) :=
  ⟨fun w hw => absurd hw (Table.not_mem_empty w), fun _ => rfl⟩

theorem solvent_of_run {clock : TimePoint} {is : List (Ctx × Input Action)}
    (hrun : Transition.Run (contract self).step Transition.Unrestricted (genesis clock) is w) :
    Solvent w :=
  hrun.invariant (fun _ _ _ h _ hs => solvent_of_step h hs) (solvent_genesis clock)

/-- In every reachable state the account holds, token by token, what the wallets of all
plans record. An action erases the wallets it pays out, pays each owner every balance
recorded there, all of them positive, and leaves the other wallets; an incoming transfer
takes nothing out of any wallet. -/
theorem wallet_solvency {clock : TimePoint} {is : List (Ctx × Input Action)}
    (hrun : Transition.Run (contract self).step Transition.Unrestricted (genesis clock) is w) :
    (∀ x, w.holding x = recorded w.state.wallets x) ∧
    (∀ v ∈ w.state.wallets, ∀ b ∈ v.balances,
      0 < b.quantity.amount ∧ b.quantity.symbol = b.sym.sym) ∧
    (∀ (ctx : Ctx) (a : Action) (s' : State) (outs : List Transfer),
      exec self ctx a w.state = .ok (s', outs) →
      ∃ paid memo, PaysOut w.state s' paid memo outs ∧ (∀ v ∈ paid, a.Claims v) ∧
        (a.MustPay → paid ≠ [])) ∧
    ∀ (ctx : Ctx) (n : Notice) (s' : State) (outs : List Transfer), n.sender ≠ self →
      ontransfer self ctx n w.state = .ok (s', outs) → Grows w.state.wallets s'.wallets := by
  have h : Solvent w := solvent_of_run hrun
  refine ⟨h.holding, fun v hv b hb => ?_, ?_, ?_⟩
  · obtain ⟨hsymbol, hpos, -⟩ := h.sound v hv b hb
    exact ⟨hpos, hsymbol⟩
  · intro ctx a s' outs hexec
    exact exec_spec hexec h.sound
  · intro ctx n s' outs hsender hexec
    exact (ontransfer_spec hexec h.sound hsender).grows

end Runs

/-! ## A sample run -/

namespace Sample

def account : Name := .lit "flon.split"
def alice : Name := .lit "alice"
def bob : Name := .lit "bob"
def carol : Name := .lit "carol"
def bank : Name := .lit "flon.token"
def flon : Symbol := .lit "FLON" 8

/-- A manual plan with equal shares for two receivers, and 101 units split under it. -/
def inputs : List (Ctx × Input Action) :=
  [(.signed alice 100, .act (.addplan alice "equal".toList [⟨bob, 5000⟩, ⟨carol, 5000⟩] false)),
   (.signed alice 100, .notify
     ⟨bank, alice, account, ⟨101, flon, by omega⟩, "plan:1".toList, by decide⟩)]

/-- The odd unit goes to the first receiver, and `claim` pays both of its units out. -/
theorem wallet_solvency_sample :
    ∃ w, Transition.Run (contract account).step Transition.Unrestricted (genesis (.ofDays 100))
        inputs w ∧
      w.holding ⟨flon, bank⟩ = recorded w.state.wallets ⟨flon, bank⟩ ∧
      recorded w.state.wallets ⟨flon, bank⟩ = 101 ∧
      ∃ s' outs paid memo, exec account (.signed bob 101) (.claim 1 bob) w.state = .ok (s', outs) ∧
        outs.map (fun t => t.quantity.amount) = [51] ∧
        PaysOut w.state s' paid memo outs ∧ paid ≠ [] := by
  have hreach : Transition.Reaches (contract account).step Transition.Unrestricted (fun w =>
      recorded w.state.wallets ⟨flon, bank⟩ = 101 ∧
      Transition.Succeeds (exec account (.signed bob 101) (.claim 1 bob) w.state) fun e =>
        e.2.map (fun t => t.quantity.amount) = [51]) inputs (genesis (.ofDays 100)) := by decide
  obtain ⟨w, hrun, htotal, hclaim⟩ := Transition.run_of_reaches hreach
  obtain ⟨⟨s', outs⟩, hexec, houts⟩ := Transition.succeeds_iff.mp hclaim
  have hresult := wallet_solvency hrun
  obtain ⟨paid, memo, hpays, -, hne⟩ := hresult.2.2.1 _ _ s' outs hexec
  exact ⟨w, hrun, hresult.1 _, htotal, s', outs, paid, memo, hexec, houts, hpays, hne trivial⟩

end Sample

end Split
end ToolkitContracts
