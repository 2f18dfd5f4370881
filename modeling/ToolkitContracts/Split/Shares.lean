import ToolkitContracts.Split.Solvency

/-!
# The shares of a transfer

`_split` computes shares and hands them on in one loop. Here the two are taken apart: what a
transfer divides into depends on the quantity and the receivers only, and every share is
then forwarded by a plan of one type and booked by a plan of the other. What a manual plan
books for a receiver is what an automatic plan forwards to it, and booking fails only where
a recorded balance would leave the range of an asset.
-/

namespace ToolkitContracts
namespace Split

/-! ## Dividing a quantity -/

/-- The shares that the loop of `_split` hands on, and what is left over. -/
def sharesFrom (quant : Asset) : List SplitUnit → Asset →
    Except Abort (Asset × List (Name × Asset))
  | [], currentQuant => .ok (currentQuant, [])
  | p :: confs, currentQuant => do
    let tokens ← share quant p.tokenSplitAmount
    if tokens.amount ≤ 0 then .ok (currentQuant, [])
    else do
      checkc (tokens.amount ≤ currentQuant.amount) Err.rateOverload.code
        "Insufficient distribution balance"
      let next ← currentQuant.sub tokens
      let (rest, gifts) ← sharesFrom quant confs next
      return (rest, (p.tokenReceiver, tokens) :: gifts)

/-- What `_split` hands on to each receiver in turn: the shares, and the rest to the first
receiver. -/
def shares (quant : Asset) (confs : List SplitUnit) : Except Abort (List (Name × Asset)) := do
  let (rest, gifts) ← sharesFrom quant confs quant
  let first ← require confs.head? none "split_conf is empty"
  return if 0 < rest.amount then gifts ++ [(first.tokenReceiver, rest)] else gifts

/-- Hand the quantities on, one after the other. -/
def giveAll (ctx : Ctx) (plan : TokenSplitPlan) (bank : Name) :
    List (Name × Asset) → Table Wallet.key × List Transfer →
    Except Abort (Table Wallet.key × List Transfer)
  | [], acc => .ok acc
  | (owner, tokens) :: gifts, acc => do
    let acc ← give ctx plan bank owner tokens acc
    giveAll ctx plan bank gifts acc

section Divide
variable {ctx : Ctx} {plan : TokenSplitPlan} {bank : Name} {q currentQuant rest : Asset}
  {confs : List SplitUnit} {gifts : List (Name × Asset)}
  {acc acc' : Table Wallet.key × List Transfer}

/-- Two lists of quantities are handed on one after the other. -/
theorem giveAll_append {more : List (Name × Asset)} :
    giveAll ctx plan bank (gifts ++ more) acc
      = giveAll ctx plan bank gifts acc >>= giveAll ctx plan bank more := by
  induction gifts generalizing acc with
  | nil => rfl
  | cons g gifts ih =>
    rw [List.cons_append, giveAll, giveAll]
    cases give ctx plan bank g.1 g.2 acc with
    | error e => rfl
    | ok acc₁ => exact ih

theorem giveAll_append_eq_ok {more : List (Name × Asset)} :
    giveAll ctx plan bank (gifts ++ more) acc = .ok acc' ↔
      ∃ mid, giveAll ctx plan bank gifts acc = .ok mid ∧ giveAll ctx plan bank more mid = .ok acc' := by
  rw [giveAll_append, bind_eq_ok]

/-- The loop of `_split` computes its shares and hands them on. -/
theorem splitFrom_eq_ok :
    splitFrom ctx plan bank q confs currentQuant acc = .ok (rest, acc') ↔
      ∃ gifts, sharesFrom q confs currentQuant = .ok (rest, gifts) ∧
        giveAll ctx plan bank gifts acc = .ok acc' := by
  induction confs generalizing currentQuant acc with
  | nil =>
    simp only [splitFrom, sharesFrom, Except.ok.injEq, Prod.mk.injEq]
    constructor
    · rintro ⟨rfl, rfl⟩
      exact ⟨[], ⟨rfl, rfl⟩, rfl⟩
    · rintro ⟨gifts, ⟨rfl, rfl⟩, hgive⟩
      rw [giveAll, Except.ok.injEq] at hgive
      exact ⟨rfl, hgive⟩
  | cons p confs ih =>
    simp only [splitFrom, sharesFrom, bind_eq_ok]
    constructor
    · rintro ⟨tokens, htokens, h⟩
      split at h
      · -- an empty share ends the loop
        next hempty =>
        rw [Except.ok.injEq, Prod.mk.injEq] at h
        obtain ⟨rfl, rfl⟩ := h
        refine ⟨[], ⟨tokens, htokens, ?_⟩, rfl⟩
        rw [if_pos hempty]
      · next hpos =>
        simp only [bind_eq_ok, checkc_eq_ok, exists_const] at h
        obtain ⟨hle, acc₁, hgive, next, hnext, h⟩ := h
        obtain ⟨gifts, hgifts, hall⟩ := ih.mp h
        refine ⟨(p.tokenReceiver, tokens) :: gifts, ⟨tokens, htokens, ?_⟩, ?_⟩
        · rw [if_neg hpos, checkc_of hle, hnext, ok_bind, hgifts]
          rfl
        · rw [giveAll, hgive]
          exact hall
    · rintro ⟨gifts, ⟨tokens, htokens, h⟩, hall⟩
      refine ⟨tokens, htokens, ?_⟩
      split at h
      · next hempty =>
        rw [Except.ok.injEq, Prod.mk.injEq] at h
        obtain ⟨rfl, rfl⟩ := h
        rw [giveAll, Except.ok.injEq] at hall
        rw [if_pos hempty, hall]
      · next hpos =>
        simp only [bind_eq_ok, checkc_eq_ok, exists_const, pure_eq_ok, Prod.mk.injEq] at h
        obtain ⟨hle, next, hnext, ⟨rest', gifts'⟩, hgifts, rfl, rfl⟩ := h
        simp only [giveAll, bind_eq_ok] at hall
        obtain ⟨acc₁, hgive, hall⟩ := hall
        rw [if_neg hpos, checkc_of hle, hgive, ok_bind, hnext, ok_bind]
        exact ih.mpr ⟨gifts', hgifts, hall⟩

/-- `_split` divides the quantity between the receivers of the plan and hands the shares on. -/
theorem split_eq_ok {planId : ℕ} {s s' : State} {outs : List Transfer}
    (hplan : s.plans.find? planId = some plan) :
    split ctx bank planId q s = .ok (s', outs) ↔
      ∃ gifts wallets, shares q plan.splitConf = .ok gifts ∧
        giveAll ctx plan bank gifts (s.wallets, []) = .ok (wallets, outs) ∧
        s' = { s with wallets } := by
  simp only [split, shares, bind_eq_ok, require_eq_ok, pure_eq_ok, Prod.mk.injEq]
  constructor
  · rintro ⟨plan', hplan', ⟨rest, acc⟩, hloop, first, hfirst, ⟨wallets, outs'⟩, hrest, rfl, rfl⟩
    obtain rfl : plan = plan' := Option.some.inj (hplan.symm.trans hplan')
    obtain ⟨gifts, hgifts, hall⟩ := splitFrom_eq_ok.mp hloop
    refine ⟨_, wallets, ⟨(rest, gifts), hgifts, first, hfirst, rfl⟩, ?_, rfl⟩
    rw [giveRest] at hrest
    split at hrest
    · next hpos =>
      rw [if_pos hpos, giveAll_append_eq_ok]
      refine ⟨acc, hall, ?_⟩
      rw [giveAll, hrest]
      rfl
    · next hnone =>
      rw [Except.ok.injEq] at hrest
      rw [if_neg hnone, ← hrest, hall]
  · rintro ⟨gifts, wallets, ⟨⟨rest, gifts'⟩, hgifts, first, hfirst, rfl⟩, hall, rfl⟩
    by_cases hpos : 0 < rest.amount
    · rw [if_pos hpos, giveAll_append_eq_ok] at hall
      obtain ⟨mid, hmid, hlast⟩ := hall
      simp only [giveAll, bind_eq_ok, Except.ok.injEq] at hlast
      obtain ⟨acc₁, hgive, rfl⟩ := hlast
      refine ⟨plan, hplan, (rest, mid), splitFrom_eq_ok.mpr ⟨gifts', hgifts, hmid⟩, first, hfirst,
        (wallets, outs), ?_, rfl, rfl⟩
      rw [giveRest, if_pos hpos]
      exact hgive
    · rw [if_neg hpos] at hall
      refine ⟨plan, hplan, (rest, _), splitFrom_eq_ok.mpr ⟨gifts', hgifts, hall⟩, first, hfirst,
        (wallets, outs), ?_, rfl, rfl⟩
      rw [giveRest, if_neg hpos]

theorem sum_amounts_nonneg (hpos : ∀ g ∈ gifts, 0 < g.2.amount) :
    0 ≤ (gifts.map fun g => g.2.amount).sum := by
  refine List.sum_nonneg fun x hx => ?_
  obtain ⟨g, hg, rfl⟩ := List.mem_map.mp hx
  exact (hpos g hg).le

theorem le_sum_of_mem {g : Name × Asset} (hpos : ∀ g ∈ gifts, 0 < g.2.amount) (hg : g ∈ gifts) :
    g.2.amount ≤ (gifts.map fun g => g.2.amount).sum := by
  refine List.single_le_sum (fun x hx => ?_) _ (List.mem_map_of_mem hg)
  obtain ⟨g', hg', rfl⟩ := List.mem_map.mp hx
  exact (hpos g' hg').le

/-- The shares of the loop are positive amounts of the token, and with the rest they make up
what there was to distribute. -/
theorem sharesFrom_spec (h : sharesFrom q confs currentQuant = .ok (rest, gifts))
    (hsymbol : currentQuant.symbol = q.symbol)
    (hrange : 0 ≤ currentQuant.amount ∧ currentQuant.amount ≤ Asset.maxAmount) :
    rest.symbol = q.symbol ∧ 0 ≤ rest.amount ∧
    (∀ g ∈ gifts, g.2.symbol = q.symbol ∧ 0 < g.2.amount ∧ ∃ p ∈ confs, p.tokenReceiver = g.1) ∧
    (gifts.map fun g => g.2.amount).sum + rest.amount = currentQuant.amount := by
  induction confs generalizing currentQuant gifts with
  | nil =>
    rw [sharesFrom, Except.ok.injEq, Prod.mk.injEq] at h
    obtain ⟨rfl, rfl⟩ := h
    refine ⟨hsymbol, hrange.1, fun g hg => absurd hg List.not_mem_nil, ?_⟩
    simp
  | cons p confs ih =>
    simp only [sharesFrom, bind_eq_ok] at h
    obtain ⟨tokens, htokens, h⟩ := h
    split at h
    · rw [Except.ok.injEq, Prod.mk.injEq] at h
      obtain ⟨rfl, rfl⟩ := h
      refine ⟨hsymbol, hrange.1, fun g hg => absurd hg List.not_mem_nil, ?_⟩
      simp
    · next hpos =>
      simp only [bind_eq_ok, checkc_eq_ok, exists_const, pure_eq_ok, Prod.mk.injEq] at h
      obtain ⟨hle, next, hnext, ⟨rest', gifts'⟩, hgifts, rfl, rfl⟩ := h
      obtain ⟨-, htokensSymbol, -⟩ := Asset.new_eq_ok.mp htokens
      have hexact := Asset.amount_of_sub hnext hrange.1 (by omega)
      have hnextSymbol := (Asset.symbol_of_sub hnext).trans hsymbol
      obtain ⟨hrestSymbol, hrest, hall, hsum⟩ := ih hgifts hnextSymbol ⟨by omega, by omega⟩
      have htokensPos : 0 < tokens.amount := by omega
      refine ⟨hrestSymbol, hrest, fun g hg => ?_, ?_⟩
      · rcases List.mem_cons.mp hg with rfl | hg
        · exact ⟨htokensSymbol, htokensPos, p, List.mem_cons_self .., rfl⟩
        · obtain ⟨hgSymbol, hgPos, p', hp', hto⟩ := hall g hg
          exact ⟨hgSymbol, hgPos, p', List.mem_cons_of_mem _ hp', hto⟩
      · rw [List.map_cons, List.sum_cons]
        have hnextSum : (gifts'.map fun g => g.2.amount).sum + rest'.amount = next.amount := hsum
        show tokens.amount + (gifts'.map fun g => g.2.amount).sum + rest'.amount = _
        omega

/-- The whole quantity is divided, between receivers of the list, in positive amounts. -/
theorem shares_spec (h : shares q confs = .ok gifts)
    (hq : 0 < q.amount ∧ q.amount ≤ Asset.maxAmount) :
    (∀ g ∈ gifts, g.2.symbol = q.symbol ∧ 0 < g.2.amount ∧ ∃ p ∈ confs, p.tokenReceiver = g.1) ∧
    (gifts.map fun g => g.2.amount).sum = q.amount := by
  simp only [shares, bind_eq_ok, require_eq_ok, pure_eq_ok] at h
  obtain ⟨⟨rest, gifts'⟩, hgifts, first, hfirst, rfl⟩ := h
  obtain ⟨hsymbol, hrest, hall, hsum⟩ := sharesFrom_spec hgifts rfl ⟨hq.1.le, hq.2⟩
  by_cases hpos : 0 < rest.amount
  · rw [if_pos hpos]
    refine ⟨fun g hg => ?_, ?_⟩
    · rcases List.mem_append.mp hg with hg | hg
      · exact hall g hg
      · rw [List.mem_singleton.mp hg]
        exact ⟨hsymbol, hpos, first, List.mem_of_mem_head? hfirst, rfl⟩
    · rw [List.map_append, List.sum_append, List.map_singleton, List.sum_singleton]
      exact hsum
  · rw [if_neg hpos]
    refine ⟨hall, ?_⟩
    show (gifts'.map fun g => g.2.amount).sum = _
    omega

/-- Every share is a positive amount of the token, and part of the quantity. -/
theorem share_of_shares (h : shares q confs = .ok gifts)
    (hq : 0 < q.amount ∧ q.amount ≤ Asset.maxAmount) {g : Name × Asset} (hg : g ∈ gifts) :
    g.2.symbol = q.symbol ∧ 0 < g.2.amount ∧ g.2.amount ≤ q.amount := by
  obtain ⟨hall, hsum⟩ := shares_spec h hq
  obtain ⟨hsymbol, hpos, -⟩ := hall g hg
  refine ⟨hsymbol, hpos, ?_⟩
  rw [← hsum]
  exact le_sum_of_mem (fun g hg => (hall g hg).2.1) hg

end Divide

/-! ## Forwarding the shares -/

/-- The transfers that forward the quantities. -/
def forwards (bank : Name) (gifts : List (Name × Asset)) : List Transfer :=
  gifts.map fun g => ⟨bank, g.1, g.2, []⟩

section Forward
variable {ctx : Ctx} {plan : TokenSplitPlan} {bank : Name} {gifts : List (Name × Asset)}
  {acc : Table Wallet.key × List Transfer}

/-- A plan of type `AUTO` forwards every share, whatever the wallets are. -/
theorem giveAll_auto (htype : plan.splitType = .auto) :
    giveAll ctx plan bank gifts acc = .ok (acc.1, acc.2 ++ forwards bank gifts) := by
  induction gifts generalizing acc with
  | nil =>
    rw [forwards, List.map_nil, List.append_nil]
    rfl
  | cons g gifts ih =>
    simp only [giveAll, give, htype, ok_bind]
    rw [ih, forwards, forwards, List.map_cons, List.append_assoc, List.singleton_append]

/-- What is forwarded of a token adds up to the quantities. -/
theorem outflow_forwards {sym : Symbol} (h : ∀ g ∈ gifts, g.2.symbol = sym) (x : ExtendedSymbol) :
    outflow x (forwards bank gifts) = portion x ⟨sym, bank⟩ (gifts.map fun g => g.2.amount).sum := by
  induction gifts with
  | nil =>
    rw [forwards, List.map_nil, List.map_nil, List.sum_nil, portion, ite_self]
    rfl
  | cons g gifts ih =>
    have hg := h g (List.mem_cons_self ..)
    have hrest := ih fun g' hg' => h g' (List.mem_cons_of_mem _ hg')
    have htoken : (⟨bank, g.1, g.2, []⟩ : Transfer).token = ⟨sym, bank⟩ := by
      rw [Transfer.token, hg]
    rw [forwards] at hrest
    rw [forwards, List.map_cons, outflow_cons, hrest, htoken, List.map_cons, List.sum_cons, portion,
      portion]
    split
    · rfl
    · rfl

end Forward

/-! ## Booking the shares -/

section Book
variable {ctx : Ctx} {plan : TokenSplitPlan} {bank owner : Name} {planId : ℕ} {q : Asset}
  {gifts : List (Name × Asset)} {w : Wallet} {wallets wallets' : Table Wallet.key}
  {outs outs' : List Transfer} {x : ExtendedSymbol}

theorem walletKey_inj {planId' : ℕ} {owner' : Name} :
    walletKey planId owner = walletKey planId' owner' ↔ planId = planId' ∧ owner = owner' := by
  rw [walletKey, walletKey, EmbeddingLike.apply_eq_iff_eq, Prod.mk.injEq, Name.raw_inj]

/-- A sound balance counts for no token with a negative amount. -/
theorem Wallet.recorded_nonneg (h : ∀ b ∈ w.balances, b.Sound) : 0 ≤ w.recorded x := by
  refine Table.sum_nonneg fun b hb => ?_
  obtain ⟨-, hpos, -⟩ := h b hb
  split
  · omega
  · omega

theorem recorded_nonneg (hs : WalletsSound wallets) : 0 ≤ recorded wallets x :=
  Table.sum_nonneg fun v hv => Wallet.recorded_nonneg (hs v hv)

/-- No balance is more than what its wallet records of its token. -/
theorem Wallet.le_recorded (h : ∀ b ∈ w.balances, b.Sound) {b : Balance} (hb : b ∈ w.balances) :
    b.quantity.amount ≤ w.recorded b.sym := by
  have hle := Table.le_sum (f := fun c => if c.sym = b.sym then c.quantity.amount else 0)
    (fun c hc => ?_) hb
  · rw [if_pos rfl] at hle
    exact hle
  · obtain ⟨-, hpos, -⟩ := h c hc
    split
    · omega
    · omega

/-- No wallet records more than all of them. -/
theorem booked_le_recorded (hs : WalletsSound wallets) (planId : ℕ) (owner : Name)
    (x : ExtendedSymbol) : booked wallets planId owner x ≤ recorded wallets x := by
  rw [booked]
  cases hfind : wallets.find? (walletKey planId owner) with
  | none => exact recorded_nonneg hs
  | some w =>
    obtain ⟨hmem, -⟩ := Table.find?_eq_some.mp hfind
    exact Table.le_sum (fun v hv => Wallet.recorded_nonneg (hs v hv)) hmem

/-- What a sound wallet records of a token is in the range of an asset. -/
theorem booked_le (hs : WalletsSound wallets) (planId : ℕ) (owner : Name) (x : ExtendedSymbol) :
    booked wallets planId owner x ≤ Asset.maxAmount := by
  have hmax : (0 : ℤ) ≤ Asset.maxAmount := by
    rw [Asset.maxAmount]
    omega
  rw [booked]
  cases hfind : wallets.find? (walletKey planId owner) with
  | none => exact hmax
  | some w =>
    -- the wallet has one balance of the token at most
    have hkey : ∀ b ∈ w.balances, (if b.sym = x then b.quantity.amount else 0)
        = if b.key = balanceKey x then b.quantity.amount else 0 := by
      intro b _
      exact if_congr balanceKey_inj.symm rfl rfl
    obtain ⟨hmem, -⟩ := Table.find?_eq_some.mp hfind
    show w.recorded x ≤ Asset.maxAmount
    rw [Wallet.recorded, Table.sum_congr hkey, Table.sum_ite_key]
    cases hbalance : w.balances.find? (balanceKey x) with
    | none => exact hmax
    | some b =>
      obtain ⟨hb, -⟩ := Table.find?_eq_some.mp hbalance
      exact (hs w hmem b hb).2.2

/-- A positive quantity can be added to a balance as long as the sum is in range. -/
theorem newBalance_of_room {balances : Table Balance.key} {sym : ExtendedSymbol}
    (hq : 0 < q.amount) (hroom : ∀ b ∈ balances, b.sym = sym → b.quantity.symbol = q.symbol ∧
      0 < b.quantity.amount ∧ b.quantity.amount + q.amount ≤ Asset.maxAmount) :
    ∃ total, newBalance balances sym q = .ok total := by
  rw [newBalance]
  cases hfind : balances.find? (balanceKey sym) with
  | none => exact ⟨q, rfl⟩
  | some b =>
    obtain ⟨hmem, hkey⟩ := Table.find?_eq_some.mp hfind
    obtain ⟨hsymbol, hpos, hmax⟩ := hroom b hmem (balanceKey_inj.mp hkey)
    have hmaxAmount : Asset.maxAmount = 2 ^ 62 - 1 := rfl
    have hexact : i64 (b.quantity.amount + q.amount) = b.quantity.amount + q.amount :=
      i64_eq (by omega) (by omega)
    refine ⟨_, Asset.add_eq_ok.mpr ⟨hsymbol.symm, rfl, ?_⟩⟩
    rw [Asset.isAmountWithinRange, Asset.setAmount_amount, hexact]
    exact ⟨by omega, hmax⟩

/-- Booking a quantity succeeds when the owner's wallet can record it. -/
theorem addWallet_of_booked (hs : WalletsSound wallets) (hq : 0 < q.amount)
    (hroom : booked wallets planId owner ⟨q.symbol, bank⟩ + q.amount ≤ Asset.maxAmount) :
    ∃ wallets', addWallet ctx owner planId bank q wallets = .ok wallets' := by
  -- the addition to the balance is all that can fail
  have htotal : ∃ total, newBalance ((wallets.find? (walletKey planId owner)).getD {
      planId
      owner
      balances := .empty
      createAt := ctx.now.secSinceEpoch
      updateAt := ctx.now.secSinceEpoch }).balances ⟨q.symbol, bank⟩ q = .ok total := by
    refine newBalance_of_room hq fun b hb hsym => ?_
    rw [booked] at hroom
    cases hfind : wallets.find? (walletKey planId owner) with
    | none =>
      rw [hfind, Option.getD_none] at hb
      exact absurd hb (Table.not_mem_empty b)
    | some w =>
      rw [hfind, Option.getD_some] at hb
      rw [hfind] at hroom
      obtain ⟨hmem, -⟩ := Table.find?_eq_some.mp hfind
      obtain ⟨hsymbol, hpos, -⟩ := hs w hmem b hb
      have hle := Wallet.le_recorded (hs w hmem) hb
      rw [hsym] at hsymbol hle
      have hroom' : w.recorded ⟨q.symbol, bank⟩ + q.amount ≤ Asset.maxAmount := hroom
      exact ⟨hsymbol, hpos, by omega⟩
  obtain ⟨total, htotal⟩ := htotal
  simp only [addWallet]
  rw [htotal, ok_bind]
  exact ⟨_, rfl⟩

/-- What the other wallets record does not change when one is stored. -/
theorem booked_put (r : Name) : booked (wallets.put w) planId r x
    = if walletKey planId r = w.key then w.recorded x else booked wallets planId r x := by
  rw [booked, Table.find?_put]
  split
  · rfl
  · rfl

/-- `_add_wallet` books the quantity for its owner, and nothing for anybody else. -/
theorem booked_of_addWallet (h : addWallet ctx owner planId bank q wallets = .ok wallets')
    (hs : WalletsSound wallets) (hq : 0 < q.amount ∧ q.amount ≤ Asset.maxAmount) (r : Name)
    (x : ExtendedSymbol) :
    booked wallets' planId r x = booked wallets planId r x
      + if owner = r then portion x ⟨q.symbol, bank⟩ q.amount else 0 := by
  obtain ⟨w, rfl, hkey, -, hrec⟩ := addWallet_put h hs hq
  rw [booked_put, hkey]
  by_cases hr : owner = r
  · rw [if_pos hr, if_pos (by rw [hr]), hrec, hr]
  · have hne : walletKey planId r ≠ walletKey planId owner :=
      fun hk => hr (walletKey_inj.mp hk).2.symm
    rw [if_neg hr, if_neg hne, add_zero]

/-- The only wallet that can be new is the owner's. -/
theorem mem_of_addWallet (h : addWallet ctx owner planId bank q wallets = .ok wallets')
    (hs : WalletsSound wallets) (hq : 0 < q.amount ∧ q.amount ≤ Asset.maxAmount) {v : Wallet}
    (hv : v ∈ wallets') : v ∈ wallets ∨ v.owner = owner := by
  obtain ⟨w, rfl, hkey, -⟩ := addWallet_put h hs hq
  rcases Table.mem_put.mp hv with rfl | ⟨hv, -⟩
  · exact Or.inr (walletKey_inj.mp hkey).2
  · exact Or.inl hv

/-- What a manual plan books for a receiver is its share. -/
theorem booked_of_giveAll (htype : plan.splitType = .manual) (hs : WalletsSound wallets)
    (hgifts : ∀ g ∈ gifts, 0 < g.2.amount ∧ g.2.amount ≤ Asset.maxAmount)
    (h : giveAll ctx plan bank gifts (wallets, outs) = .ok (wallets', outs')) :
    outs' = outs ∧ ∀ r x, booked wallets' plan.id r x
      = booked wallets plan.id r x + paidTo r x (forwards bank gifts) := by
  induction gifts generalizing wallets with
  | nil =>
    rw [giveAll, Except.ok.injEq, Prod.mk.injEq] at h
    rw [← h.1, ← h.2]
    exact ⟨rfl, fun r x => (add_zero _).symm⟩
  | cons g gifts ih =>
    simp only [giveAll, give, htype, bind_eq_ok, pure_eq_ok] at h
    obtain ⟨acc, ⟨wallets₁, hadd, rfl⟩, h⟩ := h
    have hg := hgifts g (List.mem_cons_self ..)
    obtain ⟨hsound, -⟩ := addWallet_spec hadd hs hg
    obtain ⟨houts, hbooked⟩ := ih hsound (fun g' hg' => hgifts g' (List.mem_cons_of_mem _ hg')) h
    refine ⟨houts, fun r x => ?_⟩
    have hcons : forwards bank (g :: gifts) = ⟨bank, g.1, g.2, []⟩ :: forwards bank gifts := rfl
    rw [hbooked, booked_of_addWallet hadd hs hg, hcons, paidTo_cons, add_assoc]
    rfl

/-- Shares that are forwarded move no negative amount. -/
theorem paidTo_forwards_nonneg (hgifts : ∀ g ∈ gifts, 0 < g.2.amount) (r : Name)
    (x : ExtendedSymbol) : 0 ≤ paidTo r x (forwards bank gifts) := by
  refine outflow_nonneg x fun t ht => ?_
  obtain ⟨g, hg, rfl⟩ := List.mem_map.mp (List.mem_filter.mp ht).1
  exact (hgifts g hg).le

/-- A plan of type `MANUAL` books every share exactly when the wallets of the receivers can record
them. -/
theorem giveAll_manual_iff (htype : plan.splitType = .manual) (hs : WalletsSound wallets)
    {sym : Symbol}
    (hgifts : ∀ g ∈ gifts, g.2.symbol = sym ∧ 0 < g.2.amount ∧ g.2.amount ≤ Asset.maxAmount) :
    (∃ acc, giveAll ctx plan bank gifts (wallets, outs) = .ok acc) ↔
      ∀ r, booked wallets plan.id r ⟨sym, bank⟩ + paidTo r ⟨sym, bank⟩ (forwards bank gifts)
        ≤ Asset.maxAmount := by
  induction gifts generalizing wallets with
  | nil =>
    refine iff_of_true ⟨_, rfl⟩ fun r => ?_
    rw [forwards, List.map_nil, paidTo_nil, add_zero]
    exact booked_le hs _ _ _
  | cons g gifts ih =>
    obtain ⟨hsymbol, hg⟩ := hgifts g (List.mem_cons_self ..)
    have hrest : ∀ g' ∈ gifts, g'.2.symbol = sym ∧ 0 < g'.2.amount ∧ g'.2.amount ≤ Asset.maxAmount :=
      fun g' hg' => hgifts g' (List.mem_cons_of_mem _ hg')
    have hcons : forwards bank (g :: gifts) = ⟨bank, g.1, g.2, []⟩ :: forwards bank gifts := rfl
    have htoken : (⟨bank, g.1, g.2, []⟩ : Transfer).token = ⟨sym, bank⟩ := by
      rw [Transfer.token, hsymbol]
    -- once the first share is booked, the wallets have room for all exactly when they have it now
    have hstep : ∀ {wallets₁}, addWallet ctx g.1 plan.id bank g.2 wallets = .ok wallets₁ → ∀ r,
        booked wallets₁ plan.id r ⟨sym, bank⟩ + paidTo r ⟨sym, bank⟩ (forwards bank gifts)
          = booked wallets plan.id r ⟨sym, bank⟩
            + paidTo r ⟨sym, bank⟩ (forwards bank (g :: gifts)) := by
      intro wallets₁ hadd r
      rw [booked_of_addWallet hadd hs hg, hcons, paidTo_cons, if_pos htoken, hsymbol, portion,
        if_pos rfl, add_assoc]
    constructor
    · rintro ⟨acc, hall⟩ r
      simp only [giveAll, give, htype, bind_eq_ok, pure_eq_ok] at hall
      obtain ⟨acc₁, ⟨wallets₁, hadd, rfl⟩, hall⟩ := hall
      rw [← hstep hadd]
      exact (ih (addWallet_spec hadd hs hg).1 hrest).mp ⟨acc, hall⟩ r
    · intro hroom
      have hfirst : booked wallets plan.id g.1 ⟨sym, bank⟩
          + (g.2.amount + paidTo g.1 ⟨sym, bank⟩ (forwards bank gifts)) ≤ Asset.maxAmount := by
        have hall := hroom g.1
        rwa [hcons, paidTo_cons, if_pos rfl, if_pos htoken] at hall
      have hnonneg := @paidTo_forwards_nonneg bank gifts (fun g' hg' => (hrest g' hg').2.1) g.1
        ⟨sym, bank⟩
      have hbook : ∃ wallets₁, addWallet ctx g.1 plan.id bank g.2 wallets = .ok wallets₁ := by
        apply addWallet_of_booked hs hg.1
        rw [hsymbol]
        omega
      obtain ⟨wallets₁, hadd⟩ := hbook
      obtain ⟨acc, hall⟩ := (ih (addWallet_spec hadd hs hg).1 hrest).mpr fun r => by
        rw [hstep hadd]
        exact hroom r
      refine ⟨acc, ?_⟩
      simp only [giveAll, give, htype]
      rw [hadd, ok_bind]
      exact hall

/-- Nobody is paid more than all together. -/
theorem paidTo_forwards_le (hgifts : ∀ g ∈ gifts, 0 < g.2.amount) (r : Name) (x : ExtendedSymbol) :
    paidTo r x (forwards bank gifts) ≤ (gifts.map fun g => g.2.amount).sum := by
  induction gifts with
  | nil => exact le_refl _
  | cons g gifts ih =>
    have hcons : forwards bank (g :: gifts) = ⟨bank, g.1, g.2, []⟩ :: forwards bank gifts := rfl
    have hg := hgifts g (List.mem_cons_self ..)
    have hrest := ih fun g' hg' => hgifts g' (List.mem_cons_of_mem _ hg')
    rw [hcons, paidTo_cons, List.map_cons, List.sum_cons]
    split
    · split
      · exact Int.add_le_add_left hrest _
      · omega
    · omega

/-- Booking shares makes wallets for their receivers only. -/
theorem mem_of_giveAll (htype : plan.splitType = .manual) (hs : WalletsSound wallets)
    (hgifts : ∀ g ∈ gifts, 0 < g.2.amount ∧ g.2.amount ≤ Asset.maxAmount)
    (h : giveAll ctx plan bank gifts (wallets, outs) = .ok (wallets', outs')) {v : Wallet}
    (hv : v ∈ wallets') : v ∈ wallets ∨ ∃ g ∈ gifts, v.owner = g.1 := by
  induction gifts generalizing wallets with
  | nil =>
    rw [giveAll, Except.ok.injEq, Prod.mk.injEq] at h
    rw [h.1]
    exact Or.inl hv
  | cons g gifts ih =>
    simp only [giveAll, give, htype, bind_eq_ok, pure_eq_ok] at h
    obtain ⟨acc, ⟨wallets₁, hadd, rfl⟩, h⟩ := h
    have hg := hgifts g (List.mem_cons_self ..)
    have hrest := fun g' hg' => hgifts g' (List.mem_cons_of_mem _ hg')
    rcases ih (addWallet_spec hadd hs hg).1 hrest h with hv | ⟨g', hg', howner⟩
    · rcases mem_of_addWallet hadd hs hg hv with hv | howner
      · exact Or.inl hv
      · exact Or.inr ⟨g, List.mem_cons_self .., howner⟩
    · exact Or.inr ⟨g', List.mem_cons_of_mem _ hg', howner⟩

/-- A plan of type `MANUAL` books every share, when the account can record them all, and makes
wallets for its receivers only. What it books for a receiver is what the other type forwards to
it. -/
theorem giveAll_manual (htype : plan.splitType = .manual) (hs : WalletsSound wallets) {sym : Symbol}
    (hgifts : ∀ g ∈ gifts, g.2.symbol = sym ∧ 0 < g.2.amount)
    (hroom : recorded wallets ⟨sym, bank⟩ + (gifts.map fun g => g.2.amount).sum ≤ Asset.maxAmount) :
    ∃ wallets', giveAll ctx plan bank gifts (wallets, outs) = .ok (wallets', outs) ∧
      (∀ v ∈ wallets', v ∈ wallets ∨ ∃ g ∈ gifts, v.owner = g.1) ∧
      ∀ r x, booked wallets' plan.id r x
        = booked wallets plan.id r x + paidTo r x (forwards bank gifts) := by
  have hpos : ∀ g ∈ gifts, 0 < g.2.amount := fun g hg => (hgifts g hg).2
  -- no share is larger than what the account can record
  have hrange : ∀ g ∈ gifts, 0 < g.2.amount ∧ g.2.amount ≤ Asset.maxAmount := by
    intro g hg
    have hrecorded : 0 ≤ recorded wallets ⟨sym, bank⟩ := recorded_nonneg hs
    have hle := le_sum_of_mem hpos hg
    exact ⟨hpos g hg, by omega⟩
  have hfits : ∀ r, booked wallets plan.id r ⟨sym, bank⟩
      + paidTo r ⟨sym, bank⟩ (forwards bank gifts) ≤ Asset.maxAmount := by
    intro r
    have hbooked := booked_le_recorded hs plan.id r ⟨sym, bank⟩
    have hpaid := @paidTo_forwards_le bank gifts hpos r ⟨sym, bank⟩
    omega
  obtain ⟨⟨wallets', outs'⟩, hall⟩ := (giveAll_manual_iff htype hs fun g hg =>
    ⟨(hgifts g hg).1, hrange g hg⟩).mpr hfits
  obtain ⟨rfl, hbooked⟩ := booked_of_giveAll htype hs hrange hall
  exact ⟨wallets', hall, fun v hv => mem_of_giveAll htype hs hrange hall hv, hbooked⟩

end Book

end Split
end ToolkitContracts
