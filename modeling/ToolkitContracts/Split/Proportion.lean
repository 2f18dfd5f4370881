import ToolkitContracts.Lib.Apportion
import ToolkitContracts.Split.Modes
import ToolkitContracts.Split.Stored

/-!
# Proportional shares

Every stored plan has been through `check_rate`: its receivers are distinct and their rates
add up to 10000. A share is computed from a product that wraps around at `2 ^ 64`, so it
never exceeds the exact proportion; the shares therefore fit the quantity, the loop of
`_split` never runs short, and what it hands out and what it leaves over make up the
quantity. The shares are the right ones only as long as no product wraps and no earlier share
is empty, since an empty share ends the loop.
-/

namespace ToolkitContracts
namespace Split

/-! ## What `check_rate` accepts -/

/-- The rates of the receivers. -/
def rates (confs : List SplitUnit) : List ℕ := confs.map SplitUnit.tokenSplitAmount

/-- Distinct receivers with positive rates that add up to 100%. -/
structure RatesChecked (confs : List SplitUnit) : Prop where
  pos : ∀ r ∈ rates confs, 0 < r
  distinct : (confs.map SplitUnit.tokenReceiver).Nodup
  total : (rates confs).sum = pctBoost

theorem RatesChecked.ne_nil {confs : List SplitUnit} (h : RatesChecked confs) : confs ≠ [] := by
  intro hnil
  have htotal := h.total
  rw [hnil] at htotal
  cases htotal

section CheckRate
variable {ctx : Ctx} {confs : List SplitUnit} {seen : List Name} {initRate r : ℕ}

/-- The loop of `check_rate` adds the rates up. The sum does not wrap around, since there are
few receivers. -/
theorem checkRateFrom_spec (h : checkRateFrom ctx confs seen initRate = .ok r)
    (hsize : initRate + confs.length * pctBoost < 2 ^ 64) :
    (∀ a ∈ rates confs, 0 < a) ∧ (confs.map SplitUnit.tokenReceiver).Nodup ∧
    (∀ c ∈ confs, c.tokenReceiver ∉ seen) ∧ r = initRate + (rates confs).sum := by
  induction confs generalizing seen initRate with
  | nil =>
    rw [checkRateFrom, Except.ok.injEq] at h
    simp [rates, h]
  | cons c confs ih =>
    simp only [checkRateFrom, bind_eq_ok, checkc_eq_ok, exists_const] at h
    obtain ⟨-, ⟨hpos, hmax⟩, hnew, h⟩ := h
    rw [List.length_cons, add_mul, one_mul] at hsize
    have hword : u64 (initRate + c.tokenSplitAmount) = initRate + c.tokenSplitAmount := by
      have hexact := u64_eq (x := initRate + c.tokenSplitAmount) (by omega) (by omega)
      omega
    rw [hword] at h
    obtain ⟨hrates, hdistinct, hseen, hsum⟩ := ih h (by omega)
    refine ⟨fun a ha => ?_, ?_, fun c' hc' => ?_, ?_⟩
    · rcases List.mem_cons.mp ha with rfl | ha
      · exact hpos
      · exact hrates a ha
    · rw [List.map_cons, List.nodup_cons]
      refine ⟨fun hmem => ?_, hdistinct⟩
      obtain ⟨c', hc', hsame⟩ := List.mem_map.mp hmem
      exact hseen c' hc' (hsame ▸ List.mem_cons_self ..)
    · rcases List.mem_cons.mp hc' with rfl | hc'
      · exact hnew
      · exact fun hold => hseen c' hc' (List.mem_cons_of_mem _ hold)
    · rw [hsum, rates, rates, List.map_cons, List.sum_cons, add_assoc]

theorem ratesChecked_of_checkRate {u : Unit} (h : checkRate ctx confs = .ok u)
    (hsize : confs.length ≤ 50) : RatesChecked confs := by
  simp only [checkRate, bind_eq_ok, checkc_eq_ok] at h
  obtain ⟨r, hr, htotal⟩ := h
  obtain ⟨hpos, hdistinct, -, hsum⟩ := checkRateFrom_spec hr (by unfold pctBoost; omega)
  rw [zero_add] at hsum
  exact ⟨hpos, hdistinct, hsum.symm.trans htotal⟩

end CheckRate

/-- The plans of a state have all been checked. -/
def PlansChecked (s : State) : Prop := ∀ p ∈ s.plans, RatesChecked p.splitConf

section Plans
variable {account : Name} {ctx : Ctx} {s s' : State} {outs : List Transfer}

theorem plansChecked_of_exec {a : Action} (hstored : PlansStored s) (hs : PlansChecked s)
    (h : exec account ctx a s = .ok (s', outs)) : PlansChecked s' := by
  cases a with
  | init admin minCount maxCount =>
    simp only [exec, Split.init, bind_eq_ok, pure_eq_ok, Prod.mk.injEq] at h
    obtain ⟨-, -, -, -, -, -, rfl, -⟩ := h
    exact hs
  | addplan owner title conf isAuto =>
    simp only [exec, addplan, bind_eq_ok, checkc_eq_ok, exists_const, pure_eq_ok,
      Prod.mk.injEq, emplace_eq_ok] at h
    obtain ⟨-, _, hsize, -, _, hrate, plans, ⟨-, rfl⟩, rfl, -⟩ := h
    exact Table.forall_put hs (ratesChecked_of_checkRate hrate
      ((size_of_checkSize hsize).trans hstored.maxSplitCount))
  | editplan owner planId conf isAuto =>
    simp only [exec, editplan, bind_eq_ok, Ctx.requireAuth_eq_ok, require_eq_ok, checkc_eq_ok,
      exists_const] at h
    obtain ⟨-, _, hsize, _, hrate, plan, -, -, h⟩ := h
    obtain ⟨hplans, -⟩ := inlineClaimall_frame h
    rw [PlansChecked, hplans]
    exact Table.forall_put hs (ratesChecked_of_checkRate hrate
      ((size_of_checkSize hsize).trans hstored.maxSplitCount))
  | claim planId owner =>
    rw [PlansChecked, (claim_frame h).1]
    exact hs
  | claimall planId =>
    rw [PlansChecked, (claimall_frame h).1]
    exact hs

theorem plansChecked_of_step {w w' : World State} {i : Ctx × Input Action}
    (hstored : PlansStored w.state) (hs : PlansChecked w.state)
    (h : (contract account).step w i = .ok w') : PlansChecked w'.state := by
  obtain ⟨outs, hrun⟩ := (contract account).run_of_step h
  obtain ⟨ctx, inp⟩ := i
  cases inp with
  | act a => exact plansChecked_of_exec hstored hs hrun
  | notify n =>
    rw [PlansChecked, (ontransfer_frame hrun).1]
    exact hs

/-- Every plan of a reachable state has been through `check_rate`. -/
theorem plansChecked_of_run {clock : TimePoint} {is : List (Ctx × Input Action)}
    {w : World State}
    (hrun : Transition.Run (contract account).step Transition.Unrestricted (genesis clock) is w) :
    PlansChecked w.state := by
  have hboth : PlansStored w.state ∧ PlansChecked w.state :=
    hrun.invariant (P := fun w => PlansStored w.state ∧ PlansChecked w.state)
      (fun _ _ _ hs _ h => ⟨plansStored_of_step hs.1 h, plansChecked_of_step hs.1 hs.2 h⟩)
      ⟨plansStored_genesis clock, fun p hp => absurd hp (Table.not_mem_empty p)⟩
  exact hboth.2

end Plans

/-! ## One share -/

/-- The amount of a share: the product in `uint64_t`, divided by 10000. -/
def shareAmount (q : ℤ) (rate : ℕ) : ℤ := (u64 (q * rate) / pctBoost : ℕ)

section Share
variable {q : ℤ} {rate : ℕ}

theorem shareAmount_nonneg (q : ℤ) (rate : ℕ) : 0 ≤ shareAmount q rate :=
  Int.natCast_nonneg _

theorem shareAmount_eq (q : ℤ) (rate : ℕ) : shareAmount q rate = q * rate % 2 ^ 64 / 10000 := by
  unfold shareAmount u64 pctBoost
  omega

/-- A product that wraps around makes a share smaller, never larger. -/
theorem shareAmount_mul_le (hq : 0 ≤ q) : shareAmount q rate * pctBoost ≤ q * rate := by
  have hprod : 0 ≤ q * rate := mul_nonneg hq (Int.natCast_nonneg _)
  rw [shareAmount_eq, pctBoost]
  omega

theorem floorShare_eq (q : ℤ) (rate : ℕ) :
    Apportion.floorShare pctBoost q rate = q * rate / 10000 := rfl

theorem floorShare_eq_zero (hq : 0 ≤ q) :
    Apportion.floorShare pctBoost q rate = 0 ↔ q * rate < 10000 := by
  have hprod : 0 ≤ q * rate := mul_nonneg hq (Int.natCast_nonneg _)
  rw [floorShare_eq]
  omega

theorem shareAmount_pos : 0 < shareAmount q rate ↔ 10000 ≤ q * rate % 2 ^ 64 := by
  rw [shareAmount_eq]
  omega

/-- A share is the rounded proportion exactly when its product does not wrap around. -/
theorem shareAmount_eq_floorShare (hq : 0 ≤ q) :
    shareAmount q rate = Apportion.floorShare pctBoost q rate ↔ q * rate < 2 ^ 64 := by
  have hprod : 0 ≤ q * rate := mul_nonneg hq (Int.natCast_nonneg _)
  rw [shareAmount_eq, floorShare_eq]
  omega

/-- A quantity that a token contract moves has shares that are assets. -/
theorem share_eq {quant : Asset} (hquant : quant.isValid) (rate : ℕ) :
    ∃ tokens, share quant rate = .ok tokens ∧ tokens.amount = shareAmount quant.amount rate ∧
      tokens.symbol = quant.symbol := by
  have hword := u64_lt (quant.amount * rate)
  have hmax : Asset.maxAmount = 2 ^ 62 - 1 := rfl
  have hrate : pctBoost = 10000 := rfl
  apply Asset.new_of_range
  · rw [hrate]
    omega
  · rw [hrate]
    omega
  · exact hquant.2

end Share

/-! ## The loop -/

section Loop
variable {q currentQuant rest : Asset} {confs : List SplitUnit} {gifts : List (Name × Asset)}
  {bank : Name}

/-- The shares of the receivers, as long as none is empty. -/
def loopShares (q : ℤ) (confs : List SplitUnit) : List ℤ :=
  Apportion.untilZero ((rates confs).map (shareAmount q))

/-- The loop never runs short when the shares fit what there is to distribute. -/
theorem sharesFrom_of_fits (hq : q.isValid) (hsymbol : currentQuant.symbol = q.symbol)
    (hmax : currentQuant.amount ≤ Asset.maxAmount)
    (hfits : ((rates confs).map (shareAmount q.amount)).sum ≤ currentQuant.amount) :
    ∃ rest gifts, sharesFrom q confs currentQuant = .ok (rest, gifts) := by
  induction confs generalizing currentQuant with
  | nil => exact ⟨currentQuant, [], rfl⟩
  | cons p confs ih =>
    obtain ⟨tokens, htokens, hamount, htokensSymbol⟩ := share_eq hq p.tokenSplitAmount
    rw [sharesFrom, htokens, ok_bind]
    split
    · exact ⟨currentQuant, [], rfl⟩
    · next hpos =>
      rw [rates, List.map_cons, List.map_cons, List.sum_cons, ← hamount] at hfits
      have hlater : 0 ≤ ((rates confs).map (shareAmount q.amount)).sum := by
        refine List.sum_nonneg fun x hx => ?_
        obtain ⟨r, -, rfl⟩ := List.mem_map.mp hx
        exact shareAmount_nonneg _ _
      have hfits' : tokens.amount + ((rates confs).map (shareAmount q.amount)).sum
          ≤ currentQuant.amount := hfits
      have hmaxAmount : Asset.maxAmount = 2 ^ 62 - 1 := rfl
      have hexact : i64 (currentQuant.amount - tokens.amount) = currentQuant.amount - tokens.amount :=
        i64_eq (by omega) (by omega)
      have hnext : currentQuant.sub tokens
          = .ok (currentQuant.setAmount (currentQuant.amount - tokens.amount)) := by
        refine Asset.sub_eq_ok.mpr ⟨htokensSymbol.trans hsymbol.symm, rfl, ?_⟩
        rw [Asset.isAmountWithinRange, Asset.setAmount_amount, hexact]
        constructor
        · omega
        · omega
      rw [checkc_of (by omega), hnext, ok_bind]
      have hnextAmount : (currentQuant.setAmount (currentQuant.amount - tokens.amount)).amount
          = currentQuant.amount - tokens.amount := hexact
      have hloop : ∃ rest gifts, sharesFrom q confs
          (currentQuant.setAmount (currentQuant.amount - tokens.amount)) = .ok (rest, gifts) := by
        apply ih
        · exact hsymbol
        · omega
        · omega
      obtain ⟨rest, gifts, hloop⟩ := hloop
      rw [hloop]
      exact ⟨rest, (p.tokenReceiver, tokens) :: gifts, rfl⟩

/-- What the transfers move to somebody they do not mention. -/
theorem paidTo_forwards_of_absent {r : Name} (h : ∀ g ∈ gifts, g.1 ≠ r) (x : ExtendedSymbol) :
    paidTo r x (forwards bank gifts) = 0 := by
  induction gifts with
  | nil => rfl
  | cons g gifts ih =>
    have hcons : forwards bank (g :: gifts) = ⟨bank, g.1, g.2, []⟩ :: forwards bank gifts := rfl
    rw [hcons, paidTo_cons, if_neg (h g (List.mem_cons_self ..)), zero_add]
    exact ih fun g' hg' => h g' (List.mem_cons_of_mem _ hg')

/-- What the transfers move to the receivers, one by one. -/
def payments (bank : Name) (x : ExtendedSymbol) (confs : List SplitUnit)
    (gifts : List (Name × Asset)) : List ℤ :=
  confs.map fun p => paidTo p.tokenReceiver x (forwards bank gifts)

theorem payments_of_absent (h : ∀ g ∈ gifts, ∀ p ∈ confs, p.tokenReceiver ≠ g.1)
    (x : ExtendedSymbol) : payments bank x confs gifts = confs.map fun _ => 0 := by
  refine List.map_congr_left fun p hp => ?_
  exact paidTo_forwards_of_absent (fun g hg => (h g hg p hp).symm) x

/-- One more transfer, to a receiver that is not among the others. -/
theorem payments_cons {p : SplitUnit} {tokens : Asset}
    (hnew : p.tokenReceiver ∉ confs.map SplitUnit.tokenReceiver)
    (hgifts : ∀ g ∈ gifts, ∃ p ∈ confs, p.tokenReceiver = g.1) :
    payments bank ⟨tokens.symbol, bank⟩ (p :: confs) ((p.tokenReceiver, tokens) :: gifts)
      = tokens.amount :: payments bank ⟨tokens.symbol, bank⟩ confs gifts := by
  have hcons : forwards bank ((p.tokenReceiver, tokens) :: gifts)
      = ⟨bank, p.tokenReceiver, tokens, []⟩ :: forwards bank gifts := rfl
  have hother : ∀ p' ∈ confs, p.tokenReceiver ≠ p'.tokenReceiver := by
    intro p' hp' hsame
    exact hnew (List.mem_map.mpr ⟨p', hp', hsame.symm⟩)
  have hhead : paidTo p.tokenReceiver ⟨tokens.symbol, bank⟩
      (⟨bank, p.tokenReceiver, tokens, []⟩ :: forwards bank gifts) = tokens.amount := by
    rw [paidTo_cons, if_pos rfl, paidTo_forwards_of_absent, add_zero]
    · exact if_pos rfl
    · intro g hg hsame
      obtain ⟨p', hp', hto⟩ := hgifts g hg
      exact hother p' hp' (hto.trans hsame).symm
  rw [payments, List.map_cons, hcons, hhead, payments, List.cons_eq_cons]
  refine ⟨rfl, List.map_congr_left fun p' hp' => ?_⟩
  rw [paidTo_cons, if_neg (hother p' hp'), zero_add]

/-- The loop hands every receiver its share, as long as none is empty. -/
theorem payments_of_sharesFrom (hq : q.isValid)
    (h : sharesFrom q confs currentQuant = .ok (rest, gifts))
    (hsymbol : currentQuant.symbol = q.symbol)
    (hrange : 0 ≤ currentQuant.amount ∧ currentQuant.amount ≤ Asset.maxAmount)
    (hdistinct : (confs.map SplitUnit.tokenReceiver).Nodup) :
    payments bank ⟨q.symbol, bank⟩ confs gifts = loopShares q.amount confs ∧
    (gifts.map fun g => g.2.amount).sum = (loopShares q.amount confs).sum := by
  induction confs generalizing currentQuant gifts with
  | nil =>
    rw [sharesFrom, Except.ok.injEq, Prod.mk.injEq] at h
    rw [← h.2]
    exact ⟨rfl, rfl⟩
  | cons p confs ih =>
    obtain ⟨tokens, htokens, hamount, htokensSymbol⟩ := share_eq hq p.tokenSplitAmount
    have hshares : loopShares q.amount (p :: confs) = if tokens.amount ≤ 0
        then 0 :: confs.map (fun _ => 0) else tokens.amount :: loopShares q.amount confs := by
      rw [hamount, loopShares, rates, List.map_cons, List.map_cons, Apportion.untilZero,
        List.map_map, List.map_map]
      rfl
    rw [sharesFrom, htokens, ok_bind] at h
    split at h
    · next hempty =>
      -- the loop ends, and nobody gets anything any more
      rw [Except.ok.injEq, Prod.mk.injEq] at h
      rw [hshares, if_pos hempty, ← h.2]
      refine ⟨?_, ?_⟩
      · rw [payments_of_absent fun g hg => absurd hg List.not_mem_nil]
        rfl
      · simp
    · next hpos =>
      simp only [bind_eq_ok, checkc_eq_ok, exists_const, pure_eq_ok, Prod.mk.injEq] at h
      obtain ⟨hle, next, hnext, ⟨rest', gifts'⟩, hgifts, rfl, rfl⟩ := h
      rw [List.map_cons, List.nodup_cons] at hdistinct
      have hexact := Asset.amount_of_sub hnext hrange.1 (by omega)
      have hnextSymbol := (Asset.symbol_of_sub hnext).trans hsymbol
      have hnextRange : 0 ≤ next.amount ∧ next.amount ≤ Asset.maxAmount := ⟨by omega, by omega⟩
      obtain ⟨hpayments, hsum⟩ := ih hgifts hnextSymbol hnextRange hdistinct.2
      obtain ⟨-, -, hto, -⟩ := sharesFrom_spec hgifts hnextSymbol hnextRange
      rw [hshares, if_neg hpos]
      refine ⟨?_, ?_⟩
      · rw [← htokensSymbol] at hpayments ⊢
        rw [payments_cons hdistinct.1 fun g hg => (hto g hg).2.2, hpayments]
      · rw [List.map_cons, List.sum_cons, List.sum_cons, hsum]

/-- What the loop does when the shares are there: it hands them on, one after the other. -/
theorem splitFrom_eq_giveAll {ctx : Ctx} {plan : TokenSplitPlan}
    (h : sharesFrom q confs currentQuant = .ok (rest, gifts))
    (acc : Table Wallet.key × List Transfer) :
    splitFrom ctx plan bank q confs currentQuant acc
      = giveAll ctx plan bank gifts acc >>= fun acc => .ok (rest, acc) := by
  induction confs generalizing currentQuant gifts acc with
  | nil =>
    rw [sharesFrom, Except.ok.injEq, Prod.mk.injEq] at h
    rw [← h.1, ← h.2]
    rfl
  | cons p confs ih =>
    simp only [sharesFrom, bind_eq_ok] at h
    obtain ⟨tokens, htokens, h⟩ := h
    rw [splitFrom, htokens, ok_bind]
    split at h
    · next hempty =>
      rw [Except.ok.injEq, Prod.mk.injEq] at h
      rw [if_pos hempty, ← h.1, ← h.2]
      rfl
    · next hpos =>
      simp only [bind_eq_ok, checkc_eq_ok, exists_const, pure_eq_ok, Prod.mk.injEq] at h
      obtain ⟨hle, next, hnext, ⟨rest', gifts'⟩, hgifts, rfl, rfl⟩ := h
      rw [if_neg hpos, checkc_of hle, giveAll]
      cases hgive : give ctx plan bank p.tokenReceiver tokens acc with
      | error e => rfl
      | ok acc₁ =>
        rw [ok_bind, hnext, ok_bind]
        exact ih hgifts acc₁

end Loop

/-! ## The whole quantity -/

section Whole
variable {q : Asset} {confs : List SplitUnit} {gifts : List (Name × Asset)} {bank : Name}

/-- The shares fit the quantity, also where their products wrap around. -/
theorem sum_shareAmount_le {ws : List ℕ} {amount : ℤ} (hq : 0 ≤ amount) (hws : ws.sum ≤ pctBoost) :
    (ws.map (shareAmount amount)).sum ≤ amount :=
  Apportion.sum_le (Nat.lt_of_sub_eq_succ rfl) hq hws fun _ _ => shareAmount_mul_le hq

theorem sum_rates_take (confs : List SplitUnit) (k : ℕ) :
    (rates (confs.take k)).sum ≤ (rates confs).sum := by
  have hsplit := List.sum_take_add_sum_drop (rates confs) k
  rw [rates, List.map_take]
  unfold rates at hsplit ⊢
  omega

/-- A quantity is divided among receivers that were checked: they get their shares as long as
none is empty, and the first one gets what is left. -/
theorem shares_of_checked (hconf : RatesChecked confs) (hq : q.isValid) (hpos : 0 < q.amount) :
    ∃ gifts, shares q confs = .ok gifts ∧ ∀ bank, payments bank ⟨q.symbol, bank⟩ confs gifts
      = Apportion.topUp q.amount (loopShares q.amount confs) := by
  obtain ⟨rest, gifts, hloop⟩ := sharesFrom_of_fits hq rfl hq.1.2
    (sum_shareAmount_le hpos.le hconf.total.le)
  cases confs with
  | nil => exact absurd rfl hconf.ne_nil
  | cons p confs =>
    refine ⟨_, by rw [shares, hloop]; rfl, fun bank => ?_⟩
    have hloopShares : payments bank ⟨q.symbol, bank⟩ (p :: confs) gifts
          = loopShares q.amount (p :: confs) ∧
        (gifts.map fun g => g.2.amount).sum = (loopShares q.amount (p :: confs)).sum :=
      payments_of_sharesFrom hq hloop rfl ⟨hpos.le, hq.1.2⟩ hconf.distinct
    obtain ⟨hpayments, hsum⟩ := hloopShares
    obtain ⟨hsymbol, hrest, -, htotal⟩ := sharesFrom_spec hloop rfl ⟨hpos.le, hq.1.2⟩
    have hdistinct := hconf.distinct
    rw [List.map_cons, List.nodup_cons] at hdistinct
    -- the first receiver gets the rest on top, the others nothing more
    have hfirst : ∀ r, paidTo r ⟨q.symbol, bank⟩ (forwards bank
        (if 0 < rest.amount then gifts ++ [(p.tokenReceiver, rest)] else gifts))
        = paidTo r ⟨q.symbol, bank⟩ (forwards bank gifts)
          + if p.tokenReceiver = r then rest.amount else 0 := by
      intro r
      split
      · rw [forwards, List.map_append, paidTo_append, List.map_singleton, paidTo_cons, paidTo_nil,
          add_zero, ← hsymbol]
        exact congrArg₂ _ rfl (if_congr Iff.rfl (if_pos rfl) rfl)
      · have hzero : rest.amount = 0 := by omega
        rw [hzero, ite_self, add_zero]
    have hothers : confs.map (fun p' => paidTo p'.tokenReceiver ⟨q.symbol, bank⟩ (forwards bank
        (if 0 < rest.amount then gifts ++ [(p.tokenReceiver, rest)] else gifts)))
        = payments bank ⟨q.symbol, bank⟩ confs gifts := by
      refine List.map_congr_left fun p' hp' => ?_
      have hne : p.tokenReceiver ≠ p'.tokenReceiver :=
        fun hsame => hdistinct.1 (List.mem_map.mpr ⟨p', hp', hsame.symm⟩)
      rw [hfirst, if_neg hne, add_zero]
    rw [payments, List.map_cons] at hpayments
    rw [← hpayments, List.sum_cons] at hsum
    rw [payments, List.map_cons, hothers, hfirst, if_pos rfl, ← hpayments, Apportion.topUp,
      List.cons_eq_cons]
    refine ⟨?_, rfl⟩
    have htail : (confs.map fun p => paidTo p.tokenReceiver ⟨q.symbol, bank⟩ (forwards bank gifts)).sum
        = (payments bank ⟨q.symbol, bank⟩ confs gifts).sum := rfl
    omega

/-- `_split` hands the shares on, one after the other, once the quantity is divided. -/
theorem split_eq_giveAll {ctx : Ctx} {plan : TokenSplitPlan} {s : State}
    (hplan : s.plans.find? plan.id = some plan) (h : shares q plan.splitConf = .ok gifts) :
    split ctx bank plan.id q s
      = giveAll ctx plan bank gifts (s.wallets, [])
          >>= fun acc => .ok ({ s with wallets := acc.1 }, acc.2) := by
  simp only [shares, bind_eq_ok, require_eq_ok, pure_eq_ok] at h
  obtain ⟨⟨rest, gifts'⟩, hloop, first, hfirst, rfl⟩ := h
  rw [split, hplan, require, ok_bind, splitFrom_eq_giveAll hloop, hfirst]
  split
  · next hpos =>
    rw [giveAll_append]
    cases giveAll ctx plan bank gifts' (s.wallets, []) with
    | error e => rfl
    | ok acc =>
      simp only [ok_bind, require, giveRest, if_pos hpos, giveAll]
      cases give ctx plan bank first.tokenReceiver rest acc with
      | error e => rfl
      | ok acc₁ => rfl
  · next hnone =>
    cases giveAll ctx plan bank gifts' (s.wallets, []) with
    | error e => rfl
    | ok acc =>
      simp only [ok_bind, require, giveRest, if_neg hnone]
      rfl

end Whole

/-! ## Credits -/

/-- What a transfer credits an account under a plan: transfers to it, and what its wallet
records more. -/
def credited (plan : TokenSplitPlan) (x : ExtendedSymbol) (s : State) (e : Effect State)
    (r : Name) : ℤ :=
  paidTo r x e.2 + (booked e.1.wallets plan.id r x - booked s.wallets plan.id r x)

/-- What the receivers of a plan are credited, in their order. -/
def credits (plan : TokenSplitPlan) (x : ExtendedSymbol) (s : State) (e : Effect State) : List ℤ :=
  plan.splitConf.map fun p => credited plan x s e p.tokenReceiver

/-- The shares after the first come out right: the receiver is entitled to nothing, or its
product fits 64 bits and no earlier product comes out below 10000 there. -/
def SharesExact (q : ℤ) (rs : List ℕ) : Prop :=
  ∀ (i r : ℕ), rs[i]? = some r → 0 < i →
    q * r < 10000 ∨ (q * r < 2 ^ 64 ∧ ∀ r' ∈ rs.take i, 10000 ≤ q * r' % 2 ^ 64)

section Credits
variable {account : Name} {ctx : Ctx} {plan : TokenSplitPlan} {bank : Name} {q : Asset}
  {gifts : List (Name × Asset)} {wallets wallets' : Table Wallet.key}
  {outs outs' : List Transfer} {w : World State} {n : Notice}

/-- Under a plan of either type a receiver is credited its share. -/
theorem credited_of_giveAll (hs : WalletsSound w.state.wallets)
    (hgifts : ∀ g ∈ gifts, 0 < g.2.amount ∧ g.2.amount ≤ Asset.maxAmount)
    (h : giveAll ctx plan bank gifts (w.state.wallets, []) = .ok (wallets, outs)) (r : Name)
    (x : ExtendedSymbol) :
    credited plan x w.state ({ w.state with wallets }, outs) r = paidTo r x (forwards bank gifts) := by
  cases htype : plan.splitType with
  | auto =>
    rw [giveAll_auto htype, Except.ok.injEq, Prod.mk.injEq] at h
    obtain ⟨rfl, rfl⟩ := h
    rw [credited, sub_self, add_zero]
    rfl
  | manual =>
    obtain ⟨rfl, hbooked⟩ := booked_of_giveAll htype hs hgifts h
    have hr := hbooked r x
    show paidTo r x [] + (booked wallets plan.id r x - booked w.state.wallets plan.id r x) = _
    rw [paidTo_nil]
    omega

/-- A division between receivers is handed on as a whole: an automatic plan forwards it, and a
manual plan books it when the account can record it. -/
theorem giveAll_of_room (hw : Solvent w) (hsum : (gifts.map fun g => g.2.amount).sum = q.amount)
    (hgifts : ∀ g ∈ gifts, g.2.symbol = q.symbol ∧ 0 < g.2.amount)
    (hroom : plan.splitType = .manual →
      w.holding ⟨q.symbol, bank⟩ + q.amount ≤ Asset.maxAmount) :
    ∃ acc, giveAll ctx plan bank gifts (w.state.wallets, []) = .ok acc := by
  cases htype : plan.splitType with
  | auto => exact ⟨_, giveAll_auto htype⟩
  | manual =>
    have hroom' := hroom htype
    rw [hw.holding, ← hsum] at hroom'
    have hgive : ∃ wallets', giveAll ctx plan bank gifts (w.state.wallets, []) = .ok (wallets', []) ∧
        _ := giveAll_manual htype hw.sound hgifts hroom'
    obtain ⟨wallets', hgive, -⟩ := hgive
    exact ⟨_, hgive⟩

/-- The receivers are credited their shares as long as none is empty, and the first one what
is left. -/
theorem credits_of_run {e : Effect State} (hw : Solvent w) (hconf : RatesChecked plan.splitConf)
    (hplan : w.state.plans.find? plan.id = some plan) (hsender : n.sender ≠ account)
    (hto : n.recipient = account) (hmemo : memoPlan ctx n.memo = .ok plan.id)
    (h : (contract account).run ctx (.notify n) w.state = .ok e) :
    credits plan n.token w.state e
      = Apportion.topUp n.quantity.amount (loopShares n.quantity.amount plan.splitConf) := by
  obtain ⟨hpos, hsplit⟩ := (ontransfer_eq_ok hsender hto hmemo).mp h
  obtain ⟨gifts, hgifts, hpayments⟩ := shares_of_checked hconf n.valid hpos
  obtain ⟨s', outs⟩ := e
  obtain ⟨gifts', wallets, hgifts', hgive, rfl⟩ := (split_eq_ok hplan).mp hsplit
  obtain rfl : gifts = gifts' := Except.ok.inj (hgifts.symm.trans hgifts')
  have hrange : ∀ g ∈ gifts, 0 < g.2.amount ∧ g.2.amount ≤ Asset.maxAmount := by
    intro g hg
    obtain ⟨-, hpositive, hle⟩ := share_of_shares hgifts ⟨hpos, n.valid.1.2⟩ hg
    exact ⟨hpositive, hle.trans n.valid.1.2⟩
  rw [← hpayments n.bank]
  exact List.map_congr_left fun p _ => credited_of_giveAll hw.sound hrange hgive _ _

/-- For every plan of a reachable state and every positive quantity, the receivers of an
accepted transfer are credited what they are entitled to exactly when the shares after the
first come out right. The transfer is accepted when the plan is automatic, or when the
account can record what it then holds. -/
theorem proportional_iff {clock : TimePoint} {is : List (Ctx × Input Action)}
    (hrun : Transition.Run (contract account).step Transition.Unrestricted (genesis clock) is w)
    (hplan : plan ∈ w.state.plans) (hsender : n.sender ≠ account) (hto : n.recipient = account)
    (hmemo : memoPlan ctx n.memo = .ok plan.id) (hpos : 0 < n.quantity.amount) :
    (∀ e, (contract account).run ctx (.notify n) w.state = .ok e →
      (credits plan n.token w.state e
          = Apportion.entitlements pctBoost n.quantity.amount (rates plan.splitConf) ↔
        SharesExact n.quantity.amount (rates plan.splitConf))) ∧
    ((plan.splitType = .manual → w.holding n.token + n.quantity.amount ≤ Asset.maxAmount) →
      ∃ e, (contract account).run ctx (.notify n) w.state = .ok e) := by
  have hconf := plansChecked_of_run hrun plan hplan
  have hw := solvent_of_run hrun
  have hfind := Table.find?_self hplan
  refine ⟨fun e he => ?_, fun hroom => ?_⟩
  · rw [credits_of_run hw hconf hfind hsender hto hmemo he, loopShares,
      Apportion.topUp_untilZero_iff fun r _ => shareAmount_nonneg _ r]
    · -- the conditions on one place, in terms of its product
      unfold SharesExact
      refine forall_congr' fun i => forall_congr' fun r => forall_congr' fun _ =>
        forall_congr' fun _ => ?_
      rw [floorShare_eq_zero hpos.le, shareAmount_eq_floorShare hpos.le]
      simp only [shareAmount_pos]
    · intro r _ hzero
      have hle : shareAmount n.quantity.amount r * pctBoost ≤ n.quantity.amount * r :=
        shareAmount_mul_le hpos.le
      have hless := (floorShare_eq_zero hpos.le).mp hzero
      have hnonneg := shareAmount_nonneg n.quantity.amount r
      rw [pctBoost] at hle
      omega
  · obtain ⟨gifts, hgifts, -⟩ := shares_of_checked hconf n.valid hpos
    obtain ⟨hall, hsum⟩ := shares_spec hgifts ⟨hpos, n.valid.1.2⟩
    have hgive : ∃ acc, giveAll ctx plan n.bank gifts (w.state.wallets, []) = .ok acc :=
      giveAll_of_room hw hsum (fun g hg => ⟨(hall g hg).1, (hall g hg).2.1⟩) hroom
    obtain ⟨⟨wallets, outs⟩, hgive⟩ := hgive
    exact ⟨_, (ontransfer_eq_ok hsender hto hmemo).mpr
      ⟨hpos, (split_eq_ok hfind).mpr ⟨gifts, wallets, hgifts, hgive, rfl⟩⟩⟩

/-- Handing quantities on never reports that the balance is insufficient. -/
theorem avoids_giveAll (acc : Table Wallet.key × List Transfer) :
    Avoids Err.rateOverload.code (giveAll ctx plan bank gifts acc) := by
  induction gifts generalizing acc with
  | nil => exact avoids_ok acc
  | cons g gifts ih =>
    refine avoids_bind ?_ ih
    rw [give]
    cases plan.splitType with
    | auto => exact avoids_ok _
    | manual =>
      refine avoids_bind (avoids_bind ?_ fun _ => avoids_ok _) fun _ => avoids_ok _
      -- adding to a balance reports no code at all
      rw [newBalance]
      split
      · exact Asset.avoids_add _ _ _
      · exact avoids_ok _

/-- The loop after `k` receivers of a checked list: the shares so far are positive and part of
the quantity, and they are handed on as they are. -/
theorem loop_spec {confs : List SplitUnit} (hconf : RatesChecked confs) (hq : q.isValid)
    (hpos : 0 < q.amount) (k : ℕ) :
    ∃ rest gifts, (∀ (ctx : Ctx) (plan : TokenSplitPlan) (bank : Name) acc,
        splitFrom ctx plan bank q (confs.take k) q acc
          = giveAll ctx plan bank gifts acc >>= fun acc => .ok (rest, acc)) ∧
      (0 ≤ rest.amount ∧ rest.amount ≤ q.amount) ∧
      (∀ g ∈ gifts, 0 < g.2.amount ∧ g.2.amount ≤ q.amount) ∧
      (gifts.map fun g => g.2.amount).sum + rest.amount = q.amount := by
  have hfits : ((rates (confs.take k)).map (shareAmount q.amount)).sum ≤ q.amount :=
    sum_shareAmount_le hpos.le ((sum_rates_take confs k).trans hconf.total.le)
  obtain ⟨rest, gifts, hloop⟩ := sharesFrom_of_fits hq rfl hq.1.2 hfits
  obtain ⟨-, hrest, hall, hsum⟩ := sharesFrom_spec hloop rfl ⟨hpos.le, hq.1.2⟩
  have hgifts : ∀ g ∈ gifts, 0 < g.2.amount := fun g hg => (hall g hg).2.1
  have hnonneg := sum_amounts_nonneg hgifts
  refine ⟨rest, gifts, fun ctx plan bank acc => splitFrom_eq_giveAll hloop acc, ⟨hrest, by omega⟩,
    fun g hg => ⟨hgifts g hg, ?_⟩, hsum⟩
  have hle := le_sum_of_mem hgifts hg
  omega

/-- Under every plan of a reachable state, every positive quantity is divided completely: the
plan has a first receiver; after any number of receivers the loop has handed positive shares
on and has between nothing and the whole quantity left; it never runs short; and the shares
with the remainder make up the quantity. The split is accepted when the plan is automatic, or
when the account can record what it then holds, and then hands on exactly the quantity. -/
theorem split_never_short {clock : TimePoint} {is : List (Ctx × Input Action)}
    (hrun : Transition.Run (contract account).step Transition.Unrestricted (genesis clock) is w)
    (hplan : plan ∈ w.state.plans) (hq : q.isValid) (hpos : 0 < q.amount) :
    plan.splitConf ≠ [] ∧
    (∀ k, ∃ rest gifts, (∀ (ctx : Ctx) (bank : Name) acc,
        splitFrom ctx plan bank q (plan.splitConf.take k) q acc
          = giveAll ctx plan bank gifts acc >>= fun acc => .ok (rest, acc)) ∧
      (0 ≤ rest.amount ∧ rest.amount ≤ q.amount) ∧
      (∀ g ∈ gifts, 0 < g.2.amount ∧ g.2.amount ≤ q.amount) ∧
      (gifts.map fun g => g.2.amount).sum + rest.amount = q.amount) ∧
    (∃ gifts, (∀ (ctx : Ctx) (bank : Name), split ctx bank plan.id q w.state
        = giveAll ctx plan bank gifts (w.state.wallets, [])
            >>= fun acc => .ok ({ w.state with wallets := acc.1 }, acc.2)) ∧
      (∀ g ∈ gifts, 0 < g.2.amount ∧ g.2.amount ≤ q.amount) ∧
      (gifts.map fun g => g.2.amount).sum = q.amount) ∧
    ∀ (ctx : Ctx) (bank : Name),
      Avoids Err.rateOverload.code (split ctx bank plan.id q w.state) ∧
      ((plan.splitType = .manual → w.holding ⟨q.symbol, bank⟩ + q.amount ≤ Asset.maxAmount) →
        ∃ s' outs, split ctx bank plan.id q w.state = .ok (s', outs) ∧
          ∀ x, recorded s'.wallets x + outflow x outs
            = recorded w.state.wallets x + portion x ⟨q.symbol, bank⟩ q.amount) := by
  have hconf := plansChecked_of_run hrun plan hplan
  have hw := solvent_of_run hrun
  have hfind := Table.find?_self hplan
  obtain ⟨gifts, hgifts, -⟩ := shares_of_checked hconf hq hpos
  obtain ⟨hall, hsum⟩ := shares_spec hgifts ⟨hpos, hq.1.2⟩
  have hsplit : ∀ (ctx : Ctx) (bank : Name), split ctx bank plan.id q w.state
      = giveAll ctx plan bank gifts (w.state.wallets, [])
          >>= fun acc => .ok ({ w.state with wallets := acc.1 }, acc.2) := by
    intro ctx bank
    exact split_eq_giveAll hfind hgifts
  refine ⟨hconf.ne_nil, fun k => ?_, ⟨gifts, hsplit, fun g hg => ?_, hsum⟩,
    fun ctx bank => ⟨?_, fun hroom => ?_⟩⟩
  · obtain ⟨rest, gifts, hloop, hbounds⟩ := loop_spec hconf hq hpos k
    exact ⟨rest, gifts, fun ctx bank acc => hloop ctx plan bank acc, hbounds⟩
  · exact (share_of_shares hgifts ⟨hpos, hq.1.2⟩ hg).2
  · rw [hsplit]
    exact avoids_bind (avoids_giveAll _) fun _ => avoids_ok _
  · have hgive : ∃ acc, giveAll ctx plan bank gifts (w.state.wallets, []) = .ok acc :=
      giveAll_of_room hw hsum (fun g hg => ⟨(hall g hg).1, (hall g hg).2.1⟩) hroom
    obtain ⟨⟨wallets, outs⟩, hgive⟩ := hgive
    have hok : split ctx bank plan.id q w.state = .ok ({ w.state with wallets }, outs) := by
      rw [hsplit, hgive]
      rfl
    refine ⟨_, _, hok, fun x => ?_⟩
    have hhanded := (split_spec hok hw.sound ⟨hpos, hq.1.2⟩).handed x
    rw [handed, handed, outflow_nil, add_zero] at hhanded
    exact hhanded

end Credits

/-! ## Sample runs -/

namespace Sample

/-- A plan whose first receiver has the rate of 0.01%. -/
def skewedPlan : TokenSplitPlan where
  id := 1
  creator := alice
  splitConf := [⟨bob, 1⟩, ⟨carol, 9999⟩]
  splitType := .auto
  title := "skewed".toList
  createAt := (TimePoint.ofDays 100).secSinceEpoch

def skewed : World State where
  state := { State.init with
    gstate := { lastPlanId := 1 }
    plans := Table.empty.put skewedPlan }
  holding := fun _ => 0
  clock := .ofDays 100

def addSkewed : Ctx × Input Action :=
  (.signed alice 100, .act (.addplan alice "skewed".toList skewedPlan.splitConf true))

/-- A transfer to the plan. -/
def toPlan (amount : Int64Arg) (h : (Asset.lit amount flon).isValid) : Notice :=
  ⟨bank, alice, account, .lit amount flon, "plan:1".toList, h⟩

theorem run_skewed :
    Transition.Run (contract account).step Transition.Unrestricted (genesis (.ofDays 100))
      [addSkewed] skewed := .snoc (.nil _) trivial rfl

/-- The first share of 20000 units is two units, and the second receiver gets the other 19998. -/
theorem proportional_iff_sample :
    ∃ e, (contract account).run (.signed alice 101) (.notify (toPlan (int64 20000) (by decide)))
        skewed.state = .ok e ∧
      (credits skewedPlan ⟨flon, bank⟩ skewed.state e
          = Apportion.entitlements pctBoost 20000 (rates skewedPlan.splitConf) ↔
        SharesExact 20000 (rates skewedPlan.splitConf)) := by
  have hmemo : memoPlan (.signed alice 101) (toPlan (int64 20000) (by decide)).memo
      = .ok skewedPlan.id := by decide
  have hresult := proportional_iff run_skewed (Table.mem_put_self _ skewedPlan) (by decide) rfl hmemo
    (by decide)
  obtain ⟨e, he⟩ := hresult.2 (fun hc => by cases hc)
  exact ⟨e, he, hresult.1 e he⟩

/-- Of 5000 units the share of the first receiver is empty, and the second one gets nothing,
where 4999 units are its proportion. -/
theorem not_proportional :
    ¬ ∀ (account : Name) (clock : TimePoint) (is : List (Ctx × Input Action)) (w : World State)
      (plan : TokenSplitPlan) (ctx : Ctx) (n : Notice) (e : Effect State),
      Transition.Run (contract account).step Transition.Unrestricted (genesis clock) is w →
      plan ∈ w.state.plans → n.sender ≠ account → n.recipient = account →
      memoPlan ctx n.memo = .ok plan.id → 0 < n.quantity.amount →
      (contract account).run ctx (.notify n) w.state = .ok e →
      credits plan n.token w.state e
        = Apportion.entitlements pctBoost n.quantity.amount (rates plan.splitConf) := by
  intro h
  have hrun : Transition.Succeeds ((contract account).run (.signed alice 101)
      (.notify (toPlan (int64 5000) (by decide))) skewed.state) fun e =>
        credits skewedPlan ⟨flon, bank⟩ skewed.state e = [5000, 0] := by decide
  obtain ⟨e, he, hcredits⟩ := Transition.succeeds_iff.mp hrun
  have hmemo : memoPlan (.signed alice 101) (toPlan (int64 5000) (by decide)).memo
      = .ok skewedPlan.id := by decide
  have hclaim := h account _ _ _ skewedPlan _ _ e run_skewed (Table.mem_put_self _ skewedPlan)
    (by decide) rfl hmemo (by decide) he
  have hentitled : [5000, 0] = Apportion.entitlements pctBoost 5000 (rates skewedPlan.splitConf) :=
    hcredits.symm.trans hclaim
  revert hentitled
  decide

/-- The largest quantity wraps around, and is divided completely all the same. -/
theorem split_never_short_sample :
    ∃ s' outs, split (.signed alice 101) bank 1 (.lit (int64 (2 ^ 62 - 1)) flon) skewed.state
        = .ok (s', outs) ∧
      ∀ x, recorded s'.wallets x + outflow x outs
        = recorded skewed.state.wallets x + portion x ⟨flon, bank⟩ (2 ^ 62 - 1) :=
  ((split_never_short (q := .lit (int64 (2 ^ 62 - 1)) flon) run_skewed
    (Table.mem_put_self _ skewedPlan) (by decide) (by decide)).2.2.2 (.signed alice 101) bank).2
    fun hc => by cases hc

end Sample

end Split
end ToolkitContracts
