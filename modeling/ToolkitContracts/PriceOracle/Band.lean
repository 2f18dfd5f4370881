import Mathlib.Tactic.Linarith
import Mathlib.Tactic.NormNum
import ToolkitContracts.PriceOracle.Stores

/-!
# The band around the last price

A report has to lie between half and one and a half of the last price. Both limits are computed
as rounded quotients and excluded. That is the band itself, but for two things. Half of an odd
price is rounded up, and the price just above it is refused, the last price 1 itself among
these. And fifteen times the last price, which the upper limit is computed from, has to be an
`int64_t`: above that every report is refused.
-/

namespace ToolkitContracts
namespace PriceOracle

open Schedule

/-- An amount is strictly between half and one and a half of the last price. -/
def InBand (old : ℕ) (amount : ℤ) : Prop :=
  (old : ℚ) / 2 < amount ∧ (amount : ℚ) < 3 * old / 2

/-- `_updateprice` accepts a report. -/
def Accepts (ctx : Ctx) (info : CoinPriceInfo) (s : State) : Prop :=
  ∃ s', updateOne ctx info s = .ok s'

/-- A price in the quote symbol of the contract. -/
def Quoted (s : State) (price : Asset) : Prop := price.symbol = s.gstate.quoteSymbol

/-- Fifteen times the last price, which the upper limit is computed from, is an `int64_t`. -/
def LimitsFit (old : ℕ) : Prop := 15 * old < 2 ^ 63

/-- The band is exact for a coin with the last price `old`, which `tpcode` reports. -/
structure BandExact (s : State) (tpcode : Name) (old : ℕ) : Prop where
  accepted : ∀ (ctx : Ctx) (price : Asset), Quoted s price → 0 < price.amount →
    (Accepts ctx ⟨tpcode, price⟩ s ↔ InBand old price.amount)
  resubmitted : ∀ (ctx : Ctx) (price : Asset), Quoted s price → price.amount = old →
    Accepts ctx ⟨tpcode, price⟩ s
  notStuck : ∃ (ctx : Ctx) (price : Asset), Quoted s price ∧ 0 < price.amount ∧
    Accepts ctx ⟨tpcode, price⟩ s

/-! ## The limits -/

theorem inBand_iff {old : ℕ} {amount : ℤ} :
    InBand old amount ↔ (old : ℤ) < 2 * amount ∧ 2 * amount < 3 * old := by
  have hlower : (old : ℚ) / 2 < amount ↔ (old : ℤ) < 2 * amount := by
    rw [div_lt_iff₀ (by norm_num), mul_comm]
    exact_mod_cast Iff.rfl
  have hupper : (amount : ℚ) < 3 * old / 2 ↔ 2 * amount < 3 * (old : ℤ) := by
    rw [lt_div_iff₀ (by norm_num), mul_comm]
    exact_mod_cast Iff.rfl
  exact and_congr hlower hupper

/-- The check of a price against the last one passes exactly in the band without the price just
above half of an odd one, and only when the limits can be computed. -/
theorem checkLimits_iff {old : ℕ} {amount : ℤ} (hpos : 1 ≤ old) (hlt : old < 2 ^ 64) :
    checkLimits old amount = .ok () ↔
      InBand old amount ∧ 2 * amount ≠ old + 1 ∧ LimitsFit old := by
  have hmul : ∀ b r : ℤ, 0 ≤ b → b ≤ 15 → (multiplyDecimal64 old b 10 = .ok r ↔
      10 * old * b / 10 ≤ 2 ^ 63 - 1 ∧ r = roundHalfUp (old * b) 10) := by
    intro b r hb hle
    apply multiplyDecimal64_eq_ok
    · omega
    · exact hb
    · omega
    · have hprod : 10 * (old : ℤ) * b ≤ 10 * old * 15 :=
        Int.mul_le_mul_of_nonneg_left hle (by omega)
      omega
  rw [inBand_iff, checkLimits, if_neg (by omega), LimitsFit]
  simp only [bind_eq_ok, checkc_eq_ok, hmul 15 _ (by omega) (by omega),
    hmul 5 _ (by omega) (by omega), roundHalfUp]
  constructor
  · rintro ⟨upper, ⟨hfit, rfl⟩, lower, ⟨-, rfl⟩, hlo, hhi⟩
    refine ⟨⟨?_, ?_⟩, ?_, ?_⟩
    all_goals omega
  · rintro ⟨⟨hlo, hhi⟩, hne, hfit⟩
    refine ⟨_, ⟨?_, rfl⟩, _, ⟨?_, rfl⟩, ?_, ?_⟩
    all_goals omega

/-! ## One report -/

section Report
variable {ctx : Ctx} {s s' : State} {coin tpcode : Name} {old : ℕ} {price : Asset}

/-- A coin without a row has no key in use. -/
theorem find?_of_no_row (hfirst : s.firstPrice coin = none) (id : ℕ) :
    s.coinPrices.find? (toLex (coin.raw, id)) = none := by
  apply Table.find?_eq_none.mpr
  intro row hrow hkey
  have hpair : (row.coin.raw, row.id) = (coin.raw, id) := toLex.injective hkey
  have hcoin : row.coin = coin := Name.raw_inj.mp (congrArg Prod.fst hpair)
  have hnone := List.find?_eq_none.mp hfirst row hrow
  simp [hcoin] at hnone

/-- Without its only row a coin has no key in use. -/
theorem find?_of_only_row (hone : s.OneRow coin) {first : CoinPrice}
    (hfirst : s.firstPrice coin = some first) (id : ℕ) :
    (s.coinPrices.erase first.key).find? (toLex (coin.raw, id)) = none := by
  apply Table.find?_eq_none.mpr
  intro row hrow hkey
  have hpair : (row.coin.raw, row.id) = (coin.raw, id) := toLex.injective hkey
  have hcoin : row.coin = coin := Name.raw_inj.mp (congrArg Prod.fst hpair)
  obtain ⟨hold, hne⟩ := Table.mem_erase.mp hrow
  have hsame := firstPrice_of_mem hone hold hcoin
  rw [hfirst, Option.some.injEq] at hsame
  exact hne (congrArg CoinPrice.key hsame.symm)

/-- A report of a registered coin in the quote symbol is accepted when it passes the check
against the last price. -/
theorem accepts_iff (hone : s.OneRow coin)
    (htpcode : splitTpcode tpcode = .ok (coin, s.gstate.quoteCode)) (hquoted : Quoted s price)
    (hold : s.price coin = some old) :
    Accepts ctx ⟨tpcode, price⟩ s ↔ checkLimits old price.amount = .ok () := by
  obtain ⟨entry, hentry, rfl⟩ := Option.map_eq_some_iff.mp hold
  have hsymbol : price.symbol = s.gstate.quoteSymbol := hquoted
  unfold Accepts updateOne
  dsimp only
  rw [htpcode, ok_bind]
  dsimp only
  rw [checkc_of rfl, checkc_of hsymbol, hentry, require, ok_bind]
  constructor
  · rintro ⟨s', h⟩
    obtain ⟨⟨⟩, hlimits, -⟩ := bind_eq_ok.mp h
    exact hlimits
  · intro hlimits
    rw [hlimits, ok_bind]
    -- the coin's only row makes place for the new one
    cases hfirst : s.firstPrice coin with
    | none =>
      dsimp only
      rw [emplace, check_of]
      · exact ⟨_, rfl⟩
      · exact Option.isNone_iff_eq_none.mpr (find?_of_no_row hfirst 1)
    | some first =>
      dsimp only
      rw [emplace, check_of]
      · exact ⟨_, rfl⟩
      · exact Option.isNone_iff_eq_none.mpr (find?_of_only_row hone hfirst _)

end Report

/-! ## Runs -/

section Runs
variable {account : Name} {w w' : World State} {i : Ctx × Input Action} {coin tpcode : Name}
  {is : List (Ctx × Input Action)} {clock : TimePoint} {old : ℕ}

/-- No action gives a coin a second row. -/
theorem oneRow_of_exec {ctx : Ctx} {a : Action} {s s' : State} {outs : List Transfer}
    (h : exec account ctx a s = .ok (s', outs)) (hone : ∀ coin, s.OneRow coin) :
    ∀ coin, s'.OneRow coin := by
  cases a with
  | addoracle oracle =>
    simp only [exec, addoracle, bind_eq_ok, checkc_eq_ok, pure_eq_ok, exists_const, Prod.mk.injEq,
      Ctx.requireAuth_eq_ok] at h
    obtain ⟨-, -, oracles, -, rfl, -⟩ := h
    exact hone
  | removeoracle oracle =>
    simp only [exec, removeoracle, bind_eq_ok, checkc_eq_ok, pure_eq_ok, exists_const,
      Prod.mk.injEq, Ctx.requireAuth_eq_ok] at h
    obtain ⟨-, -, rfl, -⟩ := h
    exact hone
  | addcoin coin =>
    simp only [exec, addcoin, bind_eq_ok, checkc_eq_ok, pure_eq_ok, exists_const, Prod.mk.injEq,
      Ctx.requireAuth_eq_ok] at h
    obtain ⟨-, -, rfl, -⟩ := h
    exact hone
  | removecoin coin =>
    simp only [exec, removecoin, bind_eq_ok, checkc_eq_ok, pure_eq_ok, exists_const, Prod.mk.injEq,
      Ctx.requireAuth_eq_ok] at h
    obtain ⟨-, -, rfl, -⟩ := h
    exact hone
  | updateprice oracle infos =>
    simp only [exec, updateprice, bind_eq_ok, checkc_eq_ok, pure_eq_ok, exists_const,
      Prod.mk.injEq, Ctx.requireAuth_eq_ok] at h
    obtain ⟨-, -, -, s₁, hloop, rfl, -⟩ := h
    intro coin row hrow row' hrow' hcoin hcoin'
    have hspec := updateEach_stores hloop (hone coin)
    cases hlast : lastReport coin infos with
    | none =>
      rw [hlast] at hspec
      exact hone coin row ((hspec.2 row hcoin).mp hrow) row' ((hspec.2 row' hcoin').mp hrow')
        hcoin hcoin'
    | some last =>
      rw [hlast] at hspec
      obtain ⟨-, new, -, hrows⟩ := hspec
      rw [(hrows row).mp ⟨hrow, hcoin⟩, (hrows row').mp ⟨hrow', hcoin'⟩]

theorem oneRow_of_run
    (hrun : Transition.Run (contract account).step Transition.Unrestricted (genesis clock) is w) :
    ∀ coin, w.state.OneRow coin := by
  refine hrun.invariant (P := fun w => ∀ coin, w.state.OneRow coin) (fun w i w' hone _ hstep => ?_)
    fun coin row hrow => absurd hrow (Table.not_mem_empty row)
  obtain ⟨outs, hexec⟩ := (contract account).run_of_step hstep
  obtain ⟨ctx, input⟩ := i
  cases input with
  | act a => exact oneRow_of_exec hexec hone
  | notify n =>
    simp only [Contract.run, contract, Except.ok.injEq, Prod.mk.injEq] at hexec
    rw [← hexec.1]
    exact hone

/-- In every state that a run reaches, a coin with the last price `old`: a positive report is
treated as the band says exactly when it is outside the band, or is not the one just above half
of the price and the limits fit; the last price is accepted again, and so is any price at all,
exactly when the last price is not 1 and the limits fit. -/
theorem band_exact_iff
    (hrun : Transition.Run (contract account).step Transition.Unrestricted (genesis clock) is w)
    (htpcode : splitTpcode tpcode = .ok (coin, w.state.gstate.quoteCode))
    (hold : w.state.price coin = some old) (hpos : 1 ≤ old) :
    (∀ (ctx : Ctx) (price : Asset), Quoted w.state price → 0 < price.amount →
      ((Accepts ctx ⟨tpcode, price⟩ w.state ↔ InBand old price.amount) ↔
        (InBand old price.amount → 2 * price.amount ≠ old + 1 ∧ LimitsFit old))) ∧
    (∀ (ctx : Ctx) (price : Asset), Quoted w.state price → price.amount = old →
      (Accepts ctx ⟨tpcode, price⟩ w.state ↔ old ≠ 1 ∧ LimitsFit old)) ∧
    ((∃ (ctx : Ctx) (price : Asset), Quoted w.state price ∧ 0 < price.amount ∧
      Accepts ctx ⟨tpcode, price⟩ w.state) ↔ old ≠ 1 ∧ LimitsFit old) := by
  have hone := oneRow_of_run hrun coin
  have hlt : old < 2 ^ 64 := by
    obtain ⟨entry, -, rfl⟩ := Option.map_eq_some_iff.mp hold
    exact entry.lt
  have haccepts : ∀ (ctx : Ctx) (price : Asset), Quoted w.state price →
      (Accepts ctx ⟨tpcode, price⟩ w.state ↔
        InBand old price.amount ∧ 2 * price.amount ≠ old + 1 ∧ LimitsFit old) := by
    intro ctx price hquoted
    rw [accepts_iff hone htpcode hquoted hold, checkLimits_iff hpos hlt]
  have hresubmit : ∀ (ctx : Ctx) (price : Asset), Quoted w.state price → price.amount = old →
      (Accepts ctx ⟨tpcode, price⟩ w.state ↔ old ≠ 1 ∧ LimitsFit old) := by
    intro ctx price hquoted hsame
    rw [haccepts ctx price hquoted, inBand_iff, hsame]
    constructor
    · rintro ⟨-, hne, hfit⟩
      exact ⟨by omega, hfit⟩
    · rintro ⟨hne, hfit⟩
      exact ⟨by omega, by omega, hfit⟩
  refine ⟨fun ctx price hquoted _ => ?_, hresubmit, ?_⟩
  · rw [haccepts ctx price hquoted]
    tauto
  constructor
  · rintro ⟨ctx, price, hquoted, -, haccepted⟩
    obtain ⟨hband, hne, hfit⟩ := (haccepts ctx price hquoted).mp haccepted
    rw [inBand_iff] at hband
    refine ⟨?_, hfit⟩
    rintro rfl
    omega
  · rintro ⟨hne, hfit⟩
    have hbounds : old < 2 ^ 63 := by
      unfold LimitsFit at hfit
      omega
    let price : Asset := ⟨old, w.state.gstate.quoteSymbol, by omega⟩
    have hquoted : Quoted w.state price := rfl
    have hamount : 0 < price.amount := by
      show (0 : ℤ) < old
      omega
    exact ⟨.signed account 0, price, hquoted, hamount,
      (hresubmit _ price hquoted rfl).mpr ⟨hne, hfit⟩⟩

end Runs

/-! ## A coin at the lowest price -/

namespace Sample

/-- A coin whose first report is 1 takes no further report: 1 is in the band, but excluded. -/
theorem stuck_at_one :
    ¬ ∀ (is : List (Ctx × Input Action)) (w : World State) (coin tpcode : Name) (old : ℕ),
      Transition.Run (contract account).step Transition.Unrestricted (genesis (.ofDays 100)) is w →
      splitTpcode tpcode = .ok (coin, w.state.gstate.quoteCode) →
      w.state.price coin = some old → 1 ≤ old → (old : ℤ) ≤ Asset.maxAmount →
      BandExact w.state tpcode old := by
  intro hclaim
  have hreach : Transition.Reaches (contract account).step Transition.Unrestricted (fun w =>
      w.state.price btc = some 1 ∧
      (btcAt (int64 1)).price.symbol = w.state.gstate.quoteSymbol ∧
      w.state.gstate.quoteCode = .lit "usdt" ∧
      Fails (updateOne (.signed bidder 100) (btcAt (int64 1)) w.state)
        ⟨some Err.paramError.code, "price not valid: out of 0.5x~1.5x last value"⟩)
      [(.signed account 100, .act (.addoracle bidder)), (.signed account 100, .act (.addcoin btc)),
        update [btcAt (int64 1)]] (genesis (.ofDays 100)) := by decide
  obtain ⟨w, hrun, hprice, hquoted, hquote, hfails⟩ := Transition.run_of_reaches hreach
  have hsplit : splitTpcode (.lit "btc.usdt") = .ok (btc, .lit "usdt") := by decide
  rw [← hquote] at hsplit
  have hband := hclaim _ w btc _ 1 hrun hsplit hprice (by omega) (by decide)
  obtain ⟨s', haccepted⟩ := hband.resubmitted (.signed bidder 100) (btcAt (int64 1)).price hquoted rfl
  have hrefused := fails_iff.mp hfails
  have hsame : updateOne (.signed bidder 100) (btcAt (int64 1)) w.state = .ok s' := haccepted
  rw [hrefused] at hsame
  cases hsame

/-- At the price 100 the same price is accepted again. -/
theorem band_exact_iff_sample :
    ∃ w, Transition.Run (contract account).step Transition.Unrestricted (genesis (.ofDays 100))
        setup w ∧ w.state.price btc = some 100 ∧
      ∀ (ctx : Ctx) (price : Asset), Quoted w.state price → price.amount = 100 →
        Accepts ctx ⟨.lit "btc.usdt", price⟩ w.state := by
  have hreach : Transition.Reaches (contract account).step Transition.Unrestricted (fun w =>
      w.state.price btc = some 100 ∧ w.state.gstate.quoteCode = .lit "usdt")
      setup (genesis (.ofDays 100)) := by decide
  obtain ⟨w, hrun, hprice, hquote⟩ := Transition.run_of_reaches hreach
  have hsplit : splitTpcode (.lit "btc.usdt") = .ok (btc, .lit "usdt") := by decide
  rw [← hquote] at hsplit
  have hfit : LimitsFit 100 := by
    unfold LimitsFit
    omega
  refine ⟨w, hrun, hprice, fun ctx price hquoted hamount => ?_⟩
  exact ((band_exact_iff hrun hsplit hprice (by omega)).2.1 ctx price hquoted hamount).mpr
    ⟨by omega, hfit⟩

end Sample

end PriceOracle
end ToolkitContracts
