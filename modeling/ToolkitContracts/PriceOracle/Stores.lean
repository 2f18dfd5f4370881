import ToolkitContracts.PriceOracle.Movement

/-!
# The two stores of a price

A price is kept twice: as an unsigned number in the global map, which the next check reads, and
as an asset in a row of its coin's scope. An update replaces the row that it finds, so there is
never a second one. The number and the row agree as long as the last report of a coin in a call
is a positive asset, and no coin is removed while it has a price: its row would stay behind.
-/

namespace ToolkitContracts
namespace PriceOracle

/-- The scope of a coin has at most one row. -/
def State.OneRow (s : State) (coin : Name) : Prop :=
  ∀ row ∈ s.coinPrices, ∀ row' ∈ s.coinPrices, row.coin = coin → row'.coin = coin → row = row'

/-- An amount that a report can be stored with and read back from. -/
def Storable (a : Asset) : Prop := 0 < a.amount ∧ a.amount ≤ Asset.maxAmount

instance (a : Asset) : Decidable (Storable a) := inferInstanceAs (Decidable (_ ∧ _))

/-- The map and the table agree about a coin: no row without a price, and one row with it. -/
structure State.StoresAgree (s : State) (coin : Name) : Prop where
  unpriced : s.price coin = none ∨ s.price coin = some 0 → ∀ row ∈ s.coinPrices, row.coin ≠ coin
  priced : ∀ p, s.price coin = some p → p ≠ 0 → ∃ row ∈ s.coinPrices, row.coin = coin ∧
    row.price.amount = p ∧ Storable row.price
  oneRow : s.OneRow coin

/-- The last report of a coin in a vector. -/
def lastReport (coin : Name) : List CoinPriceInfo → Option CoinPriceInfo
  | [] => none
  | info :: infos =>
    (lastReport coin infos).or (if info.coin? = some coin then some info else none)

/-! ## One element -/

section Updates
variable {ctx : Ctx} {s s' : State} {info : CoinPriceInfo} {infos : List CoinPriceInfo}
  {coin : Name}

/-- An element replaces the first row of its coin's scope. -/
theorem mem_of_updateOne (h : updateOne ctx info s = .ok s') (hcoin : info.coin? = some coin) :
    ∃ new : CoinPrice, new.coin = coin ∧ new.price = info.price ∧
      ∀ row, row ∈ s'.coinPrices ↔ row = new ∨
        (row ∈ s.coinPrices ∧ ∀ old, s.firstPrice coin = some old → row.key ≠ old.key) := by
  simp only [updateOne, bind_eq_ok, checkc_eq_ok, require_eq_ok, pure_eq_ok, exists_const] at h
  obtain ⟨⟨baseCoin, quoteCoin⟩, hsplit, -, -, entry, -, u, -, coinPrices, hput, rfl⟩ := h
  have hbase : baseCoin = coin := by
    unfold CoinPriceInfo.coin? at hcoin
    rw [hsplit] at hcoin
    exact Option.some.inj hcoin
  subst hbase
  cases hfirst : s.firstPrice baseCoin with
  | none =>
    simp only [hfirst] at hput
    refine ⟨⟨baseCoin, 1, info.tpcode, info.price, ctx.now⟩, rfl, rfl,
      fun row => (mem_of_emplace hput).trans ?_⟩
    simp
  | some old =>
    simp only [hfirst] at hput
    refine ⟨⟨baseCoin, u64 (old.id + 1), info.tpcode, info.price, ctx.now⟩, rfl, rfl,
      fun row => (mem_of_emplace hput).trans ?_⟩
    simp [Table.mem_erase]

/-- The first row of a scope is a row of it. -/
theorem mem_of_firstPrice {row : CoinPrice} (h : s.firstPrice coin = some row) :
    row ∈ s.coinPrices ∧ row.coin = coin :=
  ⟨List.mem_of_find?_eq_some h, by simpa using List.find?_some h⟩

/-- A row of a scope is its first row, when there is one at most. -/
theorem firstPrice_of_mem (hone : s.OneRow coin) {row : CoinPrice} (hrow : row ∈ s.coinPrices)
    (hcoin : row.coin = coin) : s.firstPrice coin = some row := by
  cases hfirst : s.firstPrice coin with
  | none =>
    have hnone := List.find?_eq_none.mp hfirst row hrow
    simp [hcoin] at hnone
  | some old =>
    obtain ⟨hold, holdCoin⟩ := mem_of_firstPrice hfirst
    rw [hone old hold row hrow holdCoin hcoin]

/-- After an element its report is the only row of its coin. -/
theorem rows_of_updateOne (h : updateOne ctx info s = .ok s') (hcoin : info.coin? = some coin)
    (hone : s.OneRow coin) :
    ∃ new : CoinPrice, new.price = info.price ∧
      ∀ row, row ∈ s'.coinPrices ∧ row.coin = coin ↔ row = new := by
  obtain ⟨new, hnewCoin, hprice, hmem⟩ := mem_of_updateOne h hcoin
  refine ⟨new, hprice, fun row => ?_⟩
  rw [hmem]
  constructor
  · rintro ⟨rfl | ⟨hrow, hkept⟩, hrowCoin⟩
    · rfl
    · exact absurd rfl (hkept row (firstPrice_of_mem hone hrow hrowCoin))
  · rintro rfl
    exact ⟨Or.inl rfl, hnewCoin⟩

/-- An element leaves the rows of other coins alone. -/
theorem rows_of_updateOne_other (h : updateOne ctx info s = .ok s')
    (hcoin : info.coin? ≠ some coin) {row : CoinPrice} (hrow : row.coin = coin) :
    row ∈ s'.coinPrices ↔ row ∈ s.coinPrices := by
  obtain ⟨entry, hreports⟩ := reports_of_updateOne h
  obtain ⟨new, hnewCoin, -, hmem⟩ := mem_of_updateOne h hreports.coin
  have hne : entry.coin ≠ coin := fun he => hcoin (he ▸ hreports.coin)
  rw [hmem]
  constructor
  · rintro (rfl | ⟨hold, -⟩)
    · exact absurd (hnewCoin.symm.trans hrow) hne
    · exact hold
  · intro hold
    refine Or.inr ⟨hold, fun first hfirst hkey => hne ?_⟩
    have hsame := Table.eq_of_key_eq hold (mem_of_firstPrice hfirst).1 hkey
    rw [← (mem_of_firstPrice hfirst).2, ← hsame, hrow]

/-! ## The vector -/

/-- What the loop leaves of a coin: its last report, or what was there before. -/
theorem updateEach_stores (h : updateEach ctx infos s = .ok s') (hone : s.OneRow coin) :
    match lastReport coin infos with
    | none => s'.price coin = s.price coin ∧
        ∀ row : CoinPrice, row.coin = coin → (row ∈ s'.coinPrices ↔ row ∈ s.coinPrices)
    | some info => s'.price coin = some (u64 info.price.amount) ∧
        ∃ new : CoinPrice, new.price = info.price ∧
          ∀ row, row ∈ s'.coinPrices ∧ row.coin = coin ↔ row = new := by
  induction infos generalizing s with
  | nil =>
    simp only [updateEach, Except.ok.injEq] at h
    subst h
    exact ⟨rfl, fun row _ => Iff.rfl⟩
  | cons info infos ih =>
    simp only [updateEach, bind_eq_ok] at h
    obtain ⟨s₁, hfirst, hrest⟩ := h
    obtain ⟨entry, hreports⟩ := reports_of_updateOne hfirst
    simp only [lastReport]
    by_cases hcoin : info.coin? = some coin
    · obtain ⟨new, hnew, hrows⟩ := rows_of_updateOne hfirst hcoin hone
      have hentry : entry.coin = coin := Option.some.inj (hreports.coin.symm.trans hcoin)
      have hone₁ : s₁.OneRow coin := by
        intro row hrow row' hrow' hc hc'
        rw [(hrows row).mp ⟨hrow, hc⟩, (hrows row').mp ⟨hrow', hc'⟩]
      have hloop := ih hrest hone₁
      cases hlast : lastReport coin infos with
      | some last =>
        rw [hlast] at hloop
        exact hloop
      | none =>
        rw [hlast] at hloop
        rw [if_pos hcoin]
        -- nothing after this element is about the coin
        refine ⟨hloop.1.trans (hentry ▸ hreports.price_self), new, hnew, fun row => ?_⟩
        rw [← hrows row]
        exact and_congr_left fun hc => hloop.2 row hc
    · have hrows : ∀ row : CoinPrice, row.coin = coin →
          (row ∈ s₁.coinPrices ↔ row ∈ s.coinPrices) :=
        fun _ hrow => rows_of_updateOne_other hfirst hcoin hrow
      have hne : coin ≠ entry.coin := fun he => hcoin (he ▸ hreports.coin)
      have hone₁ : s₁.OneRow coin := by
        intro row hrow row' hrow' hc hc'
        exact hone row ((hrows row hc).mp hrow) row' ((hrows row' hc').mp hrow') hc hc'
      have hloop := ih hrest hone₁
      rw [if_neg hcoin, Option.or_none]
      cases hlast : lastReport coin infos with
      | some last =>
        rw [hlast] at hloop
        exact hloop
      | none =>
        rw [hlast] at hloop
        exact ⟨hloop.1.trans (hreports.price_other hne),
          fun row hc => (hloop.2 row hc).trans (hrows row hc)⟩

/-- The last report of a coin is one of its reports. -/
theorem mem_of_lastReport (h : lastReport coin infos = some info) :
    info ∈ infos ∧ info.coin? = some coin := by
  induction infos with
  | nil => simp [lastReport] at h
  | cons first infos ih =>
    rw [lastReport] at h
    cases hlast : lastReport coin infos with
    | some last =>
      rw [hlast, Option.some_or] at h
      obtain ⟨hmem, hcoin⟩ := ih (hlast.trans h)
      exact ⟨List.mem_cons_of_mem _ hmem, hcoin⟩
    | none =>
      rw [hlast, Option.none_or] at h
      split at h
      · next hfirst =>
        rw [Option.some.injEq] at h
        subst h
        exact ⟨List.mem_cons_self, hfirst⟩
      · cases h

/-! ## One action -/

/-- The agreement about a coin depends on its price and its rows only. -/
theorem State.StoresAgree.congr (h : s.StoresAgree coin) (hprice : s'.price coin = s.price coin)
    (hrows : ∀ row : CoinPrice, row.coin = coin → (row ∈ s'.coinPrices ↔ row ∈ s.coinPrices)) :
    s'.StoresAgree coin where
  unpriced := by
    intro hnone row hrow hcoin
    rw [hprice] at hnone
    exact h.unpriced hnone row ((hrows row hcoin).mp hrow) hcoin
  priced := by
    intro p hp hne
    rw [hprice] at hp
    obtain ⟨row, hrow, hcoin, hrest⟩ := h.priced p hp hne
    exact ⟨row, (hrows row hcoin).mpr hrow, hcoin, hrest⟩
  oneRow := by
    intro row hrow row' hrow' hc hc'
    exact h.oneRow row ((hrows row hc).mp hrow) row' ((hrows row' hc').mp hrow') hc hc'

/-- Without rows there has to be no price either. -/
theorem storesAgree_of_unpriced (hprice : s.price coin = none ∨ s.price coin = some 0)
    (hrows : ∀ row ∈ s.coinPrices, row.coin ≠ coin) : s.StoresAgree coin where
  unpriced := fun _ => hrows
  priced := by
    intro p hp hne
    rw [hp] at hprice
    simp [hne] at hprice
  oneRow := fun row hrow _ _ hc _ => absurd hc (hrows row hrow)

/-- A report that became the only row of its coin agrees with the map when it is storable. -/
theorem storesAgree_reported {a : Asset} {new : CoinPrice} (hnew : new.price = a)
    (hprice : s.price coin = some (u64 a.amount))
    (hrows : ∀ row, row ∈ s.coinPrices ∧ row.coin = coin ↔ row = new) :
    s.StoresAgree coin ↔ Storable a := by
  obtain ⟨hmem, hcoin⟩ := (hrows new).mpr rfl
  subst hnew
  constructor
  · intro h
    have hne : u64 new.price.amount ≠ 0 := by
      intro hzero
      rw [hzero] at hprice
      exact h.unpriced (Or.inr hprice) new hmem hcoin
    obtain ⟨row, hrow, hc, -, hstorable⟩ := h.priced _ hprice hne
    rw [(hrows row).mp ⟨hrow, hc⟩] at hstorable
    exact hstorable
  · intro hstorable
    have hpos := hstorable.1
    have hexact : (u64 new.price.amount : ℤ) = new.price.amount :=
      u64_eq hpos.le (by have := new.price.bounds; omega)
    refine ⟨?_, ?_, ?_⟩
    · intro hunpriced
      rw [hprice, Option.some.injEq] at hunpriced
      rcases hunpriced with hnone | hzero
      · cases hnone
      · omega
    · intro p hp _
      rw [hprice, Option.some.injEq] at hp
      exact ⟨new, hmem, hcoin, by omega, hstorable⟩
    · intro row hrow row' hrow' hc hc'
      rw [(hrows row).mp ⟨hrow, hc⟩, (hrows row').mp ⟨hrow', hc'⟩]

/-- What an action has to be like for the stores to stay in agreement: a coin that is removed
has no price, and the last report of each coin can be stored. -/
def KeepsStores (s : State) : Action → Prop
  | .removecoin coin => ∀ p ∈ s.price coin, p = 0
  | .updateprice _ infos =>
    ∀ info ∈ infos, ∀ coin ∈ info.coin?, ∀ last ∈ lastReport coin infos, Storable last.price
  | _ => True

instance (s : State) : ∀ a, Decidable (KeepsStores s a)
  | .removecoin coin => inferInstanceAs (Decidable (∀ p ∈ s.price coin, p = 0))
  | .updateprice _ infos => inferInstanceAs (Decidable (∀ info ∈ infos, ∀ coin ∈ info.coin?,
      ∀ last ∈ lastReport coin infos, Storable last.price))
  | .addoracle _ | .removeoracle _ | .addcoin _ => .isTrue trivial

theorem keepsStores_updateprice {oracle : Name} : KeepsStores s (.updateprice oracle infos) ↔
    ∀ coin last, lastReport coin infos = some last → Storable last.price := by
  constructor
  · intro h coin last hlast
    obtain ⟨hmem, hcoin⟩ := mem_of_lastReport hlast
    exact h last hmem coin hcoin last hlast
  · intro h info _ coin _ last hlast
    exact h coin last hlast

variable {account : Name} {outs : List Transfer}

theorem addcoin_stores (h : addcoin account ctx coin s = .ok (s', outs))
    (hs : ∀ coin, s.StoresAgree coin) : ∀ coin, s'.StoresAgree coin := by
  simp only [addcoin, bind_eq_ok, checkc_eq_ok, pure_eq_ok, exists_const, Prod.mk.injEq,
    Ctx.requireAuth_eq_ok, Option.isNone_iff_eq_none] at h
  obtain ⟨-, hnew, rfl, -⟩ := h
  intro other
  by_cases hother : other = coin
  · subst hother
    apply storesAgree_of_unpriced
    · right
      simp [State.price, Table.find?_put]
    · exact (hs other).unpriced (Or.inl (by rw [State.price, hnew, Option.map_none]))
  · refine (hs other).congr ?_ fun _ _ => Iff.rfl
    simp [State.price, Table.find?_put, Name.raw_inj, hother]

theorem removecoin_stores (h : removecoin account ctx coin s = .ok (s', outs))
    (hs : ∀ coin, s.StoresAgree coin) :
    (∀ coin, s'.StoresAgree coin) ↔ KeepsStores s (.removecoin coin) := by
  simp only [removecoin, bind_eq_ok, checkc_eq_ok, pure_eq_ok, exists_const, Prod.mk.injEq,
    Ctx.requireAuth_eq_ok, Option.isSome_iff_exists] at h
  obtain ⟨-, ⟨entry, hentry⟩, rfl, -⟩ := h
  have hbefore : s.price coin = some entry.price := by
    rw [State.price, hentry, Option.map_some]
  constructor
  · intro hafter p hp
    by_contra hne
    -- the row of the coin has stayed
    obtain ⟨row, hrow, hcoin, -⟩ := (hs coin).priced p hp hne
    refine (hafter coin).unpriced (Or.inl ?_) row hrow hcoin
    simp [State.price, Table.find?_erase]
  · intro hkeeps other
    by_cases hother : other = coin
    · subst hother
      have hzero : entry.price = 0 := hkeeps _ hbefore
      rw [hzero] at hbefore
      apply storesAgree_of_unpriced
      · left
        simp [State.price, Table.find?_erase]
      · exact (hs other).unpriced (Or.inr hbefore)
    · refine (hs other).congr ?_ fun _ _ => Iff.rfl
      simp [State.price, Table.find?_erase, Name.raw_inj, hother]

theorem updateprice_stores {oracle : Name} (h : updateprice ctx oracle infos s = .ok (s', outs))
    (hs : ∀ coin, s.StoresAgree coin) :
    (∀ coin, s'.StoresAgree coin) ↔ KeepsStores s (.updateprice oracle infos) := by
  simp only [updateprice, bind_eq_ok, checkc_eq_ok, pure_eq_ok, exists_const, Prod.mk.injEq,
    Ctx.requireAuth_eq_ok] at h
  obtain ⟨-, -, -, s₁, hloop, rfl, -⟩ := h
  rw [keepsStores_updateprice]
  apply forall_congr'
  intro coin
  have hspec := updateEach_stores hloop (hs coin).oneRow
  cases hlast : lastReport coin infos with
  | none =>
    rw [hlast] at hspec
    simp [(hs coin).congr hspec.1 hspec.2]
  | some last =>
    rw [hlast] at hspec
    obtain ⟨hprice, new, hnew, hrows⟩ := hspec
    rw [storesAgree_reported hnew hprice hrows]
    simp

/-- An action leaves the stores in agreement exactly when it is of that kind. -/
theorem exec_stores {a : Action} (h : exec account ctx a s = .ok (s', outs))
    (hs : ∀ coin, s.StoresAgree coin) : (∀ coin, s'.StoresAgree coin) ↔ KeepsStores s a := by
  cases a with
  | addoracle oracle =>
    simp only [exec, addoracle, bind_eq_ok, checkc_eq_ok, pure_eq_ok, exists_const, Prod.mk.injEq,
      Ctx.requireAuth_eq_ok] at h
    obtain ⟨-, -, oracles, -, rfl, -⟩ := h
    exact iff_of_true (fun coin => (hs coin).congr rfl fun _ _ => Iff.rfl) trivial
  | removeoracle oracle =>
    simp only [exec, removeoracle, bind_eq_ok, checkc_eq_ok, pure_eq_ok, exists_const,
      Prod.mk.injEq, Ctx.requireAuth_eq_ok] at h
    obtain ⟨-, -, rfl, -⟩ := h
    exact iff_of_true (fun coin => (hs coin).congr rfl fun _ _ => Iff.rfl) trivial
  | addcoin coin => exact iff_of_true (addcoin_stores h hs) trivial
  | removecoin coin => exact removecoin_stores h hs
  | updateprice oracle infos => exact updateprice_stores h hs

end Updates

/-! ## Runs -/

/-- The guard of the runs in which the stores agree. -/
def StepKeepsStores (w : World State) (i : Ctx × Input Action) : Prop :=
  match i.2 with
  | .notify _ => True
  | .act a => KeepsStores w.state a

instance (w : World State) : ∀ i, Decidable (StepKeepsStores w i)
  | (_, .notify _) => .isTrue trivial
  | (_, .act a) => inferInstanceAs (Decidable (KeepsStores w.state a))

section Runs
variable {account : Name} {w w' : World State} {i : Ctx × Input Action}
  {is : List (Ctx × Input Action)} {clock : TimePoint}

theorem step_stores (h : (contract account).step w i = .ok w')
    (hs : ∀ coin, w.state.StoresAgree coin) :
    (∀ coin, w'.state.StoresAgree coin) ↔ StepKeepsStores w i := by
  obtain ⟨outs, hrun⟩ := (contract account).run_of_step h
  obtain ⟨ctx, input⟩ := i
  cases input with
  | act a => exact exec_stores hrun hs
  | notify n =>
    simp only [Contract.run, contract, Except.ok.injEq, Prod.mk.injEq] at hrun
    rw [← hrun.1]
    exact iff_of_true hs trivial

/-- In every run whose actions keep to that, the map and the table agree about every coin. -/
theorem stores_agree
    (hrun : Transition.Run (contract account).step StepKeepsStores (genesis clock) is w) :
    ∀ coin, w.state.StoresAgree coin := by
  refine hrun.invariant (P := fun w => ∀ coin, w.state.StoresAgree coin)
    (fun w i w' hw hok hstep => (step_stores hstep hw).mpr hok) fun coin => ?_
  exact storesAgree_of_unpriced (Or.inl rfl) fun row hrow => absurd hrow (Table.not_mem_empty row)

end Runs

/-! ## A coin removed with its price -/

namespace Sample

/-- The row of BTC outlives the coin. -/
theorem row_outlives_coin :
    ¬ ∀ (is : List (Ctx × Input Action)) (w : World State),
      Transition.Run (contract account).step Transition.Unrestricted (genesis (.ofDays 100)) is w →
      ∀ coin, w.state.StoresAgree coin := by
  intro hclaim
  have hreach : Transition.Reaches (contract account).step Transition.Unrestricted (fun w =>
      w.state.price btc = none ∧ ∃ row ∈ w.state.coinPrices.rows, row.coin = btc)
      (setup ++ [(.signed account 100, .act (.removecoin btc))]) (genesis (.ofDays 100)) := by
    decide
  obtain ⟨w, hrun, hprice, row, hrow, hcoin⟩ := Transition.run_of_reaches hreach
  exact (hclaim _ w hrun btc).unpriced (Or.inl hprice) row hrow hcoin

/-- BTC is reported twice in a call, and a coin that never had a price comes and goes. -/
theorem stores_agree_sample :
    ∃ w, Transition.Run (contract account).step StepKeepsStores (genesis (.ofDays 100))
        (setup ++ [update [btcAt (int64 140), btcAt (int64 190)],
          (.signed account 100, .act (.addcoin bidder)),
          (.signed account 100, .act (.removecoin bidder))]) w ∧
      ∃ row ∈ w.state.coinPrices, row.coin = btc ∧ row.price.amount = 190 := by
  have hreach : Transition.Reaches (contract account).step StepKeepsStores
      (fun w => w.state.price btc = some 190)
      (setup ++ [update [btcAt (int64 140), btcAt (int64 190)],
        (.signed account 100, .act (.addcoin bidder)),
        (.signed account 100, .act (.removecoin bidder))]) (genesis (.ofDays 100)) := by decide
  obtain ⟨w, hrun, hprice⟩ := Transition.run_of_reaches hreach
  obtain ⟨row, hrow, hcoin, hamount, -⟩ := (stores_agree hrun btc).priced 190 hprice (by omega)
  exact ⟨w, hrun, row, hrow, hcoin, hamount⟩

end Sample

end PriceOracle
end ToolkitContracts
