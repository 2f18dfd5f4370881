import ToolkitContracts.Lib.Walk
import ToolkitContracts.PriceOracle.Band

/-!
# Where the reports can take a price

While a coin stays registered its price walks: each report moves it once, by less than a half.
The rounding and the overflow check fence the walk in. A price 1 or 2 never changes again, nor
does one of which fifteen times is no `int64_t`; any other never falls below 3. Inside these fences
nothing slows the walk down: a call may list a coin many times, and one call of a single oracle
takes the price from any point to any other.
-/

namespace ToolkitContracts
namespace PriceOracle

open Walks

/-- The highest price whose limits fit. -/
def highest : ℕ := (2 ^ 63 - 1) / 15

/-- One report moves a price from `p` to `q`. -/
structure Moves (p q : ℕ) : Prop where
  above : p < 2 * q
  below : 2 * q < 3 * p
  notHalf : 2 * q ≠ p + 1
  fits : p ≤ highest

/-- Reports can move a price from `p` to `q`, in one call or in many. -/
def Attainable (p q : ℕ) : Prop :=
  q = p ∨ (3 ≤ p ∧ p ≤ highest ∧ 3 ≤ q ∧ 2 * q < 3 * highest)

/-- How often an input lists a coin. -/
def listedBy (coin : Name) (i : Ctx × Input Action) : ℕ :=
  match i.2 with
  | .act (.updateprice _ infos) => timesListed coin infos
  | _ => 0

/-- How often the calls of a run list a coin. -/
def listedIn (coin : Name) (is : List (Ctx × Input Action)) : ℕ := (is.map (listedBy coin)).sum

/-- The guard of the runs in which a coin is not removed. -/
def KeepsCoin (coin : Name) (_ : World State) (i : Ctx × Input Action) : Prop :=
  match i.2 with
  | .act (.removecoin removed) => removed ≠ coin
  | _ => True

instance (coin : Name) (w : World State) : ∀ i, Decidable (KeepsCoin coin w i)
  | (_, .notify _) => .isTrue trivial
  | (_, .act (.removecoin removed)) => inferInstanceAs (Decidable (removed ≠ coin))
  | (_, .act (.addoracle _)) => .isTrue trivial
  | (_, .act (.removeoracle _)) => .isTrue trivial
  | (_, .act (.addcoin _)) => .isTrue trivial
  | (_, .act (.updateprice _ _)) => .isTrue trivial

/-! ## The walk -/

theorem limitsFit_iff {p : ℕ} : LimitsFit p ↔ p ≤ highest := by
  unfold LimitsFit highest
  omega

theorem Moves.attainable {p q : ℕ} (h : Moves p q) : Attainable p q := by
  obtain ⟨habove, hbelow, hne, hfits⟩ := h
  by_cases hsame : q = p
  · exact Or.inl hsame
  · exact Or.inr ⟨by omega, hfits, by omega, by omega⟩

theorem Attainable.trans {p q r : ℕ} (h : Attainable p q) (hnext : Attainable q r) :
    Attainable p r := by
  unfold Attainable at *
  omega

/-- What `k` reports do to a price. -/
theorem bounds_of_walk {p q : ℕ} {qs : List ℕ} (h : Walk Moves p qs q) :
    (qs.length = 0 → q = p) ∧
    (0 < qs.length → p < 2 ^ qs.length * q ∧ 2 ^ qs.length * q < 3 ^ qs.length * p) := by
  induction h with
  | nil p => exact ⟨fun _ => rfl, fun hpos => absurd hpos (by simp)⟩
  | @cons p r q qs hstep hrest ih =>
    rw [List.length_cons]
    refine ⟨fun hzero => absurd hzero (by omega), fun _ => ?_⟩
    obtain ⟨hsame, hsteps⟩ := ih
    rcases Nat.eq_zero_or_pos qs.length with hzero | hpos
    · rw [hsame hzero, hzero, Nat.zero_add, pow_one, pow_one]
      exact ⟨hstep.above, hstep.below⟩
    · obtain ⟨h1, h2⟩ := hsteps hpos
      exact step_then_steps hstep.above hstep.below h1.le h2.le

/-- A walk leads to attainable prices only. -/
theorem attainable_of_walk {p q : ℕ} {qs : List ℕ} (h : Walk Moves p qs q) : Attainable p q :=
  h.invariant (P := Attainable p) (fun _ _ hp hstep => hp.trans hstep.attainable) (Or.inl rfl)

/-! ## Routes -/

/-- The highest price one report leads to. -/
def raise (p : ℕ) : ℕ := (3 * p - 1) / 2

/-- The lowest price one report leads to. -/
def lower (p : ℕ) : ℕ := min p ((p + 3) / 2)

theorem raise_mono : Monotone raise := fun p q h => by
  unfold raise
  omega

theorem lower_mono : Monotone lower := fun p q h => by
  unfold lower
  omega

/-- From 3 a hundred reports reach the highest price whose limits fit. -/
theorem highest_le_raise : highest ≤ raise^[100] 3 := by decide +kernel

/-- From there sixty reports reach 3. -/
theorem lower_highest_le : lower^[60] highest ≤ 3 := by decide +kernel

/-- A higher price is reached with a hundred reports while its own limits fit. -/
theorem walk_up {p q : ℕ} (hp : 3 ≤ p) (hpq : p ≤ q) (hq : q ≤ highest) :
    ∃ qs, qs.length ≤ 100 ∧ Walk Moves p qs q := by
  have hreach : q ≤ raise^[100] p :=
    hq.trans (highest_le_raise.trans (raise_mono.iterate 100 hp))
  refine exists_walk_up (z := q) (f := raise) ?_ ?_ 100 q hpq le_rfl hreach
  · intro x hx
    unfold raise
    omega
  · intro x y hx hxy hyq hy
    unfold raise at hy
    exact ⟨by omega, by omega, by omega, by omega⟩

/-- A lower price is reached with sixty. -/
theorem walk_down {p q : ℕ} (hp : p ≤ highest) (hq : 3 ≤ q) (hqp : q ≤ p) :
    ∃ qs, qs.length ≤ 60 ∧ Walk Moves p qs q := by
  have hreach : lower^[60] p ≤ q :=
    (lower_mono.iterate 60 hp).trans (lower_highest_le.trans hq)
  refine exists_walk_down (z := q) (f := lower) ?_ ?_ 60 q hqp le_rfl hreach
  · intro x hx
    unfold lower
    omega
  · intro x y hx hyx hqy hy
    unfold lower at hy
    exact ⟨by omega, by omega, by omega, by omega⟩

theorem walk_of_attainable {p q : ℕ} (h : Attainable p q) :
    ∃ qs, qs.length ≤ 101 ∧ Walk Moves p qs q := by
  rcases h with rfl | ⟨hp, hfits, hq, hbelow⟩
  · exact ⟨[], by simp, .nil q⟩
  rcases le_total q p with hqp | hpq
  · obtain ⟨qs, hlen, hwalk⟩ := walk_down hfits hq hqp
    exact ⟨qs, by omega, hwalk⟩
  rcases le_or_gt q highest with hle | hgt
  · obtain ⟨qs, hlen, hwalk⟩ := walk_up hp hpq hle
    exact ⟨qs, by omega, hwalk⟩
  · -- one more report leads out of the prices whose limits fit
    obtain ⟨qs, hlen, hwalk⟩ := walk_up hp hfits le_rfl
    have hlast : Moves highest q := ⟨by omega, hbelow, by omega, le_rfl⟩
    refine ⟨qs ++ [q], ?_, hwalk.trans (.single hlast)⟩
    rw [List.length_append, List.length_singleton]
    omega

/-! ## The reports of a run -/

section Runs
variable {account : Name} {ctx : Ctx} {s s' : State} {info : CoinPriceInfo}
  {infos : List CoinPriceInfo} {entry : PriceEntry} {coin tpcode : Name} {p q : ℕ}
  {w w' : World State} {is js : List (Ctx × Input Action)} {clock : TimePoint}

/-- An accepted report of a coin that has a price is one step of the walk. -/
theorem Reports.moves (h : Reports s s' info entry) (hp : s.price entry.coin = some p)
    (hpos : 0 < p) : ∃ q, s'.price entry.coin = some q ∧ Moves p q := by
  have hentry : entry.price = p := by
    unfold State.price at hp
    rw [h.found] at hp
    exact Option.some.inj hp
  have hlimits := h.limits
  rw [hentry, checkLimits_iff hpos (hentry ▸ entry.lt), inBand_iff, limitsFit_iff] at hlimits
  obtain ⟨⟨habove, hbelow⟩, hne, hfits⟩ := hlimits
  have hexact : (u64 info.price.amount : ℤ) = info.price.amount := by
    have hrange := info.price.bounds
    exact u64_eq (by omega) (by omega)
  exact ⟨_, h.price_self, ⟨by omega, by omega, by omega, hfits⟩⟩

/-- The loop takes the price as many steps along as it lists the coin. -/
theorem walk_of_updateEach (h : updateEach ctx infos s = .ok s') (hp : s.price coin = some p)
    (hpos : 0 < p) :
    ∃ q qs, s'.price coin = some q ∧ qs.length = timesListed coin infos ∧ Walk Moves p qs q := by
  induction infos generalizing s p with
  | nil =>
    simp only [updateEach, Except.ok.injEq] at h
    subst h
    exact ⟨p, [], hp, rfl, .nil p⟩
  | cons info infos ih =>
    simp only [updateEach, bind_eq_ok] at h
    obtain ⟨s₁, hone, hrest⟩ := h
    obtain ⟨entry, hreports⟩ := reports_of_updateOne hone
    by_cases hcoin : entry.coin = coin
    · subst hcoin
      obtain ⟨q, hq, hmoves⟩ := hreports.moves hp hpos
      have habove : p < 2 * q := hmoves.above
      obtain ⟨q', qs, hq', hlen, hwalk⟩ := ih hrest hq (by omega)
      refine ⟨q', q :: qs, hq', ?_, .cons hmoves hwalk⟩
      simp [timesListed, hreports.coin] at hlen ⊢
      exact hlen
    · have hkept : s₁.price coin = some p := by
        rw [hreports.price_other (Ne.symm hcoin)]
        exact hp
      obtain ⟨q, qs, hq, hlen, hwalk⟩ := ih hrest hkept hpos
      refine ⟨q, qs, hq, ?_, hwalk⟩
      simp [timesListed, hreports.coin, hcoin] at hlen ⊢
      exact hlen

/-- Only a report or the removal of the coin changes its price. -/
theorem walk_of_exec {a : Action} {outs : List Transfer}
    (h : exec account ctx a s = .ok (s', outs)) (hkeeps : a ≠ .removecoin coin)
    (hp : s.price coin = some p) (hpos : 0 < p) :
    ∃ q qs, s'.price coin = some q ∧ qs.length = listedBy coin (ctx, .act a) ∧
      Walk Moves p qs q := by
  cases a with
  | addoracle oracle =>
    simp only [exec, addoracle, bind_eq_ok, checkc_eq_ok, pure_eq_ok, exists_const, Prod.mk.injEq,
      Ctx.requireAuth_eq_ok] at h
    obtain ⟨-, -, oracles, -, rfl, -⟩ := h
    exact ⟨p, [], hp, rfl, .nil p⟩
  | removeoracle oracle =>
    simp only [exec, removeoracle, bind_eq_ok, checkc_eq_ok, pure_eq_ok, exists_const,
      Prod.mk.injEq, Ctx.requireAuth_eq_ok] at h
    obtain ⟨-, -, rfl, -⟩ := h
    exact ⟨p, [], hp, rfl, .nil p⟩
  | addcoin added =>
    simp only [exec, addcoin, bind_eq_ok, checkc_eq_ok, pure_eq_ok, exists_const, Prod.mk.injEq,
      Ctx.requireAuth_eq_ok, Option.isNone_iff_eq_none] at h
    obtain ⟨-, hnew, rfl, -⟩ := h
    refine ⟨p, [], ?_, rfl, .nil p⟩
    have hne : coin ≠ added := by
      rintro rfl
      rw [State.price, hnew] at hp
      cases hp
    rw [← hp]
    simp [State.price, Table.find?_put, Name.raw_inj, hne]
  | removecoin removed =>
    simp only [exec, removecoin, bind_eq_ok, checkc_eq_ok, pure_eq_ok, exists_const,
      Prod.mk.injEq, Ctx.requireAuth_eq_ok] at h
    obtain ⟨-, -, rfl, -⟩ := h
    refine ⟨p, [], ?_, rfl, .nil p⟩
    have hne : coin ≠ removed := fun he => hkeeps (he ▸ rfl)
    rw [← hp]
    simp [State.price, Table.find?_erase, Name.raw_inj, hne]
  | updateprice oracle infos =>
    simp only [exec, updateprice, bind_eq_ok, checkc_eq_ok, pure_eq_ok, exists_const,
      Prod.mk.injEq, Ctx.requireAuth_eq_ok] at h
    obtain ⟨-, -, -, s₁, hloop, rfl, -⟩ := h
    exact walk_of_updateEach hloop hp hpos

/-- A run takes the price as many steps along as its calls list the coin. -/
theorem walk_of_run (hrun : Transition.Run (contract account).step (KeepsCoin coin) w is w')
    (hp : w.state.price coin = some p) (hpos : 0 < p) :
    ∃ q qs, w'.state.price coin = some q ∧ qs.length = listedIn coin is ∧ Walk Moves p qs q := by
  induction hrun with
  | nil => exact ⟨p, [], hp, rfl, .nil p⟩
  | @snoc w₁ w₂ is i hrun hok hstep ih =>
    obtain ⟨q, qs, hq, hlen, hwalk⟩ := ih
    obtain ⟨outs, hexec⟩ := (contract account).run_of_step hstep
    obtain ⟨ctx, input⟩ := i
    cases input with
    | notify n =>
      simp only [Contract.run, contract, Except.ok.injEq, Prod.mk.injEq] at hexec
      refine ⟨q, qs, hexec.1 ▸ hq, ?_, hwalk⟩
      simpa [listedIn, listedBy] using hlen
    | act a =>
      have hqpos : 0 < q := hwalk.invariant (P := fun q => 0 < q)
        (fun x y _ hmoves => by have := hmoves.above; omega) hpos
      obtain ⟨q', qs', hq', hlen', hwalk'⟩ := walk_of_exec hexec (by
        rintro rfl
        exact hok rfl) hq hqpos
      refine ⟨q', qs ++ qs', hq', ?_, hwalk.trans hwalk'⟩
      simp [listedIn, hlen, hlen']

/-- While a coin stays registered, in whatever calls and together with whatever else, its price
never vanishes, stays what it is as long as no call lists it, and after `k` listings lies less
than the `k`-th powers of a half and of one and a half away. -/
theorem drift_of_run (hrun : Transition.Run (contract account).step (KeepsCoin coin) w is w')
    (hp : w.state.price coin = some p) (hpos : 0 < p) :
    ∃ q, w'.state.price coin = some q ∧ 0 < q ∧ (listedIn coin is = 0 → q = p) ∧
      (0 < listedIn coin is → p < 2 ^ listedIn coin is * q ∧
        2 ^ listedIn coin is * q < 3 ^ listedIn coin is * p) := by
  obtain ⟨q, qs, hq, hlen, hwalk⟩ := walk_of_run hrun hp hpos
  have hbounds := bounds_of_walk hwalk
  rw [hlen] at hbounds
  have hqpos : 0 < q := hwalk.invariant (P := fun q => 0 < q)
    (fun x y _ hmoves => by have := hmoves.above; omega) hpos
  exact ⟨q, hq, hqpos, hbounds.1, hbounds.2⟩

/-! ## One call -/

/-- An element keeps the quote coin and the quote symbol. -/
theorem quotes_of_updateOne (h : updateOne ctx info s = .ok s') :
    s'.gstate.quoteCode = s.gstate.quoteCode ∧ s'.gstate.quoteSymbol = s.gstate.quoteSymbol := by
  simp only [updateOne, bind_eq_ok, checkc_eq_ok, require_eq_ok, pure_eq_ok, exists_const] at h
  obtain ⟨⟨baseCoin, quoteCoin⟩, -, -, -, entry, -, u, -, coinPrices, -, rfl⟩ := h
  exact ⟨rfl, rfl⟩

/-- Every walk of a price can be reported in one vector. -/
theorem updateEach_of_walk {qs : List ℕ} (hwalk : Walk Moves p qs q)
    (htpcode : splitTpcode tpcode = .ok (coin, s.gstate.quoteCode)) (hone : s.OneRow coin)
    (hp : s.price coin = some p) (hpos : 0 < p) :
    ∃ infos s', infos.length = qs.length ∧ updateEach ctx infos s = .ok s' ∧
      s'.price coin = some q := by
  induction hwalk generalizing s with
  | nil p => exact ⟨[], s, rfl, rfl, hp⟩
  | @cons p r q qs hmoves hrest ih =>
    obtain ⟨habove, hbelow, hne, hfits⟩ := hmoves
    have hr : r < 2 ^ 62 := by
      unfold highest at hfits
      omega
    have hlt : p < 2 ^ 64 := by omega
    let info : CoinPriceInfo := ⟨tpcode, ⟨r, s.gstate.quoteSymbol, by omega⟩⟩
    have hcoin : info.coin? = some coin := by
      unfold CoinPriceInfo.coin?
      rw [htpcode]
    have hlimits : checkLimits p (r : ℤ) = .ok () := by
      rw [checkLimits_iff hpos hlt, inBand_iff, limitsFit_iff]
      exact ⟨⟨by omega, by omega⟩, by omega, hfits⟩
    have hquoted : Quoted s info.price := rfl
    have haccepted : Accepts ctx info s := (accepts_iff hone htpcode hquoted hp).mpr hlimits
    obtain ⟨s₁, hs₁⟩ := haccepted
    obtain ⟨entry, hreports⟩ := reports_of_updateOne hs₁
    have hentry : entry.coin = coin := Option.some.inj (hreports.coin.symm.trans hcoin)
    have hexact : u64 (r : ℤ) = r := by
      have := u64_eq (x := r) (by omega) (by omega)
      omega
    have hprice : s₁.price coin = some r := by
      have hself := hreports.price_self
      rw [hentry] at hself
      exact hself.trans (congrArg some hexact)
    obtain ⟨new, -, hrows⟩ := rows_of_updateOne hs₁ hcoin hone
    have hone₁ : s₁.OneRow coin := by
      intro row hrow row' hrow' hc hc'
      rw [(hrows row).mp ⟨hrow, hc⟩, (hrows row').mp ⟨hrow', hc'⟩]
    obtain ⟨infos, s', hlen, hloop, hs'⟩ :=
      ih ((quotes_of_updateOne hs₁).1 ▸ htpcode) hone₁ hprice (by omega)
    refine ⟨info :: infos, s', by simp [hlen], ?_, hs'⟩
    rw [updateEach, show updateOne ctx info s = .ok s₁ from hs₁, ok_bind]
    exact hloop

/-- In every reachable state, whatever happens while a coin stays registered leads its price to
attainable prices only; and every attainable price other than the last one is reached by one
call of any one registered oracle, with at most 101 reports. -/
theorem attainable_of_run
    (hrun : Transition.Run (contract account).step Transition.Unrestricted (genesis clock) is w)
    (htpcode : splitTpcode tpcode = .ok (coin, w.state.gstate.quoteCode))
    (hp : w.state.price coin = some p) (hpos : 0 < p) :
    (∀ js w', Transition.Run (contract account).step (KeepsCoin coin) w js w' →
      ∃ q, w'.state.price coin = some q ∧ Attainable p q) ∧
    ∀ (ctx : Ctx) (oracle : Name), ctx.hasAuth oracle = true →
      (w.state.oracles.find? oracle.raw).isSome = true → ∀ q, q ≠ p → Attainable p q →
      ∃ infos s', infos.length ≤ 101 ∧
        exec account ctx (.updateprice oracle infos) w.state = .ok (s', []) ∧
        s'.price coin = some q := by
  constructor
  · intro js w' hjs
    obtain ⟨q, qs, hq, -, hwalk⟩ := walk_of_run hjs hp hpos
    exact ⟨q, hq, attainable_of_walk hwalk⟩
  · intro ctx oracle hauth horacle q hne hattain
    obtain ⟨qs, hlen, hwalk⟩ := walk_of_attainable hattain
    have hreported : ∃ infos s', infos.length = qs.length ∧
        updateEach ctx infos w.state = .ok s' ∧ s'.price coin = some q :=
      updateEach_of_walk hwalk htpcode (oneRow_of_run hrun coin) hp hpos
    obtain ⟨infos, s', hinfos, hloop, hq⟩ := hreported
    refine ⟨infos, s', by omega, ?_, hq⟩
    have hnonempty : infos.isEmpty = false := by
      cases infos with
      | nil =>
        simp only [updateEach, Except.ok.injEq] at hloop
        subst hloop
        exact absurd (Option.some.inj (hq.symm.trans hp)) hne
      | cons info infos => rfl
    rw [exec, updateprice, Ctx.requireAuth, check_of hauth, checkc_of horacle,
      checkc_of hnonempty, hloop, ok_bind]
    rfl

end Runs

/-! ## BTC at 100 -/

namespace Sample

/-- Two calls list BTC three times while another coin comes and goes. -/
def calls : List (Ctx × Input Action) :=
  [update [btcAt (int64 140), btcAt (int64 190)], (.signed account 100, .act (.addcoin bidder)),
   update [btcAt (int64 150)], (.signed account 100, .act (.removecoin bidder))]

theorem drift_of_run_sample :
    ∃ w w' q, Transition.Run (contract account).step Transition.Unrestricted
        (genesis (.ofDays 100)) setup w ∧
      Transition.Run (contract account).step (KeepsCoin btc) w calls w' ∧
      w'.state.price btc = some q ∧ 100 < 8 * q ∧ 8 * q < 2700 := by
  have hsetup : Transition.Reaches (contract account).step Transition.Unrestricted (fun w =>
      w.state.price btc = some 100 ∧
      Transition.Reaches (contract account).step (KeepsCoin btc) (fun _ => True) calls w)
      setup (genesis (.ofDays 100)) := by decide
  obtain ⟨w, hrun, hprice, hcalls⟩ := Transition.run_of_reaches hsetup
  obtain ⟨w', hrun', -⟩ := Transition.run_of_reaches hcalls
  obtain ⟨q, hq, -, -, hbounds⟩ := drift_of_run hrun' hprice (by omega)
  have hlisted : listedIn btc calls = 3 := by decide
  rw [hlisted] at hbounds
  exact ⟨w, w', q, hrun, hrun', hq, hbounds (by omega)⟩

/-- One call takes BTC from 100 to 3, or to a million. -/
theorem attainable_of_run_sample :
    ∃ w, Transition.Run (contract account).step Transition.Unrestricted (genesis (.ofDays 100))
        setup w ∧ w.state.price btc = some 100 ∧
      ∀ q ∈ [3, 1000000], ∃ infos s', infos.length ≤ 101 ∧
        exec account (.signed bidder 100) (.updateprice bidder infos) w.state = .ok (s', []) ∧
        s'.price btc = some q := by
  have hreach : Transition.Reaches (contract account).step Transition.Unrestricted (fun w =>
      w.state.price btc = some 100 ∧ w.state.gstate.quoteCode = .lit "usdt" ∧
      (w.state.oracles.find? bidder.raw).isSome = true)
      setup (genesis (.ofDays 100)) := by decide
  obtain ⟨w, hrun, hprice, hquote, horacle⟩ := Transition.run_of_reaches hreach
  have hsplit : splitTpcode (.lit "btc.usdt") = .ok (btc, .lit "usdt") := by decide
  rw [← hquote] at hsplit
  have hauth : (Ctx.signed bidder 100).hasAuth bidder = true := by decide
  have hcall := (attainable_of_run hrun hsplit hprice (by omega)).2 _ bidder hauth horacle
  refine ⟨w, hrun, hprice, fun q hq => hcall q ?_ (Or.inr ⟨by omega, ?_, ?_, ?_⟩)⟩
  · rintro rfl
    simp at hq
  · decide
  · simp at hq
    omega
  · unfold highest
    simp at hq
    omega

end Sample

end PriceOracle
end ToolkitContracts
