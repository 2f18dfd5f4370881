import ToolkitContracts.PriceOracle.Model

/-!
# How far one call moves a price

Each element of the vector is checked against the price that is stored when its turn comes, and
that may be one that an earlier element of the vector wrote. So a coin that is listed once moves
by less than a half, and a coin that is listed several times by the product of that many such
steps. The limits are rounded, but the rounding never lets a price on the bound through.
-/

namespace ToolkitContracts
namespace PriceOracle

open Schedule

/-- The coin whose price an element reports. -/
def CoinPriceInfo.coin? (info : CoinPriceInfo) : Option Name :=
  match splitTpcode info.tpcode with
  | .ok (baseCoin, _) => some baseCoin
  | .error _ => none

/-- How often a vector lists a coin. -/
def timesListed (coin : Name) (infos : List CoinPriceInfo) : ℕ :=
  infos.countP fun info => decide (info.coin? = some coin)

/-- The stored price of a coin. -/
def State.price (s : State) (coin : Name) : Option ℕ :=
  (s.gstate.prices.find? coin.raw).map PriceEntry.price

/-! ## One element -/

/-- The limits keep a price strictly between half and one and a half of the last one. -/
theorem limits_spec {p : ℕ} {q : ℤ} {u : Unit} (hpos : 0 < p) (hlt : p < 2 ^ 64)
    (h : checkLimits p q = .ok u) : (p : ℤ) < 2 * q ∧ 2 * q < 3 * p := by
  unfold checkLimits at h
  rw [if_neg (by omega)] at h
  simp only [bind_eq_ok, checkc_eq_ok] at h
  obtain ⟨upper, hupper, lower, hlower, hlo, hhi⟩ := h
  have hup := ((multiplyDecimal64_eq_ok (by omega) (by omega) (by omega)
    (by omega)).mp hupper).2
  have hlow := ((multiplyDecimal64_eq_ok (by omega) (by omega) (by omega)
    (by omega)).mp hlower).2
  unfold roundHalfUp at hup hlow
  constructor
  · omega
  · omega

/-- What an accepted element has checked and what it writes. -/
structure Reports (s s' : State) (info : CoinPriceInfo) (entry : PriceEntry) : Prop where
  coin : info.coin? = some entry.coin
  found : s.gstate.prices.find? entry.coin.raw = some entry
  limits : checkLimits entry.price info.price.amount = .ok ()
  prices : s'.gstate.prices
    = s.gstate.prices.put ⟨entry.coin, u64 info.price.amount, u64_lt _⟩

section Updates
variable {ctx : Ctx} {s s' : State} {info : CoinPriceInfo} {infos : List CoinPriceInfo}
  {entry : PriceEntry} {coin : Name} {p : ℕ}

theorem reports_of_updateOne (h : updateOne ctx info s = .ok s') :
    ∃ entry, Reports s s' info entry := by
  simp only [updateOne, bind_eq_ok, checkc_eq_ok, require_eq_ok, pure_eq_ok, exists_const] at h
  obtain ⟨⟨baseCoin, quoteCoin⟩, hsplit, -, -, entry, hentry, u, hlimits, coinPrices, -, rfl⟩ := h
  have hcoin : entry.coin = baseCoin := Name.raw_inj.mp (Table.find?_eq_some.mp hentry).2
  subst hcoin
  refine ⟨entry, ?_, hentry, hlimits, rfl⟩
  unfold CoinPriceInfo.coin?
  rw [hsplit]

/-- An element writes the price of its coin. -/
theorem Reports.price_self (h : Reports s s' info entry) :
    s'.price entry.coin = some (u64 info.price.amount) := by
  unfold State.price
  rw [h.prices, Table.find?_put, if_pos rfl]
  rfl

/-- An element leaves the prices of other coins alone. -/
theorem Reports.price_other (h : Reports s s' info entry) (hne : coin ≠ entry.coin) :
    s'.price coin = s.price coin := by
  unfold State.price
  rw [h.prices, Table.find?_put, if_neg]
  exact fun hraw => hne (Name.raw_inj.mp hraw)

/-- A coin with a price moves by less than a half. -/
theorem Reports.step (h : Reports s s' info entry) (hp : s.price entry.coin = some p)
    (hpos : 0 < p) :
    ∃ q, s'.price entry.coin = some q ∧ p < 2 * q ∧ 2 * q < 3 * p := by
  have hentry : entry.price = p := by
    unfold State.price at hp
    rw [h.found] at hp
    exact Option.some.inj hp
  have hlimits := h.limits
  rw [hentry] at hlimits
  have hbounds := limits_spec hpos (hentry ▸ entry.lt) hlimits
  -- a price that passes is positive, so storing it as `uint64_t` keeps it
  have hexact : (u64 info.price.amount : ℤ) = info.price.amount := by
    have hrange := info.price.bounds
    exact u64_eq (by omega) (by omega)
  refine ⟨u64 info.price.amount, h.price_self, ?_, ?_⟩
  · omega
  · omega

/-! ## The vector -/

/-- Two moves, the second within `k` steps of the first, are within `k + 1` steps. -/
theorem step_then_steps {p q r k : ℕ} (h1 : p < 2 * q) (h2 : 2 * q < 3 * p)
    (h3 : q ≤ 2 ^ k * r) (h4 : 2 ^ k * r ≤ 3 ^ k * q) :
    p < 2 ^ (k + 1) * r ∧ 2 ^ (k + 1) * r < 3 ^ (k + 1) * p := by
  have h3pos : 0 < 3 ^ k := Nat.pow_pos (by omega)
  constructor
  · calc p < 2 * q := h1
      _ ≤ 2 * (2 ^ k * r) := Nat.mul_le_mul_left 2 h3
      _ = 2 ^ (k + 1) * r := by ring
  · calc 2 ^ (k + 1) * r = 2 * (2 ^ k * r) := by ring
      _ ≤ 2 * (3 ^ k * q) := Nat.mul_le_mul_left 2 h4
      _ = 3 ^ k * (2 * q) := by ring
      _ < 3 ^ k * (3 * p) := Nat.mul_lt_mul_of_pos_left h2 h3pos
      _ = 3 ^ (k + 1) * p := by ring

/-- What the loop does to a coin that has a price. -/
theorem updateEach_spec (h : updateEach ctx infos s = .ok s') (hp : s.price coin = some p)
    (hpos : 0 < p) :
    ∃ p', s'.price coin = some p' ∧ (timesListed coin infos = 0 → p' = p) ∧
      (0 < timesListed coin infos → p < 2 ^ timesListed coin infos * p' ∧
        2 ^ timesListed coin infos * p' < 3 ^ timesListed coin infos * p) := by
  induction infos generalizing s p with
  | nil =>
    simp only [updateEach, Except.ok.injEq] at h
    subst h
    exact ⟨p, hp, fun _ => rfl, fun hlisted => absurd hlisted (by simp [timesListed])⟩
  | cons info infos ih =>
    simp only [updateEach, bind_eq_ok] at h
    obtain ⟨s₁, hone, hrest⟩ := h
    obtain ⟨entry, hreports⟩ := reports_of_updateOne hone
    by_cases hcoin : entry.coin = coin
    · subst hcoin
      have hcount : timesListed entry.coin (info :: infos) = timesListed entry.coin infos + 1 := by
        simp [timesListed, hreports.coin]
      obtain ⟨q, hq, h1, h2⟩ := hreports.step hp hpos
      obtain ⟨p', hp', hsame, hsteps⟩ := ih hrest hq (by omega)
      rw [hcount]
      refine ⟨p', hp', fun hzero => absurd hzero (by omega), fun _ => ?_⟩
      -- the rest of the vector starts from the price just written
      rcases Nat.eq_zero_or_pos (timesListed entry.coin infos) with hzero | hlisted
      · rw [hsame hzero, hzero]
        simp only [Nat.zero_add, pow_one]
        exact ⟨h1, h2⟩
      · obtain ⟨h3, h4⟩ := hsteps hlisted
        exact step_then_steps h1 h2 h3.le h4.le
    · have hcount : timesListed coin (info :: infos) = timesListed coin infos := by
        simp [timesListed, hreports.coin, hcoin]
      have hkept : s₁.price coin = some p := by
        rw [hreports.price_other (Ne.symm hcoin)]
        exact hp
      rw [hcount]
      exact ih hrest hkept hpos

/-- One accepted call of `updateprice` leaves the price of a coin alone that it does not list,
and moves one that it lists `k` times by less than the `k`-th power of a half downwards and of
one and a half upwards; a coin that is listed once by less than a half. -/
theorem updateprice_moves {self oracle : Name} {outs : List Transfer}
    (h : exec self ctx (.updateprice oracle infos) s = .ok (s', outs)) :
    ∀ coin p, s.price coin = some p → 0 < p →
      ∃ p', s'.price coin = some p' ∧ (timesListed coin infos = 0 → p' = p) ∧
        (0 < timesListed coin infos → p < 2 ^ timesListed coin infos * p' ∧
          2 ^ timesListed coin infos * p' < 3 ^ timesListed coin infos * p) := by
  intro coin p hp hpos
  simp only [exec, updateprice, bind_eq_ok, checkc_eq_ok, pure_eq_ok, exists_const, Prod.mk.injEq,
    Ctx.requireAuth_eq_ok] at h
  obtain ⟨-, -, -, s₁, hloop, rfl, -⟩ := h
  exact updateEach_spec hloop hp hpos

end Updates

/-! ## A coin listed twice -/

namespace Sample

def account : Name := .lit "price.oracle"
def bidder : Name := .lit "bidder"
def btc : Name := .lit "btc"

/-- A report of the price of BTC, in units of 0.000001 USDT. -/
def btcAt (amount : Int64Arg) : CoinPriceInfo := ⟨.lit "btc.usdt", .lit amount (.lit "USDT" 6)⟩

def update (infos : List CoinPriceInfo) : Ctx × Input Action :=
  (.signed bidder 100, .act (.updateprice bidder infos))

/-- BTC has the price 100. -/
def setup : List (Ctx × Input Action) :=
  [(.signed account 100, .act (.addoracle bidder)), (.signed account 100, .act (.addcoin btc)),
   update [btcAt (int64 100)]]

/-- One call lists BTC at 140 and at 190: each is within half of the one before. -/
theorem listed_twice :
    ¬ ∀ (is : List (Ctx × Input Action)) (w : World State) (ctx : Ctx) (oracle : Name)
      (infos : List CoinPriceInfo) (s' : State) (outs : List Transfer),
      Transition.Run (contract account).step Transition.Unrestricted (genesis (.ofDays 100)) is w →
      exec account ctx (.updateprice oracle infos) w.state = .ok (s', outs) →
      ∀ coin p, w.state.price coin = some p → 0 < p →
        ∃ p', s'.price coin = some p' ∧ p < 2 * p' ∧ 2 * p' < 3 * p := by
  intro hclaim
  have hreach : Transition.Reaches (contract account).step Transition.Unrestricted (fun w =>
      w.state.price btc = some 100 ∧
      Transition.Succeeds (exec account (.signed bidder 100)
        (.updateprice bidder [btcAt (int64 140), btcAt (int64 190)]) w.state)
        fun e => e.1.price btc = some 190)
      setup (genesis (.ofDays 100)) := by decide
  obtain ⟨w, hrun, hbefore, hcall⟩ := Transition.run_of_reaches hreach
  obtain ⟨⟨s', outs⟩, hexec, hafter⟩ := Transition.succeeds_iff.mp hcall
  obtain ⟨p', hp', hbounds⟩ := hclaim _ w _ _ _ _ _ hrun hexec btc 100 hbefore (by omega)
  have hsame : p' = 190 := Option.some.inj (hp'.symm.trans hafter)
  omega

/-- Listed once, BTC moves from 100 to 149 and no further. -/
theorem updateprice_moves_sample :
    ∃ w s' p', Transition.Run (contract account).step Transition.Unrestricted
        (genesis (.ofDays 100)) setup w ∧
      Transition.Succeeds (exec account (.signed bidder 100)
        (.updateprice bidder [btcAt (int64 149)]) w.state) (fun e => e.1 = s') ∧
      s'.price btc = some p' ∧ 100 < 2 * p' ∧ 2 * p' < 300 := by
  have hreach : Transition.Reaches (contract account).step Transition.Unrestricted (fun w =>
      w.state.price btc = some 100 ∧
      Transition.Succeeds (exec account (.signed bidder 100)
        (.updateprice bidder [btcAt (int64 149)]) w.state) fun _ => True)
      setup (genesis (.ofDays 100)) := by decide
  obtain ⟨w, hrun, hbefore, hcall⟩ := Transition.run_of_reaches hreach
  obtain ⟨⟨s', outs⟩, hexec, -⟩ := Transition.succeeds_iff.mp hcall
  obtain ⟨p', hp', -, hbounds⟩ := updateprice_moves hexec btc 100 hbefore (by omega)
  have hlisted : timesListed btc [btcAt (int64 149)] = 1 := by decide
  rw [hlisted] at hbounds
  have honce := hbounds (by omega)
  refine ⟨w, s', p', hrun, Transition.succeeds_iff.mpr ⟨_, hexec, rfl⟩, hp', ?_, ?_⟩
  · omega
  · omega

end Sample

end PriceOracle
end ToolkitContracts
