import ToolkitContracts.Faucet.Model
import ToolkitContracts.Lib.Spacing

/-!
# What the faucet pays

The row of an account holds the time of the last payment to it, so that the payments to one account
lie a day apart. The faucet accepts a claim on these grounds alone. It opens any account that the
system contract opens for it: such an account did not exist, so it has not been paid before.
-/

namespace ToolkitContracts
namespace Faucet

open PubkeyToken (flonToken sysBank)
open Spacing

/-- The payment to `account`, if it is that, with its time. -/
def paid? (account : Name) : TimePoint × Sent → Option (TimePoint × Transfer)
  | (t, .pay p) => if p.recipient = account then some (t, p) else none
  | (_, .system _) => none

/-- The payments to `account`. -/
def payments (account : Name) (sent : List (TimePoint × Sent)) : List (TimePoint × Transfer) :=
  sent.filterMap (paid? account)

/-- The seconds of the payments to `account`. -/
def seconds (account : Name) (sent : List (TimePoint × Sent)) : List ℕ :=
  (payments account sent).map (·.1.secSinceEpoch)

theorem payQuant_pos : 0 < payQuant.amount := by decide

/-- What a number of payments come to. -/
theorem outflow_payments {account : Name} {ms : List (TimePoint × Transfer)}
    (h : ∀ m ∈ ms, m.2 = payment account) :
    outflow flonToken (ms.map (·.2)) = payQuant.amount * ms.length := by
  induction ms with
  | nil => rfl
  | cons m ms ih =>
    have hm : m.2 = payment account := h m (List.mem_cons_self ..)
    have htoken : (payment account).token = flonToken := rfl
    rw [List.map_cons, outflow_cons, hm, if_pos htoken,
      ih fun u hu => h u (List.mem_cons_of_mem _ hu), List.length_cons]
    show payQuant.amount + _ = _
    push_cast
    rw [mul_add, mul_one, add_comm]

section Steps
variable {τ β : Type} {S : SystemContract τ β} {self account : Name} {t : τ} {w w' : Site State τ}
  {ctx : Ctx} {a : Action}

/-- An action pays its own account and no other. -/
theorem payments_of_action (account : Name) (t : TimePoint) (a : Action) :
    payments account ((a.opening self ++ transfer a.account).map fun m => (t, m))
      = if a.account = account then [(t, payment account)] else [] := by
  have hopening : payments account ((a.opening self).map fun m => (t, m)) = [] := by
    cases a with
    | active account' pubkey => rfl
    | claim account' => rfl
  rw [List.map_append, payments, List.filterMap_append, ← payments, hopening, List.nil_append]
  by_cases hto : a.account = account
  · subst hto
    simp [transfer, paid?, payment]
  · simp [transfer, paid?, payment, hto]

theorem payments_append (sent sent' : List (TimePoint × Sent)) :
    payments account (sent ++ sent') = payments account sent ++ payments account sent' :=
  List.filterMap_append

theorem paid_mem_log {m : TimePoint × Transfer} (hm : m ∈ payments account w.sent) :
    (m.1, .pay m.2) ∈ w.sent ∧ m.2.recipient = account := by
  obtain ⟨⟨t, s⟩, hs, hpaid⟩ := List.mem_filterMap.mp hm
  cases s with
  | system b => cases hpaid
  | pay p =>
    unfold paid? at hpaid
    dsimp only at hpaid
    split at hpaid
    · next hto =>
      obtain rfl : (t, p) = m := Option.some.inj hpaid
      exact ⟨hs, hto⟩
    · cases hpaid

/-- A paid account exists. -/
theorem isAccount_of_payments (hw : w.Sound S t) {m : TimePoint × Transfer}
    (hm : m ∈ payments account w.sent) : S.isAccount w.system account = true := by
  obtain ⟨hs, rfl⟩ := paid_mem_log hm
  refine hw.paid m.2 ?_
  rw [← Site.map_snd_sent]
  exact List.mem_map_of_mem hs

/-- What the rows say about the payments. -/
structure Recorded {τ : Type} (w : Site State τ) : Prop where
  /-- The row of an account holds the time of the last payment to it. -/
  last : ∀ account, (w.state.accounts.find? account.raw).map (·.updatedAt)
    = (payments account w.sent).getLast?.map (·.1)
  spaced : ∀ account, Spaced daySeconds (seconds account w.sent)
  exact : ∀ account, ∀ m ∈ payments account w.sent, m.2 = payment account

/-- The row of an account may be set when the last payment to it is a day old. -/
theorem mayPay_iff (hw : w.Kept) (hrec : Recorded w)
    (hclock : w.clock ≤ ctx.now) : MayPay ctx account w.state ↔
      ∀ t ∈ (seconds account w.sent).getLast?, t + daySeconds ≤ ctx.now.secSinceEpoch := by
  have hlast := hrec.last account
  have hseconds : (seconds account w.sent).getLast?
      = ((payments account w.sent).getLast?.map (·.1)).map TimePoint.secSinceEpoch := by
    rw [seconds, List.getLast?_map, Option.map_map]
    rfl
  rw [hseconds, ← hlast, Option.map_map]
  unfold MayPay
  cases hrow : w.state.accounts.find? account.raw with
  | none => simp
  | some r =>
    -- the time of the row is that of a payment, so the difference does not wrap around
    have hle : r.updatedAt ≤ ctx.now := by
      rw [hrow] at hlast
      obtain ⟨m, hm, hr⟩ := Option.map_eq_some_iff.mp hlast.symm
      have hr' : m.1 = r.updatedAt := hr
      rw [← hr']
      exact (hw.clock _ (paid_mem_log (List.mem_of_getLast? hm)).1).trans hclock
    have hsec := TimePoint.secSinceEpoch_mono hle
    have hbound := ctx.now.secSinceEpoch_lt
    have hdiff : (u32 ((ctx.now.secSinceEpoch : ℤ) - r.updatedAt.secSinceEpoch) : ℤ)
        = (ctx.now.secSinceEpoch : ℤ) - r.updatedAt.secSinceEpoch := by
      apply u32_eq
      · omega
      · omega
    simp only [Option.some.injEq, forall_eq', Option.map_some, Function.comp_apply, Option.mem_def]
    omega

theorem recorded_of_step {e : Ctx × Event Action β} (hw : w.Kept) (hrec : Recorded w)
    (hstep : (contract self).step S w e = .ok w') : Recorded w' := by
  obtain ⟨ctx, event⟩ := e
  cases event with
  | deposit x amount =>
    obtain ⟨-, -, rfl⟩ := Opener.step_deposit.mp hstep
    exact ⟨hrec.last, hrec.spaced, hrec.exact⟩
  | other b =>
    obtain ⟨-, t, -, rfl⟩ := Opener.step_other.mp hstep
    exact ⟨hrec.last, hrec.spaced, hrec.exact⟩
  | act a =>
    obtain ⟨hclock, hmay, hstate, hsent⟩ := step_act hstep
    have hpayments : ∀ account, payments account w'.sent = payments account w.sent ++
        if a.account = account then [(ctx.now, payment account)] else [] := by
      intro account
      rw [hsent, payments_append, payments_of_action]
    constructor
    · intro account
      rw [hpayments, hstate, Table.find?_put]
      by_cases hto : a.account = account
      · subst hto
        simp [Account.primaryKey]
      · have hkey : account.raw ≠ Account.primaryKey ⟨a.account, ctx.now⟩ :=
          fun h => hto (Name.raw_inj.mp h.symm)
        rw [if_neg hkey, if_neg hto, List.append_nil]
        exact hrec.last account
    · intro account
      rw [seconds, hpayments]
      by_cases hto : a.account = account
      · subst hto
        rw [if_pos rfl, List.map_append]
        exact (hrec.spaced a.account).snoc ((mayPay_iff hw hrec hclock).mp hmay)
      · rw [if_neg hto, List.append_nil]
        exact hrec.spaced account
    · intro account m hm
      rw [hpayments] at hm
      rcases List.mem_append.mp hm with hm | hm
      · exact hrec.exact account m hm
      · split at hm
        · rw [List.mem_singleton] at hm
          rw [hm]
        · cases hm

/-! ## Acceptance -/

/-- The system contract opens the account for the faucet and sells the gas for it, and takes
`charges`. -/
def Opens (S : SystemContract τ β) (self : Name) (ctx : Ctx) (account : Name) (pubkey : PublicKey)
    (t t' : τ) (charges : List Transfer) : Prop :=
  ∃ t₁ fee gas,
    S.exec ctx (.newaccount self account ⟨1, [(pubkey, 1)]⟩ ⟨1, [(pubkey, 1)]⟩) t = .ok (t₁, fee) ∧
    S.exec ctx (.buygas self account gasQuant.1) t₁ = .ok (t', gas) ∧ charges = fee ++ gas

theorem Opens.isAccount (hS : S.Standard) {pubkey : PublicKey} {t' : τ} {charges : List Transfer}
    (h : Opens S self ctx account pubkey t t' charges) :
    S.isAccount t account = false ∧ S.isAccount t' account = true := by
  obtain ⟨t₁, fee, gas, hopen, hgas, -⟩ := h
  obtain ⟨hnew, hopened⟩ := hS.newaccount hopen
  refine ⟨hnew, ?_⟩
  rw [(hS.buygas hgas).1, hopened]
  exact Function.update_self ..

/-- A payment is carried out to an account that exists, when it is settled. -/
theorem carryOut_transfer_iff {h : Holding} :
    (∃ c, carryOut S self ctx (t, h) (transfer account) = .ok c) ↔
      S.isAccount t account = true ∧ ∃ h', settle self h [payment account] = .ok h' := by
  constructor
  · rintro ⟨⟨c, receipts⟩, hc⟩
    obtain ⟨t₁, charges, harrive, h₁, hsettle, -⟩ := carryOut_cons.mp hc
    obtain ⟨hexists, -, rfl⟩ := arrive_pay.mp harrive
    exact ⟨hexists, h₁, hsettle⟩
  · rintro ⟨hexists, h₁, hsettle⟩
    exact ⟨_, carryOut_cons.mpr ⟨t, _, arrive_pay.mpr ⟨hexists, rfl, rfl⟩, h₁, hsettle, _,
      carryOut_nil.mpr ⟨rfl, rfl⟩, rfl⟩⟩

/-- An opening is carried out when the system contract carries it out, and what it takes is settled
together with the payment. -/
theorem carryOut_opening_iff (hS : S.Standard) {h : Holding} {pubkey : PublicKey} :
    (∃ c, carryOut S self ctx (t, h)
        (sendNewaccount self account pubkey ++ transfer account) = .ok c) ↔
      ∃ t' charges, Opens S self ctx account pubkey t t' charges ∧
        ∃ h', settle self h (charges ++ [payment account]) = .ok h' := by
  constructor
  · rintro ⟨⟨c, receipts⟩, hc⟩
    obtain ⟨t₁, fee, hopen, h₁, hfee, rest, hc, -⟩ := carryOut_cons.mp hc
    obtain ⟨t₂, gas, hgas, h₂, hpaid, rest, hc, -⟩ := carryOut_cons.mp hc
    obtain ⟨-, h₃, hpay⟩ := carryOut_transfer_iff.mp ⟨_, hc⟩
    refine ⟨t₂, fee ++ gas, ⟨t₁, fee, gas, hopen, hgas, rfl⟩, h₃, ?_⟩
    exact settle_append.mpr ⟨h₂, settle_append.mpr ⟨h₁, hfee, hpaid⟩, hpay⟩
  · rintro ⟨t₂, charges, hopens, h₃, hsettle⟩
    have hexists := (hopens.isAccount hS).2
    obtain ⟨t₁, fee, gas, hopen, hgas, rfl⟩ := hopens
    obtain ⟨h₂, hcharged, hpay⟩ := settle_append.mp hsettle
    obtain ⟨h₁, hfee, hpaid⟩ := settle_append.mp hcharged
    obtain ⟨⟨c, rest⟩, hc⟩ := carryOut_transfer_iff.mpr ⟨hexists, h₃, hpay⟩
    exact ⟨_, carryOut_cons.mpr ⟨t₁, fee, hopen, h₁, hfee, _,
      carryOut_cons.mpr ⟨t₂, gas, hgas, h₂, hpaid, _, hc, rfl⟩, rfl⟩⟩

/-- An action is accepted when its row may be set and what it sends is carried out. -/
theorem step_act_iff (hclock : w.clock ≤ ctx.now) :
    (∃ w', (contract self).step S w (ctx, .act a) = .ok w') ↔
      MayPay { ctx with isAccount := S.isAccount w.system } a.account w.state ∧
      ∃ c, carryOut S self ctx (w.system, w.holding) (a.opening self ++ transfer a.account)
        = .ok c := by
  simp only [Opener.step_act]
  constructor
  · rintro ⟨w', -, s, sent, hexec, t', h', receipts, hcarry, -⟩
    obtain ⟨hmay, -, rfl⟩ := exec_eq_ok.mp hexec
    exact ⟨hmay, _, hcarry⟩
  · rintro ⟨hmay, ⟨⟨t', h'⟩, receipts⟩, hcarry⟩
    exact ⟨_, hclock, _, _, exec_eq_ok.mpr ⟨hmay, rfl, rfl⟩, t', h', receipts, hcarry, rfl⟩

/-- What the system contract takes is settled together with the payment when both are covered. -/
theorem settle_opening_iff {h : Holding} (h0 : ∀ x, 0 ≤ h x) (charges : List Transfer) :
    (∃ h', settle self h (charges ++ [payment account]) = .ok h') ↔
      ((∀ c ∈ charges, c.recipient ≠ self ∧ 0 < c.quantity.amount) ∧ account ≠ self) ∧
      ∀ x, outflow x charges + (if flonToken = x then payQuant.amount else 0) ≤ h x := by
  rw [settle_iff_of_nonneg h0, List.forall_mem_append]
  refine and_congr (and_congr_right fun _ => ?_) (forall_congr' fun x => ?_)
  · simp only [List.mem_singleton, forall_eq]
    exact and_iff_left payQuant_pos
  · rw [outflow_append, outflow_cons, outflow_nil, add_zero]
    rfl

end Steps

/-! ## Runs -/

section Runs
variable {τ β : Type} {S : SystemContract τ β} {self account : Name} {t : τ} {clock : TimePoint}
  {w : Site State τ} {ctx : Ctx} {es : List (Ctx × Event Action β)}

theorem recorded_of_run (hrun : Transition.Run ((contract self).step S) Transition.Unrestricted
    (genesis t clock) es w) : w.Kept ∧ Recorded w := by
  refine hrun.invariant (P := fun w => w.Kept ∧ Recorded w) (fun w _ w' hw _ hstep =>
      ⟨Opener.kept_of_step hw.1 hstep, recorded_of_step hw.1 hw.2 hstep⟩)
    ⟨Site.kept_start _ _ _, ?_⟩
  exact ⟨fun account => rfl, fun account => spaced_nil, fun account m hm => absurd hm List.not_mem_nil⟩

/-- In every run, the payments to an account lie a day apart. In any window of time it is paid
10 FLON for every full day, and 10 FLON more at most. -/
theorem rate_of_run (hrun : Transition.Run ((contract self).step S) Transition.Unrestricted
    (genesis t clock) es w) (account : Name) (lo hi : ℕ) :
    Spaced daySeconds (seconds account w.sent) ∧
    outflow flonToken (((payments account w.sent).filter fun m =>
        decide (lo ≤ m.1.secSinceEpoch ∧ m.1.secSinceEpoch ≤ hi)).map (·.2))
      ≤ payQuant.amount * ((1 + (hi - lo) / daySeconds : ℕ) : ℤ) := by
  obtain ⟨-, hrec⟩ := recorded_of_run hrun
  have hspaced := hrec.spaced account
  have hwindow := hspaced.length_window_le (by decide) lo hi
  refine ⟨hspaced, ?_⟩
  rw [outflow_payments fun m hm => hrec.exact account m (List.mem_filter.mp hm).1]
  have hlength : ((payments account w.sent).filter fun m =>
      decide (lo ≤ m.1.secSinceEpoch ∧ m.1.secSinceEpoch ≤ hi)).length
        ≤ 1 + (hi - lo) / daySeconds := by
    rw [seconds, List.filter_map, List.length_map] at hwindow
    exact hwindow
  exact Int.mul_le_mul_of_nonneg_left (by exact_mod_cast hlength) payQuant_pos.le

/-- In every reachable state, the faucet accepts a claim exactly for another account that exists,
was not paid in the last day, and can be paid. It accepts an opening exactly when the system contract
carries it out, and what that takes is transferred together with the payment: positive amounts to
other accounts, which the tokens of the faucet cover. No earlier payment stands in the way of an
opening. -/
theorem accepts_of_run (hS : S.Standard)
    (hrun : Transition.Run ((contract self).step S) Transition.Unrestricted (genesis t clock) es w)
    (hself : S.isAccount t self = true) (hclock : w.clock ≤ ctx.now)
    (account : Name) (pubkey : PublicKey) :
    ((∃ w', (contract self).step S w (ctx, .act (.claim account)) = .ok w') ↔
      S.isAccount w.system account = true ∧ account ≠ self ∧
      (∀ t ∈ (seconds account w.sent).getLast?, t + daySeconds ≤ ctx.now.secSinceEpoch) ∧
      payQuant.amount ≤ w.holding flonToken) ∧
    ((∃ w', (contract self).step S w (ctx, .act (.active account pubkey)) = .ok w') ↔
      ∃ t' charges, Opens S self ctx account pubkey w.system t' charges ∧
        (∀ c ∈ charges, c.recipient ≠ self ∧ 0 < c.quantity.amount) ∧
        ∀ x, outflow x charges + (if flonToken = x then payQuant.amount else 0) ≤ w.holding x) := by
  obtain ⟨hkept, hrec⟩ := recorded_of_run hrun
  have hw : w.Sound S t := Opener.sound_of_run hS hrun
  have hmay : ∀ account, MayPay { ctx with isAccount := S.isAccount w.system } account w.state ↔
      ∀ t ∈ (seconds account w.sent).getLast?, t + daySeconds ≤ ctx.now.secSinceEpoch :=
    fun account => mayPay_iff hkept hrec hclock
  refine ⟨?_, ?_⟩
  · rw [step_act_iff hclock]
    show MayPay _ account w.state ∧ (∃ c, carryOut S self ctx _ (transfer account) = .ok c) ↔ _
    have hsettle : (∃ h', settle self w.holding [payment account] = .ok h') ↔
        account ≠ self ∧ 0 < payQuant.amount ∧ payQuant.amount ≤ w.holding flonToken := by
      have hone : ([payment account].map Transfer.token).Nodup := List.nodup_singleton _
      rw [settle_iff_of_distinct hone]
      simp only [List.mem_singleton, forall_eq]
      rfl
    rw [hmay, carryOut_transfer_iff, hsettle, and_iff_right payQuant_pos]
    tauto
  · rw [step_act_iff hclock]
    show MayPay _ account w.state ∧ (∃ c, carryOut S self ctx _
      (sendNewaccount self account pubkey ++ transfer account) = .ok c) ↔ _
    rw [hmay, carryOut_opening_iff hS]
    simp only [settle_opening_iff hkept.nonneg]
    constructor
    · rintro ⟨-, t', charges, hopens, ⟨hto, -⟩, hall⟩
      exact ⟨t', charges, hopens, hto, hall⟩
    · rintro ⟨t', charges, hopens, hto, hall⟩
      have hnew := (hopens.isAccount hS).1
      refine ⟨fun s hs => ?_, t', charges, hopens, ⟨hto, ?_⟩, hall⟩
      · -- an account that does not exist has not been paid
        obtain ⟨m, hm, -⟩ := List.mem_map.mp (List.mem_of_getLast? hs)
        exact absurd (isAccount_of_payments hw hm) (by simp [hnew])
      · rintro rfl
        exact absurd (hw.stays account hself) (by simp [hnew])

end Runs

/-! ## Two payments to an account -/

namespace Sample

open ToolkitContracts.Sample (Native NativeInput native native_standard open_eq_ok charge)

def faucet : Name := .lit "flon.faucet"

def alice : Name := .lit "alicefaucet1"

def bob : Name := .lit "bobsaccount1"

/-- A new account costs 0.00002500 FLON at first. -/
def system : Native := ⟨[faucet], .lit (int64 2500) PubkeyToken.flonSymbol⟩

/-- Someone pays 40 FLON in, the fee for a new account goes up, Alice's account is opened, and she
claims a day later. -/
def inputs : List (Ctx × Event Action NativeInput) :=
  [(.signed alice 100, .deposit flonToken 4000000000),
    (.signed bob 100, .other (.setfee (.lit (int64 3500) PubkeyToken.flonSymbol))),
    (.signed alice 100, .act (.active alice default)),
    (.signed alice 101, .act (.claim alice))]

/-- Alice is paid twice in the two days. -/
theorem rate_of_run_sample :
    ∃ w, Transition.Run ((contract faucet).step native) Transition.Unrestricted
        (genesis system (.ofDays 100)) inputs w ∧
      seconds alice w.sent = [8640000, 8726400] ∧ Spaced daySeconds (seconds alice w.sent) := by
  have hreach : Transition.Reaches ((contract faucet).step native) Transition.Unrestricted
      (fun w => seconds alice w.sent = [8640000, 8726400]) inputs
      (genesis system (.ofDays 100)) := by decide
  obtain ⟨w, hrun, hseconds⟩ := Transition.run_of_reaches hreach
  exact ⟨w, hrun, hseconds, (rate_of_run hrun alice 8640000 8726400).1⟩

/-- Bob's account is opened for the fee and the gas. -/
theorem opens_bob (ctx : Ctx) {t : Native} (hbob : bob ∉ t.accounts) :
    Opens native faucet ctx bob default t { t with accounts := bob :: t.accounts }
      [charge t.fee, charge gasQuant.1] := by
  refine ⟨{ t with accounts := bob :: t.accounts }, [charge t.fee], [charge gasQuant.1], ?_, ?_, rfl⟩
  · simp only [native, open_eq_ok.mpr ⟨hbob, by decide, rfl⟩]
    rfl
  · simp [native, check]

/-- The second claim on a day is refused, and so is opening the account again. Bob's account can be
opened, and is charged the new fee and the gas. -/
theorem accepts_of_run_sample :
    ∃ w, Transition.Run ((contract faucet).step native) Transition.Unrestricted
        (genesis system (.ofDays 100)) inputs w ∧
      (¬ ∃ w', (contract faucet).step native w (.signed alice 101, .act (.claim alice)) = .ok w') ∧
      (¬ ∃ w', (contract faucet).step native w (.signed alice 102, .act (.active alice default))
        = .ok w') ∧
      (∃ w', (contract faucet).step native w (.signed alice 102, .act (.claim alice)) = .ok w') ∧
      ∃ w', (contract faucet).step native w (.signed alice 102, .act (.active bob default))
        = .ok w' := by
  have hreach : Transition.Reaches ((contract faucet).step native) Transition.Unrestricted
      (fun w => native.isAccount w.system alice = true ∧ bob ∉ w.system.accounts ∧
        w.system.fee = .lit (int64 3500) PubkeyToken.flonSymbol ∧
        (seconds alice w.sent).getLast? = some 8726400 ∧
        payQuant.amount + 13500 ≤ w.holding flonToken ∧ w.clock ≤ (Ctx.signed alice 101).now ∧
        w.clock ≤ (Ctx.signed alice 102).now) inputs
      (genesis system (.ofDays 100)) := by decide
  obtain ⟨w, hrun, hknown, hbob, hfee, hlast, hcovered, hclock, hclock'⟩ :=
    Transition.run_of_reaches hreach
  have hself : native.isAccount system faucet = true := by decide
  have hsoon := accepts_of_run native_standard hrun hself hclock alice default
  have hlater := accepts_of_run native_standard hrun hself hclock' alice default
  have hopening := (accepts_of_run native_standard hrun hself hclock' bob default).2
  refine ⟨w, hrun, fun h => ?_, fun h => ?_, hlater.1.mpr ⟨hknown, by decide, ?_, ?_⟩,
    hopening.mpr ?_⟩
  · have hwait := (hsoon.1.mp h).2.2.1 _ hlast
    exact absurd hwait (by decide)
  · obtain ⟨t', charges, hopens, -⟩ := hlater.2.mp h
    exact absurd (hopens.isAccount native_standard).1 (by simp [hknown])
  · intro t ht
    obtain rfl : 8726400 = t := Option.some.inj (hlast.symm.trans ht)
    decide
  · omega
  · have hopens := opens_bob (.signed alice 102) hbob
    rw [hfee] at hopens
    refine ⟨_, _, hopens, by decide, fun x => ?_⟩
    have hx := (Opener.kept_of_run hrun).nonneg x
    show (if flonToken = x then 3500 else 0) + ((if flonToken = x then gasQuant.amount else 0) + 0)
      + (if flonToken = x then payQuant.amount else 0) ≤ w.holding x
    split
    · next hflon =>
      rw [← hflon]
      exact hcovered.trans' (by decide)
    · exact hx

end Sample
end Faucet
end ToolkitContracts
