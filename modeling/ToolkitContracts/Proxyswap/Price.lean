import Mathlib.Data.List.GetD
import ToolkitContracts.Chain.AssetText
import ToolkitContracts.Proxyswap.Escrow

/-!
# The price of an order

The third field of a memo is the price that the owner of an order asks. `asset_from_string` reads
prefixes: what stands behind the digits of either part of the amount is ignored, but counted for
the precision, and a part without digits is a 0. So an order has the price that was written
when the field has the form of an asset, and other texts are not refused.
-/

namespace ToolkitContracts
namespace Proxyswap

def memoFields (n : Notice) : List (List Char) := n.memo.splitOn ':'

/-- The price in a memo, without the spaces around it. -/
def priceField (n : Notice) : List Char := trimSpaces ((memoFields n).getD 2 [])

def memoType (n : Notice) : OrderType :=
  if (memoFields n).getD 1 [] = "buy".toList then .buy else .sell

/-- The transfer stored an order whose price is what the memo says. -/
def PriceExact (n : Notice) (s s' : State) : Prop :=
  ∃ o, s.orders.find? o.orderId = none ∧ s'.orders = s.orders.put o ∧
    Denotes (priceField n) o.submitPrice

/-- The memo names an enabled pair on which an order with the price can be opened. -/
structure Tradable (n : Notice) (s : State) (price : Asset) (pair : Pair) : Prop where
  named : ∃ tpcode, Name.ofText ((memoFields n).getD 0 []) = .ok tpcode ∧
    s.pairs.find? tpcode.raw = some pair
  enabled : pair.status = .enabled
  slippage : ∃ slippage, stoll ((memoFields n).getD 3 []) = .ok slippage ∧ 0 ≤ slippage ∧
    slippage ≤ pair.maxSlippage
  quants : ∃ quants, orderQuants (memoType n) pair n.quantity price = .ok quants

/-- What the contract checks of a transfer, with the price that it has read. -/
structure Placeable (n : Notice) (s : State) (price : Asset) : Prop where
  memo : n.memo.length ≤ 256
  fields : 4 ≤ (memoFields n).length
  type : (memoFields n).getD 1 [] = "buy".toList ∨ (memoFields n).getD 1 [] = "sell".toList
  digits : IsNumeral ((memoFields n).getD 3 [])
  pair : ∃ pair, Tradable n s price pair
  price : 0 < price.amount
  quantity : 0 < n.quantity.amount
  room : s.orders.find? (u64 (s.gstate.lastOrderId + 1)) = none

/-- The transfer passes all checks with the price that the parts of its third field are read as. -/
def Accepted (n : Notice) (s : State) : Prop :=
  ∃ int frac code price, Cut (priceField n) int frac code ∧ ReadAs int frac code price ∧
    Placeable n s price

theorem length_getD_le {n : Notice} (i : ℕ) : ((memoFields n).getD i []).length ≤ n.memo.length := by
  by_cases hi : i < (memoFields n).length
  · rw [List.getD_eq_getElem _ _ hi]
    exact length_le_of_mem_splitOn (List.getElem_mem hi)
  · rw [List.getD_eq_default _ _ (by omega)]
    exact Nat.zero_le _

section Transfer
variable {self : Name} {ctx : Ctx} {n : Notice} {s s' : State} {outs : List Transfer}
  {price : Asset}

/-- A stored order has the price that was read, and the transfer has passed the checks with it. -/
theorem stored_of_onTransfer (hto : n.recipient = self) (hself : n.sender ≠ self)
    (h : onTransfer self ctx n s = .ok (s', outs)) :
    ∃ o, s.orders.find? o.orderId = none ∧ s'.orders = s.orders.put o ∧
      assetFromString (.ofText ((memoFields n).getD 2 [])) = .ok o.submitPrice ∧
      Placeable n s o.submitPrice := by
  rw [onTransfer, if_neg (by simp [hto, hself])] at h
  simp only [splitText_eq, bind_eq_ok, checkc_eq_ok, require_eq_ok, exists_const, pure_eq_ok,
    Prod.mk.injEq, emplace_eq_ok] at h
  obtain ⟨hmemo, hfields, tpcode, htpcode, htype, hne, hdigits, slippage, hslippage, pair, hpair,
    henabled, price, hprice, hpos, hquantity, hrange, quants, hquants, zero, -, orders,
    ⟨hnew, rfl⟩, rfl, -⟩ := h
  refine ⟨_, hnew, rfl, hprice, ⟨hmemo, hfields, htype, ⟨hne, ?_⟩, ⟨pair, ⟨tpcode, htpcode, hpair⟩,
    henabled, ⟨slippage, hslippage, hrange⟩, ⟨quants, hquants⟩⟩, hpos, hquantity, hnew⟩⟩
  exact List.all_eq_true.mp hdigits

/-- A transfer that passes the checks is accepted. -/
theorem onTransfer_of_placeable (hto : n.recipient = self) (hself : n.sender ≠ self)
    (hprice : assetFromString (.ofText ((memoFields n).getD 2 [])) = .ok price)
    (h : Placeable n s price) : ∃ e, onTransfer self ctx n s = .ok e := by
  obtain ⟨pair, ⟨tpcode, htpcode, hpair⟩, henabled, ⟨slippage, hslippage, hrange⟩,
    ⟨⟨leftQuant, rightQuant⟩, hquants⟩⟩ := h.pair
  obtain ⟨zero, hzero, -⟩ := Asset.new_of_range (x := 0) (by decide) (by decide) n.valid.2
  have hdigits : ((memoFields n).getD 3 []).all isDigit = true := List.all_eq_true.mpr h.digits.2
  have hroom : (s.orders.find? (u64 (s.gstate.lastOrderId + 1))).isNone = true := by
    rw [h.room]
    rfl
  have hsplit : splitText n.memo ':' = memoFields n := splitText_eq _ _
  rw [onTransfer, if_neg (by simp [hto, hself]), hsplit, checkc_of h.memo]
  dsimp only
  rw [checkc_of h.fields, htpcode, ok_bind, checkc_of h.type, checkc_of h.digits.1,
    checkc_of hdigits, hslippage, ok_bind, hpair, require, ok_bind, checkc_of henabled, hprice,
    ok_bind, checkc_of h.price, checkc_of h.quantity, checkc_of hrange]
  change ∃ e, (orderQuants (memoType n) pair n.quantity price >>= _) = .ok e
  rw [hquants, ok_bind]
  dsimp only
  rw [hzero, ok_bind, emplace, check_of hroom]
  exact ⟨_, rfl⟩

/-- A stored order has the price that was written exactly when the third field has the form of an
asset, with no more than 18 digits behind the dot or nothing in front of it; a transfer that
does not pass the other checks, with the price that is read, is refused. -/
theorem submit_price_exact_iff (hto : n.recipient = self) (hself : n.sender ≠ self) :
    (∀ s' outs, onTransfer self ctx n s = .ok (s', outs) → PriceExact n s s') ↔
      (∃ int frac code, AssetText (priceField n) int frac code ∧
        (frac.length ≤ 18 ∨ digitsValue int = 0)) ∨ ¬ Accepted n s := by
  set field : StringView := .ofText ((memoFields n).getD 2 []) with hfield
  have hchars : trimSpaces field.chars = priceField n := by
    rw [hfield, StringView.chars_ofText]
    rfl
  have hend : field.rest = [] := List.drop_length
  have hlength : n.memo.length ≤ 256 → field.size ≤ 256 :=
    fun hmemo => (length_getD_le _).trans hmemo
  constructor
  · intro hexact
    by_cases haccepted : Accepted n s
    · left
      obtain ⟨int, frac, code, price, hcut, hread, hplaceable⟩ := haccepted
      have hsize := hlength hplaceable.memo
      rw [← hchars] at hcut
      have hprice := (assetFromString_eq_ok (hsize.trans (by decide)) hend hcut).mpr hread
      obtain ⟨⟨s', outs⟩, hok⟩ := onTransfer_of_placeable hto hself hprice hplaceable
      obtain ⟨o, -, -, hdenotes⟩ := hexact s' outs hok
      exact hdenotes.short
    · exact Or.inr haccepted
  · intro hcond s' outs hok
    obtain ⟨o, hnew, hput, hprice, hplaceable⟩ := stored_of_onTransfer hto hself hok
    have hsize := hlength hplaceable.memo
    obtain ⟨int, frac, code, hcut⟩ := exists_cut (hsize.trans (by decide)) hprice
    have hread := (assetFromString_eq_ok (hsize.trans (by decide)) hend hcut).mp hprice
    have hlen : frac.length < 256 := by
      calc frac.length < (trimSpaces field.chars).length := hcut.length_frac
        _ ≤ field.chars.length := length_trimSpaces_le _
        _ = field.size := field.length_chars
        _ ≤ 256 := hsize
    rw [hchars] at hcut
    rcases hcond with ⟨int', frac', code', htext, hshort⟩ | hrefused
    · exact ⟨o, hnew, hput, hread.denotes hcut hlen hplaceable.price htext hshort⟩
    · exact absurd ⟨int, frac, code, _, hcut, hread, hplaceable⟩ hrefused

end Transfer

/-! ## Garbage behind the digits -/

namespace Sample

theorem hundred_valid : (Asset.lit (int64 100) flon).isValid := by decide

/-- Alice deposits 100 units of FLON with a memo. -/
def deposit (memo : String) : Notice :=
  ⟨bank, alice, account, .lit (int64 100) flon, memo.toList, hundred_valid⟩

/-- Letters and a second dot behind the first digit of the fraction. -/
def garbled : Notice := deposit "flonusdt:sell:1.5x.zzz USDT:5"

def written : Notice := deposit "flonusdt:sell:1.500000 USDT:5"

/-- The price is 1.000005 USDT. -/
theorem garbled_price_accepted :
    ¬ ∀ (is : List (Ctx × Input Action)) (w : World State) (ctx : Ctx) (n : Notice) (s' : State)
      (outs : List Transfer),
      Transition.Run (contract account).step Transition.Unrestricted (genesis (.ofDays 100)) is w →
      n.recipient = account → n.sender ≠ account →
      onTransfer account ctx n w.state = .ok (s', outs) → PriceExact n w.state s' := by
  intro hclaim
  have hreach : Transition.Reaches (contract account).step Transition.Unrestricted (fun w =>
      Transition.Succeeds (onTransfer account (.signed alice 100) garbled w.state) fun e =>
        ∃ o ∈ e.1.orders.find? 1, o.submitPrice = ⟨1000005, usdt, by omega⟩)
      setup (genesis (.ofDays 100)) := by decide
  obtain ⟨w, hrun, hcall⟩ := Transition.run_of_reaches hreach
  obtain ⟨⟨s', outs⟩, hok, -⟩ := Transition.succeeds_iff.mp hcall
  obtain ⟨o, -, -, int, frac, code, htext, -⟩ :=
    hclaim _ w _ garbled s' outs hrun rfl (by decide) hok
  have hcut : Cut (priceField garbled) "1".toList "5x.zzz".toList "USDT".toList :=
    ⟨by decide, by decide, by decide⟩
  obtain ⟨behind, hcut', -⟩ := htext.cut
  obtain ⟨-, hfrac, -⟩ := hcut'.unique hcut
  have hnumeral : frac = [] ∨ IsNumeral frac := htext.fraction
  rw [hfrac] at hnumeral
  revert hnumeral
  decide

/-- A price that is written as it should be is stored. -/
theorem submit_price_exact_iff_sample :
    ∃ w s' outs, Transition.Run (contract account).step Transition.Unrestricted
        (genesis (.ofDays 100)) setup w ∧
      onTransfer account (.signed alice 100) written w.state = .ok (s', outs) ∧
      PriceExact written w.state s' := by
  have hreach : Transition.Reaches (contract account).step Transition.Unrestricted (fun w =>
      Transition.Succeeds (onTransfer account (.signed alice 100) written w.state) fun _ => True)
      setup (genesis (.ofDays 100)) := by decide
  obtain ⟨w, hrun, hcall⟩ := Transition.run_of_reaches hreach
  obtain ⟨⟨s', outs⟩, hok, -⟩ := Transition.succeeds_iff.mp hcall
  refine ⟨w, s', outs, hrun, hok, ?_⟩
  refine (submit_price_exact_iff rfl (by decide)).mpr (Or.inl ?_) s' outs hok
  exact ⟨"1".toList, "500000".toList, "USDT".toList,
    ⟨by decide, Or.inr (by decide), ⟨by decide, by simp⟩, 0, by decide⟩, Or.inl (by decide)⟩

end Sample

end Proxyswap
end ToolkitContracts
