import Mathlib.Data.List.GetD
import ToolkitContracts.Chain.Views
import ToolkitContracts.Vest.Moves
import ToolkitContracts.Vest.Accounting

/-!
# The memo of an issue

The memo `issue:receiver:plan_id:first_unlock_days` names the plan and the lock period in decimal.
The fields are cut out exactly, but the numbers are read with `strtoull`, and what it has not
read is not looked at: text behind the digits is ignored, and a field without digits is a 0. A
numeral is read as what it denotes, or refused when it is too large; so an issue that is
created has the plan and the period that were written, exactly when numerals were written.
-/

namespace ToolkitContracts
namespace Vest

/-- The fields of a memo, without the spaces around them. -/
def memoFields (n : Notice) : List (List Char) := (n.memo.splitOn ':').map trimSpaces

def planField (n : Notice) : List Char := (memoFields n).getD 2 []

def daysField (n : Notice) : List Char := (memoFields n).getD 3 []

/-- The transfer created an issue with the plan and the period that numerals in its memo denote. -/
structure ParsedExactly (n : Notice) (s s' : State) : Prop where
  plan : IsNumeral (planField n)
  days : IsNumeral (daysField n)
  created : ∃ issue ∈ s'.issues, (∀ old ∈ s.issues, old.issueId ≠ issue.issueId) ∧
    issue.planId = digitsValue (planField n) ∧ issue.firstUnlockDays = digitsValue (daysField n)

/-- What the contract checks of a transfer about an issue, besides its numbers. -/
structure Issuable (ctx : Ctx) (n : Notice) (s : State) (planId firstUnlockDays : ℕ) : Prop where
  fields : (memoFields n).length = 4
  quantity : 0 < n.quantity.amount
  receiver : ∃ receiver, Name.ofText ((memoFields n).getD 1 []) = .ok receiver ∧
    ctx.isAccount receiver = true
  plan : ∃ plan, s.plans.find? planId = some plan ∧ plan.status = .enabled ∧
    n.quantity.symbol = plan.assetSymbol ∧ plan.assetContract = n.bank ∧
    ∃ total, plan.totalIssued.add n.quantity = .ok total
  days : firstUnlockDays ≤ maxLockDays
  room : ∃ k, availablePrimaryKey s.issues = .ok k

/-- The transfer passes all checks with the numbers that `strtoull` reads from its memo. -/
def Accepted (ctx : Ctx) (n : Notice) (s : State) : Prop :=
  ∃ planId firstUnlockDays, strtoull (planField n) = (planId, false) ∧
    strtoull (daysField n) = (firstUnlockDays, false) ∧
    Issuable ctx n s planId firstUnlockDays

/-! ## The fields -/

section Fields
variable {n : Notice} {params : List StringView}

/-- The fields that the contract cuts out of the memo, and how many there are. -/
theorem split_memo (hmemo : n.memo.length ≤ npos)
    (hparams : (StringView.ofText n.memo).split ':' = params) :
    params.length = (memoFields n).length ∧
      ∀ i, (params.getD i default).chars = (memoFields n).getD i [] := by
  obtain ⟨hfields, -⟩ := StringView.split_spec hmemo ':'
  rw [hparams] at hfields
  constructor
  · rw [memoFields, ← hfields, List.length_map]
  · intro i
    have hdefault : (default : StringView).chars = [] := rfl
    rw [memoFields, ← hfields, ← hdefault, List.getD_map]

/-- The number parsers read a field as if the text ended behind it. -/
theorem toUint64_field (hmemo : n.memo.length ≤ npos)
    (hparams : (StringView.ofText n.memo).split ':' = params) {i k : ℕ} (title : String)
    (hi : i < params.length) :
    toUint64 (params.getD i default) title = .ok k ↔
      strtoull ((memoFields n).getD i []) = (k, false) := by
  obtain ⟨-, hends⟩ := StringView.split_spec hmemo ':'
  rw [hparams] at hends
  have hmem : params.getD i default ∈ params := by
    rw [List.getD_eq_getElem _ _ hi]
    exact List.getElem_mem hi
  rw [← (split_memo hmemo hparams).2, ← (hends _ hmem).strtoull (by decide)]
  exact toUint64_eq_ok

end Fields

/-! ## The transfer -/

section Transfer
variable {self : Name} {ctx : Ctx} {n : Notice} {s s' : State} {outs : List Transfer}

/-- A transfer whose memo starts with `issue` comes to `ontransferIssue`. -/
theorem ontransfer_issue (hmemo : n.memo.length ≤ npos) (hself : n.sender ≠ self)
    (hto : n.recipient = self) (hissue : (memoFields n).getD 0 [] = "issue".toList)
    (hquantity : 0 < n.quantity.amount) :
    ontransfer self ctx n s = ontransferIssue ctx n ((StringView.ofText n.memo).split ':') s := by
  obtain ⟨hlen, hfields⟩ := split_memo hmemo rfl
  have hsome : 0 < ((StringView.ofText n.memo).split ':').length := by
    rw [hlen, memoFields, List.length_map]
    exact List.length_pos_of_ne_nil (List.splitOn_ne_nil _ _)
  have hfirst : (((StringView.ofText n.memo).split ':').getD 0 default).chars = "issue".toList := by
    rw [hfields, hissue]
  have hplan : (((StringView.ofText n.memo).split ':').getD 0 default).chars ≠ "plan".toList := by
    rw [hfirst]
    decide
  rw [ontransfer, if_neg (by simp [hself, hto]), check_of hquantity]
  dsimp only
  rw [check_of hsome, if_neg hplan, if_pos hfirst]

/-- An accepted transfer has passed the checks with the numbers read from its memo, and created an
issue with them. -/
theorem created_of_ontransferIssue (hmemo : n.memo.length ≤ npos)
    (h : ontransferIssue ctx n ((StringView.ofText n.memo).split ':') s = .ok (s', outs)) :
    ∃ planId firstUnlockDays, strtoull (planField n) = (planId, false) ∧
      strtoull (daysField n) = (firstUnlockDays, false) ∧
      Issuable ctx n s planId firstUnlockDays ∧
      ∃ issue ∈ s'.issues, (∀ old ∈ s.issues, old.issueId ≠ issue.issueId) ∧
        issue.planId = planId ∧ issue.firstUnlockDays = firstUnlockDays := by
  generalize hparams : (StringView.ofText n.memo).split ':' = params at h
  obtain ⟨hlen, hfields⟩ := split_memo hmemo hparams
  simp only [ontransferIssue, bind_eq_ok, check_eq_ok, require_eq_ok, pure_eq_ok, exists_const,
    Prod.mk.injEq, emplace_eq_ok] at h
  obtain ⟨hfour, receiver, hreceiver, planId, hplanId, days, hdays, plan, hplan, hstatus, haccount,
    hmax, hsymbol, hpos, hbank, -, total, htotal, k, hk, zero, hzero, issues, ⟨hnew, rfl⟩, rfl,
    rfl⟩ := h
  rw [toUint64_field hmemo hparams _ (by omega)] at hplanId hdays
  rw [hfields] at hreceiver
  refine ⟨planId, days, hplanId, hdays, ⟨hlen.symm.trans hfour, hpos, ⟨receiver, hreceiver, haccount⟩,
    ⟨plan, hplan, hstatus, hsymbol, hbank, total, htotal⟩, hmax, ⟨k, hk⟩⟩, ?_⟩
  refine ⟨_, Table.mem_put_self _ _, ?_, rfl, rfl⟩
  intro old hold
  exact (lt_issueId hk old hold).ne

/-- A transfer that passes the checks is accepted. -/
theorem ontransferIssue_of_issuable (hmemo : n.memo.length ≤ npos) {planId firstUnlockDays : ℕ}
    (hplanId : strtoull (planField n) = (planId, false))
    (hdays : strtoull (daysField n) = (firstUnlockDays, false))
    (h : Issuable ctx n s planId firstUnlockDays) :
    ∃ e, ontransferIssue ctx n ((StringView.ofText n.memo).split ':') s = .ok e := by
  generalize hparams : (StringView.ofText n.memo).split ':' = params
  obtain ⟨hlen, hfields⟩ := split_memo hmemo hparams
  rw [h.fields] at hlen
  obtain ⟨receiver, hreceiver, haccount⟩ := h.receiver
  obtain ⟨plan, hplan, hstatus, hsymbol, hbank, total, htotal⟩ := h.plan
  obtain ⟨k, hk⟩ := h.room
  have hplan' := (toUint64_field hmemo hparams "plan_id" (by omega)).mpr hplanId
  have hdays' := (toUint64_field hmemo hparams "first_unlock_days" (by omega)).mpr hdays
  obtain ⟨zero, hzero, -⟩ := Asset.new_of_range (x := 0) (by decide) (by decide) n.valid.2
  rw [← hfields] at hreceiver
  have hfree : ∀ issue : VestIssue, issue.issueId = (if k = 0 then 1 else k) →
      (s.issues.find? issue.issueId).isNone = true := by
    intro issue hid
    apply Option.isNone_iff_eq_none.mpr
    apply Table.find?_eq_none.mpr
    intro old hold
    rw [hid]
    exact (lt_issueId hk old hold).ne
  rw [ontransferIssue, check_of hlen, hreceiver, ok_bind, hplan', ok_bind, hdays', ok_bind, hplan,
    require, ok_bind, check_of hstatus, check_of haccount, check_of h.days, check_of hsymbol,
    check_of h.quantity, check_of hbank, check_of hsymbol.symm, htotal, ok_bind, hk, ok_bind, hzero,
    ok_bind, emplace, check_of (hfree _ rfl)]
  exact ⟨_, rfl⟩

/-- What an accepted transfer does with its memo is exact exactly when the two numbers are written
as numerals; a transfer that does not pass the other checks, with what `strtoull` reads, is
refused. -/
theorem issue_memo_exact_iff (hmemo : n.memo.length ≤ npos) (hself : n.sender ≠ self)
    (hto : n.recipient = self) (hissue : (memoFields n).getD 0 [] = "issue".toList) :
    (∀ s' outs, ontransfer self ctx n s = .ok (s', outs) → ParsedExactly n s s') ↔
      (IsNumeral (planField n) ∧ IsNumeral (daysField n)) ∨ ¬ Accepted ctx n s := by
  constructor
  · intro hexact
    by_cases haccepted : Accepted ctx n s
    · left
      obtain ⟨planId, days, hplanId, hdays, hissuable⟩ := haccepted
      obtain ⟨⟨s', outs⟩, hok⟩ := ontransferIssue_of_issuable hmemo hplanId hdays hissuable
      rw [← ontransfer_issue hmemo hself hto hissue hissuable.quantity] at hok
      have hparsed := hexact s' outs hok
      exact ⟨hparsed.plan, hparsed.days⟩
    · exact Or.inr haccepted
  · intro hcond s' outs hok
    have hquantity : 0 < n.quantity.amount := by
      rw [ontransfer, if_neg (by simp [hself, hto])] at hok
      simp only [bind_eq_ok, check_eq_ok, exists_const] at hok
      exact hok.1
    rw [ontransfer_issue hmemo hself hto hissue hquantity] at hok
    obtain ⟨planId, days, hplanId, hdays, hissuable, issue, hmem, hnew, rfl, rfl⟩ :=
      created_of_ontransferIssue hmemo hok
    rcases hcond with ⟨hplanNumeral, hdaysNumeral⟩ | hrefused
    · -- a numeral in range is read as the number that it denotes
      have hread : ∀ (t : List Char) (k : ℕ), IsNumeral t → strtoull t = (k, false) →
          k = digitsValue t := by
        intro t k ht hk
        rw [strtoull_numeral ht] at hk
        split at hk
        · exact (congrArg Prod.fst hk).symm
        · cases congrArg Prod.snd hk
      exact ⟨hplanNumeral, hdaysNumeral, issue, hmem, hnew, hread _ _ hplanNumeral hplanId,
        hread _ _ hdaysNumeral hdays⟩
    · exact absurd ⟨_, _, hplanId, hdays, hissuable⟩ hrefused

end Transfer

/-! ## A memo without a lock period -/

namespace Sample

/-- A transfer whose memo ends where the lock period should be. -/
def withoutPeriod : Notice := { deposit.2 with memo := "issue:bob:1:".toList }

/-- The tokens are locked for no days at all. -/
theorem empty_period_accepted :
    ¬ ∀ (is : List (Ctx × Input Action)) (w : World State) (ctx : Ctx) (n : Notice) (s' : State)
      (outs : List Transfer),
      Transition.Run (contract account).step Transition.Unrestricted start is w →
      n.memo.length ≤ npos → n.sender ≠ account → n.recipient = account →
      (memoFields n).getD 0 [] = "issue".toList →
      ontransfer account ctx n w.state = .ok (s', outs) → ParsedExactly n w.state s' := by
  intro hclaim
  have hreach : Transition.Reaches (contract account).step Transition.Unrestricted (fun w =>
      Transition.Succeeds (ontransfer account (.signed alice 100) withoutPeriod w.state)
        fun _ => True) (inputs.take 1) start := by decide
  obtain ⟨w, hrun, hcall⟩ := Transition.run_of_reaches hreach
  obtain ⟨⟨s', outs⟩, hok, -⟩ := Transition.succeeds_iff.mp hcall
  have hparsed := hclaim _ w _ withoutPeriod s' outs hrun (by decide) (by decide) rfl (by decide) hok
  have hempty : ¬ IsNumeral (daysField withoutPeriod) := by decide
  exact hempty hparsed.days

/-- A memo with two numerals creates the issue that it describes. -/
theorem issue_memo_exact_iff_sample :
    ∃ w s' outs, Transition.Run (contract account).step Transition.Unrestricted start
        (inputs.take 1) w ∧
      ontransfer account (.signed alice 100) deposit.2 w.state = .ok (s', outs) ∧
      ParsedExactly deposit.2 w.state s' := by
  have hreach : Transition.Reaches (contract account).step Transition.Unrestricted (fun w =>
      Transition.Succeeds (ontransfer account (.signed alice 100) deposit.2 w.state)
        fun _ => True) (inputs.take 1) start := by decide
  obtain ⟨w, hrun, hcall⟩ := Transition.run_of_reaches hreach
  obtain ⟨⟨s', outs⟩, hok, -⟩ := Transition.succeeds_iff.mp hcall
  refine ⟨w, s', outs, hrun, hok, ?_⟩
  exact (issue_memo_exact_iff (by decide) (by decide) rfl (by decide)).mpr (Or.inl (by decide))
    s' outs hok

end Sample

end Vest
end ToolkitContracts
