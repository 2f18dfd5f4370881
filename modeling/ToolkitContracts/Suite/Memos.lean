import ToolkitContracts.Airdrop.Moves
import ToolkitContracts.Chain.Splitting
import ToolkitContracts.Chain.Printing
import ToolkitContracts.Suite.Model

/-!
# The memos that the contracts send each other

A transfer to one of the contracts leads to further transfers only when the contract understands
its memo: flon.vest forwards what comes with a `plan:` memo, and flon.blindbox what comes with a
`booth:` memo. Here are the memos that each of the contracts sends, and what the others make of
them. They give every input a rank, and an input leads to inputs of lower ranks only, so a
transaction passes from contract to contract three times at most.
-/

namespace ToolkitContracts
namespace Suite

open Blindbox (Env)

/-- The first field of a memo as flon.vest and flon.split read it. -/
def viewHead (memo : List Char) : List Char :=
  (((StringView.ofText memo).split ':').getD 0 default).chars

/-- The first field of a memo as flon.blindbox reads it. -/
def textHead (memo : List Char) : List Char := (splitText memo ':').getD 0 []

/-! ## First fields -/

section Heads
variable {head rest memo : List Char}

theorem textHead_append (hhead : ':' ∉ head) : textHead (head ++ ':' :: rest) = head := by
  rw [textHead, splitText_eq, List.splitOn_append_cons_self_of_not_mem hhead]
  rfl

/-- A memo that is cut behind a short word is cut there by either splitter. -/
theorem viewHead_append (hhead : ':' ∉ head) (hsize : head.length ≤ npos) :
    viewHead (head ++ ':' :: rest) = trimSpaces head := by
  have hfind : (head ++ ':' :: rest).findIdx? (· == ':') = some head.length := by
    rw [List.findIdx?_append, List.findIdx?_eq_none_iff.mpr, List.findIdx?_cons]
    · simp
    · intro c hc
      exact beq_false_of_ne fun heq => hhead (heq ▸ hc)
  have hfirst : (StringView.ofText (head ++ ':' :: rest)).findFirstOf ':' 0 = some head.length := by
    rw [StringView.findFirstOf, StringView.chars_ofText, List.drop_zero, hfind]
    simp
  rw [viewHead, StringView.split, StringView.splitFrom, hfirst]
  show ((StringView.ofText (head ++ ':' :: rest)).substr 0 (head.length - 0)).trim.chars = _
  have hchars := (StringView.substr_spec (v := .ofText (head ++ ':' :: rest)) (Nat.zero_le _)
    (head.length - 0)).1
  rw [(StringView.trim_spec ?_).1, hchars, StringView.chars_ofText]
  · simp
  · exact (min_le_left _ _).trans hsize

/-- No memo is one for a booth to flon.blindbox and one for a plan to flon.vest. -/
theorem textHead_ne_of_plan (h : viewHead memo = "plan".toList) : textHead memo ≠ "booth".toList := by
  intro hbooth
  have hcut : ∃ head tail, ':' ∉ head ∧ textHead memo = head ∧
      (memo = head ∨ memo = head ++ ':' :: tail) := by
    rw [textHead, splitText_eq]
    cases hfind : memo.findIdx? (· == ':') with
    | none =>
      refine ⟨memo, [], ?_, ?_, Or.inl rfl⟩
      · intro hmem
        have hne := List.findIdx?_eq_none_iff.mp hfind _ hmem
        cases hne
      · rw [splitOn_of_findIdx?_none hfind]
        rfl
    | some i =>
      obtain ⟨hdrop, hsplit⟩ := splitOn_of_findIdx? hfind
      refine ⟨memo.take i, memo.drop (i + 1), ?_, ?_, Or.inr ?_⟩
      · apply not_mem_of_mem_splitOn (l := memo)
        rw [hsplit]
        exact List.mem_cons_self
      · rw [hsplit]
        rfl
      · rw [← hdrop, List.take_append_drop]
  obtain ⟨head, tail, hnot, hhead, hmemo⟩ := hcut
  rw [hhead] at hbooth
  subst hbooth
  rcases hmemo with rfl | rfl
  · revert h
    decide
  · rw [viewHead_append hnot (by decide)] at h
    revert h
    decide

end Heads

/-! ## The memos of each contract -/

section Memos
variable {self : Name} {ctx : Ctx} {t : Transfer} {outs : List Transfer}

/-- flon.airdrop pays with the plan of the claim. -/
theorem memo_of_airdrop {s s' : Airdrop.State} {i : Input Airdrop.Action}
    (h : (Airdrop.contract self).run ctx i s = .ok (s', outs)) (ht : t ∈ outs) :
    Contract.notice? i = none ∧ ∃ k : ℕ, t.memo = "plan".toList ++ ':' :: (toString k).toList := by
  cases Airdrop.move_of_run h with
  | claim planId claimer beneficiary plan plan' outs hallowed hclaimed =>
    rw [hclaimed.outs] at ht
    obtain ⟨c, -, rfl⟩ := List.mem_map.mp ht
    exact ⟨rfl, planId, rfl⟩
  | _ => cases ht

/-- flon.vest forwards the memo of a fee, and says what else it pays. -/
theorem memo_of_vest {s s' : Vest.State} {i : Input Vest.Action}
    (h : (Vest.contract self).run ctx i s = .ok (s', outs)) (ht : t ∈ outs) :
    (∃ n, Contract.notice? i = some n ∧ viewHead n.memo = "plan".toList ∧ t.memo = n.memo) ∨
    Contract.notice? i = none ∧ ∃ head ∈ ["refund".toList, "unlock".toList], ∃ rest,
      t.memo = head ++ ':' :: rest := by
  cases i with
  | notify n =>
    have hrun : Vest.ontransfer self ctx n s = .ok (s', outs) := h
    rw [Vest.ontransfer] at hrun
    split at hrun
    · rw [Except.ok.injEq, Prod.mk.injEq] at hrun
      rw [← hrun.2] at ht
      cases ht
    · simp only [bind_eq_ok, check_eq_ok, exists_const] at hrun
      obtain ⟨-, -, hrun⟩ := hrun
      split at hrun
      · next hhead =>
        obtain ⟨planId, -, hpays, -⟩ := Vest.paysFee_of_ontransferPlan rfl hhead hrun
        rw [hpays.forwarded, List.mem_singleton] at ht
        exact Or.inl ⟨n, rfl, hhead, congrArg Transfer.memo ht⟩
      · split at hrun
        · simp only [Vest.ontransferIssue, bind_eq_ok, check_eq_ok, require_eq_ok, pure_eq_ok,
            exists_const, Prod.mk.injEq] at hrun
          obtain ⟨-, receiver, -, planId, -, days, -, plan, -, -, -, -, -, -, -, -, total, -, k, -,
            zero, -, issues, -, -, rfl⟩ := hrun
          cases ht
        · cases hrun
  | act act =>
    right
    refine ⟨rfl, ?_⟩
    cases Vest.move_of_run h with
    | endissue issuer issue =>
      rw [List.mem_singleton] at ht
      refine ⟨"refund".toList, by simp, ' ' :: (toString issue.issueId).toList, ?_⟩
      rw [ht]
      simp only [String.toList_append]
      rfl
    | unlock issuer issue =>
      rw [List.mem_singleton] at ht
      refine ⟨"unlock".toList, by simp, ' ' :: ((toString issue.issueId).toList ++
        '@' :: (toString issue.planId).toList), ?_⟩
      rw [ht]
      simp only [String.toList_append]
      simp
    | _ => cases ht

/-- Shares are forwarded without a memo. -/
theorem memo_of_giveAll {plan : Split.TokenSplitPlan} {bank : Name} {gifts : List (Name × Asset)}
    {acc acc' : Table Split.Wallet.key × List Transfer}
    (h : Split.giveAll ctx plan bank gifts acc = .ok acc') (hacc : ∀ t ∈ acc.2, t.memo = []) :
    ∀ t ∈ acc'.2, t.memo = [] := by
  induction gifts generalizing acc with
  | nil =>
    rw [Split.giveAll, Except.ok.injEq] at h
    rw [← h]
    exact hacc
  | cons g gifts ih =>
    simp only [Split.giveAll, bind_eq_ok] at h
    obtain ⟨acc₁, hgive, hrest⟩ := h
    refine ih hrest ?_
    rw [Split.give] at hgive
    split at hgive
    · rw [Except.ok.injEq] at hgive
      rw [← hgive]
      intro t ht
      rcases List.mem_append.mp ht with ht | ht
      · exact hacc t ht
      · rw [List.mem_singleton.mp ht]
    · simp only [bind_eq_ok, pure_eq_ok] at hgive
      obtain ⟨wallets, -, rfl⟩ := hgive
      exact hacc

theorem memo_of_payout {w : Split.Wallet} {memo : String} (ht : t ∈ w.payout memo) :
    t.memo = memo.toList := by
  obtain ⟨b, -, rfl⟩ := List.mem_map.mp ht
  rfl

theorem memo_of_claimall {planId : ℕ} {s s' : Split.State}
    (h : Split.claimall planId s = .ok (s', outs)) (ht : t ∈ outs) : t.memo = "claim".toList := by
  simp only [Split.claimall, bind_eq_ok, pure_eq_ok, Prod.mk.injEq] at h
  obtain ⟨-, -, -, -, -, rfl⟩ := h
  rw [Split.emptyWalletsFrom_eq (by decide), List.nil_append] at ht
  obtain ⟨w, -, ht⟩ := List.mem_flatMap.mp ht
  exact memo_of_payout ht

theorem memo_of_inlineClaimall {planId : ℕ} {isAuto : Bool} {s s' : Split.State}
    (h : Split.inlineClaimall planId isAuto s = .ok (s', outs)) (ht : t ∈ outs) :
    t.memo = "claim".toList := by
  rw [Split.inlineClaimall] at h
  split at h
  · exact memo_of_claimall h ht
  · rw [Except.ok.injEq, Prod.mk.injEq] at h
    rw [← h.2] at ht
    cases ht

/-- flon.split pays without a memo, or says that it pays a claim. -/
theorem memo_of_split {s s' : Split.State} {i : Input Split.Action}
    (h : (Split.contract self).run ctx i s = .ok (s', outs)) (ht : t ∈ outs) :
    t.memo ∈ [[], "claim rewards".toList, "claim".toList] := by
  cases i with
  | notify n =>
    have hrun : Split.ontransfer self ctx n s = .ok (s', outs) := h
    by_cases hn : n.sender = self ∨ n.recipient ≠ self
    · rw [Split.ontransfer, if_pos hn, Except.ok.injEq, Prod.mk.injEq] at hrun
      rw [← hrun.2] at ht
      cases ht
    · push Not at hn
      obtain ⟨planId, hmemo⟩ := Split.memoPlan_of_ontransfer hn.1 hn.2 hrun
      obtain ⟨-, hsplit⟩ := (Split.ontransfer_eq_ok hn.1 hn.2 hmemo).mp hrun
      obtain ⟨plan, hplan⟩ := Split.plan_of_split hsplit
      obtain rfl := (Table.find?_eq_some.mp hplan).2
      obtain ⟨gifts, wallets, -, hgive, -⟩ := (Split.split_eq_ok hplan).mp hsplit
      rw [memo_of_giveAll hgive (fun t ht => absurd ht List.not_mem_nil) t ht]
      exact List.mem_cons_self
  | act act =>
    have hexec : Split.exec self ctx act s = .ok (s', outs) := h
    cases act with
    | init admin minCount maxCount =>
      simp only [Split.exec, Split.init, bind_eq_ok, Ctx.requireAuth_eq_ok, checkc_eq_ok,
        exists_const, pure_eq_ok, Prod.mk.injEq] at hexec
      obtain ⟨-, -, -, -, rfl⟩ := hexec
      cases ht
    | addplan owner title conf isAuto =>
      simp only [Split.exec, Split.addplan, bind_eq_ok, checkc_eq_ok, exists_const, pure_eq_ok,
        Prod.mk.injEq] at hexec
      obtain ⟨-, -, -, -, -, -, -, -, -, rfl⟩ := hexec
      cases ht
    | editplan owner planId conf isAuto =>
      simp only [Split.exec, Split.editplan, bind_eq_ok, Ctx.requireAuth_eq_ok, require_eq_ok,
        checkc_eq_ok, exists_const] at hexec
      obtain ⟨-, -, -, -, -, plan, -, -, hexec⟩ := hexec
      rw [memo_of_inlineClaimall hexec ht]
      simp
    | claim planId owner =>
      simp only [Split.exec, Split.claim, bind_eq_ok, pure_eq_ok, Prod.mk.injEq] at hexec
      obtain ⟨-, -, wallet, -, -, -, -, rfl⟩ := hexec
      rw [memo_of_payout ht]
      simp
    | claimall planId =>
      rw [memo_of_claimall hexec ht]
      simp

/-- flon.blindbox pays for purchases only. -/
theorem payment_of_blindbox {env : Env} {s s' : Blindbox.State} {i : Blindbox.Input}
    {sent : List Blindbox.Out} (h : Blindbox.run self env i s = .ok (s', sent))
    (ht : t ∈ Blindbox.payments sent) :
    ∃ n, boxNotice? i = some n ∧ textHead n.memo = "booth".toList := by
  cases Blindbox.move_of_run h with
  | purchase n boothId booth count s' outs hallowed hsold =>
    exact ⟨n, rfl, hallowed.memo.booth⟩
  | close owner boothId booth box =>
    split at ht
    · cases ht
    · cases ht
  | _ => cases ht

end Memos

/-! ## How far a transaction goes -/

/-- How many contracts a transfer with the memo may still pass on. -/
def memoRank : Party → List Char → ℕ
  | .airdrop, _ => 0
  | .split, _ => 1
  | .vest, memo => if viewHead memo = "plan".toList then 2 else 0
  | .blindbox, memo => if textHead memo = "booth".toList then 3 else 0

/-- The rank of an input that is not about a transfer. -/
def actionRank : Party → ℕ
  | .airdrop => 3
  | .split => 1
  | .vest => 2
  | .blindbox => 0

section MemoRanks
variable {q : Party} {memo head rest : List Char}

theorem memoRank_le (hq : q ≠ .blindbox) : memoRank q memo ≤ 2 := by
  cases q with
  | airdrop => exact Nat.zero_le 2
  | split => exact Nat.le_succ 1
  | vest =>
    rw [memoRank]
    split
    · exact le_refl 2
    · exact Nat.zero_le 2
  | blindbox => exact absurd rfl hq

theorem memoRank_le_of_cut (hhead : ':' ∉ head) (hbooth : head ≠ "booth".toList) :
    memoRank q (head ++ ':' :: rest) ≤ 2 := by
  by_cases hq : q = .blindbox
  · rw [hq, memoRank, textHead_append hhead, if_neg hbooth]
    exact Nat.zero_le 2
  · exact memoRank_le hq

/-- A memo that flon.vest does not forward, or a transfer to another contract, goes one step
further at most. -/
theorem memoRank_le_one (hq : q ≠ .vest) (hbooth : textHead memo ≠ "booth".toList) :
    memoRank q memo ≤ 1 := by
  cases q with
  | airdrop => exact Nat.zero_le 1
  | split => exact le_refl 1
  | vest => exact absurd rfl hq
  | blindbox =>
    rw [memoRank, if_neg hbooth]
    exact Nat.zero_le 1

/-- Nobody but flon.split itself passes on what flon.split pays. -/
theorem memoRank_eq_zero (hq : q ≠ .split)
    (hmemo : memo ∈ [[], "claim rewards".toList, "claim".toList]) : memoRank q memo = 0 := by
  simp only [List.mem_cons, List.not_mem_nil, or_false] at hmemo
  cases q with
  | airdrop => rfl
  | split => exact absurd rfl hq
  | vest => rcases hmemo with rfl | rfl | rfl <;> decide
  | blindbox => rcases hmemo with rfl | rfl | rfl <;> decide

end MemoRanks

section Ranks
variable (a : Accounts) {p q : Party} {i : Env × (contracts a p).Input} {n : Notice}
  {w w' : (contracts a p).World} {outs : List Transfer} {t : Transfer}

/-- The rank of an input. -/
def rank (m : (deployment a).Message) : ℕ :=
  match (contracts a m.1).notice? m.2.2 with
  | some n => memoRank m.1 n.memo
  | none => actionRank m.1

theorem rank_of_notice (h : (contracts a p).notice? i.2 = some n) :
    rank a ⟨p, i⟩ = memoRank p n.memo := by
  rw [rank]
  dsimp only
  rw [h]

theorem rank_of_action (h : (contracts a p).notice? i.2 = none) : rank a ⟨p, i⟩ = actionRank p := by
  rw [rank]
  dsimp only
  rw [h]

theorem rank_le : rank a ⟨p, i⟩ ≤ 3 := by
  cases h : (contracts a p).notice? i.2 with
  | none =>
    rw [rank_of_action a h]
    cases p <;> decide
  | some n =>
    rw [rank_of_notice a h]
    by_cases hp : p = .blindbox
    · rw [hp, memoRank]
      split
      · exact le_refl 3
      · exact Nat.zero_le 3
    · exact (memoRank_le hp).trans (Nat.le_succ 2)

/-- Whoever a contract pays is another contract, if it is one at all. -/
theorem recipient_ne (h : (contracts a p).step w i = .ok (w', outs)) (ht : t ∈ outs) :
    t.recipient ≠ a.account p := by
  have hcontract : ∀ {σ α : Type} {C : Contract σ α} {w w' : World σ} {i : Env × Input α},
      C.order Env.toCtx w i = .ok (w', outs) → t.recipient ≠ C.self := by
    intro σ α C w w' i h
    obtain ⟨hstep, hrun⟩ := Contract.order_eq_ok.mp h
    obtain ⟨-, -, -, outs', hrun', hsettle⟩ := C.step_eq_ok.mp hstep
    rw [hrun, Except.ok.injEq, Prod.mk.injEq] at hrun'
    obtain ⟨-, rfl⟩ := hrun'
    exact (mem_of_settle hsettle ht).1
  cases p with
  | airdrop => exact hcontract h
  | vest => exact hcontract h
  | split => exact hcontract h
  | blindbox =>
    obtain ⟨hstep, rfl⟩ := boxStep_eq_ok.mp h
    obtain ⟨-, -, -, hsettle⟩ := Blindbox.step_spec hstep
    have hpaid := payments_of_settleAll hsettle
    exact (mem_of_settle hpaid ht).1

/-- A contract is paid with a memo of lower rank than the input that made another one pay. -/
theorem memoRank_lt (h : (contracts a p).step w i = .ok (w', outs)) (ht : t ∈ outs)
    (hq : t.recipient = a.account q) : memoRank q t.memo < rank a ⟨p, i⟩ := by
  have hne : q ≠ p := by
    rintro rfl
    exact recipient_ne a h ht hq
  cases p with
  | airdrop =>
    obtain ⟨-, hrun⟩ := Contract.order_eq_ok.mp h
    obtain ⟨hnone, k, hmemo⟩ := memo_of_airdrop hrun ht
    rw [rank_of_action a (p := .airdrop) (i := i) hnone, hmemo]
    exact Nat.lt_succ_of_le (memoRank_le_of_cut (by decide) (by decide))
  | vest =>
    obtain ⟨-, hrun⟩ := Contract.order_eq_ok.mp h
    rcases memo_of_vest hrun ht with ⟨n, hn, hplan, hmemo⟩ | ⟨hnone, head, hhead, rest, hmemo⟩
    · -- the memo of a fee
      rw [rank_of_notice a (p := .vest) (i := i) hn, hmemo, memoRank.eq_def .vest]
      dsimp only
      rw [if_pos hplan]
      exact Nat.lt_succ_of_le (memoRank_le_one hne (textHead_ne_of_plan hplan))
    · have hword : ':' ∉ head ∧ head ≠ "booth".toList := by
        rw [List.mem_pair] at hhead
        rcases hhead with rfl | rfl <;> decide
      rw [rank_of_action a (p := .vest) (i := i) hnone, hmemo]
      refine Nat.lt_succ_of_le (memoRank_le_one hne ?_)
      rw [textHead_append hword.1]
      exact hword.2
  | split =>
    obtain ⟨-, hrun⟩ := Contract.order_eq_ok.mp h
    rw [memoRank_eq_zero hne (memo_of_split hrun ht)]
    cases hnotice : (contracts a .split).notice? i.2 with
    | none =>
      rw [rank_of_action a hnotice]
      exact Nat.one_pos
    | some n =>
      rw [rank_of_notice a hnotice]
      exact Nat.one_pos
  | blindbox =>
    obtain ⟨hstep, rfl⟩ := boxStep_eq_ok.mp h
    obtain ⟨-, -, hrun, -⟩ := Blindbox.step_spec hstep
    obtain ⟨n, hn, hbooth⟩ := payment_of_blindbox hrun ht
    rw [rank_of_notice a (p := .blindbox) (i := i) hn, memoRank.eq_def .blindbox]
    dsimp only
    rw [if_pos hbooth]
    exact Nat.lt_succ_of_le (memoRank_le hne)

/-- Whatever the four contracts are sent, in whatever states they are, and whomever they are told
to pay: a transaction passes from one of them to another three times at most, so that a larger
bound on the depth makes no difference. -/
theorem transact_depth (w : States a) (m : (deployment a).Message) (depth : ℕ) :
    (deployment a).transact (depth + 4) w m = (deployment a).transact 4 w m := by
  have hle : rank a m ≤ 3 := rank_le a
  have hrank : ∀ p d i d' sent, (deployment a).handle p d i = .ok (d', sent) →
      ∀ m' ∈ sent, rank a m' < rank a ⟨p, i⟩ := by
    intro p d i d' sent hhandle m' hm'
    obtain ⟨outs, hstep, hnotices, -, -⟩ := Deployment.handle_eq_ok.mp hhandle
    obtain ⟨n, hnotify, -, hself, ht⟩ := Deployment.mem_notices hnotices hm'
    obtain ⟨q, env, input⟩ := m'
    have hinput : input = (contracts a q).notify n := congrArg Prod.snd hnotify
    have hnotice : (contracts a q).notice? input = some n := by
      rw [hinput]
      exact (contracts a q).notice?_notify n
    have hq : n.recipient = a.account q := by
      rw [← self_contracts]
      exact hself.symm
    have hlt : memoRank q n.memo < rank a ⟨p, i⟩ := memoRank_lt a hstep ht hq
    exact (rank_of_notice a (p := q) (i := (env, input)) hnotice).trans_lt hlt
  exact Network.deliver_eq_of_rank hrank (by omega) (by omega)

end Ranks
end Suite
end ToolkitContracts
