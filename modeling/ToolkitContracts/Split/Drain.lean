import ToolkitContracts.Split.Solvency

/-!
# Draining a plan

A call of `claimall` pays out the first 20 wallets of a plan, whatever is recorded in them, and
erases them. So as many calls as there are batches of 20 pay out all of them. `editplan` sends such
a call after it has looked for a wallet itself, and the call finds one as well.
-/

namespace ToolkitContracts
namespace Split

/-- `n` calls of `claimall`, one after the other, and all that they transfer. -/
def claimalls (planId : ℕ) : ℕ → State → Except Abort (Effect State)
  | 0, s => .ok (s, [])
  | n + 1, s => do
    let (s, outs) ← claimall planId s
    let (s, outs') ← claimalls planId n s
    return (s, outs ++ outs')

/-- The transfer of a recorded balance to the owner of the wallet, in the token contract of the
balance. -/
def Wallet.transferOf (w : Wallet) (b : Balance) : Transfer where
  bank := b.sym.contract
  recipient := w.owner
  quantity := b.quantity
  memo := "claim".toList

/-- The transfers pay the wallets out: each positive balance once, and nothing else. -/
structure DrainedBy (wallets : List Wallet) (outs : List Transfer) : Prop where
  mem : ∀ t, t ∈ outs ↔
    ∃ w ∈ wallets, ∃ b ∈ w.balances, 0 < b.quantity.amount ∧ t = w.transferOf b
  once : ∀ t, outs.count t = (wallets.map fun w =>
    w.balances.rows.countP fun b => decide (0 < b.quantity.amount ∧ t = w.transferOf b)).sum

/-- What `editplan` checks before it changes the plan. -/
def checkEdit (ctx : Ctx) (owner : Name) (planId : ℕ) (conf : List SplitUnit) (s : State) :
    Except Abort TokenSplitPlan := do
  ctx.requireAuth owner
  checkSize conf.length s
  checkRate ctx conf
  let plan ← require (s.plans.find? planId) Err.recordNotFound.code "plan not found!"
  checkc (plan.creator = owner) Err.noAuth.code "no auth"
  return plan

section Draining
variable {s : State} {planId n : ℕ} {plan : TokenSplitPlan}

/-- The wallets of a plan stand in the order of their owners. -/
theorem pairwise_walletsOf (planId : ℕ) (s : State) :
    (walletsOf planId s).Pairwise fun w w' => w.owner.raw < w'.owner.raw := by
  have hsorted : (walletsOf planId s).Pairwise fun w w' => w.key < w'.key := s.wallets.sorted.filter _
  refine hsorted.imp_of_mem fun {w w'} hw hw' hlt => ?_
  have hscope : w.planId = w'.planId :=
    (mem_walletsOf.mp hw).2.trans (mem_walletsOf.mp hw').2.symm
  rcases Prod.Lex.toLex_lt_toLex.mp hlt with hless | ⟨-, hless⟩
  · exact absurd hscope hless.ne
  · exact hless

/-- What a call of `claimall` does with the first wallets. -/
theorem claimall_eq (hplan : s.plans.find? planId = some plan) (hne : walletsOf planId s ≠ []) :
    claimall planId s = .ok
      ({ s with wallets := s.wallets.eraseAll (((walletsOf planId s).take 20).map Wallet.key) },
        ((walletsOf planId s).take 20).flatMap fun w => w.payout "claim") := by
  have hsome : (walletsOf planId s).isEmpty = false := List.isEmpty_eq_false_iff.mpr hne
  rw [claimall, hplan, hsome, emptyWalletsFrom_eq (by omega)]
  rfl

theorem claimall_of_nil (hplan : s.plans.find? planId = some plan) (hnil : walletsOf planId s = []) :
    ∃ e, claimall planId s = .error e := by
  rw [claimall, hplan, hnil]
  exact ⟨_, rfl⟩

/-- The payouts of wallets pay them out. -/
theorem drainedBy_payout (wallets : List Wallet) :
    DrainedBy wallets (wallets.flatMap fun w => w.payout "claim") := by
  constructor
  case mem =>
    intro t
    simp only [List.mem_flatMap, Wallet.payout, List.mem_map, List.mem_filter, decide_eq_true_eq,
      and_assoc]
    refine exists_congr fun w => and_congr_right fun _ => exists_congr fun b => ?_
    exact and_congr_right fun _ => and_congr_right fun _ => eq_comm
  case once =>
    intro t
    rw [List.count_flatMap]
    refine congrArg List.sum (List.map_congr_left fun w _ => ?_)
    -- a balance is counted when it is positive and makes this transfer
    show (w.payout "claim").count t = _
    rw [Wallet.payout, List.count_eq_countP, List.countP_map, List.countP_filter]
    refine List.countP_congr fun b _ => ?_
    simp only [Function.comp_apply, Bool.and_eq_true, beq_iff_eq, decide_eq_true_eq]
    rw [and_comm, @eq_comm _ t]
    rfl

/-- What is left are the rows that were not among the first. -/
theorem mem_eraseAll_walletsOf {w : Wallet} :
    w ∈ s.wallets.eraseAll (((walletsOf planId s).take n).map Wallet.key) ↔
      w ∈ s.wallets ∧ w ∉ (walletsOf planId s).take n :=
  Table.mem_eraseAll_map fun _ hv => (mem_walletsOf.mp (List.mem_of_mem_take hv)).1

/-- The wallets of the plan that a call leaves are the others. -/
theorem walletsOf_drop (planId : ℕ) (s : State) (n : ℕ) :
    walletsOf planId
        { s with wallets := s.wallets.eraseAll (((walletsOf planId s).take n).map Wallet.key) }
      = (walletsOf planId s).drop n := by
  have hkeys : ((walletsOf planId s).map Wallet.key).Nodup :=
    (List.filter_sublist.map Wallet.key).nodup s.wallets.nodup_keys
  rw [walletsOf_eraseAll, ← Table.filter_keys_take hkeys n]
  exact List.filter_congr fun w _ => decide_eq_decide.mpr Iff.rfl

/-- As many calls as there are batches of 20 wallets pay out every wallet of the plan. -/
theorem claimalls_eq (hplan : s.plans.find? planId = some plan)
    (hmost : (walletsOf planId s).length ≤ 20 * n)
    (hleast : 20 * n < (walletsOf planId s).length + 20) :
    ∃ wallets, claimalls planId n s
        = .ok ({ s with wallets }, (walletsOf planId s).flatMap fun w => w.payout "claim") ∧
      ∀ w, w ∈ wallets ↔ w ∈ s.wallets ∧ w.planId ≠ planId := by
  induction n generalizing s with
  | zero =>
    have hnil : walletsOf planId s = [] := List.length_eq_zero_iff.mp (by omega)
    refine ⟨s.wallets, by rw [hnil]; rfl, fun w => ⟨fun hw => ⟨hw, fun hid => ?_⟩, And.left⟩⟩
    have hmem : w ∈ walletsOf planId s := mem_walletsOf.mpr ⟨hw, hid⟩
    rw [hnil] at hmem
    exact List.not_mem_nil hmem
  | succ n ih =>
    have hne : walletsOf planId s ≠ [] := by
      intro hnil
      rw [hnil, List.length_nil] at hleast
      omega
    have hcall := claimall_eq hplan hne
    have hdrop := walletsOf_drop planId s 20
    have hlen : ((walletsOf planId s).drop 20).length = (walletsOf planId s).length - 20 :=
      List.length_drop
    obtain ⟨wallets, hcalls, hleft⟩ := ih
      (s := { s with
        wallets := s.wallets.eraseAll (((walletsOf planId s).take 20).map Wallet.key) })
      hplan (by rw [hdrop]; omega) (by rw [hdrop]; omega)
    refine ⟨wallets, ?_, fun w => ?_⟩
    · rw [claimalls, hcall, ok_bind]
      dsimp only
      rw [hcalls, ok_bind, hdrop]
      dsimp only
      rw [← List.flatMap_append, List.take_append_drop]
      rfl
    · rw [hleft w]
      refine Iff.trans (and_congr_left' mem_eraseAll_walletsOf) ?_
      constructor
      · rintro ⟨⟨hw, -⟩, hid⟩
        exact ⟨hw, hid⟩
      · rintro ⟨hw, hid⟩
        exact ⟨⟨hw, fun hmem => hid (mem_walletsOf.mp (List.mem_of_mem_take hmem)).2⟩, hid⟩

/-! ## The call that editplan sends -/

theorem editplan_eq (ctx : Ctx) (owner : Name) (conf : List SplitUnit) (isAuto : Bool) :
    editplan ctx owner planId conf isAuto s =
      checkEdit ctx owner planId conf s >>= fun plan =>
        inlineClaimall planId isAuto { s with plans := s.plans.put { plan with
          splitConf := conf
          splitType := if isAuto then .auto else .manual } } := by
  simp only [editplan, checkEdit, bind_assoc, pure_bind]

/-- The inline call finds the plan, and is sent only where it finds wallets. -/
theorem inlineClaimall_ok (hplan : s.plans.find? planId = some plan) (isAuto : Bool) :
    ∃ r, inlineClaimall planId isAuto s = .ok r := by
  unfold inlineClaimall
  split
  · next hsent =>
    exact ⟨_, claimall_eq hplan (List.isEmpty_eq_false_iff.mp hsent.2)⟩
  · exact ⟨_, rfl⟩

/-- `editplan` fails in its checks, if it does. -/
theorem editplan_error_iff (ctx : Ctx) (owner : Name) (conf : List SplitUnit) (isAuto : Bool)
    (e : Abort) : editplan ctx owner planId conf isAuto s = .error e ↔
      checkEdit ctx owner planId conf s = .error e := by
  rw [editplan_eq]
  cases hcheck : checkEdit ctx owner planId conf s with
  | error e' => rw [error_bind, Except.error.injEq, Except.error.injEq]
  | ok plan =>
    simp only [checkEdit, bind_eq_ok, require_eq_ok, checkc_eq_ok, pure_eq_ok] at hcheck
    obtain ⟨-, -, -, -, -, -, row, hrow, -, -, rfl⟩ := hcheck
    have hid : row.id = planId := (Table.find?_eq_some.mp hrow).2
    let edited : TokenSplitPlan := { row with
      splitConf := conf
      splitType := if isAuto then .auto else .manual }
    have hfind : ({ s with plans := s.plans.put edited } : State).plans.find? planId = some edited := by
      rw [Table.find?_put, if_pos hid.symm]
    obtain ⟨r, hr⟩ := inlineClaimall_ok hfind isAuto
    rw [ok_bind, hr]
    exact ⟨fun h => (by cases h), fun h => (by cases h)⟩

/-- A call of `claimall` fails on a plan without wallets. Otherwise it pays out the first wallets, 20
at most, and erases them: it transfers each positive balance recorded there once, to the owner of the
wallet in the token contract of the balance, and nothing else. Calls for all batches of 20 pay out
every wallet and leave none. A change of the plan to `AUTO` fails only where one to `MANUAL` does. -/
theorem claimall_drains (hplan : s.plans.find? planId = some plan) :
    (walletsOf planId s = [] → ∃ e, claimall planId s = .error e) ∧
    (walletsOf planId s ≠ [] → ∃ paid rest wallets outs, walletsOf planId s = paid ++ rest ∧
      paid.length = min 20 (walletsOf planId s).length ∧
      (∀ w ∈ paid, ∀ w' ∈ rest, w.owner.raw < w'.owner.raw) ∧
      claimall planId s = .ok ({ s with wallets }, outs) ∧ DrainedBy paid outs ∧
      ∀ w, w ∈ wallets ↔ w ∈ s.wallets ∧ w ∉ paid) ∧
    (∃ wallets outs, claimalls planId (((walletsOf planId s).length + 19) / 20) s
        = .ok ({ s with wallets }, outs) ∧ DrainedBy (walletsOf planId s) outs ∧
      ∀ w, w ∈ wallets ↔ w ∈ s.wallets ∧ w.planId ≠ planId) ∧
    ∀ ctx owner conf e, editplan ctx owner planId conf true s = .error e ↔
      editplan ctx owner planId conf false s = .error e := by
  refine ⟨claimall_of_nil hplan, fun hne => ?call, ?calls, ?edit⟩
  case call =>
    refine ⟨(walletsOf planId s).take 20, (walletsOf planId s).drop 20, _, _,
      (List.take_append_drop ..).symm, List.length_take, ?_, claimall_eq hplan hne,
      drainedBy_payout _, fun w => mem_eraseAll_walletsOf⟩
    have hsorted := pairwise_walletsOf planId s
    rw [← List.take_append_drop 20 (walletsOf planId s)] at hsorted
    exact (List.pairwise_append.mp hsorted).2.2
  case calls =>
    obtain ⟨wallets, hcalls, hleft⟩ := claimalls_eq hplan
      (n := ((walletsOf planId s).length + 19) / 20) (by omega) (by omega)
    exact ⟨wallets, _, hcalls, drainedBy_payout _, hleft⟩
  case edit =>
    intro ctx owner conf e
    rw [editplan_error_iff, editplan_error_iff]

end Draining

namespace Sample

def flonToken : ExtendedSymbol := ⟨.lit "FLON" 8, .lit "flon.token"⟩

def usdtToken : ExtendedSymbol := ⟨.lit "USDT" 6, .lit "flon.mtoken"⟩

/-- A wallet with 7 units of FLON, and with some of USDT. -/
def twoTokens (owner : Name) (amount : Int64Arg) : Wallet where
  planId := 1
  owner := owner
  balances := (Table.empty.put ⟨flonToken, .lit (int64 7) flonToken.sym⟩).put
    ⟨usdtToken, .lit amount usdtToken.sym⟩
  createAt := 0
  updateAt := 0

/-- The owners of 23 wallets. -/
def owners : List Name :=
  "abcdefghijklmnopqrstuvw".toList.map fun c =>
    match Name.ofText ['u', 's', 'e', 'r', c] with
    | .ok n => n
    | .error _ => default

/-- A plan with 23 wallets. All have USDT but that of the last owner. -/
def manyWallets : State :=
  { State.init with
    plans := Table.empty.put {
      id := 1
      creator := .lit "alice"
      splitConf := [⟨.lit "usera", 10000⟩]
      splitType := .manual
      title := "all".toList
      createAt := 0 }
    wallets := owners.foldl
      (fun t n => t.put (twoTokens n (if n = .lit "userw" then int64 0 else int64 3))) .empty }

/-- A payment out of one of the wallets. -/
def payment (token : ExtendedSymbol) (owner : Name) (amount : Int64Arg) : Transfer :=
  ⟨token.contract, owner, .lit amount token.sym, "claim".toList⟩

/-- Two calls pay them out. The first owner gets FLON and USDT once each; the last one gets FLON only,
as there is no transfer of nothing. -/
theorem claimall_drains_many : ∃ wallets outs,
    claimalls 1 2 manyWallets = .ok ({ manyWallets with wallets }, outs) ∧
      (∀ w, w ∈ wallets ↔ w ∈ manyWallets.wallets ∧ w.planId ≠ 1) ∧
      outs.count (payment flonToken (.lit "usera") (int64 7)) = 1 ∧
      outs.count (payment usdtToken (.lit "usera") (int64 3)) = 1 ∧
      outs.count (payment flonToken (.lit "userw") (int64 7)) = 1 ∧
      outs.count (payment usdtToken (.lit "userw") (int64 0)) = 0 := by
  have hplan : manyWallets.plans.find? 1 = manyWallets.plans.rows.head? := by rfl
  obtain ⟨-, -, ⟨wallets, outs, hcalls, hpays, hleft⟩, -⟩ := claimall_drains hplan
  have hlength : (walletsOf 1 manyWallets).length = 23 := by decide
  rw [hlength] at hcalls
  refine ⟨wallets, outs, hcalls, hleft, ?_, ?_, ?_, ?_⟩
  · rw [hpays.once]
    decide
  · rw [hpays.once]
    decide
  · rw [hpays.once]
    decide
  · rw [hpays.once]
    decide

end Sample

end Split
end ToolkitContracts
