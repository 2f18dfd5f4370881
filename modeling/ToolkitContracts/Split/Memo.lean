import Mathlib.Data.List.GetD
import ToolkitContracts.Chain.Views
import ToolkitContracts.Lib.Noting
import ToolkitContracts.Split.Proportion

/-!
# The memo of a transfer

The memo `plan:plan_id:boost` names the plan in decimal. `ontransfer` cuts it into fields and
reads the second one as soon as the first one names the action, whether there is a second one or
not. The numbers are read with `stoi`, which stops behind the digits, so that text behind them is
ignored, and further fields are not looked at. So the memo is read safely and exactly when its
first field does not name the action, or when there is a second field and the memo has one of the
two forms, or when the transfer is refused for another reason.
-/

namespace ToolkitContracts
namespace Split

/-- The fields of a memo, as `split` returns them. -/
def memoFields (memo : List Char) : List (List Char) :=
  ((StringView.ofText memo).split ':').map StringView.chars

/-- The two forms of a memo for a plan. -/
inductive PlanMemo : List (List Char) → ℕ → Prop
  | plan {planId : List Char} (h : IsNumeral planId) :
      PlanMemo ["plan".toList, planId] (digitsValue planId)
  | boosted {planId boost : List Char} (h : IsNumeral planId) (hboost : IsNumeral boost) :
      PlanMemo ["plan".toList, planId, boost] (digitsValue planId)

/-! ## The fields that are read -/

/-- `memo_params[i]` as a string. Behind the last one there is whatever the memory holds. -/
def readParam (ctx : Ctx) (params : List StringView) (i : ℕ) : Noting ℕ Abort (List Char) := do
  Noting.note i
  return (params[i]?.map StringView.chars).getD ctx.stale

/-- The case `plan` of `ontransfer`, with its reads of `memo_params` noted. -/
def planReading (ctx : Ctx) (n : Notice) (params : List StringView) (s : State) :
    Noting ℕ Abort (Effect State) := do
  let planText ← readParam ctx params 1
  let planId ← stoi planText
  if params.length = 3 then do
    let boostText ← readParam ctx params 2
    let _ ← stoi boostText
    split ctx n.bank (u64 planId) n.quantity s
  else split ctx n.bank (u64 planId) n.quantity s

/-- `ontransfer`, with its reads of `memo_params` noted. -/
def ontransferReading (self : Name) (ctx : Ctx) (n : Notice) (s : State) :
    Noting ℕ Abort (Effect State) :=
  if n.sender = self ∨ n.recipient ≠ self then pure (s, [])
  else do
    checkc (n.sender ≠ n.recipient) Err.paramError.code "cannot send to self"
    let params := (StringView.ofText n.memo).split ':'
    checkc (1 ≤ params.length) Err.memoFormatError.code "memo not prefixed"
    check (0 < n.quantity.amount)
      ("must transfer positive quantity: " ++ .ofList n.quantity.toText)
    let action ← readParam ctx params 0
    let actionName ← Name.ofText action
    if actionName = .lit "plan" then planReading ctx n params s
    else throw ⟨Err.paramError.code, "memo not Supported"⟩

/-- The first field has the value of the action's name. -/
def NamesPlan (memo : List Char) : Prop :=
  Name.ofText ((memoFields memo).getD 0 []) = .ok (.lit "plan")

instance (memo : List Char) : Decidable (NamesPlan memo) := by
  unfold NamesPlan
  infer_instance

section Reads
variable {self : Name} {ctx : Ctx} {n : Notice} {s : State} {e : Effect State} {memo : List Char}

theorem runFrom_readParam_bind {α : Type} (params : List StringView) (i : ℕ)
    (f : List Char → Noting ℕ Abort α) (noted : List ℕ) :
    (readParam ctx params i >>= f).runFrom noted
      = (f ((params[i]?.map StringView.chars).getD ctx.stale)).runFrom (noted ++ [i]) := rfl

theorem erases_readParam_bind {α : Type} {params : List StringView} {i : ℕ}
    {f : List Char → Noting ℕ Abort α} {x : Except Abort α}
    (h : (f ((params[i]?.map StringView.chars).getD ctx.stale)).Erases x) :
    (readParam ctx params i >>= f).Erases x := by
  show (Noting.note i >>= fun _ => f _).Erases x
  exact h.note_bind

/-- There is a first field, also in an empty memo. -/
theorem memoFields_pos (memo : List Char) : 0 < (memoFields memo).length := by
  rw [memoFields, List.length_map, StringView.split, StringView.splitFrom]
  split
  · exact Nat.succ_pos _
  · exact Nat.succ_pos _

/-- A field that is there is read as it is. -/
theorem param_eq {params : List StringView} {i : ℕ} (hi : i < params.length) (text : List Char) :
    (params[i]?.map StringView.chars).getD text = (params.getD i default).chars := by
  rw [List.getElem?_eq_getElem hi, List.getD_eq_getElem _ _ hi]
  rfl

theorem getD_memoFields (i : ℕ) : (memoFields memo).getD i []
    = (((StringView.ofText memo).split ':').getD i default).chars := by
  have hdefault : (default : StringView).chars = [] := rfl
  rw [memoFields, ← hdefault, List.getD_map]

/-- Without its notes the code is `ontransfer`. -/
theorem ontransferReading_erases (self : Name) (ctx : Ctx) (n : Notice) (s : State) :
    (ontransferReading self ctx n s).Erases (ontransfer self ctx n s) := by
  rw [ontransferReading, ontransfer]
  split
  · exact fun _ => rfl
  · generalize (StringView.ofText n.memo).split ':' = params
    refine (Noting.erases_lift _).bind fun _ _ => (Noting.erases_lift _).bind fun _ hlen =>
      (Noting.erases_lift _).bind fun _ _ => ?_
    rw [checkc_eq_ok] at hlen
    refine erases_readParam_bind ?_
    rw [param_eq hlen]
    refine (Noting.erases_lift _).bind fun actionName _ => ?_
    split
    · rw [planReading]
      refine erases_readParam_bind ((Noting.erases_lift _).bind fun planId _ => ?_)
      split
      · next hthree =>
        refine erases_readParam_bind ?_
        rw [param_eq (by omega)]
        exact (Noting.erases_lift _).bind fun _ _ => Noting.erases_lift _
      · exact Noting.erases_lift _
    · exact fun _ => rfl

/-- The case `plan` reads the second field, and the third one of three. -/
theorem reads_planReading (ctx : Ctx) (n : Notice) (params : List StringView) (s : State)
    (noted : List ℕ) : ∃ more, ((planReading ctx n params s).runFrom noted).2 = noted ++ 1 :: more ∧
      ∀ i ∈ more, i = 2 ∧ params.length = 3 := by
  have hnone : ∀ i ∈ ([] : List ℕ), i = 2 ∧ params.length = 3 :=
    fun i hi => absurd hi List.not_mem_nil
  rw [planReading]
  rw [runFrom_readParam_bind, Noting.runFrom_bind, Noting.runFrom_lift]
  cases stoi ((params[1]?.map StringView.chars).getD ctx.stale) with
  | error e => exact ⟨[], rfl, hnone⟩
  | ok planId =>
    dsimp only
    split
    · next hthree =>
      have hboost : ∀ i ∈ [2], i = 2 ∧ params.length = 3 := by
        intro i hi
        exact ⟨List.mem_singleton.mp hi, hthree⟩
      refine ⟨[2], ?_, hboost⟩
      rw [runFrom_readParam_bind, Noting.runFrom_bind, Noting.runFrom_lift, List.append_assoc]
      cases stoi ((params[2]?.map StringView.chars).getD ctx.stale) with
      | error e => rfl
      | ok boost => rfl
    · exact ⟨[], rfl, hnone⟩

/-- What an incoming transfer does, from the first field on. -/
theorem runFrom_incoming (hsender : n.sender ≠ self) (hto : n.recipient = self)
    (hpos : 0 < n.quantity.amount) : (ontransferReading self ctx n s).runFrom []
      = match Name.ofText ((memoFields n.memo).getD 0 []) with
        | .ok actionName =>
          if actionName = .lit "plan" then
            (planReading ctx n ((StringView.ofText n.memo).split ':') s).runFrom [0]
          else (.error ⟨Err.paramError.code, "memo not Supported"⟩, [0])
        | .error e => (.error e, [0]) := by
  have hlen := memoFields_pos n.memo
  rw [memoFields, List.length_map] at hlen
  rw [getD_memoFields, ontransferReading, if_neg (by simp [hsender, hto])]
  generalize (StringView.ofText n.memo).split ':' = params at hlen
  have hne : n.sender ≠ n.recipient := by rwa [hto]
  simp only [checkc, check, if_pos hne, if_pos (show 1 ≤ params.length from hlen), if_pos hpos]
  show Noting.runFrom (liftM (Name.ofText _) >>= _) [0] = _
  rw [Noting.runFrom_bind, Noting.runFrom_lift, param_eq hlen]
  cases Name.ofText (params.getD 0 default).chars with
  | error e => rfl
  | ok actionName =>
    dsimp only
    split
    · rfl
    · rfl

/-- The reads of an incoming transfer are in bounds exactly when there is a second field, or the
first one does not make the code look for it. -/
theorem inBounds_iff (hsender : n.sender ≠ self) (hto : n.recipient = self)
    (hpos : 0 < n.quantity.amount) :
    (∀ i ∈ (ontransferReading self ctx n s).notes, i < (memoFields n.memo).length) ↔
      ¬ NamesPlan n.memo ∨ 2 ≤ (memoFields n.memo).length := by
  have hfirst := memoFields_pos n.memo
  have hlen : ((StringView.ofText n.memo).split ':').length = (memoFields n.memo).length := by
    rw [memoFields, List.length_map]
  rw [Noting.notes, runFrom_incoming hsender hto hpos, NamesPlan]
  -- the code that stops behind the first field reads nothing else
  have hstops : ∀ i ∈ [0], i < (memoFields n.memo).length := by
    intro i hi
    rw [List.mem_singleton.mp hi]
    exact hfirst
  cases hname : Name.ofText ((memoFields n.memo).getD 0 []) with
  | error e => exact iff_of_true hstops (Or.inl fun hc => by cases hc)
  | ok actionName =>
    dsimp only
    rw [Except.ok.injEq]
    split
    · next hplan =>
      obtain ⟨more, hreads, hmore⟩ :=
        reads_planReading ctx n ((StringView.ofText n.memo).split ':') s [0]
      rw [hreads]
      constructor
      · intro hall
        exact Or.inr (hall 1 (by simp))
      · intro h i hi
        have htwo : 2 ≤ (memoFields n.memo).length := h.resolve_left fun hother => hother hplan
        rcases List.mem_append.mp hi with hi | hi
        · exact hstops i hi
        · rcases List.mem_cons.mp hi with rfl | hi
          · exact htwo
          · obtain ⟨rfl, hthree⟩ := hmore i hi
            omega
    · next hother => exact iff_of_true hstops (Or.inl hother)

end Reads

/-! ## The numbers -/

section Numbers
variable {account : Name} {ctx : Ctx} {n : Notice} {s : State} {e : Effect State} {memo : List Char}
  {planId : ℕ}

/-- The numbers that `stoi` reads from a memo with a second field, and that it is asked to. -/
structure Numbers (memo : List Char) (planId : ℤ) : Prop where
  planId : stoi ((memoFields memo).getD 1 []) = .ok planId
  boost : (memoFields memo).length = 3 → ∃ boost, stoi ((memoFields memo).getD 2 []) = .ok boost

/-- The plan that a memo with a second field names. -/
theorem memoPlan_eq_ok (hlen : 2 ≤ (memoFields memo).length) :
    memoPlan ctx memo = .ok planId ↔ NamesPlan memo ∧ ∃ k, Numbers memo k ∧ u64 k = planId := by
  have hparams : ((StringView.ofText memo).split ':').length = (memoFields memo).length := by
    rw [memoFields, List.length_map]
  rw [NamesPlan, getD_memoFields]
  have hnumbers : ∀ k, Numbers memo k ↔ stoi (((StringView.ofText memo).split ':').getD 1
      default).chars = .ok k ∧ (((StringView.ofText memo).split ':').length = 3 →
        ∃ boost, stoi (((StringView.ofText memo).split ':').getD 2 default).chars = .ok boost) := by
    intro k
    rw [← getD_memoFields, ← getD_memoFields, hparams]
    exact ⟨fun h => ⟨h.planId, h.boost⟩, fun h => ⟨h.1, h.2⟩⟩
  simp only [hnumbers, memoPlan, bind_eq_ok, checkc_eq_ok, exists_const]
  rw [← hparams] at hlen
  generalize (StringView.ofText memo).split ':' = params at hlen
  rw [param_eq (by omega)]
  constructor
  · rintro ⟨-, actionName, hname, rfl, k, hk, h⟩
    refine ⟨hname, k, ?_⟩
    split at h
    · simp only [bind_eq_ok, pure_eq_ok] at h
      obtain ⟨boost, hboost, rfl⟩ := h
      exact ⟨⟨hk, fun _ => ⟨boost, hboost⟩⟩, rfl⟩
    · next hthree =>
      rw [pure_eq_ok] at h
      exact ⟨⟨hk, fun hc => absurd hc hthree⟩, h⟩
  · rintro ⟨hname, k, ⟨hk, hboost⟩, rfl⟩
    refine ⟨by omega, _, hname, rfl, k, hk, ?_⟩
    split
    · next hthree =>
      obtain ⟨boost, hboost⟩ := hboost hthree
      rw [hboost]
      rfl
    · rfl

/-- An incoming transfer that is accepted is one for a plan. -/
theorem memoPlan_of_ontransfer (hsender : n.sender ≠ account) (hto : n.recipient = account)
    (h : ontransfer account ctx n s = .ok e) : ∃ planId, memoPlan ctx n.memo = .ok planId := by
  rw [ontransfer, if_neg (by simp [hsender, hto])] at h
  simp only [bind_eq_ok, checkc_eq_ok, check_eq_ok, exists_const] at h
  obtain ⟨-, hlen, -, actionName, hname, h⟩ := h
  split at h
  · next hplan =>
    simp only [bind_eq_ok] at h
    obtain ⟨planId, hid, h⟩ := h
    simp only [memoPlan, checkc_of hlen, hname, ok_bind, checkc_of hplan, hid]
    split at h
    · next hthree =>
      simp only [bind_eq_ok] at h
      obtain ⟨boost, hboost, -⟩ := h
      rw [if_pos hthree, hboost]
      exact ⟨_, rfl⟩
    · next hthree =>
      rw [if_neg hthree]
      exact ⟨_, rfl⟩
  · cases h

theorem namesPlan_of_memoPlan (h : memoPlan ctx memo = .ok planId) : NamesPlan memo := by
  simp only [memoPlan, bind_eq_ok, checkc_eq_ok, exists_const] at h
  obtain ⟨-, actionName, hname, rfl, -⟩ := h
  rw [NamesPlan, getD_memoFields]
  exact hname

/-- A split that is accepted is one under a stored plan. -/
theorem plan_of_split {bank : Name} {q : Asset} (h : split ctx bank planId q s = .ok e) :
    ∃ plan, s.plans.find? planId = some plan := by
  simp only [split, bind_eq_ok, require_eq_ok] at h
  obtain ⟨plan, hplan, -⟩ := h
  exact ⟨plan, hplan⟩

end Numbers

/-! ## The whole memo -/

/-- The memo of an incoming transfer is parsed safely and exactly: no field is read that is not
there, and what is accepted is a split under the plan that the memo denotes. -/
structure MemoExact (account : Name) (ctx : Ctx) (n : Notice) (s : State) : Prop where
  inBounds : ∀ i ∈ (ontransferReading account ctx n s).notes, i < (memoFields n.memo).length
  accepted : ∀ e, ontransfer account ctx n s = .ok e →
    ∃ planId, PlanMemo (memoFields n.memo) planId ∧ split ctx n.bank planId n.quantity s = .ok e

/-- A manual plan has room for a quantity: the wallet of every receiver can record what the receiver
gets of it. An automatic plan needs no room. -/
def Room (plan : TokenSplitPlan) (n : Notice) (s : State) : Prop :=
  plan.splitType = .manual → ∀ p ∈ plan.splitConf.zip
      (Apportion.topUp n.quantity.amount (loopShares n.quantity.amount plan.splitConf)),
    booked s.wallets plan.id p.1.tokenReceiver n.token + p.2 ≤ Asset.maxAmount

/-- The numbers that are read from the memo are those of a plan that has room for the transfer. -/
def Distributable (n : Notice) (s : State) : Prop :=
  ∃ k plan, Numbers n.memo k ∧ s.plans.find? (u64 k) = some plan ∧ Room plan n s

section Main
variable {account : Name} {ctx : Ctx} {n : Notice} {w : World State} {plan : TokenSplitPlan}

/-- Under a checked plan a positive quantity is split exactly when there is room. -/
theorem split_of_room_iff (hw : Solvent w) (hconf : RatesChecked plan.splitConf)
    (hplan : w.state.plans.find? plan.id = some plan) (hpos : 0 < n.quantity.amount) :
    (∃ e, split ctx n.bank plan.id n.quantity w.state = .ok e) ↔ Room plan n w.state := by
  obtain ⟨gifts, hgifts, hpayments⟩ := shares_of_checked hconf n.valid hpos
  have hrange : ∀ g ∈ gifts, g.2.symbol = n.quantity.symbol ∧ 0 < g.2.amount ∧
      g.2.amount ≤ Asset.maxAmount := by
    intro g hg
    obtain ⟨hsymbol, hpositive, hle⟩ := share_of_shares hgifts ⟨hpos, n.valid.1.2⟩ hg
    exact ⟨hsymbol, hpositive, hle.trans n.valid.1.2⟩
  have hgive : (∃ e, split ctx n.bank plan.id n.quantity w.state = .ok e) ↔
      ∃ acc, giveAll ctx plan n.bank gifts (w.state.wallets, []) = .ok acc := by
    rw [split_eq_giveAll hplan hgifts]
    simp only [bind_eq_ok]
    constructor
    · rintro ⟨e, acc, hacc, -⟩
      exact ⟨acc, hacc⟩
    · rintro ⟨acc, hacc⟩
      exact ⟨_, acc, hacc, rfl⟩
  rw [hgive]
  cases htype : plan.splitType with
  | auto =>
    refine iff_of_true ⟨_, giveAll_auto htype⟩ fun hmanual => ?_
    rw [htype] at hmanual
    cases hmanual
  | manual =>
    have hzip : plan.splitConf.zip (payments n.bank n.token plan.splitConf gifts)
        = plan.splitConf.map fun p =>
            (p, paidTo p.tokenReceiver n.token (forwards n.bank gifts)) := by
      rw [payments, ← List.zip_map', List.map_id']
    have hpaid : payments n.bank n.token plan.splitConf gifts
        = Apportion.topUp n.quantity.amount (loopShares n.quantity.amount plan.splitConf) :=
      hpayments n.bank
    have htoken : (⟨n.quantity.symbol, n.bank⟩ : ExtendedSymbol) = n.token := rfl
    rw [giveAll_manual_iff htype hw.sound hrange, htoken, Room, imp_iff_right htype, ← hpaid, hzip,
      List.forall_mem_map]
    constructor
    · intro h p _
      exact h p.tokenReceiver
    · intro h r
      by_cases hr : ∃ p ∈ plan.splitConf, p.tokenReceiver = r
      · obtain ⟨p, hp, rfl⟩ := hr
        exact h p hp
      · -- nothing is booked for anybody else
        obtain ⟨hall, -⟩ := shares_spec hgifts ⟨hpos, n.valid.1.2⟩
        have habsent : ∀ g ∈ gifts, g.1 ≠ r := by
          rintro g hg rfl
          exact hr (hall g hg).2.2
        rw [paidTo_forwards_of_absent habsent, add_zero]
        exact booked_le hw.sound _ _ _

/-- The numbers of a memo in one of the two forms are those that it denotes. -/
theorem PlanMemo.eq_of_numbers {memo : List Char} {planId : ℕ} {k : ℤ}
    (h : PlanMemo (memoFields memo) planId) (hk : Numbers memo k) : u64 k = planId := by
  have hid := hk.planId
  generalize memoFields memo = fields at h hid
  cases h with
  | plan hnumeral => exact stoi_numeral hnumeral hid
  | boosted hnumeral _ => exact stoi_numeral hnumeral hid

/-- In every reachable state, for every transfer of a positive quantity to the account: the code
reads the memo as noted, and parses it safely and exactly in these cases and no others. The first
field does not name the action; or there is a second field, and the memo has one of the two forms,
or it has no numbers, or none of a stored plan, or a plan that has no room. -/
theorem memoExact_iff {clock : TimePoint} {is : List (Ctx × Input Action)}
    (hrun : Transition.Run (contract account).step Transition.Unrestricted (genesis clock) is w)
    (hsender : n.sender ≠ account) (hto : n.recipient = account) (hpos : 0 < n.quantity.amount) :
    (ontransferReading account ctx n w.state).Erases (ontransfer account ctx n w.state) ∧
    (MemoExact account ctx n w.state ↔ ¬ NamesPlan n.memo ∨
      2 ≤ (memoFields n.memo).length ∧
        ((∃ planId, PlanMemo (memoFields n.memo) planId) ∨ ¬ Distributable n w.state)) := by
  refine ⟨ontransferReading_erases account ctx n w.state, ?_⟩
  have hw := solvent_of_run hrun
  have hchecked := plansChecked_of_run hrun
  have hbounds := @inBounds_iff account ctx n w.state hsender hto hpos
  constructor
  · intro h
    by_cases hname : NamesPlan n.memo
    · have hlen := (hbounds.mp h.inBounds).resolve_left (not_not.mpr hname)
      refine Or.inr ⟨hlen, ?_⟩
      by_cases hdist : Distributable n w.state
      · -- the transfer is accepted, so its memo is of one of the forms
        obtain ⟨k, plan, hk, hfind, hroom⟩ := hdist
        obtain ⟨hplan, hid⟩ := Table.find?_eq_some.mp hfind
        obtain ⟨e, he⟩ := (split_of_room_iff hw (hchecked plan hplan) (Table.find?_self hplan)
          hpos).mpr hroom
        have hmemo : memoPlan ctx n.memo = .ok plan.id :=
          (memoPlan_eq_ok hlen).mpr ⟨hname, k, hk, hid.symm⟩
        obtain ⟨planId, hform, -⟩ :=
          h.accepted e ((ontransfer_eq_ok hsender hto hmemo).mpr ⟨hpos, he⟩)
        exact Or.inl ⟨planId, hform⟩
      · exact Or.inr hdist
    · exact Or.inl hname
  · intro h
    refine ⟨hbounds.mpr (h.imp_right And.left), fun e he => ?_⟩
    obtain ⟨planId, hmemo⟩ := memoPlan_of_ontransfer hsender hto he
    have hsplit := ((ontransfer_eq_ok hsender hto hmemo).mp he).2
    have hname := namesPlan_of_memoPlan hmemo
    obtain ⟨hlen, hform⟩ := h.resolve_left (not_not.mpr hname)
    obtain ⟨-, k, hk, rfl⟩ := (memoPlan_eq_ok hlen).mp hmemo
    rcases hform with ⟨planId, hplan⟩ | hnone
    · rw [hplan.eq_of_numbers hk] at hsplit
      exact ⟨planId, hplan, hsplit⟩
    · -- the split was accepted, so there is a plan with room
      obtain ⟨plan, hfind⟩ := plan_of_split hsplit
      obtain ⟨hplan, hid⟩ := Table.find?_eq_some.mp hfind
      rw [← hid] at hsplit
      exact absurd ⟨k, plan, hk, hfind, (split_of_room_iff hw (hchecked plan hplan)
        (Table.find?_self hplan) hpos).mp ⟨e, hsplit⟩⟩ hnone

end Main

/-! ## Sample memos -/

namespace Sample

/-- A transfer of 20000 units with a memo. -/
def withMemo (memo : String) : Notice := { toPlan (int64 20000) (by decide) with memo := memo.toList }

/-- `plan:1` is read safely and exactly. -/
theorem memoExact_iff_plan :
    MemoExact account (.signed alice 101) (withMemo "plan:1") skewed.state :=
  (memoExact_iff run_skewed (by decide) rfl (by decide)).2.mpr
    (Or.inr ⟨by decide, Or.inl ⟨1, @PlanMemo.plan ['1'] (by decide)⟩⟩)

/-- Behind `plan` alone there is no second field, and the code reads it. -/
theorem not_memoExact :
    ¬ ∀ (account : Name) (clock : TimePoint) (is : List (Ctx × Input Action)) (w : World State)
      (ctx : Ctx) (n : Notice),
      Transition.Run (contract account).step Transition.Unrestricted (genesis clock) is w →
      n.sender ≠ account → n.recipient = account → 0 < n.quantity.amount →
      MemoExact account ctx n w.state := by
  intro h
  have hexact := h account _ _ _ (.signed alice 101) (withMemo "plan") run_skewed (by decide) rfl
    (by decide)
  have hread : 1 ∈ (ontransferReading account (.signed alice 101) (withMemo "plan")
      skewed.state).notes := by decide
  have hbound : 1 < (memoFields (withMemo "plan").memo).length := hexact.inBounds 1 hread
  revert hbound
  decide

end Sample

end Split
end ToolkitContracts
