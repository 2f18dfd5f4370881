import ToolkitContracts.Blindbox.Stored
import ToolkitContracts.Split.Solvency
import ToolkitContracts.Split.Stored

/-!
# The split plans that flon.blindbox reads

`createbooth` looks a split plan up in the table `plans` of the fund distributor, in the scope
of the blindbox account, and reads the row with a record of its own. flon.split keeps its
plans in its own scope, and its record has the creator before the token symbol. So the row is
not found; and were it found, the creator would be read as the symbol, and the zero bytes of
the symbol as a cleared flag and an empty list of receivers.
-/

namespace ToolkitContracts
namespace Blindbox

open Split (TokenSplitPlan SplitUnit tokenSplitPlan splitUnit plansTable)

/-! ## The record of flon.blindbox -/

structure SplitPlan where
  id : ℕ
  tokenSymbol : Symbol
  splitByRate : Bool := false
  splitConf : List SplitUnit

/-- `split_plan_t`, in the order of its `EOSLIB_SERIALIZE`. -/
def splitPlan : Codec SplitPlan where
  put p := Datastream.uint64.put p.id ++ (Datastream.symbol.put p.tokenSymbol ++
    (Datastream.bool.put p.splitByRate ++ (Datastream.vector splitUnit).put p.splitConf))
  get := do
    let id ← Datastream.uint64.get
    let tokenSymbol ← Datastream.symbol.get
    let splitByRate ← Datastream.bool.get
    let splitConf ← (Datastream.vector splitUnit).get
    return { id, tokenSymbol, splitByRate, splitConf }

/-- The split plan that `createbooth` finds, where `table` has the rows of the tables `plans` by
contract, scope and key. -/
def findPlan (table : Name → Name → ℕ → Option (List UInt8)) (self : Name) (s : State)
    (splitPlanId : ℕ) : Option SplitPlan := do
  let bytes ← table s.gstate.fundDistributor self splitPlanId
  let (plan, _) ← splitPlan.get.run bytes
  return plan

/-- The tables `plans` that the action finds are those of flon.split at `split`. -/
def Env.SeesPlans (env : Env) (split : Name) (s : Split.State) : Prop :=
  ∀ code scope id, env.plans code scope id = (plansTable split s code scope id).isSome

/-- What flon.split encoded of a plan, as the record of flon.blindbox. -/
def encoded (p : TokenSplitPlan) : SplitPlan := ⟨p.id, p.tokenSymbol, p.splitByRate, p.splitConf⟩

/-- What flon.blindbox reads from the bytes of a plan. -/
def misread (p : TokenSplitPlan) : SplitPlan := ⟨p.id, ⟨p.creator.value⟩, false, []⟩

/-! ## Reading a row -/

/-- The zero bytes of an unset symbol start like a cleared flag and an empty list. -/
theorem symbol_put_unset : Datastream.symbol.put ⟨0⟩ =
    Datastream.bool.put false ++ ((Datastream.vector splitUnit).put [] ++ List.replicate 6 0) := by
  decide

theorem get_splitPlan {p : TokenSplitPlan} (h : p.Stored) :
    ∃ rest, splitPlan.get.run (tokenSplitPlan.put p) = some (misread p, rest) := by
  have hlist : (Datastream.vector splitUnit).RoundTrips [] := by
    apply Datastream.vector_roundTrips
    · simp
    · simp
  -- a name and a symbol are written alike
  have hcreator : Datastream.name.put p.creator = Datastream.symbol.put ⟨p.creator.value⟩ := rfl
  simp only [tokenSplitPlan, splitPlan, hcreator, h.tokenSymbol, symbol_put_unset, List.append_assoc]
  rw [(Datastream.uint64_roundTrips h.id).bind, (Datastream.symbol_roundTrips _).bind,
    (Datastream.bool_roundTrips _).bind, hlist.bind]
  exact ⟨_, rfl⟩

theorem encoded_ne_misread {p : TokenSplitPlan} (h : p.Stored) : encoded p ≠ misread p := by
  intro heq
  have hflag : p.splitByRate = false := congrArg SplitPlan.splitByRate heq
  rw [h.splitByRate] at hflag
  cases hflag

section Lookup
variable {split self : Name} {clock : TimePoint} {is : List (Ctx × ToolkitContracts.Input Split.Action)}
  {w : ToolkitContracts.World Split.State} {s : State} {p : TokenSplitPlan}

/-- The row of a plan is found when the two contracts share an account, and is misread then. -/
theorem findPlan_eq (hstored : Split.PlansStored w.state) (hp : p ∈ w.state.plans)
    (hs : s.gstate.fundDistributor = split) :
    findPlan (plansTable split w.state) self s p.id = if self = split then some (misread p) else none := by
  rw [findPlan, hs, plansTable, Table.find?_self hp]
  by_cases hself : self = split
  · obtain ⟨rest, hget⟩ := get_splitPlan (hstored.plans p hp)
    rw [if_pos ⟨rfl, hself⟩, if_pos hself]
    show ((splitPlan.get.run (tokenSplitPlan.put p)).bind fun r => some r.1) = _
    rw [hget]
    rfl
  · rw [if_neg fun h => hself h.2, if_neg hself]
    rfl

/-- With flon.split as its fund distributor, a blindbox on another account creates no booth. -/
theorem createbooth_refused {env : Env} {t : BoothTerms} {e : Effects}
    (henv : env.SeesPlans split w.state) (hs : s.gstate.fundDistributor = split)
    (hself : self ≠ split) : run self env (.act t.action) s ≠ .ok e := by
  intro hok
  simp only [run, BoothTerms.action, exec, createbooth, bind_eq_ok, checkc_eq_ok,
    exists_const] at hok
  obtain ⟨-, -, -, -, -, hplan, -⟩ := hok
  rw [henv, hs, plansTable, if_neg fun h => hself h.2] at hplan
  cases hplan

/-- flon.split reads back every plan that it ever stores, and `createbooth` none of them: on
another account it does not find the row and is always refused, and on the account of
flon.split it finds the row and misreads it. -/
theorem findPlan_ne_encoded
    (hrun : Transition.Run (Split.contract split).step Transition.Unrestricted
      (Split.genesis clock) is w)
    (hp : p ∈ w.state.plans) (hs : s.gstate.fundDistributor = split) :
    findPlan (plansTable split w.state) self s p.id ≠ some (encoded p) ∧
      findPlan (plansTable split w.state) self s p.id =
        (if self = split then some (misread p) else none) ∧
      ((∀ c ∈ p.title, c.toNat < 256) → tokenSplitPlan.RoundTrips p) ∧
      (self ≠ split → ∀ (env : Env) (t : BoothTerms) (e : Effects),
        env.SeesPlans split w.state → run self env (.act t.action) s ≠ .ok e) := by
  have hstored := Split.plansStored_of_run hrun
  have hplan := hstored.plans p hp
  have hfound : findPlan (plansTable split w.state) self s p.id =
      if self = split then some (misread p) else none := findPlan_eq hstored hp hs
  refine ⟨?_, hfound, Split.tokenSplitPlan_roundTrips hplan,
    fun hself env t e henv => createbooth_refused henv hs hself⟩
  rw [hfound]
  split
  · intro heq
    exact encoded_ne_misread hplan (Option.some.inj heq).symm
  · exact Option.some_ne_none _ ∘ Eq.symm

end Lookup

/-! ## A sample plan -/

namespace Sample

/-- The tables of a blindbox whose fund distributor is the account of flon.split. -/
def distributing : State := ⟨{ fundDistributor := Split.Sample.account }, .empty, .empty⟩

/-- The first plan of flon.split, which `createbooth` does not find. -/
theorem plan_not_found :
    Transition.Reaches (Split.contract Split.Sample.account).step Transition.Unrestricted
      (fun w => (w.state.plans.find? 1).isSome = true ∧
        (findPlan (plansTable Split.Sample.account w.state) account distributing 1).isNone = true)
      Split.Sample.inputs (Split.genesis (.ofDays 100)) := by
  decide

/-- A plan that flon.split stores is not read back. -/
theorem stored_plan_not_read :
    ¬ ∀ (split self : Name) (clock : TimePoint) (is : List (Ctx × ToolkitContracts.Input Split.Action))
      (w : ToolkitContracts.World Split.State) (s : State)
      (p : TokenSplitPlan),
      Transition.Run (Split.contract split).step Transition.Unrestricted (Split.genesis clock) is w →
      p ∈ w.state.plans → s.gstate.fundDistributor = split →
      findPlan (plansTable split w.state) self s p.id = some (encoded p) := by
  intro hclaim
  obtain ⟨w, hrun, hfind, hnone⟩ := Transition.run_of_reaches plan_not_found
  obtain ⟨p, hp⟩ := Option.isSome_iff_exists.mp hfind
  obtain ⟨hmem, hid⟩ := Table.find?_eq_some.mp hp
  have hread := hclaim _ account _ _ w distributing p hrun hmem rfl
  rw [hid, Option.isNone_iff_eq_none.mp hnone] at hread
  cases hread

/-- The environment of a transaction that finds the plans of flon.split. -/
def finding (split : Split.State) : Env :=
  { env with plans := fun code scope id => (plansTable Split.Sample.account split code scope id).isSome }

/-- A plan with the title `equal`, which flon.split reads back, and no booth for it. -/
theorem findPlan_ne_encoded_sample :
    ∃ w p, Transition.Run (Split.contract Split.Sample.account).step Transition.Unrestricted
        (Split.genesis (.ofDays 100)) Split.Sample.inputs w ∧ p ∈ w.state.plans ∧
      findPlan (plansTable Split.Sample.account w.state) account distributing p.id
        ≠ some (encoded p) ∧
      tokenSplitPlan.RoundTrips p ∧
      ∀ e, run account (finding w.state) (.act terms.action) distributing ≠ .ok e := by
  have hreach : Transition.Reaches (Split.contract Split.Sample.account).step
      Transition.Unrestricted
      (fun w => ∃ p ∈ w.state.plans.rows, p.title.all (fun c => decide (c.toNat < 256)) = true)
      Split.Sample.inputs (Split.genesis (.ofDays 100)) := by decide
  obtain ⟨w, hrun, p, hp, hall⟩ := Transition.run_of_reaches hreach
  have htitle : ∀ c ∈ p.title, c.toNat < 256 :=
    fun c hc => of_decide_eq_true (List.all_eq_true.mp hall c hc)
  have hread : findPlan (plansTable Split.Sample.account w.state) account distributing p.id
      ≠ some (encoded p) ∧ _ := findPlan_ne_encoded hrun hp rfl
  obtain ⟨hread, -, hback, hrefused⟩ := hread
  exact ⟨w, p, hrun, hp, hread, hback htitle,
    fun e => hrefused (by decide) (finding w.state) terms e fun _ _ _ => rfl⟩

end Sample

end Blindbox
end ToolkitContracts
