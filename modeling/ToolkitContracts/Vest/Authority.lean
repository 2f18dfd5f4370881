import ToolkitContracts.Vest.Schedule

/-!
# Who can touch an issue

`Authorised` states, action by action, whose authority a successful call carries for the issue
it names, by what the row stores and not by what the caller names. A call without the
authority of the issuer, the receiver, the admin, the contract or `flonian` leaves an issue as
it is, up to two effects that anyone may cause: `unlock` pays the receiver what the schedule
has released, and `delfinissues` purges a finished row.
-/

namespace ToolkitContracts
namespace Vest

/-! ## Authorities -/

/-- Whose authority a successful action carries for the issue it names. -/
def Authorised (self : Name) (ctx : Ctx) (s : State) : Action → Prop
  | .setreceiver _ _ => self ∈ ctx.auths ∨ s.gstate.admin ∈ ctx.auths
  | .transissue _ _ issueId _ => ∀ i ∈ s.issues.find? issueId, i.receiver ∈ ctx.auths
  | .endissue _ _ issueId => ∀ i ∈ s.issues.find? issueId,
    self ∈ ctx.auths ∨ i.issuer ∈ ctx.auths ∨ .lit "flonian" ∈ ctx.auths
  | .setfirstdays issueId _ => ∀ i ∈ s.issues.find? issueId, i.issuer ∈ ctx.auths
  | _ => True

/-- None of the accounts that may change the issue `i` authorises the action. -/
structure Stranger (account : Name) (ctx : Ctx) (s : State) (i : VestIssue) : Prop where
  issuer : i.issuer ∉ ctx.auths
  receiver : i.receiver ∉ ctx.auths
  admin : s.gstate.admin ∉ ctx.auths
  contract : account ∉ ctx.auths
  flonian : .lit "flonian" ∉ ctx.auths

/-! ## What may happen to an issue -/

/-- `unlock` raises the unlocked amount of `i` to what the schedule of its plan `p` has
released, and `q` is the difference. -/
structure Unlocks (ctx : Ctx) (s : State) (i : VestIssue) (p : VestPlan) (q : Asset)
    (s' : State) : Prop where
  plan : s.plans.find? i.planId = some p
  raised : i.unlocked.amount < releasedOf p i ctx.now
  row : s'.issues.find? i.issueId = some (issuePaid ctx.now i (releasedOf p i ctx.now))
  unlocked : (issuePaid ctx.now i (releasedOf p i ctx.now)).unlocked.amount
    = releasedOf p i ctx.now
  locked : (issuePaid ctx.now i (releasedOf p i ctx.now)).locked.amount
    = i.issued.amount - releasedOf p i ctx.now
  amount : q.amount = releasedOf p i ctx.now - i.unlocked.amount
  symbol : q.symbol = p.assetSymbol

/-- What a call of a stranger does to the issue `i`. -/
def LeavesIssue (ctx : Ctx) (inp : Input Action) (s : State) (i : VestIssue) (s' : State)
    (outs : List Transfer) : Prop :=
  s'.issues.find? i.issueId = some i ∨
  (∃ issuer p q memo, inp = .act (.unlock issuer i.planId i.issueId) ∧ Unlocks ctx s i p q s' ∧
    outs = [⟨p.assetContract, i.receiver, q, memo⟩]) ∨
  (∃ ids, inp = .act (.delfinissues ids) ∧ i.issueId ∈ ids ∧ i.status = .finished ∧
    s'.issues.find? i.issueId = none)

/-! ## One call -/

section Call
variable {self : Name} {ctx : Ctx} {s s' : State} {outs : List Transfer} {i : VestIssue}

theorem mem_auths {n : Name} : ctx.hasAuth n = true ↔ n ∈ ctx.auths := by
  simp [Ctx.hasAuth]

theorem authorised_of_exec {a : Action} (h : exec self ctx a s = .ok (s', outs)) :
    Authorised self ctx s a := by
  cases a with
  | init | addplan | setplanowner | enableplan | unlock | delfinissues => trivial
  | setreceiver issueId receiver =>
    simp only [exec, setreceiver, checkAdmin, bind_eq_ok, check_eq_ok, exists_const, mem_auths] at h
    exact h.1
  | transissue fromReceiver toReceiver issueId quant =>
    simp only [exec, transissue, bind_eq_ok, check_eq_ok, require_eq_ok, exists_const,
      Ctx.requireAuth_eq_ok, mem_auths] at h
    obtain ⟨hauth, -, -, -, -, issue, hissue, -, hfrom, -⟩ := h
    intro i hi
    -- the receiver that the caller names is the one of the row
    have hsame : i = issue := Option.some.inj (hi.symm.trans hissue)
    rw [hsame, hfrom]
    exact hauth
  | endissue planId issuer issueId =>
    simp only [exec, endissue, bind_eq_ok, check_eq_ok, require_eq_ok, exists_const,
      mem_auths] at h
    obtain ⟨hauth, issue, hissue, -, -, hissuer, -⟩ := h
    intro i hi
    have hsame : i = issue := Option.some.inj (hi.symm.trans hissue)
    rw [hsame]
    -- the issuer that the caller names is the one of the row, or the contract itself
    rcases hissuer with rfl | rfl
    · exact hauth
    · rcases hauth with hself | hself | hflonian
      · exact Or.inl hself
      · exact Or.inl hself
      · exact Or.inr (Or.inr hflonian)
  | setfirstdays issueId days =>
    simp only [exec, setfirstdays, bind_eq_ok, check_eq_ok, require_eq_ok, exists_const,
      Ctx.requireAuth_eq_ok, mem_auths] at h
    obtain ⟨-, issue, hissue, hauth, -⟩ := h
    intro i hi
    have hsame : i = issue := Option.some.inj (hi.symm.trans hissue)
    rw [hsame]
    exact hauth

theorem find_put_other {issues : Table VestIssue.issueId} {x : VestIssue} (hi : i ∈ issues)
    (hne : x.issueId ≠ i.issueId) : (issues.put x).find? i.issueId = some i := by
  rw [Table.find?_put, if_neg hne.symm, Table.find?_self hi]

/-- A row that is stored over another one leaves `i`, when the other one is not `i`. -/
theorem find_put_row {issues : Table VestIssue.issueId} {issue x : VestIssue} (hi : i ∈ issues)
    (hissue : issues.find? issue.issueId = some issue) (hid : x.issueId = issue.issueId)
    (hne : i ≠ issue) : (issues.put x).find? i.issueId = some i := by
  apply find_put_other hi
  intro heq
  exact hne (Table.eq_of_key_eq hi (Table.find?_eq_some.mp hissue).1 (heq.symm.trans hid))

theorem unlocks_of_move {clock : TimePoint} {plan : VestPlan} {total : ℤ} {quantity : Asset}
    (h : Accounted clock s.plans s.issues) (hclock : clock ≤ ctx.now)
    (hi : s.issues.find? i.issueId = some i) (hplan : s.plans.find? i.planId = some plan)
    (hongoing : i.status = .ongoing) (hdays : 0 ≤ unlockedDays ctx.now i)
    (htotal : totalUnlocked plan i (unlockedTimes plan (unlockedDays ctx.now i)) = .ok total)
    (hpos : 0 < i64 (total - i.unlocked.amount))
    (hquantity : Asset.new (i64 (total - i.unlocked.amount)) plan.assetSymbol = .ok quantity)
    (hrow : s'.issues = s.issues.put (issuePaid ctx.now i total)) :
    Unlocks ctx s i plan quantity s' := by
  have hsound := h.issue i (Table.find?_eq_some.mp hi).1 hongoing
  have hsoundPlan := h.plan plan (Table.find?_eq_some.mp hplan).1
  have hissuedAt : i.issuedAt ≤ ctx.now := le_trans hsound.issuedAt hclock
  obtain ⟨hbounds, -⟩ := payment_outstanding ctx.now h hi hongoing hplan htotal hpos
  obtain ⟨hexact, hdiff, hrest⟩ := i64_of_bounds hsound hbounds
  have hunlocked := hsound.unlocked
  -- what the code computes is what the schedule has released
  have hreleased : total = releasedOf plan i ctx.now := by
    rw [unlockedDays_eq hissuedAt hsound.days] at hdays
    exact totalUnlocked_eq hsoundPlan hissuedAt hsound.days (by omega) (by omega) htotal
  obtain ⟨hamount, hsymbol, -⟩ := Asset.new_eq_ok.mp hquantity
  rw [i64_i64, hdiff] at hamount
  rw [hdiff] at hpos
  subst hreleased
  refine ⟨hplan, by omega, ?_, hexact, ?_, hamount, hsymbol⟩
  · rw [hrow]
    exact Table.find?_eq_some.mpr ⟨Table.mem_put_self _ _, rfl⟩
  · show i64 (i64 (i.issued.amount - releasedOf plan i ctx.now)) = _
    rw [hrest, hrest]

/-- A call without authority for the issue `i` leaves it. -/
theorem leavesIssue_of_run {clock : TimePoint} {inp : Input Action}
    (h : Accounted clock s.plans s.issues) (hclock : clock ≤ ctx.now) (hi : i ∈ s.issues)
    (hstranger : Stranger self ctx s i)
    (hrun : (contract self).run ctx inp s = .ok (s', outs)) :
    LeavesIssue ctx inp s i s' outs := by
  have hfind := Table.find?_self hi
  have hm := move_of_run hrun
  cases hm with
  | ignore | payFee | init | addplan | setplanowner | enableplan => exact Or.inl hfind
  | deposit n plan receiver days issueId total zero hto hplan hstatus hdays hbank hsymbol hpos
      htotal hzero hnew hid =>
    exact Or.inl (find_put_other hi (hid i hi).ne')
  | setreceiver issue receiver hissue =>
    have hauth : Authorised self ctx s (.setreceiver issue.issueId receiver) :=
      authorised_of_exec hrun
    rcases hauth with hself | hadmin
    · exact absurd hself hstranger.contract
    · exact absurd hadmin hstranger.admin
  | transissue issue toReceiver quant zero newId memo hissue hongoing hpos hsymbol hlocked hissued
      hzero hnew hid =>
    -- the receiver of the split issue authorises the split, so it is another issue
    have hauth : Authorised self ctx s (.transissue issue.receiver toReceiver issue.issueId quant) :=
      authorised_of_exec hrun
    have hne : i ≠ issue := fun heq => hstranger.receiver (heq ▸ hauth issue hissue)
    refine Or.inl (Table.find?_eq_some.mpr ⟨(mem_split_iff hissue hnew).mpr ?_, rfl⟩)
    refine Or.inr (Or.inr ⟨hi, fun heq => hne ?_⟩)
    exact Table.eq_of_key_eq hi (Table.find?_eq_some.mp hissue).1 heq
  | endissue issuer issue plan total hissue hplan hstatus henabled htotal =>
    have hauth : Authorised self ctx s (.endissue issue.planId issuer issue.issueId) :=
      authorised_of_exec hrun
    have hne : i ≠ issue := by
      intro heq
      rcases hauth issue hissue with hself | hissuer | hflonian
      · exact hstranger.contract hself
      · exact hstranger.issuer (heq ▸ hissuer)
      · exact hstranger.flonian hflonian
    exact Or.inl (find_put_row hi hissue rfl hne)
  | setfirstdays issue days hissue hdays hauth =>
    have hauth' : issue.issuer ∈ ctx.auths := mem_auths.mp hauth
    have hne : i ≠ issue := fun heq => hstranger.issuer (heq ▸ hauth')
    exact Or.inl (find_put_row hi hissue rfl hne)
  | unlock issuer issue plan total quantity hissue hplan hongoing henabled hdays htotal hremaining
      hpos hquantity =>
    by_cases hne : i = issue
    · subst hne
      exact Or.inr (Or.inl ⟨issuer, plan, quantity, _, rfl,
        unlocks_of_move h hclock hissue hplan hongoing hdays htotal hpos hquantity rfl, rfl⟩)
    · exact Or.inl (find_put_row hi hissue rfl hne)
  | delfinissues issueIds issues hissues =>
    obtain ⟨hrows, hfinished⟩ := delfinissuesFrom_eq hissues
    by_cases hmem : i.issueId ∈ issueIds
    · -- a purged row was finished
      obtain ⟨j, hj, hstatus⟩ := hfinished _ hmem
      have hsame : j = i := Option.some.inj (hj.symm.trans hfind)
      refine Or.inr (Or.inr ⟨issueIds, rfl, hmem, hsame ▸ hstatus, ?_⟩)
      rw [Table.find?_eq_none, hrows]
      intro k hk hid
      exact (Table.mem_eraseAll.mp hk).2 (hid ▸ hmem)
    · refine Or.inl (Table.find?_eq_some.mpr ⟨?_, rfl⟩)
      rw [hrows]
      exact Table.mem_eraseAll.mpr ⟨hi, hmem⟩

end Call

/-- In every reachable state, whatever succeeds without the authority of an issue's issuer,
its receiver, the admin, the contract or `flonian` leaves the issue as it is, pays its
receiver what the schedule has released, or purges it when it is finished. -/
theorem stranger_leaves_issue {self : Name} {clock : TimePoint} {is : List (Ctx × Input Action)}
    {w : World State} {ctx : Ctx} {inp : Input Action} {i : VestIssue} {s' : State}
    {outs : List Transfer}
    (hrun : Transition.Run (contract self).step Transition.Unrestricted (genesis clock) is w)
    (hi : i ∈ w.state.issues) (hstranger : Stranger self ctx w.state i) (hclock : w.clock ≤ ctx.now)
    (hcall : (contract self).run ctx inp w.state = .ok (s', outs)) :
    LeavesIssue ctx inp w.state i s' outs :=
  leavesIssue_of_run (solvent_of_run hrun).accounted hclock hi hstranger hcall

/-! ## A stranger's call -/

namespace Sample

/-- Carol is neither the issuer nor the receiver of the issue 1, and unlocks it for Bob. -/
theorem stranger_leaves_issue_sample :
    ∃ w i s' outs, Transition.Run (contract account).step Transition.Unrestricted start
        (inputs.take 2) w ∧ i ∈ w.state.issues ∧ i.receiver = bob ∧
      (contract account).run (.signed carol 104) (.act (.unlock carol 1 1)) w.state = .ok (s', outs) ∧
      outs.map (fun t => (t.recipient, t.quantity.amount)) = [(bob, 50)] ∧
      LeavesIssue (.signed carol 104) (.act (.unlock carol 1 1)) w.state i s' outs := by
  have hreach : Transition.Reaches (contract account).step Transition.Unrestricted (fun w =>
      w.clock ≤ .ofDays 104 ∧ w.state.gstate.admin ≠ carol ∧
      (∃ i ∈ w.state.issues.find? 1, i.receiver = bob ∧ i.issuer = alice) ∧
      Transition.Succeeds ((contract account).run (.signed carol 104) (.act (.unlock carol 1 1))
        w.state) fun e => e.2.map (fun t => (t.recipient, t.quantity.amount)) = [(bob, 50)])
      (inputs.take 2) start := by decide
  obtain ⟨w, hrun, hclock, hadmin, ⟨i, hi, hreceiver, hissuer⟩, hcall⟩ :=
    Transition.run_of_reaches hreach
  obtain ⟨⟨s', outs⟩, hcall, houts⟩ := Transition.succeeds_iff.mp hcall
  have hmem := (Table.find?_eq_some.mp hi).1
  have hstranger : Stranger account (.signed carol 104) w.state i := by
    refine ⟨?_, ?_, ?_, by decide, by decide⟩
    · rw [hissuer]
      decide
    · rw [hreceiver]
      decide
    · intro hsigned
      exact hadmin (List.mem_singleton.mp hsigned)
  exact ⟨w, i, s', outs, hrun, hmem, hreceiver, hcall, houts,
    stranger_leaves_issue hrun hmem hstranger hclock hcall⟩

end Sample

end Vest
end ToolkitContracts
