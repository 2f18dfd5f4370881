import ToolkitContracts.Vest.Model

/-!
# What a transaction does to the vesting tables

`Move` lists, input by input, what a successful transaction leaves behind: the rows it
stores and removes, the transfers it orders, and the checks it has passed that later proofs
rely on. `move_of_run` is the only place where the contract's code is taken apart; every
invariant is proved by cases on `Move`.
-/

namespace ToolkitContracts
namespace Vest

/-- The rows that `transissue` stores: the receiver's new issue, and what is left of the old
one, if anything is. -/
def issueSplitOff (now : TimePoint) (issue : VestIssue) (newId : ℕ) (toReceiver : Name)
    (quant zero : Asset) (memo : List Char) : VestIssue :=
  { issue with
    issueId := newId
    receiver := toReceiver
    issued := quant
    locked := quant
    unlocked := zero
    updatedAt := now
    memo }

def issueRemainder (now : TimePoint) (issue : VestIssue) (quant : Asset) : VestIssue :=
  { issue with
    issued := issue.issued.setAmount (issue.issued.amount - quant.amount)
    locked := issue.locked.setAmount (issue.locked.amount - quant.amount)
    updatedAt := now }

/-- The issue after an `unlock` that brings its unlocked amount to `total`. -/
def issuePaid (now : TimePoint) (issue : VestIssue) (total : ℤ) : VestIssue :=
  { issue with
    unlocked := issue.unlocked.setAmount total
    locked := issue.locked.setAmount (i64 (issue.issued.amount - total))
    status := if i64 total = issue.issued.amount then .finished else issue.status
    updatedAt := now }

/-- The plan after an `unlock` of `amount`. -/
def planPaid (now : TimePoint) (plan : VestPlan) (amount : ℤ) : VestPlan :=
  { plan with
    totalUnlocked := plan.totalUnlocked.setAmount (plan.totalUnlocked.amount + amount)
    updatedAt := now }

/-- The successful transactions on the tables `s`: the input, the tables after it and the
transfers it orders. -/
inductive Move (self : Name) (ctx : Ctx) (s : State) :
    Input Action → State → List Transfer → Prop
  | ignore (n : Notice) (hn : n.sender = self ∨ n.recipient ≠ self) : Move self ctx s (.notify n) s []
  | payFee (n : Notice) (plan : VestPlan) (hto : n.recipient = self)
      (hplan : s.plans.find? plan.id = some plan) (hstatus : plan.status = .pending) :
      Move self ctx s (.notify n)
        { s with plans := s.plans.put { plan with status := .enabled, updatedAt := ctx.now } }
        [⟨n.bank, s.gstate.feeReceiver, n.quantity, n.memo⟩]
  | deposit (n : Notice) (plan : VestPlan) (receiver : Name) (firstUnlockDays issueId : ℕ)
      (totalIssued zero : Asset) (hto : n.recipient = self)
      (hplan : s.plans.find? plan.id = some plan) (hstatus : plan.status = .enabled)
      (hdays : firstUnlockDays ≤ maxLockDays) (hbank : plan.assetContract = n.bank)
      (hsymbol : plan.assetSymbol = n.quantity.symbol) (hpos : 0 < n.quantity.amount)
      (htotal : plan.totalIssued.add n.quantity = .ok totalIssued)
      (hzero : Asset.new 0 n.quantity.symbol = .ok zero) (hnew : s.issues.find? issueId = none)
      (hid : ∀ i ∈ s.issues, i.issueId < issueId) :
      Move self ctx s (.notify n)
        { s with
          plans := s.plans.put { plan with totalIssued, updatedAt := ctx.now }
          issues := s.issues.put {
            issueId
            planId := plan.id
            issuer := n.sender
            receiver
            issued := n.quantity
            locked := n.quantity
            unlocked := zero
            firstUnlockDays
            unlockIntervalDays := plan.unlockIntervalDays
            unlockTimes := plan.unlockTimes
            status := .ongoing
            issuedAt := ctx.now
            updatedAt := ctx.now
            memo := n.memo } } []
  | init (admin feeReceiver : Name) (planFee : Asset) :
      Move self ctx s (.act (.init admin planFee feeReceiver))
        { s with gstate := { admin, feeReceiver, planFee } } []
  | setreceiver (issue : VestIssue) (receiver : Name)
      (hissue : s.issues.find? issue.issueId = some issue) :
      Move self ctx s (.act (.setreceiver issue.issueId receiver))
        { s with issues := s.issues.put { issue with receiver } } []
  | addplan (owner : Name) (title : List Char) (assetContract : Name) (assetSymbol : Symbol)
      (unlockIntervalDays : ℕ) (unlockTimes : Int64Arg) (planId : ℕ) (zero : Asset)
      (status : PlanStatus) (hdays : 0 < unlockIntervalDays ∧ unlockIntervalDays ≤ maxLockDays)
      (htimes : 0 < unlockTimes.val) (hzero : Asset.new 0 assetSymbol = .ok zero)
      (hnew : s.plans.find? planId = none) :
      Move self ctx s
        (.act (.addplan owner title assetContract assetSymbol unlockIntervalDays unlockTimes))
        { s with
          plans := s.plans.put {
            id := planId
            owner
            title
            assetContract
            assetSymbol
            unlockIntervalDays
            unlockTimes := u64 unlockTimes.val
            totalIssued := zero
            totalUnlocked := zero
            totalRefunded := zero
            status
            createdAt := ctx.now
            updatedAt := ctx.now }
          accounts := s.accounts.put { owner, lastPlanId := planId } } []
  | setplanowner (plan : VestPlan) (newOwner : Name)
      (hplan : s.plans.find? plan.id = some plan) :
      Move self ctx s (.act (.setplanowner plan.owner plan.id newOwner))
        { s with plans := s.plans.put { plan with owner := newOwner, updatedAt := ctx.now } } []
  | enableplan (plan : VestPlan) (enabled : Bool)
      (hplan : s.plans.find? plan.id = some plan) (hstatus : plan.status ≠ .pending) :
      Move self ctx s (.act (.enableplan plan.owner plan.id enabled))
        { s with plans := s.plans.put { plan with
            status := if enabled then .enabled else .disabled
            updatedAt := ctx.now } } []
  | transissue (issue : VestIssue) (toReceiver : Name) (quant zero : Asset) (newId : ℕ)
      (memo : List Char) (hissue : s.issues.find? issue.issueId = some issue)
      (hstatus : issue.status = .ongoing) (hpos : 0 < quant.amount)
      (hsymbol : issue.locked.symbol = quant.symbol)
      (hlocked : quant.amount ≤ issue.locked.amount)
      (hissued : quant.amount ≤ issue.issued.amount)
      (hzero : Asset.new 0 quant.symbol = .ok zero) (hnew : s.issues.find? newId = none)
      (hid : ∀ i ∈ s.issues, i.issueId < newId) :
      Move self ctx s (.act (.transissue issue.receiver toReceiver issue.issueId quant))
        { s with issues :=
            let issues := s.issues.put (issueSplitOff ctx.now issue newId toReceiver quant zero memo)
            if issue.locked.amount = quant.amount then issues.erase issue.issueId
            else issues.put (issueRemainder ctx.now issue quant) } []
  | endissue (issuer : Name) (issue : VestIssue) (plan : VestPlan) (totalRefunded : Asset)
      (hissue : s.issues.find? issue.issueId = some issue)
      (hplan : s.plans.find? issue.planId = some plan) (hstatus : issue.status ≠ .finished)
      (henabled : plan.status = .enabled)
      (htotal : plan.totalRefunded.add issue.locked = .ok totalRefunded) :
      Move self ctx s (.act (.endissue issue.planId issuer issue.issueId))
        { s with
          plans := s.plans.put { plan with totalRefunded, updatedAt := ctx.now }
          issues := s.issues.put { issue with status := .finished, updatedAt := ctx.now } }
        [⟨plan.assetContract, issue.issuer, issue.locked,
          ("refund: " ++ toString issue.issueId).toList⟩]
  | unlock (issuer : Name) (issue : VestIssue) (plan : VestPlan) (total : ℤ)
      (unlockQuantity : Asset) (hissue : s.issues.find? issue.issueId = some issue)
      (hplan : s.plans.find? issue.planId = some plan) (hstatus : issue.status = .ongoing)
      (henabled : plan.status = .enabled) (hdays : 0 ≤ unlockedDays ctx.now issue)
      (htotal : totalUnlocked plan issue (unlockedTimes plan (unlockedDays ctx.now issue)) = .ok total)
      (hremaining : 0 ≤ i64 (issue.issued.amount - total))
      (hpos : 0 < i64 (total - issue.unlocked.amount))
      (hquantity : Asset.new (i64 (total - issue.unlocked.amount)) plan.assetSymbol =
        .ok unlockQuantity) :
      Move self ctx s (.act (.unlock issuer issue.planId issue.issueId))
        { s with
          plans := s.plans.put (planPaid ctx.now plan (i64 (total - issue.unlocked.amount)))
          issues := s.issues.put (issuePaid ctx.now issue total) }
        [⟨plan.assetContract, issue.receiver, unlockQuantity,
          ("unlock: " ++ toString issue.issueId ++ "@" ++ toString issue.planId).toList⟩]
  | delfinissues (issueIds : List ℕ) (issues : Table VestIssue.issueId)
      (hissues : delfinissuesFrom issueIds s.issues = .ok issues) :
      Move self ctx s (.act (.delfinissues issueIds)) { s with issues } []
  | setfirstdays (issue : VestIssue) (days : ℕ)
      (hissue : s.issues.find? issue.issueId = some issue) (hdays : days ≤ maxLockDays)
      (hauth : ctx.hasAuth issue.issuer = true) :
      Move self ctx s (.act (.setfirstdays issue.issueId days))
        { s with issues := s.issues.put { issue with
            firstUnlockDays := days
            updatedAt := ctx.now } } []

/-! ## Taking the code apart -/

section Inversion
variable {self : Name} {ctx : Ctx} {s s' : State} {outs : List Transfer}

theorem lt_issueId {t : Table VestIssue.issueId} {k : ℕ} (h : availablePrimaryKey t = .ok k) :
    ∀ i ∈ t, i.issueId < if k = 0 then 1 else k := by
  intro i hi
  have hlt := lt_of_availablePrimaryKey h hi
  split
  · omega
  · exact hlt

theorem move_of_ontransferPlan {n : Notice} {params : List StringView} (hto : n.recipient = self)
    (h : ontransferPlan ctx n params s = .ok (s', outs)) : Move self ctx s (.notify n) s' outs := by
  simp only [ontransferPlan, bind_eq_ok, check_eq_ok, require_eq_ok, pure_eq_ok, exists_const,
    Prod.mk.injEq] at h
  obtain ⟨-, -, -, -, planId, -, plan, hplan, hstatus, rfl, rfl⟩ := h
  have hid := (Table.find?_eq_some.mp hplan).2
  subst hid
  exact .payFee n plan hto hplan hstatus

theorem move_of_ontransferIssue {n : Notice} {params : List StringView} (hto : n.recipient = self)
    (h : ontransferIssue ctx n params s = .ok (s', outs)) :
    Move self ctx s (.notify n) s' outs := by
  simp only [ontransferIssue, bind_eq_ok, check_eq_ok, require_eq_ok, pure_eq_ok, exists_const,
    Prod.mk.injEq, emplace_eq_ok] at h
  obtain ⟨-, receiver, -, planId, -, days, -, plan, hplan, hstatus, -, hdays, -, hpos, hbank,
    hsymbol, total, htotal, k, hk, zero, hzero, issues, ⟨hnew, rfl⟩, rfl, rfl⟩ := h
  have hid := (Table.find?_eq_some.mp hplan).2
  subst hid
  exact .deposit n plan receiver days _ total zero hto hplan hstatus hdays hbank hsymbol hpos
    htotal hzero hnew (lt_issueId hk)

theorem move_of_ontransfer {n : Notice} (h : ontransfer self ctx n s = .ok (s', outs)) :
    Move self ctx s (.notify n) s' outs := by
  rw [ontransfer] at h
  by_cases hn : n.sender = self ∨ n.recipient ≠ self
  · rw [if_pos hn, Except.ok.injEq, Prod.mk.injEq] at h
    obtain ⟨rfl, rfl⟩ := h
    exact .ignore n hn
  · rw [if_neg hn] at h
    have hto : n.recipient = self := by
      by_contra hne
      exact hn (Or.inr hne)
    simp only [bind_eq_ok, check_eq_ok, exists_const] at h
    obtain ⟨-, -, h⟩ := h
    split at h
    · exact move_of_ontransferPlan hto h
    · split at h
      · exact move_of_ontransferIssue hto h
      · cases h

theorem move_of_transissue {fromReceiver toReceiver : Name} {issueId : ℕ} {quant : Asset}
    (h : transissue ctx fromReceiver toReceiver issueId quant s = .ok (s', outs)) :
    Move self ctx s (.act (.transissue fromReceiver toReceiver issueId quant)) s' outs := by
  simp only [transissue, bind_eq_ok, check_eq_ok, require_eq_ok, exists_const, emplace_eq_ok,
    Ctx.requireAuth_eq_ok] at h
  obtain ⟨-, -, -, -, hpos, issue, hissue, hstatus, hfrom, hsymbol, hlocked, hissued, k, hk, zero,
    hzero, issues, ⟨hnew, rfl⟩, h⟩ := h
  have hid := (Table.find?_eq_some.mp hissue).2
  subst hid hfrom
  have hmove : Move self ctx s (.act (.transissue issue.receiver toReceiver issue.issueId quant)) _
      _ :=
    .transissue issue toReceiver quant zero _
      (issue.receiver.toText ++ ':' :: (toString issue.issueId).toList) hissue hstatus hpos hsymbol
      hlocked hissued hzero hnew (lt_issueId hk)
  -- the two ways the code ends are the two branches of the conditional in `Move`
  by_cases hall : issue.locked.amount = quant.amount
  · rw [if_pos hall, pure_eq_ok, Prod.mk.injEq] at h
    obtain ⟨rfl, rfl⟩ := h
    simp only [if_pos hall] at hmove
    exact hmove
  · rw [if_neg hall, pure_eq_ok, Prod.mk.injEq] at h
    obtain ⟨rfl, rfl⟩ := h
    simp only [if_neg hall] at hmove
    exact hmove

theorem move_of_endissue {planId issueId : ℕ} {issuer : Name}
    (h : endissue self ctx planId issuer issueId s = .ok (s', outs)) :
    Move self ctx s (.act (.endissue planId issuer issueId)) s' outs := by
  simp only [endissue, bind_eq_ok, check_eq_ok, require_eq_ok, pure_eq_ok, exists_const,
    Prod.mk.injEq] at h
  obtain ⟨-, issue, hissue, hplanId, hstatus, -, plan, hplan, henabled, total, htotal, rfl, rfl⟩ := h
  have hid := (Table.find?_eq_some.mp hissue).2
  subst hid hplanId
  exact .endissue issuer issue plan total hissue hplan hstatus henabled htotal

theorem move_of_unlock {planId issueId : ℕ} {issuer : Name}
    (h : unlock ctx issuer planId issueId s = .ok (s', outs)) :
    Move self ctx s (.act (.unlock issuer planId issueId)) s' outs := by
  simp only [unlock, bind_eq_ok, check_eq_ok, require_eq_ok, pure_eq_ok, exists_const,
    Prod.mk.injEq, Ctx.requireAuth_eq_ok, Asset.comparable_eq_ok] at h
  obtain ⟨-, issue, hissue, hplanId, -, plan, hplan, henabled, -, hstatus, hdays, total, htotal,
    hremaining, hpos, quantity, hquantity, -, rfl, rfl⟩ := h
  have hid := (Table.find?_eq_some.mp hissue).2
  subst hid hplanId
  exact .unlock issuer issue plan total quantity hissue hplan hstatus henabled hdays htotal
    hremaining hpos hquantity

theorem move_of_exec {a : Action} (h : exec self ctx a s = .ok (s', outs)) :
    Move self ctx s (.act a) s' outs := by
  cases a with
  | init admin planFee feeReceiver =>
    simp only [exec, Vest.init, bind_eq_ok, checkc_eq_ok, pure_eq_ok, exists_const,
      Prod.mk.injEq, Ctx.requireAuth_eq_ok] at h
    obtain ⟨-, -, -, rfl, rfl⟩ := h
    exact .init admin feeReceiver planFee
  | setreceiver issueId receiver =>
    simp only [exec, setreceiver, bind_eq_ok, check_eq_ok, require_eq_ok, pure_eq_ok,
      exists_const, Prod.mk.injEq, checkAdmin] at h
    obtain ⟨-, -, issue, hissue, rfl, rfl⟩ := h
    have hid := (Table.find?_eq_some.mp hissue).2
    subst hid
    exact .setreceiver issue receiver hissue
  | addplan owner title contract symbol days times =>
    simp only [exec, addplan, bind_eq_ok, check_eq_ok, pure_eq_ok, exists_const,
      Prod.mk.injEq, emplace_eq_ok, Ctx.requireAuth_eq_ok] at h
    obtain ⟨-, -, -, -, hdays, htimes, -, k, -, zero, hzero, plans, ⟨hnew, rfl⟩, rfl, rfl⟩ := h
    exact .addplan owner title contract symbol days times _ zero _ hdays htimes hzero hnew
  | setplanowner owner planId newOwner =>
    simp only [exec, setplanowner, bind_eq_ok, check_eq_ok, require_eq_ok, pure_eq_ok,
      exists_const, Prod.mk.injEq] at h
    obtain ⟨plan, hplan, hown, -, -, rfl, rfl⟩ := h
    have hid := (Table.find?_eq_some.mp hplan).2
    subst hid hown
    exact .setplanowner plan newOwner hplan
  | enableplan owner planId enabled =>
    simp only [exec, enableplan, bind_eq_ok, check_eq_ok, require_eq_ok, pure_eq_ok,
      exists_const, Prod.mk.injEq, Ctx.requireAuth_eq_ok] at h
    obtain ⟨-, plan, hplan, hown, hstatus, -, rfl, rfl⟩ := h
    have hid := (Table.find?_eq_some.mp hplan).2
    subst hid hown
    exact .enableplan plan enabled hplan hstatus
  | transissue fromReceiver toReceiver issueId quant => exact move_of_transissue h
  | endissue planId issuer issueId => exact move_of_endissue h
  | unlock issuer planId issueId => exact move_of_unlock h
  | delfinissues issueIds =>
    simp only [exec, delfinissues, bind_eq_ok, pure_eq_ok, Prod.mk.injEq] at h
    obtain ⟨issues, hissues, rfl, rfl⟩ := h
    exact .delfinissues issueIds issues hissues
  | setfirstdays issueId days =>
    simp only [exec, setfirstdays, bind_eq_ok, check_eq_ok, require_eq_ok, pure_eq_ok,
      exists_const, Prod.mk.injEq, Ctx.requireAuth_eq_ok] at h
    obtain ⟨hdays, issue, hissue, hauth, rfl, rfl⟩ := h
    have hid := (Table.find?_eq_some.mp hissue).2
    subst hid
    exact .setfirstdays issue days hissue hdays hauth

/-- Every successful transaction is one of the moves. -/
theorem move_of_run {i : Input Action} (h : (contract self).run ctx i s = .ok (s', outs)) :
    Move self ctx s i s' outs := by
  cases i with
  | notify n => exact move_of_ontransfer h
  | act a => exact move_of_exec h

end Inversion

/-! ## The terms of a plan -/

/-- Two versions of a plan with the same token and the same schedule. -/
structure VestPlan.SameTerms (p p' : VestPlan) : Prop where
  contract : p'.assetContract = p.assetContract
  symbol : p'.assetSymbol = p.assetSymbol
  interval : p'.unlockIntervalDays = p.unlockIntervalDays
  times : p'.unlockTimes = p.unlockTimes

theorem VestPlan.SameTerms.refl (p : VestPlan) : p.SameTerms p := ⟨rfl, rfl, rfl, rfl⟩

theorem VestPlan.SameTerms.trans {p p' p'' : VestPlan} (h : p.SameTerms p')
    (h' : p'.SameTerms p'') : p.SameTerms p'' :=
  ⟨h'.contract.trans h.contract, h'.symbol.trans h.symbol, h'.interval.trans h.interval,
    h'.times.trans h.times⟩

section Terms
variable {self : Name} {ctx : Ctx} {s s' : State} {i : Input Action} {outs : List Transfer}
  {plans : Table VestPlan.id} {p p' q : VestPlan} {k : ℕ}

theorem sameTerms_of_put (p' : VestPlan) (hq : plans.find? p'.id = some q) (h : q.SameTerms p')
    (hp : plans.find? k = some p) : ∃ p'', (plans.put p').find? k = some p'' ∧ p.SameTerms p'' := by
  rw [Table.find?_put]
  by_cases hk : k = p'.id
  · rw [if_pos hk]
    rw [hk, hq] at hp
    exact ⟨p', rfl, Option.some.inj hp ▸ h⟩
  · rw [if_neg hk]
    exact ⟨p, hp, .refl p⟩

theorem sameTerms_of_put_new (hnew : plans.find? p'.id = none) (hp : plans.find? k = some p) :
    ∃ p'', (plans.put p').find? k = some p'' ∧ p.SameTerms p'' := by
  have hk : k ≠ p'.id := by
    intro hk
    rw [hk, hnew] at hp
    cases hp
  rw [Table.find?_put, if_neg hk]
  exact ⟨p, hp, .refl p⟩

/-- No transaction removes a plan or changes its terms. -/
theorem sameTerms_of_move (hm : Move self ctx s i s' outs) (hp : s.plans.find? k = some p) :
    ∃ p', s'.plans.find? k = some p' ∧ p.SameTerms p' := by
  cases hm with
  | payFee n plan hto hplan hstatus =>
    exact sameTerms_of_put { plan with status := .enabled, updatedAt := ctx.now } hplan
      ⟨rfl, rfl, rfl, rfl⟩ hp
  | deposit n plan receiver days issueId total zero hto hplan =>
    exact sameTerms_of_put { plan with totalIssued := total, updatedAt := ctx.now } hplan
      ⟨rfl, rfl, rfl, rfl⟩ hp
  | addplan owner title contract symbol days times planId zero status hdays htimes hzero hnew =>
    apply sameTerms_of_put_new
    · exact hnew
    · exact hp
  | setplanowner plan newOwner hplan =>
    exact sameTerms_of_put { plan with owner := newOwner, updatedAt := ctx.now } hplan
      ⟨rfl, rfl, rfl, rfl⟩ hp
  | enableplan plan enabled hplan hstatus =>
    exact sameTerms_of_put { plan with
      status := if enabled then .enabled else .disabled
      updatedAt := ctx.now } hplan ⟨rfl, rfl, rfl, rfl⟩ hp
  | endissue issuer issue plan total hissue hplan hstatus henabled htotal =>
    have hfind := Table.find?_key hplan
    exact sameTerms_of_put { plan with totalRefunded := total, updatedAt := ctx.now }
      hfind ⟨rfl, rfl, rfl, rfl⟩ hp
  | unlock issuer issue plan total quantity hissue hplan =>
    have hfind := Table.find?_key hplan
    exact sameTerms_of_put (planPaid ctx.now plan (i64 (total - issue.unlocked.amount)))
      hfind ⟨rfl, rfl, rfl, rfl⟩ hp
  | ignore | init | setreceiver | transissue | delfinissues | setfirstdays =>
    exact ⟨p, hp, .refl p⟩

end Terms

/-! ## The rows after a split -/

section Split
variable {issues : Table VestIssue.issueId} {issue j : VestIssue} {newId : ℕ} {now : TimePoint}
  {toReceiver : Name} {quant zero : Asset} {memo : List Char}

/-- After a split the table has the new row, what is left of the old one, and the others. -/
theorem mem_split_iff (hissue : issues.find? issue.issueId = some issue)
    (hnew : issues.find? newId = none) :
    j ∈ (let issues' := issues.put (issueSplitOff now issue newId toReceiver quant zero memo)
      if issue.locked.amount = quant.amount then issues'.erase issue.issueId
      else issues'.put (issueRemainder now issue quant)) ↔
    j = issueSplitOff now issue newId toReceiver quant zero memo ∨
    (issue.locked.amount ≠ quant.amount ∧ j = issueRemainder now issue quant) ∨
    (j ∈ issues ∧ j.issueId ≠ issue.issueId) := by
  have hnewId : ∀ k ∈ issues, k.issueId ≠ newId := Table.find?_eq_none.mp hnew
  have hne : newId ≠ issue.issueId := (hnewId issue (Table.find?_eq_some.mp hissue).1).symm
  have hoff : (issueSplitOff now issue newId toReceiver quant zero memo).issueId = newId := rfl
  have hrest : (issueRemainder now issue quant).issueId = issue.issueId := rfl
  show j ∈ (if issue.locked.amount = quant.amount then _ else _) ↔ _
  by_cases hall : issue.locked.amount = quant.amount
  · rw [if_pos hall, Table.mem_erase, Table.mem_put]
    grind
  · rw [if_neg hall, Table.mem_put, Table.mem_put]
    grind

end Split

/-! ## The rows after a purge -/

/-- `delfinissues` erases the rows it names, all of them finished. -/
theorem delfinissuesFrom_eq {ids : List ℕ} {issues issues' : Table VestIssue.issueId}
    (h : delfinissuesFrom ids issues = .ok issues') :
    issues' = issues.eraseAll ids ∧
    ∀ id ∈ ids, ∃ i, issues.find? id = some i ∧ i.status = .finished := by
  induction ids generalizing issues with
  | nil =>
    rw [delfinissuesFrom, Except.ok.injEq] at h
    rw [Table.eraseAll_nil, h]
    simp
  | cons id ids ih =>
    simp only [delfinissuesFrom, bind_eq_ok, require_eq_ok, check_eq_ok, exists_const] at h
    obtain ⟨i, hi, hstatus, h⟩ := h
    obtain ⟨hrows, hfinished⟩ := ih h
    rw [Table.eraseAll_cons]
    refine ⟨hrows, fun k hk => ?_⟩
    rcases List.mem_cons.mp hk with rfl | hk
    · exact ⟨i, hi, hstatus⟩
    · -- a row that is there after an erasure was there before
      obtain ⟨j, hj, hjstatus⟩ := hfinished k hk
      obtain ⟨hmem, hjd⟩ := Table.find?_eq_some.mp hj
      exact ⟨j, Table.find?_eq_some.mpr ⟨(Table.mem_erase.mp hmem).1, hjd⟩, hjstatus⟩

end Vest
end ToolkitContracts
