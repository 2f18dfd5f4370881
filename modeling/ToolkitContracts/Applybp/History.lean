import ToolkitContracts.Applybp.Model

/-!
# The history behind the table

The table of producers says what has been submitted and switched, and nothing else: the row of an
account is read off the accepted calls about it. The admin's switches of one account go on and off
in turn.
-/

namespace ToolkitContracts
namespace Applybp

/-- An accepted call about a producer, with its second. -/
inductive Call where
  | submit (owner : Name) (p : Profile) (second : ℕ)
  | switch (owner status : Name) (second : ℕ)

namespace Call

/-- The account that the call is about. -/
def owner : Call → Name
  | submit owner _ _ => owner
  | switch owner _ _ => owner

/-- The second of the call. -/
def time : Call → ℕ
  | submit _ _ t => t
  | switch _ _ t => t

end Call

/-- The call that an input makes, if it is about a producer. -/
def call? (i : Ctx × Input Action) : Option Call :=
  match i.2 with
  | .act (.applybp owner p) => some (.submit owner p i.1.now.secSinceEpoch)
  | .act (.updatebp owner p) => some (.submit owner p i.1.now.secSinceEpoch)
  | .act (.addproducer _ owner p) => some (.submit owner p i.1.now.secSinceEpoch)
  | .act (.setstatus _ owner status) => some (.switch owner status i.1.now.secSinceEpoch)
  | .act (.init _) => none
  | .notify _ => none

/-- The calls of the accepted inputs `is`, in their order. -/
def callsOf (is : List (Ctx × Input Action)) : List Call := is.filterMap call?

/-- The admin that an input names, if it is `init`. -/
def admin? (i : Ctx × Input Action) : Option Name :=
  match i.2 with
  | .act (.init admin) => some admin
  | _ => none

/-- The admin after the accepted inputs `is`. -/
def adminOf (is : List (Ctx × Input Action)) : Name := (is.filterMap admin?).getLastD ⟨0⟩

/-- The profiles that were submitted for an account, with their seconds. -/
def submissions (owner : Name) (cs : List Call) : List (Profile × ℕ) :=
  cs.filterMap fun c => match c with
    | .submit o p t => if o = owner then some (p, t) else none
    | .switch _ _ _ => none

/-- The states that an account was switched to. -/
def switches (owner : Name) (cs : List Call) : List Name :=
  cs.filterMap fun c => match c with
    | .submit _ _ _ => none
    | .switch o status _ => if o = owner then some status else none

/-- The second of the last call about an account. -/
def lastCall (owner : Name) (cs : List Call) : Option ℕ :=
  ((cs.filter fun c => c.owner = owner).getLast?).map Call.time

/-- What the calls say of an account: the profile last submitted, the state that it was last switched
to, and when it was first submitted and last called about. -/
def recordOf (owner : Name) (cs : List Call) : Option Producer :=
  match submissions owner cs with
  | [] => none
  | first :: more => some { (more.getLastD first).1 with
      owner, status := (switches owner cs).getLastD disable, createdAt := first.2,
      updatedAt := (lastCall owner cs).getD first.2 }

/-- Switched on first, and from then on in turn. -/
def inTurn (n : ℕ) : Name := if n % 2 = 0 then enable else disable

section Calls
variable {owner owner' status : Name} {cs : List Call} {p : Profile} {t : ℕ} {c : Call}

/-- There is no record before the first profile. -/
theorem recordOf_eq_none : recordOf owner cs = none ↔ submissions owner cs = [] := by
  rw [recordOf]
  cases submissions owner cs with
  | nil => simp
  | cons first more => simp

theorem submissions_other (h : c.owner ≠ owner) :
    submissions owner (cs ++ [c]) = submissions owner cs := by
  rw [submissions, List.filterMap_append]
  cases c with
  | submit o p t => simp [submissions, show o ≠ owner from h]
  | switch o status t => simp [submissions]

theorem switches_other (h : c.owner ≠ owner) :
    switches owner (cs ++ [c]) = switches owner cs := by
  rw [switches, List.filterMap_append]
  cases c with
  | submit o p t => simp [switches]
  | switch o status t => simp [switches, show o ≠ owner from h]

/-- A call about another account changes nothing. -/
theorem recordOf_other (h : c.owner ≠ owner) : recordOf owner (cs ++ [c]) = recordOf owner cs := by
  have hlast : lastCall owner (cs ++ [c]) = lastCall owner cs := by
    rw [lastCall, List.filter_append]
    simp [lastCall, h]
  rw [recordOf, submissions_other h, switches_other h, hlast]
  rfl

/-- The state of a record is the one of the last switch. -/
theorem status_of_record {r : Producer} (hr : recordOf owner cs = some r) :
    r.status = (switches owner cs).getLastD disable := by
  rw [recordOf] at hr
  cases hs : submissions owner cs with
  | nil =>
    rw [hs] at hr
    cases hr
  | cons first more =>
    rw [hs] at hr
    rw [← Option.some.inj hr]

/-- A call about an account is its last one. -/
theorem lastCall_own (cs : List Call) (h : c.owner = owner) :
    lastCall owner (cs ++ [c]) = some c.time := by
  rw [lastCall, List.filter_append]
  simp [h]

theorem submissions_submit : submissions owner (cs ++ [.submit owner p t])
    = submissions owner cs ++ [(p, t)] := by
  rw [submissions, List.filterMap_append]
  simp [submissions]

theorem submissions_switch : submissions owner (cs ++ [.switch owner' status t])
    = submissions owner cs := by
  rw [submissions, List.filterMap_append]
  simp [submissions]

theorem switches_submit : switches owner (cs ++ [.submit owner' p t]) = switches owner cs := by
  rw [switches, List.filterMap_append]
  simp [switches]

theorem switches_switch : switches owner (cs ++ [.switch owner status t])
    = switches owner cs ++ [status] := by
  rw [switches, List.filterMap_append]
  simp [switches]

/-- The profile of a record is one that was submitted. -/
theorem profile_of_record {r : Producer} (hr : recordOf owner cs = some r) :
    ∃ m ∈ submissions owner cs, r.toProfile = m.1 := by
  rw [recordOf] at hr
  cases hs : submissions owner cs with
  | nil =>
    rw [hs] at hr
    cases hr
  | cons first more =>
    rw [hs] at hr
    rw [← Option.some.inj hr]
    refine ⟨more.getLastD first, ?_, rfl⟩
    rcases List.eq_nil_or_concat more with rfl | ⟨front, last, rfl⟩
    · exact List.mem_cons_self ..
    · simp

/-- A profile is submitted as the code does it, if nothing was switched before there was one. -/
theorem recordOf_submit (hswitches : submissions owner cs = [] → switches owner cs = []) :
    recordOf owner (cs ++ [.submit owner p t]) = some (submitted t owner p (recordOf owner cs)) := by
  have hlast : lastCall owner (cs ++ [.submit owner p t]) = some t := lastCall_own cs rfl
  rw [recordOf, recordOf, submissions_submit, switches_submit, hlast]
  cases hs : submissions owner cs with
  | nil =>
    rw [hswitches hs]
    rfl
  | cons first more => simp [submitted]

/-- A producer is switched as the code does it. -/
theorem recordOf_switch {r : Producer} (hr : recordOf owner cs = some r) :
    recordOf owner (cs ++ [.switch owner status t]) = some { r with status, updatedAt := t } := by
  have hlast : lastCall owner (cs ++ [.switch owner status t]) = some t := lastCall_own cs rfl
  rw [recordOf, submissions_switch, switches_switch, hlast]
  rw [recordOf] at hr
  cases hs : submissions owner cs with
  | nil =>
    rw [hs] at hr
    cases hr
  | cons first more =>
    rw [hs] at hr
    rw [← Option.some.inj hr]
    simp

end Calls

/-! ## One step -/

section Turns

/-- The state after `n` switches in turn. -/
theorem getLastD_inTurn (n : ℕ) :
    ((List.range n).map inTurn).getLastD disable = if n % 2 = 0 then disable else enable := by
  cases n with
  | zero => rfl
  | succ m =>
    rw [List.range_succ, List.map_append, List.map_singleton, List.getLastD_concat, inTurn]
    by_cases hm : m % 2 = 0
    · have hodd : (m + 1) % 2 ≠ 0 := by omega
      rw [if_pos hm, if_neg hodd]
    · have heven : (m + 1) % 2 = 0 := by omega
      rw [if_neg hm, if_pos heven]

/-- A supported state that changes something is the next one in turn. -/
theorem next_iff {status : Name} (n : ℕ) :
    ((if n % 2 = 0 then disable else enable) ≠ status ∧ (status = enable ∨ status = disable)) ↔
      status = inTurn n := by
  have hne : enable ≠ disable := by decide
  unfold inTurn
  by_cases hn : n % 2 = 0
  · rw [if_pos hn, if_pos hn]
    constructor
    · rintro ⟨hchange, rfl | rfl⟩
      · rfl
      · exact absurd rfl hchange
    · rintro rfl
      exact ⟨hne.symm, Or.inl rfl⟩
  · rw [if_neg hn, if_neg hn]
    constructor
    · rintro ⟨hchange, rfl | rfl⟩
      · exact absurd rfl hchange
      · rfl
    · rintro rfl
      exact ⟨hne, Or.inr rfl⟩

end Turns

section Steps
variable {self : Name} {w w' : World State} {is : List (Ctx × Input Action)} {i : Ctx × Input Action}
  {owner : Name} {c : Call}

theorem callsOf_none (h : call? i = none) : callsOf (is ++ [i]) = callsOf is := by
  rw [callsOf, List.filterMap_append]
  simp [callsOf, h]

theorem callsOf_some (h : call? i = some c) : callsOf (is ++ [i]) = callsOf is ++ [c] := by
  rw [callsOf, List.filterMap_append]
  simp [callsOf, h]

theorem adminOf_none (h : admin? i = none) : adminOf (is ++ [i]) = adminOf is := by
  rw [adminOf, List.filterMap_append]
  simp [adminOf, h]

/-- The table is the history. -/
structure Recorded (w : World State) (is : List (Ctx × Input Action)) : Prop where
  admin : w.state.gstate.admin = adminOf is
  rows : ∀ owner, w.state.producers.find? owner.raw = recordOf owner (callsOf is)
  inTurn : ∀ owner, Applybp.switches owner (callsOf is)
    = (List.range (Applybp.switches owner (callsOf is)).length).map inTurn
  submitted : ∀ owner, submissions owner (callsOf is) = [] → switches owner (callsOf is) = []
  fits : ∀ owner, ∀ m ∈ submissions owner (callsOf is), m.1.Fits

/-- The owner of a row is the account that it is found under. -/
theorem owner_of_find? {r : Producer} {t : Table Producer.primaryKey}
    (h : t.find? owner.raw = some r) : r.owner = owner :=
  Name.raw_inj.mp (Table.find?_eq_some.mp h).2

/-- The row of one account is replaced, and a call about it explains how. -/
theorem rows_of_put (hrec : Recorded w is) {r : Producer} (howner : r.owner = c.owner)
    (hrow : recordOf c.owner (callsOf is ++ [c]) = some r) (owner : Name) :
    (w.state.producers.put r).find? owner.raw = recordOf owner (callsOf is ++ [c]) := by
  rw [Table.find?_put, Producer.primaryKey, howner]
  by_cases h : c.owner = owner
  · subst h
    rw [if_pos rfl, hrow]
  · rw [if_neg fun hkey => h (Name.raw_inj.mp hkey).symm, recordOf_other h]
    exact hrec.rows owner

/-- Submitting a profile, by whomever. -/
theorem recorded_of_submit {ctx : Ctx} {p : Profile} {s' : State} (hrec : Recorded w is)
    (hset : setProducer self ctx owner p w.state = .ok s') (hstate : w'.state = s')
    (hcall : call? i = some (.submit owner p ctx.now.secSinceEpoch)) (hadmin : admin? i = none) :
    Recorded w' (is ++ [i]) := by
  obtain ⟨-, hfits, rfl⟩ := setProducer_eq_ok.mp hset
  have howner : (submitted ctx.now.secSinceEpoch owner p
      (w.state.producers.find? owner.raw)).owner = owner := by
    cases hfind : w.state.producers.find? owner.raw with
    | none => rfl
    | some r =>
      show r.owner = owner
      exact owner_of_find? hfind
  have hswitches : ∀ o, switches o (callsOf (is ++ [i])) = switches o (callsOf is) := by
    intro o
    rw [callsOf_some hcall, switches_submit]
  refine ⟨?_, fun o => ?_, fun o => ?_, fun o ho => ?_, fun o m hm => ?_⟩
  · rw [hstate, adminOf_none hadmin]
    exact hrec.admin
  · rw [hstate, callsOf_some hcall]
    refine rows_of_put hrec howner ?_ o
    rw [hrec.rows owner]
    exact recordOf_submit (hrec.submitted owner)
  · rw [hswitches]
    exact hrec.inTurn o
  · rw [hswitches]
    refine hrec.submitted o ?_
    rw [callsOf_some hcall, submissions, List.filterMap_append] at ho
    exact (List.append_eq_nil_iff.mp ho).1
  · rw [callsOf_some hcall] at hm
    by_cases ho : owner = o
    · subst ho
      rw [submissions_submit] at hm
      rcases List.mem_append.mp hm with hm | hm
      · exact hrec.fits owner m hm
      · rw [List.mem_singleton] at hm
        subst hm
        exact hfits
    · rw [submissions_other (c := .submit owner p ctx.now.secSinceEpoch) ho] at hm
      exact hrec.fits o m hm

/-- One accepted input keeps the tables in step with the calls. -/
theorem recorded_of_step (hrec : Recorded w is) (hstep : (contract self).step w i = .ok w') :
    Recorded w' (is ++ [i]) := by
  obtain ⟨outs, hrun⟩ := (contract self).run_of_step hstep
  obtain ⟨ctx, input⟩ := i
  cases input with
  | notify n =>
    obtain ⟨hstate, -⟩ := Prod.mk.inj (Except.ok.inj hrun)
    have hcalls : callsOf (is ++ [(ctx, .notify n)]) = callsOf is := callsOf_none rfl
    refine ⟨?_, fun o => ?_, fun o => ?_, fun o => ?_, fun o => ?_⟩
    · rw [← hstate, adminOf_none rfl]
      exact hrec.admin
    · rw [← hstate, hcalls]
      exact hrec.rows o
    · rw [hcalls]
      exact hrec.inTurn o
    · rw [hcalls]
      exact hrec.submitted o
    · rw [hcalls]
      exact hrec.fits o
  | act a =>
    have hexec : exec self ctx a w.state = .ok (w'.state, outs) := hrun
    cases a with
    | init admin =>
      obtain ⟨-, -, he⟩ := init_eq_ok.mp hexec
      obtain ⟨hstate, -⟩ := Prod.mk.inj he
      have hcalls : callsOf (is ++ [(ctx, .act (.init admin))]) = callsOf is := callsOf_none rfl
      refine ⟨?_, fun o => ?_, fun o => ?_, fun o => ?_, fun o => ?_⟩
      · rw [hstate, adminOf, List.filterMap_append]
        simp [admin?]
      · rw [hstate, hcalls]
        exact hrec.rows o
      · rw [hcalls]
        exact hrec.inTurn o
      · rw [hcalls]
        exact hrec.submitted o
      · rw [hcalls]
        exact hrec.fits o
    | applybp owner p =>
      obtain ⟨-, -, s', hset, he⟩ := applybp_eq_ok.mp hexec
      exact recorded_of_submit hrec hset (Prod.mk.inj he).1 rfl rfl
    | updatebp owner p =>
      obtain ⟨-, -, s', hset, he⟩ := updatebp_eq_ok.mp hexec
      exact recorded_of_submit hrec hset (Prod.mk.inj he).1 rfl rfl
    | addproducer submiter owner p =>
      obtain ⟨-, -, s', hset, he⟩ := addproducer_eq_ok.mp hexec
      exact recorded_of_submit hrec hset (Prod.mk.inj he).1 rfl rfl
    | setstatus submiter owner status =>
      obtain ⟨-, -, row, hrow, hchange, hsupported, he⟩ := setstatus_eq_ok.mp hexec
      obtain ⟨hstate, -⟩ := Prod.mk.inj he
      have hcall : callsOf (is ++ [(ctx, .act (.setstatus submiter owner status))])
          = callsOf is ++ [.switch owner status ctx.now.secSinceEpoch] := callsOf_some rfl
      have hrecord : recordOf owner (callsOf is) = some row := (hrec.rows owner).symm.trans hrow
      have howner : row.owner = owner := owner_of_find? hrow
      have hnext : status = inTurn (switches owner (callsOf is)).length := by
        have hstatus := status_of_record hrecord
        rw [hrec.inTurn owner, getLastD_inTurn] at hstatus
        rw [hstatus] at hchange
        exact (next_iff _).mp ⟨hchange, hsupported⟩
      refine ⟨?_, fun o => ?_, fun o => ?_, fun o ho => ?_, fun o => ?_⟩
      · rw [hstate, adminOf_none rfl]
        exact hrec.admin
      · rw [hstate, hcall]
        refine rows_of_put (c := .switch owner status ctx.now.secSinceEpoch) hrec ?_
          (recordOf_switch hrecord) o
        exact howner
      · rw [hcall]
        by_cases ho : owner = o
        · subst ho
          rw [switches_switch, List.length_append, List.length_singleton, List.range_succ,
            List.map_append, List.map_singleton, ← hnext, ← hrec.inTurn owner]
        · rw [switches_other (c := .switch owner status ctx.now.secSinceEpoch) ho]
          exact hrec.inTurn o
      · rw [hcall, submissions_switch] at ho
        rw [hcall]
        by_cases heq : owner = o
        · subst heq
          rw [recordOf_eq_none.mpr ho] at hrecord
          cases hrecord
        · rw [switches_other (c := .switch owner status ctx.now.secSinceEpoch) heq]
          exact hrec.submitted o ho
      · rw [hcall, submissions_switch]
        exact hrec.fits o

end Steps

/-! ## Runs -/

section Runs
variable {self : Name} {clock : TimePoint} {w : World State} {is : List (Ctx × Input Action)}
  {ctx : Ctx}

/-- In every run from deployment the tables are those of the calls. -/
theorem recorded_of_run (hrun : Transition.Run (contract self).step Transition.Unrestricted
    (genesis clock) is w) : Recorded w is := by
  refine hrun.invariant_inputs (P := fun is w => Recorded w is)
    (fun is w i w' hrec _ hstep => recorded_of_step hrec hstep) ?_
  exact ⟨rfl, fun owner => rfl, fun owner => rfl, fun owner _ => rfl,
    fun owner m hm => absurd hm List.not_mem_nil⟩

/-- In every reachable state, the row of an account is what the accepted calls say of it: the last
profile that was submitted, which keeps to the sizes, the state that it was last switched to, and
the times of the first submission and of the last call. Its switches went on and off in turn. -/
theorem history_of_run (hrun : Transition.Run (contract self).step Transition.Unrestricted
    (genesis clock) is w) (owner : Name) :
    w.state.producers.find? owner.raw = recordOf owner (callsOf is) ∧
    (∀ r, recordOf owner (callsOf is) = some r → r.toProfile.Fits) ∧
    switches owner (callsOf is) = (List.range (switches owner (callsOf is)).length).map inTurn := by
  have hrec := recorded_of_run hrun
  refine ⟨hrec.rows owner, fun r hr => ?_, hrec.inTurn owner⟩
  obtain ⟨m, hm, hprofile⟩ := profile_of_record hr
  rw [hprofile]
  exact hrec.fits owner m hm

/-- Actions order no transfers. -/
theorem outs_of_exec {a : Action} {s : State} {e : Effect State} (h : exec self ctx a s = .ok e) :
    e.2 = [] := by
  cases a with
  | init admin =>
    obtain ⟨-, -, rfl⟩ := init_eq_ok.mp h
    rfl
  | applybp owner p =>
    obtain ⟨-, -, s', -, rfl⟩ := applybp_eq_ok.mp h
    rfl
  | updatebp owner p =>
    obtain ⟨-, -, s', -, rfl⟩ := updatebp_eq_ok.mp h
    rfl
  | addproducer submiter owner p =>
    obtain ⟨-, -, s', -, rfl⟩ := addproducer_eq_ok.mp h
    rfl
  | setstatus submiter owner status =>
    obtain ⟨-, -, row, -, -, -, rfl⟩ := setstatus_eq_ok.mp h
    rfl

/-- An action that the code accepts goes through. -/
theorem step_act_iff {a : Action} (hclock : w.clock ≤ ctx.now) :
    (∃ w', (contract self).step w (ctx, .act a) = .ok w') ↔
      ∃ e, exec self ctx a w.state = .ok e := by
  constructor
  · rintro ⟨w', hstep⟩
    obtain ⟨outs, hrun⟩ := (contract self).run_of_step hstep
    exact ⟨_, hrun⟩
  · rintro ⟨⟨s, outs⟩, hexec⟩
    obtain rfl : outs = [] := outs_of_exec hexec
    exact ⟨⟨s, w.holding, ctx.now⟩, (contract self).step_eq_ok.mpr
      ⟨hclock, Contract.signer?_act _ _, rfl, [], hexec, rfl⟩⟩

/-- In every reachable state, an account applies once and updates from then on, signing for it; only
the admin that was named last submits for others and switches, and only the next state in turn of an
account with a profile. Nothing else stands in the way of these calls. -/
theorem calls_of_run (hrun : Transition.Run (contract self).step Transition.Unrestricted
    (genesis clock) is w) (hclock : w.clock ≤ ctx.now) (submiter owner status : Name) (p : Profile) :
    ((∃ w', (contract self).step w (ctx, .act (.applybp owner p)) = .ok w') ↔
      ctx.hasAuth owner = true ∧ submissions owner (callsOf is) = [] ∧
      ctx.isAccount owner = true ∧ p.Fits) ∧
    ((∃ w', (contract self).step w (ctx, .act (.updatebp owner p)) = .ok w') ↔
      ctx.hasAuth owner = true ∧ submissions owner (callsOf is) ≠ [] ∧
      ctx.isAccount owner = true ∧ p.Fits) ∧
    ((∃ w', (contract self).step w (ctx, .act (.addproducer submiter owner p)) = .ok w') ↔
      ctx.hasAuth submiter = true ∧ submiter = adminOf is ∧ ctx.isAccount owner = true ∧ p.Fits) ∧
    ((∃ w', (contract self).step w (ctx, .act (.setstatus submiter owner status)) = .ok w') ↔
      ctx.hasAuth submiter = true ∧ submiter = adminOf is ∧ submissions owner (callsOf is) ≠ [] ∧
      status = inTurn (switches owner (callsOf is)).length) := by
  have hrec := recorded_of_run hrun
  have hset : (∃ s', setProducer self ctx owner p w.state = .ok s') ↔
      ctx.isAccount owner = true ∧ p.Fits := by
    simp only [setProducer_eq_ok, exists_and_left, exists_eq, and_true]
  have hsome : (recordOf owner (callsOf is)).isSome = true ↔ submissions owner (callsOf is) ≠ [] := by
    rw [Option.isSome_iff_ne_none, ne_eq, recordOf_eq_none]
  simp only [step_act_iff hclock, applybp_eq_ok, updatebp_eq_ok, addproducer_eq_ok,
    hrec.rows owner, hsome, recordOf_eq_none, hrec.admin]
  refine ⟨?_, ?_, ?_, ?_⟩
  · rw [← hset]
    constructor
    · rintro ⟨e, hauth, hnone, s', hs', -⟩
      exact ⟨hauth, hnone, s', hs'⟩
    · rintro ⟨hauth, hnone, s', hs'⟩
      exact ⟨_, hauth, hnone, s', hs', rfl⟩
  · rw [← hset]
    constructor
    · rintro ⟨e, hauth, hfound, s', hs', -⟩
      exact ⟨hauth, hfound, s', hs'⟩
    · rintro ⟨hauth, hfound, s', hs'⟩
      exact ⟨_, hauth, hfound, s', hs', rfl⟩
  · rw [← hset]
    constructor
    · rintro ⟨e, hauth, hadmin, s', hs', -⟩
      exact ⟨hauth, hadmin, s', hs'⟩
    · rintro ⟨hauth, hadmin, s', hs'⟩
      exact ⟨_, hauth, hadmin, s', hs', rfl⟩
  · -- the row holds the state of the last switch, so that a change is the next one in turn
    have hstatus : ∀ r, recordOf owner (callsOf is) = some r →
        ((r.status ≠ status ∧ (status = enable ∨ status = disable)) ↔
          status = inTurn (switches owner (callsOf is)).length) := by
      intro r hr
      rw [status_of_record hr, hrec.inTurn owner, getLastD_inTurn, List.length_map,
        List.length_range]
      exact next_iff _
    simp only [setstatus_eq_ok, hrec.admin, hrec.rows owner]
    constructor
    · rintro ⟨e, hauth, hadmin, r, hr, hchange, hsupported, -⟩
      refine ⟨hauth, hadmin, fun hnone => ?_, (hstatus r hr).mp ⟨hchange, hsupported⟩⟩
      rw [recordOf_eq_none.mpr hnone] at hr
      cases hr
    · rintro ⟨hauth, hadmin, hsubmitted, hturn⟩
      obtain ⟨r, hr⟩ := Option.ne_none_iff_exists'.mp fun h => hsubmitted (recordOf_eq_none.mp h)
      obtain ⟨hchange, hsupported⟩ := (hstatus r hr).mpr hturn
      exact ⟨_, hauth, hadmin, r, hr, hchange, hsupported, rfl⟩

end Runs

/-! ## A producer that is switched on and off -/

namespace Sample

def applybp : Name := .lit "flon.applybp"
def alice : Name := .lit "alice"
def admin : Name := .lit "admin"

/-- A profile with a logo and a name. -/
def profile (orgName : String) : Profile :=
  ⟨"logo".toList, orgName.toList, [], .lit "dao", [], [], []⟩

theorem profile_fits : (profile "Alice & Co").Fits := by
  constructor <;> decide

/-- Alice applies and updates her profile, and the admin switches her on and off. -/
def inputs : List (Ctx × Input Action) :=
  [(.signed applybp 100, .act (.init admin)),
    (.signed alice 101, .act (.applybp alice (profile "Alice"))),
    (.signed admin 102, .act (.setstatus admin alice enable)),
    (.signed alice 103, .act (.updatebp alice (profile "Alice & Co"))),
    (.signed admin 104, .act (.setstatus admin alice disable))]

/-- After these inputs Alice has the updated profile and is switched off. -/
theorem history_of_run_sample :
    ∃ w, Transition.Run (contract applybp).step Transition.Unrestricted (genesis (.ofDays 100))
        inputs w ∧
      w.state.producers.find? alice.raw = some { profile "Alice & Co" with
        owner := alice, status := disable, createdAt := 101 * 86400, updatedAt := 104 * 86400 } := by
  have hreach : Transition.Reaches (contract applybp).step Transition.Unrestricted (fun _ => True)
      inputs (genesis (.ofDays 100)) := by decide
  obtain ⟨w, hrun, -⟩ := Transition.run_of_reaches hreach
  refine ⟨w, hrun, (history_of_run hrun alice).1.trans ?_⟩
  decide

/-- Alice cannot apply again, and is not switched off again. -/
theorem calls_of_run_sample :
    ∃ w, Transition.Run (contract applybp).step Transition.Unrestricted (genesis (.ofDays 100))
        inputs w ∧
      (¬ ∃ w', (contract applybp).step w
        (.signed alice 105, .act (.applybp alice (profile "Alice & Co"))) = .ok w') ∧
      (¬ ∃ w', (contract applybp).step w
        (.signed admin 105, .act (.setstatus admin alice disable)) = .ok w') ∧
      ∃ w', (contract applybp).step w
        (.signed alice 105, .act (.updatebp alice (profile "Alice & Co"))) = .ok w' := by
  have hreach : Transition.Reaches (contract applybp).step Transition.Unrestricted
      (fun w => w.clock ≤ (Ctx.signed alice 105).now ∧ w.clock ≤ (Ctx.signed admin 105).now)
      inputs (genesis (.ofDays 100)) := by decide
  obtain ⟨w, hrun, halice, hadmin⟩ := Transition.run_of_reaches hreach
  obtain ⟨happly, hupdate, -, -⟩ :=
    calls_of_run hrun halice admin alice disable (profile "Alice & Co")
  obtain ⟨-, -, -, hswitch⟩ := calls_of_run hrun hadmin admin alice disable (profile "Alice & Co")
  refine ⟨w, hrun, fun h => ?_, fun h => ?_, hupdate.mpr ⟨by decide, by decide, rfl, profile_fits⟩⟩
  · exact absurd (happly.mp h).2.1 (by decide)
  · exact absurd (hswitch.mp h).2.2.2 (by decide)

end Sample
end Applybp
end ToolkitContracts
