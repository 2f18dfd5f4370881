import ToolkitContracts.TokenSummary.Listing

/-!
# Whole runs and the summary

A run whose calls keep off each other's codes is a run of the set of pairs. Without that
condition a call agrees with the set exactly when it meets it, in every state that a run
reaches. What `view` reports is right in each of them: one line for each listed pair of which
the account has a positive balance.
-/

namespace ToolkitContracts
namespace TokenSummary

/-! ## The summary of an account -/

section View
variable (accounts : Name → Name → ℕ → Option Asset) (account : Name)

/-- What the account holds of a pair. -/
def held (bank : Name) (code : ℕ) : ℤ := (accounts bank account code).elim 0 Asset.amount

/-- The line of a pair. -/
def line (pair : Name × ℕ) : TokenInfo where
  code := pair.1
  balance := (accounts pair.1 account pair.2).elim [] fun bal =>
    formatAmount bal.amount bal.symbol.precision
  coin := (accounts pair.1 account pair.2).elim [] fun bal => Symbol.codeText bal.symbol.code

/-- `view` succeeds, and its lines are those of the listed pairs that the account has a positive
balance of, one for each. -/
def ViewExact (s : State) : Prop :=
  ∃ pairs : List (Name × ℕ), pairs.Nodup ∧
    (∀ bank code, (bank, code) ∈ pairs ↔
      (s.listing bank code).isSome = true ∧ 0 < held accounts account bank code) ∧
    view accounts account s = .ok (pairs.map (line accounts account))

end View

/-- The pair that a row lists. -/
def TokenCfg.pair (cfg : TokenCfg) : Name × ℕ := (cfg.bank, cfg.sym.code)

/-- Every listed symbol is a valid one. -/
def AllValid (s : State) : Prop := ∀ row ∈ s.tokens, row.sym.isValid = true

section Views
variable {accounts : Name → Name → ℕ → Option Asset} {account : Name} {s : State}

/-- An account without a row in the `accounts` table holds nothing. -/
theorem balance_spec (row : TokenCfg) (hvalid : row.sym.isValid = true) :
    ∃ bal, balance accounts row.bank row.sym account = .ok bal ∧
      bal.amount = held accounts account row.bank row.sym.code ∧
      (0 < bal.amount → ⟨row.bank, formatAmount bal.amount bal.symbol.precision,
        Symbol.codeText bal.symbol.code⟩ = line accounts account row.pair) := by
  unfold balance held line TokenCfg.pair
  cases haccount : accounts row.bank account row.sym.code with
  | some bal => exact ⟨bal, rfl, rfl, fun _ => rfl⟩
  | none =>
    obtain ⟨zero, hzero, hamount, -⟩ :=
      Asset.new_of_range (x := 0) (by decide) (by decide) hvalid
    exact ⟨zero, hzero, hamount, fun hpos => absurd hpos (by omega)⟩

/-- The loop over the rows collects the lines of the positive balances. -/
theorem viewEach_eq (rows : List TokenCfg) (hvalid : ∀ row ∈ rows, row.sym.isValid = true) :
    viewEach accounts account rows
      = .ok ((rows.filter fun row =>
          decide (0 < held accounts account row.bank row.sym.code)).map fun row =>
            line accounts account row.pair) := by
  induction rows with
  | nil => rfl
  | cons row rows ih =>
    have hrow : row.sym.isValid = true := hvalid row (List.mem_cons_self ..)
    obtain ⟨zero, hzero, -⟩ := Asset.new_of_range (x := 0) (by decide) (by decide) hrow
    obtain ⟨bal, hbal, hamount, hline⟩ := balance_spec row hrow
    unfold viewEach
    rw [hzero, ok_bind, hbal, ok_bind, ih fun r hr => hvalid r (List.mem_cons_of_mem _ hr),
      ok_bind, List.filter_cons, ← hamount]
    by_cases hpos : 0 < bal.amount
    · rw [if_pos hpos, if_pos (decide_eq_true hpos), hline hpos]
      rfl
    · rw [if_neg hpos, if_neg (by simpa using hpos)]
      rfl

theorem listing_isSome {bank : Name} {code : ℕ} :
    (s.listing bank code).isSome = true ↔ ∃ row ∈ s.tokens.rows, row.pair = (bank, code) := by
  unfold State.listing TokenCfg.pair
  simp only [Option.isSome_map, List.find?_isSome, decide_eq_true_eq, Prod.mk.injEq]

/-- The lines of `view` are those of the listed pairs with a positive balance. -/
theorem viewExact_of_valid (h : AllValid s) : ViewExact accounts account s := by
  refine ⟨(s.tokens.rows.filter fun row =>
    decide (0 < held accounts account row.bank row.sym.code)).map TokenCfg.pair, ?_, ?_, ?_⟩
  · apply List.pairwise_map.mpr
    apply (s.tokens.sorted.filter _).imp
    intro a b hlt hpair
    rw [TokenCfg.key_eq, TokenCfg.key_eq] at hlt
    have hcode : a.sym.code = b.sym.code := congrArg Prod.snd hpair
    omega
  · intro bank code
    rw [listing_isSome, List.mem_map]
    constructor
    · rintro ⟨row, hrow, hpair⟩
      obtain ⟨hmem, hpos⟩ := List.mem_filter.mp hrow
      have hbank : row.bank = bank := congrArg Prod.fst hpair
      have hcode : row.sym.code = code := congrArg Prod.snd hpair
      rw [hbank, hcode] at hpos
      exact ⟨⟨row, hmem, hpair⟩, of_decide_eq_true hpos⟩
    · rintro ⟨⟨row, hmem, hpair⟩, hpos⟩
      have hbank : row.bank = bank := congrArg Prod.fst hpair
      have hcode : row.sym.code = code := congrArg Prod.snd hpair
      refine ⟨row, List.mem_filter.mpr ⟨hmem, ?_⟩, hpair⟩
      rw [hbank, hcode]
      exact decide_eq_true hpos
  · rw [List.map_map]
    exact viewEach_eq _ h

end Views

/-! ## Whole runs -/

section Runs
variable {self : Name} {w w' : World State} {i : Ctx × Input Action} {clock : TimePoint}
  {is : List (Ctx × Input Action)}

/-- Only valid symbols are ever listed. -/
theorem allValid_of_step (h : AllValid w.state) (hs : (contract self).step w i = .ok w') :
    AllValid w'.state := by
  obtain ⟨outs, hrun⟩ := (contract self).run_of_step hs
  rcases i with ⟨ctx, n | a⟩
  · have hsame : Except.ok (w.state, []) = Except.ok (w'.state, outs) := hrun
    rw [Except.ok.injEq, Prod.mk.injEq] at hsame
    rw [← hsame.1]
    exact h
  · have hexec : exec self ctx a w.state = .ok (w'.state, outs) := hrun
    cases a with
    | init admin =>
      simp only [exec, init, bind_eq_ok, Ctx.requireAuth_eq_ok, pure_eq_ok, exists_const,
        Prod.mk.injEq] at hexec
      rw [← hexec.2.1]
      exact h
    | addtoken bank sym =>
      simp only [exec, addtoken, bind_eq_ok, check_eq_ok, Ctx.requireAuth_eq_ok, pure_eq_ok,
        exists_const, emplace_eq_ok, Prod.mk.injEq] at hexec
      obtain ⟨-, -, hsym, -, tokens, ⟨-, htokens⟩, hstate, -⟩ := hexec
      rw [← hstate, htokens]
      exact Table.forall_put h hsym
    | deltoken bank sym =>
      simp only [exec, deltoken, bind_eq_ok, Ctx.requireAuth_eq_ok, require_eq_ok, pure_eq_ok,
        exists_const, Prod.mk.injEq] at hexec
      obtain ⟨-, row, -, hstate, -⟩ := hexec
      rw [← hstate]
      exact Table.forall_erase h

/-- A step that keeps off other banks' codes is a step of the set of pairs. -/
theorem listing_of_step (hok : Separate w i) (hs : (contract self).step w i = .ok w') :
    w.state.listing.step (opOf i) = .ok w'.state.listing := by
  obtain ⟨outs, hrun⟩ := (contract self).run_of_step hs
  rcases i with ⟨ctx, n | a⟩
  · have hsame : Except.ok (w.state, []) = Except.ok (w'.state, outs) := hrun
    rw [Except.ok.injEq, Prod.mk.injEq] at hsame
    rw [← hsame.1]
    rfl
  · have hexec : exec self ctx a w.state = .ok (w'.state, outs) := hrun
    cases a with
    | init admin =>
      simp only [exec, init, bind_eq_ok, Ctx.requireAuth_eq_ok, pure_eq_ok, exists_const,
        Prod.mk.injEq] at hexec
      rw [← hexec.2.1]
      rfl
    | addtoken bank sym =>
      have hexec' : addtoken ctx bank sym w.state = .ok (w'.state, outs) := hexec
      simp only [exec, addtoken, bind_eq_ok, check_eq_ok, Ctx.requireAuth_eq_ok,
        exists_const] at hexec
      exact ((addtoken_agrees_iff hexec.1 hexec.2.1 hexec.2.2.1).mpr hok _).mp ⟨_, hexec', rfl⟩
    | deltoken bank sym =>
      have hexec' : deltoken ctx bank sym w.state = .ok (w'.state, outs) := hexec
      simp only [exec, deltoken, bind_eq_ok, Ctx.requireAuth_eq_ok, exists_const] at hexec
      exact ((deltoken_agrees_iff hexec.1).mpr hok _).mp ⟨_, hexec', rfl⟩

/-- A run whose calls name no code under which another bank is listed is a run of the set of
pairs. In every state that any run reaches, a call of the administrator agrees with the set
exactly when it names no such code, and `view` is exact. -/
theorem token_list_refines (self : Name) (clock : TimePoint) :
    (∀ is w, Transition.Run (contract self).step Separate (genesis clock) is w →
      Transition.Run Listing.step Transition.Unrestricted Listing.empty (is.map opOf)
        w.state.listing) ∧
    ∀ is w, Transition.Run (contract self).step Transition.Unrestricted (genesis clock) is w →
      (∀ ctx bank sym, ctx.hasAuth w.state.gstate.admin = true → ctx.isAccount bank = true →
        sym.isValid = true →
          (Agrees (exec self ctx (.addtoken bank sym) w.state) (w.state.listing.add bank sym) ↔
            Unshared w.state bank sym) ∧
          (Agrees (exec self ctx (.deltoken bank sym) w.state) (w.state.listing.del bank sym) ↔
            Unshared w.state bank sym)) ∧
      ∀ accounts account, ViewExact accounts account w.state := by
  constructor
  · intro is w hrun
    exact hrun.simulates (fun w => w.state.listing) opOf fun _ _ _ hok hs =>
      listing_of_step hok hs
  · intro is w hrun
    constructor
    · intro ctx bank sym hauth hbank hsym
      exact ⟨addtoken_agrees_iff hauth hbank hsym, deltoken_agrees_iff hauth⟩
    · intro accounts account
      apply viewExact_of_valid
      apply hrun.invariant (P := fun w => AllValid w.state)
      · intro w i w' ih _ hs
        exact allValid_of_step ih hs
      · intro row hrow
        exact absurd hrow (Table.not_mem_empty row)

end Runs

/-! ## Two banks with one code -/

namespace Sample

def account : Name := .lit "tokensummary"
def admin : Name := .lit "flonian"
def bank : Name := .lit "flon.mtoken"
def otherBank : Name := .lit "bridge.token"
def usdt : Symbol := .lit "USDT" 6

/-- The USDT of flon.mtoken is listed. -/
def setup : List (Ctx × Input Action) := [(.signed admin 100, .act (.addtoken bank usdt))]

/-- Removing the USDT of a bank that is not listed removes the one that is. -/
theorem other_bank_removed :
    ¬ ∀ (is : List (Ctx × Input Action)) (w : World State),
      Transition.Run (contract account).step Transition.Unrestricted (genesis (.ofDays 100)) is w →
      ∀ (ctx : Ctx) (bank : Name) (sym : Symbol), ctx.hasAuth w.state.gstate.admin = true →
        ctx.isAccount bank = true → sym.isValid = true →
          Agrees (exec account ctx (.addtoken bank sym) w.state) (w.state.listing.add bank sym) ∧
          Agrees (exec account ctx (.deltoken bank sym) w.state)
            (w.state.listing.del bank sym) := by
  intro hclaim
  have hreach : Transition.Reaches (contract account).step Transition.Unrestricted (fun w =>
      (Ctx.signed admin 100).hasAuth w.state.gstate.admin = true ∧
      w.state.listing otherBank usdt.code = none ∧
      Transition.Succeeds (exec account (.signed admin 100) (.deltoken otherBank usdt) w.state)
        fun e => e.1.listing bank usdt.code = none)
      setup (genesis (.ofDays 100)) := by decide
  obtain ⟨w, hrun, hauth, hunlisted, hdel⟩ := Transition.run_of_reaches hreach
  obtain ⟨e, hexec, -⟩ := Transition.succeeds_iff.mp hdel
  have hagrees := (hclaim _ w hrun _ otherBank usdt hauth rfl (by decide)).2
  have hl := (hagrees _).mp ⟨e, hexec, rfl⟩
  unfold Listing.del at hl
  rw [hunlisted] at hl
  cases hl

/-- With one USDT listed, its bank can remove it as from a set, and no other bank can add one. -/
theorem token_list_refines_sample :
    ∃ w, Transition.Run (contract account).step Separate (genesis (.ofDays 100)) setup w ∧
      Transition.Run Listing.step Transition.Unrestricted Listing.empty
        [.add bank usdt] w.state.listing ∧
      Agrees (exec account (.signed admin 100) (.deltoken bank usdt) w.state)
        (w.state.listing.del bank usdt) ∧
      ¬ Agrees (exec account (.signed admin 100) (.addtoken otherBank usdt) w.state)
        (w.state.listing.add otherBank usdt) := by
  have hreach : Transition.Reaches (contract account).step Separate (fun w =>
      (Ctx.signed admin 100).hasAuth w.state.gstate.admin = true ∧
      Unshared w.state bank usdt ∧ ¬ Unshared w.state otherBank usdt)
      setup (genesis (.ofDays 100)) := by decide
  obtain ⟨w, hrun, hauth, hown, hother⟩ := Transition.run_of_reaches hreach
  have hall : Transition.Run (contract account).step Transition.Unrestricted
      (genesis (.ofDays 100)) setup w := hrun.relax fun _ _ _ => trivial
  have hcalls := ((token_list_refines account (.ofDays 100)).2 setup w hall).1 (.signed admin 100)
  refine ⟨w, hrun, (token_list_refines account (.ofDays 100)).1 setup w hrun, ?_, ?_⟩
  · exact (hcalls bank usdt hauth rfl (by decide)).2.mpr hown
  · intro hagrees
    exact hother ((hcalls otherBank usdt hauth rfl (by decide)).1.mp hagrees)

end Sample

end TokenSummary
end ToolkitContracts
