import ToolkitContracts.Airdrop.Payment

/-!
# The whitelist of tokens

Rules are for whitelisted tokens only, and a row of the whitelist has a symbol with a precision.
The index that answers for a token knows its bank and its code. So the three actions that ask it
decide about the token they are called with exactly when the row with that bank and code, if there
is one, has the precision as well; there is never a second such row.
-/

namespace ToolkitContracts
namespace Airdrop

/-- The whitelist has a row for exactly this token. -/
def State.HasToken (s : State) (x : ExtendedSymbol) : Prop :=
  ∃ t ∈ s.tokens, t.tokenBank = x.contract ∧ t.sym = x.sym

/-- The rows with the bank and the code of a token are for exactly this token. -/
def State.ExactFor (s : State) (x : ExtendedSymbol) : Prop :=
  ∀ t ∈ s.tokens, t.tokenBank = x.contract → t.sym.code = x.sym.code → t.sym = x.sym

/-- No two rows have one bank and one code. -/
def State.CodesDistinct (s : State) : Prop :=
  ∀ t ∈ s.tokens, ∀ t' ∈ s.tokens, t.tokenBank = t'.tokenBank → t.sym.code = t'.sym.code → t = t'

/-- The id that `addtoken` would hand out is free. It can be taken once the counter has been
set back by another `init` or has wrapped around. -/
def State.NextTokenIdFree (s : State) : Prop :=
  s.tokens.find? (u64 (s.gstate.lastTokenId + 1)) = none

/-! ## The index -/

section Lookup
variable {s : State} {x : ExtendedSymbol} {t : Token}

theorem findToken_eq_some (h : s.findToken x.contract x.sym = some t) :
    t ∈ s.tokens ∧ t.tokenBank = x.contract ∧ t.sym.code = x.sym.code := by
  have hkey := List.find?_some h
  simp only [decide_eq_true_eq] at hkey
  exact ⟨List.mem_of_find?_eq_some h, hkey⟩

theorem findToken_eq_none : s.findToken x.contract x.sym = none ↔
    ∀ t ∈ s.tokens, t.tokenBank = x.contract → t.sym.code ≠ x.sym.code := by
  simp [State.findToken, Table.mem_def]

/-- The index finds a row for the token. -/
theorem found_of_hasToken (h : s.HasToken x) : (s.findToken x.contract x.sym).isSome = true := by
  obtain ⟨t, ht, hbank, hsym⟩ := h
  by_contra hnone
  rw [Option.not_isSome_iff_eq_none] at hnone
  exact findToken_eq_none.mp hnone t ht hbank (congrArg Symbol.code hsym)

/-- The index answers for exactly the token when it can find no other row. -/
theorem exactFor_iff (hdistinct : s.CodesDistinct) : s.ExactFor x ↔
    ((s.findToken x.contract x.sym).isSome = true → s.HasToken x) := by
  constructor
  · intro hexact hfound
    obtain ⟨t, ht⟩ := Option.isSome_iff_exists.mp hfound
    obtain ⟨hmem, hbank, hcode⟩ := findToken_eq_some ht
    exact ⟨t, hmem, hbank, hexact t hmem hbank hcode⟩
  · intro hhas t ht hbank hcode
    have hfound : (s.findToken x.contract x.sym).isSome = true := by
      by_contra hnone
      rw [Option.not_isSome_iff_eq_none] at hnone
      exact findToken_eq_none.mp hnone t ht hbank hcode
    obtain ⟨t', ht', hbank', hsym'⟩ := hhas hfound
    have hsame : t = t' := by
      apply hdistinct t ht t' ht' (hbank.trans hbank'.symm)
      rw [hsym', hcode]
    rw [hsame, hsym']

end Lookup

/-! ## The calls -/

/-- The checks of a call other than the lookup of its token. -/
def Admitted (account : Name) (ctx : Ctx) (s : State) : Action → Prop
  | .addtoken tokenBank sym =>
    (ctx.hasAuth s.gstate.admin = true ∨ ctx.hasAuth account = true) ∧
      (tokenBank.raw ≠ 0 ∧ ctx.isAccount tokenBank = true) ∧ sym.isValid = true
  | .deltoken _ _ => ctx.hasAuth s.gstate.admin = true ∨ ctx.hasAuth account = true
  | .setclaim planId symb singleClaim allocated =>
    (ctx.hasAuth s.gstate.admin = true ∨ ctx.hasAuth account = true) ∧
      singleClaim.symbol = symb.sym ∧ singleClaim.symbol = allocated.symbol ∧
      ctx.isAccount symb.contract = true ∧ 0 < singleClaim.amount ∧
      singleClaim.amount ≤ allocated.amount ∧ (s.plans.find? planId).isSome = true
  | _ => True

/-- What the whitelist decides about a call: a rule is set for a token that has a row, a row
is added where there is none, and removed where there is one; no row of another token goes. -/
def RespectsWhitelist (account : Name) (ctx : Ctx) (s : State) : Action → Prop
  | .addtoken tokenBank sym => Admitted account ctx s (.addtoken tokenBank sym) →
      ((∃ e, exec account ctx (.addtoken tokenBank sym) s = .ok e) ↔
        ¬ s.HasToken ⟨sym, tokenBank⟩) ∧
      ∀ e, exec account ctx (.addtoken tokenBank sym) s = .ok e → ∀ t ∈ s.tokens, t ∈ e.1.tokens
  | .deltoken tokenBank sym => Admitted account ctx s (.deltoken tokenBank sym) →
      ((∃ e, exec account ctx (.deltoken tokenBank sym) s = .ok e) ↔
        s.HasToken ⟨sym, tokenBank⟩) ∧
      ∀ e, exec account ctx (.deltoken tokenBank sym) s = .ok e →
        ∀ t ∈ s.tokens, ¬ (t.tokenBank = tokenBank ∧ t.sym = sym) → t ∈ e.1.tokens
  | .setclaim planId symb singleClaim allocated =>
    ∀ e, exec account ctx (.setclaim planId symb singleClaim allocated) s = .ok e → s.HasToken symb
  | _ => True

/-- The state in which a call is decided by its own token. -/
def DecidedExactly (s : State) : Action → Prop
  | .addtoken tokenBank sym => s.ExactFor ⟨sym, tokenBank⟩ ∧
      (s.HasToken ⟨sym, tokenBank⟩ ∨ s.NextTokenIdFree)
  | .deltoken tokenBank sym => s.ExactFor ⟨sym, tokenBank⟩
  | .setclaim _ symb _ _ => s.ExactFor symb
  | _ => True

section Calls
variable {account : Name} {ctx : Ctx} {s s' : State} {tokenBank : Name} {sym : Symbol}
  {planId : ℕ} {symb : ExtendedSymbol} {singleClaim allocated : Asset} {outs : List Transfer}

theorem addtoken_accepted : (∃ e, exec account ctx (.addtoken tokenBank sym) s = .ok e) ↔
    Admitted account ctx s (.addtoken tokenBank sym) ∧ s.findToken tokenBank sym = none ∧
      s.NextTokenIdFree := by
  simp only [exec, addtoken, requireAdmin, bind_eq_ok, check_eq_ok, checkc_eq_ok, pure_eq_ok,
    exists_const, emplace_eq_ok, Option.isNone_iff_eq_none, Admitted, State.NextTokenIdFree]
  constructor
  · rintro ⟨e, hauth, hbank, hsym, hnone, tokens, ⟨hfree, -⟩, -⟩
    exact ⟨⟨hauth, hbank, hsym⟩, hnone, hfree⟩
  · rintro ⟨⟨hauth, hbank, hsym⟩, hnone, hfree⟩
    exact ⟨_, hauth, hbank, hsym, hnone, _, ⟨hfree, rfl⟩, rfl⟩

theorem tokens_of_addtoken
    (h : exec account ctx (.addtoken tokenBank sym) s = .ok (s', outs)) :
    s.findToken tokenBank sym = none ∧ ∃ new : Token, new.tokenBank = tokenBank ∧ new.sym = sym ∧
      ∀ t, t ∈ s'.tokens ↔ t = new ∨ t ∈ s.tokens := by
  simp only [exec, addtoken, requireAdmin, bind_eq_ok, check_eq_ok, checkc_eq_ok, pure_eq_ok,
    exists_const, Option.isNone_iff_eq_none, Prod.mk.injEq] at h
  obtain ⟨-, -, -, hnone, tokens, hput, rfl, -⟩ := h
  refine ⟨hnone, ⟨u64 (s.gstate.lastTokenId + 1), tokenBank, sym, ctx.now, ctx.now⟩, rfl, rfl, ?_⟩
  intro t
  exact mem_of_emplace hput

theorem deltoken_accepted : (∃ e, exec account ctx (.deltoken tokenBank sym) s = .ok e) ↔
    Admitted account ctx s (.deltoken tokenBank sym) ∧
      (s.findToken tokenBank sym).isSome = true := by
  simp only [exec, deltoken, requireAdmin, bind_eq_ok, check_eq_ok, require_eq_ok, pure_eq_ok,
    exists_const, Admitted, Option.isSome_iff_exists]
  constructor
  · rintro ⟨e, hauth, t, ht, -⟩
    exact ⟨hauth, t, ht⟩
  · rintro ⟨hauth, t, ht⟩
    exact ⟨_, hauth, t, ht, rfl⟩

theorem tokens_of_deltoken
    (h : exec account ctx (.deltoken tokenBank sym) s = .ok (s', outs)) :
    ∃ t, s.findToken tokenBank sym = some t ∧ s'.tokens = s.tokens.erase t.id := by
  simp only [exec, deltoken, requireAdmin, bind_eq_ok, check_eq_ok, require_eq_ok, pure_eq_ok,
    exists_const, Prod.mk.injEq] at h
  obtain ⟨-, t, ht, rfl, -⟩ := h
  exact ⟨t, ht, rfl⟩

theorem setclaim_accepted :
    (∃ e, exec account ctx (.setclaim planId symb singleClaim allocated) s = .ok e) ↔
      Admitted account ctx s (.setclaim planId symb singleClaim allocated) ∧
        (s.findToken symb.contract symb.sym).isSome = true := by
  simp only [exec, setclaim, requireAdmin, assertTokenAllowed, getPlan, bind_eq_ok, check_eq_ok,
    checkc_eq_ok, checkcThat_eq_ok, require_eq_ok, pure_eq_ok, exists_const, Admitted,
    Option.isSome_iff_exists]
  constructor
  · rintro ⟨e, hauth, -, hsingle, -, hallocated, haccount, -, hpos, -, hle, hfound, plan, hplan, -⟩
    exact ⟨⟨hauth, hsingle, hallocated, haccount, hpos, hle, plan, hplan⟩, hfound⟩
  · rintro ⟨⟨hauth, hsingle, hallocated, haccount, hpos, hle, plan, hplan⟩, hfound⟩
    exact ⟨_, hauth, ⟨hsingle⟩, hsingle, ⟨hallocated⟩, hallocated, haccount, ⟨hpos⟩, hpos, ⟨hle⟩,
      hle, hfound, plan, hplan, rfl⟩

/-- A call respects the whitelist exactly when it is decided by its own token, or refused for
another reason. -/
theorem respects_iff_of_distinct (hdistinct : s.CodesDistinct) (a : Action) :
    RespectsWhitelist account ctx s a ↔ (Admitted account ctx s a → DecidedExactly s a) := by
  cases a with
  | addtoken tokenBank sym =>
    apply imp_congr_right
    intro hadmitted
    have hhas := found_of_hasToken (s := s) (x := ⟨sym, tokenBank⟩)
    rw [addtoken_accepted, DecidedExactly, exactFor_iff hdistinct]
    rw [← Option.not_isSome_iff_eq_none]
    constructor
    · rintro ⟨haccept, -⟩
      constructor
      · intro hfound
        by_contra hnot
        exact (haccept.mpr hnot).2.1 hfound
      · by_cases hx : s.HasToken ⟨sym, tokenBank⟩
        · exact Or.inl hx
        · exact Or.inr (haccept.mpr hx).2.2
    · rintro ⟨hexact, hfree⟩
      refine ⟨⟨fun h hx => h.2.1 (hhas hx), ?_⟩, ?_⟩
      · intro hx
        exact ⟨hadmitted, fun hfound => hx (hexact hfound), hfree.resolve_left hx⟩
      · rintro ⟨s', outs⟩ hexec t ht
        obtain ⟨-, new, -, -, hmem⟩ := tokens_of_addtoken hexec
        exact (hmem t).mpr (Or.inr ht)
  | deltoken tokenBank sym =>
    apply imp_congr_right
    intro hadmitted
    have hhas := found_of_hasToken (s := s) (x := ⟨sym, tokenBank⟩)
    rw [deltoken_accepted, DecidedExactly]
    constructor
    · rintro ⟨haccept, -⟩
      rw [exactFor_iff hdistinct]
      intro hfound
      exact haccept.mp ⟨hadmitted, hfound⟩
    · intro hexact
      refine ⟨⟨fun h => (exactFor_iff hdistinct).mp hexact h.2, fun h => ⟨hadmitted, hhas h⟩⟩, ?_⟩
      rintro ⟨s', outs⟩ hexec t ht hother
      obtain ⟨found, hfound, htokens⟩ := tokens_of_deltoken hexec
      obtain ⟨hmem, hbank, hcode⟩ := findToken_eq_some (x := ⟨sym, tokenBank⟩) hfound
      rw [htokens, Table.mem_erase]
      refine ⟨ht, fun hid => hother ?_⟩
      rw [Table.eq_of_key_eq ht hmem hid]
      exact ⟨hbank, hexact found hmem hbank hcode⟩
  | setclaim planId symb singleClaim allocated =>
    have haccepted : (∃ e, exec account ctx (.setclaim planId symb singleClaim allocated) s = .ok e)
        ↔ _ := setclaim_accepted
    rw [RespectsWhitelist, DecidedExactly, exactFor_iff hdistinct]
    constructor
    · intro hrespects hadmitted hfound
      obtain ⟨e, he⟩ := haccepted.mpr ⟨hadmitted, hfound⟩
      exact hrespects e he
    · intro hexact e he
      obtain ⟨hadmitted, hfound⟩ := haccepted.mp ⟨e, he⟩
      exact hexact hadmitted hfound
  | init | addoracle | deloracle | addplan | delclaim | setplan | delplan | claim =>
    exact iff_of_true trivial fun _ => trivial

/-- The other actions leave the whitelist alone. -/
theorem tokens_of_exec {a : Action} (h : exec account ctx a s = .ok (s', outs))
    (hadd : ∀ tokenBank sym, a ≠ .addtoken tokenBank sym)
    (hdel : ∀ tokenBank sym, a ≠ .deltoken tokenBank sym) : s'.tokens = s.tokens := by
  cases a with
  | addtoken tokenBank sym => exact absurd rfl (hadd tokenBank sym)
  | deltoken tokenBank sym => exact absurd rfl (hdel tokenBank sym)
  | init | addoracle | deloracle | addplan | setclaim | delclaim | setplan | delplan | claim =>
    simp only [exec, Airdrop.init, addoracle, deloracle, addplan, setclaim, delclaim, setplan,
      delplan, claim, requireAdmin, bind_eq_ok, pure_eq_ok, Prod.mk.injEq] at h
    grind

end Calls

/-! ## Runs -/

section Runs
variable {account : Name} {w w' : World State} {i : Ctx × Input Action}
  {is : List (Ctx × Input Action)} {clock : TimePoint}

theorem codesDistinct_step (h : (contract account).step w i = .ok w')
    (hdistinct : w.state.CodesDistinct) : w'.state.CodesDistinct := by
  obtain ⟨outs, hrun⟩ := (contract account).run_of_step h
  obtain ⟨ctx, input⟩ := i
  cases input with
  | notify n =>
    simp only [Contract.run, contract, Except.ok.injEq, Prod.mk.injEq] at hrun
    rw [← hrun.1]
    exact hdistinct
  | act a =>
    have hexec : exec account ctx a w.state = .ok (w'.state, outs) := hrun
    cases a with
    | addtoken tokenBank sym =>
      obtain ⟨hnone, new, hbank, hsym, hmem⟩ := tokens_of_addtoken hexec
      have hold := (findToken_eq_none (x := ⟨sym, tokenBank⟩)).mp hnone
      intro t ht t' ht' hbanks hcodes
      -- a row that is not new has another bank or another code than the new one
      rcases (hmem t).mp ht with rfl | ht
      · rcases (hmem t').mp ht' with rfl | ht'
        · rfl
        · refine absurd ?_ (hold t' ht' (hbanks.symm.trans hbank))
          rw [← hcodes, hsym]
      · rcases (hmem t').mp ht' with rfl | ht'
        · refine absurd ?_ (hold t ht (hbanks.trans hbank))
          rw [hcodes, hsym]
        · exact hdistinct t ht t' ht' hbanks hcodes
    | deltoken tokenBank sym =>
      obtain ⟨found, -, htokens⟩ := tokens_of_deltoken hexec
      intro t ht t' ht'
      rw [htokens, Table.mem_erase] at ht ht'
      exact hdistinct t ht.1 t' ht'.1
    | init | addoracle | deloracle | addplan | setclaim | delclaim | setplan | delplan | claim =>
      have htokens := tokens_of_exec hexec (by simp) (by simp)
      rw [State.CodesDistinct, htokens]
      exact hdistinct

theorem codes_distinct
    (hrun : Transition.Run (contract account).step Transition.Unrestricted (genesis clock) is w) :
    w.state.CodesDistinct :=
  hrun.invariant (fun _ _ _ hw _ hstep => codesDistinct_step hstep hw)
    fun t ht => absurd ht (Table.not_mem_empty t)

/-- After any run a call respects the whitelist exactly when it is refused for another reason or
the rows with the bank and code of its token are for that token; and, where `addtoken` is called
for a token without a row, when the id it hands out is free. -/
theorem respects_whitelist_iff
    (hrun : Transition.Run (contract account).step Transition.Unrestricted (genesis clock) is w)
    (ctx : Ctx) (a : Action) : RespectsWhitelist account ctx w.state a ↔
      (Admitted account ctx w.state a → DecidedExactly w.state a) :=
  respects_iff_of_distinct (codes_distinct hrun) a

end Runs

/-! ## A token with another precision -/

namespace Sample

/-- FLON with four digits instead of eight. -/
def shortFlon : ExtendedSymbol := ⟨.lit "FLON" 4, bank⟩

/-- FLON is whitelisted with eight digits, and there is a plan. -/
def whitelisted : List (Ctx × Input Action) :=
  [(.signed account 100, .act (.addtoken flon.contract flon.sym)),
   (.signed account 100, .act (.addplan [] (int64 0) (int64 (10 ^ 18))))]

def setclaimOf (x : ExtendedSymbol) : Action :=
  .setclaim 1 x (quant x (int64 10)) (quant x (int64 100))

/-- A rule for FLON with four digits is accepted. -/
theorem other_precision_accepted :
    ¬ ∀ (is : List (Ctx × Input Action)) (w : World State) (ctx : Ctx) (a : Action),
      Transition.Run (contract account).step Transition.Unrestricted (genesis (.ofDays 100)) is w →
      RespectsWhitelist account ctx w.state a := by
  intro hclaim
  have hreach : Transition.Reaches (contract account).step Transition.Unrestricted (fun w =>
      (¬ ∃ t ∈ w.state.tokens.rows, t.tokenBank = bank ∧ t.sym = shortFlon.sym) ∧
      Transition.Succeeds (exec account (.signed account 100) (setclaimOf shortFlon) w.state)
        fun _ => True)
      whitelisted (genesis (.ofDays 100)) := by decide
  obtain ⟨w, hrun, hnone, hcall⟩ := Transition.run_of_reaches hreach
  obtain ⟨e, hexec, -⟩ := Transition.succeeds_iff.mp hcall
  exact hnone (hclaim _ w (.signed account 100) (setclaimOf shortFlon) hrun e hexec)

/-- A rule for FLON with eight digits respects the whitelist. -/
theorem respects_whitelist_sample :
    ∃ w, Transition.Run (contract account).step Transition.Unrestricted (genesis (.ofDays 100))
        whitelisted w ∧
      RespectsWhitelist account (.signed account 100) w.state (setclaimOf flon) := by
  have hreach : Transition.Reaches (contract account).step Transition.Unrestricted (fun w =>
      ∀ t ∈ w.state.tokens.rows, t.tokenBank = bank → t.sym.code = flon.sym.code →
        t.sym = flon.sym) whitelisted (genesis (.ofDays 100)) := by decide
  obtain ⟨w, hrun, hexact⟩ := Transition.run_of_reaches hreach
  exact ⟨w, hrun, (respects_whitelist_iff hrun _ _).mpr fun _ => hexact⟩

end Sample

end Airdrop
end ToolkitContracts
