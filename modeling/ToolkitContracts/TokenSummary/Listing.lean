import ToolkitContracts.TokenSummary.Model

/-!
# The list of tokens as a set of pairs

The composite key is there to let several banks list a token of one symbol code. A
`Listing` says what the list is for: it has for each pair of a bank and a code at most one
symbol, `add` wants the pair to be new and `del` wants it to be there.

The narrowed key of a row is its symbol code alone. So the table is that set of pairs as
long as no two banks meet in one code, and a call that names a code under which another bank
is listed does something else: `addtoken` refuses the pair, and `deltoken` removes the other
bank's row.
-/

namespace ToolkitContracts
namespace TokenSummary

/-! ## The set -/

/-- For each pair of a bank and a symbol code, the symbol it is listed with. -/
def Listing : Type := Name → ℕ → Option Symbol

namespace Listing

def empty : Listing := fun _ _ => none

def set (l : Listing) (bank : Name) (code : ℕ) (entry : Option Symbol) : Listing :=
  fun b c => if b = bank ∧ c = code then entry else l b c

/-- A new pair is listed. -/
def add (l : Listing) (bank : Name) (sym : Symbol) : Except Unit Listing :=
  match l bank sym.code with
  | none => .ok (l.set bank sym.code (some sym))
  | some _ => .error ()

/-- A listed pair is removed. -/
def del (l : Listing) (bank : Name) (sym : Symbol) : Except Unit Listing :=
  match l bank sym.code with
  | none => .error ()
  | some _ => .ok (l.set bank sym.code none)

/-- The operations on a set of pairs. -/
inductive Op where
  | add (bank : Name) (sym : Symbol)
  | del (bank : Name) (sym : Symbol)
  | other

def step (l : Listing) : Op → Except Unit Listing
  | .add bank sym => l.add bank sym
  | .del bank sym => l.del bank sym
  | .other => .ok l

end Listing

/-- The operation on the set that an input stands for. -/
def opOf (i : Ctx × Input Action) : Listing.Op :=
  match i.2 with
  | .act (.addtoken bank sym) => .add bank sym
  | .act (.deltoken bank sym) => .del bank sym
  | .act (.init _) | .notify _ => .other

/-- The set of pairs that a table holds. -/
def State.listing (s : State) : Listing := fun bank code =>
  (s.tokens.rows.find? fun row => decide (row.bank = bank ∧ row.sym.code = code)).map TokenCfg.sym

/-- A call succeeds when the operation does, and then leads to the set that it leads to. -/
def Agrees (x : Except Abort (Effect State)) (l : Except Unit Listing) : Prop :=
  ∀ l', (∃ e, x = .ok e ∧ e.1.listing = l') ↔ l = .ok l'

/-- No other bank is listed with the code. -/
def Unshared (s : State) (bank : Name) (sym : Symbol) : Prop :=
  ∀ row ∈ s.tokens.rows, row.sym.code = sym.code → row.bank = bank

instance (s : State) (bank : Name) (sym : Symbol) : Decidable (Unshared s bank sym) :=
  inferInstanceAs (Decidable (∀ row ∈ s.tokens.rows, _))

/-- The calls that name no code under which another bank is listed. -/
def Separate (w : World State) (i : Ctx × Input Action) : Prop :=
  match i.2 with
  | .act (.addtoken bank sym) | .act (.deltoken bank sym) => Unshared w.state bank sym
  | .act (.init _) | .notify _ => True

instance (w : World State) (i : Ctx × Input Action) : Decidable (Separate w i) := by
  rcases i with ⟨ctx, n | a⟩
  · dsimp only [Separate]
    infer_instance
  · cases a <;> dsimp only [Separate] <;> infer_instance

/-! ## The narrowed key -/

/-- Narrowing the composite key drops the bank. -/
theorem u64_makeTokencfgPk (bank : Name) (sym : Symbol) :
    u64 (makeTokencfgPk bank sym) = sym.code := by
  have hcode : sym.code < 2 ^ 64 := by
    have hraw : sym.raw < 2 ^ 64 := sym.value.toNat_lt
    unfold Symbol.code
    omega
  unfold makeTokencfgPk u64
  rw [← Nat.shiftLeft_add_eq_or_of_lt hcode, Nat.shiftLeft_eq]
  omega

@[simp] theorem TokenCfg.key_eq (cfg : TokenCfg) : cfg.key = cfg.sym.code :=
  u64_makeTokencfgPk cfg.bank cfg.sym

section States
variable {s s' : State} {bank : Name} {sym : Symbol} {code : ℕ} {row : TokenCfg}

/-- A pair is listed when its code is found, with its bank. -/
theorem listing_eq (s : State) (bank : Name) (code : ℕ) :
    s.listing bank code
      = (s.tokens.find? code).bind fun row => if row.bank = bank then some row.sym else none := by
  unfold State.listing
  cases hfind : s.tokens.find? code with
  | none =>
    have hnone := Table.find?_eq_none.mp hfind
    rw [Option.bind_none, Option.map_eq_none_iff, List.find?_eq_none]
    intro row hrow hpair
    have hcode := (of_decide_eq_true hpair).2
    exact hnone row hrow (row.key_eq.trans hcode)
  | some row =>
    obtain ⟨hrow, hkey⟩ := Table.find?_eq_some.mp hfind
    rw [Option.bind_some]
    cases hpair : s.tokens.rows.find? fun r => decide (r.bank = bank ∧ r.sym.code = code) with
    | none =>
      have hbank : row.bank ≠ bank := by
        intro hbank
        have hnot := List.find?_eq_none.mp hpair row hrow
        exact hnot (decide_eq_true ⟨hbank, row.key_eq.symm.trans hkey⟩)
      rw [if_neg hbank]
      rfl
    | some r =>
      have hr : r.bank = bank ∧ r.sym.code = code := by simpa using List.find?_some hpair
      -- the code alone is the key, so there is one row with it
      have hsame : r = row := Table.eq_of_key_eq (List.mem_of_find?_eq_some hpair) hrow
        ((r.key_eq.trans hr.2).trans hkey.symm)
      rw [← hsame, if_pos hr.1]
      rfl

theorem listing_congr (h : s'.tokens.find? code = s.tokens.find? code) :
    s'.listing bank code = s.listing bank code := by
  rw [listing_eq, listing_eq, h]

theorem unshared_of_none (h : s.tokens.find? sym.code = none) : Unshared s bank sym := by
  intro row hrow hcode
  exact absurd (row.key_eq.trans hcode) (Table.find?_eq_none.mp h row hrow)

/-- The row under a code is the one that decides whether the code is shared. -/
theorem unshared_iff_of_some (h : s.tokens.find? sym.code = some row) :
    Unshared s bank sym ↔ row.bank = bank := by
  obtain ⟨hrow, hkey⟩ := Table.find?_eq_some.mp h
  constructor
  · intro hunshared
    exact hunshared row hrow (row.key_eq.symm.trans hkey)
  · intro hbank r hr hcode
    have hsame : r = row := Table.eq_of_key_eq hr hrow ((r.key_eq.trans hcode).trans hkey.symm)
    rw [hsame]
    exact hbank

/-- Storing a row under a free code adds its pair. -/
theorem listing_put (h : s.tokens.find? sym.code = none)
    (hs' : s'.tokens = s.tokens.put ⟨bank, sym⟩) :
    s'.listing = s.listing.set bank sym.code (some sym) := by
  have hkey : TokenCfg.key ⟨bank, sym⟩ = sym.code := TokenCfg.key_eq _
  funext b c
  unfold Listing.set
  by_cases hc : c = sym.code
  · subst hc
    rw [listing_eq, listing_eq, hs', Table.find?_put, hkey, if_pos rfl, h, Option.bind_some,
      Option.bind_none]
    by_cases hb : b = bank
    · rw [if_pos hb.symm, if_pos ⟨hb, rfl⟩]
    · rw [if_neg (Ne.symm hb), if_neg fun hpair => hb hpair.1]
  · rw [if_neg fun hpair => hc hpair.2]
    apply listing_congr
    rw [hs', Table.find?_put, hkey, if_neg hc]

/-- Removing the row under a code removes its pair. -/
theorem listing_erase (h : s.tokens.find? sym.code = some row)
    (hs' : s'.tokens = s.tokens.erase row.key) :
    s'.listing = s.listing.set row.bank sym.code none := by
  have hkey : row.key = sym.code := (Table.find?_eq_some.mp h).2
  funext b c
  unfold Listing.set
  by_cases hc : c = sym.code
  · subst hc
    rw [listing_eq, listing_eq, hs', hkey, Table.find?_erase, if_pos rfl, h, Option.bind_none,
      Option.bind_some]
    by_cases hb : b = row.bank
    · rw [if_pos ⟨hb, rfl⟩]
    · rw [if_neg fun hpair => hb hpair.1, if_neg (Ne.symm hb)]
  · rw [if_neg fun hpair => hc hpair.2]
    apply listing_congr
    rw [hs', hkey, Table.find?_erase, if_neg hc]

end States

/-! ## The calls -/

section Calls
variable {self : Name} {ctx : Ctx} {s s' : State} {bank : Name} {sym : Symbol} {row : TokenCfg}
  {e : Effect State}

theorem addtoken_eq_ok (hauth : ctx.hasAuth s.gstate.admin = true)
    (hbank : ctx.isAccount bank = true) (hsym : sym.isValid = true) :
    addtoken ctx bank sym s = .ok e ↔ s.tokens.find? sym.code = none ∧
      e = ({ s with tokens := s.tokens.put ⟨bank, sym⟩ }, []) := by
  simp only [addtoken, bind_eq_ok, check_eq_ok, Ctx.requireAuth_eq_ok, pure_eq_ok, exists_const,
    emplace_eq_ok, u64_makeTokencfgPk, TokenCfg.key_eq, Option.isNone_iff_eq_none]
  constructor
  · rintro ⟨-, -, -, hfree, tokens, ⟨-, rfl⟩, rfl⟩
    exact ⟨hfree, rfl⟩
  · rintro ⟨hfree, rfl⟩
    exact ⟨hauth, hbank, hsym, hfree, _, ⟨hfree, rfl⟩, rfl⟩

theorem deltoken_eq_ok (hauth : ctx.hasAuth s.gstate.admin = true) :
    deltoken ctx bank sym s = .ok e ↔ ∃ row, s.tokens.find? sym.code = some row ∧
      e = ({ s with tokens := s.tokens.erase row.key }, []) := by
  simp only [deltoken, bind_eq_ok, Ctx.requireAuth_eq_ok, require_eq_ok, pure_eq_ok,
    exists_const, u64_makeTokencfgPk]
  constructor
  · rintro ⟨-, row, hrow, rfl⟩
    exact ⟨row, hrow, rfl⟩
  · rintro ⟨row, hrow, rfl⟩
    exact ⟨hauth, row, hrow, rfl⟩

/-- `addtoken` adds the pair to the set exactly when no other bank is listed with its code. -/
theorem addtoken_agrees_iff (hauth : ctx.hasAuth s.gstate.admin = true)
    (hbank : ctx.isAccount bank = true) (hsym : sym.isValid = true) :
    Agrees (addtoken ctx bank sym s) (s.listing.add bank sym) ↔ Unshared s bank sym := by
  unfold Agrees Listing.add
  simp only [addtoken_eq_ok hauth hbank hsym]
  cases hfind : s.tokens.find? sym.code with
  | none =>
    rw [listing_eq, hfind]
    apply iff_of_true _ (unshared_of_none hfind)
    intro l'
    constructor
    · rintro ⟨e, ⟨-, rfl⟩, rfl⟩
      exact congrArg Except.ok (listing_put hfind rfl).symm
    · intro hl'
      exact ⟨_, ⟨rfl, rfl⟩, (listing_put hfind rfl).trans (Except.ok.inj hl')⟩
  | some row =>
    rw [unshared_iff_of_some hfind, listing_eq, hfind, Option.bind_some]
    constructor
    · intro hagrees
      -- the call is refused, so the pair is listed
      by_contra hother
      rw [if_neg hother] at hagrees
      obtain ⟨e, ⟨hfree, -⟩, -⟩ := (hagrees _).mpr rfl
      cases hfree
    · intro hsame l'
      rw [if_pos hsame]
      constructor
      · rintro ⟨e, ⟨hfree, -⟩, -⟩
        cases hfree
      · intro hl'
        cases hl'

/-- `deltoken` removes the pair from the set exactly when no other bank is listed with its
code. -/
theorem deltoken_agrees_iff (hauth : ctx.hasAuth s.gstate.admin = true) :
    Agrees (deltoken ctx bank sym s) (s.listing.del bank sym) ↔ Unshared s bank sym := by
  unfold Agrees Listing.del
  simp only [deltoken_eq_ok hauth]
  cases hfind : s.tokens.find? sym.code with
  | none =>
    rw [listing_eq, hfind]
    apply iff_of_true _ (unshared_of_none hfind)
    intro l'
    constructor
    · rintro ⟨e, ⟨row, hrow, -⟩, -⟩
      cases hrow
    · intro hl'
      cases hl'
  | some row =>
    rw [unshared_iff_of_some hfind, listing_eq, hfind, Option.bind_some]
    constructor
    · intro hagrees
      -- the call removes a row, so the pair is listed
      by_contra hother
      rw [if_neg hother] at hagrees
      have hl' := (hagrees _).mp ⟨_, ⟨row, rfl, rfl⟩, rfl⟩
      cases hl'
    · intro hsame l'
      have herase : State.listing { s with tokens := s.tokens.erase row.key }
          = s.listing.set bank sym.code none := by
        rw [← hsame]
        exact listing_erase hfind rfl
      rw [if_pos hsame]
      constructor
      · rintro ⟨e, ⟨r, hr, rfl⟩, rfl⟩
        rw [← Option.some.inj hr, herase]
      · intro hl'
        exact ⟨_, ⟨row, rfl, rfl⟩, herase.trans (Except.ok.inj hl')⟩

end Calls

end TokenSummary
end ToolkitContracts
