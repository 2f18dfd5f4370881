import ToolkitContracts.Creator.Model

/-!
# Who opens accounts

What flon.creator has sent falls into openings: an account with one key, and its gas. Each of them
goes back to an admin, and every admin was named by the contract's own account or by an earlier
admin. The gas of an opening is the quantity that was set when the account was opened.
-/

namespace ToolkitContracts
namespace Creator

open PubkeyToken (sysBank)
open Transition (Run Unrestricted)

/-- An account that the contract has opened, with its key and the gas bought for it. -/
structure Opening where
  account : Name
  pubkey : PublicKey
  gas : Asset

/-- What the contract sends for an opening. -/
def Opening.sends (self : Name) (o : Opening) : List Sent :=
  sendNewaccount self o.account o.pubkey o.gas

/-- What the gas of an opening takes from the account, in the token `x`. -/
def Opening.price (x : ExtendedSymbol) (o : Opening) : ℤ :=
  if ⟨o.gas.symbol, sysBank⟩ = x then o.gas.amount else 0

section Openings
variable {τ β : Type} (S : SystemContract τ β) (creator : Name)

/-- The accounts whose signature counts after the inputs `es`: that of the contract, the first
admin, and whomever one of these has named. -/
inductive Trusted (es : List (Ctx × Event Action β)) : Name → Prop
  | self : Trusted es creator
  | first : Trusted es (State.admin {})
  | named {signer admin : Name} {ctx : Ctx} : Trusted es signer → ctx.hasAuth signer = true →
      (ctx, .act (.init admin)) ∈ es → Trusted es admin

/-- A call after the inputs `es`, in the state `w`, opens the account of `o`: a trusted admin signs,
there is no account of that name, and its gas is what is set then. -/
structure Opens (es : List (Ctx × Event Action β)) (w : Site State τ) (ctx : Ctx) (o : Opening) :
    Prop where
  signed : ctx.hasAuth w.state.admin = true
  trusted : Trusted creator es w.state.admin
  new : S.isAccount w.system o.account = false
  gas : o.gas = w.state.gasQuant

/-- One of the inputs `es` is the call that opens the account of `o`. -/
def OpenedIn (start : Site State τ) (es : List (Ctx × Event Action β)) (o : Opening) : Prop :=
  ∃ es₁ ctx es₂ w, es = es₁ ++ (ctx, .act (.newaccount w.state.admin o.pubkey o.account)) :: es₂ ∧
    Run ((contract creator).step S) Unrestricted start es₁ w ∧ Opens S creator es₁ w ctx o

/-- What the openings `os` mean for the chain `w`, which the inputs `es` have led to. -/
structure Accounts (start : Site State τ) (es : List (Ctx × Event Action β)) (w : Site State τ)
    (os : List Opening) : Prop where
  /-- What the contract has sent are the openings, in their order. -/
  log : w.log = os.flatMap (·.sends creator)
  opened : ∀ o ∈ os, OpenedIn S creator start es o
  admin : Trusted creator es w.state.admin

end Openings

section Steps
variable {τ β : Type} {S : SystemContract τ β} {self : Name} {start w w' : Site State τ}
  {es es' : List (Ctx × Event Action β)} {o : Opening}

/-- Whoever is trusted stays trusted. -/
theorem Trusted.append {n : Name} (h : Trusted self es n) : Trusted self (es ++ es') n := by
  induction h with
  | self => exact .self
  | first => exact .first
  | named _ hauth hmem ih => exact .named ih hauth (List.mem_append_left _ hmem)

theorem OpenedIn.append (h : OpenedIn S self start es o) :
    OpenedIn S self start (es ++ es') o := by
  obtain ⟨es₁, ctx, es₂, w, rfl, hrun, hopens⟩ := h
  refine ⟨es₁, ctx, es₂ ++ es', w, ?_, hrun, hopens⟩
  rw [List.append_assoc, List.cons_append]

theorem openedBy_sends (o : Opening) : openedBy (o.sends self) = [o.account] := rfl

theorem price_sends (x : ExtendedSymbol) (o : Opening) :
    ((o.sends self).map (·.price x)).sum = o.price x := by
  show 0 + (o.price x + 0) = o.price x
  rw [zero_add, add_zero]

/-- In one step, an admin opens an account, or the contract sends nothing. -/
theorem accounts_of_step {os : List Opening} {e : Ctx × Event Action β}
    (hrun : Run ((contract self).step S) Unrestricted start es w)
    (h : Accounts S self start es w os) (hstep : (contract self).step S w e = .ok w') :
    ∃ os', Accounts S self start (es ++ [e]) w' os' := by
  obtain ⟨ctx, event⟩ := e
  have hopened : ∀ o ∈ os, OpenedIn S self start (es ++ [(ctx, event)]) o :=
    fun o ho => (h.opened o ho).append
  cases event with
  | deposit x amount =>
    obtain ⟨-, -, rfl⟩ := Opener.step_deposit.mp hstep
    exact ⟨os, h.log, hopened, h.admin.append⟩
  | other b =>
    obtain ⟨-, t, -, rfl⟩ := Opener.step_other.mp hstep
    exact ⟨os, h.log, hopened, h.admin.append⟩
  | act a =>
    obtain ⟨-, s, sent, hexec, t, holding, receipts, hcarry, rfl⟩ := Opener.step_act.mp hstep
    have hlog : Site.log ⟨⟨s, holding, ctx.now⟩, t, w.income, w.receipts ++ receipts⟩
        = w.log ++ sent := Site.log_append (sent_of_carryOut hcarry)
    cases a with
    | newaccount admin pubkey acct =>
      obtain ⟨hauth, rfl, hnew, rfl, rfl⟩ := newaccount_eq_ok.mp hexec
      refine ⟨os ++ [⟨acct, pubkey, w.state.gasQuant⟩], ?_, ?_, h.admin.append⟩
      · rw [hlog, h.log, List.flatMap_append, List.flatMap_singleton]
        rfl
      · intro o ho
        rcases List.mem_append.mp ho with ho | ho
        · exact hopened o ho
        · obtain rfl : o = ⟨acct, pubkey, w.state.gasQuant⟩ := List.mem_singleton.mp ho
          exact ⟨es, ctx, [], w, rfl, hrun, hauth, h.admin, hnew, rfl⟩
    | init admin =>
      obtain ⟨hauth, rfl, rfl⟩ := init_eq_ok.mp hexec
      refine ⟨os, by rw [hlog, List.append_nil, h.log], hopened, ?_⟩
      have hmem : (ctx, .act (.init admin)) ∈ es ++ [(ctx, Event.act (.init admin))] :=
        List.mem_append_right _ (List.mem_singleton.mpr rfl)
      have hsigned : ctx.hasAuth self = true ∨ ctx.hasAuth w.state.admin = true := hauth
      rcases hsigned with hauth | hauth
      · exact .named .self hauth hmem
      · exact .named h.admin.append hauth hmem
    | setgasquant gasQuant =>
      obtain ⟨-, rfl, rfl⟩ := setgasquant_eq_ok.mp hexec
      exact ⟨os, by rw [hlog, List.append_nil, h.log], hopened, h.admin.append⟩

end Steps

/-! ## Runs -/

section Runs
variable {τ β : Type} {S : SystemContract τ β} {self : Name} {t : τ} {clock : TimePoint}
  {w : Site State τ} {es : List (Ctx × Event Action β)}

/-- The accounts that openings open. -/
theorem openedBy_openings (os : List Opening) :
    openedBy (os.flatMap (·.sends self)) = os.map (·.account) := by
  induction os with
  | nil => rfl
  | cons o os ih => rw [List.flatMap_cons, openedBy_append, ih, openedBy_sends]; rfl

/-- The gas of openings adds up. -/
theorem price_openings (x : ExtendedSymbol) (os : List Opening) :
    ((os.flatMap (·.sends self)).map (·.price x)).sum = (os.map (·.price x)).sum := by
  induction os with
  | nil => rfl
  | cons o os ih =>
    rw [List.flatMap_cons, List.map_append, List.sum_append, price_sends, ih, List.map_cons,
      List.sum_cons]

/-- In every reachable state, what the contract has sent are openings of different accounts. Each of
them is the work of one call, signed by a trusted admin, at a time when there was no account of that
name, and buys the gas that was set at that time. The account of the contract holds what was paid
in, less the gas of the openings and the fees for new accounts. -/
theorem openings_of_run (hS : S.Standard)
    (hrun : Run ((contract self).step S) Unrestricted (genesis t clock) es w) :
    ∃ os : List Opening, w.log = os.flatMap (·.sends self) ∧ (os.map (·.account)).Nodup ∧
      (∀ o ∈ os, OpenedIn S self (genesis t clock) es o) ∧
      ∀ x, w.holding x
        = w.income x - outflow x (feesOf w.receipts) - (os.map (·.price x)).sum := by
  have hw : w.Sound S t := Opener.sound_of_run hS hrun
  obtain ⟨os, hos⟩ : ∃ os, Accounts S self (genesis t clock) es w os := by
    induction hrun with
    | nil => exact ⟨[], rfl, fun o ho => absurd ho List.not_mem_nil, .first⟩
    | snoc hrun _ hstep ih =>
      obtain ⟨os, hos⟩ := ih (Opener.sound_of_run hS hrun)
      exact accounts_of_step hrun hos hstep
  refine ⟨os, hos.log, ?_, hos.opened, fun x => ?_⟩
  · rw [← openedBy_openings, ← hos.log]
    exact hw.nodup
  · rw [hw.holding x, hos.log, price_openings]

end Runs

/-! ## A change of the admin and of the gas -/

namespace Sample

open ToolkitContracts.Sample (Native NativeInput native native_standard)

def creator : Name := .lit "flon.creator"

def alice : Name := .lit "alice"

def bob : Name := .lit "bobscreated1"

def carol : Name := .lit "carolsacct11"

/-- A new account costs 0.00004500 FLON. -/
def system : Native := ⟨[creator, alice], .lit (int64 4500) PubkeyToken.flonSymbol⟩

/-- The first admin opens an account for Bob and hands over to Alice, who doubles the gas and opens
one for Carol. -/
def inputs : List (Ctx × Event Action NativeInput) :=
  [(.signed alice 100, .deposit PubkeyToken.flonToken 1000000),
    (.signed (.lit "securewarden") 100, .act (.newaccount (.lit "securewarden") default bob)),
    (.signed (.lit "securewarden") 100, .act (.init alice)),
    (.signed alice 101, .act (.setgasquant (.lit (int64 600000) PubkeyToken.flonSymbol))),
    (.signed alice 101, .act (.newaccount alice default carol))]

theorem openings_of_run_sample :
    ∃ w, Run ((contract creator).step native) Unrestricted (genesis system (.ofDays 100)) inputs w ∧
      w.holding PubkeyToken.flonToken = 1000000 - 2 * 4500 - 300000 - 600000 ∧
      ∃ os : List Opening, os.map (·.account) = [bob, carol] ∧
        ∀ o ∈ os, OpenedIn native creator (genesis system (.ofDays 100)) inputs o := by
  have hreach : Transition.Reaches ((contract creator).step native) Unrestricted
      (fun w => w.holding PubkeyToken.flonToken = 1000000 - 2 * 4500 - 300000 - 600000 ∧
        openedBy w.log = [bob, carol]) inputs (genesis system (.ofDays 100)) := by decide
  obtain ⟨w, hrun, hholding, hopened⟩ := Transition.run_of_reaches hreach
  obtain ⟨os, hlog, -, hopens, -⟩ := openings_of_run native_standard hrun
  refine ⟨w, hrun, hholding, os, ?_, hopens⟩
  rw [← hopened, hlog, openedBy_openings]

end Sample
end Creator
end ToolkitContracts
