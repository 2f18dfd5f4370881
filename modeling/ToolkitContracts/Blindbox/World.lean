import ToolkitContracts.Blindbox.Model

/-!
# flon.blindbox on a chain

A transaction hands the contract one input and then carries out what it sends. Transfers of
flon.token and flon.mtoken reach the purchase handler and those of every other contract the
deposit handler; what the latter reads as assets is taken to be assets, that is the other
contracts are NFT contracts. The contract's account signs no transfers of its own.
-/

namespace ToolkitContracts
namespace Blindbox

/-- The token contracts whose transfers the purchase handler is notified of. -/
def paymentBanks : List Name := [.lit "flon.token", .lit "flon.mtoken"]

/-- The contract's tables, its account's tokens and NFTs, the time of the last step and what was
sent in it. -/
structure World where
  state : State
  holding : Holding
  nfts : NftHolding
  clock : TimePoint
  sent : List Out

section Steps
variable (self : Name)

/-- The account that signed the transfer an input is about, if it is one. -/
def Input.signer? : Input → Option Name
  | .token n => some n.sender
  | .ntoken n => some n.sender
  | .act _ => none

/-- The handler that an input is made for is the one that the chain calls. -/
def Input.Handled : Input → Prop
  | .token n => n.bank ∈ paymentBanks
  | .ntoken n => n.bank ∉ paymentBanks
  | .act _ => True

instance (i : Input) : Decidable i.Handled := by
  cases i <;> dsimp only [Input.Handled] <;> infer_instance

/-- The tokens that an input brings into the contract's account. -/
def receivedTokens (i : Input) (h : Holding) : Holding :=
  match i with
  | .token n => if n.recipient = self then h.credit n.token n.quantity.amount else h
  | .ntoken _ | .act _ => h

/-- The NFTs that an input brings into the contract's account. -/
def receivedNfts (i : Input) (h : NftHolding) : NftHolding :=
  match i with
  | .ntoken n => if n.recipient = self then h.credit n.bank n.assets else h
  | .token _ | .act _ => h

/-- The token and NFT contracts carry out what the contract sent. -/
def settleAll : List Out → Holding × NftHolding → Except Abort (Holding × NftHolding)
  | [], h => .ok h
  | .pay t :: outs, (tokens, nfts) => do
    let tokens ← settle self tokens [t]
    settleAll outs (tokens, nfts)
  | .deliver t :: outs, (tokens, nfts) => do
    check (t.recipient ≠ self) "cannot transfer to self"
    let nfts ← NftHolding.debit t.bank t.assets nfts
    settleAll outs (tokens, nfts)
  | .trace _ :: outs, h => settleAll outs h

/-- One transaction. -/
def step (w : World) (i : Env × Input) : Except Abort World := do
  check (w.clock ≤ i.1.now) "block time goes back"
  check (i.2.signer? ≠ some self) "transfers are signed by other accounts"
  check i.2.Handled "another handler"
  let (s, outs) ← run self i.1 i.2 w.state
  let (holding, nfts) ← settleAll self outs
    (receivedTokens self i.2 w.holding, receivedNfts self i.2 w.nfts)
  return { state := s, holding, nfts, clock := i.1.now, sent := outs }

end Steps

/-- The world right after deployment: empty tables, no tokens and no NFTs. -/
def genesis (clock : TimePoint) : World := ⟨.init, fun _ => 0, fun _ _ => 0, clock, []⟩

section Results
variable {self : Name} {w w' : World} {i : Env × Input} {outs : List Out}

/-- What a successful step is made of. -/
theorem step_spec (h : step self w i = .ok w') :
    i.2.signer? ≠ some self ∧ i.2.Handled ∧ run self i.1 i.2 w.state = .ok (w'.state, w'.sent) ∧
      settleAll self w'.sent
        (receivedTokens self i.2 w.holding, receivedNfts self i.2 w.nfts)
        = .ok (w'.holding, w'.nfts) := by
  simp only [step, bind_eq_ok, check_eq_ok, exists_const, pure_eq_ok] at h
  obtain ⟨-, hsigner, hhandled, ⟨s, outs⟩, hrun, ⟨holding, nfts⟩, hsettle, rfl⟩ := h
  exact ⟨hsigner, hhandled, hrun, hsettle⟩

/-- NFTs that were delivered are positive amounts. -/
theorem pos_of_settleAll {h h' : Holding × NftHolding} (hs : settleAll self outs h = .ok h')
    {t : NftTransfer} (ht : Out.deliver t ∈ outs) {a : Nasset} (ha : a ∈ t.assets) :
    0 < a.amount := by
  induction outs generalizing h with
  | nil => simp at ht
  | cons out outs ih =>
    cases out with
    | pay p =>
      simp only [settleAll, bind_eq_ok] at hs
      obtain ⟨tokens, -, hrest⟩ := hs
      exact ih hrest (by simpa using ht)
    | trace d => exact ih hs (by simpa using ht)
    | deliver u =>
      simp only [settleAll, bind_eq_ok, check_eq_ok, exists_const] at hs
      obtain ⟨-, nfts, hdebit, hrest⟩ := hs
      rcases List.mem_cons.mp ht with heq | ht
      · rw [Out.deliver.inj heq] at ha
        exact NftHolding.pos_of_debit hdebit ha
      · exact ih hrest ht

end Results

end Blindbox
end ToolkitContracts
