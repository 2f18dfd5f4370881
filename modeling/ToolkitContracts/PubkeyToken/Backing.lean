import ToolkitContracts.PubkeyToken.Moves
import Mathlib.Algebra.Order.Group.Int

/-!
# Backing of the booked tokens

The account should hold, in FLON, at least what is booked to the keys. Deposits and `move`
keep the difference between the two exactly. `newaccount` does not: it sends out the whole
quantity of its row, and the gas for the new account is charged to the contract on top, so
that it comes out of other rows unless the account holds that much more than is booked.

The results hold whichever row a lookup finds.
-/

namespace ToolkitContracts
namespace PubkeyToken

/-- The tokens booked to the keys. -/
def booked (s : State) : ℤ := s.pkaccts.sum fun r => r.quantity.amount

/-- The account holds what is booked. -/
def Backed (w : World State) : Prop := booked w.state ≤ w.holding flonToken

instance (w : World State) : Decidable (Backed w) := inferInstanceAs (Decidable (_ ≤ _))

variable {S : Type}

/-- The action creates an account. -/
def IsNewaccount : Action S → Prop
  | .newaccount _ _ _ _ => True
  | _ => False

/-- A new account is created only when the account holds the gas for it beside what is
booked. -/
def CoversGas (w : World State) : Input (Action S) → Prop
  | .act (.newaccount _ _ _ _) => booked w.state + gasQuant.amount ≤ w.holding flonToken
  | _ => True

instance (w : World State) (i : Input (Action S)) : Decidable (CoversGas w i) := by
  rcases i with n | a
  · exact inferInstanceAs (Decidable True)
  · rcases a with _ | _ | _ <;> dsimp only [CoversGas] <;> infer_instance

/-- The gas that an input makes the contract pay for. -/
def gasOf : Input (Action S) → ℤ
  | .act (.newaccount _ _ _ _) => gasQuant.amount
  | .act (.move _ _ _ _ _) | .act (.init _) | .notify _ => 0

/-- The lookups find the rows of the key that they are given, and no others. -/
def Crypto.LooksUpKeys {D : Type} (C : Crypto D S) : Prop :=
  ∀ ctx k k', C.sha256pk k' = C.imageHash ctx k ↔ k' = k

/-! ## One move -/

section Moves
variable {D : Type} [DecidableEq D] {C : Crypto D S} {self : Name} {ctx : Ctx} {s s' : State}
  {i : Input (Action S)} {outs : List Transfer}

/-- The system contract charges the gas to the account, and nothing else. -/
theorem outflow_sendNewaccount (self account : Name) (pubkey : PublicKey) :
    outflow flonToken ((sendNewaccount self account pubkey).flatMap (·.charge self))
      = gasQuant.amount := by
  have hcharge : (sendNewaccount self account pubkey).flatMap (·.charge self)
      = [⟨sysBank, flonContract, gasQuant.1, []⟩] := by
    simp [sendNewaccount, SystemAction.charge]
  have htoken : Transfer.token ⟨sysBank, flonContract, gasQuant.1, []⟩ = flonToken :=
    token_eq_flon rfl gasQuant.2.2
  rw [hcharge, outflow_cons, outflow_nil, if_pos htoken, add_zero, FlonAsset.amount]

/-- An accepted transfer brings its amount into the account. -/
theorem received_accepted {n : Notice} {pubkey : PublicKey} (hn : Accepts self n pubkey)
    [DecidableEq S] [Inhabited S] (hd : Holding) :
    (contract C self).received (.notify n) hd flonToken = hd flonToken + n.quantity.amount := by
  have htoken : n.token = flonToken := by
    unfold Notice.token flonToken
    rw [hn.bank, hn.symbol]
  rw [Contract.received_notify _ hn.recipient, if_pos htoken]

variable [DecidableEq S] [Inhabited S]

/-- The account's FLON follows what is booked, up to the gas for new accounts. -/
theorem flow_of_move (hm : Move C self ctx s i s' outs) (hsigner : Contract.signer? i ≠ some self)
    (hd : Holding) :
    (contract C self).received i hd flonToken - outflow flonToken outs
      = hd flonToken + (booked s' - booked s) - gasOf i := by
  cases hm with
  | ignore n hn =>
    have hother : n.recipient ≠ self := hn.resolve_right (Contract.sender_ne hsigner)
    rw [Contract.received_ignored _ hother, outflow_nil, gasOf]
    omega
  | book n row hn hnone hnew hquantity =>
    have hsum := Table.sum_put_new hnew fun r => r.quantity.amount
    rw [received_accepted hn, outflow_nil, gasOf, ← hquantity]
    show _ = hd flonToken + (Table.sum (s.pkaccts.put row) _ - Table.sum s.pkaccts _) - 0
    rw [hsum]
    omega
  | add n pubkey old row hn hfind hid hquantity =>
    have hsum := Table.sum_put_old hid fun r => r.quantity.amount
    rw [received_accepted hn, outflow_nil, gasOf]
    show _ = hd flonToken + (Table.sum (s.pkaccts.put row) _ - Table.sum s.pkaccts _) - 0
    omega
  | newaccount miner pubkey acct sig row paid hfind hpays =>
    -- the gas and the row's tokens go out, and only the row's tokens were booked
    have hsum := Table.sum_erase hpays.stored fun r => r.quantity.amount
    rw [Contract.received_act, outflow_append, outflow_sendNewaccount, hpays.total, gasOf]
    show _ = hd flonToken + (Table.sum (s.pkaccts.erase row.id) _ - Table.sum s.pkaccts _) - _
    omega
  | move miner pubkey lastRecvAt toAcct sig row paid hfind hpays =>
    -- what the row had is paid out, and its row is erased
    have hsum := Table.sum_erase hpays.stored fun r => r.quantity.amount
    rw [Contract.received_act, hpays.total, gasOf]
    show _ = hd flonToken + (Table.sum (s.pkaccts.erase row.id) _ - Table.sum s.pkaccts _) - 0
    omega
  | init admin =>
    rw [Contract.received_act, outflow_nil, gasOf]
    show _ = hd flonToken + (booked s - booked s) - 0
    omega

end Moves

/-! ## Steps and runs -/

section Steps
variable {D : Type} [DecidableEq D] [DecidableEq S] [Inhabited S] {C : Crypto D S} {self : Name}
  {w w' : World State} {i : Ctx × Input (Action S)} {is : List (Ctx × Input (Action S))}

/-- What the account holds beside the booked tokens changes by the gas only. -/
theorem surplus_of_step (hs : (contract C self).step w i = .ok w') :
    w'.holding flonToken - booked w'.state
      = w.holding flonToken - booked w.state - gasOf i.2 := by
  obtain ⟨-, hsigner, -, outs, hrun, hsettle⟩ := ((contract C self).step_eq_ok).mp hs
  have hself : (contract C self).self = self := rfl
  have hflow := flow_of_move (move_of_run hrun) hsigner w.holding
  have hheld := settle_apply hsettle flonToken
  omega

/-- A backed account stays backed exactly when it covers the gas. -/
theorem backed_iff_of_step (hw : Backed w) (hs : (contract C self).step w i = .ok w') :
    Backed w' ↔ CoversGas w i.2 := by
  have hsurplus := surplus_of_step hs
  unfold Backed at hw ⊢
  rcases i with ⟨ctx, n | a⟩
  · have hkeeps : booked w'.state ≤ w'.holding flonToken := by
      rw [gasOf] at hsurplus
      omega
    exact ⟨fun _ => trivial, fun _ => hkeeps⟩
  · cases a with
    | newaccount miner pubkey acct sig =>
      rw [gasOf] at hsurplus
      rw [CoversGas]
      omega
    | move | init =>
      have hkeeps : booked w'.state ≤ w'.holding flonToken := by
        rw [gasOf] at hsurplus
        omega
      exact ⟨fun _ => trivial, fun _ => hkeeps⟩

/-- An action sends out what its row has, and the gas. -/
theorem outflow_of_exec {ctx : Ctx} {a : Action S} {s s' : State} {outs : List Transfer}
    (h : exec C self ctx a s = .ok (s', outs)) :
    outflow flonToken outs = booked s - booked s' + gasOf (.act a) := by
  have hflow := flow_of_move (move_of_exec h) (Contract.signer?_act self a) fun _ => 0
  rw [Contract.received_act] at hflow
  omega

/-- From a backed state, every run whose new accounts find their gas beside the booked tokens
leads to backed states only; a step that breaks the condition leads to one that is not. An
action sends out no more than the row that it erases had, unless it creates an account. -/
theorem rows_stay_backed {w₀ : World State} (h₀ : Backed w₀)
    (hrun : Transition.Run (contract C self).step (fun w i => CoversGas w i.2) w₀ is w) :
    Backed w ∧
    (∀ i w', (contract C self).step w i = .ok w' → (Backed w' ↔ CoversGas w i.2)) ∧
    ∀ ctx a s' outs, exec C self ctx a w.state = .ok (s', outs) →
      (outflow flonToken outs ≤ booked w.state - booked s' ↔ ¬ IsNewaccount a) := by
  have hbacked : Backed w :=
    hrun.invariant (P := Backed) (fun w i w' hw hok hs => (backed_iff_of_step hw hs).mpr hok) h₀
  refine ⟨hbacked, fun i w' hs => backed_iff_of_step hbacked hs, fun ctx a s' outs hexec => ?_⟩
  have hout := outflow_of_exec hexec
  have hgas : gasQuant.amount = 1000000 := rfl
  cases a with
  | newaccount miner pubkey acct sig =>
    rw [gasOf] at hout
    constructor
    · intro hle
      omega
    · intro hno
      exact absurd trivial hno
  | move | init =>
    rw [gasOf] at hout
    constructor
    · intro _ hno
      exact hno
    · intro _
      omega

end Steps

/-! ## Gas at the expense of another key -/

namespace Sample

def account : Name := .lit "pubkey.token"
def alice : Name := .lit "alice"
def bob : Name := .lit "bob"
def miner : Name := .lit "miner"
def carol : Name := .lit "carol"

/-- The packed form of a key, for texts of at most 127 bytes: the index of the alternative and
its fields. -/
def packKey : PublicKey → List UInt8
  | .k1 key => 0 :: key.1
  | .r1 key => 1 :: key.1
  | .webauthn w => 2 :: (w.key.1 ++ w.userPresence :: UInt8.ofNat w.rpid.length :: w.rpid)

theorem packKey_inj {k k' : PublicKey} : packKey k = packKey k' ↔ k = k' := by
  refine ⟨fun h => ?_, fun h => congrArg packKey h⟩
  cases k with
  | k1 key | r1 key =>
    cases k' with
    | k1 key' | r1 key' =>
      simp only [packKey, List.cons.injEq] at h
      first
        | exact congrArg _ (Subtype.ext h.2)
        | exact absurd h.1 (by decide)
    | webauthn w' =>
      simp only [packKey, List.cons.injEq] at h
      exact absurd h.1 (by decide)
  | webauthn w =>
    cases k' with
    | k1 key' | r1 key' =>
      simp only [packKey, List.cons.injEq] at h
      exact absurd h.1 (by decide)
    | webauthn w' =>
      simp only [packKey, List.cons.injEq, true_and] at h
      have hlength : w.key.1.length = w'.key.1.length := w.key.2.trans w'.key.2.symm
      obtain ⟨hkey, hrest⟩ := List.append_inj h hlength
      simp only [List.cons.injEq] at hrest
      cases w
      cases w'
      simp_all [Subtype.ext_iff]

/-- Hashing without collisions; a signature is the digest and the packed key. -/
def crypto (image : Ctx → PublicKey → List UInt8) : Crypto (List UInt8) (List UInt8) where
  sha256 := id
  pack := packKey
  image := image
  recovers := fun digest sig pubkey => decide (sig = digest ++ packKey pubkey)

/-- The chain as the contract's author reads it: the lookups hash the packed key. -/
def packedImages : Crypto (List UInt8) (List UInt8) := crypto fun _ => packKey

theorem packedImages_looksUpKeys : packedImages.LooksUpKeys :=
  fun _ _ _ => packKey_inj

/-- A signature for `acct` by the key of a memo that was last booked on a day. -/
def signed (memo : List Char) (acct : Name) (day : ℕ) : List UInt8 :=
  match strToPubkey memo with
  | .ok key => packedImages.hashAccount acct (.ofDays day) ++ packKey key
  | .error _ => []

def keyOf (memo : List Char) : PublicKey :=
  match strToPubkey memo with
  | .ok key => key
  | .error _ => default

def memo1 : List Char := "FU6MRyAjQq8ud7hVNYcfnVPJqcVpscN5So8BhtHuGYqET5GDW5CV".toList
def memo2 : List Char := "FU8Znrtgwt8TfpmbVpTKvA2oB8Nqey625CLN8bCN3TEbgx86Dsvr".toList

/-- A transfer of FLON to the contract. -/
def deposit (sender : Name) (quantity : FlonAsset) (memo : List Char) :
    Ctx × Input (Action (List UInt8)) :=
  (.signed sender 100, .notify ⟨sysBank, sender, account, quantity.1, memo, quantity.2.1⟩)

/-- The miner creates the account carol with the first key. -/
def create : Ctx × Input (Action (List UInt8)) :=
  ({ Ctx.signed miner 101 with isAccount := fun n => decide (n ≠ carol) },
    .act (.newaccount miner (keyOf memo1) carol (signed memo1 carol 100)))

/-- The first key is booked 2000000 units. -/
def depositOfAlice : Ctx × Input (Action (List UInt8)) :=
  deposit alice (.ofAmount 2000000 (by decide)) memo1

/-- Two keys are booked 2000000 and 3000000 units, and the first is withdrawn. -/
def inputs : List (Ctx × Input (Action (List UInt8))) :=
  [depositOfAlice,
    deposit bob (.ofAmount 3000000 (by decide)) memo2, create]

/-- The gas for the account of the first key is taken from the second. -/
theorem newaccount_spends_other_rows : packedImages.LooksUpKeys ∧
    ¬ ∀ (w : World State) (i : Ctx × Input (Action (List UInt8))) (w' : World State),
      Backed w → (contract packedImages account).step w i = .ok w' → Backed w' := by
  refine ⟨packedImages_looksUpKeys, fun hclaim => ?_⟩
  have hreach : Transition.Reaches (contract packedImages account).step Transition.Unrestricted
      (fun w => ¬ Backed w) inputs (genesis account (.ofDays 100)) := by decide +kernel
  obtain ⟨w, hrun, hshort⟩ := Transition.run_of_reaches hreach
  have hstart : Backed (genesis account (.ofDays 100)) := by decide
  exact hshort (hrun.invariant (P := Backed) (fun w i w' hw _ hs => hclaim w i w' hw hs) hstart)

/-- An account that held the gas before the deposits. -/
def funded : World State where
  state := .init account
  holding := fun x => if x = flonToken then 1000000 else 0
  clock := .ofDays 100

/-- There the second key stays backed. -/
theorem rows_stay_backed_sample :
    ∃ w, Transition.Run (contract packedImages account).step (fun w i => CoversGas w i.2) funded
        inputs w ∧
      booked w.state = 3000000 ∧ Backed w := by
  have hreach : Transition.Reaches (contract packedImages account).step
      (fun w i => CoversGas w i.2) (fun w => booked w.state = 3000000) inputs funded := by decide +kernel
  obtain ⟨w, hrun, hbooked⟩ := Transition.run_of_reaches hreach
  exact ⟨w, hrun, hbooked, (rows_stay_backed (by decide) hrun).1⟩

end Sample

end PubkeyToken
end ToolkitContracts
