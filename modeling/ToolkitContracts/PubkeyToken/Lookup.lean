import ToolkitContracts.PubkeyToken.Backing

/-!
# The index and the lookups

The index `by.pubkey` hashes the packed key, and every lookup hashes the memory of a key
object. The two agree when they hash the same bytes. They never do: a key from a memo packs
into 34 bytes, and a key object is larger. So a deposit always opens a new row, and nothing
that was booked is ever found again.
-/

namespace ToolkitContracts
namespace PubkeyToken

/-! ## What the index is for -/

/-- The deposits to each key since its last withdrawal. -/
abbrev Deposits := PublicKey → ℤ

/-- Set the deposits to one key. -/
def Deposits.set (g : Deposits) (pubkey : PublicKey) (amount : ℤ) : Deposits :=
  fun k => if k = pubkey then amount else g k

section Spec
variable {D S : Type} [DecidableEq D] [DecidableEq S] [Inhabited S] (C : Crypto D S) (self : Name)

/-- The deposits after a successful input. -/
def Deposits.after (g : Deposits) : Input (Action S) → Deposits
  | .notify n =>
    match strToPubkey n.memo with
    | .ok pubkey =>
      if n.recipient = self then g.set pubkey (g pubkey + n.quantity.amount) else g
    | .error _ => g
  | .act (.newaccount _ pubkey _ _) | .act (.move _ pubkey _ _ _) => g.set pubkey 0
  | .act (.init _) => g

/-- One transaction, with the deposits written down. -/
def stepRecorded : World State × Deposits → Ctx × Input (Action S) →
    Except Abort (World State × Deposits) :=
  Transition.recording (contract C self).step fun g _ i _ => g.after self i.2

/-- The failure of a withdrawal whose key is not found. -/
def pubkeyNotFound : Abort := ⟨none, "pubkey not found"⟩

/-- The lookups find what the index stores: a row is found under its own key and is the only
one of that key, its quantity is what was deposited to the key since its last withdrawal, and
a withdrawal of it with a valid signature and enough for the fee is not refused for an
unknown key. -/
structure IndexAgrees (account : Name) (p : World State × Deposits) : Prop where
  found : ∀ r ∈ p.1.state.pkaccts, ∀ ctx, p.1.state.find C ctx r.pubkey = some r
  unique : ∀ r ∈ p.1.state.pkaccts, ∀ r' ∈ p.1.state.pkaccts, r.pubkey = r'.pubkey → r = r'
  quantity : ∀ r ∈ p.1.state.pkaccts, r.quantity.amount = p.2 r.pubkey
  newaccount : ∀ r ∈ p.1.state.pkaccts, p.1.state.gstate.minerFee.amount ≤ r.quantity.amount →
    ∀ ctx miner acct sig, C.recovers (C.hashAccount acct r.lastRecvAt) sig r.pubkey = true →
      ¬ Fails (exec C account ctx (.newaccount miner r.pubkey acct sig) p.1.state) pubkeyNotFound
  move : ∀ r ∈ p.1.state.pkaccts, p.1.state.gstate.minerFee.amount ≤ r.quantity.amount →
    ∀ ctx miner toAcct sig, C.recovers (C.hashAccount toAcct r.lastRecvAt) sig r.pubkey = true →
      ¬ Fails (exec C account ctx (.move miner r.pubkey r.lastRecvAt toAcct sig) p.1.state)
        pubkeyNotFound

/-- What the contract's surroundings promise: hashing is free of collisions, an elliptic curve
key packs into an index byte and its 33 bytes, and a key object takes up more than that. -/
structure Crypto.Standard (C : Crypto D S) : Prop where
  collisionFree : Function.Injective C.sha256
  packed : ∀ key, (C.pack (.k1 key)).length = 34
  object : ∀ ctx k, 34 < (C.image ctx k).length

/-- The input is a transfer to the contract. -/
def IsDeposit (self : Name) : Input (Action S) → Prop
  | .notify n => n.recipient = self
  | .act _ => False

instance (self : Name) : (i : Input (Action S)) → Decidable (IsDeposit self i)
  | .notify n => inferInstanceAs (Decidable (n.recipient = self))
  | .act _ => inferInstanceAs (Decidable False)

end Spec

/-! ## Lookups -/

/-- Every row has a key of the first alternative. -/
def FromMemos (s : State) : Prop := ∀ r ∈ s.pkaccts, r.pubkey.IsK1

section Lookups
variable {D S : Type} {C : Crypto D S} {self : Name} {ctx : Ctx} {s s' : State}
  {i : Input (Action S)} {outs : List Transfer}

/-- A key object and a packed key from a memo have different hashes. -/
theorem sha256pk_ne_imageHash (hC : C.Standard) {k : PublicKey} (hk : k.IsK1) (ctx : Ctx)
    (pubkey : PublicKey) : C.sha256pk k ≠ C.imageHash ctx pubkey := by
  intro heq
  obtain ⟨key, rfl⟩ := hk
  have hbytes : C.pack (.k1 key) = C.image ctx pubkey := hC.collisionFree heq
  -- the packed key has 34 bytes
  have hlength := hC.object ctx pubkey
  rw [← hbytes, hC.packed key] at hlength
  omega

variable [DecidableEq D]

/-- Lookups find nothing. -/
theorem find_eq_none (hC : C.Standard) (hs : FromMemos s) (ctx : Ctx) (pubkey : PublicKey) :
    s.find C ctx pubkey = none := by
  unfold State.find
  rw [List.find?_eq_none]
  intro r hr
  rw [decide_eq_true_eq]
  exact sha256pk_ne_imageHash hC (hs r hr) ctx pubkey

/-- A row that is stored comes from a memo. -/
theorem fromMemos_of_move (hC : C.Standard) (hs : FromMemos s) (hm : Move C self ctx s i s' outs) :
    FromMemos s' := by
  cases hm with
  | ignore | init => exact hs
  | book n row hn hnone hnew hquantity =>
    exact Table.forall_put hs (isK1_of_strToPubkey hn.memo)
  | add n pubkey old row hn hfind =>
    -- a deposit is never added to a row, for want of a lookup that succeeds
    rw [find_eq_none hC hs] at hfind
    cases hfind
  | newaccount miner pubkey acct sig row paid hfind
  | move miner pubkey lastRecvAt toAcct sig row paid hfind =>
    rw [find_eq_none hC hs] at hfind
    cases hfind

/-- Only a deposit changes the rows, and it adds one. -/
theorem rows_of_move (hC : C.Standard) (hs : FromMemos s) (hm : Move C self ctx s i s' outs)
    (hsigner : Contract.signer? i ≠ some self) :
    (∃ r, r ∈ s'.pkaccts) ↔ (∃ r, r ∈ s.pkaccts) ∨ IsDeposit self i := by
  cases hm with
  | ignore n hn =>
    have hother : n.recipient ≠ self := hn.resolve_right (Contract.sender_ne hsigner)
    exact ⟨Or.inl, fun h => h.resolve_right hother⟩
  | book n row hn hnone hnew hquantity =>
    exact ⟨fun _ => Or.inr hn.recipient, fun _ => ⟨row, Table.mem_put_self _ _⟩⟩
  | add n pubkey old row hn hfind =>
    -- the other moves start from a lookup
    rw [find_eq_none hC hs] at hfind
    cases hfind
  | newaccount miner pubkey acct sig row paid hfind
  | move miner pubkey lastRecvAt toAcct sig row paid hfind =>
    rw [find_eq_none hC hs] at hfind
    cases hfind
  | init admin => exact ⟨Or.inl, fun h => h.resolve_right fun hno => hno⟩

end Lookups

/-! ## Runs -/

section Runs
variable {D S : Type} [DecidableEq D] [DecidableEq S] [Inhabited S] {C : Crypto D S} {self : Name}
  {clock : TimePoint} {is : List (Ctx × Input (Action S))} {p : World State × Deposits}

/-- In every run the keys come from memos, and there are rows once there was a deposit. -/
theorem rows_of_run (hC : C.Standard)
    (hrun : Transition.Run (stepRecorded C self) Transition.Unrestricted
      (genesis self clock, fun _ => 0) is p) :
    FromMemos p.1.state ∧ ((∃ r, r ∈ p.1.state.pkaccts) ↔ ∃ i ∈ is, IsDeposit self i.2) := by
  refine hrun.invariant_inputs (P := fun is p => FromMemos p.1.state ∧
    ((∃ r, r ∈ p.1.state.pkaccts) ↔ ∃ i ∈ is, IsDeposit self i.2)) ?_ ?_
  · rintro is p i p' ⟨hmemos, hrows⟩ - hs
    obtain ⟨hstep, -⟩ := Transition.recording_eq_ok.mp hs
    obtain ⟨-, hsigner, -, outs, hcode, -⟩ := ((contract C self).step_eq_ok).mp hstep
    have hm := move_of_run hcode
    refine ⟨fromMemos_of_move hC hmemos hm, ?_⟩
    rw [rows_of_move hC hmemos hm hsigner, hrows]
    simp only [List.mem_append, List.mem_singleton, or_and_right, exists_or, exists_eq_left]
  · refine ⟨fun r hr => absurd hr (Table.not_mem_empty r), ?_⟩
    constructor
    · rintro ⟨r, hr⟩
      exact absurd hr (Table.not_mem_empty r)
    · rintro ⟨i, hi, -⟩
      cases hi

/-- The index and the lookups agree after a run exactly when nothing was deposited in it. -/
theorem index_agrees_iff (hC : C.Standard)
    (hrun : Transition.Run (stepRecorded C self) Transition.Unrestricted
      (genesis self clock, fun _ => 0) is p) :
    IndexAgrees C self p ↔ ∀ i ∈ is, ¬ IsDeposit self i.2 := by
  obtain ⟨hmemos, hrows⟩ := rows_of_run hC hrun
  constructor
  · intro hagrees i hi hdeposit
    obtain ⟨r, hr⟩ := hrows.mpr ⟨i, hi, hdeposit⟩
    -- no lookup finds the row that the deposit opened
    have hfound := hagrees.found r hr i.1
    rw [find_eq_none hC hmemos] at hfound
    cases hfound
  · intro hnone
    -- without a deposit the table is empty, and there is nothing to agree on
    have hempty : ∀ r, r ∉ p.1.state.pkaccts := by
      intro r hr
      obtain ⟨i, hi, hdeposit⟩ := hrows.mp ⟨r, hr⟩
      exact hnone i hi hdeposit
    constructor
    · exact fun r hr => absurd hr (hempty r)
    · exact fun r hr => absurd hr (hempty r)
    · exact fun r hr => absurd hr (hempty r)
    · exact fun r hr => absurd hr (hempty r)
    · exact fun r hr => absurd hr (hempty r)

end Runs

/-! ## A deposit that cannot be withdrawn -/

namespace Sample

/-- A key object on the 32-bit target, for short texts: 48 bytes for the largest of the
alternatives, and the index of the alternative as a word. -/
def objectImage : PublicKey → List UInt8
  | .k1 key => key.1 ++ List.replicate 15 0 ++ [0, 0, 0, 0]
  | .r1 key => key.1 ++ List.replicate 15 0 ++ [1, 0, 0, 0]
  | .webauthn w =>
    let rpid := ((UInt8.ofNat (2 * w.rpid.length) :: w.rpid) ++ List.replicate 12 0).take 12
    w.key.1 ++ [w.userPresence, 0, 0] ++ rpid ++ [2, 0, 0, 0]

theorem length_objectImage (k : PublicKey) : (objectImage k).length = 52 := by
  cases k with
  | k1 key | r1 key => simp [objectImage, key.2]
  | webauthn w =>
    simp only [objectImage, List.length_append, List.length_take, List.length_cons,
      List.length_replicate, List.length_nil, w.key.2]
    omega

/-- The chain as it is: the lookups hash the key object. -/
def objectImages : Crypto (List UInt8) (List UInt8) := crypto fun _ => objectImage

theorem objectImages_standard : objectImages.Standard := by
  constructor
  · exact Function.injective_id
  · intro key
    show (0 :: key.1).length = 34
    rw [List.length_cons, key.2]
  · intro ctx k
    show 34 < (objectImage k).length
    rw [length_objectImage]
    omega

/-- No rows, and no deposits. -/
def start : World State × Deposits := (genesis account (.ofDays 100), fun _ => 0)

/-- A deposit is booked, and a withdrawal of it with a valid signature is refused. -/
theorem deposit_not_found :
    ¬ ∀ (is : List (Ctx × Input (Action (List UInt8)))) (p : World State × Deposits),
      Transition.Run (stepRecorded objectImages account) Transition.Unrestricted start is p →
      IndexAgrees objectImages account p := by
  intro hclaim
  -- a row with enough for the fee, a valid signature, and the failure
  have hreach : Transition.Reaches (stepRecorded objectImages account) Transition.Unrestricted
      (fun p => ∃ r ∈ p.1.state.pkaccts.find? 1,
        p.1.state.gstate.minerFee.amount ≤ r.quantity.amount ∧
        objectImages.recovers (objectImages.hashAccount carol r.lastRecvAt)
          (signed memo1 carol 100) r.pubkey = true ∧
        Fails (exec objectImages account create.1
          (.newaccount miner r.pubkey carol (signed memo1 carol 100)) p.1.state) pubkeyNotFound)
      [depositOfAlice] start := by decide +kernel
  obtain ⟨p, hrun, r, hr, hfee, hsig, hfails⟩ := Transition.run_of_reaches hreach
  have hstored := (Table.find?_eq_some.mp hr).1
  exact (hclaim _ p hrun).newaccount r hstored hfee _ _ _ _ hsig hfails

/-- A transfer between others leaves the index as it is; a deposit does not. -/
theorem index_agrees_iff_sample :
    (∃ p, Transition.Run (stepRecorded objectImages account) Transition.Unrestricted start
        [(.signed alice 100, .notify ⟨sysBank, alice, bob, gasQuant.1, [], gasQuant.2.1⟩)] p ∧
      IndexAgrees objectImages account p) ∧
    ∃ p, Transition.Run (stepRecorded objectImages account) Transition.Unrestricted start
        [depositOfAlice] p ∧
      ¬ IndexAgrees objectImages account p := by
  constructor
  · have hreach : Transition.Reaches (stepRecorded objectImages account) Transition.Unrestricted
        (fun p => p.1.clock = .ofDays 100)
        [(.signed alice 100, .notify ⟨sysBank, alice, bob, gasQuant.1, [], gasQuant.2.1⟩)]
        start := by decide +kernel
    obtain ⟨p, hrun, -⟩ := Transition.run_of_reaches hreach
    refine ⟨p, hrun, (index_agrees_iff objectImages_standard hrun).mpr ?_⟩
    decide +kernel
  · have hreach : Transition.Reaches (stepRecorded objectImages account) Transition.Unrestricted
        (fun p => p.1.clock = .ofDays 100) [depositOfAlice] start := by decide +kernel
    obtain ⟨p, hrun, -⟩ := Transition.run_of_reaches hreach
    refine ⟨p, hrun, fun hagrees => ?_⟩
    have hnone := (index_agrees_iff objectImages_standard hrun).mp hagrees
    exact absurd hnone (by decide)

end Sample

end PubkeyToken
end ToolkitContracts
