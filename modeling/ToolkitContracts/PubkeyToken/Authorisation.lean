import ToolkitContracts.PubkeyToken.Backing

/-!
# What a signature of pubkey.token authorises

The holder of a key signs for two actions: `newaccount` is documented to take a signature of
the account and the key, `move` one of the time and the account. Both build their digest with
`hash_account`, from the account and the time alone, so nothing in the digest says which of
the two actions was signed for.
-/

namespace ToolkitContracts
namespace PubkeyToken

/-- The bytes that `hash_account` hashes: the account and the second of the time, without
anything between them. -/
def signedBytes (account : Name) (tp : TimePoint) : List UInt8 :=
  (account.toText ++ (toString tp.secSinceEpoch).toList).map fun c => UInt8.ofNat c.toNat

/-- The failure of the key-recovery check. -/
def wrongKey : Abort := ⟨none, "Error expected key different than recovered key"⟩

section Spec
variable {D S : Type} [DecidableEq D] (C : Crypto D S)

/-- Hashing is free of collisions, and a signature by a key is one of a single digest. -/
structure Crypto.Binding (C : Crypto D S) : Prop where
  collisionFree : Function.Injective C.sha256
  oneDigest : ∀ d d' sig pubkey, C.recovers d sig pubkey = true →
    C.recovers d' sig pubkey = true → d = d'

/-- A call of `newaccount` gets to its key-recovery check with the row `row`. -/
structure ReachesNewaccount (ctx : Ctx) (s : State) (miner : Name) (pubkey : PublicKey)
    (acct : Name) (row : PubkeyAccount) : Prop where
  auth : ctx.hasAuth miner = true
  unused : ctx.isAccount acct = false
  found : s.find C ctx pubkey = some row
  fee : s.gstate.minerFee.amount ≤ row.quantity.amount

/-- A call of `move` gets to its key-recovery check with the row `row`. -/
structure ReachesMove [Inhabited S] (ctx : Ctx) (s : State) (pubkey : PublicKey) (toAcct : Name)
    (sig : S) (row : PubkeyAccount) : Prop where
  used : ctx.isAccount toAcct = true
  validKey : pubkey ≠ default
  validSig : sig ≠ default
  found : s.find C ctx pubkey = some row
  fee : s.gstate.minerFee.amount ≤ row.quantity.amount

end Spec

/-! ## Getting to the check and past it -/

section Checks
variable {D S : Type} [DecidableEq D] [DecidableEq S] [Inhabited S] {C : Crypto D S} {self : Name}
  {ctx : Ctx} {s : State} {miner acct toAcct : Name} {pubkey : PublicKey} {sig : S}
  {row : PubkeyAccount} {lastRecvAt : TimePoint}

/-- The assets of a withdrawal have nothing to do with the key-recovery check. -/
theorem payments_not_wrongKey {β : Type} (quantity minerFee : FlonAsset) (recipient : Name)
    (feeMemo memo : List Char) (f : List Transfer → Effect β) :
    ¬ Fails (do
      let paid ← payments quantity minerFee miner recipient feeMemo memo
      return f paid) wrongKey := by
  have hcomparable : quantity.1.symbol = minerFee.1.symbol :=
    quantity.2.2.trans minerFee.2.2.symm
  unfold payments Asset.comparable
  simp only [bind_assoc]
  rw [fails_check]
  rintro (⟨hne, -⟩ | ⟨-, hfails⟩)
  · exact hne hcomparable
  · by_cases hrest : minerFee.amount < quantity.amount
    · simp only [if_pos hrest, Asset.sub, bind_assoc] at hfails
      rw [fails_check, fails_check, fails_check] at hfails
      -- the messages of the subtraction are not the one of the check
      rcases hfails with ⟨-, he⟩ | ⟨-, ⟨-, he⟩ | ⟨-, ⟨-, he⟩ | ⟨-, he⟩⟩⟩
      · exact absurd he (by decide)
      · exact absurd he (by decide)
      · exact absurd he (by decide)
      · exact he
    · simp only [if_neg hrest] at hfails
      exact hfails

/-- Once `newaccount` gets to its check, the check is about the time of the row. -/
theorem newaccount_wrongKey (h : ReachesNewaccount C ctx s miner pubkey acct row) :
    Fails (exec C self ctx (.newaccount miner pubkey acct sig) s) wrongKey ↔
      C.recovers (C.hashAccount acct row.lastRecvAt) sig pubkey = false := by
  have hcomparable : row.quantity.1.symbol = s.gstate.minerFee.1.symbol :=
    row.quantity.2.2.trans s.gstate.minerFee.2.2.symm
  show Fails (newaccount C self ctx miner pubkey acct sig s) wrongKey ↔ _
  rw [newaccount, Ctx.requireAuth, check_of h.auth, check_of h.unused, h.found, require, ok_bind,
    Asset.comparable, check_of hcomparable, check_of h.fee, Crypto.assertRecoverKey, fails_check]
  constructor
  · rintro (⟨hbad, -⟩ | ⟨-, hfails⟩)
    · exact Bool.eq_false_iff.mpr hbad
    · exact absurd hfails (payments_not_wrongKey _ _ _ _ _ _)
  · intro hbad
    exact Or.inl ⟨Bool.eq_false_iff.mp hbad, rfl⟩

/-- Once `move` gets to its check, the check is about the time that the caller hands in. -/
theorem move_wrongKey (h : ReachesMove C ctx s pubkey toAcct sig row) :
    Fails (exec C self ctx (.move miner pubkey lastRecvAt toAcct sig) s) wrongKey ↔
      C.recovers (C.hashAccount toAcct lastRecvAt) sig pubkey = false := by
  have hcomparable : row.quantity.1.symbol = s.gstate.minerFee.1.symbol :=
    row.quantity.2.2.trans s.gstate.minerFee.2.2.symm
  show Fails (move C ctx miner pubkey lastRecvAt toAcct sig s) wrongKey ↔ _
  rw [move, check_of h.used, check_of h.validKey, check_of h.validSig, h.found, require, ok_bind,
    Asset.comparable, check_of hcomparable, check_of h.fee, Crypto.assertRecoverKey, fails_check,
    fails_check]
  constructor
  · rintro (⟨hbad, -⟩ | ⟨-, ⟨-, he⟩ | ⟨-, hfails⟩⟩)
    · exact Bool.eq_false_iff.mpr hbad
    · exact absurd he (by decide)
    · exact absurd hfails (payments_not_wrongKey _ _ _ _ _ _)
  · intro hbad
    exact Or.inl ⟨Bool.eq_false_iff.mp hbad, rfl⟩

/-- A signature that passes the check of `newaccount` is refused by `move`, and the other way
round, exactly when the two calls hash different bytes: `hash_account` tells them apart by the
account and the second alone, and not by the action. -/
theorem newaccount_signature_moves (hC : C.Binding) {ctx' : Ctx} {s' : State} {miner' : Name}
    {row' : PubkeyAccount} (hnew : ReachesNewaccount C ctx s miner pubkey acct row)
    (hmove : ReachesMove C ctx' s' pubkey toAcct sig row') :
    (¬ Fails (exec C self ctx (.newaccount miner pubkey acct sig) s) wrongKey →
      (Fails (exec C self ctx' (.move miner' pubkey lastRecvAt toAcct sig) s') wrongKey ↔
        signedBytes toAcct lastRecvAt ≠ signedBytes acct row.lastRecvAt)) ∧
    (¬ Fails (exec C self ctx' (.move miner' pubkey lastRecvAt toAcct sig) s') wrongKey →
      (Fails (exec C self ctx (.newaccount miner pubkey acct sig) s) wrongKey ↔
        signedBytes toAcct lastRecvAt ≠ signedBytes acct row.lastRecvAt)) := by
  rw [newaccount_wrongKey hnew, move_wrongKey hmove, Bool.not_eq_false, Bool.not_eq_false]
  -- one digest for the signature, hence one list of bytes
  have hsame : C.recovers (C.hashAccount acct row.lastRecvAt) sig pubkey = true →
      C.recovers (C.hashAccount toAcct lastRecvAt) sig pubkey = true →
      signedBytes toAcct lastRecvAt = signedBytes acct row.lastRecvAt := by
    intro hacct hto
    exact hC.collisionFree (hC.oneDigest _ _ sig pubkey hto hacct)
  have hdigest : signedBytes toAcct lastRecvAt = signedBytes acct row.lastRecvAt →
      C.hashAccount toAcct lastRecvAt = C.hashAccount acct row.lastRecvAt :=
    fun hbytes => congrArg C.sha256 hbytes
  constructor
  · intro hacct
    constructor
    · intro hrefused hbytes
      rw [hdigest hbytes, hacct] at hrefused
      cases hrefused
    · intro hbytes
      rw [Bool.eq_false_iff]
      exact fun hto => hbytes (hsame hacct hto)
  · intro hto
    constructor
    · intro hrefused hbytes
      rw [← hdigest hbytes, hto] at hrefused
      cases hrefused
    · intro hbytes
      rw [Bool.eq_false_iff]
      exact fun hacct => hbytes (hsame hacct hto)

end Checks

/-! ## A signature used for the other action -/

namespace Sample

theorem packedImages_binding : packedImages.Binding := by
  constructor
  · exact Function.injective_id
  · intro d d' sig pubkey hd hd'
    have hsig : sig = d ++ packKey pubkey := of_decide_eq_true hd
    have hsig' : sig = d' ++ packKey pubkey := of_decide_eq_true hd'
    exact List.append_cancel_right (hsig.symm.trans hsig')

/-- Before the account carol exists. -/
def before : Ctx := create.1

/-- After somebody else registered the name carol. -/
def after : Ctx := .signed miner 102

theorem keyOf_ne_default : keyOf memo1 ≠ default := by decide +kernel

theorem signed_ne_default : signed memo1 carol 100 ≠ default := by decide +kernel

/-- The deposit stands under the first key. Both actions get to their signature checks with the
signature for carol: `newaccount` passes its check, and `move` to carol pays out. -/
theorem signed_for_carol : ∃ w row,
    Transition.Run (contract packedImages account).step Transition.Unrestricted
      (genesis account (.ofDays 100)) [depositOfAlice] w ∧
    row.lastRecvAt = .ofDays 100 ∧
    ReachesNewaccount packedImages before w.state miner (keyOf memo1) carol row ∧
    (∀ toAcct, ReachesMove packedImages after w.state (keyOf memo1) toAcct
      (signed memo1 carol 100) row) ∧
    ¬ Fails (exec packedImages account before
      (.newaccount miner (keyOf memo1) carol (signed memo1 carol 100)) w.state) wrongKey ∧
    Transition.Succeeds (exec packedImages account after
      (.move miner (keyOf memo1) (.ofDays 100) carol (signed memo1 carol 100)) w.state)
      fun e => e.2.map Transfer.recipient = [miner, carol] := by
  -- the transfers of `move` pay the miner and the registered account
  have hreach : Transition.Reaches (contract packedImages account).step Transition.Unrestricted
      (fun w => ∃ row ∈ w.state.find packedImages before (keyOf memo1),
        w.state.gstate.minerFee.amount ≤ row.quantity.amount ∧ row.lastRecvAt = .ofDays 100 ∧
        ¬ Fails (exec packedImages account before
          (.newaccount miner (keyOf memo1) carol (signed memo1 carol 100)) w.state) wrongKey ∧
        Transition.Succeeds (exec packedImages account after
          (.move miner (keyOf memo1) (.ofDays 100) carol (signed memo1 carol 100)) w.state)
          fun e => e.2.map Transfer.recipient = [miner, carol])
      [depositOfAlice] (genesis account (.ofDays 100)) := by decide
  obtain ⟨w, hrun, row, hrow, hfee, htime, hpass, hmoved⟩ := Transition.run_of_reaches hreach
  have hfound : w.state.find packedImages before (keyOf memo1) = some row := hrow
  have hnew : ReachesNewaccount packedImages before w.state miner (keyOf memo1) carol row :=
    ⟨by decide, by decide, hfound, hfee⟩
  exact ⟨w, row, hrun, htime, hnew,
    fun _ => ⟨rfl, keyOf_ne_default, signed_ne_default, hfound, hfee⟩, hpass, hmoved⟩

/-- The holder of the first key signs for the new account carol. Somebody else registers the
name, and the miner moves the tokens of the key there with the same signature. -/
theorem newaccount_signature_reused : packedImages.Binding ∧
    ¬ ∀ (ctx ctx' : Ctx) (s : State) (miner acct toAcct : Name) (pubkey : PublicKey)
      (sig : List UInt8) (row row' : PubkeyAccount) (lastRecvAt : TimePoint),
      ReachesNewaccount packedImages ctx s miner pubkey acct row →
      ReachesMove packedImages ctx' s pubkey toAcct sig row' →
      ¬ Fails (exec packedImages account ctx (.newaccount miner pubkey acct sig) s) wrongKey →
      Fails (exec packedImages account ctx' (.move miner pubkey lastRecvAt toAcct sig) s)
        wrongKey := by
  refine ⟨packedImages_binding, fun hclaim => ?_⟩
  obtain ⟨w, row, -, -, hnew, hmove, hpass, hmoved⟩ := signed_for_carol
  obtain ⟨e, he, -⟩ := Transition.succeeds_iff.mp hmoved
  have hfails := hclaim _ _ _ _ _ _ _ _ _ _ (.ofDays 100) hnew (hmove carol) hpass
  rw [fails_iff, he] at hfails
  cases hfails

/-- The signature for the new account carol does not move the tokens to bob. -/
theorem newaccount_signature_moves_sample :
    ∃ w, Transition.Run (contract packedImages account).step Transition.Unrestricted
        (genesis account (.ofDays 100)) [depositOfAlice] w ∧
      Fails (exec packedImages account after
        (.move miner (keyOf memo1) (.ofDays 100) bob (signed memo1 carol 100)) w.state) wrongKey := by
  obtain ⟨w, row, hrun, htime, hnew, hmove, hpass, -⟩ := signed_for_carol
  refine ⟨w, hrun,
    ((newaccount_signature_moves packedImages_binding hnew (hmove bob)).1 hpass).mpr ?_⟩
  rw [htime]
  decide

end Sample

end PubkeyToken
end ToolkitContracts
