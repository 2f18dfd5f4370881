import ToolkitContracts.PubkeyToken.Decoding

/-!
# The checksum of a memo

The memo of a deposit is the base58 form of 37 bytes. The first 33 are the key that the tokens are
booked to. The other four are there to tell a mistyped key, but nothing compares them with the
first. So no memo is the only one for its key: whichever four bytes follow the key, there is a
memo for them, and a transfer with that memo is booked to the same key.
-/

namespace ToolkitContracts
namespace PubkeyToken

/-- Every other memo that is accepted names another key. -/
def OwnKey (memo : List Char) : Prop :=
  ∀ (memo' : List Char) (key key' : PublicKey), NoSpace memo' → memo' ≠ memo →
    strToPubkey memo = .ok key → strToPubkey memo' = .ok key' → key ≠ key'

section Memo
variable {memo : List Char} {key : PublicKey}

/-- There are four other bytes. -/
theorem exists_other_tail (check : List UInt8) : ∃ tail : List UInt8, tail.length = 4 ∧ tail ≠ check := by
  by_cases hzero : check = [0, 0, 0, 0]
  · refine ⟨[0, 0, 0, 1], rfl, ?_⟩
    rw [hzero]
    decide
  · exact ⟨[0, 0, 0, 0], rfl, Ne.symm hzero⟩

/-- No accepted memo is the only one for its key. The last four bytes that it is decoded to can be
replaced by any others, which gives another memo; and a transfer with that memo does what the
transfer with this one does. -/
theorem checksum_not_checked (h : strToPubkey memo = .ok key) :
    ¬ OwnKey memo ∧
    ∃ first check : List UInt8, first.length = 33 ∧ check.length = 4 ∧
      decodeBase58 (memo.drop 2) = some (first ++ check) ∧
      ∀ tail : List UInt8, tail.length = 4 → ∃ memo', NoSpace memo' ∧
        strToPubkey memo' = .ok key ∧ decodeBase58 (memo'.drop 2) = some (first ++ tail) ∧
        (tail ≠ check → memo' ≠ memo) ∧
        ∀ {D S : Type} [DecidableEq D] (C : Crypto D S) (self : Name) (ctx : Ctx) (n : Notice)
          (s : State), ontransfer C self ctx { n with memo := memo' } s
            = ontransfer C self ctx { n with memo } s := by
  obtain ⟨first, check, hcheck, hdecode, rfl⟩ := strToPubkey_spec h
  refine ⟨fun hown => ?_, first.1, check, first.2, hcheck, hdecode, fun tail htail => ?_⟩
  · obtain ⟨tail, htail, hne⟩ := exists_other_tail check
    exact hown _ _ _ (noSpace_memoOf first.1 tail) (memoOf_ne first.2 htail hdecode hne) h
      (strToPubkey_memoOf first htail) rfl
  · have hsame := strToPubkey_memoOf first htail
    refine ⟨memoOf first.1 tail, noSpace_memoOf first.1 tail, hsame, decode_memoOf first.2 htail,
      memoOf_ne first.2 htail hdecode, ?_⟩
    intro D S _ C self ctx n s
    -- the handler looks at the memo for the key only
    simp only [ontransfer, hsame, h]

end Memo

/-! ## A mistyped letter -/

namespace Sample

/-- The first memo with another last letter. -/
def mistyped : List Char := "FU6MRyAjQq8ud7hVNYcfnVPJqcVpscN5So8BhtHuGYqET5GDW5CW".toList

theorem strToPubkey_mistyped : strToPubkey mistyped = strToPubkey memo1 ∧
    (strToPubkey memo1).toBool = true := by decide +kernel

/-- The mistyped memo names the same key. -/
theorem mistyped_accepted :
    ¬ ∀ (memo memo' : List Char) (key key' : PublicKey), NoSpace memo → NoSpace memo' →
      memo ≠ memo' → strToPubkey memo = .ok key → strToPubkey memo' = .ok key' → key ≠ key' := by
  intro hclaim
  obtain ⟨hsame, haccepted⟩ := strToPubkey_mistyped
  cases hkey : strToPubkey memo1 with
  | error e =>
    rw [hkey] at haccepted
    cases haccepted
  | ok key =>
    rw [hkey] at hsame
    exact hclaim memo1 mistyped key key (by decide) (by decide) (by decide) hkey hsame rfl

/-- The first memo is not the only one for its key. -/
theorem checksum_not_checked_sample : ¬ OwnKey memo1 := by
  obtain ⟨-, haccepted⟩ := strToPubkey_mistyped
  cases hkey : strToPubkey memo1 with
  | error e =>
    rw [hkey] at haccepted
    cases haccepted
  | ok key => exact (checksum_not_checked hkey).1

end Sample

end PubkeyToken
end ToolkitContracts
