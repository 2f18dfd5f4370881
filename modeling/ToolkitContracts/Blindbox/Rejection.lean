import Mathlib.Data.Set.Card
import ToolkitContracts.Blindbox.Draws
import ToolkitContracts.Lib.Residues

/-!
# The rejection test of a draw

`_rand` hashes again while the number is above a limit, so that the remainder that it takes
afterwards is not biased. The limit is the largest multiple of the range, and the limit itself is
still accepted: one number too many, which is drawn as 1. Every result lies in the range, but as
soon as there are two of them, 1 is the result of one number more than each of the others.
-/

namespace ToolkitContracts
namespace Blindbox

/-- A transaction in which every text has the hash that `hash` gives it. -/
def hashing (hash : List Char → UInt64) : Env where
  auths := []
  isAccount _ := true
  now := .ofDays 0
  plans _ _ _ := false
  taposBlockPrefix := 0
  taposBlockNum := 0
  sha256 := hash
  rehashes := 0

/-- The largest number that `_rand` does not reject. -/
def randLimit (range : UInt64) : UInt64 := 0xFFFFFFFFFFFFFFFF - 0xFFFFFFFFFFFFFFFF % range

/-- The rehash loop stops at the number `r1`. -/
def StopsAt (range r1 : UInt64) : Prop :=
  ∀ env fuel, rehash env (randLimit range) fuel r1 = .ok r1

/-- What `_rand` makes of a number that it accepts. -/
def randResult (range r1 : UInt64) : UInt64 := r1 % range + 1

/-- How many of the accepted numbers give the result `k`. -/
noncomputable def ways (range k : UInt64) : ℕ :=
  Set.ncard {r1 : UInt64 | StopsAt range r1 ∧ randResult range r1 = k}

/-- Every accepted number gives a result from 1 to the range, and every result is that of equally
many numbers. -/
def Unbiased (range : UInt64) : Prop :=
  (∀ r1, StopsAt range r1 →
    1 ≤ (randResult range r1).toNat ∧ (randResult range r1).toNat ≤ range.toNat) ∧
  ∀ k k' : UInt64, 1 ≤ k.toNat → k.toNat ≤ range.toNat → 1 ≤ k'.toNat → k'.toNat ≤ range.toNat →
    ways range k = ways range k'

section Rejection
variable {env : Env} {range r1 k : UInt64}

/-- The loop ends only with a number up to the limit, and at once if the first one is. -/
theorem rehash_spec {limit : UInt64} {fuel : ℕ} :
    (r1 ≤ limit → rehash env limit fuel r1 = .ok r1) ∧
    ∀ r2, rehash env limit fuel r1 = .ok r2 → r2 ≤ limit := by
  induction fuel generalizing r1 with
  | zero =>
    unfold rehash
    refine ⟨fun hle => if_pos hle, fun r2 h => ?_⟩
    split at h
    · next hle =>
      rw [← Except.ok.inj h]
      exact hle
    · cases h
  | succ fuel ih =>
    unfold rehash
    refine ⟨fun hle => if_pos hle, fun r2 h => ?_⟩
    split at h
    · next hle =>
      rw [← Except.ok.inj h]
      exact hle
    · exact ih.2 r2 h

theorem stopsAt_iff : StopsAt range r1 ↔ r1 ≤ randLimit range := by
  constructor
  · intro h
    exact rehash_spec.2 r1 (h (hashing fun _ => r1) 0)
  · intro hle env fuel
    exact rehash_spec.1 hle

/-- What `_rand` can return is the results of the numbers that it accepts. -/
theorem rand_accepted (hrange : range ≠ 0) :
    (∃ env owner index, rand env range owner index = .ok k) ↔
      ∃ r1, StopsAt range r1 ∧ k = randResult range r1 := by
  constructor
  · rintro ⟨env, owner, index, h⟩
    simp only [rand, bind_eq_ok, check_eq_ok, exists_const, pure_eq_ok] at h
    obtain ⟨-, r1, hloop, rfl⟩ := h
    exact ⟨r1, stopsAt_iff.mpr (rehash_spec.2 r1 hloop), rfl⟩
  · rintro ⟨r1, haccepted, rfl⟩
    -- every hash is this number
    refine ⟨hashing fun _ => r1, ⟨0⟩, 0, ?_⟩
    simp only [rand, bind_eq_ok, check_eq_ok, exists_const, pure_eq_ok]
    exact ⟨hrange, r1, haccepted _ _, rfl⟩

theorem range_pos (hrange : range ≠ 0) : 0 < range.toNat :=
  Nat.pos_of_ne_zero fun hzero => hrange (UInt64.toNat_inj.mp hzero)

theorem randResult_toNat (hrange : range ≠ 0) (r1 : UInt64) :
    (randResult range r1).toNat = r1.toNat % range.toNat + 1 := by
  have hlt : r1.toNat % range.toNat < range.toNat := Nat.mod_lt _ (range_pos hrange)
  have hmax : range.toNat < 2 ^ 64 := range.toNat_lt
  rw [randResult, UInt64.toNat_add, UInt64.toNat_mod]
  show (r1.toNat % range.toNat + 1) % 2 ^ 64 = _
  omega

/-- The limit is the largest multiple of the range. -/
theorem randLimit_toNat (range : UInt64) :
    (randLimit range).toNat = (2 ^ 64 - 1) / range.toNat * range.toNat := by
  have hmod : (0xFFFFFFFFFFFFFFFF % range : UInt64) ≤ 0xFFFFFFFFFFFFFFFF := by
    rw [UInt64.le_iff_toNat_le, UInt64.toNat_mod]
    exact Nat.mod_le _ _
  have hdiv := Nat.div_add_mod' (2 ^ 64 - 1) range.toNat
  rw [randLimit, UInt64.toNat_sub_of_le _ _ hmod, UInt64.toNat_mod]
  show 2 ^ 64 - 1 - (2 ^ 64 - 1) % range.toNat = _
  omega

/-- The ways to a result are the numbers up to the limit that leave its remainder. -/
theorem ways_eq_hits (hrange : range ≠ 0) (hk : 1 ≤ k.toNat) :
    ways range k = Residues.hits ((randLimit range).toNat + 1) range.toNat (k.toNat - 1) := by
  have himage : UInt64.toNat '' {r1 : UInt64 | StopsAt range r1 ∧ randResult range r1 = k}
      = ((Finset.range ((randLimit range).toNat + 1)).filter
          fun x => x % range.toNat = k.toNat - 1 : Finset ℕ) := by
    ext x
    simp only [Set.mem_image, Set.mem_ofPred_eq, stopsAt_iff, Finset.coe_filter, Finset.mem_range,
      UInt64.le_iff_toNat_le, ← UInt64.toNat_inj, randResult_toNat hrange]
    constructor
    · rintro ⟨r1, ⟨hle, hresult⟩, rfl⟩
      exact ⟨by omega, by omega⟩
    · rintro ⟨hlt, hmod⟩
      have hmax : (randLimit range).toNat < 2 ^ 64 := (randLimit range).toNat_lt
      have hx : (UInt64.ofNat x).toNat = x := UInt64.toNat_ofNat_of_lt' (by
        show x < 2 ^ 64
        omega)
      exact ⟨UInt64.ofNat x, ⟨by omega, by rw [hx]; omega⟩, hx⟩
  have hinj : Function.Injective UInt64.toNat := fun a b h => UInt64.toNat_inj.mp h
  rw [ways, ← Set.ncard_image_of_injective _ hinj, himage, Set.ncard_coe_finset, Residues.hits,
    Nat.count_eq_card_filter_range]

/-- One is the result of one number more than the other results are. -/
theorem ways_one (hrange : range ≠ 0) (hk : 2 ≤ k.toNat) (hle : k.toNat ≤ range.toNat) :
    ways range 1 = ways range k + 1 := by
  have hone : (1 : UInt64).toNat = 1 := rfl
  have hmod : ((2 ^ 64 - 1) / range.toNat * range.toNat + 1) % range.toNat = 1 := by
    rw [Nat.add_comm, Nat.add_mul_mod_self_right, Nat.mod_eq_of_lt (by omega)]
  rw [ways_eq_hits hrange (by omega), ways_eq_hits hrange (by omega), randLimit_toNat, hone,
    Residues.hits_eq (by omega), Residues.hits_eq (by omega), hmod, if_pos (by omega),
    if_neg (by omega)]

/-- The results are drawn evenly where the accepted numbers are whole periods of the range. -/
theorem ways_even_iff (hrange : range ≠ 0) :
    (∀ k k' : UInt64, 1 ≤ k.toNat → k.toNat ≤ range.toNat → 1 ≤ k'.toNat →
      k'.toNat ≤ range.toNat → ways range k = ways range k') ↔
    range.toNat ∣ (randLimit range).toNat + 1 := by
  have hmax : range.toNat < 2 ^ 64 := range.toNat_lt
  rw [← Residues.hits_even_iff (range_pos hrange)]
  constructor
  · intro heven v hv v' hv'
    have hval : ∀ x < range.toNat, (UInt64.ofNat (x + 1)).toNat = x + 1 := by
      intro x hx
      exact UInt64.toNat_ofNat_of_lt' (by
        show x + 1 < 2 ^ 64
        omega)
    have hsame := heven (UInt64.ofNat (v + 1)) (UInt64.ofNat (v' + 1))
    rw [hval v hv, hval v' hv'] at hsame
    have hways := hsame (by omega) hv (by omega) hv'
    rwa [ways_eq_hits hrange (by rw [hval v hv]; omega), hval v hv,
      ways_eq_hits hrange (by rw [hval v' hv']; omega), hval v' hv'] at hways
  · intro hhits k k' hk hle hk' hle'
    rw [ways_eq_hits hrange hk, ways_eq_hits hrange hk']
    exact hhits _ (by omega) _ (by omega)

/-- Every accepted number gives a result in the range, and one of the numbers too many gives 1. A
draw is even only where 1 is the one result. -/
theorem unbiased_iff (hrange : range ≠ 0) :
    (∀ k, (∃ env owner index, rand env range owner index = .ok k) ↔
      ∃ r1, StopsAt range r1 ∧ k = randResult range r1) ∧
    (∀ r1, StopsAt range r1 →
      1 ≤ (randResult range r1).toNat ∧ (randResult range r1).toNat ≤ range.toNat) ∧
    (∀ k : UInt64, 2 ≤ k.toNat → k.toNat ≤ range.toNat → ways range 1 = ways range k + 1) ∧
    (Unbiased range ↔ range = 1) := by
  have hbounds : ∀ r1, StopsAt range r1 →
      1 ≤ (randResult range r1).toNat ∧ (randResult range r1).toNat ≤ range.toNat := by
    intro r1 _
    have hlt : r1.toNat % range.toNat < range.toNat := Nat.mod_lt _ (range_pos hrange)
    rw [randResult_toNat hrange]
    omega
  refine ⟨fun k => rand_accepted hrange, hbounds, fun k => ways_one hrange, ?_⟩
  -- the limit is a multiple of the range, so the range divides its successor only if it is 1
  have hperiods : range.toNat ∣ (randLimit range).toNat + 1 ↔ range = 1 := by
    rw [randLimit_toNat, Nat.dvd_add_right (Nat.dvd_mul_left _ _), Nat.dvd_one,
      ← UInt64.toNat_inj]
    rfl
  rw [← hperiods, ← ways_even_iff hrange, Unbiased]
  exact and_iff_right hbounds

theorem Sample.unbiased_iff_two : ways 2 1 = ways 2 2 + 1 ∧ ¬ Unbiased 2 := by
  have h := @unbiased_iff 2 (by decide)
  exact ⟨h.2.2.1 2 (by decide) (by decide), fun hu => absurd (h.2.2.2.mp hu) (by decide)⟩

/-- With two results, one number more is drawn as 1 than as 2. -/
theorem not_unbiased : ¬ ∀ range : UInt64, range ≠ 0 → Unbiased range := by
  intro h
  have hsame := (h 2 (by decide)).2 1 2 (by decide) (by decide) (by decide) (by decide)
  have hmore : ways 2 1 = ways 2 2 + 1 := ways_one (by decide) (by decide) (by decide)
  omega

end Rejection

end Blindbox
end ToolkitContracts
