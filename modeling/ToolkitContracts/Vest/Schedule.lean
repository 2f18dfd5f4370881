import ToolkitContracts.Vest.Accounting

/-!
# The schedule that `unlock` computes

`unlock` derives the released amount through narrowing conversions, an unsigned minimum and
a rounded product. For the issues and plans of a reachable state all of this comes out as
`released issued periods unlock_times`, where `periods` counts the unlock periods that have
begun. From there on the question whether the assertions of `unlock` hold is a question
about `released`.
-/

namespace ToolkitContracts
namespace Vest

open Schedule

/-- The whole days since an issue was made. -/
def elapsedDays (i : VestIssue) (now : TimePoint) : ℕ :=
  (now.secSinceEpoch - i.issuedAt.secSinceEpoch) / daySeconds

/-- The unlock periods of an issue that have begun: none before its first unlock day. -/
def periods (p : VestPlan) (i : VestIssue) (now : TimePoint) : ℕ :=
  if elapsedDays i now < i.firstUnlockDays then 0
  else 1 + (elapsedDays i now - i.firstUnlockDays) / p.unlockIntervalDays

/-- What the schedule has released of an issue. -/
def releasedOf (p : VestPlan) (i : VestIssue) (now : TimePoint) : ℤ :=
  released i.issued.amount (periods p i now) p.unlockTimes

section Arithmetic
variable {p : VestPlan} {i : VestIssue} {now now' : TimePoint} {total : ℤ}

theorem elapsedDays_mono (h : now ≤ now') : elapsedDays i now ≤ elapsedDays i now' := by
  apply Nat.div_le_div_right
  have := TimePoint.secSinceEpoch_mono h
  omega

theorem periods_mono (h : now ≤ now') : periods p i now ≤ periods p i now' := by
  have hdays := elapsedDays_mono (i := i) h
  unfold periods
  by_cases hfirst : elapsedDays i now < i.firstUnlockDays
  · rw [if_pos hfirst]
    exact Nat.zero_le _
  · have hfirst' : ¬ elapsedDays i now' < i.firstUnlockDays := by omega
    rw [if_neg hfirst, if_neg hfirst']
    apply Nat.add_le_add_left
    apply Nat.div_le_div_right
    omega

theorem periods_pos (h : i.firstUnlockDays ≤ elapsedDays i now) : 0 < periods p i now := by
  rw [periods, if_neg (by omega)]
  exact Nat.add_pos_left Nat.one_pos _

theorem elapsedDays_lt (i : VestIssue) (now : TimePoint) : elapsedDays i now < 49711 := by
  have hlt := now.secSinceEpoch_lt
  unfold elapsedDays daySeconds
  omega

/-- The narrowing conversions of the day count lose nothing. -/
theorem unlockedDays_eq (h : i.issuedAt ≤ now) (hfirst : i.firstUnlockDays ≤ maxLockDays) :
    unlockedDays now i = elapsedDays i now - i.firstUnlockDays := by
  have hsec := TimePoint.secSinceEpoch_mono h
  have hlt := now.secSinceEpoch_lt
  have hdays := elapsedDays_lt i now
  have hmax : maxLockDays = 3650 := rfl
  -- the seconds fit `uint32_t`, and the issue is not younger than now
  have hu32 : u32 ((now.secSinceEpoch : ℤ) - i.issuedAt.secSinceEpoch)
      = now.secSinceEpoch - i.issuedAt.secSinceEpoch := by
    have := u32_eq (x := (now.secSinceEpoch : ℤ) - i.issuedAt.secSinceEpoch) (by omega) (by omega)
    omega
  have hdef : unlockedDays now i = i32 (u64 ((elapsedDays i now : ℤ) - i.firstUnlockDays)) := by
    rw [unlockedDays, elapsedDays, hu32]
  rw [hdef]
  apply i32_u64
  · omega
  · omega

/-- Capping the periods at the plan's number changes nothing that `unlock` looks at. -/
theorem unlockedTimes_eq (hp : p.Sound) (hi : i.issuedAt ≤ now)
    (hfirst : i.firstUnlockDays ≤ maxLockDays) (hdays : i.firstUnlockDays ≤ elapsedDays i now) :
    unlockedTimes p (unlockedDays now i) = 1 + min (periods p i now - 1) p.unlockTimes := by
  have hlt := elapsedDays_lt i now
  have htimes := hp.times
  have hcast : (u64 ((elapsedDays i now : ℤ) - i.firstUnlockDays))
      = elapsedDays i now - i.firstUnlockDays := by
    have := u64_eq (x := (elapsedDays i now : ℤ) - i.firstUnlockDays) (by omega) (by omega)
    omega
  rw [unlockedTimes, unlockedDays_eq hi hfirst, hcast, periods, if_neg (by omega),
    Nat.add_sub_cancel_left]
  -- only the quotient and its bound matter from here on
  generalize (elapsedDays i now - i.firstUnlockDays) / p.unlockIntervalDays = q
  have hword := u64_eq (x := 1 + (min q p.unlockTimes : ℕ)) (by omega) (by omega)
  push_cast at hword ⊢
  omega

theorem periods_lt (p : VestPlan) (i : VestIssue) (now : TimePoint) : periods p i now < 49713 := by
  have hlt := elapsedDays_lt i now
  have hdiv := Nat.div_le_self (elapsedDays i now - i.firstUnlockDays) p.unlockIntervalDays
  unfold periods
  split <;> omega

/-- Before the last period the amount is a rounded product, which succeeds when its scaled
quotient is an `int64_t`. -/
theorem multiplyDecimal64_issued (hp : p.Sound) (hi : 0 ≤ i.issued.amount)
    (hlt : periods p i now < p.unlockTimes) :
    multiplyDecimal64 i.issued.amount (periods p i now) p.unlockTimes = .ok total ↔
      10 * i.issued.amount * periods p i now / p.unlockTimes ≤ 2 ^ 63 - 1 ∧
      total = releasedOf p i now := by
  have hbounds := i.issued.bounds
  have hperiods := periods_lt p i now
  have htimes := hp.times
  -- the scaled product fits `int128_t`
  have h128 : 10 * i.issued.amount * (periods p i now : ℤ) < 2 ^ 127 := by
    calc 10 * i.issued.amount * (periods p i now : ℤ)
        ≤ 10 * 2 ^ 63 * 49713 := by
          apply mul_le_mul
          · omega
          · omega
          · omega
          · norm_num
      _ < 2 ^ 127 := by norm_num
  rw [multiplyDecimal64_eq_ok hi (by omega) (by omega) h128, releasedOf,
    released_of_lt (by omega)]

/-- What `unlock` computes, when it does, is what the schedule has released. -/
theorem totalUnlocked_eq (hp : p.Sound) (hi : i.issuedAt ≤ now)
    (hfirst : i.firstUnlockDays ≤ maxLockDays) (hdays : i.firstUnlockDays ≤ elapsedDays i now)
    (hissued : 0 ≤ i.issued.amount)
    (h : totalUnlocked p i (unlockedTimes p (unlockedDays now i)) = .ok total) :
    total = releasedOf p i now := by
  have hpos := periods_pos (p := p) hdays
  rw [unlockedTimes_eq hp hi hfirst hdays, totalUnlocked] at h
  by_cases hlast : p.unlockTimes ≤ periods p i now
  -- the last period has begun: everything is released
  · rw [if_pos (by omega), Except.ok.injEq] at h
    rw [releasedOf, released_of_le (by omega), h]
  · have htimes : 1 + min (periods p i now - 1) p.unlockTimes = periods p i now := by omega
    rw [htimes, if_neg hlast] at h
    simp only [bind_eq_ok, check_eq_ok, exists_const, pure_eq_ok] at h
    obtain ⟨r, hr, -, rfl⟩ := h
    exact ((multiplyDecimal64_issued hp hissued (by omega)).mp hr).2

/-- Where the scaled quotient fits an `int64_t`, the computation before the last period comes
down to its assertion. -/
theorem totalUnlocked_of_quotient (hp : p.Sound) (hi : i.issuedAt ≤ now)
    (hfirst : i.firstUnlockDays ≤ maxLockDays) (hdays : i.firstUnlockDays ≤ elapsedDays i now)
    (hissued : 0 ≤ i.issued.amount) (hlt : periods p i now < p.unlockTimes)
    (hquot : 10 * i.issued.amount * periods p i now / p.unlockTimes ≤ 2 ^ 63 - 1) :
    totalUnlocked p i (unlockedTimes p (unlockedDays now i)) = (do
      check (i.unlocked.amount ≤ releasedOf p i now ∧ releasedOf p i now ≤ i.issued.amount)
        "total_unlocked >= issue_itr->unlocked.amount && issue_itr->issued.amount >= total_unlocked"
      return releasedOf p i now) := by
  have hpos := periods_pos (p := p) hdays
  have htimes : 1 + min (periods p i now - 1) p.unlockTimes = periods p i now := by omega
  rw [unlockedTimes_eq hp hi hfirst hdays, totalUnlocked, htimes, if_neg (by omega),
    (multiplyDecimal64_issued hp hissued hlt).mpr ⟨hquot, rfl⟩, ok_bind]

/-- On amounts whose ten-fold fits an `int64_t`, it does. -/
theorem totalUnlocked_of_lt (hp : p.Sound) (hi : i.issuedAt ≤ now)
    (hfirst : i.firstUnlockDays ≤ maxLockDays) (hdays : i.firstUnlockDays ≤ elapsedDays i now)
    (hissued : 0 ≤ i.issued.amount) (hten : 10 * i.issued.amount < 2 ^ 63)
    (hlt : periods p i now < p.unlockTimes) :
    totalUnlocked p i (unlockedTimes p (unlockedDays now i)) = (do
      check (i.unlocked.amount ≤ releasedOf p i now ∧ releasedOf p i now ≤ i.issued.amount)
        "total_unlocked >= issue_itr->unlocked.amount && issue_itr->issued.amount >= total_unlocked"
      return releasedOf p i now) := by
  -- before the last period the scaled quotient is below ten times the amount
  have hquot : 10 * i.issued.amount * periods p i now / p.unlockTimes ≤ 2 ^ 63 - 1 := by
    calc 10 * i.issued.amount * (periods p i now : ℤ) / p.unlockTimes
        ≤ 10 * i.issued.amount * (p.unlockTimes : ℤ) / p.unlockTimes := by
          apply Int.ediv_le_ediv (by omega)
          apply mul_le_mul_of_nonneg_left
          · omega
          · omega
      _ = 10 * i.issued.amount := Int.mul_ediv_cancel _ (by omega)
      _ ≤ 2 ^ 63 - 1 := by omega
  exact totalUnlocked_of_quotient hp hi hfirst hdays hissued hlt hquot

/-- When the schedule covers what was paid before, the computation succeeds exactly when the
last period has begun or the scaled quotient fits an `int64_t`. -/
theorem totalUnlocked_iff (hp : p.Sound) (hi : i.issuedAt ≤ now)
    (hfirst : i.firstUnlockDays ≤ maxLockDays) (hdays : i.firstUnlockDays ≤ elapsedDays i now)
    (hissued : 0 ≤ i.issued.amount) (hcovered : i.unlocked.amount ≤ releasedOf p i now) :
    totalUnlocked p i (unlockedTimes p (unlockedDays now i)) = .ok (releasedOf p i now) ↔
      p.unlockTimes ≤ periods p i now ∨
        10 * i.issued.amount * periods p i now / p.unlockTimes ≤ 2 ^ 63 - 1 := by
  have htimes := hp.times
  by_cases hlast : p.unlockTimes ≤ periods p i now
  · have hpos := periods_pos (p := p) hdays
    rw [unlockedTimes_eq hp hi hfirst hdays, totalUnlocked, if_pos (by omega), releasedOf,
      released_of_le (by omega)]
    exact iff_of_true rfl (Or.inl hlast)
  · have hle : releasedOf p i now ≤ i.issued.amount := released_le hissued (by omega)
    rw [or_iff_right hlast]
    constructor
    · intro h
      have hpos := periods_pos (p := p) hdays
      have hcapped : 1 + min (periods p i now - 1) p.unlockTimes = periods p i now := by omega
      rw [unlockedTimes_eq hp hi hfirst hdays, totalUnlocked, hcapped, if_neg hlast] at h
      simp only [bind_eq_ok] at h
      obtain ⟨r, hr, -⟩ := h
      exact ((multiplyDecimal64_issued hp hissued (by omega)).mp hr).1
    · intro hquot
      rw [totalUnlocked_of_quotient hp hi hfirst hdays hissued (by omega) hquot,
        check_of ⟨hcovered, hle⟩]
      rfl

/-- It succeeds as long as the schedule covers what was paid before. -/
theorem totalUnlocked_of_covered (hp : p.Sound) (hi : i.issuedAt ≤ now)
    (hfirst : i.firstUnlockDays ≤ maxLockDays) (hdays : i.firstUnlockDays ≤ elapsedDays i now)
    (hissued : 0 ≤ i.issued.amount) (hten : 10 * i.issued.amount < 2 ^ 63)
    (hcovered : i.unlocked.amount ≤ releasedOf p i now) :
    totalUnlocked p i (unlockedTimes p (unlockedDays now i)) = .ok (releasedOf p i now) := by
  have htimes := hp.times
  by_cases hlast : p.unlockTimes ≤ periods p i now
  · have hpos := periods_pos (p := p) hdays
    rw [unlockedTimes_eq hp hi hfirst hdays, totalUnlocked, if_pos (by omega), releasedOf,
      released_of_le (by omega)]
  · have hle : releasedOf p i now ≤ i.issued.amount := released_le hissued (by omega)
    rw [totalUnlocked_of_lt hp hi hfirst hdays hissued hten (by omega), check_of ⟨hcovered, hle⟩]
    rfl

/-- It aborts when the schedule has fallen behind. -/
theorem totalUnlocked_of_uncovered (hp : p.Sound) (hi : i.issuedAt ≤ now)
    (hfirst : i.firstUnlockDays ≤ maxLockDays) (hdays : i.firstUnlockDays ≤ elapsedDays i now)
    (hissued : 0 ≤ i.issued.amount) (hten : 10 * i.issued.amount < 2 ^ 63)
    (hle : i.unlocked.amount ≤ i.issued.amount) (hbehind : releasedOf p i now < i.unlocked.amount) :
    totalUnlocked p i (unlockedTimes p (unlockedDays now i)) = .error ⟨none,
      "total_unlocked >= issue_itr->unlocked.amount && issue_itr->issued.amount >= total_unlocked"⟩
    := by
  -- from the last period on everything is released, and no more was paid
  have hlt : periods p i now < p.unlockTimes := by
    by_contra hlast
    rw [releasedOf, released_of_le (by omega)] at hbehind
    omega
  rw [totalUnlocked_of_lt hp hi hfirst hdays hissued hten hlt, check_of_not (by omega)]

end Arithmetic

end Vest
end ToolkitContracts
