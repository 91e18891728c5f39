import ChainMain.TieredRewards.LedgerBonus

/-!
# The bonus of a segment as a function of its length

`computeSegmentBonus` counts the whole seconds of a segment and pays a fixed rate for each of them,
truncated to whole tokens. So it is never negative (`computeSegmentBonus_nonneg`), and cutting a
segment in two never makes it larger (`computeSegmentBonus_cut`), as long as the segment is not
longer than a `time.Duration` can be.
-/

set_option autoImplicit false

namespace ChainMain.TieredRewards

open Foundations.Decimal

/-! ### Whole seconds -/

/-- The whole seconds of a segment that count for a position. -/
def Position.segmentSeconds (p : Position) (segmentStart segmentEnd : Time) : ℤ :=
  if p.capSegmentEnd segmentEnd ≤ segmentStart then 0
  else (Time.sub (p.capSegmentEnd segmentEnd) segmentStart).tdiv second

theorem Time.sub_nonneg {t u : Time} (h : u ≤ t) : 0 ≤ Time.sub t u :=
  le_max_of_le_right (le_min (Int.sub_nonneg.mpr h) (by decide))

/-- A span that a `Duration` holds is not cut off. -/
theorem Time.sub_eq {t u : Time} (h : u ≤ t) (hspan : t - u < 9223372036854775808) :
    Time.sub t u = t - u := by
  have hmin : min (t - u) 9223372036854775807 = t - u := min_eq_left (Int.lt_add_one_iff.mp hspan)
  have hnonneg : (0 : ℤ) ≤ t - u := Int.sub_nonneg.mpr h
  unfold Time.sub
  rw [hmin]
  exact max_eq_right (le_trans (by decide) hnonneg)

theorem seconds_eq {t u : Time} (h : u ≤ t) (hspan : t - u < 9223372036854775808) :
    (if t ≤ u then 0 else (Time.sub t u).tdiv second) = (t - u) / 1000000000 := by
  rw [Time.sub_eq h hspan, Int.tdiv_eq_ediv_of_nonneg (Int.sub_nonneg.mpr h)]
  split_ifs with hle
  · rw [le_antisymm hle h]
    simp
  · rfl

theorem Position.segmentSeconds_nonneg (p : Position) (segmentStart segmentEnd : Time) :
    0 ≤ p.segmentSeconds segmentStart segmentEnd := by
  unfold Position.segmentSeconds
  split_ifs with hend
  · exact le_refl _
  · exact Int.tdiv_nonneg (Time.sub_nonneg (not_le.mp hend).le) (by decide)

theorem Position.segmentSeconds_cut {p : Position} {start middle last : Time}
    (hstart : start ≤ middle) (hlast : middle ≤ last)
    (hopen : p.completedExitLockDuration middle = false)
    (hspan : last - start < 9223372036854775808) :
    p.segmentSeconds start middle + p.segmentSeconds middle last ≤ p.segmentSeconds start last := by
  have hmiddle : p.capSegmentEnd middle = middle := by
    unfold Position.capSegmentEnd
    refine if_neg fun ⟨hne, hlt⟩ ↦ ?_
    unfold Position.completedExitLockDuration at hopen
    simp [hne, hlt.le] at hopen
  have hcap : middle ≤ p.capSegmentEnd last ∧ p.capSegmentEnd last ≤ last := by
    unfold Position.capSegmentEnd Position.completedExitLockDuration at *
    split_ifs with hend
    · simp only [hend.1, ne_eq, not_false_eq_true, decide_true, Bool.true_and,
        decide_eq_false_iff_not, not_le] at hopen
      exact ⟨hopen.le, hend.2.le⟩
    · exact ⟨hlast, le_refl _⟩
  have hparts : ∀ a b c : ℤ, (b - a) / 1000000000 + (c - b) / 1000000000 ≤
      (c - a) / 1000000000 := by
    intro a b c
    omega
  have hwhole : p.capSegmentEnd last - start < 9223372036854775808 :=
    (Int.sub_le_sub_right hcap.2 start).trans_lt hspan
  unfold Position.segmentSeconds
  rw [hmiddle, seconds_eq hstart ((Int.sub_le_sub_right hlast start).trans_lt hspan),
    seconds_eq hcap.1 ((Int.sub_le_sub_left hstart _).trans_lt hwhole),
    seconds_eq (hstart.trans hcap.1) hwhole]
  exact hparts _ _ _

/-! ### The bonus of a number of seconds -/

/-- The bonus of some seconds at a rate of tokens for a year. -/
def bonusOver (perYear : Dec) (seconds : ℤ) : ℤ :=
  ((perYear.mulInt seconds).quoInt secondsPerYear).truncateInt

theorem computeSegmentBonus_eq (p : Position) (shares : Dec) (tier : Tier)
    (segmentStart segmentEnd : Time) (rate : Dec) :
    computeSegmentBonus p shares tier segmentStart segmentEnd rate =
      bonusOver ((shares.mul rate).mul tier.bonusApy)
        (p.segmentSeconds segmentStart segmentEnd) := by
  have hzero : ∀ perYear : Dec, bonusOver perYear 0 = 0 := by
    intro perYear
    unfold bonusOver Dec.mulInt Dec.quoInt Dec.truncateInt
    rw [mul_zero, Int.zero_tdiv, Int.zero_tdiv]
  have hseconds := p.segmentSeconds_nonneg segmentStart segmentEnd
  unfold computeSegmentBonus
  unfold Position.segmentSeconds at hseconds ⊢
  dsimp only
  split_ifs at hseconds ⊢ with hend hnone
  · exact (hzero _).symm
  · rw [le_antisymm hnone hseconds]
    exact (hzero _).symm
  · rfl

theorem bonusOver_eq {perYear : Dec} {seconds : ℤ} (hrate : 0 ≤ perYear) (hseconds : 0 ≤ seconds) :
    bonusOver perYear seconds = perYear.units * seconds / (secondsPerYear * Dec.precision) := by
  have hunits : 0 ≤ perYear.units * seconds := mul_nonneg (Dec.units_nonneg.mp hrate) hseconds
  unfold bonusOver Dec.mulInt Dec.quoInt Dec.truncateInt
  rw [Int.tdiv_eq_ediv_of_nonneg hunits,
    Int.tdiv_eq_ediv_of_nonneg (Int.ediv_nonneg hunits (by decide)),
    Int.ediv_ediv_of_nonneg (by decide)]

theorem bonusOver_nonneg {perYear : Dec} {seconds : ℤ} (hrate : 0 ≤ perYear)
    (hseconds : 0 ≤ seconds) :
    0 ≤ bonusOver perYear seconds := by
  rw [bonusOver_eq hrate hseconds]
  exact Int.ediv_nonneg (mul_nonneg (Dec.units_nonneg.mp hrate) hseconds) (by decide)

/-- Truncating two parts loses at least as much as truncating the whole. -/
theorem bonusOver_add_le {perYear : Dec} {first second total : ℤ} (hrate : 0 ≤ perYear)
    (hfirst : 0 ≤ first) (hsecond : 0 ≤ second) (htotal : first + second ≤ total) :
    bonusOver perYear first + bonusOver perYear second ≤ bonusOver perYear total := by
  have hyear : 0 < secondsPerYear * Dec.precision := by decide
  have hunits := Dec.units_nonneg.mp hrate
  rw [bonusOver_eq hrate hfirst, bonusOver_eq hrate hsecond,
    bonusOver_eq hrate ((add_nonneg hfirst hsecond).trans htotal), Int.le_ediv_iff_mul_le hyear,
    add_mul]
  calc _ ≤ perYear.units * first + perYear.units * second :=
        add_le_add (Int.ediv_mul_le _ hyear.ne') (Int.ediv_mul_le _ hyear.ne')
    _ = perYear.units * (first + second) := (mul_add _ _ _).symm
    _ ≤ perYear.units * total := mul_le_mul_of_nonneg_left htotal hunits

/-! ### The bonus of a segment -/

section Segment

variable {p : Position} {shares rate : Dec} {tier : Tier}

theorem perYear_nonneg (hshares : 0 ≤ shares) (hrate : 0 ≤ rate) (hapy : 0 ≤ tier.bonusApy) :
    0 ≤ (shares.mul rate).mul tier.bonusApy :=
  Dec.nonneg_mul (Dec.nonneg_mul hshares hrate) hapy

theorem computeSegmentBonus_nonneg (hshares : 0 ≤ shares) (hrate : 0 ≤ rate)
    (hapy : 0 ≤ tier.bonusApy) (start last : Time) :
    0 ≤ computeSegmentBonus p shares tier start last rate := by
  rw [computeSegmentBonus_eq]
  exact bonusOver_nonneg (perYear_nonneg hshares hrate hapy) (p.segmentSeconds_nonneg _ _)

/-- A segment in which the position is settled once more does not pay more. -/
theorem computeSegmentBonus_cut (hshares : 0 ≤ shares) (hrate : 0 ≤ rate) (hapy : 0 ≤ tier.bonusApy)
    {start middle last : Time} (hstart : start ≤ middle) (hlast : middle ≤ last)
    (hspan : p.completedExitLockDuration middle = false → last - start < 9223372036854775808) :
    computeSegmentBonus p shares tier start middle rate +
        computeSegmentBonus p shares tier
        (p.applyBonusAccrualCheckpoint middle).lastBonusAccrual last
          rate ≤
      computeSegmentBonus p shares tier start last rate := by
  unfold Position.applyBonusAccrualCheckpoint
  dsimp only
  cases hexit : p.completedExitLockDuration middle with
  | false =>
    rw [if_neg Bool.false_ne_true]
    simp only [computeSegmentBonus_eq]
    exact bonusOver_add_le (perYear_nonneg hshares hrate hapy) (p.segmentSeconds_nonneg _ _)
      (p.segmentSeconds_nonneg _ _) (p.segmentSeconds_cut hstart hlast hexit (hspan hexit))
  | true =>
    -- after the unlock time nothing accrues: the first segment ends where the whole one does
    obtain ⟨hne, hle⟩ : p.exitUnlockAt ≠ 0 ∧ p.exitUnlockAt ≤ middle := by
      simpa [Position.completedExitLockDuration] using hexit
    have hcap : ∀ t, middle ≤ t → p.capSegmentEnd t = p.exitUnlockAt := by
      intro t ht
      unfold Position.capSegmentEnd
      split_ifs with hend
      · rfl
      · exact le_antisymm (not_lt.mp fun hlt ↦ hend ⟨hne, hlt⟩) (hle.trans ht)
    rw [if_pos rfl]
    unfold computeSegmentBonus
    rw [hcap middle (le_refl _), hcap last hlast]
    dsimp only
    rw [if_pos (le_refl p.exitUnlockAt), add_zero]

end Segment

end ChainMain.TieredRewards
