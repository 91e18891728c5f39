import ChainMain.Foundations.Decimal

/-!
# Rounded shares of a whole

A whole number is given out in proportion to shares, and every share of it is rounded by itself to
eighteen digits. `sum_shareOf_le` says that what is given out exceeds the whole by at most one unit
for each share, and `sum_shareOf_add_rest` that it is as close as that to the whole when nothing is
left over: the share of the rest costs no unit of its own.

`abs_sum_map_mul_sub_le` is about a number that is given out by weights which sum to one: the
rounded products are within a unit for each weight of the number.
-/

set_option autoImplicit false

namespace ChainMain.Foundations.Decimal.Dec

/-- A quotient is less than a unit away from the exact one. -/
theorem quo_bounds {a b : Dec} (ha : 0 ≤ a) (hb : 0 < b) :
    (a.quo b).units * b.units < a.units * precision + b.units ∧
      a.units * precision < (a.quo b).units * b.units + b.units := by
  have hb' : 0 < b.units := hb
  have hscaled : 0 ≤ a.units * precision * precision :=
    mul_nonneg (mul_nonneg ha (by decide)) (by decide)
  set t := (a.units * precision * precision).tdiv b.units with ht
  have hround := chopAndRound_bounds t
  rw [Int.tdiv_eq_ediv_of_nonneg hscaled] at ht
  have hupper : t * b.units ≤ a.units * precision * precision := by
    rw [ht]
    exact Int.ediv_mul_le _ hb'.ne'
  have hlower : a.units * precision * precision < (t + 1) * b.units := by
    rw [ht]
    exact Int.lt_ediv_add_one_mul_self _ hb'
  have hquo : (a.quo b).units = chopAndRound t := rfl
  rw [hquo]
  unfold precision at *
  constructor
  · nlinarith [hround.2]
  · nlinarith [hround.1]

/-- The share of a whole that belongs to a part of all shares. -/
def shareOf (whole : ℤ) (shares part : Dec) : Dec := (part.mulInt whole).quo shares

section Whole

variable {whole : ℤ} {shares : Dec} (hshares : 0 < shares) (hwhole : 0 ≤ whole)

include hshares hwhole

theorem shareOf_bounds {part : Dec} (hpart : 0 ≤ part) :
    (shareOf whole shares part).units * shares.units <
      part.units * whole * precision + shares.units ∧
      part.units * whole * precision < (shareOf whole shares part).units * shares.units +
        shares.units :=
  quo_bounds (nonneg_mulInt hpart hwhole) hshares

/-- The errors of the shares add up. -/
theorem sum_shareOf_bounds {parts : Multiset Dec} (hparts : ∀ part ∈ parts, 0 ≤ part) :
    (parts.map (shareOf whole shares)).sum.units * shares.units ≤
        parts.sum.units * whole * precision + parts.card * shares.units ∧
      parts.sum.units * whole * precision ≤
        (parts.map (shareOf whole shares)).sum.units * shares.units +
          parts.card * shares.units := by
  induction parts using Multiset.induction_on with
  | empty => simp
  | cons part rest ih =>
    obtain ⟨hpart, hrest⟩ := Multiset.forall_mem_cons.mp hparts
    have hbounds := ih hrest
    have hone := shareOf_bounds hshares hwhole hpart
    rw [Multiset.map_cons, Multiset.sum_cons, Multiset.sum_cons, Multiset.card_cons,
      units_add, units_add]
    push_cast
    constructor <;> linarith [hbounds.1, hbounds.2, hone.1, hone.2]

/-- What is given out exceeds the whole by at most a unit for each share. -/
theorem sum_shareOf_le {parts : Multiset Dec} (hparts : ∀ part ∈ parts, 0 ≤ part)
    (hsum : parts.sum ≤ shares) :
    (parts.map (shareOf whole shares)).sum ≤ ofInt whole + ⟨parts.card⟩ := by
  have hbound := (sum_shareOf_bounds hshares hwhole hparts).1
  have hpaid : parts.sum.units * whole * precision ≤ shares.units * whole * precision := by
    rw [mul_assoc, mul_assoc]
    exact mul_le_mul_of_nonneg_right (le_iff.mp hsum) (mul_nonneg hwhole (by decide))
  rw [le_iff, units_add]
  change _ ≤ whole * precision + (parts.card : ℤ)
  refine le_of_mul_le_mul_right ?_ hshares
  change _ * shares.units ≤ _ * shares.units
  linarith

/-- With the share of the rest, what is given out is within a unit for each part of the whole. -/
theorem sum_shareOf_add_rest {parts : Multiset Dec} {rest : Dec} (hparts : ∀ part ∈ parts, 0 ≤ part)
    (hrest : 0 ≤ rest) (hsum : parts.sum + rest = shares) :
    (parts.map (shareOf whole shares)).sum + shareOf whole shares rest ≤
      ofInt whole + ⟨parts.card⟩ ∧ ofInt whole ≤
        (parts.map (shareOf whole shares)).sum + shareOf whole shares rest + ⟨parts.card⟩ := by
  have hbounds := sum_shareOf_bounds hshares hwhole hparts
  have hone := shareOf_bounds hshares hwhole hrest
  have hpos : 0 < shares.units := hshares
  have hunits : parts.sum.units + rest.units = shares.units := congrArg units hsum
  have hall : parts.sum.units * whole * precision + rest.units * whole * precision =
      whole * precision * shares.units := by
    rw [← hunits]
    ring
  -- The errors are strictly below one more unit than there are parts, and they are whole units.
  have hupper : ((parts.map (shareOf whole shares)).sum.units + (shareOf whole shares rest).units) *
      shares.units < (whole * precision + parts.card + 1) * shares.units := by
    linarith [hbounds.1, hone.1]
  have hlower : whole * precision * shares.units <
      ((parts.map (shareOf whole shares)).sum.units + (shareOf whole shares rest).units +
        parts.card + 1) * shares.units := by
    linarith [hbounds.2, hone.2]
  have h₁ := lt_of_mul_lt_mul_right hupper hpos.le
  have h₂ := lt_of_mul_lt_mul_right hlower hpos.le
  rw [le_iff, le_iff, units_add, units_add, units_add, units_add]
  change _ ≤ whole * precision + (parts.card : ℤ) ∧ whole * precision ≤ _ + (parts.card : ℤ)
  omega

end Whole

/-! ### Weights -/

-- Twice the numbers, since a product is rounded by up to half a unit.
theorem sum_map_mul_bounds (a : Dec) (weights : List Dec) :
    2 * (a.units * weights.sum.units) ≤
        2 * precision * (weights.map a.mul).sum.units + precision * weights.length ∧
      2 * precision * (weights.map a.mul).sum.units ≤
        2 * (a.units * weights.sum.units) + precision * weights.length := by
  induction weights with
  | nil => simp
  | cons weight rest ih =>
    have hone := chopAndRound_bounds (a.units * weight.units)
    have hmul : (a.mul weight).units = chopAndRound (a.units * weight.units) := rfl
    rw [List.map_cons, List.sum_cons, List.sum_cons, List.length_cons, units_add, units_add, hmul]
    push_cast
    constructor <;> linarith [ih.1, ih.2, hone.1, hone.2]

/-- What is given out by weights is within a unit for each weight of the whole. -/
theorem abs_sum_map_mul_sub_le {a : Dec} {weights : List Dec} (h : weights.sum = 1) :
    |(weights.map a.mul).sum - a| ≤ ⟨weights.length⟩ := by
  have hbounds := sum_map_mul_bounds a weights
  rw [h, units_one] at hbounds
  rw [abs_le, le_iff, le_iff, units_neg, units_sub]
  dsimp only
  unfold precision at hbounds
  omega

end ChainMain.Foundations.Decimal.Dec
