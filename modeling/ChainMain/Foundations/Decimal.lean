import Mathlib

/-!
# Decimals with eighteen digits after the point

A decimal is an integer number of units in the eighteenth place. Addition and subtraction are exact;
products and quotients are brought back to eighteen digits by rounding half to even, and the
conversions to integers and the quotient by an integer truncate toward zero. These are the rules of
the `LegacyDec` type of `cosmossdk.io/math`.

`chopAndRound_bounds` bounds the rounding by half a unit, and `mulTruncate_quoTruncate_le` says that
a share of an amount, truncated twice, is not above the exact share.
-/

set_option autoImplicit false

namespace ChainMain.Foundations.Decimal

/-- A decimal: the number of units in the eighteenth place after the point. -/
@[ext] structure Dec where
  units : ℤ
deriving DecidableEq, Repr

namespace Dec

/-- The number of units in one. -/
def precision : ℤ := 1000000000000000000

/-- The decimal of an integer. -/
def ofInt (n : ℤ) : Dec := ⟨n * precision⟩

instance : Zero Dec := ⟨⟨0⟩⟩
instance : One Dec := ⟨⟨precision⟩⟩
instance : Add Dec := ⟨fun a b ↦ ⟨a.units + b.units⟩⟩
instance : Sub Dec := ⟨fun a b ↦ ⟨a.units - b.units⟩⟩
instance : Neg Dec := ⟨fun a ↦ ⟨-a.units⟩⟩
instance : LE Dec := ⟨fun a b ↦ a.units ≤ b.units⟩
instance : LT Dec := ⟨fun a b ↦ a.units < b.units⟩
instance : DecidableLE Dec := fun a b ↦ inferInstanceAs (Decidable (a.units ≤ b.units))
instance : DecidableLT Dec := fun a b ↦ inferInstanceAs (Decidable (a.units < b.units))
instance : Inhabited Dec := ⟨0⟩

@[simp] theorem units_zero : (0 : Dec).units = 0 := rfl
@[simp] theorem units_one : (1 : Dec).units = precision := rfl
@[simp] theorem units_add (a b : Dec) : (a + b).units = a.units + b.units := rfl
@[simp] theorem units_sub (a b : Dec) : (a - b).units = a.units - b.units := rfl
@[simp] theorem units_neg (a : Dec) : (-a).units = -a.units := rfl

theorem le_iff {a b : Dec} : a ≤ b ↔ a.units ≤ b.units := Iff.rfl
theorem lt_iff {a b : Dec} : a < b ↔ a.units < b.units := Iff.rfl

instance : LinearOrder Dec where
  le_refl a := le_refl a.units
  le_trans a b c := le_trans (a := a.units) (b := b.units) (c := c.units)
  lt_iff_le_not_ge a b := lt_iff_le_not_ge (a := a.units) (b := b.units)
  le_antisymm a b h h' := Dec.ext (le_antisymm h h')
  le_total a b := le_total a.units b.units
  toDecidableLE := inferInstance

instance : AddCommGroup Dec where
  add_assoc a b c := Dec.ext (add_assoc a.units b.units c.units)
  zero_add a := Dec.ext (zero_add a.units)
  add_zero a := Dec.ext (add_zero a.units)
  add_comm a b := Dec.ext (add_comm a.units b.units)
  neg_add_cancel a := Dec.ext (neg_add_cancel a.units)
  sub_eq_add_neg a b := Dec.ext (sub_eq_add_neg a.units b.units)
  nsmul := nsmulRec
  zsmul := zsmulRec

instance : IsOrderedAddMonoid Dec where
  add_le_add_left _ _ hab c := add_le_add_left (α := ℤ) hab c.units

/-- Whether a decimal is zero. -/
def isZero (a : Dec) : Bool := a.units == 0

/-- Whether a decimal is below zero. -/
def isNegative (a : Dec) : Bool := decide (a.units < 0)

/-- Whether a decimal is above zero. -/
def isPositive (a : Dec) : Bool := decide (0 < a.units)

/-- Divide by the precision and round half to even. -/
def chopNat (n : ℕ) : ℕ :=
  let quotient := n / 1000000000000000000
  let remainder := n % 1000000000000000000
  if remainder < 500000000000000000 then quotient
  else if 500000000000000000 < remainder then quotient + 1
  else if quotient % 2 = 0 then quotient
  else quotient + 1

/-- Divide by the precision and round half to even, with the sign taken off and put back. -/
def chopAndRound (n : ℤ) : ℤ :=
  if n < 0 then -(chopNat n.natAbs : ℤ) else (chopNat n.natAbs : ℤ)

/-- The product, rounded half to even. -/
def mul (a b : Dec) : Dec := ⟨chopAndRound (a.units * b.units)⟩

/-- The product with an integer, which is exact. -/
def mulInt (a : Dec) (n : ℤ) : Dec := ⟨a.units * n⟩

/-- The quotient: truncated in the thirty-sixth place, then rounded half to even. -/
def quo (a b : Dec) : Dec := ⟨chopAndRound ((a.units * precision * precision).tdiv b.units)⟩

/-- The product, truncated. -/
def mulTruncate (a b : Dec) : Dec := ⟨(a.units * b.units).tdiv precision⟩

/-- The quotient, truncated in the thirty-sixth place and then in the eighteenth. -/
def quoTruncate (a b : Dec) : Dec :=
  ⟨((a.units * precision * precision).tdiv b.units).tdiv precision⟩

/-- The quotient by an integer, truncated. -/
def quoInt (a : Dec) (n : ℤ) : Dec := ⟨a.units.tdiv n⟩

/-- The integer part. -/
def truncateInt (a : Dec) : ℤ := a.units.tdiv precision

/-- The loop of the power: the base squared so far, the factors split off so far, the exponent
left. -/
def powerLoop (d tmp : Dec) (i : ℕ) : Dec :=
  if i ≤ 1 then d.mul tmp
  else powerLoop (d.mul d) (if i % 2 = 0 then tmp else tmp.mul d) (i / 2)
termination_by i

/-- The power, by squaring, with every product rounded. -/
def power (a : Dec) (n : ℕ) : Dec := if n = 0 then 1 else powerLoop a 1 n

/-! ### Rounding -/

/-- Rounding moves a number by at most half a unit. -/
theorem chopNat_bounds (n : ℕ) :
    2 * n ≤ 2 * 1000000000000000000 * chopNat n + 1000000000000000000 ∧
      2 * 1000000000000000000 * chopNat n ≤ 2 * n + 1000000000000000000 := by
  have hsplit := Nat.div_add_mod n 1000000000000000000
  have hmod := Nat.mod_lt n (show 0 < 1000000000000000000 by norm_num)
  unfold chopNat
  dsimp only
  split_ifs <;> omega

theorem chopAndRound_bounds (n : ℤ) :
    2 * n ≤ 2 * precision * chopAndRound n + precision ∧
      2 * precision * chopAndRound n ≤ 2 * n + precision := by
  have h := chopNat_bounds n.natAbs
  unfold chopAndRound precision
  split_ifs with hneg <;> omega

theorem chopAndRound_nonneg {n : ℤ} (h : 0 ≤ n) : 0 ≤ chopAndRound n := by
  unfold chopAndRound
  rw [if_neg (by omega)]
  exact Int.natCast_nonneg _

@[simp] theorem chopAndRound_zero : chopAndRound 0 = 0 := rfl

/-! ### Truncation -/

theorem units_nonneg {a : Dec} : 0 ≤ a ↔ 0 ≤ a.units := Iff.rfl

theorem nonneg_mul {a b : Dec} (ha : 0 ≤ a) (hb : 0 ≤ b) : 0 ≤ a.mul b :=
  chopAndRound_nonneg (mul_nonneg (units_nonneg.mp ha) (units_nonneg.mp hb))

theorem nonneg_mulInt {a : Dec} {n : ℤ} (ha : 0 ≤ a) (hn : 0 ≤ n) : 0 ≤ a.mulInt n :=
  mul_nonneg (units_nonneg.mp ha) hn

theorem nonneg_quo {a b : Dec} (ha : 0 ≤ a) (hb : 0 ≤ b) : 0 ≤ a.quo b := by
  have hnum : 0 ≤ a.units * precision * precision :=
    mul_nonneg (mul_nonneg (units_nonneg.mp ha) (by decide)) (by decide)
  exact chopAndRound_nonneg (Int.tdiv_nonneg hnum (units_nonneg.mp hb))

theorem mulTruncate_nonneg {a b : Dec} (ha : 0 ≤ a) (hb : 0 ≤ b) : 0 ≤ a.mulTruncate b :=
  Int.tdiv_nonneg (mul_nonneg (units_nonneg.mp ha) (units_nonneg.mp hb)) (by decide)

/-- The integer part of a decimal that is not negative is not above it. -/
theorem ofInt_truncateInt_le {a : Dec} (ha : 0 ≤ a) : ofInt a.truncateInt ≤ a :=
  (mul_comm _ _).trans_le (Int.mul_tdiv_self_le (units_nonneg.mp ha))

/-- The integer part of a decimal that is not positive is not positive. -/
theorem truncateInt_nonpos {a : Dec} (ha : a ≤ 0) : a.truncateInt ≤ 0 := by
  have hneg := Int.tdiv_nonneg (neg_nonneg.mpr (le_iff.mp ha)) (show (0 : ℤ) ≤ precision by decide)
  rw [Int.neg_tdiv] at hneg
  exact neg_nonneg.mp hneg

theorem ofInt_le_ofInt {m n : ℤ} (h : m ≤ n) : ofInt m ≤ ofInt n :=
  mul_le_mul_of_nonneg_right h (by decide)

theorem quoTruncate_nonneg {a b : Dec} (ha : 0 ≤ a) (hb : 0 ≤ b) : 0 ≤ a.quoTruncate b := by
  have hnum : 0 ≤ a.units * precision * precision :=
    mul_nonneg (mul_nonneg (units_nonneg.mp ha) (by decide)) (by decide)
  exact Int.tdiv_nonneg (Int.tdiv_nonneg hnum (units_nonneg.mp hb)) (by decide)

/-- A share of an amount, with the fraction and the product both truncated, is not above the exact
share. -/
theorem mulTruncate_quoTruncate_le {a : Dec} {part whole : ℤ} (ha : 0 ≤ a) (hpart : 0 ≤ part)
    (hwhole : 0 < whole) :
    (a.mulTruncate ((ofInt part).quoTruncate (ofInt whole))).units * whole ≤ a.units * part := by
  have hprecision : 0 < precision := by decide
  have hnum : 0 ≤ (ofInt part).units * precision * precision :=
    mul_nonneg (mul_nonneg (mul_nonneg hpart hprecision.le) hprecision.le) hprecision.le
  have hquotient := Int.mul_tdiv_self_le (k := (ofInt whole).units) hnum
  set quotient := ((ofInt part).units * precision * precision).tdiv (ofInt whole).units
  have hquotient' : 0 ≤ quotient :=
    Int.tdiv_nonneg hnum (mul_nonneg hwhole.le hprecision.le)
  have hchop := Int.mul_tdiv_self_le (k := precision) hquotient'
  set fraction := quotient.tdiv precision
  have hfraction : whole * fraction ≤ part * precision := by
    have hscaled : whole * fraction * (precision * precision) ≤
        part * precision * (precision * precision) := by
      calc whole * fraction * (precision * precision)
          = whole * precision * (precision * fraction) := by ring
        _ ≤ whole * precision * quotient :=
            mul_le_mul_of_nonneg_left hchop (mul_nonneg hwhole.le hprecision.le)
        _ ≤ part * precision * precision * precision := hquotient
        _ = part * precision * (precision * precision) := by ring
    exact le_of_mul_le_mul_right hscaled (mul_pos hprecision hprecision)
  have hfraction' : 0 ≤ fraction := Int.tdiv_nonneg hquotient' hprecision.le
  have hreward : precision * (a.units * fraction).tdiv precision ≤ a.units * fraction :=
    Int.mul_tdiv_self_le (mul_nonneg (units_nonneg.mp ha) hfraction')
  change (a.units * fraction).tdiv precision * whole ≤ _
  refine le_of_mul_le_mul_right (a := precision) ?_ hprecision
  calc (a.units * fraction).tdiv precision * whole * precision
      = precision * (a.units * fraction).tdiv precision * whole := by ring
    _ ≤ a.units * fraction * whole := mul_le_mul_of_nonneg_right hreward hwhole.le
    _ = a.units * (whole * fraction) := by ring
    _ ≤ a.units * (part * precision) :=
        mul_le_mul_of_nonneg_left hfraction (units_nonneg.mp ha)
    _ = a.units * part * precision := by ring

/-! ### Whole parts of quotients -/

/-- The whole part of a rounded quotient is not above an integer that the exact quotient is not
above. -/
theorem truncateInt_quo_le {a b : Dec} {n : ℤ} (ha : 0 ≤ a) (hb : 0 < b)
    (h : a.units ≤ b.units * n) : (a.quo b).truncateInt ≤ n := by
  have hprecision : 0 < precision := by decide
  have ha' := units_nonneg.mp ha
  have hb' : 0 < b.units := lt_iff.mp hb
  have hnum : 0 ≤ a.units * precision * precision := by positivity
  -- the quotient in the thirty-sixth place, which is not above the integer either
  have hquotient : (a.units * precision * precision).tdiv b.units ≤ n * precision * precision := by
    rw [Int.tdiv_eq_ediv_of_nonneg hnum]
    refine Int.ediv_le_of_le_mul hb' ?_
    calc a.units * precision * precision
        ≤ b.units * n * precision * precision := by gcongr
      _ = n * precision * precision * b.units := by ring
  set quotient := (a.units * precision * precision).tdiv b.units
  have hround := (chopAndRound_bounds quotient).2
  have hrounded : chopAndRound quotient ≤ n * precision := by
    by_contra hlt
    have hstep : n * precision + 1 ≤ chopAndRound quotient := Int.add_one_le_of_lt (not_le.mp hlt)
    nlinarith
  have hnonneg : 0 ≤ chopAndRound quotient :=
    chopAndRound_nonneg (Int.tdiv_nonneg hnum hb'.le)
  change (chopAndRound quotient).tdiv precision ≤ n
  rw [Int.tdiv_eq_ediv_of_nonneg hnonneg]
  exact Int.ediv_le_of_le_mul hprecision hrounded

/-- A whole multiple divides back exactly. -/
theorem truncateInt_mulInt_quo {b : Dec} {n : ℤ} (hb : 0 < b) :
    ((b.mulInt n).quo b).truncateInt = n := by
  have hb' : 0 < b.units := lt_iff.mp hb
  have hquotient : ((b.units * n) * precision * precision).tdiv b.units =
      n * precision * precision := by
    rw [show b.units * n * precision * precision = b.units * (n * precision * precision) by ring]
    exact Int.mul_tdiv_cancel_left _ hb'.ne'
  have hround := chopAndRound_bounds (n * precision * precision)
  have hrounded : chopAndRound (n * precision * precision) = n * precision := by
    have hprecision : precision = 1000000000000000000 := rfl
    rw [hprecision] at hround ⊢
    omega
  change (chopAndRound (((b.units * n) * precision * precision).tdiv b.units)).tdiv precision = n
  rw [hquotient, hrounded]
  exact Int.mul_tdiv_cancel n (by decide)

/-- The whole part of a rounded quotient of integers is that of the exact one: the divisor is so
small that a remainder below it is not rounded up to the next integer. -/
theorem truncateInt_quo_ofInt {a m : ℤ} (ha : 0 ≤ a) (hm : 0 < m) (hsmall : m < 2 * precision) :
    ((ofInt a).quo (ofInt m)).truncateInt = a / m := by
  have hprecision : 0 < precision := by decide
  have hnum : 0 ≤ a * precision * precision := by positivity
  -- the quotient in the thirty-sixth place
  have hquotient : ((ofInt a).units * precision * precision).tdiv (ofInt m).units =
      a * precision * precision / m := by
    rw [ofInt, ofInt, Int.mul_tdiv_mul_of_pos_left _ _ hprecision, Int.tdiv_eq_ediv_of_nonneg hnum]
  have hsplit : m * (a / m) + a % m = a := Int.mul_ediv_add_emod a m
  have hmod : 0 ≤ a % m ∧ a % m < m := ⟨Int.emod_nonneg a hm.ne', Int.emod_lt_of_pos a hm⟩
  have hfloor : m * (a * precision * precision / m) ≤ a * precision * precision :=
    Int.mul_ediv_self_le hm.ne'
  have hlow : a / m * precision * precision ≤ a * precision * precision / m := by
    rw [Int.le_ediv_iff_mul_le hm]
    nlinarith [mul_nonneg hmod.1 (mul_nonneg hprecision.le hprecision.le)]
  set quotient := a * precision * precision / m with hdef
  obtain ⟨hround, hround'⟩ := chopAndRound_bounds quotient
  have hlower : a / m * precision ≤ chopAndRound quotient := by
    by_contra hlt
    nlinarith [Int.add_one_le_of_lt (not_le.mp hlt)]
  have hupper : chopAndRound quotient < (a / m + 1) * precision := by
    by_contra hle
    have hcarry := not_lt.mp hle
    -- a carry would leave no room for the divisor
    have hscaled : m * (2 * precision * ((a / m + 1) * precision)) ≤
        m * (2 * quotient + precision) :=
      mul_le_mul_of_nonneg_left
        (le_trans (mul_le_mul_of_nonneg_left hcarry (by positivity)) hround') hm.le
    nlinarith [mul_le_mul_of_nonneg_right (Int.le_sub_one_of_lt hmod.2)
      (mul_nonneg hprecision.le hprecision.le)]
  have hnonneg : 0 ≤ chopAndRound quotient := chopAndRound_nonneg (Int.ediv_nonneg hnum hm.le)
  rw [truncateInt, quo, hquotient, Int.tdiv_eq_ediv_of_nonneg hnonneg]
  exact le_antisymm (Int.lt_add_one_iff.mp ((Int.ediv_lt_iff_lt_mul hprecision).mpr hupper))
    ((Int.le_ediv_iff_mul_le hprecision).mpr hlower)

/-! ### Rates -/

/-- A rate: not below zero and not above one. -/
def IsRate (a : Dec) : Prop := 0 ≤ a ∧ a ≤ 1

theorem isRate_one : IsRate 1 := ⟨by decide, le_refl 1⟩

theorem IsRate.one_sub {a : Dec} (h : IsRate a) : IsRate (1 - a) :=
  ⟨sub_nonneg.mpr h.2, sub_le_self 1 h.1⟩

/-- A part of an amount is not above it, rounded as it is. -/
theorem mul_le_of_isRate {a b : Dec} (ha : 0 ≤ a) (hb : IsRate b) : a.mul b ≤ a := by
  have hprecision : 0 < precision := by decide
  have hproduct : a.units * b.units ≤ a.units * precision :=
    mul_le_mul_of_nonneg_left (le_iff.mp hb.2) (units_nonneg.mp ha)
  have hround := (chopAndRound_bounds (a.units * b.units)).2
  change chopAndRound (a.units * b.units) ≤ a.units
  by_contra hlt
  nlinarith [Int.add_one_le_of_lt (not_le.mp hlt)]

theorem IsRate.mul {a b : Dec} (ha : IsRate a) (hb : IsRate b) : IsRate (a.mul b) :=
  ⟨nonneg_mul ha.1 hb.1, (mul_le_of_isRate ha.1 hb).trans ha.2⟩

theorem IsRate.powerLoop {d tmp : Dec} {i : ℕ} (hd : IsRate d) (htmp : IsRate tmp) :
    IsRate (powerLoop d tmp i) := by
  fun_induction Dec.powerLoop d tmp i with
  | case1 d tmp i hlast => exact hd.mul htmp
  | case2 d tmp i hmore ih =>
    refine ih (hd.mul hd) ?_
    split_ifs
    · exact htmp
    · exact htmp.mul hd

/-- The power of a rate is a rate, with every product rounded. -/
theorem IsRate.power {a : Dec} (h : IsRate a) (n : ℕ) : IsRate (a.power n) := by
  rw [Dec.power]
  split_ifs
  · exact isRate_one
  · exact h.powerLoop isRate_one

end Dec

end ChainMain.Foundations.Decimal
