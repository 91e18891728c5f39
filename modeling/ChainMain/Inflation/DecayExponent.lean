import ChainMain.Inflation.CachedDecay

/-!
# The exponent of the decay

The decay raises a factor to the number of months since the epoch, which is split into whole months
and the blocks that remain. The whole months are read from a decimal quotient with eighteen digits,
the remaining blocks from an integer remainder. A month has less than `2 * 10 ^ 18` blocks, so the
decimal quotient is never rounded up to the next whole month (`wholeMonths_eq`), and the two parts
make up the blocks since the epoch. Both factors are rates, so the inflation is between zero and the
base rate (`decay_exponent_exact`).
-/

set_option autoImplicit false

namespace ChainMain.Inflation

open Foundations Decimal Outcomes Texts

variable {Minter MintParams : Type} {S : Sdk Minter MintParams}

/-! ### Conversions -/

theorem int64_eq {x : UInt64} (h : x.toNat < 2 ^ 63) : int64 x = x.toNat := by
  change x.toBitVec.toInt = _
  rw [BitVec.toInt_eq_toNat_of_lt]
  · rfl
  · change 2 * x.toNat < 2 ^ 64
    omega

theorem toNat_ofInt {n : ℤ} (h : 0 ≤ n) (hlt : n < 2 ^ 64) : ((UInt64.ofInt n).toNat : ℤ) = n := by
  unfold UInt64.ofInt
  rw [UInt64.toNat_ofNat']
  omega

theorem truncateInt64_eq {d : Dec} (h : 0 ≤ d.truncateInt) (hlt : d.truncateInt < 2 ^ 63) :
    truncateInt64 d = .ok d.truncateInt := by
  have hfits : (-9223372036854775808 ≤ d.truncateInt && d.truncateInt ≤ 9223372036854775807) =
      true := by
    rw [Bool.and_eq_true, decide_eq_true_iff, decide_eq_true_iff]
    omega
  rw [truncateInt64, hfits]
  rfl

theorem toNat_blocksPerMonth (blocksPerYear : UInt64) :
    (blocksPerYear / monthsInYear).toNat = blocksPerYear.toNat / 12 := by
  rw [UInt64.toNat_div]
  rfl

/-! ### The two parts of the exponent -/

theorem wholeMonths_eq {elapsed month : UInt64} (helapsed : elapsed.toNat < 2 ^ 63)
    (hmonth : 0 < month.toNat) (hsmall : month.toNat ≤ 2 ^ 64 / 12) :
    ∃ n, wholeMonths elapsed month = .ok n ∧ n.toNat = elapsed.toNat / month.toNat := by
  have hquotient : ((Dec.ofInt (int64 elapsed)).quo (Dec.ofInt (int64 month))).truncateInt =
      (elapsed.toNat / month.toNat : ℕ) := by
    rw [int64_eq helapsed, int64_eq (by omega), Dec.truncateInt_quo_ofInt (by omega) (by omega)]
    · rfl
    · rw [Dec.precision]
      omega
  have hle : elapsed.toNat / month.toNat ≤ elapsed.toNat := Nat.div_le_self _ _
  generalize elapsed.toNat / month.toNat = months at hquotient hle ⊢
  refine ⟨UInt64.ofInt months, ?_, ?_⟩
  · unfold wholeMonths
    dsimp only
    rw [truncateInt64_eq (by omega) (by omega), hquotient]
    rfl
  · have hback := toNat_ofInt (n := (months : ℤ)) (by omega) (by omega)
    exact_mod_cast hback

/-! ### The range of the inflation -/

/-- `ApproxRoot` of a rate is a rate. -/
def Sdk.RootsAreRates (S : Sdk Minter MintParams) : Prop :=
  ∀ (d : Dec) (n : UInt64), d.IsRate → 0 < n → ∃ root, S.approxRoot d n = .ok root ∧ root.IsRate

theorem getPerBlockFactor_isRate {cache : Option DecayCache} (hroots : S.RootsAreRates)
    (h : Coherent S cache) {decayRate : Dec} (hrate : decayRate.IsRate) {blocksPerYear : UInt64}
    (hmonth : 0 < blocksPerYear / monthsInYear) :
    ∃ factor cache', S.approxRoot (1 - decayRate) (blocksPerYear / monthsInYear) = .ok factor ∧
      factor.IsRate ∧
      getPerBlockFactor S cache decayRate blocksPerYear (blocksPerYear / monthsInYear) =
        .ok (factor, cache') := by
  obtain ⟨root, hroot, hunit⟩ :=
    hroots (1 - decayRate) (blocksPerYear / monthsInYear) hrate.one_sub hmonth
  have hcomputed : getPerBlockFactor S none decayRate blocksPerYear (blocksPerYear / monthsInYear) =
      .ok (root, some ⟨decayRate, blocksPerYear, root⟩) := by
    dsimp only [getPerBlockFactor, Option.filter_none]
    rw [hroot]
    rfl
  have hvalue := (getPerBlockFactor_agrees h decayRate blocksPerYear).value
  rw [hcomputed] at hvalue
  cases hcached :
      getPerBlockFactor S cache decayRate blocksPerYear (blocksPerYear / monthsInYear) with
  | error e =>
    rw [hcached] at hvalue
    cases hvalue
  | ok result =>
    rw [hcached] at hvalue
    have hfactor : result.1 = root := Except.ok.inj hvalue
    exact ⟨root, result.2, hroot, hunit, by rw [← hfactor]⟩

/-- The decay multiplies the base rate by the power of the monthly factor for the whole months and
the power of the factor per block for the blocks that remain. -/
theorem decayedRate_eq {cache : Option DecayCache} (hroots : S.RootsAreRates) (h : Coherent S cache)
    {decayRate baseRate : Dec} (hrate : decayRate.IsRate) (hbase : 0 ≤ baseRate)
    {blocksPerYear blocksElapsed n : UInt64} (hmonth : 0 < blocksPerYear / monthsInYear)
    (hn : wholeMonths blocksElapsed (blocksPerYear / monthsInYear) = .ok n) :
    ∃ factor rate cache', S.approxRoot (1 - decayRate) (blocksPerYear / monthsInYear) = .ok factor ∧
      rate = baseRate.mul (((1 - decayRate).power n.toNat).mul
        (factor.power (blocksElapsed % (blocksPerYear / monthsInYear)).toNat)) ∧
      decayedRate S cache decayRate baseRate blocksPerYear blocksElapsed = .ok (rate, cache') ∧
      0 ≤ rate ∧ rate ≤ baseRate := by
  obtain ⟨factor, cache', hroot, hunit, hfactor⟩ := getPerBlockFactor_isRate hroots h hrate hmonth
  have hdecay := (hrate.one_sub.power n.toNat).mul
    (hunit.power (blocksElapsed % (blocksPerYear / monthsInYear)).toNat)
  refine ⟨factor, _, cache', hroot, rfl, ?_, Dec.nonneg_mul hbase hdecay.1,
    Dec.mul_le_of_isRate hbase hdecay⟩
  unfold decayedRate
  dsimp only
  rw [if_pos hmonth, hn, ok_bind, hfactor]
  rfl

/-- From the epoch on, the base rate is decayed if the decay rate is positive. -/
theorem deflationCalculationFn_of_le {s : Store} {cache : Option DecayCache} {params : Params}
    (hparams : s.params = some params) {epoch : UInt64} (hepoch : s.decayEpochStart = some epoch)
    {height : ℤ} (hle : epoch ≤ UInt64.ofInt height) (minter : Minter) (mintParams : MintParams)
    (bondedRatio : Dec) :
    deflationCalculationFn S s cache height minter mintParams bondedRatio =
      if params.decayRate.isPositive then
        decayedRate S cache params.decayRate
          (S.defaultInflationCalculationFn minter mintParams bondedRatio)
          (S.blocksPerYear mintParams)
          (UInt64.ofInt height - epoch)
      else .ok (S.defaultInflationCalculationFn minter mintParams bondedRatio, cache) := by
  have hget : getParams s = .ok params := expect_eq_ok.mpr hparams
  unfold deflationCalculationFn
  rw [hget, hepoch]
  dsimp only [Except.mapError, ok_bind]
  rw [if_neg (UInt64.not_lt.mpr hle)]
  cases params.decayRate.isPositive <;> rfl

/-- In every state a node gets to, at every height from the epoch on, with at least twelve blocks
per year and a base rate between zero and one: the conversions are exact, the whole months and the
blocks that remain make up the blocks since the epoch, the inflation is the base rate times the
monthly factor to the whole months times the factor per block to the blocks that remain, and it is
between zero and the base rate. -/
theorem decay_exponent_exact (hroots : S.RootsAreRates) (authority : Text) (start : Store)
    (ops : List (Op Minter MintParams)) {node : Node}
    (hnode : ops.foldl (Node.after S authority) (.started start) = node) {params : Params}
    (hparams : node.store.params = some params)
    (hrate : validateDecayRate params.decayRate = .ok ()) {epoch : UInt64}
    (hepoch : node.store.decayEpochStart = some epoch) {height : ℤ}
    (hfrom : (epoch.toNat : ℤ) ≤ height) (hheight : height < 2 ^ 63) (minter : Minter)
    (mintParams : MintParams) (bondedRatio : Dec) (hyear : 12 ≤ (S.blocksPerYear mintParams).toNat)
    (hbase : (S.defaultInflationCalculationFn minter mintParams bondedRatio).IsRate) :
    ((UInt64.ofInt height).toNat : ℤ) = height ∧
    int64 (UInt64.ofInt height - epoch) = height - epoch.toNat ∧
    int64 (S.blocksPerYear mintParams / monthsInYear) = (S.blocksPerYear mintParams).toNat / 12 ∧
    ∃ n r, wholeMonths (UInt64.ofInt height - epoch) (S.blocksPerYear mintParams / monthsInYear) =
      .ok n ∧ r = (UInt64.ofInt height - epoch) % (S.blocksPerYear mintParams / monthsInYear) ∧
      (n.toNat : ℤ) * (S.blocksPerYear mintParams / monthsInYear).toNat + r.toNat =
        height - epoch.toNat ∧
      r.toNat < (S.blocksPerYear mintParams / monthsInYear).toNat ∧
      ∃ rate cache,
        deflationCalculationFn S node.store node.cache height minter mintParams bondedRatio =
          .ok (rate, cache) ∧
        0 ≤ rate ∧ rate ≤ S.defaultInflationCalculationFn minter mintParams bondedRatio ∧
        (params.decayRate.isPositive = false →
          rate = S.defaultInflationCalculationFn minter mintParams bondedRatio) ∧
        (params.decayRate.isPositive = true → ∃ factor,
          S.approxRoot (1 - params.decayRate) (S.blocksPerYear mintParams / monthsInYear) =
            .ok factor ∧
          rate = (S.defaultInflationCalculationFn minter mintParams bondedRatio).mul
            (((1 - params.decayRate).power n.toNat).mul (factor.power r.toNat))) := by
  have hnow : ((UInt64.ofInt height).toNat : ℤ) = height := toNat_ofInt (by omega) (by omega)
  have hle : epoch ≤ UInt64.ofInt height := UInt64.le_iff_toNat_le.mpr (by omega)
  have hblocks : (UInt64.ofInt height - epoch).toNat = (UInt64.ofInt height).toNat - epoch.toNat :=
    UInt64.toNat_sub_of_le _ _ hle
  have helapsed : (UInt64.ofInt height - epoch).toNat < 2 ^ 63 := by omega
  have hyearLt := (S.blocksPerYear mintParams).toNat_lt
  have hmonth := toNat_blocksPerMonth (S.blocksPerYear mintParams)
  have hmonthPos : 0 < (S.blocksPerYear mintParams / monthsInYear).toNat := by omega
  obtain ⟨n, hn, hwhole⟩ := wholeMonths_eq helapsed hmonthPos (by omega)
  refine ⟨hnow, ?_, ?_, n, _, hn, rfl, ?_, ?_, ?_⟩
  · rw [int64_eq helapsed]
    omega
  · rw [int64_eq (by omega), hmonth]
    rfl
  · have hsplit := Nat.div_add_mod (UInt64.ofInt height - epoch).toNat
      (S.blocksPerYear mintParams / monthsInYear).toNat
    rw [mul_comm, ← hwhole, ← UInt64.toNat_mod] at hsplit
    rw [← Nat.cast_mul, ← Nat.cast_add, hsplit]
    omega
  · rw [UInt64.toNat_mod]
    exact Nat.mod_lt _ hmonthPos
  · have hunit := validateDecayRate_eq_ok.mp hrate
    have hcoherent : Coherent S node.cache := hnode ▸ coherent_none.run ops
    have hpos : 0 < S.blocksPerYear mintParams / monthsInYear :=
      UInt64.lt_iff_toNat_lt.mpr hmonthPos
    obtain ⟨factor, rate, cache, hroot, hrate, hdecayed, hrange⟩ :=
      decayedRate_eq hroots hcoherent hunit hbase.1 hpos hn
    rw [deflationCalculationFn_of_le hparams hepoch hle]
    cases params.decayRate.isPositive with
    | true =>
      exact ⟨rate, cache, hdecayed, hrange.1, hrange.2, nofun, fun _ ↦ ⟨factor, hroot, hrate⟩⟩
    | false => exact ⟨_, _, rfl, hbase.1, le_refl _, fun _ ↦ rfl, nofun⟩

section Histories

open Reference

theorem rootsAreRates_sdk : sdk.RootsAreRates := by
  intro d n _ _
  refine ⟨if d = 0 then 0 else 1, rfl, ?_⟩
  split_ifs
  · exact ⟨le_refl 0, Dec.isRate_one.1⟩
  · exact Dec.isRate_one

/-- At the last height, with the largest number of blocks per year. -/
theorem decay_exponent_exact_largest :
    ∃ rate cache, deflationCalculationFn sdk ⟨some decaying, some 1⟩ none 9223372036854775807 1
      18446744073709551615 1 = .ok (rate, cache) ∧ 0 ≤ rate ∧ rate ≤ 1 := by
  obtain ⟨-, -, -, _, _, -, -, -, -, rate, cache, hrate, hnonneg, hle, -⟩ :=
    decay_exponent_exact rootsAreRates_sdk authority ⟨some decaying, some 1⟩ [] rfl rfl
      (by decide) rfl
      (by decide : ((1 : UInt64).toNat : ℤ) ≤ 9223372036854775807)
      (by decide) 1 18446744073709551615 1
      (by decide) Dec.isRate_one
  exact ⟨rate, cache, hrate, hnonneg, hle⟩

end Histories

end ChainMain.Inflation
