import ChainMain.TieredRewards.ReferenceKeepers

/-!
# The top-up of base rewards

The begin blocker of `abci.go`. When the fee collector, after the community tax, holds less than the
target for one block, the difference is sent from the rewards pool to distribution, as far as the
pool reaches, and allocated to the validators of the last block by their voting power. Every
fraction is truncated and the last validator is given what is left.

`BlockKeepers` are the further keepers the begin blocker reads and calls, and
`BlockKeepers.Contract` what it relies on in bank and distribution. All coins of the function are of
the bond denomination, so `sdk.DecCoins` is an amount here, and `DecCoins.Sub` panics when the
difference is negative.

The remainder handed on by the loop covers the exact shares of the validators still to come
(`allocateTopUp_spec`), so it is never negative, and the allocations add up to what was debited
(`top_up_is_exact`).
-/

set_option autoImplicit false

namespace ChainMain.TieredRewards

open Foundations Decimal OrderedStore StoreProgram

/-- `distributiontypes.ModuleName`. -/
def distributionModuleName : String := "distribution"

/-- `abci.VoteInfo`: the consensus address and the power of a validator that could vote. -/
structure VoteInfo where
  address : ℕ
  power : ℤ

/-- The keepers the begin blocker reads and calls, besides those of `Keepers`. The fee collector is
`GetModuleAccount(FeeCollectorName)`, and a validator is given by its operator. `TotalBondedTokens`,
`BondDenom`, the mint `GetParams` and `GetCommunityTax` always answer here: the begin blocker panics
on their errors, which are errors of a store read. -/
structure BlockKeepers (σ : Type) where
  totalBondedTokens : σ → ℤ
  blocksPerYear : σ → ℕ
  communityTax : σ → Dec
  feeCollector : σ → Option AccAddress
  validatorByConsAddr : σ → ℕ → Except Err ValAddress
  sendCoinsFromModuleToModule : Context → σ → String → String → Coins → Except Err σ
  allocateTokensToValidator : Context → σ → ValAddress → String → Dec → Except Err σ

/-- A number as an `int64`. -/
def toInt64 (n : ℤ) : ℤ := n.bmod (2 ^ 64)

/-- The sum of the powers, as the `int64` the first loop adds up. -/
def previousTotalPower (votes : List VoteInfo) : ℤ :=
  votes.foldl (fun total vote ↦ toInt64 (total + vote.power)) 0

variable {σ : Type} (K : Keepers σ) (B : BlockKeepers σ)

/-! ### The begin blocker -/

/-- The reward of one block that meets the target rate. -/
def targetStakersRewardPerBlock (params : Params) (ext : σ) : Dec :=
  ((Dec.ofInt (B.totalBondedTokens ext)).mul params.targetBaseRewardsRate).quo
    (Dec.ofInt (toInt64 (B.blocksPerYear ext)))

/-- What the stakers get from the fee collector without a top-up. -/
def defaultStakersRewardPerBlock (feeCollector : AccAddress) (ext : σ) : Dec :=
  (Dec.ofInt ((K.balances ext feeCollector).amountOf (K.bondDenom ext))).mulTruncate
    (1 - B.communityTax ext)

/-- What is missing for the target, in whole tokens. -/
def shortFallAmount (params : Params) (feeCollector : AccAddress) (ext : σ) : ℤ :=
  (targetStakersRewardPerBlock B params ext -
    defaultStakersRewardPerBlock K B feeCollector ext).truncateInt

/-- The bond denomination in the rewards pool. -/
def poolBalance (ext : σ) : ℤ :=
  (K.balances ext (K.moduleAddress rewardsPoolName)).amountOf (K.bondDenom ext)

/-- The share of one validator in the top-up, with the power fraction and the product truncated. -/
def powerShare (topUp : Dec) (previousTotalPower : ℤ) (vote : VoteInfo) : Dec :=
  topUp.mulTruncate ((Dec.ofInt vote.power).quoTruncate (Dec.ofInt previousTotalPower))

/-- The second loop of `topUpBaseRewards`, with what remains of the top-up. -/
def allocateTopUp (denom : String) (topUp : Dec) (previousTotalPower : ℤ) :
    Dec → List VoteInfo → M σ PUnit
  | _, [] => pure ⟨⟩
  | remaining, vote :: votes => do
    let w ← get
    let validator ← fromOutcome (B.validatorByConsAddr w.ext vote.address)
    match votes with
    | [] => callUnit fun ctx ext ↦ B.allocateTokensToValidator ctx ext validator denom remaining
    | _ :: _ => do
      let reward := powerShare topUp previousTotalPower vote
      ensure (!(remaining - reward).isNegative) (.panic "negative coin amount")
      callUnit fun ctx ext ↦ B.allocateTokensToValidator ctx ext validator denom reward
      allocateTopUp denom topUp previousTotalPower (remaining - reward) votes

/-- The transfer and the allocation of `topUpBaseRewards`, for a shortfall that is positive. -/
def topUpShortFall (votes : List VoteInfo) (shortFall : ℤ) : M σ (Option ℤ) := do
  let w ← get
  let denom := K.bondDenom w.ext
  if previousTotalPower votes = 0 then return none
  else if poolBalance K w.ext = 0 then return none
  else do
    let topUpAmount := if poolBalance K w.ext < shortFall then poolBalance K w.ext else shortFall
    callUnit fun ctx ext ↦ B.sendCoinsFromModuleToModule ctx ext rewardsPoolName
      distributionModuleName (Coins.single denom topUpAmount)
    allocateTopUp B denom (Dec.ofInt topUpAmount) (previousTotalPower votes) (Dec.ofInt topUpAmount)
      votes
    return some topUpAmount

/-- `topUpBaseRewards`, with the votes of the block: the amount of the `EventBaseRewardsTopUp` it
emits, if it emits one. -/
def topUpBaseRewards (votes : List VoteInfo) : M σ (Option ℤ) := do
  let w ← get
  let params ← expect w.store.params (.panic "failed to get params: %v")
  if params.targetBaseRewardsRate.isZero then return none
  else if B.blocksPerYear w.ext = 0 then return none
  else
    match B.feeCollector w.ext with
    | none => return none
    | some feeCollector =>
      if 0 < shortFallAmount K B params feeCollector w.ext then
        topUpShortFall K B votes (shortFallAmount K B params feeCollector w.ext)
      else return none

/-! ### What it relies on -/

/-- A transfer out of the pool that the pool covers is made, and an allocation to a known validator
is made; neither touches staking, and the allocation touches no balance of the pool. -/
structure BlockKeepers.Contract : Prop where
  sendCoinsFromModuleToModule : ∀ ctx ext amount, 0 < amount → amount ≤ poolBalance K ext →
    ∃ ext', B.sendCoinsFromModuleToModule ctx ext rewardsPoolName distributionModuleName
        (Coins.single (K.bondDenom ext) amount) = .ok ext' ∧
      poolBalance K ext' = poolBalance K ext - amount ∧ K.LeavesStaking ext ext' ∧
      B.validatorByConsAddr ext' = B.validatorByConsAddr ext
  allocateTokensToValidator : ∀ ctx ext v denom reward, 0 ≤ reward →
    ∃ ext', B.allocateTokensToValidator ctx ext v denom reward = .ok ext' ∧
      poolBalance K ext' = poolBalance K ext ∧ K.LeavesStaking ext ext' ∧
      B.validatorByConsAddr ext' = B.validatorByConsAddr ext

/-- The calls of `AllocateTokensToValidator`, one for each vote, with the rewards they hand out. -/
inductive Allocations (ctx : Context) (denom : String) : σ → List VoteInfo → List Dec → σ → Prop
  | nil (ext : σ) : Allocations ctx denom ext [] [] ext
  | cons {ext ext₁ ext' : σ} {vote : VoteInfo} {votes : List VoteInfo} {reward : Dec}
      {rewards : List Dec} {v : ValAddress} (hval : B.validatorByConsAddr ext vote.address = .ok v)
      (hcall : B.allocateTokensToValidator ctx ext v denom reward = .ok ext₁)
      (hrest : Allocations ctx denom ext₁ votes rewards ext') :
      Allocations ctx denom ext (vote :: votes) (reward :: rewards) ext'

/-! ### The sum of the powers -/

section Powers

theorem sum_power_nonneg {votes : List VoteInfo} (hpower : ∀ vote ∈ votes, 0 ≤ vote.power) :
    0 ≤ (votes.map VoteInfo.power).sum := by
  refine List.sum_nonneg fun power hmem ↦ ?_
  obtain ⟨vote, hvote, rfl⟩ := List.mem_map.mp hmem
  exact hpower vote hvote

/-- Powers that are not negative and add up to an `int64` are added up exactly. -/
theorem previousTotalPower_eq {votes : List VoteInfo} (hpower : ∀ vote ∈ votes, 0 ≤ vote.power)
    (hfits : (votes.map VoteInfo.power).sum < 2 ^ 63) :
    previousTotalPower votes = (votes.map VoteInfo.power).sum := by
  -- the running total is the sum so far, which stays below the whole sum
  have hfold : ∀ (votes : List VoteInfo) (total : ℤ), (∀ vote ∈ votes, 0 ≤ vote.power) → 0 ≤ total →
      total + (votes.map VoteInfo.power).sum < 2 ^ 63 →
      votes.foldl (fun total vote ↦ toInt64 (total + vote.power)) total =
        total + (votes.map VoteInfo.power).sum := by
    intro votes
    induction votes with
    | nil => intro total _ _ _; simp
    | cons vote votes ih =>
      intro total hpower htotal hfits
      rw [List.map_cons, List.sum_cons] at hfits ⊢
      have hvote := hpower vote List.mem_cons_self
      have hrest := sum_power_nonneg fun other hother ↦ hpower other (List.mem_cons_of_mem _ hother)
      have hexact : toInt64 (total + vote.power) = total + vote.power := by
        refine Int.bmod_eq_of_le ?_ ?_ <;> omega
      rw [List.foldl_cons, hexact,
        ih _ (fun other hother ↦ hpower other (List.mem_cons_of_mem _ hother))
          (by omega) (by omega)]
      ring
  have h := hfold votes 0 hpower le_rfl (by rwa [zero_add])
  rwa [zero_add] at h

end Powers

/-! ### The loop -/

section Loop

variable {K B} (hB : B.Contract K)

include hB

/-- As long as what remains covers the exact shares of the votes to come, the loop goes through: it
allocates to each validator, nothing negative, and in total what remains. -/
theorem allocateTopUp_spec (denom : String) {topUp : Dec} {total : ℤ} (htopUp : 0 ≤ topUp)
    (htotal : 0 < total) {votes : List VoteInfo} (hvotes : votes ≠ [])
    (hpower : ∀ vote ∈ votes, 0 ≤ vote.power) (remaining : Dec) (w : World σ)
    (hknown : ∀ vote ∈ votes, ∃ v, B.validatorByConsAddr w.ext vote.address = .ok v)
    (hcovers : topUp.units * (votes.map VoteInfo.power).sum ≤ remaining.units * total) :
    ∃ rewards ext', Succeeds (allocateTopUp B denom topUp total remaining votes) w ⟨⟩
        { w with ext := ext' } ∧
      Allocations B w.ctx denom w.ext votes rewards ext' ∧ (∀ reward ∈ rewards, 0 ≤ reward) ∧
      rewards.sum = remaining ∧ poolBalance K ext' = poolBalance K w.ext ∧
      K.LeavesStaking w.ext ext' := by
  induction votes generalizing remaining w with
  | nil => exact absurd rfl hvotes
  | cons vote votes ih =>
    obtain ⟨v, hv⟩ := hknown vote List.mem_cons_self
    have hvote := hpower vote List.mem_cons_self
    have hrest := sum_power_nonneg fun other hother ↦ hpower other (List.mem_cons_of_mem _ hother)
    rw [List.map_cons, List.sum_cons, mul_add] at hcovers
    have htopUp' := Dec.units_nonneg.mp htopUp
    cases votes with
    | nil =>
      have hremaining : 0 ≤ remaining := by
        rw [Dec.units_nonneg]
        have hshare := mul_nonneg htopUp' hvote
        simp only [List.map_nil, List.sum_nil, mul_zero, add_zero] at hcovers
        exact nonneg_of_mul_nonneg_left (hshare.trans hcovers) htotal
      obtain ⟨ext', hcall, hpool, hleaves, _⟩ :=
        hB.allocateTokensToValidator w.ctx w.ext v denom remaining hremaining
      refine ⟨[remaining], ext', ?_, .cons hv hcall (.nil ext'), ?_, ?_, hpool, hleaves⟩
      · refine succeeds_bind.mpr ⟨w, w, succeeds_get.mpr ⟨rfl, rfl⟩, ?_⟩
        refine succeeds_bind.mpr ⟨v, w, succeeds_fromOutcome.mpr ⟨hv, rfl⟩, ?_⟩
        exact succeeds_callUnit.mpr ⟨ext', hcall, rfl⟩
      · intro reward hreward
        rwa [List.mem_singleton.mp hreward]
      · rw [List.sum_singleton]
    | cons next votes =>
      set reward := powerShare topUp total vote with hreward
      have hshare : reward.units * total ≤ topUp.units * vote.power :=
        Dec.mulTruncate_quoTruncate_le htopUp hvote htotal
      have hnonneg : 0 ≤ reward :=
        Dec.mulTruncate_nonneg htopUp (Dec.quoTruncate_nonneg
          (mul_nonneg hvote (by decide)) (mul_nonneg htotal.le (by decide)))
      have hcovers' : topUp.units * (((next :: votes).map VoteInfo.power).sum) ≤
          (remaining - reward).units * total := by
        rw [Dec.units_sub, sub_mul]
        linarith
      have hleft : (!(remaining - reward).isNegative) = true := by
        have hpos : 0 ≤ (remaining - reward).units :=
          nonneg_of_mul_nonneg_left ((mul_nonneg htopUp' hrest).trans hcovers') htotal
        rw [Dec.isNegative, decide_eq_false (not_lt.mpr hpos)]
        rfl
      obtain ⟨ext₁, hcall, hpool, hleaves, hsame⟩ :=
        hB.allocateTokensToValidator w.ctx w.ext v denom reward hnonneg
      obtain ⟨rewards, ext', hloop, hcalls, hnonnegs, hsum, hpool', hleaves'⟩ :=
        ih (List.cons_ne_nil _ _) (fun other hother ↦ hpower other (List.mem_cons_of_mem _ hother))
          (remaining - reward) { w with ext := ext₁ }
          (fun other hother ↦ hsame ▸ hknown other (List.mem_cons_of_mem _ hother)) hcovers'
      refine ⟨reward :: rewards, ext', ?_, .cons hv hcall hcalls, ?_, ?_, hpool'.trans hpool,
        ⟨hleaves'.staking.trans hleaves.staking,
          fun a ha ↦ hleaves'.account a (hleaves.account a ha)⟩⟩
      · refine succeeds_bind.mpr ⟨w, w, succeeds_get.mpr ⟨rfl, rfl⟩, ?_⟩
        refine succeeds_bind.mpr ⟨v, w, succeeds_fromOutcome.mpr ⟨hv, rfl⟩, ?_⟩
        refine succeeds_bind.mpr ⟨(), w, succeeds_ensure.mpr ⟨hleft, rfl⟩, ?_⟩
        exact succeeds_bind.mpr ⟨⟨⟩, _, succeeds_callUnit.mpr ⟨ext₁, hcall, rfl⟩, hloop⟩
      · intro other hother
        rcases List.mem_cons.mp hother with rfl | hmem
        · exact hnonneg
        · exact hnonnegs other hmem
      · rw [List.sum_cons, hsum, add_sub_cancel]

/-- With a positive shortfall the pool is debited by as much of it as there is, and the allocations
add up to that. -/
theorem topUpShortFall_spec {votes : List VoteInfo} {w : World σ} {shortFall : ℤ}
    (hshortFall : 0 < shortFall) (hpool : 0 ≤ poolBalance K w.ext) (hvotes : votes ≠ [])
    (hpower : ∀ vote ∈ votes, 0 ≤ vote.power)
    (hknown : ∀ vote ∈ votes, ∃ v, B.validatorByConsAddr w.ext vote.address = .ok v)
    (hpositive : 0 < (votes.map VoteInfo.power).sum)
    (hfits : (votes.map VoteInfo.power).sum < 2 ^ 63) :
    (poolBalance K w.ext = 0 ∧ Succeeds (topUpShortFall K B votes shortFall) w none w) ∨
    ∃ ext₁ rewards ext', 0 < poolBalance K w.ext ∧
      Succeeds (topUpShortFall K B votes shortFall) w (some (min shortFall (poolBalance K w.ext)))
        { w with ext := ext' } ∧
      poolBalance K ext' = poolBalance K w.ext - min shortFall (poolBalance K w.ext) ∧
      B.sendCoinsFromModuleToModule w.ctx w.ext rewardsPoolName distributionModuleName
        (Coins.single (K.bondDenom w.ext) (min shortFall (poolBalance K w.ext))) = .ok ext₁ ∧
      Allocations B w.ctx (K.bondDenom w.ext) ext₁ votes rewards ext' ∧
      (∀ reward ∈ rewards, 0 ≤ reward) ∧
      rewards.sum = Dec.ofInt (min shortFall (poolBalance K w.ext)) ∧
      K.LeavesStaking w.ext ext' := by
  have htotal := previousTotalPower_eq hpower hfits
  have hne : previousTotalPower votes ≠ 0 := by
    rw [htotal]
    exact hpositive.ne'
  by_cases hempty : poolBalance K w.ext = 0
  · left
    refine ⟨hempty, succeeds_read.mpr ?_⟩
    dsimp only
    rw [if_neg hne, if_pos hempty]
    exact .pure
  · right
    have hfunds : 0 < poolBalance K w.ext := lt_of_le_of_ne hpool (Ne.symm hempty)
    have hamount : (if poolBalance K w.ext < shortFall then poolBalance K w.ext else shortFall) =
        min shortFall (poolBalance K w.ext) := by
      split_ifs with hshort
      · exact (min_eq_right hshort.le).symm
      · exact (min_eq_left (not_lt.mp hshort)).symm
    obtain ⟨ext₁, hsend, hdebit, hleaves, hsame⟩ := hB.sendCoinsFromModuleToModule w.ctx w.ext
      (min shortFall (poolBalance K w.ext)) (lt_min hshortFall hfunds) (min_le_right _ _)
    obtain ⟨rewards, ext', hloop, hcalls, hnonneg, hsum, hpool', hleaves'⟩ :=
      allocateTopUp_spec hB (K.bondDenom w.ext)
        (mul_nonneg (lt_min hshortFall hfunds).le (by decide))
        hpositive hvotes hpower (Dec.ofInt (min shortFall (poolBalance K w.ext)))
        { w with ext := ext₁ } (fun vote hvote ↦ hsame ▸ hknown vote hvote) le_rfl
    refine ⟨ext₁, rewards, ext', hfunds, ?_, hpool'.trans hdebit, hsend, hcalls, hnonneg, hsum,
      ⟨hleaves'.staking.trans hleaves.staking,
        fun a ha ↦ hleaves'.account a (hleaves.account a ha)⟩⟩
    refine succeeds_read.mpr ?_
    dsimp only
    rw [if_neg hne, if_neg hempty, hamount, htotal]
    refine succeeds_bind.mpr ⟨⟨⟩, _, succeeds_callUnit.mpr ⟨ext₁, hsend, rfl⟩, ?_⟩
    exact succeeds_bind.mpr ⟨⟨⟩, _, hloop, .pure⟩

end Loop

/-! ### The top-up -/

section TopUp

variable {K B}

/-- What a top-up is to take from the pool: the shortfall, as far as the pool reaches. -/
def debit (K : Keepers σ) (B : BlockKeepers σ) (params : Params) (feeCollector : AccAddress)
    (ext : σ) : ℤ :=
  if 0 < shortFallAmount K B params feeCollector ext then
    min (shortFallAmount K B params feeCollector ext) (poolBalance K ext)
  else 0

theorem shortFallAmount_nonpos {params : Params} {feeCollector : AccAddress} {ext : σ}
    (hrate : params.targetBaseRewardsRate.isZero) (htax : B.communityTax ext ≤ 1)
    (hfees : 0 ≤ (K.balances ext feeCollector).amountOf (K.bondDenom ext)) :
    shortFallAmount K B params feeCollector ext ≤ 0 := by
  have htarget : targetStakersRewardPerBlock B params ext = 0 := by
    have hzero : params.targetBaseRewardsRate = 0 := Dec.ext (eq_of_beq hrate)
    unfold targetStakersRewardPerBlock
    rw [hzero]
    simp only [Dec.mul, Dec.quo, Dec.units_zero, mul_zero, Dec.chopAndRound_zero, zero_mul,
      Int.zero_tdiv]
    rfl
  have hdefault : 0 ≤ defaultStakersRewardPerBlock K B feeCollector ext :=
    Dec.mulTruncate_nonneg (mul_nonneg hfees (by decide)) (sub_nonneg.mpr htax)
  unfold shortFallAmount
  rw [htarget, zero_sub]
  exact Dec.truncateInt_nonpos (neg_nonpos.mpr hdefault)

theorem default_add_debit_le {params : Params} {feeCollector : AccAddress} {ext : σ}
    (h : 0 < debit K B params feeCollector ext) :
    defaultStakersRewardPerBlock K B feeCollector ext +
        Dec.ofInt (debit K B params feeCollector ext) ≤
      targetStakersRewardPerBlock B params ext := by
  have hshort : 0 < shortFallAmount K B params feeCollector ext := by
    by_contra hnot
    rw [debit, if_neg hnot] at h
    exact lt_irrefl 0 h
  have hgap : 0 ≤ targetStakersRewardPerBlock B params ext -
      defaultStakersRewardPerBlock K B feeCollector ext := by
    by_contra hnot
    exact absurd hshort (not_lt.mpr (Dec.truncateInt_nonpos (not_le.mp hnot).le))
  have hdebit : debit K B params feeCollector ext ≤
      shortFallAmount K B params feeCollector ext := by
    rw [debit, if_pos hshort]
    exact min_le_left _ _
  have hfill := (Dec.ofInt_le_ofInt hdebit).trans (Dec.ofInt_truncateInt_le hgap)
  exact le_sub_iff_add_le'.mp hfill

/-- What leaves staking alone is one of the things that happen outside. -/
theorem outside_of_leavesStaking {w : World σ} {ext' : σ} (htidy : (K.view w).Tidy)
    (hleaves : K.LeavesStaking w.ext ext') : ChainStep K w .outside { w with ext := ext' } := by
  have htouches : K.Touches (fun _ ↦ False) w.ext ext' := .of_leavesStaking hleaves
  refine .outside ext' (frame_of_touches htouches rfl rfl (fun _ h ↦ h.elim) htidy
    (fun _ _ _ h ↦ h) fun _ h ↦ ?_)
  cases h

/-- The top-up of base rewards, for votes of known validators with powers that are not negative and
a positive sum in `int64`: it succeeds, the pool is debited by the shortfall as far as it reaches,
the allocations after that transfer are not negative and add up to the debit, and what is debited
never takes the rewards of the stakers above the target. To the rest of the module it is something
that happens outside. -/
theorem top_up_is_exact (hB : B.Contract K) {w : World σ} {params : Params}
    {feeCollector : AccAddress} {votes : List VoteInfo} (hparams : w.store.params = some params)
    (hblocks : 0 < B.blocksPerYear w.ext) (htax : B.communityTax w.ext ≤ 1)
    (hcollector : B.feeCollector w.ext = some feeCollector)
    (hfees : 0 ≤ (K.balances w.ext feeCollector).amountOf (K.bondDenom w.ext))
    (hpool : 0 ≤ poolBalance K w.ext) (hvotes : votes ≠ [])
    (hpower : ∀ vote ∈ votes, 0 ≤ vote.power)
    (hknown : ∀ vote ∈ votes, ∃ v, B.validatorByConsAddr w.ext vote.address = .ok v)
    (hpositive : 0 < (votes.map VoteInfo.power).sum)
    (hfits : (votes.map VoteInfo.power).sum < 2 ^ 63) :
    ∃ event ext', Succeeds (topUpBaseRewards K B votes) w event { w with ext := ext' } ∧
      ((K.view w).Tidy → ChainStep K w .outside { w with ext := ext' }) ∧
      poolBalance K ext' = poolBalance K w.ext - debit K B params feeCollector w.ext ∧
      (debit K B params feeCollector w.ext = 0 ∧ event = none ∧ ext' = w.ext ∨
        0 < debit K B params feeCollector w.ext ∧
        event = some (debit K B params feeCollector w.ext) ∧
        defaultStakersRewardPerBlock K B feeCollector w.ext +
            Dec.ofInt (debit K B params feeCollector w.ext) ≤
          targetStakersRewardPerBlock B params w.ext ∧
        ∃ ext₁ rewards, B.sendCoinsFromModuleToModule w.ctx w.ext rewardsPoolName
            distributionModuleName (Coins.single (K.bondDenom w.ext)
              (debit K B params feeCollector w.ext)) = .ok ext₁ ∧
          Allocations B w.ctx (K.bondDenom w.ext) ext₁ votes rewards ext' ∧
          (∀ reward ∈ rewards, 0 ≤ reward) ∧
          rewards.sum = Dec.ofInt (debit K B params feeCollector w.ext)) := by
  -- the checks before the shortfall, in the order of the source
  have hread : ∀ event w', Succeeds (if params.targetBaseRewardsRate.isZero then pure none
      else if 0 < shortFallAmount K B params feeCollector w.ext then
        topUpShortFall K B votes (shortFallAmount K B params feeCollector w.ext)
      else pure none) w event w' → Succeeds (topUpBaseRewards K B votes) w event w' := by
    intro event w' h
    refine succeeds_read.mpr (succeeds_bind.mpr ⟨params, w, ?_, ?_⟩)
    · exact succeeds_expect.mpr ⟨hparams, rfl⟩
    · rw [if_neg hblocks.ne']
      simpa only [hcollector] using h
  have hsame : (K.view w).Tidy → ChainStep K w .outside { w with ext := w.ext } := fun htidy ↦
    outside_of_leavesStaking htidy ⟨rfl, fun _ h ↦ h⟩
  by_cases hshort : 0 < shortFallAmount K B params feeCollector w.ext
  · have hrate : ¬ params.targetBaseRewardsRate.isZero := fun hrate ↦
      absurd hshort (not_lt.mpr (shortFallAmount_nonpos hrate htax hfees))
    have hdebit : debit K B params feeCollector w.ext =
        min (shortFallAmount K B params feeCollector w.ext) (poolBalance K w.ext) := if_pos hshort
    rw [if_neg hrate, if_pos hshort] at hread
    rcases topUpShortFall_spec hB hshort hpool hvotes hpower hknown hpositive hfits with
      ⟨hempty, hnone⟩ |
      ⟨ext₁, rewards, ext', hfunds, hsome, hpool', hsend, hcalls, hnonneg, hsum, hleaves⟩
    · have hzero : debit K B params feeCollector w.ext = 0 := by
        rw [hdebit, hempty, min_eq_right hshort.le]
      refine ⟨none, w.ext, hread _ _ hnone, hsame, ?_, .inl ⟨hzero, rfl, rfl⟩⟩
      rw [hzero, sub_zero]
    · rw [← hdebit] at hsome hpool' hsend hsum
      have hpos : 0 < debit K B params feeCollector w.ext := hdebit ▸ lt_min hshort hfunds
      exact ⟨_, ext', hread _ _ hsome, fun htidy ↦ outside_of_leavesStaking htidy hleaves, hpool',
        .inr ⟨hpos, rfl, default_add_debit_le hpos, ext₁, rewards, hsend, hcalls, hnonneg,
          hsum⟩⟩
  · have hzero : debit K B params feeCollector w.ext = 0 := if_neg hshort
    refine ⟨none, w.ext, hread _ _ ?_, hsame, ?_, .inl ⟨hzero, rfl, rfl⟩⟩
    · rw [if_neg hshort, ite_self]
      exact .pure
    · rw [hzero, sub_zero]

end TopUp

/-! ### A block with a top-up -/

namespace Reference

/-- The keepers of the begin blocker: three blocks a year, a community tax of two percent, the fees
at address `8` and distribution at `9`. -/
def blockKeepers : BlockKeepers Outside where
  totalBondedTokens _ := 10000000
  blocksPerYear _ := 3
  communityTax _ := ⟨20000000000000000⟩
  feeCollector _ := some 8
  validatorByConsAddr _ address := .ok address
  sendCoinsFromModuleToModule _ o _ _ coins := o.send 0 9 (coins.amountOf denom)
  allocateTokensToValidator _ o _ _ _ := .ok o

theorem blockKeepers_contract : blockKeepers.Contract keepers where
  sendCoinsFromModuleToModule := by
    intro ctx o amount _ hcovered
    have hbalance : ∀ o : Outside, poolBalance keepers o = o.balance 0 :=
      fun o ↦ amountOf_single (o.balance 0)
    rw [hbalance] at hcovered
    refine ⟨(o.credit 0 (-amount)).credit 9 amount, ?_, ?_, ⟨rfl, fun _ h ↦ h⟩, rfl⟩
    · change o.send 0 9 ((Coins.single denom amount).amountOf denom) = _
      rw [amountOf_single, Outside.send, Outside.debit, if_pos hcovered]
      rfl
    · rw [hbalance, hbalance]
      unfold Outside.credit Outside.balance
      rw [getElem?_insert_ne (by decide), getElem?_insert_eq, if_pos rfl]
      exact (sub_eq_add_neg _ _).symm
  allocateTokensToValidator := fun _ o _ _ _ _ ↦ ⟨o, rfl, rfl, ⟨rfl, fun _ h ↦ h⟩, rfl⟩

/-- A world in which the target is a whole year's worth of the stake. -/
def targeting : World Outside := { world₀ with store := { Store.empty with params := some ⟨1⟩ } }

/-- Two votes with powers that do not divide the top-up. -/
def votes : List VoteInfo := [⟨1, 1⟩, ⟨2, 6⟩]

/-- A world in which the fees of the block are above the target. -/
def richFees : World Outside :=
  { targeting with ext := { outside₀ with balances := outside₀.balances.insert 8 1000000000 } }

end Reference

open Reference

/-- A block whose top-up is allocated to two validators. -/
theorem top_up_is_exact_example :
    ∃ event ext', Succeeds (topUpBaseRewards keepers blockKeepers votes)
        targeting event { targeting with ext := ext' } ∧
      poolBalance keepers ext' = poolBalance keepers targeting.ext -
        debit keepers blockKeepers ⟨1⟩ 8 targeting.ext := by
  obtain ⟨event, ext', hsucceeds, _, hpool, _⟩ := top_up_is_exact blockKeepers_contract
    (show targeting.store.params = some ⟨1⟩ from rfl) (by decide) (by decide) rfl
    (by decide +kernel) (by decide +kernel) (show votes ≠ [] by decide) (by decide)
    (fun vote _ ↦ ⟨vote.address, rfl⟩) (by decide) (by decide)
  exact ⟨event, ext', hsucceeds, hpool⟩

/-- When the fees alone are above the target, nothing is debited, and what the stakers get is above
the target. -/
theorem fees_above_target :
    (exec (topUpBaseRewards keepers blockKeepers votes)
      richFees).1.toOption = some none ∧
    debit keepers blockKeepers ⟨1⟩ 8 richFees.ext = 0 ∧
    targetStakersRewardPerBlock blockKeepers ⟨1⟩ richFees.ext <
      defaultStakersRewardPerBlock keepers blockKeepers 8 richFees.ext +
        Dec.ofInt (debit keepers blockKeepers ⟨1⟩ 8 richFees.ext) := by
  decide +kernel

end ChainMain.TieredRewards
