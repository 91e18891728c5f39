import ChainMain.TieredRewards.PositionSpecs
import ChainMain.TieredRewards.Hooks

/-!
# What a settlement does

A settlement of a delegated position replays its pending validator events, pays the bonus and moves
the position's checkpoints. The store functions `replay`, `settled` and `replayed` say what comes
out of the replay for the position and for the event log; `succeeds_claimBonus` and
`succeeds_settleBeforeSlash` say that the callers of `processEventsAndClaimBonus` do exactly that.
The position is changed in memory only: it reaches the store with the write that follows.
-/

set_option autoImplicit false

namespace ChainMain.TieredRewards

open Foundations Decimal OrderedStore StoreProgram

variable {σ : Type} {K : Keepers σ} {w w' : World σ}

/-! ### Paying the bonus -/

theorem mem_single {denom : String} {amount : ℤ} {coin : String × ℤ} :
    coin ∈ (Coins.single denom amount).toList ↔ amount ≠ 0 ∧ coin = (denom, amount) := by
  rw [show coin = (coin.1, coin.2) from rfl, mem_toList]
  unfold Coins.single
  by_cases hzero : amount = 0
  · rw [if_pos hzero, Std.ExtTreeMap.getElem?_empty]
    simp [hzero]
  · rw [if_neg hzero, getElem?_insert_eq, Std.ExtTreeMap.getElem?_empty]
    by_cases hdenom : denom = coin.1
    · simp [hzero, hdenom, Prod.ext_iff, eq_comm]
    · simp [hdenom, Prod.ext_iff, Ne.symm hdenom]

theorem isZero_single {denom : String} {amount : ℤ} :
    (Coins.single denom amount).isZero ↔ amount = 0 := by
  unfold Coins.isZero
  simp only [List.all_eq_true, mem_single, beq_iff_eq]
  constructor
  · intro h
    by_contra hne
    exact hne (h (denom, amount) ⟨hne, rfl⟩)
  · rintro hzero coin ⟨hne, _⟩
    exact absurd hzero hne

theorem amountOf_single {denom : String} (amount : ℤ) :
    (Coins.single denom amount).amountOf denom = amount := by
  unfold Coins.single Coins.amountOf
  split_ifs with h
  · rw [h, Std.ExtTreeMap.getElem?_empty]
    rfl
  · rw [getElem?_insert_eq, if_pos rfl]
    rfl

/-- Whether the rewards pool has the coins of a bonus. -/
def Keepers.poolCovers (K : Keepers σ) (ext : σ) (bonus : ℤ) : Bool :=
  (K.balances ext (K.moduleAddress rewardsPoolName)).isAllGTE (Coins.single (K.bondDenom ext) bonus)

/-- A bonus is paid when the pool covers it and the owner may receive it. -/
theorem payBonus_covered {pos : Position} {totalBonus : ℤ} {owner : AccAddress} {ext : σ}
    (hpos : 0 < totalBonus) (hpool : K.poolCovers w.ext totalBonus)
    (howner : K.accCodec.stringToBytes pos.owner = some owner)
    (hsend : K.sendCoinsFromModuleToAccount w.ctx w.ext rewardsPoolName owner
      (Coins.single (K.bondDenom w.ext) totalBonus) = .ok ext) :
    Succeeds (payBonus K pos totalBonus) w (Coins.single (K.bondDenom w.ext) totalBonus)
      { w with
        ext := ext
        emitted := w.emitted ++ [.bonusRewardsClaimed pos.id pos.owner
          (Coins.single (K.bondDenom w.ext) totalBonus)] } := by
  have hsufficient : Succeeds (sufficientBonusPoolBalance K
      (Coins.single (K.bondDenom w.ext) totalBonus)) w ⟨⟩ w := by
    unfold sufficientBonusPoolBalance
    rw [if_neg (fun hzero ↦ hpos.ne' (isZero_single.mp hzero))]
    exact succeeds_read.mpr (succeeds_ensure.mpr ⟨hpool, rfl⟩)
  unfold payBonus
  rw [if_neg hpos.ne']
  simp only [succeeds_bind, succeeds_get, succeeds_ensure, succeeds_accAddressFromBech32,
    succeeds_callUnit, succeeds_emit, succeeds_pure]
  exact ⟨w, w, ⟨rfl, rfl⟩, ⟨⟩, w, ⟨decide_eq_true hpos.le, rfl⟩, ⟨⟩, w, hsufficient, owner, w,
    ⟨howner, rfl⟩, ⟨⟩, _, ⟨ext, hsend, rfl⟩, ⟨⟩, _, rfl, rfl, rfl⟩

/-- A bonus that the pool does not cover is refused with the error of the pool. -/
theorem payBonus_short {pos : Position} {totalBonus : ℤ} (hpos : 0 ≤ totalBonus)
    (hpool : K.poolCovers w.ext totalBonus = false) :
    ∃ e : Err, e.is .insufficientBonusPool ∧ Fails (payBonus K pos totalBonus) w e w := by
  have hne : totalBonus ≠ 0 := by
    rintro rfl
    cases hpool
  refine ⟨.registered .insufficientBonusPool "bonus: %s, pool balance: %s"
    [.coins (Coins.single (K.bondDenom w.ext) totalBonus),
      .coins (K.balances w.ext (K.moduleAddress rewardsPoolName))], rfl, ?_⟩
  unfold payBonus
  rw [if_neg hne]
  refine fails_bind.mpr (Or.inr ⟨w, w, succeeds_get.mpr ⟨rfl, rfl⟩, ?_⟩)
  refine fails_bind.mpr (Or.inr ⟨⟨⟩, w, succeeds_ensure.mpr ⟨decide_eq_true hpos, rfl⟩, ?_⟩)
  refine fails_bind.mpr (Or.inl ?_)
  unfold sufficientBonusPoolBalance
  rw [if_neg (fun hzero ↦ hne (isZero_single.mp hzero))]
  refine fails_bind.mpr (Or.inr ⟨w, w, succeeds_get.mpr ⟨rfl, rfl⟩, ?_⟩)
  exact fails_ensure.mpr ⟨hpool, rfl, rfl⟩

theorem succeeds_sufficientBonusPoolBalance {bonus : Coins} {u : PUnit}
    (h : Succeeds (sufficientBonusPoolBalance K bonus) w u w') :
    w' = w ∧ (¬ bonus.isZero →
      (K.balances w.ext (K.moduleAddress rewardsPoolName)).isAllGTE bonus) := by
  unfold sufficientBonusPoolBalance at h
  split_ifs at h with hzero
  · exact ⟨(succeeds_pure.mp h).2.symm, fun hne ↦ absurd hzero hne⟩
  · obtain ⟨hcovers, rfl⟩ := succeeds_ensure.mp (succeeds_read.mp h)
    exact ⟨rfl, fun _ ↦ hcovers⟩

theorem fails_sufficientBonusPoolBalance {bonus : Coins} {e : Err}
    (h : Fails (sufficientBonusPoolBalance K bonus) w e w') : w' = w := by
  unfold sufficientBonusPoolBalance at h
  split_ifs at h
  · exact absurd h fails_pure
  · rcases fails_bind.mp h with hget | ⟨_, _, hget, hrest⟩
    · exact absurd hget fails_get
    · obtain ⟨rfl, rfl⟩ := succeeds_get.mp hget
      exact (fails_ensure.mp hrest).2.2.symm

/-- A bonus that is paid is positive, comes out of the rewards pool and is recorded. -/
theorem succeeds_payBonus {pos : Position} {totalBonus : ℤ} {bonus : Coins}
    (h : Succeeds (payBonus K pos totalBonus) w bonus w') :
    (totalBonus = 0 ∧ bonus = ∅ ∧ w' = w) ∨
      0 < totalBonus ∧ bonus = Coins.single (K.bondDenom w.ext) totalBonus ∧
        K.poolCovers w.ext totalBonus ∧ ∃ owner ext,
        K.accCodec.stringToBytes pos.owner = some owner ∧
        K.sendCoinsFromModuleToAccount w.ctx w.ext rewardsPoolName owner
          (Coins.single (K.bondDenom w.ext) totalBonus) = .ok ext ∧
        w' = { w with
          ext := ext
          emitted := w.emitted ++ [.bonusRewardsClaimed pos.id pos.owner
            (Coins.single (K.bondDenom w.ext) totalBonus)] } := by
  unfold payBonus at h
  by_cases hzero : totalBonus = 0
  · rw [if_pos hzero] at h
    obtain ⟨hbonus, hw⟩ := succeeds_pure.mp h
    exact Or.inl ⟨hzero, hbonus.symm, hw.symm⟩
  · rw [if_neg hzero] at h
    simp only [succeeds_bind, succeeds_get, succeeds_ensure, succeeds_accAddressFromBech32,
      succeeds_callUnit, succeeds_emit, succeeds_pure] at h
    obtain ⟨_, _, ⟨rfl, rfl⟩, _, _, ⟨hnonneg, rfl⟩, _, w₁, hpool, owner, _,
      ⟨howner, rfl⟩, _, _, ⟨ext, hext, rfl⟩, _, _, rfl, hbonus, rfl⟩ := h
    obtain ⟨rfl, hcovers⟩ := succeeds_sufficientBonusPoolBalance hpool
    have hpos : 0 ≤ totalBonus := of_decide_eq_true hnonneg
    exact Or.inr
      ⟨by omega, hbonus.symm, hcovers fun h ↦ hzero (isZero_single.mp h), owner, ext, howner,
      hext, rfl⟩

theorem fails_payBonus {pos : Position} {totalBonus : ℤ} {e : Err}
    (h : Fails (payBonus K pos totalBonus) w e w') : w' = w := by
  unfold payBonus at h
  by_cases hzero : totalBonus = 0
  · rw [if_pos hzero] at h
    exact absurd h fails_pure
  · rw [if_neg hzero] at h
    rcases fails_bind.mp h with hget | ⟨_, _, hget, hrest⟩
    · exact absurd hget fails_get
    obtain ⟨rfl, rfl⟩ := succeeds_get.mp hget
    rcases fails_bind.mp hrest with hneg | ⟨_, _, hneg, hrest⟩
    · exact (fails_ensure.mp hneg).2.2.symm
    obtain ⟨_, rfl⟩ := succeeds_ensure.mp hneg
    rcases fails_bind.mp hrest with hpool | ⟨_, w₁, hpool, hrest⟩
    · exact fails_sufficientBonusPoolBalance hpool
    obtain ⟨rfl, _⟩ := succeeds_sufficientBonusPoolBalance hpool
    rcases fails_bind.mp hrest with howner | ⟨owner, _, howner, hrest⟩
    · exact (fails_expect.mp howner).2.2.symm
    obtain ⟨_, rfl⟩ := succeeds_accAddressFromBech32.mp howner
    rcases fails_bind.mp hrest with hsend | ⟨_, w₂, hsend, hrest⟩
    · exact fails_callUnit hsend
    · rcases fails_bind.mp hrest with hemit | ⟨_, _, _, hpure⟩
      · exact absurd hemit fails_modify
      · exact absurd hpure fails_pure

/-! ### Replaying the pending events -/

namespace Store

/-- The replay of the events a position has pending on a validator. -/
def replay (s : Store) (p : Position) (shares : Dec) (tier : Tier) (v : ValAddress) : Replay :=
  (Replay.start p).events p shares tier (s.getValidatorEventsSince v p.lastEventSeq)

/-- The position with the checkpoints of a settlement. -/
def settled (s : Store) (p : Position) (shares : Dec) (tier : Tier) (v : ValAddress)
    (blockTime : Time) : Position :=
  p.afterReplay (s.replay p shares tier v) blockTime

/-- The store in which the events a position had pending have one reference less. -/
def replayed (s : Store) (p : Position) (v : ValAddress) : Store :=
  s.decrementEvents v (s.getValidatorEventsSince v p.lastEventSeq)

def bonus (s : Store) (p : Position) (shares : Dec) (tier : Tier) (v : ValAddress)
    (valBonded : Bool) (currentRate : Dec) (blockTime : Time) : ℤ :=
  (s.replay p shares tier v).finish p shares tier valBonded currentRate blockTime

end Store

section Process

variable {pos pos' : PositionState} {del : Delegation} {v : ValAddress}

/-- `processEventsAndClaimBonus` when the tier and the validator are there: the events are replayed,
the checkpoints moved, and whether the bonus could be paid is the outcome. -/
theorem run_processEventsAndClaimBonus {tier : Tier} {val : Validator}
    (hdel : pos.delegation = some del) (hv : K.valCodec.stringToBytes del.validatorAddress = some v)
    (htier : w.store.tiers[pos.tierId]? = some tier)
    (hval : (K.staking w.ext).validators[v]? = some val) :
    (processEventsAndClaimBonus K pos).run w =
      let p := w.store.settled pos.toPosition del.shares tier v w.ctx.blockTime
      let result := exec
        (payBonus K p (w.store.bonus pos.toPosition del.shares tier v val.isBonded
          val.tokensPerShare w.ctx.blockTime))
        { w with store := w.store.replayed pos.toPosition v }
      ((pos.withPosition p, result.1), result.2) := by
  unfold processEventsAndClaimBonus
  simp only [hdel, hv, StateT.run_bind, StateT.run_get, htier, StateT.run_set, hval, pure_bind,
    bind_pure_comp, StateT.run_map]
  rfl

/-- Without the tier or the validator there is no settlement, and the error is not one of the
pool. -/
theorem run_processEventsAndClaimBonus_missing (hdel : pos.delegation = some del)
    (hv : K.valCodec.stringToBytes del.validatorAddress = some v)
    (hmissing : w.store.tiers[pos.tierId]? = none ∨ (K.staking w.ext).validators[v]? = none) :
    ∃ e, ((processEventsAndClaimBonus K pos).run w).1.2 = .error e ∧
      e.is .insufficientBonusPool = false := by
  unfold processEventsAndClaimBonus
  cases htier : w.store.tiers[pos.tierId]? with
  | none =>
    simp only [hdel, hv, StateT.run_bind, StateT.run_get, htier, pure_bind]
    exact ⟨_, rfl, rfl⟩
  | some tier =>
    have hval : (K.staking w.ext).validators[v]? = none := by
      rcases hmissing with h | h
      · rw [h] at htier
        cases htier
      · exact h
    simp only [hdel, hv, StateT.run_bind, StateT.run_get, htier, StateT.run_set, hval, pure_bind]
    exact ⟨_, rfl, rfl⟩

/-- A call of `processEventsAndClaimBonus` that returns no error. -/
theorem succeeds_claimBonus {bonus : Coins} (hdel : pos.delegation = some del)
    (hv : K.valCodec.stringToBytes del.validatorAddress = some v)
    (h : Succeeds (claimBonus K pos) w (pos', bonus) w') :
    ∃ tier val, w.store.tiers[pos.tierId]? = some tier ∧
      (K.staking w.ext).validators[v]? = some val ∧
      pos' = pos.withPosition
        (w.store.settled pos.toPosition del.shares tier v w.ctx.blockTime) ∧
      Succeeds (payBonus K (w.store.settled pos.toPosition del.shares tier v w.ctx.blockTime)
          (w.store.bonus pos.toPosition del.shares tier v val.isBonded val.tokensPerShare
            w.ctx.blockTime))
        { w with store := w.store.replayed pos.toPosition v } bonus w' := by
  unfold claimBonus at h
  simp only [succeeds_bind, succeeds_always, succeeds_fromOutcome, succeeds_pure] at h
  obtain ⟨⟨pos₁, outcome⟩, w₁, hrun, bonus₁, _, ⟨hok, rfl⟩, hresult, rfl⟩ := h
  obtain ⟨rfl, rfl⟩ := Prod.mk.inj hresult
  cases htier : w.store.tiers[pos.tierId]? with
  | none =>
    obtain ⟨e, herror, _⟩ := run_processEventsAndClaimBonus_missing hdel hv (Or.inl htier)
    rw [hrun] at herror
    rw [hok] at herror
    cases herror
  | some tier =>
    cases hval : (K.staking w.ext).validators[v]? with
    | none =>
      obtain ⟨e, herror, _⟩ := run_processEventsAndClaimBonus_missing hdel hv (Or.inr hval)
      rw [hrun] at herror
      rw [hok] at herror
      cases herror
    | some val =>
      rw [run_processEventsAndClaimBonus hdel hv htier hval] at hrun
      obtain ⟨hpair, hworld⟩ := Prod.mk.inj hrun
      obtain ⟨hpos, houtcome⟩ := Prod.mk.inj hpair
      refine ⟨tier, val, rfl, rfl, hpos.symm, ?_⟩
      exact Prod.ext (houtcome.trans hok) hworld

/-- A call of `processEventsAndClaimBonus` whose bonus is paid. -/
theorem claimBonus_of_payBonus {tier : Tier} {val : Validator} {bonus : Coins}
    (hdel : pos.delegation = some del) (hv : K.valCodec.stringToBytes del.validatorAddress = some v)
    (htier : w.store.tiers[pos.tierId]? = some tier)
    (hval : (K.staking w.ext).validators[v]? = some val)
    (hpay : Succeeds (payBonus K (w.store.settled pos.toPosition del.shares tier v w.ctx.blockTime)
        (w.store.bonus pos.toPosition del.shares tier v val.isBonded val.tokensPerShare
          w.ctx.blockTime))
      { w with store := w.store.replayed pos.toPosition v } bonus w') :
    Succeeds (claimBonus K pos) w
      (pos.withPosition (w.store.settled pos.toPosition del.shares tier v w.ctx.blockTime),
        bonus) w' := by
  set p := w.store.settled pos.toPosition del.shares tier v w.ctx.blockTime with hp
  refine succeeds_bind.mpr ⟨(pos.withPosition p, .ok bonus), w', succeeds_always.mpr ?_, ?_⟩
  · rw [run_processEventsAndClaimBonus hdel hv htier hval]
    exact congrArg
      (fun result : Except Err Coins × World σ ↦ ((pos.withPosition p, result.1), result.2))
      hpay
  · exact succeeds_bind.mpr ⟨bonus, w', succeeds_fromOutcome.mpr ⟨rfl, rfl⟩, .pure⟩

/-- The settlement before a redelegation slash, which goes through without a payment when the pool
cannot cover it. -/
theorem succeeds_settleBeforeSlash (hdel : pos.delegation = some del)
    (hv : K.valCodec.stringToBytes del.validatorAddress = some v)
    (h : Succeeds (settleBeforeSlash K pos) w pos' w') :
    ∃ tier val, w.store.tiers[pos.tierId]? = some tier ∧
      (K.staking w.ext).validators[v]? = some val ∧
      pos' = pos.withPosition
        (w.store.settled pos.toPosition del.shares tier v w.ctx.blockTime) ∧
      ((∃ bonus, Succeeds (payBonus K
          (w.store.settled pos.toPosition del.shares tier v w.ctx.blockTime)
          (w.store.bonus pos.toPosition del.shares tier v val.isBonded val.tokensPerShare
            w.ctx.blockTime))
        { w with store := w.store.replayed pos.toPosition v } bonus w') ∨
       (∃ e, e.is .insufficientBonusPool ∧
          ((processEventsAndClaimBonus K pos).run w).1.2 = .error e) ∧
        w' = { w with store := w.store.replayed pos.toPosition v }) := by
  unfold settleBeforeSlash at h
  simp only [succeeds_bind, succeeds_always] at h
  obtain ⟨⟨pos₁, outcome⟩, w₁, hrun, hrest⟩ := h
  have hmissing : ∀ e, outcome = .error e → e.is .insufficientBonusPool = false → False := by
    intro e he hpool
    rw [he] at hrest
    change Succeeds (if e.is .insufficientBonusPool then pure pos₁ else throw e) w₁ pos' w' at hrest
    rw [hpool] at hrest
    exact succeeds_throw hrest
  cases htier : w.store.tiers[pos.tierId]? with
  | none =>
    obtain ⟨e, herror, hpool⟩ := run_processEventsAndClaimBonus_missing hdel hv (Or.inl htier)
    rw [hrun] at herror
    exact absurd hpool fun hp ↦ hmissing e herror hp
  | some tier =>
    cases hval : (K.staking w.ext).validators[v]? with
    | none =>
      obtain ⟨e, herror, hpool⟩ := run_processEventsAndClaimBonus_missing hdel hv (Or.inr hval)
      rw [hrun] at herror
      exact absurd hpool fun hp ↦ hmissing e herror hp
    | some val =>
      have hrun' := hrun
      rw [run_processEventsAndClaimBonus hdel hv htier hval] at hrun'
      obtain ⟨hpair, hworld⟩ := Prod.mk.inj hrun'
      obtain ⟨hpos, houtcome⟩ := Prod.mk.inj hpair
      cases outcome with
      | ok bonus =>
        obtain ⟨rfl, rfl⟩ := succeeds_pure.mp hrest
        exact ⟨tier, val, rfl, rfl, hpos.symm, Or.inl ⟨bonus, Prod.ext houtcome hworld⟩⟩
      | error e =>
        have hpool : e.is .insufficientBonusPool = true := by
          by_contra hne
          exact hmissing e rfl (Bool.eq_false_iff.mpr hne)
        change Succeeds (if e.is .insufficientBonusPool then pure pos₁ else throw e) w₁ pos' w'
          at hrest
        rw [if_pos hpool] at hrest
        obtain ⟨rfl, rfl⟩ := succeeds_pure.mp hrest
        refine ⟨tier, val, rfl, rfl, hpos.symm, Or.inr ⟨⟨e, hpool, by rw [hrun]⟩, ?_⟩⟩
        exact fails_payBonus (Prod.ext houtcome hworld)

theorem identity_of_claimRewards {pos pos' : PositionState} {base bonus : Coins}
    (h : Succeeds (claimRewards K pos) w (pos', base, bonus) w') :
    pos'.id = pos.id ∧ pos'.owner = pos.owner := by
  unfold claimRewards at h
  rcases succeeds_ite.mp h with ⟨hdelegated, hclaim⟩ | ⟨_, hpure⟩
  · obtain ⟨del, hdel⟩ := Option.isSome_iff_exists.mp hdelegated
    unfold claimBaseRewards at hclaim
    simp only [hdel, succeeds_bind, succeeds_valAddressFromBech32, succeeds_pure] at hclaim
    obtain ⟨_, _, ⟨v, _, ⟨hv, rfl⟩, _⟩, ⟨settled, _⟩, _, hbonus, heq, _⟩ := hclaim
    obtain ⟨_, _, _, _, rfl, _⟩ := succeeds_claimBonus hdel hv hbonus
    obtain ⟨rfl, _⟩ := Prod.mk.inj heq
    exact ⟨rfl, rfl⟩
  · obtain ⟨heq, _⟩ := succeeds_pure.mp hpure
    obtain ⟨rfl, _⟩ := Prod.mk.inj heq
    exact ⟨rfl, rfl⟩

end Process

end ChainMain.TieredRewards
