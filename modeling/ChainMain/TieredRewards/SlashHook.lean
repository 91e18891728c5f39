import ChainMain.TieredRewards.ChainRuns
import ChainMain.TieredRewards.SegmentBonus
import ChainMain.TieredRewards.ReferenceKeepers

/-!
# The redelegation-slash hook does not fail

`slashRedelegationPosition` runs in the middle of a slash, where an error halts the chain. From
every reachable world it returns no error (`slash_hook_settles`): the bonus on the shares before the
slash is paid when the pool covers it and forgone when not, and the store afterwards is the same
either way (`Store.slashed`).

The bonus must not be negative, since a negative coin panics. The rates in the event log were read
off the validators of staking when the events were recorded, so they are not negative if the
validators never were (`Reaches.priced`).
-/

set_option autoImplicit false

namespace ChainMain.TieredRewards

open Foundations Decimal OrderedStore StoreProgram Runs

open Ledger (QuietRun)

variable {σ : Type} {K : Keepers σ} {w w' : World σ} {id : ℕ} {a : AccAddress} {v : ValAddress}
  {s : Dec}
variable {owner : AccAddress} {shares : Dec} {del : Delegation} {p : Position} {pos : PositionState}
  {tier : Tier} {now : Time} {w₁ : World σ}

/-! ### Rates in the event log -/

/-- What staking promises about its records: validators have no negative tokens or shares, and whom
a delegation is to exists. -/
structure Staking.WellFormed (staking : Staking) : Prop where
  tokens : ∀ (u : ValAddress) (val : Validator), staking.validators[u]? = some val →
    0 ≤ val.tokens ∧ 0 ≤ val.delegatorShares
  validator : ∀ (b : AccAddress) (u : ValAddress) (t : Dec), staking.delegations[(b, u)]? = some t →
    ∃ val, staking.validators[u]? = some val

theorem Validator.tokensPerShare_nonneg {val : Validator} (htokens : 0 ≤ val.tokens)
    (hshares : 0 ≤ val.delegatorShares) : 0 ≤ val.tokensPerShare := by
  unfold Validator.tokensPerShare
  split_ifs
  · exact le_refl _
  · exact Dec.nonneg_quo (Dec.nonneg_mulInt (by decide) htokens) hshares

theorem Staking.WellFormed.rate_nonneg (h : (K.staking w.ext).WellFormed) (u : ValAddress) :
    0 ≤ K.rate w u := by
  unfold Keepers.rate
  cases hval : (K.staking w.ext).validators[u]? with
  | none => exact le_refl _
  | some val =>
    obtain ⟨htokens, hshares⟩ := h.tokens u val hval
    exact val.tokensPerShare_nonneg htokens hshares

namespace Ledger

/-- No event was recorded at a negative rate. -/
def Priced (L : Ledger) : Prop :=
  ∀ (k : ValAddress × ℕ) (event : ValidatorEvent), L.store.validatorEvents[k]? = some event →
    0 ≤ event.tokensPerShare

variable {codec : AddressCodec} {L L' : Ledger} {op : Op}

theorem Step.priced (h : Step codec L op L')
    (hrate : ∀ u eventType rate, op = .record u eventType rate → 0 ≤ rate) (hL : L.Priced) :
    L'.Priced := by
  intro k event hk
  rcases h.event_of hk with ⟨old, hold, hcontent⟩ | ⟨eventType, hop, _⟩
  · obtain ⟨_, _, _, hsame, _⟩ := ValidatorEvent.mk.inj hcontent
    rw [← hsame]
    exact hL k old hold
  · exact hrate _ _ _ hop

theorem QuietRun.priced (h : QuietRun codec L L') (hL : L.Priced) : L'.Priced := by
  obtain ⟨τ, hrun, hquiet⟩ := h
  refine (hrun.restrict (P := fun _ op _ ↦ op.quiet) hquiet).invariant (P := Priced) hL ?_
  rintro L₁ op L₂ hL₁ ⟨hstep, hop⟩
  refine hstep.priced ?_ hL₁
  rintro u eventType rate rfl
  cases hop

end Ledger

theorem Settlement.priced {val : Validator} {covered : Bool}
    (h : Settlement K w id p a v s tier val covered w') (hw : K.Sound w)
    (hpriced : (K.view w).Priced) : (K.view w').Priced := by
  obtain ⟨L, hsettle, houtside⟩ := h.steps hw
  exact houtside.priced (fun _ _ _ hop ↦ nomatch hop) (hsettle.priced (fun _ _ _ hop ↦ nomatch hop)
    hpriced)

theorem SettleRun.priced {ids : List ℕ} (h : SettleRun K w ids w')
    (hw : K.Sound w) (hpriced : (K.view w).Priced) : (K.view w').Priced := by
  induction h with
  | nil w => exact hpriced
  | settle hfirst _ ih => exact ih (hfirst.sound hw) (hfirst.priced hw hpriced)
  | skip _ _ _ ih => exact ih hw hpriced

theorem Effect.priced {msg : Msg} (h : Effect K w w₁ w' msg)
    (hpriced : (K.view w₁).Priced) : (K.view w').Priced := by
  cases h with
  | quiet _ hquiet => exact hquiet.priced hpriced
  | lock hworld hcreate | commit hworld hcreate =>
    subst hworld
    obtain ⟨_, hquiet, hstep⟩ := hcreate
    exact hstep.priced (fun _ _ _ hop ↦ nomatch hop) (hquiet.priced hpriced)
  | trigger hworld hstep =>
    subst hworld
    exact hstep.priced (fun _ _ _ hop ↦ nomatch hop) hpriced
  | clear _ hstep => exact hstep.priced (fun _ _ _ hop ↦ nomatch hop) hpriced

/-- A step of the chain records events at the rates of the world it starts in. -/
theorem ChainEffect.priced {label : Label} (h : ChainEffect K w label w')
    (hw : K.Sound w) (hstaking : (K.staking w.ext).WellFormed)
    (hpriced : (K.view w).Priced) : (K.view w').Priced := by
  cases h with
  | silent _ hquiet => exact hquiet.priced hpriced
  | failed _ => exact hpriced
  | delivered _ _ _ hsettles heffect => exact heffect.priced (hsettles.priced hw hpriced)
  | noticed _ hrecords =>
    rcases hrecords with hstep | ⟨_, hquiet⟩
    · refine hstep.priced ?_ hpriced
      rintro u eventType rate heq
      obtain ⟨_, _, rfl⟩ := Ledger.Op.record.inj heq
      exact hstaking.rate_nonneg _
    · exact hquiet.priced hpriced
  | slashed hslashes =>
    rcases hslashes with ⟨_, hquiet⟩ | ⟨_, hsettle, _, hquiet⟩
    · exact hquiet.priced hpriced
    · exact hquiet.priced (hsettle.priced hw hpriced)

theorem Reaches.priced (hK : K.Contract) {τ : List (Transition (World σ) Label)} (h : Reaches K τ w)
    (hstaking : ∀ t ∈ τ, (K.staking t.source.ext).WellFormed) : (K.view w).Priced := by
  obtain ⟨w₀, hfresh, hrun⟩ := h
  have hempty : (K.view w₀).Priced := by
    obtain ⟨params, _, hstore⟩ := hfresh.store
    intro k event hk
    rw [show (K.view w₀).store.validatorEvents = ∅ from congrArg Store.validatorEvents hstore,
      Std.ExtTreeMap.getElem?_empty] at hk
    cases hk
  refine ((hrun.restrict (P := fun w _ _ ↦ (K.staking w.ext).WellFormed) hstaking).invariant
    (P := fun w ↦ K.Sound w ∧ (K.view w).Priced) ⟨hfresh.sound, hempty⟩ ?_).2
  rintro w₁ label w₂ ⟨hsound, hpriced⟩ ⟨hstep, hwellFormed⟩
  have heffect := hstep.effect hK hsound
  exact ⟨heffect.sound hsound, heffect.priced hsound hwellFormed hpriced⟩

/-! ### The bonus is not negative -/

theorem Tier.bonusApy_nonneg (h : tier.validate = .ok ()) : 0 ≤ tier.bonusApy := by
  unfold Tier.validate at h
  split_ifs at h with h₁ h₂ h₃ h₄ h₅
  exact not_lt.mp fun hlt ↦ h₃ (decide_eq_true hlt)

theorem Replay.events_nonneg (hs : 0 ≤ s) (hapy : 0 ≤ tier.bonusApy)
    (entries : List EventEntry) (hrates : ∀ entry ∈ entries, 0 ≤ entry.event.tokensPerShare)
    (r : Replay) (hr : 0 ≤ r.totalBonus) : 0 ≤ (r.events p s tier entries).totalBonus := by
  induction entries generalizing r with
  | nil => exact hr
  | cons entry entries ih =>
    refine ih (fun e he ↦ hrates e (List.mem_cons_of_mem _ he)) _ ?_
    unfold Replay.event
    dsimp only
    split_ifs
    · exact add_nonneg hr (computeSegmentBonus_nonneg hs (hrates entry List.mem_cons_self) hapy _ _)
    · exact hr

theorem Store.bonus_nonneg {st : Store} {bonded : Bool} {rate : Dec} (hs : 0 ≤ s)
    (hapy : 0 ≤ tier.bonusApy) (hrate : 0 ≤ rate)
    (hpriced : ∀ (k : ValAddress × ℕ) (event : ValidatorEvent), st.validatorEvents[k]? =
      some event → 0 ≤ event.tokensPerShare) : 0 ≤ st.bonus p s tier v bonded rate now := by
  have hreplay : 0 ≤ (st.replay p s tier v).totalBonus := by
    refine Replay.events_nonneg hs hapy _ (fun entry hentry ↦ ?_) _ (le_refl _)
    exact hpriced _ _ (mem_getValidatorEventsSince.mp hentry).2
  unfold Store.bonus Replay.finish
  split_ifs
  · exact add_nonneg hreplay (computeSegmentBonus_nonneg hs hrate hapy _ _)
  · exact hreplay

/-! ### What the hook leaves -/

/-- The store after the settlement and the slash of a position with `s` shares, `shares` of which
are about to be unbonded. -/
def Store.slashed (st : Store) (p : Position) (s shares : Dec) (tier : Tier) (v : ValAddress)
    (blockTime : Time) : Store :=
  if s ≤ shares then
    ((st.replayed p v).putPosition
      (st.settled p s tier v blockTime).clearBonusCheckpoints).moveCount
      (some v) none
  else (st.replayed p v).putPosition (st.settled p s tier v blockTime)

/-- What becomes of a bonus: nothing is due, or it is sent from the pool to the owner, or the pool
is short and nothing is sent. -/
inductive BonusPayment (K : Keepers σ) (w : World σ) (p : Position) (owner : AccAddress) (bonus : ℤ)
    (w' : World σ) : Prop
  | nothing (hzero : bonus = 0) (hext : w'.ext = w.ext) (hemitted : w'.emitted = w.emitted)
  | paid (hpos : 0 < bonus) (hpool : K.poolCovers w.ext bonus)
      (hsend : K.sendCoinsFromModuleToAccount w.ctx w.ext rewardsPoolName owner
        (Coins.single (K.bondDenom w.ext) bonus) = .ok w'.ext)
      (hemitted : w'.emitted = w.emitted ++
        [.bonusRewardsClaimed p.id p.owner (Coins.single (K.bondDenom w.ext) bonus)])
  | forgone (hpos : 0 < bonus) (hpool : K.poolCovers w.ext bonus = false) (hext : w'.ext = w.ext)
      (hemitted : w'.emitted = w.emitted)

theorem BonusPayment.congr {bonus : ℤ} {w₁ w₂ : World σ}
    (h : BonusPayment K w p owner bonus w₁) (hext : w₂.ext = w₁.ext)
    (hemitted : w₂.emitted = w₁.emitted) : BonusPayment K w p owner bonus w₂ := by
  cases h with
  | nothing hzero hext₁ hemitted₁ =>
    exact .nothing hzero (hext.trans hext₁) (hemitted.trans hemitted₁)
  | paid hpos hpool hsend hemitted₁ =>
    exact .paid hpos hpool (by rw [hext, hsend]) (hemitted.trans hemitted₁)
  | forgone hpos hpool hext₁ hemitted₁ =>
    exact .forgone hpos hpool (hext.trans hext₁) (hemitted.trans hemitted₁)

theorem BonusPayment.leavesStaking {bonus : ℤ}
    (hK : K.Contract) (h : BonusPayment K w p owner bonus w₁) : K.LeavesStaking w.ext w₁.ext := by
  cases h with
  | nothing _ hext _ | forgone _ _ hext _ =>
    rw [hext]
    exact .refl _
  | paid _ _ hsend _ => exact hK.sendCoinsFromModuleToAccount _ _ _ _ _ _ hsend

/-- The owner may receive coins of the pool: what the pool has can be sent. -/
def Keepers.PaysOut (K : Keepers σ) (ext : σ) (owner : AccAddress) : Prop :=
  ∀ ctx bonus, 0 < bonus → K.poolCovers ext bonus → ∃ ext',
    K.sendCoinsFromModuleToAccount ctx ext rewardsPoolName owner
      (Coins.single (K.bondDenom ext) bonus) = .ok ext'

/-- The hook has settled a staked position before its redelegation entry is slashed. -/
structure SlashSettled (K : Keepers σ) (w : World σ) (unbondingId : ℕ) (shares : Dec) (w' : World σ)
    (id : ℕ) (p : Position) (a owner : AccAddress) (v : ValAddress) (s : Dec) (tier : Tier)
    (val : Validator) : Prop where
  mapping : w.store.redelegationMappings[unbondingId]? = some id
  holds : (K.view w).Holds K.accCodec id p a
  stake : (K.view w).StakedOn a v s
  tierStored : w.store.tiers[p.tierId]? = some tier
  validator : (K.staking w.ext).validators[v]? = some val
  decodes : K.accCodec.stringToBytes p.owner = some owner
  ctx : w'.ctx = w.ctx
  /-- The store does not depend on whether the bonus was paid. -/
  store : w'.store = w.store.slashed p s shares tier v w.ctx.blockTime
  /-- The bonus is that of the shares before the slash. -/
  payment : BonusPayment K w p owner
    (w.store.bonus p s tier v val.isBonded val.tokensPerShare w.ctx.blockTime) w'
  /-- A position that keeps shares has nothing left to replay and accrues from now on. -/
  settled : ¬ s ≤ shares →
    (K.view w').Holds K.accCodec id (w.store.settled p s tier v w.ctx.blockTime) a ∧
      (K.view w').Settled (w.store.settled p s tier v w.ctx.blockTime) v
  /-- A position that loses all shares has no checkpoints, is no longer counted for the validator,
  and is without stake once staking has unbonded the shares. -/
  taken : s ≤ shares →
    w'.store.positions[id]? =
        some (w.store.settled p s tier v w.ctx.blockTime).clearBonusCheckpoints ∧
      w'.store.getPositionCountForValidator v + 1 = w.store.getPositionCountForValidator v ∧
      ∀ red w'', (K.staking w.ext).redelegations[unbondingId]? = some red →
        UnbondsSlashed K red shares w' w'' → (K.view w'').Idle a

/-! ### The settlement goes through -/

section Settle

variable {pos : PositionState} {del : Delegation} {tier : Tier} {val : Validator}
  {owner : AccAddress}

/-- The settlement before a slash goes through, with or without the payment. -/
theorem settleBeforeSlash_succeeds (hdel : pos.delegation = some del)
    (hv : K.valCodec.stringToBytes del.validatorAddress = some v)
    (htier : w.store.tiers[pos.tierId]? = some tier)
    (hval : (K.staking w.ext).validators[v]? = some val)
    (howner : K.accCodec.stringToBytes pos.owner = some owner) (hreceives : K.PaysOut w.ext owner)
    (hbonus : 0 ≤ w.store.bonus pos.toPosition del.shares tier v val.isBonded val.tokensPerShare
      w.ctx.blockTime) :
    ∃ w', Succeeds (settleBeforeSlash K pos) w
        (pos.withPosition (w.store.settled pos.toPosition del.shares tier v w.ctx.blockTime)) w' ∧
      w'.store = w.store.replayed pos.toPosition v ∧ w'.ctx = w.ctx ∧
      BonusPayment K w pos.toPosition owner (w.store.bonus pos.toPosition del.shares tier v
        val.isBonded val.tokensPerShare w.ctx.blockTime) w' := by
  set bonus := w.store.bonus pos.toPosition del.shares tier v val.isBonded val.tokensPerShare
    w.ctx.blockTime with hbonus_eq
  set p := w.store.settled pos.toPosition del.shares tier v w.ctx.blockTime with hp
  set w₁ : World σ := { w with store := w.store.replayed pos.toPosition v } with hw₁
  have hrun := run_processEventsAndClaimBonus hdel hv htier hval
  have hpaid : ∀ coins w₂, Succeeds (payBonus K p bonus) w₁ coins w₂ →
      Succeeds (settleBeforeSlash K pos) w (pos.withPosition p) w₂ := by
    intro coins w₂ hpay
    refine succeeds_bind.mpr ⟨(pos.withPosition p, .ok coins), w₂, succeeds_always.mpr ?_,
      .pure⟩
    rw [hrun]
    exact congrArg
      (fun result : Except Err Coins × World σ ↦ ((pos.withPosition p, result.1), result.2))
      hpay
  rcases hbonus.eq_or_lt with hzero | hpos
  · refine ⟨w₁, hpaid ∅ w₁ ?_, rfl, rfl, .nothing hzero.symm rfl rfl⟩
    unfold payBonus
    rw [if_pos hzero.symm]
    exact .pure
  · cases hpool : K.poolCovers w.ext bonus with
    | true =>
      obtain ⟨ext, hsend⟩ := hreceives w.ctx bonus hpos hpool
      have hpay : Succeeds (payBonus K p bonus) w₁ _ _ :=
        payBonus_covered (w := w₁) hpos hpool howner hsend
      exact ⟨_, hpaid _ _ hpay, rfl, rfl, .paid hpos hpool hsend rfl⟩
    | false =>
      obtain ⟨e, he, hfails⟩ : ∃ e : Err, e.is .insufficientBonusPool ∧
          Fails (payBonus K p bonus) w₁ e w₁ := payBonus_short (w := w₁) hbonus hpool
      refine ⟨w₁, ?_, rfl, rfl, .forgone hpos hpool rfl rfl⟩
      refine succeeds_bind.mpr ⟨(pos.withPosition p, .error e), w₁, succeeds_always.mpr ?_, ?_⟩
      · rw [hrun]
        exact congrArg
          (fun result : Except Err Coins × World σ ↦ ((pos.withPosition p, result.1), result.2))
          hfails
      · change Succeeds (if e.is .insufficientBonusPool then pure _ else throw e) w₁ _ w₁
        rw [if_pos he]
        exact .pure

end Settle

/-! ### The position is written back -/

/-- A valid position with a checkpoint is valid with a delegation of its own. -/
theorem validate_delegated (hvalid : p.validate K.accCodec = .ok ())
    (haccrual : p.lastBonusAccrual ≠ 0) (hshares : 0 < del.shares)
    (hv : K.valCodec.stringToBytes del.validatorAddress = some v)
    (haddress : del.delegatorAddress = p.delegatorAddress) :
    PositionState.validate K.accCodec K.valCodec ⟨p, some del⟩ = .ok () := by
  unfold PositionState.validate
  rw [hvalid]
  change PositionState.validateDelegation K.valCodec ⟨p, some del⟩ = .ok ()
  unfold PositionState.validateDelegation
  have hpositive : del.shares.isPositive = true := decide_eq_true hshares
  dsimp only
  rw [if_neg (by rw [hv]; exact Bool.false_ne_true), if_neg (not_not.mpr haddress),
    if_neg (not_not.mpr hpositive), if_neg haccrual]

theorem Store.lastBonusAccrual_settled (st : Store) (p : Position) (tier : Tier)
    (hnow : 0 < now) : (st.settled p s tier v now).lastBonusAccrual ≠ 0 := by
  change (if p.completedExitLockDuration now then p.exitUnlockAt else now) ≠ 0
  split_ifs with hexit
  · simp only [Position.completedExitLockDuration, Bool.and_eq_true, decide_eq_true_eq] at hexit
    exact hexit.1
  · exact hnow.ne'

theorem validate_cleared (hvalid : p.validate K.accCodec = .ok ()) :
    PositionState.validate K.accCodec K.valCodec ⟨p.clearBonusCheckpoints, none⟩ = .ok () := by
  have hposition : p.clearBonusCheckpoints.validate K.accCodec = .ok () := hvalid
  unfold PositionState.validate
  rw [hposition]
  rfl

section Writes

variable {pos : PositionState} {p old : Position} {shares : Dec} {w₁ : World σ}

/-- A position that loses all shares is written without its checkpoints. -/
theorem slashDelegatedPosition_takes (hdel : del.validatorAddress = K.valCodec.bytesToString v)
    (hold : w₁.store.positions[p.id]? = some old) (hsame : old.SameIdentity p)
    (hvalid : p.validate K.accCodec = .ok ()) (hall : del.shares ≤ shares)
    (hsettle : Succeeds (settleBeforeSlash K pos) w (pos.withPosition p) w₁) :
    Succeeds (slashDelegatedPosition K pos del shares) w ⟨⟩
      { w₁ with
        store := (w₁.store.putPosition p.clearBonusCheckpoints).moveCount (some v) none } := by
  have hnone : ((none : Option Delegation).map Delegation.validatorAddress).getD "" =
    validatorString K none := rfl
  have hset : Succeeds (setPositionWithState K ⟨p.clearBonusCheckpoints, none⟩
      (transition K (some (some v)))) w₁ ⟨⟩ _ :=
    (succeeds_setPositionWithState hold hsame.owner.symm hsame.tierId.symm hnone).mpr
      ⟨validate_cleared hvalid, rfl⟩
  refine succeeds_bind.mpr ⟨_, w₁, hsettle, succeeds_ite.mpr (Or.inl ⟨hall, ?_⟩)⟩
  rw [hdel]
  exact hset

/-- A position that keeps shares is written with its new checkpoints. -/
theorem slashDelegatedPosition_keeps (hdel : del.validatorAddress = K.valCodec.bytesToString v)
    (haddress : del.delegatorAddress = p.delegatorAddress)
    (hold : w₁.store.positions[p.id]? = some old) (hsame : old.SameIdentity p)
    (hvalid : p.validate K.accCodec = .ok ()) (haccrual : p.lastBonusAccrual ≠ 0)
    (hpart : ¬ del.shares ≤ shares)
    (hsettle : Succeeds (settleBeforeSlash K pos) w (pos.withPosition p) w₁) :
    Succeeds (slashDelegatedPosition K pos del shares) w ⟨⟩ (w₁.putPosition p) := by
  have hlast : ((some (del.subShares shares)).map Delegation.validatorAddress).getD "" =
    validatorString K (some v) := hdel
  have hv : K.valCodec.stringToBytes (del.subShares shares).validatorAddress = some v := by
    change K.valCodec.stringToBytes del.validatorAddress = some v
    rw [hdel]
    exact K.valCodec.stringToBytes_bytesToString v
  have hset : Succeeds (setPositionWithState K ⟨p, some (del.subShares shares)⟩
      (transition K none)) w₁ ⟨⟩ (w₁.putPosition p) :=
    (succeeds_setPositionWithState hold hsame.owner.symm hsame.tierId.symm hlast).mpr
      ⟨validate_delegated hvalid haccrual (sub_pos.mpr (not_le.mp hpart)) hv haddress, rfl⟩
  exact succeeds_bind.mpr ⟨_, w₁, hsettle, succeeds_ite.mpr (Or.inr ⟨hpart, hset⟩)⟩

end Writes

/-- The bonus of a delegated position is computed, and it is not negative. -/
theorem Delegated.bonus_nonneg (hpos : Delegated K w id pos a v s) (hw : K.Sound w)
    (hstaking : (K.staking w.ext).WellFormed) (hpriced : (K.view w).Priced) :
    ∃ tier val, w.store.tiers[pos.tierId]? = some tier ∧
      (K.staking w.ext).validators[v]? = some val ∧
      0 ≤
        w.store.bonus pos.toPosition s tier v val.isBonded val.tokensPerShare w.ctx.blockTime := by
  obtain ⟨tier, htier⟩ := hw.indexed.tierStored id _ hpos.holds.stored
  obtain ⟨val, hval⟩ := hstaking.validator a v s hpos.stake.stakes_eq
  obtain ⟨htokens, hshares⟩ := hstaking.tokens v val hval
  obtain ⟨_, hs⟩ := hw.coherent.stakedOn_of_stakes hpos.holds hpos.stake.stakes_eq
  exact ⟨tier, val, htier, hval,
    Store.bonus_nonneg hs.le (Tier.bonusApy_nonneg (hw.indexed.tierValid _ _ htier).2)
      (val.tokensPerShare_nonneg htokens hshares) hpriced⟩

theorem slashDelegatedPosition_succeeds (hw : K.Sound w) (hstaking : (K.staking w.ext).WellFormed)
    (hpriced : (K.view w).Priced) (hpos : Delegated K w id pos a v s)
    (howner : K.accCodec.stringToBytes pos.owner = some owner) (hreceives : K.PaysOut w.ext owner)
    (shares : Dec) :
    ∃ tier val w', w.store.tiers[pos.tierId]? = some tier ∧
      (K.staking w.ext).validators[v]? = some val ∧
      Succeeds (slashDelegatedPosition K pos
        ⟨K.accCodec.bytesToString a, K.valCodec.bytesToString v, s⟩ shares) w ⟨⟩ w' ∧
      w'.store = w.store.slashed pos.toPosition s shares tier v w.ctx.blockTime ∧
      w'.ctx = w.ctx ∧
      BonusPayment K w pos.toPosition owner (w.store.bonus pos.toPosition s tier v val.isBonded
        val.tokensPerShare w.ctx.blockTime) w' := by
  have hstored : w.store.positions[id]? = some pos.toPosition := hpos.holds.stored
  have hid : pos.toPosition.id = id := hw.indexed.id_eq id _ hstored
  obtain ⟨tier, val, htier, hval, hbonus⟩ := hpos.bonus_nonneg hw hstaking hpriced
  obtain ⟨w₁, hsettle, hstore, hctx, hpayment⟩ := settleBeforeSlash_succeeds hpos.delegation
    (K.valCodec.stringToBytes_bytesToString v) htier hval howner hreceives hbonus
  have hvalid := hw.coherent.valid id _ hstored
  have hsame := Position.sameIdentity_settled w.store pos.toPosition s tier v w.ctx.blockTime
  have hold : w₁.store.positions[(w.store.settled pos.toPosition s tier v w.ctx.blockTime).id]? =
      some pos.toPosition := by
    rw [hstore, hsame.id, hid]
    exact hstored
  by_cases hall : s ≤ shares
  · refine ⟨tier, val, _, htier, hval,
      slashDelegatedPosition_takes rfl hold hsame hvalid hall hsettle, ?_, hctx,
      hpayment.congr rfl rfl⟩
    unfold Store.slashed
    rw [if_pos hall, hstore]
  · have haddress : K.accCodec.bytesToString a =
      (w.store.settled pos.toPosition s tier v w.ctx.blockTime).delegatorAddress :=
        hpos.address.symm
    refine ⟨tier, val, _, htier, hval, slashDelegatedPosition_keeps rfl haddress hold hsame
      hvalid (Store.lastBonusAccrual_settled _ _ _ hw.coherent.now) hall hsettle, ?_, hctx,
      hpayment.congr rfl rfl⟩
    unfold Store.slashed
    rw [if_neg hall, ← hstore]
    rfl

/-! ### The hook -/

/-- Once staking has unbonded all shares of the entry, the position has no stake. -/
theorem idle_of_unbondsSlashed (hK : K.Contract) {red : Redelegation}
    (hstake : (K.view w).StakedOn red.delegator red.dst s) (hall : s ≤ shares)
    (h : UnbondsSlashed K red shares w w') : (K.view w').Idle red.delegator := by
  rcases h with ⟨hgone, _⟩ | h
  · have hstakes : (K.staking w.ext).delegations[(red.delegator, red.dst)]? = some s :=
      hstake.stakes_eq
    rw [hgone] at hstakes
    cases hstakes
  · obtain ⟨removed, ext, hext, rfl⟩ := succeeds_callRemoving h
    obtain ⟨_, _, ⟨held, hheld, hle, hdelegations⟩, _⟩ := hK.unbond _ _ _ _ _ _ _ _ hext
    obtain rfl : s = held := Option.mem_unique hstake.stakes_eq hheld
    obtain rfl : s = shares := le_antisymm hall hle
    exact idle_takeShares hstake fun u ↦ congrArg (fun m ↦ m[(red.delegator, u)]?) hdelegations

/-- A position that loses all shares is no longer counted for the validator. -/
theorem count_slashed (hw : K.Sound w) (hp : (K.view w).Holds K.accCodec id p a)
    (hstake : (K.view w).StakedOn a v s) (hall : s ≤ shares) :
    (w.store.slashed p s shares tier v now).getPositionCountForValidator v + 1 =
      w.store.getPositionCountForValidator v := by
  have hpositive : w.store.getPositionCountForValidator v ≠ 0 := hw.coherent.count_ne_zero hp hstake
  have hcount : (w.store.slashed p s shares tier v now).getPositionCountForValidator v =
      w.store.getPositionCountForValidator v - 1 := by
    unfold Store.slashed
    rw [if_pos hall]
    exact getD_decreaseCount w.store.positionCountByValidator v
  omega

theorem slashDelegatedPosition_slashSettled (hK : K.Contract) (hw : K.Sound w)
    (hstaking : (K.staking w.ext).WellFormed) (hpriced : (K.view w).Priced) {unbondingId : ℕ}
    {red : Redelegation} (hmapping : w.store.redelegationMappings[unbondingId]? = some id)
    (hentry : (K.staking w.ext).redelegations[unbondingId]? = some red)
    (hpos : Delegated K w id pos red.delegator red.dst s)
    (howner : K.accCodec.stringToBytes pos.owner = some owner) (hreceives : K.PaysOut w.ext owner) :
    ∃ w' tier val, Succeeds (slashDelegatedPosition K pos
        ⟨K.accCodec.bytesToString red.delegator, K.valCodec.bytesToString red.dst, s⟩
        shares) w ⟨⟩ w' ∧
      SlashSettled K w unbondingId shares w' id pos.toPosition red.delegator owner red.dst s tier
        val := by
  obtain ⟨tier, val, w', htier, hval, hslash, hstore, hctx, hpayment⟩ :=
    slashDelegatedPosition_succeeds hw hstaking hpriced hpos howner hreceives shares
  refine ⟨w', tier, val, hslash, hmapping, hpos.holds, hpos.stake, htier, hval, howner,
    hctx, hstore, hpayment, fun hpart ↦ ?_, fun hall ↦ ⟨?_, ?_, ?_⟩⟩
  · obtain ⟨tier', val', covered, q, w₀, hsettlement, _, rfl, _, hholds, hsettled, hwrites⟩ :=
      slashDelegatedPosition_settles hK hw hpos hslash
    obtain rfl := Option.mem_unique htier hsettlement.tierStored
    rcases hwrites with ⟨hall, _⟩ | ⟨_, rfl⟩
    · exact absurd hall hpart
    · exact ⟨hholds, hsettled⟩
  · rw [hstore]
    unfold Store.slashed
    rw [if_pos hall]
    change (w.store.positions.insert pos.toPosition.id _)[id]? = _
    rw [hw.indexed.id_eq id _ hpos.holds.stored, getElem?_insert_eq, if_pos rfl]
  · rw [hstore]
    exact count_slashed hw hpos.holds hpos.stake hall
  · intro red' w'' hentry' hunbond
    obtain rfl := Option.mem_unique hentry hentry'
    have hstake : (K.view w').StakedOn red.delegator red.dst s := by
      intro u
      change (K.staking w'.ext).delegations[(red.delegator, u)]? = _
      rw [(hpayment.leavesStaking hK).staking]
      exact hpos.stake u
    exact idle_of_unbondsSlashed hK hstake hall hunbond

theorem succeeds_slashRedelegationPosition {unbondingId : ℕ}
    (hmapping : w.store.redelegationMappings[unbondingId]? = some id)
    (hload : Succeeds (getPositionState K id) w pos w) :
    Succeeds (slashRedelegationPosition K unbondingId shares) w ⟨⟩ w' ↔
      Succeeds (match pos.delegation with
        | none => pure ⟨⟩
        | some del => slashDelegatedPosition K pos del shares) w ⟨⟩ w' := by
  have hstored := (succeeds_getPositionState.mp hload).1
  unfold slashRedelegationPosition
  rw [succeeds_read, hmapping]
  dsimp only
  rw [hstored, if_neg (by simp), succeeds_bind]
  constructor
  · rintro ⟨pos', w₁, hload', hrest⟩
    obtain ⟨rfl, rfl⟩ := hload.unique hload'
    exact hrest
  · exact fun hrest ↦ ⟨pos, w, hload, hrest⟩

/-- The redelegation-slash hook returns no error, whatever the unbonding id and the shares. If the
entry belongs to a staked position, that position is settled as `SlashSettled` says; otherwise
nothing happens. -/
theorem slash_hook_settles (hK : K.Contract) {τ : List (Transition (World σ) Label)}
    (hreach : Reaches K τ w) (hpast : ∀ t ∈ τ, (K.staking t.source.ext).WellFormed)
    (hstaking : (K.staking w.ext).WellFormed)
    (hreceives : ∀ (i : ℕ) (p : Position) (owner : AccAddress), w.store.positions[i]? = some p →
      K.accCodec.stringToBytes p.owner = some owner → K.PaysOut w.ext owner)
    (unbondingId : ℕ) (sharesToUnbond : Dec) :
    ∃ w', Succeeds (slashRedelegationPosition K unbondingId sharesToUnbond) w ⟨⟩ w' ∧
      ((∃ id p a owner v s tier val,
          SlashSettled K w unbondingId sharesToUnbond w' id p a owner v s tier val) ∨
        w' = w ∧ ∀ id p a, w.store.redelegationMappings[unbondingId]? = some id →
          (K.view w).Holds K.accCodec id p a → (K.view w).Idle a) := by
  have hw := hreach.sound hK
  cases hmapping : w.store.redelegationMappings[unbondingId]? with
  | none =>
    refine ⟨w, ?_, Or.inr ⟨rfl, fun id p a hnone ↦ nomatch hnone⟩⟩
    unfold slashRedelegationPosition
    refine succeeds_read.mpr ?_
    rw [hmapping]
    exact .pure
  | some id =>
    obtain ⟨red, ⟨p, hp⟩, hentry⟩ := (hw.mapped.mapping unbondingId id).mp hmapping
    obtain ⟨pos, hpos, hload⟩ : ∃ pos : PositionState, pos.toPosition = p ∧
        Succeeds (getPositionState K id) w pos w :=
      ⟨⟨p, firstDelegation K (K.staking w.ext) red.delegator⟩, rfl,
        succeeds_getPositionState.mpr ⟨hp.stored, ⟨_, hp.account, rfl⟩, rfl⟩⟩
    subst hpos
    obtain ⟨_, b, ⟨v, s, hpos⟩ | hpos⟩ := loaded_cases hw hload
    · obtain rfl := Option.mem_unique hp.account hpos.holds.account
      obtain rfl : red.dst = v := hw.mapped.dst id unbondingId red v s ⟨⟨_, hp⟩, hentry⟩ hpos.stake
      obtain ⟨owner, howner⟩ := hw.indexed.owner id _ hp.stored
      obtain ⟨w', tier, val, hslash, hsettled⟩ := slashDelegatedPosition_slashSettled hK hw hstaking
        (hreach.priced hK hpast) hmapping hentry hpos howner (hreceives id _ owner hp.stored howner)
      refine ⟨w', (succeeds_slashRedelegationPosition hmapping hload).mpr ?_,
        Or.inl ⟨id, _, _, owner, _, s, tier, val, hsettled⟩⟩
      rw [hpos.delegation]
      exact hslash
    · refine ⟨w, (succeeds_slashRedelegationPosition hmapping hload).mpr ?_, Or.inr ⟨rfl, ?_⟩⟩
      · rw [hpos.delegation]
        exact .pure
      · intro i q c hi hq
        obtain rfl := Option.some.inj hi
        obtain rfl := Option.mem_unique hpos.holds.stored hq.stored
        obtain rfl := Option.mem_unique hpos.holds.account hq.account
        exact hpos.idle

/-! ### A slash -/

namespace Reference

def wellFormed (staking : Staking) : Bool :=
  staking.validators.toList.all (fun entry ↦
    decide (0 ≤ entry.2.tokens) && decide (0 ≤ entry.2.delegatorShares)) &&
  staking.delegations.toList.all fun entry ↦ (staking.validators[entry.1.2]?).isSome

theorem wellFormed_sound {staking : Staking} (h : wellFormed staking) : staking.WellFormed := by
  simp only [wellFormed, Bool.and_eq_true, List.all_eq_true, decide_eq_true_eq] at h
  refine ⟨fun u val hval ↦ h.1 (u, val) (mem_toList.mpr hval), fun b u t ht ↦ ?_⟩
  exact Option.isSome_iff_exists.mp (h.2 ((b, u), t) (mem_toList.mpr ht))

theorem paysOut (o : Outside) (owner : AccAddress) : keepers.PaysOut o owner := by
  intro ctx bonus hpos hpool
  have hcovers : bonus ≤ o.balance 0 := by
    unfold Keepers.poolCovers Coins.isAllGTE at hpool
    have hcoin := List.all_eq_true.mp hpool (denom, bonus) (mem_single.mpr ⟨hpos.ne', rfl⟩)
    have hle := of_decide_eq_true hcoin
    rwa [show keepers.balances o (keepers.moduleAddress rewardsPoolName) =
      Coins.single denom (o.balance 0) from rfl, amountOf_single] at hle
  refine ⟨(o.credit 0 (-bonus)).credit owner bonus, ?_⟩
  change o.send 0 owner ((Coins.single denom bonus).amountOf denom) = _
  rw [amountOf_single]
  unfold Outside.send Outside.debit
  rw [if_pos hcovers]
  rfl

/-- The history in which the position has moved to the second validator. -/
def redelegatedHistory : List (Transition (World Outside) Label) :=
  history ++ [⟨world₄, .deliver redelegate, redelegated⟩]

theorem reaches_redelegated : Reaches keepers redelegatedHistory redelegated :=
  ⟨world₀, fresh_world₀, run_history.snoc (chainStep_deliver (by decide +kernel))⟩

end Reference

/-- Two fifths of the shares of a redelegated position are slashed. -/
theorem slash_hook_settles_partially :
    ∃ w', Succeeds (slashRedelegationPosition Reference.keepers 1 (Dec.ofInt 400000))
      Reference.redelegated ⟨⟩ w' := by
  obtain ⟨w', hslash, _⟩ :=
    slash_hook_settles Reference.keepers_contract Reference.reaches_redelegated
    (fun t ht ↦ Reference.wellFormed_sound (by
      have hall : Reference.redelegatedHistory.all
          (fun t ↦ Reference.wellFormed t.source.ext.staking) = true := by decide +kernel
      exact List.all_eq_true.mp hall t ht))
    (Reference.wellFormed_sound (by decide +kernel))
    (fun _ _ owner _ _ ↦ Reference.paysOut _ owner) 1
    (Dec.ofInt 400000)
  exact ⟨w', hslash⟩

end ChainMain.TieredRewards
