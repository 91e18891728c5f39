import ChainMain.TieredRewards.MessageSteps

/-!
# Creating positions, administration, and deliveries

`LockTier` and `CommitDelegationToTier` end in one `create` step of the ledger, on the stake of an
account that did not exist before. The messages of the authority change tiers and parameters; a
change of a tier's rate comes after all positions of the tier have been settled.

`handle_effect` collects what a successful message amounts to.
-/

set_option autoImplicit false

namespace ChainMain.TieredRewards

open Foundations Decimal OrderedStore StoreProgram Runs

open Ledger (QuietRun)

variable {σ : Type} {K : Keepers σ} {w w' : World σ} {pos : PositionState} {id : ℕ}
  {a : AccAddress} {v : ValAddress} {s : Dec}

/-! ### Creating a position -/

theorem storeNewPosition_run (hK : K.Contract) (hw : K.Sound w)
    {P : AccAddress → Prop} {w₁ : World σ} {owner : String} {tier : Tier} {exiting : Bool}
    {pos : Position} (h : Succeeds (storeNewPosition K owner tier v a exiting id) w₁ pos w')
    (removed : List ValAddress) (hstore : w₁.store = w.store.dropRemoved removed)
    (hctx : w₁.ctx = w.ctx) (hpaid : bonusPaid w₁.emitted = bonusPaid w.emitted)
    (hempty : ∀ u ∈ removed, ∀ b, (K.view w).Held K.accCodec b → (K.view w).stakes b u = none)
    (htier : w.store.tiers[tier.id]? = some tier) (hunused : K.account w.ext a = none)
    (hused : (K.account w₁.ext a).isSome) (hbonded : (K.staking w.ext).isBonded v)
    (hstake : (K.view w₁).StakedOn a v s)
    (hred : (K.staking w₁.ext).redelegations = (K.staking w.ext).redelegations)
    (hunbonding : (K.staking w₁.ext).unbondingDelegations = (K.staking w.ext).unbondingDelegations)
    (htouches : K.Touches P w.ext w₁.ext) (hP : ∀ b, P b → (K.account w₁.ext b).isSome)
    (hfree : ∀ b, (K.view w).Held K.accCodec b → ¬ P b) (hsigner : SignerIsFree K w owner) :
    pos.id = w.store.nextPositionId ∧
    QuietRun K.accCodec (K.view w) (K.view { w with store := w.store.dropRemoved removed }) ∧
      Ledger.Step K.accCodec (K.view { w with store := w.store.dropRemoved removed })
        (.create w.store.nextPositionId exiting) (K.view w') := by
  unfold storeNewPosition at h
  simp only [succeeds_bind, succeeds_ensure, succeeds_pure] at h
  obtain ⟨p, w₂, hcreate, _, _, ⟨_, rfl⟩, _, w₃, hset, rfl, rfl⟩ := h
  have hdrop := quiet_dropRemoved (K := K) removed hempty
  have hw' := hdrop.sound hw
  obtain ⟨ownerAddr, ext, hownerAddr, hext, hpos, rfl⟩ := succeeds_createDelegatedPosition hcreate
  have houtside : K.LeavesStaking w₁.ext ext := hK.setWithdrawAddr _ _ _ _ _ hext
  have hnext : w₁.store.nextPositionId = w.store.nextPositionId := by
    rw [hstore, Store.dropRemoved_eq]
  have hseq : w₁.store.getValidatorEventLatestSeq v =
      (w.store.dropRemoved removed).getValidatorEventLatestSeq v := by
    rw [hstore]
  have hfields : p.id = w.store.nextPositionId ∧ p.owner = owner ∧ p.tierId = tier.id ∧
      p.delegatorAddress = K.accCodec.bytesToString a ∧
      p.lastEventSeq = w₁.store.getValidatorEventLatestSeq v ∧
      p.lastBonusAccrual = w₁.ctx.blockTime ∧ p.lastKnownBonded = true ∧
      p.exitTriggeredAt = (if exiting then w₁.ctx.blockTime else 0) ∧
      p.exitUnlockAt = if exiting then w₁.ctx.blockTime + tier.exitDuration else 0 := by
    rw [hpos, ← hnext]
    cases exiting
    · exact ⟨rfl, rfl, rfl, rfl, rfl, rfl, rfl, rfl, rfl⟩
    · exact ⟨rfl, rfl, rfl, rfl, rfl, rfl, rfl, rfl, rfl⟩
  obtain ⟨hid, howner, htierId, haddress, hlast, haccrual, hknown, htriggered, hunlock⟩ := hfields
  obtain ⟨b, hb, hstate⟩ := succeeds_setPosition.mp hset
  obtain rfl : a = b := by
    rw [haddress, K.accCodec.stringToBytes_bytesToString] at hb
    exact Option.some.inj hb
  have hnew : w₁.store.positions[p.id]? = none := by
    rw [hstore, Store.dropRemoved_positions, hid]
    cases hold : w.store.positions[w.store.nextPositionId]? with
    | none => rfl
    | some q => exact absurd (hw.indexed.id_lt _ q hold) (lt_irrefl _)
  have hstake' : ∀ st, (K.view ⟨st, ext, w₁.ctx, w₁.emitted⟩).StakedOn a v s := by
    intro st u
    change (K.staking ext).delegations[(a, u)]? = _
    rw [houtside.staking]
    exact hstake u
  have hdst := firstDelegation_validatorAddress (K := K) (K.staking ext) a
  rw [stakedOn_eq_some (hstake' w₁.store)] at hdst
  have hstate' : Succeeds (setPositionWithState K ⟨p, firstDelegation K (K.staking ext) a⟩
    (transition K (some none))) _ _ _ := hstate
  obtain ⟨hvalid, ownerAddr', hownerAddr', rfl⟩ := setPositionWithState_new hnew hdst hstate'
  obtain ⟨hpvalid, hpositive⟩ := validate_positionState hvalid
  have hfresh : (K.view { w with store := w.store.dropRemoved removed }).Fresh p v
    tier exiting := by
    refine ⟨?_, ?_, ?_, ?_, hknown, ?_, ?_⟩
    · rw [hid]
      change _ = (w.store.dropRemoved removed).nextPositionId
      rw [Store.dropRemoved_eq]
    · rw [htierId]
      change (w.store.dropRemoved removed).tiers[tier.id]? = some tier
      rw [Store.dropRemoved_eq]
      exact htier
    · rw [hlast, hseq]
      rfl
    · rw [haccrual, hctx]
      rfl
    · rw [htriggered, hctx]
      rfl
    · rw [hunlock, hctx]
      rfl
  refine ⟨hid, hdrop, ?_⟩
  rw [← hid]
  have howns : (K.view { w with store := w.store.dropRemoved removed }).Owns K.accCodec p
      ownerAddr' := by
    obtain ⟨hexists, hnotHeld⟩ := hsigner ownerAddr' (howner ▸ hownerAddr')
    refine ⟨hownerAddr', hexists, fun hheld ↦ hnotHeld ?_⟩
    obtain ⟨j, q, hq, haccount⟩ := hheld
    have hpositions := Store.dropRemoved_positions w.store removed
    exact ⟨j, q, (congrArg (fun m ↦ m[j]?) hpositions).symm.trans hq, haccount⟩
  refine .create exiting hfresh hpvalid howns haddress ?_ ?_ hbonded ?_ (hstake' _) ?_ ?_ ?_
  · change (K.account w.ext a).isSome = false
    rw [hunused]
    rfl
  · exact houtside.account a hused
  · exact hpositive _ (firstDelegation_of_stakedOn (hstake' w₁.store))
  · have hnone : (K.view w).accounts a = false := by
      change (K.account w.ext a).isSome = false
      rw [hunused]
      rfl
    constructor
    · intro u red hu
      change (K.staking ext).redelegations[u]? = some red at hu
      rw [houtside.staking, hred] at hu
      exact hw.tidy.notRedelegating a hnone u red hu
    · intro u
      change ((K.staking ext).unbondingDelegations[(a, u)]?).isSome = false
      rw [houtside.staking, hunbonding]
      exact hw.tidy.notUnbonding a hnone u
  · refine frame_of_touches (htouches.trans (.of_leavesStaking houtside)) hctx hpaid ?_ hw'.tidy ?_
      fun _ hnone ↦ nomatch hnone
    · exact fun b hb ↦ houtside.account b (hP b hb)
    · intro b hb _
      refine hfree b ?_
      obtain ⟨j, q, hq, haccount⟩ := hb
      have hpositions := Store.dropRemoved_positions w.store removed
      exact ⟨j, q, (congrArg (fun m ↦ m[j]?) hpositions).symm.trans hq, haccount⟩
  · change (({ w₁.store with nextPositionId := w₁.store.nextPositionId + 1 }.addPosition
      ownerAddr' p).moveCount none (some v)) = _
    rw [hstore]
    rfl

theorem succeeds_validateNewPosition {owner : String} {amount : ℤ} {tier : Tier} {u : PUnit}
    (h : Succeeds (validateNewPosition K owner amount tier) w u w') : w' = w := by
  unfold validateNewPosition validateNonVestingAccount at h
  simp only [succeeds_bind, succeeds_accAddressFromBech32, succeeds_get, succeeds_ensure] at h
  obtain ⟨_, _, ⟨_, _, ⟨_, rfl⟩, _, _, ⟨rfl, rfl⟩, _, rfl⟩, _, _, ⟨_, rfl⟩, _, rfl⟩ := h
  rfl

/-- What a message that creates a position does: validators that were removed on the way lose their
event sequence, and the position is created. -/
def Creates (K : Keepers σ) (w : World σ) (exiting : Bool) (w' : World σ) : Prop :=
  ∃ removed,
    QuietRun K.accCodec (K.view w) (K.view { w with store := w.store.dropRemoved removed }) ∧
      Ledger.Step K.accCodec (K.view { w with store := w.store.dropRemoved removed })
        (.create w.store.nextPositionId exiting) (K.view w')

theorem tier_id_eq (hw : K.Sound w) {tierId : ℕ} {tier : Tier}
    (h : w.store.tiers[tierId]? = some tier) : w.store.tiers[tier.id]? = some tier := by
  rw [(hw.indexed.tierValid tierId tier h).1]
  exact h

theorem not_held_of_none (hw : K.Sound w) (h : K.account w.ext a = none) :
    ¬ (K.view w).Held K.accCodec a := by
  intro hheld
  have hexists : (K.account w.ext a).isSome := hw.accounted.exists_of_held hheld
  rw [h] at hexists
  cases hexists

theorem idle_of_none (hw : K.Sound w) (h : K.account w.ext a = none) :
    (K.view w).Idle a := by
  refine hw.tidy.idle a ?_
  change (K.account w.ext a).isSome = false
  rw [h]
  rfl

theorem lockTier_run (hK : K.Contract) (hw : K.Sound w) {msg : MsgLockTier}
    {response : PositionCreatedResponse} (hsigner : SignerIsFree K w msg.owner)
    (h : Succeeds (lockTier K msg) w response w') :
    Creates K w msg.triggerExitImmediately w' := by
  unfold lockTier at h
  simp only [succeeds_bind, succeeds_fromOutcome, succeeds_getTier, succeeds_valAddressFromBech32,
    succeeds_accAddressFromBech32, succeeds_get, succeeds_emit, succeeds_pure] at h
  obtain ⟨_, _, ⟨_, rfl⟩, tier, _, ⟨htier, rfl⟩, _, w₀, hcheck, v, _, ⟨_, rfl⟩, owner, _, ⟨_, rfl⟩,
    _, _, ⟨rfl, rfl⟩, a, w₁, haccount, _, w₂, hlock, shares, w₃, hdelegate, pos, w₄, hcreate, _, _,
    rfl, _, rfl⟩ := h
  obtain rfl := (succeeds_validateNewPosition hcheck).symm
  obtain ⟨hunused, rfl⟩ := succeeds_createPositionDelegatorAccount haccount
  have haside := aside_lockFunds hK hlock
  obtain ⟨hbonded, ext, hext, rfl⟩ := succeeds_delegate hdelegate
  obtain ⟨hpersists, hdelegations, hred, hunbonding⟩ := hK.delegate _ _ _ _ _ _ _ _ _ hext
  have hstaking : K.staking w₂.ext = K.staking w.ext := by
    rw [haside.outside.staking, hK.newAccount_staking]
  have htouches : K.Touches (· = a) w.ext ext :=
    ((hK.touches_newAccount a).trans (.of_leavesStaking haside.outside)).trans
      (hK.touches_delegate hext)
  have hexists : (K.account ext a).isSome :=
    hpersists.account a (haside.outside.account a (hK.newAccount_self w.ext a))
  have hidle₂ : (K.view w₂).Idle a := by
    intro u
    change (K.staking w₂.ext).delegations[(a, u)]? = none
    rw [hstaking]
    exact idle_of_none hw hunused u
  obtain ⟨_, hquiet, hstep⟩ := storeNewPosition_run hK hw (P := (· = a)) hcreate [] haside.store
    haside.ctx haside.paid (fun u hu ↦ nomatch hu) (tier_id_eq hw htier) hunused hexists
    (hstaking ▸ hbonded)
    (stakedOn_addShares_idle hidle₂ hdelegations) (hred.trans (by rw [hstaking]))
    (hunbonding.trans (by rw [hstaking])) htouches
    (by rintro b rfl; exact hexists)
    (by rintro b hb rfl; exact not_held_of_none hw hunused hb) hsigner
  refine ⟨[], hquiet, ?_⟩
  rw [view_emit]
  · exact hstep
  · exact fun _ ↦ rfl

/-- What `transferDelegationToPosition` has done. -/
theorem succeeds_transferDelegationToPosition (hK : K.Contract) {owner validatorAddr : String}
    {amount : ℤ} {shares : Dec}
    (h : Succeeds (transferDelegationToPosition K owner a validatorAddr amount) w shares w') :
    ∃ src v held unbonded removed ext, K.accCodec.stringToBytes owner = some src ∧
      K.valCodec.stringToBytes validatorAddr = some v ∧ src ≠ a ∧ (K.staking w.ext).isBonded v ∧
      Transferred K w.ext src a v held unbonded shares removed ext ∧
      w' = { w with ext := ext, store := w.store.dropRemoved removed } := by
  unfold transferDelegationToPosition at h
  simp only [succeeds_bind, succeeds_ensure, succeeds_accAddressFromBech32,
    succeeds_valAddressFromBech32, succeeds_get, succeeds_fromOutcome, succeeds_pure] at h
  obtain ⟨_, _, ⟨_, rfl⟩, src, _, ⟨hsrc, rfl⟩, v, _, ⟨hv, rfl⟩, _, _, ⟨hne, rfl⟩, val,
    _, hval, _, _, ⟨rfl, rfl⟩, _, _, ⟨_, rfl⟩, unbonded, _, ⟨_, rfl⟩, ⟨newShares, transferred⟩,
    w₁, hmove, rfl, rfl⟩ := h
  obtain ⟨hread, hbonded⟩ := succeeds_getBondedValidator hval
  subst hread
  obtain ⟨held, removed, ext, htransfer, rfl⟩ := transferred_of_moveShares hK hbonded hmove
  exact ⟨src, v, held, unbonded, removed, ext, hsrc, hv, of_decide_eq_true hne, hbonded, htransfer,
    rfl⟩

theorem commitDelegationToTier_run (hK : K.Contract) (hw : K.Sound w)
    {msg : MsgCommitDelegationToTier} {response : PositionCreatedResponse}
    (hsigner : SignerIsFree K w msg.delegatorAddress)
    (h : Succeeds (commitDelegationToTier K msg) w response w') :
    Creates K w msg.triggerExitImmediately w' := by
  unfold commitDelegationToTier at h
  simp only [succeeds_bind, succeeds_fromOutcome, succeeds_getTier, succeeds_valAddressFromBech32,
    succeeds_accAddressFromBech32, succeeds_get, succeeds_emit, succeeds_pure] at h
  obtain ⟨_, _, ⟨_, rfl⟩, tier, _, ⟨htier, rfl⟩, _, w₀, hcheck, v, _, ⟨hv, rfl⟩, delegator,
    _, ⟨_, rfl⟩, _, _, ⟨rfl, rfl⟩, a, w₁, haccount, shares, w₂, htransfer, pos, w₃, hcreate,
    _, _, rfl, _, rfl⟩ := h
  obtain rfl := (succeeds_validateNewPosition hcheck).symm
  obtain ⟨hunused, rfl⟩ := succeeds_createPositionDelegatorAccount haccount
  obtain ⟨src, v', held, unbonded, removed, ext, hsrc, hv', hne, hbonded, htransferred, rfl⟩ :=
    succeeds_transferDelegationToPosition hK htransfer
  obtain rfl := Option.mem_unique hv hv'
  obtain ⟨hsrcExists, hsrcFree⟩ := hsigner src hsrc
  have hstaking : K.staking (K.newAccount w.ext a) = K.staking w.ext := hK.newAccount_staking _ _
  have htouches : K.Touches (fun b ↦ b = src ∨ b = a) w.ext ext :=
    (hK.touches_newAccount a).trans htransferred.touches
  have hexists : (K.account ext a).isSome :=
    htransferred.touches.account a (hK.newAccount_self w.ext a)
  have hfree : ∀ b, (K.view w).Held K.accCodec b → ¬ (b = src ∨ b = a) := by
    rintro b hb (rfl | rfl)
    · exact hsrcFree hb
    · exact not_held_of_none hw hunused hb
  have hstake : ∀ st, (K.view ⟨st, ext, w.ctx, w.emitted⟩).StakedOn a v shares := by
    intro st u
    have hnone : ∀ x : ValAddress,
        (takeShares (K.staking w.ext).delegations src v held unbonded)[(a, x)]? = none := by
      intro x
      rw [Keepers.getElem?_takeShares, if_neg fun hkey ↦ hne hkey.1.symm]
      exact idle_of_none hw hunused x
    change (K.staking ext).delegations[(a, u)]? = _
    rw [htransferred.delegations, hstaking, Keepers.getElem?_addShares, hnone, hnone]
    by_cases hu : u = v
    · rw [if_pos ⟨rfl, hu⟩, if_pos hu]
      exact congrArg some (zero_add shares)
    · rw [if_neg fun hkey ↦ hu hkey.2, if_neg hu]
  have hempty : ∀ u ∈ removed, ∀ b, (K.view w).Held K.accCodec b →
      (K.view w).stakes b u = none := by
    intro u hu b hb
    exact (htouches.delegations b (hfree b hb) u).symm.trans (htransferred.emptied u hu b)
  obtain ⟨_, hquiet, hstep⟩ := storeNewPosition_run hK hw hcreate removed rfl rfl rfl hempty
    (tier_id_eq hw htier) hunused hexists (hstaking ▸ hbonded) (hstake _)
    (htransferred.redelegations.trans (by rw [hstaking]))
    (htransferred.unbonding.trans (by rw [hstaking])) htouches
    (by
      rintro b (rfl | rfl)
      · exact htouches.account b hsrcExists
      · exact hexists) hfree hsigner
  refine ⟨removed, hquiet, ?_⟩
  rw [view_emit]
  · exact hstep
  · exact fun _ ↦ rfl

/-! ### Administration -/

theorem succeeds_requireAuthority {authority : String} {u : PUnit}
    (h : Succeeds (requireAuthority K authority) w u w') : w' = w :=
  (succeeds_ensure.mp h).2.symm

theorem succeeds_setTier {tier : Tier} {u : PUnit} (h : Succeeds (setTier tier) w u w') :
    tier.validate = .ok () ∧
      w' = { w with store := { w.store with tiers := w.store.tiers.insert tier.id tier } } := by
  unfold setTier at h
  simp only [succeeds_bind, succeeds_fromOutcome, succeeds_modifyStore] at h
  obtain ⟨_, _, ⟨hvalid, rfl⟩, rfl⟩ := h
  exact ⟨hvalid, rfl⟩

theorem updateParams_run {msg : MsgUpdateParams} {u : PUnit}
    (h : Succeeds (updateParams K msg) w u w') : QuietRun K.accCodec (K.view w) (K.view w') := by
  unfold updateParams setParams at h
  simp only [succeeds_bind, succeeds_fromOutcome, succeeds_modifyStore] at h
  obtain ⟨_, w₀, hauthority, _, _, ⟨hvalid, rfl⟩, rfl⟩ := h
  obtain rfl := succeeds_requireAuthority hauthority
  exact .single (.params msg.params hvalid) rfl

theorem addTier_run {msg : MsgAddTier} {u : PUnit} (h : Succeeds (addTier K msg) w u w') :
    QuietRun K.accCodec (K.view w) (K.view w') := by
  unfold addTier at h
  simp only [succeeds_bind, succeeds_get, succeeds_ensure, succeeds_emit] at h
  obtain ⟨_, w₀, hauthority, _, _, ⟨rfl, rfl⟩, _, _, ⟨hnew, rfl⟩, _, w₁, hset, rfl⟩ := h
  obtain rfl := succeeds_requireAuthority hauthority
  obtain ⟨hvalid, rfl⟩ := succeeds_setTier hset
  rw [view_emit]
  · refine .single (.setTier msg.tier hvalid ?_) rfl
    intro old hold
    rw [show (K.view _).store.tiers[msg.tier.id]? =
      none from Option.isNone_iff_eq_none.mp hnew] at hold
    cases hold
  · exact fun _ ↦ rfl

theorem mem_getPositionsIdsByTier {st : Store} {tierId : ℕ} :
    id ∈ st.getPositionsIdsByTier tierId ↔ st.positionsByTier[(tierId, id)]? = some () :=
  mem_group

theorem nodup_getPositionsIdsByTier (st : Store) (tierId : ℕ) :
    (st.getPositionsIdsByTier tierId).Nodup :=
  nodup_group _ _

theorem updateTier_run (hK : K.Contract) (hw : K.Sound w) {msg : MsgUpdateTier}
    {u : PUnit} (h : Succeeds (updateTier K msg) w u w') :
    ∃ old w₁, w.store.tiers[msg.tier.id]? = some old ∧
      SettleRun K w (if old.bonusApy ≠ msg.tier.bonusApy then
        w.store.getPositionsIdsByTier msg.tier.id else []) w₁ ∧
      QuietRun K.accCodec (K.view w₁) (K.view w') := by
  unfold updateTier claimRewardsAndUpdateTierPositions at h
  simp only [succeeds_bind, succeeds_getTier] at h
  obtain ⟨_, w₀, hauthority, old, _, ⟨hold, rfl⟩, hrest⟩ := h
  obtain rfl := (succeeds_requireAuthority hauthority).symm
  have hsettles : ∃ w₁ v, SettleRun K w (if old.bonusApy ≠ msg.tier.bonusApy then
      w.store.getPositionsIdsByTier msg.tier.id else []) w₁ ∧
      Succeeds (setTier msg.tier >>= fun _ ↦ emit (.tierChanged .update msg.tier)) w₁ v w' := by
    rcases succeeds_ite.mp hrest with ⟨hrate, hrest⟩ | ⟨hrate, hrest⟩
    · obtain ⟨_, w₁, hclaim, hrest⟩ := succeeds_bind.mp hrest
      rw [if_pos hrate]
      exact ⟨w₁, _, claimRewardsAndUpdatePositionIds_settles hK hw (succeeds_read.mp hclaim), hrest⟩
    · rw [if_neg hrate]
      exact ⟨w, _, .nil w, hrest⟩
  obtain ⟨w₁, _, hrun, hset⟩ := hsettles
  refine ⟨old, w₁, hold, hrun, ?_⟩
  simp only [succeeds_bind, succeeds_emit] at hset
  obtain ⟨_, w₂, hset, rfl⟩ := hset
  obtain ⟨hvalid, rfl⟩ := succeeds_setTier hset
  rw [view_emit]
  · refine .single (.setTier msg.tier hvalid ?_) rfl
    intro old' hold' hrate i p a v s hp htier hstake
    obtain ⟨htiers, hbyTier⟩ := hrun.tiers
    change w₁.store.tiers[msg.tier.id]? = _ at hold'
    rw [htiers, hold] at hold'
    obtain rfl := Option.some.inj hold'
    rw [if_pos hrate] at hrun
    refine hrun.settledAt hw (Or.inl ?_) p a v s hp hstake
    rw [mem_getPositionsIdsByTier, ← hbyTier]
    exact ((hrun.sound hw).indexed.byTier msg.tier.id i).mpr ⟨p, hp.stored, htier⟩
  · exact fun _ ↦ rfl

theorem deleteTierMsg_run (hw : K.Sound w) {msg : MsgDeleteTier} {u : PUnit}
    (h : Succeeds (deleteTierMsg K msg) w u w') : QuietRun K.accCodec (K.view w) (K.view w') := by
  unfold deleteTierMsg deleteTier at h
  simp only [succeeds_bind, succeeds_getTier, succeeds_get, succeeds_ensure, succeeds_modifyStore,
    succeeds_emit] at h
  obtain ⟨_, w₀, hauthority, tier, _, ⟨_, rfl⟩, _, w₁, ⟨_, _, ⟨rfl, rfl⟩, _, _, ⟨hempty, rfl⟩, rfl⟩,
    rfl⟩ := h
  obtain rfl := succeeds_requireAuthority hauthority
  rw [view_emit]
  · refine .single (.deleteTier msg.id ?_) rfl
    intro id p hp htier
    have hcount : w₀.store.tierSize msg.id = 0 := by
      refine (hw.indexed.countByTier.getD_eq msg.id).symm.trans ?_
      unfold Store.hasPositionsForTier at hempty
      have hzero : ¬ 0 < w₀.store.getPositionCountForTier msg.id := by simpa using hempty
      exact Nat.eq_zero_of_not_pos hzero
    have hnone := count_eq_zero.mp hcount id p hp
    rw [htier, beq_self_eq_true] at hnone
    cases hnone
  · exact fun _ ↦ rfl

/-! ### What a message amounts to -/

/-- The positions a message settles, in the world it is delivered in. -/
def Msg.settled (w : World σ) : Msg → List ℕ
  | .tierUndelegate msg => [msg.positionId]
  | .tierRedelegate msg => [msg.positionId]
  | .addToTierPosition msg => [msg.positionId]
  | .exitTierWithDelegation msg => [msg.positionId]
  | .clearPosition msg =>
    if (w.store.positions[msg.positionId]?).any Position.hasTriggeredExit then [msg.positionId]
    else []
  | .claimTierRewards msg => msg.positionIds
  | .updateTier msg =>
    if (w.store.tiers[msg.tier.id]?).any fun old ↦ decide (old.bonusApy ≠ msg.tier.bonusApy) then
      w.store.getPositionsIdsByTier msg.tier.id
    else []
  | _ => []

/-- Whether a message clears the exit of a position. -/
def Msg.clears (w : World σ) (id : ℕ) : Msg → Bool
  | .clearPosition msg =>
    msg.positionId == id && (w.store.positions[id]?).any Position.hasTriggeredExit
  | _ => false

/-- What a successful message does after the settlements. -/
inductive Effect (K : Keepers σ) (w w₁ w' : World σ) : Msg → Prop
  /-- Nothing that concerns a bonus or an exit. -/
  | quiet {msg : Msg} (hclear : ∀ id, msg.clears w id = false)
      (hquiet : QuietRun K.accCodec (K.view w₁) (K.view w')) : Effect K w w₁ w' msg
  /-- A position is locked. -/
  | lock {msg : MsgLockTier} (hworld : w₁ = w)
      (hcreate : Creates K w msg.triggerExitImmediately w') : Effect K w w₁ w' (.lockTier msg)
  /-- A delegation is committed. -/
  | commit {msg : MsgCommitDelegationToTier} (hworld : w₁ = w)
      (hcreate : Creates K w msg.triggerExitImmediately w') :
      Effect K w w₁ w' (.commitDelegationToTier msg)
  /-- An exit is triggered. -/
  | trigger {msg : MsgTriggerExitFromTier} (hworld : w₁ = w)
      (hstep : Ledger.Step K.accCodec (K.view w) (.trigger msg.positionId) (K.view w')) :
      Effect K w w₁ w' (.triggerExitFromTier msg)
  /-- An exit is cleared. -/
  | clear {msg : MsgClearPosition}
      (hsettled : Msg.settled w (.clearPosition msg) = [msg.positionId])
      (hstep : Ledger.Step K.accCodec (K.view w₁) (.clear msg.positionId) (K.view w')) :
      Effect K w w₁ w' (.clearPosition msg)

/-- A successful message settles positions and then has its effect. -/
theorem handle_effect (hK : K.Contract) (hw : K.Sound w) {msg : Msg} {u : PUnit}
    (hsigner : SignerIsFree K w msg.signer) (h : Succeeds (handle K msg) w u w') :
    (msg.settled w).Nodup ∧
      ∃ w₁, SettleRun K w (msg.settled w) w₁ ∧ Effect K w w₁ w' msg := by
  cases msg with
  | lockTier msg =>
    obtain ⟨_, _, hrun, hpure⟩ := succeeds_bind.mp h
    obtain ⟨_, rfl⟩ := succeeds_pure.mp hpure
    exact ⟨.nil, w, .nil w, .lock rfl (lockTier_run hK hw hsigner hrun)⟩
  | commitDelegationToTier msg =>
    obtain ⟨_, _, hrun, hpure⟩ := succeeds_bind.mp h
    obtain ⟨_, rfl⟩ := succeeds_pure.mp hpure
    exact ⟨.nil, w, .nil w, .commit rfl (commitDelegationToTier_run hK hw hsigner hrun)⟩
  | tierUndelegate msg =>
    obtain ⟨_, _, hrun, hpure⟩ := succeeds_bind.mp h
    obtain ⟨_, rfl⟩ := succeeds_pure.mp hpure
    obtain ⟨w₁, hsettles, hquiet⟩ := tierUndelegate_run hK hw hrun
    exact ⟨List.nodup_singleton _, w₁, hsettles, .quiet (fun _ ↦ rfl) hquiet⟩
  | tierRedelegate msg =>
    obtain ⟨_, _, hrun, hpure⟩ := succeeds_bind.mp h
    obtain ⟨_, rfl⟩ := succeeds_pure.mp hpure
    obtain ⟨w₁, hsettles, hquiet⟩ := tierRedelegate_run hK hw hrun
    exact ⟨List.nodup_singleton _, w₁, hsettles, .quiet (fun _ ↦ rfl) hquiet⟩
  | addToTierPosition msg =>
    obtain ⟨_, _, hrun, hpure⟩ := succeeds_bind.mp h
    obtain ⟨_, rfl⟩ := succeeds_pure.mp hpure
    obtain ⟨w₁, hsettles, hquiet⟩ := addToTierPosition_run hK hw hrun
    exact ⟨List.nodup_singleton _, w₁, hsettles, .quiet (fun _ ↦ rfl) hquiet⟩
  | triggerExitFromTier msg =>
    obtain ⟨_, _, hrun, hpure⟩ := succeeds_bind.mp h
    obtain ⟨_, rfl⟩ := succeeds_pure.mp hpure
    exact ⟨.nil, w, .nil w, .trigger rfl (triggerExitFromTier_run hw hrun)⟩
  | clearPosition msg =>
    obtain ⟨_, _, hrun, hpure⟩ := succeeds_bind.mp h
    obtain ⟨_, rfl⟩ := succeeds_pure.mp hpure
    obtain ⟨p, hp, ⟨hexit, hworld⟩ | ⟨hexit, w₁, hsettles, hstep⟩⟩ := clearPosition_run hK hw hrun
    · have hnone : Msg.settled w (.clearPosition msg) = [] := by
        dsimp only [Msg.settled]
        rw [hp, Option.any_some, hexit]
        rfl
      rw [hnone, hworld]
      refine ⟨.nil, w, .nil w, .quiet ?_ (.refl _)⟩
      intro id
      dsimp only [Msg.clears]
      by_cases hid : msg.positionId = id
      · subst hid
        rw [hp, Option.any_some, hexit, Bool.and_false]
      · rw [beq_false_of_ne hid, Bool.false_and]
    · have hone : Msg.settled w (.clearPosition msg) = [msg.positionId] := by
        dsimp only [Msg.settled]
        rw [hp, Option.any_some, hexit]
        rfl
      rw [← hone] at hsettles
      refine ⟨?_, w₁, hsettles, .clear hone hstep⟩
      rw [hone]
      exact List.nodup_singleton _
  | claimTierRewards msg =>
    obtain ⟨_, _, hrun, hpure⟩ := succeeds_bind.mp h
    obtain ⟨_, rfl⟩ := succeeds_pure.mp hpure
    obtain ⟨hnodup, w₁, hsettles, hquiet⟩ := claimTierRewards_run hK hw hrun
    exact ⟨hnodup, w₁, hsettles, .quiet (fun _ ↦ rfl) hquiet⟩
  | withdrawFromTier msg =>
    obtain ⟨_, _, hrun, hpure⟩ := succeeds_bind.mp h
    obtain ⟨_, rfl⟩ := succeeds_pure.mp hpure
    exact ⟨.nil, w, .nil w, .quiet (fun _ ↦ rfl) (withdrawFromTier_run hK hw hrun)⟩
  | exitTierWithDelegation msg =>
    obtain ⟨_, _, hrun, hpure⟩ := succeeds_bind.mp h
    obtain ⟨_, rfl⟩ := succeeds_pure.mp hpure
    obtain ⟨w₁, hsettles, hquiet⟩ := exitTierWithDelegation_run hK hw hsigner hrun
    exact ⟨List.nodup_singleton _, w₁, hsettles, .quiet (fun _ ↦ rfl) hquiet⟩
  | updateParams msg => exact ⟨.nil, w, .nil w, .quiet (fun _ ↦ rfl) (updateParams_run h)⟩
  | addTier msg => exact ⟨.nil, w, .nil w, .quiet (fun _ ↦ rfl) (addTier_run h)⟩
  | updateTier msg =>
    obtain ⟨old, w₁, hold, hsettles, hquiet⟩ := updateTier_run hK hw h
    have hlist : Msg.settled w (.updateTier msg) = if old.bonusApy ≠ msg.tier.bonusApy then
        w.store.getPositionsIdsByTier msg.tier.id else [] := by
      dsimp only [Msg.settled]
      rw [hold, Option.any_some]
      simp only [decide_eq_true_eq]
    rw [hlist]
    refine ⟨?_, w₁, hsettles, .quiet (fun _ ↦ rfl) hquiet⟩
    split_ifs
    · exact nodup_getPositionsIdsByTier _ _
    · exact .nil
  | deleteTier msg => exact ⟨.nil, w, .nil w, .quiet (fun _ ↦ rfl) (deleteTierMsg_run hw h)⟩

end ChainMain.TieredRewards
