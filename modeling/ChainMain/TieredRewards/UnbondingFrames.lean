import ChainMain.TieredRewards.KeeperFrames

/-!
# Frames of the unbonding delegations

Every message except `TierUndelegate` leaves the unbonding delegations of staking alone.
-/

set_option autoImplicit false

namespace ChainMain.TieredRewards

open Foundations Decimal OrderedStore StoreProgram

variable {σ : Type} {K : Keepers σ}

/-- The unbonding delegations that staking reports in a world. -/
def unbondings (K : Keepers σ) (w : World σ) :
    Map (AccAddress × ValAddress) (List UnbondingEntry) :=
  (K.staking w.ext).unbondingDelegations

theorem readsOutside_unbondings : ReadsOutside (unbondings K) := by
  intro w w' _ hext
  unfold unbondings
  rw [hext]

theorem unbondings_of_leavesStaking {w : World σ} {ext : σ} (h : K.LeavesStaking w.ext ext) :
    unbondings K { w with ext := ext } = unbondings K w :=
  congrArg Staking.unbondingDelegations h.staking

variable (hK : K.Contract)

include hK

theorem Keepers.Contract.keeps_unbondings : K.Keeps (unbondings K) where
  outside := readsOutside_unbondings
  sendCoinsFromModuleToAccount := fun _ _ _ _ _ h ↦
    unbondings_of_leavesStaking (hK.sendCoinsFromModuleToAccount _ _ _ _ _ _ h)
  withdrawDelegationRewards := fun _ _ _ _ _ h ↦
    unbondings_of_leavesStaking (hK.withdrawDelegationRewards _ _ _ _ _ _ h)
  deleteDelegatorWithdrawAddr := fun _ _ _ _ h ↦
    unbondings_of_leavesStaking (hK.deleteDelegatorWithdrawAddr _ _ _ _ _ h)
  delegate := fun _ _ _ _ _ _ _ h ↦ (hK.delegate _ _ _ _ _ _ _ _ _ h).2.2.2
  unbond := fun _ _ _ _ _ _ _ h ↦ (hK.unbond _ _ _ _ _ _ _ _ h).2.2.2.2

/-! ### Parts of messages -/

theorem leaves_delegate (del : AccAddress) (v : ValAddress) (amount : ℤ) :
    Leaves (unbondings K) (delegate K del v amount) := by
  refine leaves_bind (leaves_getValidator v) fun val ↦ leaves_bind (leaves_ensure _ _) fun _ ↦ ?_
  exact leaves_call fun _ _ _ h ↦ (hK.delegate _ _ _ _ _ _ _ _ _ h).2.2.2

theorem leaves_lockFunds (owner del : AccAddress) (amount : ℤ) :
    Leaves (unbondings K) (lockFunds K owner del amount) :=
  leaves_callUnit fun _ _ h ↦ unbondings_of_leavesStaking (hK.sendCoins _ _ _ _ _ _ h)

theorem leaves_sweepBalances (del owner : AccAddress) :
    Leaves (unbondings K) (sweepBalances K del owner) := by
  refine leaves_bind leaves_get fun w ↦ leaves_ite ?_ (leaves_pure _)
  refine leaves_bind (leaves_callUnit fun _ _ h ↦ ?_) fun _ ↦ leaves_pure _
  exact unbondings_of_leavesStaking (hK.sendCoins _ _ _ _ _ _ h)

theorem leaves_claimRewardsAndUpdatePosition (pos : PositionState) :
    Leaves (unbondings K) (claimRewardsAndUpdatePosition K pos) := by
  refine leaves_ite (leaves_bind (leaves_claimBaseRewards hK.keeps_unbondings pos) fun base ↦ ?_)
    (leaves_pure _)
  refine leaves_bind (leaves_claimBonus hK.keeps_unbondings pos) fun _ ↦ ?_
  exact leaves_bind (leaves_setPosition readsOutside_unbondings _ _) fun _ ↦ leaves_pure _

theorem leaves_claimRewardsAndUpdatePositionIds (ids : List ℕ) :
    Leaves (unbondings K) (claimRewardsAndUpdatePositionIds K ids) := by
  induction ids with
  | nil => exact leaves_pure _
  | cons id ids ih =>
    refine leaves_bind (leaves_getPositionState id) fun pos ↦ ?_
    exact leaves_bind (leaves_claimRewardsAndUpdatePosition hK pos) fun _ ↦ ih

theorem leaves_claimRewardsAndUpdatesPositions (positions : List PositionState)
    (totalBase totalBonus : Coins) :
    Leaves (unbondings K) (claimRewardsAndUpdatesPositions K positions totalBase totalBonus) := by
  induction positions generalizing totalBase totalBonus with
  | nil => exact leaves_pure _
  | cons pos positions ih =>
    exact leaves_bind (leaves_claimRewardsAndUpdatePosition hK pos) fun _ ↦ ih _ _

/-! ### Messages -/

theorem leaves_createPositionDelegatorAccount (owner : AccAddress) (id : ℕ) :
    Leaves (unbondings K) (createPositionDelegatorAccount K owner id) := by
  have htry : ∀ attempts nonce,
      Leaves (unbondings K) (tryPositionDelegatorAddresses K owner id nonce attempts) := by
    intro attempts
    induction attempts with
    | zero => exact fun nonce ↦ leaves_throw _
    | succ attempts ih =>
      intro nonce
      refine leaves_bind leaves_get fun w ↦ leaves_ite (ih _) ?_
      refine leaves_bind (leaves_modify fun w ↦ ?_) fun _ ↦ leaves_pure _
      exact congrArg Staking.unbondingDelegations (hK.newAccount_staking _ _)
  exact htry _ _

theorem leaves_storeNewPosition (owner : String) (tier : Tier) (v : ValAddress) (del : AccAddress)
    (exiting : Bool) (id : ℕ) :
    Leaves (unbondings K) (storeNewPosition K owner tier v del exiting id) := by
  have hcreate : Leaves (unbondings K) (createDelegatedPosition K owner tier v del exiting) := by
    refine leaves_bind leaves_get fun w ↦
      leaves_bind (leaves_modifyStore readsOutside_unbondings _) fun _ ↦ ?_
    refine leaves_bind (leaves_expect _ _) fun ownerAddr ↦ ?_
    refine leaves_bind (leaves_callUnit fun _ _ h ↦ ?_) fun _ ↦ leaves_pure _
    exact unbondings_of_leavesStaking (hK.setWithdrawAddr _ _ _ _ _ h)
  refine leaves_bind hcreate fun pos ↦ leaves_bind (leaves_ensure _ _) fun _ ↦ ?_
  exact leaves_bind (leaves_setPosition readsOutside_unbondings _ _) fun _ ↦ leaves_pure _

theorem leaves_transferDelegationToPosition (owner validatorAddr : String) (del : AccAddress)
    (amount : ℤ) :
    Leaves (unbondings K) (transferDelegationToPosition K owner del validatorAddr amount) := by
  refine leaves_bind (leaves_ensure _ _) fun _ ↦ leaves_bind (leaves_expect _ _) fun src ↦ ?_
  refine leaves_bind (leaves_expect _ _) fun v ↦ leaves_bind (leaves_ensure _ _) fun _ ↦ ?_
  refine leaves_bind (leaves_getBondedValidator v _) fun _ ↦ leaves_bind leaves_get fun w ↦ ?_
  refine leaves_bind (leaves_ensure _ _) fun _ ↦ leaves_bind (leaves_fromOutcome _) fun shares ↦ ?_
  exact leaves_bind (leaves_moveShares hK.keeps_unbondings _ _ _ _) fun _ ↦ leaves_pure _

theorem leaves_lockTier (msg : MsgLockTier) : Leaves (unbondings K) (lockTier K msg) := by
  refine leaves_bind (leaves_fromOutcome _) fun _ ↦ leaves_bind (leaves_getTier _) fun tier ↦ ?_
  refine leaves_bind (leaves_of_reads fun _ _ _ h ↦ succeeds_validateNewPosition h) fun _ ↦ ?_
  refine leaves_bind (leaves_expect _ _) fun v ↦ leaves_bind (leaves_expect _ _) fun owner ↦ ?_
  refine leaves_bind leaves_get fun w ↦ ?_
  refine leaves_bind (leaves_createPositionDelegatorAccount hK _ _) fun del ↦ ?_
  refine leaves_bind (leaves_lockFunds hK _ _ _) fun _ ↦
    leaves_bind (leaves_delegate hK _ _ _) fun _ ↦ ?_
  refine leaves_bind (leaves_storeNewPosition hK _ _ _ _ _ _) fun pos ↦ ?_
  exact leaves_bind (leaves_emit readsOutside_unbondings _) fun _ ↦ leaves_pure _

theorem leaves_commitDelegationToTier (msg : MsgCommitDelegationToTier) :
    Leaves (unbondings K) (commitDelegationToTier K msg) := by
  refine leaves_bind (leaves_fromOutcome _) fun _ ↦ leaves_bind (leaves_getTier _) fun tier ↦ ?_
  refine leaves_bind (leaves_of_reads fun _ _ _ h ↦ succeeds_validateNewPosition h) fun _ ↦ ?_
  refine leaves_bind (leaves_expect _ _) fun v ↦ leaves_bind (leaves_expect _ _) fun owner ↦ ?_
  refine leaves_bind leaves_get fun w ↦ ?_
  refine leaves_bind (leaves_createPositionDelegatorAccount hK _ _) fun del ↦ ?_
  refine leaves_bind (leaves_transferDelegationToPosition hK _ _ _ _) fun _ ↦ ?_
  refine leaves_bind (leaves_storeNewPosition hK _ _ _ _ _ _) fun pos ↦ ?_
  exact leaves_bind (leaves_emit readsOutside_unbondings _) fun _ ↦ leaves_pure _

theorem leaves_tierRedelegate (msg : MsgTierRedelegate) :
    Leaves (unbondings K) (tierRedelegate K msg) := by
  refine leaves_bind (leaves_fromOutcome _) fun _ ↦
    leaves_bind (leaves_getPositionState _) fun pos ↦ ?_
  refine leaves_bind (leaves_of_reads fun _ _ _ h ↦ (succeeds_validateRedelegatePosition h).1)
    fun _ ↦ ?_
  refine leaves_bind (leaves_expect _ _) fun dst ↦
    leaves_bind (leaves_claimRewards hK.keeps_unbondings pos) ?_
  rintro ⟨pos, _, _⟩
  refine leaves_bind (leaves_expect _ _) fun delegation ↦
    leaves_bind (leaves_expect _ _) fun src ↦ ?_
  refine leaves_bind (leaves_expect _ _) fun del ↦ ?_
  have hredelegate : Leaves (unbondings K) (redelegate K del src dst delegation.shares) := by
    refine leaves_bind (leaves_getValidator dst) fun val ↦
      leaves_bind (leaves_ensure _ _) fun _ ↦ ?_
    exact leaves_callRemoving readsOutside_unbondings fun _ _ _ _ h ↦
      (hK.beginRedelegation _ _ _ _ _ _ _ _ _ _ h).2.2.2.2.2.2
  refine leaves_bind hredelegate ?_
  rintro ⟨completionTime, unbondingId⟩
  have hmapping : Leaves (unbondings K) (setRedelegationMapping unbondingId pos.id : M σ PUnit) :=
    leaves_ite (leaves_modifyStore readsOutside_unbondings _) (leaves_pure _)
  refine leaves_bind hmapping fun _ ↦ leaves_bind leaves_get fun w ↦ ?_
  refine leaves_bind (leaves_setPosition readsOutside_unbondings _ _) fun _ ↦ ?_
  exact leaves_bind (leaves_emit readsOutside_unbondings _) fun _ ↦ leaves_pure _

theorem leaves_addToTierPosition (msg : MsgAddToTierPosition) :
    Leaves (unbondings K) (addToTierPosition K msg) := by
  refine leaves_bind (leaves_fromOutcome _) fun _ ↦
    leaves_bind (leaves_getPositionState _) fun pos ↦ ?_
  refine leaves_bind (leaves_of_reads fun _ _ _ h ↦ (succeeds_validateAddToPosition h).1) fun _ ↦ ?_
  refine leaves_bind (leaves_expect _ _) fun owner ↦ leaves_bind (leaves_expect _ _) fun del ↦ ?_
  refine leaves_bind (leaves_lockFunds hK _ _ _) fun _ ↦
    leaves_bind (leaves_claimRewards hK.keeps_unbondings pos) ?_
  rintro ⟨pos, _, _⟩
  refine leaves_bind (leaves_expect _ _) fun delegation ↦ leaves_bind (leaves_expect _ _) fun v ↦ ?_
  refine leaves_bind (leaves_delegate hK _ _ _) fun shares ↦
    leaves_bind (leaves_setPosition readsOutside_unbondings _ _) fun _ ↦ ?_
  exact leaves_bind (leaves_emit readsOutside_unbondings _) fun _ ↦ leaves_pure _

omit hK in
theorem leaves_triggerExitFromTier (msg : MsgTriggerExitFromTier) :
    Leaves (unbondings K) (triggerExitFromTier K msg) := by
  refine leaves_bind (leaves_fromOutcome _) fun _ ↦
    leaves_bind (leaves_getPositionState _) fun pos ↦ ?_
  refine leaves_bind (leaves_of_reads fun _ _ _ h ↦ (succeeds_validateTriggerExit h).1) fun _ ↦ ?_
  refine leaves_bind (leaves_getTier _) fun tier ↦ leaves_bind leaves_get fun w ↦ ?_
  refine leaves_bind (leaves_setPosition readsOutside_unbondings _ _) fun _ ↦ ?_
  exact leaves_bind (leaves_emit readsOutside_unbondings _) fun _ ↦ leaves_pure _

theorem leaves_clearPosition (msg : MsgClearPosition) :
    Leaves (unbondings K) (clearPosition K msg) := by
  refine leaves_bind (leaves_fromOutcome _) fun _ ↦
    leaves_bind (leaves_getPositionState _) fun pos ↦ ?_
  refine leaves_bind (leaves_of_reads fun _ _ _ h ↦ (succeeds_validateClearPosition h).1) fun _ ↦ ?_
  refine leaves_ite (leaves_bind (leaves_claimRewards hK.keeps_unbondings pos) ?_) (leaves_pure _)
  rintro ⟨pos, _, _⟩
  refine leaves_bind leaves_get fun w ↦
    leaves_bind (leaves_setPosition readsOutside_unbondings _ _) fun _ ↦ ?_
  exact leaves_bind (leaves_emit readsOutside_unbondings _) fun _ ↦ leaves_pure _

theorem leaves_claimTierRewards (msg : MsgClaimTierRewards) :
    Leaves (unbondings K) (claimTierRewards K msg) := by
  have hload : ∀ ids, Leaves (unbondings K) (loadClaimedPositions K msg.owner ids) := by
    intro ids
    induction ids with
    | nil => exact leaves_pure _
    | cons id ids ih =>
      refine leaves_bind (leaves_getPositionState id) fun pos ↦
        leaves_bind (leaves_ensure _ _) fun _ ↦ ?_
      exact leaves_bind ih fun _ ↦ leaves_pure _
  refine leaves_bind (leaves_fromOutcome _) fun _ ↦ leaves_bind (hload _) fun positions ↦ ?_
  refine leaves_bind (leaves_claimRewardsAndUpdatesPositions hK positions _ _) fun _ ↦ ?_
  exact leaves_bind (leaves_emit readsOutside_unbondings _) fun _ ↦ leaves_pure _

theorem leaves_withdrawFromTier (msg : MsgWithdrawFromTier) :
    Leaves (unbondings K) (withdrawFromTier K msg) := by
  refine leaves_bind (leaves_fromOutcome _) fun _ ↦
    leaves_bind (leaves_getPositionState _) fun pos ↦ ?_
  refine leaves_bind (leaves_of_reads fun _ _ _ h ↦ (succeeds_validateWithdrawFromTier h).1)
    fun _ ↦ ?_
  refine leaves_bind (leaves_expect _ _) fun owner ↦ leaves_bind (leaves_expect _ _) fun del ↦ ?_
  refine leaves_bind (leaves_sweepBalances hK _ _) fun balances ↦ ?_
  refine leaves_bind (leaves_deletePosition readsOutside_unbondings _ _
      hK.keeps_unbondings.deleteDelegatorWithdrawAddr) fun _ ↦ ?_
  exact leaves_bind (leaves_emit readsOutside_unbondings _) fun _ ↦ leaves_pure _

theorem leaves_exitTierWithDelegation (msg : MsgExitTierWithDelegation) :
    Leaves (unbondings K) (exitTierWithDelegation K msg) := by
  refine leaves_bind (leaves_fromOutcome _) fun _ ↦
    leaves_bind (leaves_getPositionState _) fun pos ↦ ?_
  refine leaves_bind (leaves_of_reads fun _ _ _ h ↦
    (succeeds_validateExitTierWithDelegation h).1) fun _ ↦ ?_
  refine leaves_bind (leaves_claimRewards hK.keeps_unbondings pos) ?_
  rintro ⟨pos, _, _⟩
  refine leaves_bind (leaves_expect _ _) fun delegation ↦ leaves_bind (leaves_expect _ _) fun v ↦ ?_
  refine leaves_bind (leaves_reconcileAmountFromShares _ _) fun positionAmount ↦ ?_
  refine leaves_bind (leaves_transferDelegationFromPosition hK.keeps_unbondings _ _ _) ?_
  rintro ⟨transferredShares, unbondedShares, transferredAmount⟩
  refine leaves_ite (leaves_bind ?_ fun _ ↦ ?_) (leaves_bind ?_ fun _ ↦ ?_)
  · refine leaves_bind (leaves_expect _ _) fun owner ↦ leaves_bind (leaves_expect _ _) fun del ↦ ?_
    exact leaves_bind (leaves_sweepBalances hK _ _) fun _ ↦
      leaves_deletePosition readsOutside_unbondings _ _
      hK.keeps_unbondings.deleteDelegatorWithdrawAddr
  · exact leaves_bind (leaves_emit readsOutside_unbondings _) fun _ ↦ leaves_pure _
  · refine leaves_bind (leaves_reconcileAmountFromShares _ _) fun remaining ↦ ?_
    refine leaves_bind (leaves_getTier _) fun tier ↦ leaves_bind (leaves_ensure _ _) fun _ ↦ ?_
    exact leaves_setPosition readsOutside_unbondings _ _
  · exact leaves_bind (leaves_emit readsOutside_unbondings _) fun _ ↦ leaves_pure _

theorem leaves_updateTier (msg : MsgUpdateTier) : Leaves (unbondings K) (updateTier K msg) := by
  have hset : Leaves (unbondings K) (setTier msg.tier : M σ PUnit) :=
    leaves_bind (leaves_fromOutcome _) fun _ ↦ leaves_modifyStore readsOutside_unbondings _
  refine leaves_bind (leaves_ensure _ _) fun _ ↦ leaves_bind (leaves_getTier _) fun tier ↦ ?_
  refine leaves_ite (leaves_bind ?_ fun _ ↦ ?_)
    (leaves_bind hset fun _ ↦ leaves_emit readsOutside_unbondings _)
  · exact leaves_bind leaves_get fun w ↦ leaves_claimRewardsAndUpdatePositionIds hK _
  · exact leaves_bind hset fun _ ↦ leaves_emit readsOutside_unbondings _

end ChainMain.TieredRewards
