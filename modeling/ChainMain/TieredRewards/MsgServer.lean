import ChainMain.TieredRewards.Hooks

/-!
# The message server

The handlers of `msg_server.go` and `msg_server_auth.go`, with the stateful checks of
`msg_validate.go` and the transfers of `transfer_delegation.go`. A handler that returns an error may
have written before; `deliver` is the message server as a transaction runs it, which drops those
writes.
-/

set_option autoImplicit false

namespace ChainMain.TieredRewards

open Foundations Decimal OrderedStore StoreProgram

variable {σ : Type} (K : Keepers σ)

/-! ### Staking operations with their hooks -/

/-- A staking operation that unbonds, followed by the hook for the validators it has removed. -/
def callRemoving {α : Type} (f : Context → σ → Except Err ((α × List ValAddress) × σ)) : M σ α := do
  let result ← call f
  afterValidatorsRemoved result.2
  return result.1

def unbond (del : AccAddress) (v : ValAddress) (shares : Dec) : M σ ℤ :=
  callRemoving fun ctx ext ↦ K.unbond ctx ext del v shares

def undelegate (del : AccAddress) (v : ValAddress) (shares : Dec) : M σ (Time × ℤ) :=
  callRemoving fun ctx ext ↦ K.undelegate ctx ext del v shares

def redelegate (del : AccAddress) (src dst : ValAddress) (shares : Dec) : M σ (Time × ℕ) := do
  let val ← getValidator K dst
  ensure val.isBonded (.registered .validatorNotBonded)
  callRemoving fun ctx ext ↦ K.beginRedelegation ctx ext del src dst shares

/-! ### Stateful checks -/

def validateNonVestingAccount (address : String) : M σ PUnit := do
  let addr ← accAddressFromBech32 K address bech32Error
  let w ← get
  ensure (decide (K.account w.ext addr ≠ some .vesting)) (.registered .vestingAccountNotAllowed)

def validateNewPosition (owner : String) (amount : ℤ) (tier : Tier) : M σ PUnit := do
  validateNonVestingAccount K owner
  ensure (!tier.isCloseOnly) (.registered .tierIsCloseOnly)
  ensure (tier.meetsMinLockRequirement amount) (.registered .minLockAmountNotMet)

/-- The check that no redelegation of the position is active. -/
def rejectRedelegating (pos : Position) : M σ PUnit := do
  let redelegating ← isRedelegating K pos.delegatorAddress
  ensure (!redelegating) (.registered .activeRedelegation "position %d has an active redelegation"
    [.nat pos.id])

/-- The check that no stake of the position is unbonding. -/
def rejectUnbonding (pos : Position) : M σ PUnit := do
  let unbonding ← isUnbonding K pos.delegatorAddress
  ensure (!unbonding) (.registered .positionUnbonding)

def validateUndelegatePosition (pos : PositionState) (owner : String) : M σ PUnit := do
  ensure (pos.isOwner owner) (.registered .notPositionOwner)
  ensure pos.isDelegated (.registered .positionNotDelegated)
  ensure pos.hasTriggeredExit (.registered .exitNotTriggered)
  let w ← get
  ensure (pos.completedExitLockDuration w.ctx.blockTime) (.registered .exitLockDurationNotReached)

/-- `validateRedelegatePosition`: the destination is compared with the current validator as a
string. -/
def validateRedelegatePosition (pos : PositionState) (owner dstValidator : String) : M σ PUnit := do
  ensure (pos.isOwner owner) (.registered .notPositionOwner)
  ensure pos.isDelegated (.registered .positionNotDelegated)
  ensure (decide (pos.delegation.map Delegation.validatorAddress ≠ some dstValidator))
    (.registered .redelegationToSameValidator)
  let w ← get
  ensure (!(pos.hasTriggeredExit && pos.completedExitLockDuration w.ctx.blockTime))
    (.registered .exitLockDurationElapsed)
  let tier ← getTier pos.tierId
  ensure (!tier.isCloseOnly) (.registered .tierIsCloseOnly)
  rejectRedelegating K pos.toPosition

def validateAddToPosition (pos : PositionState) (owner : String) : M σ PUnit := do
  ensure (pos.isOwner owner) (.registered .notPositionOwner)
  ensure pos.isDelegated (.registered .positionNotDelegated)
  ensure (!pos.hasTriggeredExit) (.registered .positionTriggeredExit)
  let tier ← getTier pos.tierId
  ensure (!tier.isCloseOnly) (.registered .tierIsCloseOnly)

def validateTriggerExit (pos : Position) (owner : String) : M σ PUnit := do
  ensure (pos.isOwner owner) (.registered .notPositionOwner)
  ensure (!pos.hasTriggeredExit) (.registered .positionTriggeredExit)

/-- The checks of `validateClearPosition` for a position whose lock has run out. -/
def validateClearUnlocked (pos : PositionState) : M σ PUnit := do
  rejectUnbonding K pos.toPosition
  ensure pos.isDelegated (.registered .positionNotDelegated)

def validateClearPosition (pos : PositionState) (owner : String) : M σ PUnit := do
  ensure (pos.isOwner owner) (.registered .notPositionOwner)
  let w ← get
  if pos.completedExitLockDuration w.ctx.blockTime then validateClearUnlocked K pos
  let tier ← getTier pos.tierId
  ensure (!tier.isCloseOnly) (.registered .tierIsCloseOnly)

def validateClaimRewards (pos : Position) (owner : String) : M σ PUnit :=
  ensure (pos.isOwner owner) (.registered .notPositionOwner)

def validateWithdrawFromTier (pos : PositionState) (owner : String) : M σ PUnit := do
  ensure (pos.isOwner owner) (.registered .notPositionOwner)
  ensure pos.hasTriggeredExit (.registered .exitNotTriggered)
  let w ← get
  ensure (pos.completedExitLockDuration w.ctx.blockTime) (.registered .exitLockDurationNotReached)
  ensure (!pos.isDelegated) (.registered .positionDelegated)
  rejectUnbonding K pos.toPosition

def validateExitTierWithDelegation (pos : PositionState) (owner : String) (amount : ℤ) :
    M σ PUnit := do
  ensure (pos.isOwner owner) (.registered .notPositionOwner)
  ensure pos.isDelegated (.registered .positionNotDelegated)
  ensure pos.hasTriggeredExit (.registered .exitNotTriggered)
  let w ← get
  ensure (pos.completedExitLockDuration w.ctx.blockTime) (.registered .exitLockDurationNotReached)
  let positionAmount ← getPositionAmount K pos
  ensure (decide (amount ≤ positionAmount))
    (.registered .invalidAmount "amount %s exceeds position token value %s"
      [.int amount, .int positionAmount])
  rejectRedelegating K pos.toPosition

/-! ### Moving stake without an unbonding period -/

/-- The validator of a transfer, which has to exist and be bonded. -/
def getBondedValidator (v : ValAddress) (notFound : ErrCode) : M σ Validator := do
  let w ← get
  let val ← expect (K.staking w.ext).validators[v]? (.registered notFound)
  ensure val.isBonded (.registered .validatorNotBonded)
  return val

/-- Unbond shares of one delegator and delegate the tokens for another one on the same validator. -/
def moveShares (src dst : AccAddress) (v : ValAddress) (shares : Dec) : M σ (Dec × ℤ) := do
  let amount ← unbond K src v shares
  ensure (decide (amount ≠ 0)) (.registered .tinyTransferDelegationAmount)
  let val ← getValidator K v
  let newShares ← call fun ctx ext ↦ K.delegate ctx ext dst amount val.status v false
  return (newShares, amount)

def Staking.hasReceivingRedelegation (s : Staking) (del : AccAddress) (v : ValAddress) : Bool :=
  (s.redelegationsOf del).any fun red ↦ red.dst == v

def transferDelegationToPosition (owner : String) (posDelAddr : AccAddress) (validatorAddr : String)
    (amount : ℤ) : M σ Dec := do
  ensure (decide (0 < amount)) (.registered .invalidRequest "delegation amount must be positive")
  let src ← accAddressFromBech32 K owner invalidDelegatorAddress
  let v ← valAddressFromBech32 K validatorAddr
    (.registered .invalidAddress "invalid validator address")
  ensure (decide (src ≠ posDelAddr)) (.registered .transferDelegationToPositionSelf)
  let _ ← getBondedValidator K v .transferDelegationSrcNotFound
  let w ← get
  ensure (!(K.staking w.ext).hasReceivingRedelegation src v) (.registered .activeRedelegation)
  let shares ← fromOutcome (K.validateUnbondAmount w.ext src v amount)
  let (newShares, _) ← moveShares K src posDelAddr v shares
  return newShares

/-- The shares `transferDelegationFromPosition` unbonds: all of them for the whole amount. -/
def sharesToTransfer (pos : PositionState) (del : Delegation) (posDelAddr : AccAddress)
    (v : ValAddress) (amount positionAmount : ℤ) : M σ Dec :=
  if pos.exitWithFullDelegation amount positionAmount then pure del.shares
  else do
    let w ← get
    fromOutcome (K.validateUnbondAmount w.ext posDelAddr v amount)

/-- `transferDelegationFromPosition`: the owner's new shares, the unbonded shares and the amount. -/
def transferDelegationFromPosition (pos : PositionState) (v : ValAddress) (amount : ℤ) :
    M σ (Dec × Dec × ℤ) := do
  let owner ← accAddressFromBech32 K pos.owner invalidOwnerAddress
  let posDelAddr ← accAddressFromBech32 K pos.delegatorAddress invalidDelegatorAddress
  let del ← expect pos.delegation
    (.registered .positionNotDelegated "position %d is not delegated" [.nat pos.id])
  rejectRedelegating K pos.toPosition
  let _ ← getBondedValidator K v .transferDelegationDestNotFound
  let positionAmount ← reconcileAmountFromShares K v del.shares
  let unbondedShares ← sharesToTransfer K pos del posDelAddr v amount positionAmount
  let (ownerNewShares, transferredAmount) ← moveShares K posDelAddr owner v unbondedShares
  return (ownerNewShares, unbondedShares, transferredAmount)

/-- Send the spendable balance of a position's delegator account to the owner. -/
def sweepBalances (del owner : AccAddress) : M σ Coins := do
  let w ← get
  let balances := K.spendableCoins w.ext del
  if ¬ balances.isZero then callUnit fun ctx ext ↦ K.sendCoins ctx ext del owner balances
  return balances

/-! ### Handlers of the owner's messages -/

/-- The tail of `LockTier` and `CommitDelegationToTier`: create the position, check that it has the
peeked id, and store it. -/
def storeNewPosition (owner : String) (tier : Tier) (v : ValAddress) (del : AccAddress)
    (triggerExitImmediately : Bool) (id : ℕ) : M σ Position := do
  let pos ← createDelegatedPosition K owner tier v del triggerExitImmediately
  ensure (decide (pos.id = id))
    (.registered .invalidPositionID "position id mismatch: peeked %d, created %d"
      [.nat id, .nat pos.id])
  setPosition K pos (some ⟨""⟩)
  return pos

def lockTier (msg : MsgLockTier) : M σ PositionCreatedResponse := do
  fromOutcome (msg.validate K.accCodec K.valCodec)
  let tier ← getTier msg.id
  validateNewPosition K msg.owner msg.amount tier
  let v ← valAddressFromBech32 K msg.validatorAddress bech32Error
  let owner ← accAddressFromBech32 K msg.owner bech32Error
  let w ← get
  let id := w.store.nextPositionId
  let del ← createPositionDelegatorAccount K owner id
  lockFunds K owner del msg.amount
  let _ ← delegate K del v msg.amount
  let pos ← storeNewPosition K msg.owner tier v del msg.triggerExitImmediately id
  emit (.positionCreated pos)
  return ⟨pos.id⟩

def commitDelegationToTier (msg : MsgCommitDelegationToTier) : M σ PositionCreatedResponse := do
  fromOutcome (msg.validate K.accCodec K.valCodec)
  let tier ← getTier msg.id
  validateNewPosition K msg.delegatorAddress msg.amount tier
  let v ← valAddressFromBech32 K msg.validatorAddress bech32Error
  let delegator ← accAddressFromBech32 K msg.delegatorAddress bech32Error
  let w ← get
  let id := w.store.nextPositionId
  let del ← createPositionDelegatorAccount K delegator id
  let _ ← transferDelegationToPosition K msg.delegatorAddress del msg.validatorAddress msg.amount
  let pos ← storeNewPosition K msg.delegatorAddress tier v del msg.triggerExitImmediately id
  emit (.delegationCommitted pos)
  return ⟨pos.id⟩

def tierUndelegate (msg : MsgTierUndelegate) : M σ CompletionResponse := do
  fromOutcome (msg.validate K.accCodec)
  let pos ← getPositionState K msg.positionId
  validateUndelegatePosition pos msg.owner
  let (pos, _, _) ← claimRewards K pos
  let delegation ← expect pos.delegation (.panic "nil delegation")
  let v ← valAddressFromBech32 K delegation.validatorAddress bech32Error
  let del ← accAddressFromBech32 K pos.delegatorAddress invalidDelegatorAddress
  let (completionTime, _) ← undelegate K del v delegation.shares
  setPosition K pos.toPosition.clearBonusCheckpoints (some ⟨delegation.validatorAddress⟩)
  emit (.positionUndelegated pos.id pos.tierId pos.owner delegation.validatorAddress completionTime)
  return ⟨completionTime, pos.id⟩

/-- Record the redelegation entry of a position; id `0` says that staking created none. -/
def setRedelegationMapping (unbondingId positionId : ℕ) : M σ PUnit :=
  if unbondingId ≠ 0 then
    modifyStore fun s ↦
      { s with redelegationMappings := s.redelegationMappings.insert unbondingId positionId }
  else pure ⟨⟩

def tierRedelegate (msg : MsgTierRedelegate) : M σ CompletionResponse := do
  fromOutcome (msg.validate K.accCodec K.valCodec)
  let pos ← getPositionState K msg.positionId
  validateRedelegatePosition K pos msg.owner msg.dstValidator
  let dst ← valAddressFromBech32 K msg.dstValidator bech32Error
  let (pos, _, _) ← claimRewards K pos
  let delegation ← expect pos.delegation (.panic "nil delegation")
  let src ← valAddressFromBech32 K delegation.validatorAddress bech32Error
  let del ← accAddressFromBech32 K pos.delegatorAddress invalidDelegatorAddress
  let (completionTime, unbondingId) ← redelegate K del src dst delegation.shares
  setRedelegationMapping unbondingId pos.id
  let w ← get
  let latestSeq := w.store.getValidatorEventLatestSeq dst
  setPosition K (pos.toPosition.updateBonusCheckpoints latestSeq w.ctx.blockTime true)
    (some ⟨delegation.validatorAddress⟩)
  emit (.positionRedelegated pos.id pos.tierId pos.owner delegation.validatorAddress
    msg.dstValidator completionTime)
  return ⟨completionTime, pos.id⟩

def addToTierPosition (msg : MsgAddToTierPosition) : M σ PositionResponse := do
  fromOutcome (msg.validate K.accCodec)
  let pos ← getPositionState K msg.positionId
  validateAddToPosition pos msg.owner
  let owner ← accAddressFromBech32 K msg.owner bech32Error
  let del ← accAddressFromBech32 K pos.delegatorAddress invalidDelegatorAddress
  lockFunds K owner del msg.amount
  let (pos, _, _) ← claimRewards K pos
  let delegation ← expect pos.delegation (.panic "nil delegation")
  let v ← valAddressFromBech32 K delegation.validatorAddress bech32Error
  let newShares ← delegate K del v msg.amount
  setPosition K pos.toPosition none
  emit (.positionAmountAdded pos.id pos.tierId pos.owner newShares msg.amount)
  return ⟨pos.id⟩

def triggerExitFromTier (msg : MsgTriggerExitFromTier) : M σ TriggerExitResponse := do
  fromOutcome (msg.validate K.accCodec)
  let pos ← getPositionState K msg.positionId
  validateTriggerExit pos.toPosition msg.owner
  let tier ← getTier pos.tierId
  let w ← get
  let exiting := pos.toPosition.triggerExit w.ctx.blockTime tier.exitDuration
  setPosition K exiting none
  emit (.exitTriggered exiting.id exiting.tierId exiting.owner exiting.exitUnlockAt)
  return ⟨exiting.exitUnlockAt, exiting.id⟩

/-- `msgServer.ClearPosition` for a position that is exiting. -/
def clearExitingPosition (pos : PositionState) : M σ PositionResponse := do
  let (pos, _, _) ← claimRewards K pos
  let w ← get
  let cleared := pos.clearExit w.ctx.blockTime
  setPosition K cleared.toPosition none
  emit (.exitCleared cleared.id cleared.tierId cleared.owner)
  return ⟨cleared.id⟩

def clearPosition (msg : MsgClearPosition) : M σ PositionResponse := do
  fromOutcome (msg.validate K.accCodec)
  let pos ← getPositionState K msg.positionId
  validateClearPosition K pos msg.owner
  if pos.hasTriggeredExit then clearExitingPosition K pos else return ⟨pos.id⟩

/-- The first loop of `ClaimTierRewards`: load the positions and check their owner. -/
def loadClaimedPositions (owner : String) : List ℕ → M σ (List PositionState)
  | [] => pure []
  | id :: ids => do
    let pos ← getPositionState K id
    validateClaimRewards pos.toPosition owner
    let positions ← loadClaimedPositions owner ids
    return pos :: positions

def claimTierRewards (msg : MsgClaimTierRewards) : M σ ClaimTierRewardsResponse := do
  fromOutcome (msg.validate K.accCodec)
  let positions ← loadClaimedPositions K msg.owner msg.positionIds
  let (totalBase, totalBonus) ← claimRewardsAndUpdatesPositions K positions ∅ ∅
  emit (.tierRewardsClaimed msg.owner msg.positionIds totalBase totalBonus)
  return ⟨totalBase, totalBonus, msg.positionIds⟩

def withdrawFromTier (msg : MsgWithdrawFromTier) : M σ WithdrawFromTierResponse := do
  fromOutcome (msg.validate K.accCodec)
  let pos ← getPositionState K msg.positionId
  validateWithdrawFromTier K pos msg.owner
  let owner ← accAddressFromBech32 K pos.owner invalidOwnerAddress
  let del ← accAddressFromBech32 K pos.delegatorAddress invalidDelegatorAddress
  let balances ← sweepBalances K del owner
  deletePosition K pos.toPosition none
  emit (.positionWithdrawn pos.toPosition balances)
  return ⟨balances⟩

/-- The full exit of `ExitTierWithDelegation`: sweep what is left and delete the position. -/
def exitFully (owner : String) (pos : PositionState) (validator : String) : M σ PUnit := do
  let ownerAddr ← accAddressFromBech32 K owner bech32Error
  let del ← accAddressFromBech32 K pos.delegatorAddress invalidDelegatorAddress
  let _ ← sweepBalances K del ownerAddr
  deletePosition K pos.toPosition (some ⟨validator⟩)

/-- The partial exit of `ExitTierWithDelegation`: what is left has to meet the tier's minimum. -/
def exitPartially (pos : PositionState) (v : ValAddress) (remainingShares : Dec) : M σ PUnit := do
  let remainingPositionAmount ← reconcileAmountFromShares K v remainingShares
  let tier ← getTier pos.tierId
  ensure (tier.meetsMinLockRequirement remainingPositionAmount)
    (.registered .minLockAmountNotMet "remaining amount %s is below tier minimum %s"
      [.int remainingPositionAmount, .int tier.minLockAmount])
  setPosition K pos.toPosition none

def exitTierWithDelegation (msg : MsgExitTierWithDelegation) :
    M σ ExitTierWithDelegationResponse := do
  fromOutcome (msg.validate K.accCodec)
  let pos ← getPositionState K msg.positionId
  validateExitTierWithDelegation K pos msg.owner msg.amount
  let (pos, _, _) ← claimRewards K pos
  let delegation ← expect pos.delegation (.panic "nil delegation")
  let v ← valAddressFromBech32 K delegation.validatorAddress bech32Error
  let positionAmount ← reconcileAmountFromShares K v delegation.shares
  let (transferredShares, unbondedShares, transferredAmount) ←
    transferDelegationFromPosition K pos v msg.amount
  let fullExit := pos.exitWithFullDelegation msg.amount positionAmount
  if fullExit then exitFully K msg.owner pos delegation.validatorAddress
  else exitPartially K pos v (delegation.shares - unbondedShares)
  emit (.exitTierWithDelegation pos.id pos.tierId msg.owner delegation.validatorAddress
    transferredAmount transferredShares fullExit)
  return ⟨pos.id, transferredAmount, transferredShares, fullExit⟩

/-! ### Handlers of the authority's messages -/

def requireAuthority (msgAuthority : String) : M σ PUnit :=
  ensure (decide (K.authority = msgAuthority))
    (.registered .invalidSigner "invalid authority; expected %s, got %s"
      [.str K.authority, .str msgAuthority])

def setParams (params : Params) : M σ PUnit := do
  fromOutcome params.validate
  modifyStore fun s ↦ { s with params := some params }

def updateParams (msg : MsgUpdateParams) : M σ PUnit := do
  requireAuthority K msg.authority
  setParams msg.params

def addTier (msg : MsgAddTier) : M σ PUnit := do
  requireAuthority K msg.authority
  let w ← get
  ensure (w.store.tiers[msg.tier.id]?).isNone (.registered .tierAlreadyExists)
  setTier msg.tier
  emit (.tierChanged .new msg.tier)

def updateTier (msg : MsgUpdateTier) : M σ PUnit := do
  requireAuthority K msg.authority
  let oldTier ← getTier msg.tier.id
  if oldTier.bonusApy ≠ msg.tier.bonusApy then claimRewardsAndUpdateTierPositions K msg.tier.id
  setTier msg.tier
  emit (.tierChanged .update msg.tier)

/-- `msgServer.DeleteTier`. -/
def deleteTierMsg (msg : MsgDeleteTier) : M σ PUnit := do
  requireAuthority K msg.authority
  let tier ← getTier msg.id
  deleteTier msg.id
  emit (.tierChanged .delete tier)

/-! ### Delivery -/

inductive Msg
  | lockTier (msg : MsgLockTier)
  | commitDelegationToTier (msg : MsgCommitDelegationToTier)
  | tierUndelegate (msg : MsgTierUndelegate)
  | tierRedelegate (msg : MsgTierRedelegate)
  | addToTierPosition (msg : MsgAddToTierPosition)
  | triggerExitFromTier (msg : MsgTriggerExitFromTier)
  | clearPosition (msg : MsgClearPosition)
  | claimTierRewards (msg : MsgClaimTierRewards)
  | withdrawFromTier (msg : MsgWithdrawFromTier)
  | exitTierWithDelegation (msg : MsgExitTierWithDelegation)
  | updateParams (msg : MsgUpdateParams)
  | addTier (msg : MsgAddTier)
  | updateTier (msg : MsgUpdateTier)
  | deleteTier (msg : MsgDeleteTier)

/-- The `cosmos.msg.v1.signer` field of a message. -/
def Msg.signer : Msg → String
  | .lockTier msg => msg.owner
  | .commitDelegationToTier msg => msg.delegatorAddress
  | .tierUndelegate msg => msg.owner
  | .tierRedelegate msg => msg.owner
  | .addToTierPosition msg => msg.owner
  | .triggerExitFromTier msg => msg.owner
  | .clearPosition msg => msg.owner
  | .claimTierRewards msg => msg.owner
  | .withdrawFromTier msg => msg.owner
  | .exitTierWithDelegation msg => msg.owner
  | .updateParams msg => msg.authority
  | .addTier msg => msg.authority
  | .updateTier msg => msg.authority
  | .deleteTier msg => msg.authority

/-- The handler of a message, with its response left out. -/
def handle : Msg → M σ PUnit
  | .lockTier msg => do let _ ← lockTier K msg
  | .commitDelegationToTier msg => do let _ ← commitDelegationToTier K msg
  | .tierUndelegate msg => do let _ ← tierUndelegate K msg
  | .tierRedelegate msg => do let _ ← tierRedelegate K msg
  | .addToTierPosition msg => do let _ ← addToTierPosition K msg
  | .triggerExitFromTier msg => do let _ ← triggerExitFromTier K msg
  | .clearPosition msg => do let _ ← clearPosition K msg
  | .claimTierRewards msg => do let _ ← claimTierRewards K msg
  | .withdrawFromTier msg => do let _ ← withdrawFromTier K msg
  | .exitTierWithDelegation msg => do let _ ← exitTierWithDelegation K msg
  | .updateParams msg => updateParams K msg
  | .addTier msg => addTier K msg
  | .updateTier msg => updateTier K msg
  | .deleteTier msg => deleteTierMsg K msg

/-- Run a message the way a transaction does: the writes of a failed message are dropped. -/
def deliver (msg : Msg) (w : World σ) : Except Err PUnit × World σ := atomically (handle K msg) w

end ChainMain.TieredRewards
