import ChainMain.TieredRewards.Keepers

/-!
# Positions, their indexes and their delegation

The keeper functions of `tier.go`, `delegation.go`, `position.go`, `position_state.go` and
`redelegation_mapping.go`: reading a position together with its live staking delegation, writing and
deleting it, and keeping the secondary indexes and the two position counters in step.

`setPosition` is the only writer of `Positions`. The counter by validator is not derived from the
write: the caller passes the previous validator in a `ValidatorTransition`.
-/

set_option autoImplicit false

namespace ChainMain.TieredRewards

open Foundations Decimal OrderedStore StoreProgram

/-! ### Checks of a position -/

def Position.validate (acc : AddressCodec) (p : Position) : Except Err Unit :=
  if (acc.stringToBytes p.owner).isNone then .error invalidOwnerAddress
  else if (acc.stringToBytes p.delegatorAddress).isNone then .error invalidDelegatorAddress
  else if p.exitTriggeredAt = 0 ∧ p.exitUnlockAt ≠ 0 then
    .error (.message "exit_unlock_at must not be set for a position that is not exiting")
  else if p.exitTriggeredAt ≠ 0 ∧ ¬ p.exitTriggeredAt < p.exitUnlockAt then
    .error (.message "exit_unlock_at must be after exit_triggered_at")
  else if p.createdAtHeight = 0 then .error (.message "created_at_height must be positive")
  else if p.createdAtTime = 0 then .error (.message "created_at_time must be non-zero")
  else .ok ()

/-- The part of `PositionState.Validate` that compares the bonus checkpoints with the delegation. -/
def PositionState.validateDelegation (val : AddressCodec) (p : PositionState) : Except Err Unit :=
  match p.delegation with
  | some del =>
    if (val.stringToBytes del.validatorAddress).isNone then
      .error (.wrap "invalid validator address: %w" [] bech32Error)
    else if del.delegatorAddress ≠ p.delegatorAddress then
      .error (.message
        "delegation delegator address %q does not match position delegator_address %q (position %d)"
        [.str del.delegatorAddress, .str p.delegatorAddress, .nat p.id])
    else if ¬ del.shares.isPositive then
      .error (.message "delegated shares must be positive when position is delegated")
    else if p.lastBonusAccrual = 0 then
      .error (.message "last_bonus_accrual must be non-zero when position is delegated")
    else .ok ()
  | none =>
    if p.lastBonusAccrual ≠ 0 then
      .error (.message "last_bonus_accrual must be zero when position is undelegated")
    else if p.lastEventSeq ≠ 0 then
      .error (.message "last_event_seq must be zero when position is undelegated")
    else if p.lastKnownBonded then
      .error (.message "last_known_bonded must be false when position is undelegated")
    else .ok ()

def PositionState.validate (acc val : AddressCodec) (p : PositionState) : Except Err Unit := do
  p.toPosition.validate acc
  p.validateDelegation val

variable {σ : Type} (K : Keepers σ)

/-! ### Tiers -/

def getTier (id : ℕ) : M σ Tier := do
  let w ← get
  expect w.store.tiers[id]? (.registered .tierNotFound "tier id %d" [.nat id])

def setTier (tier : Tier) : M σ PUnit := do
  fromOutcome tier.validate
  modifyStore fun s ↦ { s with tiers := s.tiers.insert tier.id tier }

def Store.getPositionCountForTier (s : Store) (tierId : ℕ) : ℕ :=
  (s.positionCountByTier[tierId]?).getD 0

def Store.hasPositionsForTier (s : Store) (tierId : ℕ) : Bool :=
  decide (0 < s.getPositionCountForTier tierId)

def deleteTier (tierId : ℕ) : M σ PUnit := do
  let w ← get
  ensure (!w.store.hasPositionsForTier tierId) (.registered .tierHasActivePositions)
  modifyStore fun s ↦ { s with tiers := s.tiers.erase tierId }

def Store.increasePositionCountForTier (s : Store) (tierId : ℕ) : Store :=
  { s with positionCountByTier := increaseCount s.positionCountByTier tierId }

def Store.decreasePositionCountForTier (s : Store) (tierId : ℕ) : Store :=
  { s with positionCountByTier := decreaseCount s.positionCountByTier tierId }

def Store.getPositionCountForValidator (s : Store) (v : ValAddress) : ℕ :=
  (s.positionCountByValidator[v]?).getD 0

def Store.increasePositionCountForValidator (s : Store) (v : ValAddress) : Store :=
  { s with positionCountByValidator := increaseCount s.positionCountByValidator v }

def Store.decreasePositionCountForValidator (s : Store) (v : ValAddress) : Store :=
  { s with positionCountByValidator := decreaseCount s.positionCountByValidator v }

/-! ### Delegations -/

def getValidator (v : ValAddress) : M σ Validator := do
  let w ← get
  expect (K.staking w.ext).validators[v]? (.registered .noValidatorFound)

/-- The rate of one share, in `getTokensPerShare`. -/
def Validator.tokensPerShare (val : Validator) : Dec :=
  if val.delegatorShares.isZero then 0 else val.tokensFromShares 1

def getTokensPerShare (v : ValAddress) : M σ Dec := do
  let val ← getValidator K v
  return val.tokensPerShare

def reconcileAmountFromShares (v : ValAddress) (shares : Dec) : M σ ℤ := do
  let val ← getValidator K v
  return if val.delegatorShares.isZero then 0 else (val.tokensFromShares shares).truncateInt

def delegate (del : AccAddress) (v : ValAddress) (amount : ℤ) : M σ Dec := do
  let val ← getValidator K v
  ensure val.isBonded (.registered .validatorNotBonded)
  call fun ctx ext ↦ K.delegate ctx ext del amount .unbonded v true

/-- What `GetDelegatorDelegations(ctx, del, 1)` and `dels[0]` give: the first delegation of a
delegator, with the addresses in the spelling staking writes. -/
def firstDelegation (staking : Staking) (del : AccAddress) : Option Delegation :=
  (staking.delegationsOf del).head?.map fun entry ↦
    { delegatorAddress := K.accCodec.bytesToString del
      validatorAddress := K.valCodec.bytesToString entry.1
      shares := entry.2 }

def getDelegation (delegatorAddress : String) : M σ (Option Delegation) := do
  let del ← accAddressFromBech32 K delegatorAddress invalidDelegatorAddress
  let w ← get
  return firstDelegation K (K.staking w.ext) del

def isRedelegating (delegatorAddress : String) : M σ Bool := do
  let del ← accAddressFromBech32 K delegatorAddress invalidDelegatorAddress
  let w ← get
  return !((K.staking w.ext).redelegationsOf del).isEmpty

def isUnbonding (delegatorAddress : String) : M σ Bool := do
  let del ← accAddressFromBech32 K delegatorAddress invalidDelegatorAddress
  let w ← get
  return !((K.staking w.ext).unbondingDelegationsOf del).isEmpty

/-! ### Reading positions -/

def getPosition (id : ℕ) : M σ Position := do
  let w ← get
  expect w.store.positions[id]? (.registered .positionNotFound "position id %d" [.nat id])

def getPositionState (id : ℕ) : M σ PositionState := do
  let pos ← getPosition id
  let del ← getDelegation K pos.delegatorAddress
  return { toPosition := pos, delegation := del }

def getDelegatedAmount (del : Delegation) : M σ ℤ := do
  let v ← valAddressFromBech32 K del.validatorAddress bech32Error
  reconcileAmountFromShares K v del.shares

def getUndelegatedAmount (delegatorAddress : String) : M σ ℤ := do
  let del ← accAddressFromBech32 K delegatorAddress invalidDelegatorAddress
  let w ← get
  match (K.staking w.ext).unbondingDelegationsOf del with
  | (entry :: _) :: _ => return entry.balance
  | _ => return (K.spendableCoins w.ext del).amountOf (K.bondDenom w.ext)

def getPositionAmount (pos : PositionState) : M σ ℤ :=
  match pos.delegation with
  | some del => getDelegatedAmount K del
  | none => getUndelegatedAmount K pos.delegatorAddress

/-- `getPositionsIdsByOwner`: the ids below an owner's prefix, in key order. -/
def Store.getPositionsIdsByOwner (s : Store) (owner : AccAddress) : List ℕ :=
  (s.positionsByOwner.keys.filter fun key ↦ key.1 == owner).map Prod.snd

def Store.getPositionsIdsByTier (s : Store) (tierId : ℕ) : List ℕ :=
  (s.positionsByTier.keys.filter fun key ↦ key.1 == tierId).map Prod.snd

/-! ### Writing positions -/

/-- `ValidatorTransition`: the validator a position was delegated to before, `""` for none. -/
structure ValidatorTransition where
  previousAddress : String

def reindexPositionCountByValidator (src dst : String) : M σ PUnit :=
  if src = dst then pure ⟨⟩
  else do
    if src ≠ "" then
      let v ← valAddressFromBech32 K src bech32Error
      modifyStore fun s ↦ s.decreasePositionCountForValidator v
    if dst ≠ "" then
      let v ← valAddressFromBech32 K dst bech32Error
      modifyStore fun s ↦ s.increasePositionCountForValidator v

/-- The tail of `setPositionWithState` and `deletePosition`: without a transition the counter by
validator is left alone, otherwise it follows the position to the validator it is on now. -/
def applyTransition (update : Option ValidatorTransition) (currVal : String) : M σ PUnit :=
  match update with
  | none => pure ⟨⟩
  | some update => reindexPositionCountByValidator K update.previousAddress currVal

/-- The index writes of a position that is stored for the first time. -/
def indexNewPosition (pos : Position) : M σ PUnit := do
  let owner ← accAddressFromBech32 K pos.owner invalidOwnerAddress
  modifyStore fun s ↦ { s with positionsByOwner := s.positionsByOwner.insert (owner, pos.id) () }
  modifyStore fun s ↦ { s with positionsByTier := s.positionsByTier.insert (pos.tierId, pos.id) () }
  modifyStore fun s ↦ s.increasePositionCountForTier pos.tierId

/-- The index writes of a position that replaces `oldPos`. -/
def reindexPosition (oldPos pos : Position) : M σ PUnit := do
  if oldPos.owner ≠ pos.owner then
    let oldOwner ← accAddressFromBech32 K oldPos.owner invalidOwnerAddress
    modifyStore fun s ↦ { s with positionsByOwner := s.positionsByOwner.erase (oldOwner, pos.id) }
    let newOwner ← accAddressFromBech32 K pos.owner invalidOwnerAddress
    modifyStore fun s ↦
      { s with positionsByOwner := s.positionsByOwner.insert (newOwner, pos.id) () }
  if oldPos.tierId ≠ pos.tierId then
    modifyStore fun s ↦
      { s with positionsByTier := s.positionsByTier.erase (oldPos.tierId, pos.id) }
    modifyStore fun s ↦
      { s with positionsByTier := s.positionsByTier.insert (pos.tierId, pos.id) () }
    modifyStore fun s ↦ s.decreasePositionCountForTier oldPos.tierId
    modifyStore fun s ↦ s.increasePositionCountForTier pos.tierId

/-- The index writes of a position, given what was stored under its id. -/
def indexPosition (oldPos : Option Position) (pos : Position) : M σ PUnit :=
  match oldPos with
  | none => indexNewPosition K pos
  | some oldPos => reindexPosition K oldPos pos

def setPositionWithState (state : PositionState) (update : Option ValidatorTransition) :
    M σ PUnit := do
  fromOutcome (state.validate K.accCodec K.valCodec)
  let pos := state.toPosition
  let w ← get
  let oldPos := w.store.positions[pos.id]?
  modifyStore fun s ↦ { s with positions := s.positions.insert pos.id pos }
  indexPosition K oldPos pos
  applyTransition K update ((state.delegation.map Delegation.validatorAddress).getD "")

def setPosition (pos : Position) (update : Option ValidatorTransition) : M σ PUnit := do
  let del ← getDelegation K pos.delegatorAddress
  setPositionWithState K { toPosition := pos, delegation := del } update

/-- `deletePositionRedelegationMappings`: remove every mapping to the position. -/
def deletePositionRedelegationMappings (positionId : ℕ) : M σ PUnit :=
  modifyStore fun s ↦
    { s with
      redelegationMappings :=
        ((s.redelegationMappings.toList.filter fun entry ↦ entry.2 == positionId).map
          Prod.fst).foldl (fun mappings id ↦ mappings.erase id) s.redelegationMappings }

/-- The check of `deletePosition` that the position has no delegation left. -/
def rejectDelegated (id : ℕ) : Option Delegation → M σ PUnit
  | none => pure ⟨⟩
  | some del =>
    throw (.registered .positionDelegated
      "cannot delete position %d: still has active delegation to %s"
      [.nat id, .str del.validatorAddress])

def deletePosition (pos : Position) (update : Option ValidatorTransition) : M σ PUnit := do
  let owner ← accAddressFromBech32 K pos.owner invalidOwnerAddress
  let delAddr ← accAddressFromBech32 K pos.delegatorAddress invalidDelegatorAddress
  let del ← getDelegation K pos.delegatorAddress
  rejectDelegated pos.id del
  callUnit fun ctx ext ↦ K.deleteDelegatorWithdrawAddr ctx ext delAddr owner
  deletePositionRedelegationMappings pos.id
  modifyStore fun s ↦ { s with positions := s.positions.erase pos.id }
  modifyStore fun s ↦ { s with positionsByOwner := s.positionsByOwner.erase (owner, pos.id) }
  modifyStore fun s ↦ { s with positionsByTier := s.positionsByTier.erase (pos.tierId, pos.id) }
  modifyStore fun s ↦ s.decreasePositionCountForTier pos.tierId
  applyTransition K update ""

/-! ### Creating positions -/

def maxPositionAddressDerivationAttempts : ℕ := 10

def derivePositionDelegatorAddress (headerHash : List UInt8) (owner : AccAddress) (id nonce : ℕ) :
    AccAddress :=
  K.addressModule "tieredrewards/position" headerHash owner id nonce

/-- The attempts of `createPositionDelegatorAccount` that are left. -/
def tryPositionDelegatorAddresses (owner : AccAddress) (id nonce : ℕ) : ℕ → M σ AccAddress
  | 0 =>
    throw
      (.registered .positionAddressDerivation "could not create a free position delegator account")
  | attempts + 1 => do
    let w ← get
    let addr := derivePositionDelegatorAddress K w.ctx.headerHash owner id nonce
    if (K.account w.ext addr).isSome then
      tryPositionDelegatorAddresses owner id (nonce + 1) attempts
    else
      modify fun w ↦ { w with ext := K.newAccount w.ext addr }
      return addr

def createPositionDelegatorAccount (owner : AccAddress) (id : ℕ) : M σ AccAddress :=
  tryPositionDelegatorAddresses K owner id 0 maxPositionAddressDerivationAttempts

def Store.getValidatorEventLatestSeq (s : Store) (v : ValAddress) : ℕ :=
  (s.validatorEventSeq[v]?).getD 0

def createDelegatedPosition (owner : String) (tier : Tier) (v : ValAddress) (del : AccAddress)
    (triggerExitImmediately : Bool) : M σ Position := do
  let w ← get
  let id := w.store.nextPositionId
  modifyStore fun s ↦ { s with nextPositionId := id + 1 }
  let lastEventSeq := w.store.getValidatorEventLatestSeq v
  let blockTime := w.ctx.blockTime
  let blockHeight := w.ctx.blockHeight.toNat
  let pos := Position.new id owner tier.id (K.accCodec.bytesToString del) blockHeight lastEventSeq
    blockTime true blockTime
  let ownerAddr ← accAddressFromBech32 K owner bech32Error
  callUnit fun ctx ext ↦ K.setWithdrawAddr ctx ext del ownerAddr
  return if triggerExitImmediately then pos.triggerExit blockTime tier.exitDuration else pos

def lockFunds (owner del : AccAddress) (amount : ℤ) : M σ PUnit :=
  callUnit fun ctx ext ↦ K.sendCoins ctx ext owner del (Coins.single (K.bondDenom ext) amount)

end ChainMain.TieredRewards
