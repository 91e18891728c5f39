import ChainMain.TieredRewards.Rewards

/-!
# Staking hooks

The hooks of `hooks.go` that do something, and `slashRedelegationPosition`. The three hooks that
record a validator event differ in the type of the event only.
-/

set_option autoImplicit false

namespace ChainMain.TieredRewards

open Foundations Decimal OrderedStore StoreProgram

variable {σ : Type} (K : Keepers σ)

/-! ### Recording validator events -/

/-- Record an event of a validator that some position is delegated to. -/
def recordValidatorEvent (eventType : ValidatorEventType) (v : ValAddress) : M σ PUnit := do
  let w ← get
  let count := w.store.getPositionCountForValidator v
  if count ≠ 0 then
    let tokensPerShare ← getTokensPerShare K v
    modifyStore fun s ↦ s.appendValidatorEvent v
      { height := w.ctx.blockHeight
        timestamp := w.ctx.blockTime
        eventType := eventType
        tokensPerShare := tokensPerShare
        referenceCount := count }

def afterValidatorBeginUnbonding (v : ValAddress) : M σ PUnit := recordValidatorEvent K .unbond v

def afterValidatorBonded (v : ValAddress) : M σ PUnit := recordValidatorEvent K .bond v

/-- `Hooks.BeforeValidatorSlashed`; the fraction is not used. -/
def beforeValidatorSlashed (v : ValAddress) (_fraction : Dec) : M σ PUnit :=
  recordValidatorEvent K .slash v

/-- `Hooks.AfterValidatorRemoved` with `deleteValidatorEventSeq`: the sequence goes only when no
event is left. -/
def Store.afterValidatorRemoved (s : Store) (v : ValAddress) : Store :=
  { s with
    validatorEventSeq :=
      if s.hasValidatorEvents v then s.validatorEventSeq else s.validatorEventSeq.erase v }

/-- `Hooks.AfterValidatorRemoved`, which never returns an error. -/
def afterValidatorRemoved (v : ValAddress) : M σ PUnit :=
  modifyStore fun s ↦ s.afterValidatorRemoved v

/-- The hook calls for the validators a staking operation has removed. -/
def afterValidatorsRemoved (removed : List ValAddress) : M σ PUnit :=
  modifyStore fun s ↦ removed.foldl Store.afterValidatorRemoved s

/-! ### Redelegations -/

/-- `Delegation` with some shares taken off, in `slashRedelegationPosition`. -/
def Delegation.subShares (del : Delegation) (shares : Dec) : Delegation :=
  { del with shares := del.shares - shares }

/-- The settlement of `slashRedelegationPosition`, which forgoes the bonus when the pool cannot pay
it. -/
def settleBeforeSlash (pos : PositionState) : M σ PositionState := do
  let (pos, outcome) ← always (processEventsAndClaimBonus K pos)
  match outcome with
  | .ok _ => return pos
  | .error e => if e.is .insufficientBonusPool then return pos else throw e

/-- The writes of `slashRedelegationPosition` for a position that is delegated. -/
def slashDelegatedPosition (pos : PositionState) (del : Delegation) (sharesToUnbond : Dec) :
    M σ PUnit := do
  let pos ← settleBeforeSlash K pos
  if del.shares ≤ sharesToUnbond then
    let pos := { pos with delegation := none }
    setPositionWithState K (pos.withPosition pos.toPosition.clearBonusCheckpoints)
      (some ⟨del.validatorAddress⟩)
  else
    setPositionWithState K { pos with delegation := some (del.subShares sharesToUnbond) } none

def slashRedelegationPosition (unbondingId : ℕ) (sharesToUnbond : Dec) : M σ PUnit := do
  let w ← get
  match w.store.redelegationMappings[unbondingId]? with
  | none => pure ⟨⟩
  | some positionId =>
    if w.store.positions[positionId]?.isNone then pure ⟨⟩
    else do
      let pos ← getPositionState K positionId
      match pos.delegation with
      | none => pure ⟨⟩
      | some del => slashDelegatedPosition K pos del sharesToUnbond

def beforeRedelegationSlashed (unbondingId : ℕ) (sharesToUnbond : Dec) : M σ PUnit :=
  slashRedelegationPosition K unbondingId sharesToUnbond

def afterRedelegationCompleted (completedIds : List ℕ) : M σ PUnit :=
  modifyStore fun s ↦
    { s with
      redelegationMappings :=
        completedIds.foldl (fun mappings id ↦ mappings.erase id) s.redelegationMappings }

end ChainMain.TieredRewards
