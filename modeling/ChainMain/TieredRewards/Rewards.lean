import ChainMain.TieredRewards.Positions

/-!
# Validator events and the lazy bonus

The keeper functions of `validator_events.go`, `bonus_rewards.go` and `claim_rewards.go`. A
validator event is stored once, with the number of positions that have to replay it; each position
replays the events above its `LastEventSeq` when it settles, and the last one to do so removes the
event.

`processEventsAndClaimBonus` works on a position held in memory and on the store at once. What it
has done to either stays when it returns an error, which the caller that swallows
`ErrInsufficientBonusPool` relies on; it is therefore a `StateM` computation that returns the
position together with its outcome.
-/

set_option autoImplicit false

namespace ChainMain.TieredRewards

open Foundations Decimal OrderedStore StoreProgram

def rewardsPoolName : String := "rewards_pool"

/-! ### Validator events -/

/-- `decrementEventRefCount`, on the event log: the last reference removes the event. -/
def decrementRefCount (events : Map (ValAddress × ℕ) ValidatorEvent) (v : ValAddress) (seq : ℕ) :
    Map (ValAddress × ℕ) ValidatorEvent :=
  match events[(v, seq)]? with
  | none => events
  | some event =>
    if event.referenceCount ≤ 1 then events.erase (v, seq)
    else events.insert (v, seq) { event with referenceCount := event.referenceCount - 1 }

namespace Store

/-- `appendValidatorEvent`, with `incrementValidatorEventSeq`. -/
def appendValidatorEvent (s : Store) (v : ValAddress) (event : ValidatorEvent) : Store :=
  let seq := s.getValidatorEventLatestSeq v + 1
  { s with
    validatorEventSeq := s.validatorEventSeq.insert v seq
    validatorEvents := s.validatorEvents.insert (v, seq) event }

/-- `getValidatorEventsSince`: the events of a validator above a sequence number, in ascending
order. -/
def getValidatorEventsSince (s : Store) (v : ValAddress) (startSeq : ℕ) : List EventEntry :=
  (s.validatorEvents.toList.filter fun entry ↦
    entry.1.1 == v && decide (startSeq < entry.1.2)).map fun entry ↦ ⟨entry.1.2, entry.2⟩

def hasValidatorEvents (s : Store) (v : ValAddress) : Bool :=
  s.validatorEvents.toList.any fun entry ↦ entry.1.1 == v

end Store

/-! ### Bonus of one segment -/

def Position.applyBonusAccrualCheckpoint (p : Position) (blockTime : Time) : Position :=
  { p with
    lastBonusAccrual :=
      if p.completedExitLockDuration blockTime then p.exitUnlockAt else blockTime }

/-- The end of a segment in `computeSegmentBonus`: no bonus accrues after the unlock time. -/
def Position.capSegmentEnd (p : Position) (segmentEnd : Time) : Time :=
  if p.exitUnlockAt ≠ 0 ∧ p.exitUnlockAt < segmentEnd then p.exitUnlockAt else segmentEnd

/-- `computeSegmentBonus` for a position with the given delegation shares. -/
def computeSegmentBonus (p : Position) (shares : Dec) (tier : Tier) (segmentStart segmentEnd : Time)
    (tokensPerShare : Dec) : ℤ :=
  let segmentEnd := p.capSegmentEnd segmentEnd
  if segmentEnd ≤ segmentStart then 0
  else
    let durationSeconds := (Time.sub segmentEnd segmentStart).tdiv second
    if durationSeconds ≤ 0 then 0
    else
      (((shares.mul tokensPerShare).mul tier.bonusApy).mulInt durationSeconds |>.quoInt
        secondsPerYear).truncateInt

variable {σ : Type} (K : Keepers σ)

def sufficientBonusPoolBalance (bonus : Coins) : M σ PUnit :=
  if bonus.isZero then pure ⟨⟩
  else do
    let w ← get
    let poolBalance := K.balances w.ext (K.moduleAddress rewardsPoolName)
    ensure (poolBalance.isAllGTE bonus)
      (.registered .insufficientBonusPool "bonus: %s, pool balance: %s"
        [.coins bonus, .coins poolBalance])

/-! ### Replaying the pending events -/

/-- The local variables of the replay loop. -/
structure Replay where
  totalBonus : ℤ
  bonded : Bool
  segmentStart : Time
  lastEventSeq : ℕ

/-- The replay starts from the checkpoints of the position. -/
def Replay.start (p : Position) : Replay :=
  ⟨0, p.lastKnownBonded, p.lastBonusAccrual, p.lastEventSeq⟩

def ValidatorEventType.bondedAfter : ValidatorEventType → Bool → Bool
  | .unbond, _ => false
  | .bond, _ => true
  | .slash, bonded => bonded
  | .unspecified, bonded => bonded

/-- The body of the replay loop, apart from the write to the store. -/
def Replay.event (r : Replay) (p : Position) (shares : Dec) (tier : Tier) (entry : EventEntry) :
    Replay where
  totalBonus :=
    if r.bonded then
      r.totalBonus + computeSegmentBonus p shares tier r.segmentStart entry.event.timestamp
        entry.event.tokensPerShare
    else r.totalBonus
  bonded := entry.event.eventType.bondedAfter r.bonded
  segmentStart := entry.event.timestamp
  lastEventSeq := entry.seq

/-- The replay loop over the pending events. -/
def Replay.events (r : Replay) (p : Position) (shares : Dec) (tier : Tier)
    (entries : List EventEntry) : Replay :=
  entries.foldl (fun r entry ↦ r.event p shares tier entry) r

/-- The store after the replay loop: `decrementEventRefCount` for every replayed event. -/
def Store.decrementEvents (s : Store) (v : ValAddress) (entries : List EventEntry) : Store :=
  { s with
    validatorEvents :=
      entries.foldl (fun events entry ↦ decrementRefCount events v entry.seq) s.validatorEvents }

/-- The segment from the last event to the block time, in `processEventsAndClaimBonus`. -/
def Replay.finish (r : Replay) (p : Position) (shares : Dec) (tier : Tier) (valBonded : Bool)
    (currentRate : Dec) (blockTime : Time) : ℤ :=
  if r.bonded && valBonded then
    r.totalBonus + computeSegmentBonus p shares tier r.segmentStart blockTime currentRate
  else r.totalBonus

/-- The checkpoints `processEventsAndClaimBonus` leaves in the position. -/
def Position.afterReplay (p : Position) (r : Replay) (blockTime : Time) : Position :=
  { p.applyBonusAccrualCheckpoint blockTime with
    lastEventSeq := r.lastEventSeq
    lastKnownBonded := r.bonded }

/-- Pay the bonus out of the rewards pool and record it. -/
def payBonus (pos : Position) (totalBonus : ℤ) : M σ Coins :=
  if totalBonus = 0 then pure ∅
  else do
    let w ← get
    ensure (decide (0 ≤ totalBonus)) (.panic "negative coin amount")
    let bonusCoins := Coins.single (K.bondDenom w.ext) totalBonus
    sufficientBonusPoolBalance K bonusCoins
    let owner ← accAddressFromBech32 K pos.owner invalidOwnerAddress
    callUnit fun ctx ext ↦ K.sendCoinsFromModuleToAccount ctx ext rewardsPoolName owner bonusCoins
    emit (.bonusRewardsClaimed pos.id pos.owner bonusCoins)
    return bonusCoins

/-- `processEventsAndClaimBonus`: the position as it stands in memory afterwards, and the outcome.
The position is left alone by the checks that come before the replay loop; the lookup of the
validator comes after it. -/
def processEventsAndClaimBonus (pos : PositionState) :
    StateM (World σ) (PositionState × Except Err Coins) := do
  match pos.delegation with
  | none => return (pos, .ok ∅)
  | some del =>
    match K.valCodec.stringToBytes del.validatorAddress with
    | none => return (pos, .error bech32Error)
    | some v =>
      let w ← get
      match w.store.tiers[pos.tierId]? with
      | none => return (pos, .error (.registered .tierNotFound "tier id %d" [.nat pos.tierId]))
      | some tier =>
        let entries := w.store.getValidatorEventsSince v pos.lastEventSeq
        let replay := (Replay.start pos.toPosition).events pos.toPosition del.shares tier entries
        set { w with store := w.store.decrementEvents v entries }
        match (K.staking w.ext).validators[v]? with
        | none =>
          return (pos.withPosition { pos.toPosition with lastEventSeq := replay.lastEventSeq },
            .error (.registered .noValidatorFound))
        | some val =>
          let totalBonus := replay.finish pos.toPosition del.shares tier val.isBonded
            val.tokensPerShare w.ctx.blockTime
          let pos := pos.withPosition (pos.toPosition.afterReplay replay w.ctx.blockTime)
          let outcome ← (payBonus K pos.toPosition totalBonus).run
          return (pos, outcome)

/-- A call of `processEventsAndClaimBonus` whose error the caller returns. -/
def claimBonus (pos : PositionState) : M σ (PositionState × Coins) := do
  let (pos, outcome) ← always (processEventsAndClaimBonus K pos)
  let bonus ← fromOutcome outcome
  return (pos, bonus)

/-! ### Claiming -/

def claimBaseRewards (pos : PositionState) : M σ Coins :=
  match pos.delegation with
  | none => pure ∅
  | some del => do
    let v ← valAddressFromBech32 K del.validatorAddress bech32Error
    let posDelAddr ← accAddressFromBech32 K pos.delegatorAddress invalidDelegatorAddress
    let rewards ← call fun ctx ext ↦ K.withdrawDelegationRewards ctx ext posDelAddr v
    if ¬ rewards.isZero then emit (.baseRewardsClaimed pos.id pos.owner rewards)
    return rewards

def claimRewards (pos : PositionState) : M σ (PositionState × Coins × Coins) :=
  if pos.isDelegated then do
    let base ← claimBaseRewards K pos
    let (pos, bonus) ← claimBonus K pos
    return (pos, base, bonus)
  else pure (pos, ∅, ∅)

/-- Settle one delegated position and store it: the body of the loops of
`claimRewardsAndUpdateTierPositions` and `claimRewardsAndUpdatesPositions`. -/
def claimRewardsAndUpdatePosition (pos : PositionState) : M σ (Coins × Coins) :=
  if pos.isDelegated then do
    let base ← claimBaseRewards K pos
    let (pos, bonus) ← claimBonus K pos
    setPosition K pos.toPosition none
    return (base, bonus)
  else pure (∅, ∅)

/-- The loop of `claimRewardsAndUpdateTierPositions`, over the ids of the tier's positions. -/
def claimRewardsAndUpdatePositionIds : List ℕ → M σ PUnit
  | [] => pure ⟨⟩
  | id :: ids => do
    let pos ← getPositionState K id
    let _ ← claimRewardsAndUpdatePosition K pos
    claimRewardsAndUpdatePositionIds ids

def claimRewardsAndUpdateTierPositions (tierId : ℕ) : M σ PUnit := do
  let w ← get
  claimRewardsAndUpdatePositionIds K (w.store.getPositionsIdsByTier tierId)

/-- `claimRewardsAndUpdatesPositions`, with the totals so far. -/
def claimRewardsAndUpdatesPositions : List PositionState → Coins → Coins → M σ (Coins × Coins)
  | [], totalBase, totalBonus => pure (totalBase, totalBonus)
  | pos :: positions, totalBase, totalBonus => do
    let (base, bonus) ← claimRewardsAndUpdatePosition K pos
    claimRewardsAndUpdatesPositions positions (totalBase.add base) (totalBonus.add bonus)

end ChainMain.TieredRewards
