import ChainMain.TieredRewards.RewardSpecs

/-!
# The ledger: positions over live stake

What the module is for, without the keepers: a ledger of positions whose stake is held outside, in
staking, under one account for each position. A `Ledger` is the module's store next to what it sees
of the outside: the stake of an account on a validator, the unmatured redelegation entries, which
accounts are unbonding from which validators, which validators are bonded and which accounts exist.
It also keeps the bonus each position has been paid.

`Ledger.Step` lists what can happen to it. A position is created on fresh stake, settled, has its
stake changed, leaves or moves its stake, and is removed; an exit is triggered and cleared; tiers
are set and deleted; a validator event is recorded. Stake changes only on a settled position: that
is the discipline the lazy bonus rests on, and it stands in the steps as a guard. The outside moves
on its own as long as it does not touch the stake or the redelegations of an account held by a
position, or unbonds it (`Ledger.Frame`).

The keeper's messages and hooks are sequences of these steps: `MessageSteps`, `MessageRuns` and
`ChainRuns` show it.
-/

set_option autoImplicit false

namespace ChainMain.TieredRewards

open Foundations Decimal OrderedStore

/-- The module's store, the block time, and what the module sees of the other modules. -/
structure Ledger where
  store : Store
  now : Time
  stakes : AccAddress → ValAddress → Option Dec
  redelegations : ℕ → Option Redelegation
  unbonding : AccAddress → ValAddress → Bool
  bonded : ValAddress → Bool
  accounts : AccAddress → Bool
  paid : ℕ → ℤ

namespace Ledger

variable (codec : AddressCodec)

/-- An account is held by a stored position. -/
def Held (L : Ledger) (a : AccAddress) : Prop :=
  ∃ (id : ℕ) (p : Position), L.store.positions[id]? = some p ∧
    codec.stringToBytes p.delegatorAddress = some a

/-- The whole stake of an account is `s` shares of the validator `v`. -/
def StakedOn (L : Ledger) (a : AccAddress) (v : ValAddress) (s : Dec) : Prop :=
  ∀ u, L.stakes a u = if u = v then some s else none

def Idle (L : Ledger) (a : AccAddress) : Prop := ∀ u, L.stakes a u = none

/-- An account has no unmatured redelegation entry. -/
def NotRedelegating (L : Ledger) (a : AccAddress) : Prop :=
  ∀ u red, L.redelegations u = some red → red.delegator ≠ a

/-- An account is not unbonding from any validator. -/
def NotUnbonding (L : Ledger) (a : AccAddress) : Prop := ∀ v, L.unbonding a v = false

/-- The redelegation entries of an account are the same in two ledgers. -/
def SameRedelegations (L L' : Ledger) (a : AccAddress) : Prop :=
  ∀ u red, red.delegator = a → (L'.redelegations u = some red ↔ L.redelegations u = some red)

/-- An address without an account owns nothing in staking, and no redelegation entry has id `0`. -/
structure Tidy (L : Ledger) : Prop where
  idle : ∀ a, L.accounts a = false → L.Idle a
  notRedelegating : ∀ a, L.accounts a = false → L.NotRedelegating a
  zero : L.redelegations 0 = none
  notUnbonding : ∀ a, L.accounts a = false → L.NotUnbonding a

/-- What the outside may do on its own: accounts do not go away, and the stake and the redelegations
of the accounts held by positions stay, those of `exempt` apart. A held account begins to unbond
only if it is `exempt` and is left without stake. -/
structure Frame (exempt : Option AccAddress) (L L' : Ledger) : Prop where
  now : L'.now = L.now
  bonded : L'.bonded = L.bonded
  accounts : ∀ a, L.accounts a → L'.accounts a
  paid : L'.paid = L.paid
  stakes : ∀ a, L.Held codec a → exempt ≠ some a → L'.stakes a = L.stakes a
  redelegations : ∀ a, L.Held codec a → exempt ≠ some a → SameRedelegations L L' a
  unbonding : ∀ a v, L.Held codec a → L'.unbonding a v → L.unbonding a v ∨
    exempt = some a ∧ L'.Idle a
  tidy : L'.Tidy

/-- The position has replayed every event of its validator and its bonus is settled up to now. -/
structure Settled (L : Ledger) (p : Position) (v : ValAddress) : Prop where
  seq : p.lastEventSeq = L.store.getValidatorEventLatestSeq v
  bonded : p.lastKnownBonded = L.bonded v
  accrual : p.lastBonusAccrual =
    if p.completedExitLockDuration L.now then p.exitUnlockAt else L.now

/-- A stored position and the account it holds. -/
structure Holds (L : Ledger) (id : ℕ) (p : Position) (a : AccAddress) : Prop where
  stored : L.store.positions[id]? = some p
  account : codec.stringToBytes p.delegatorAddress = some a

/-- The owner of a position has an account that no position holds. -/
structure Owns (L : Ledger) (p : Position) (owner : AccAddress) : Prop where
  decodes : codec.stringToBytes p.owner = some owner
  accountExists : L.accounts owner
  free : ¬ L.Held codec owner

inductive Op
  | outside
  | tick
  | params
  | setTier (tier : Tier)
  | deleteTier (tierId : ℕ)
  | create (id : ℕ) (exiting : Bool)
  | settle (id : ℕ) (v : ValAddress) (rate : Dec) (covered : Bool)
  | reshare (id : ℕ)
  | leave (id : ℕ)
  | move (id : ℕ)
  | remove (id : ℕ)
  | trigger (id : ℕ)
  | clear (id : ℕ)
  | record (v : ValAddress) (eventType : ValidatorEventType) (rate : Dec)
  | status (v : ValAddress) (eventType : ValidatorEventType)
  | dropSeq (v : ValAddress)
  | mature (ids : List ℕ)

/-- A position as `createDelegatedPosition` makes it. -/
structure Fresh (L : Ledger) (p : Position) (v : ValAddress) (tier : Tier) (exiting : Bool) :
    Prop where
  id : p.id = L.store.nextPositionId
  tierStored : L.store.tiers[p.tierId]? = some tier
  seq : p.lastEventSeq = L.store.getValidatorEventLatestSeq v
  accrual : p.lastBonusAccrual = L.now
  bonded : p.lastKnownBonded = true
  exitTriggeredAt : p.exitTriggeredAt = if exiting then L.now else 0
  exitUnlockAt : p.exitUnlockAt = if exiting then L.now + tier.exitDuration else 0

/-- The store with a redelegation entry recorded for a position; id `0` stands for none. -/
def recordRedelegation (s : Store) (unbondingId positionId : ℕ) : Store :=
  { s with
    redelegationMappings :=
      if unbondingId ≠ 0 then s.redelegationMappings.insert unbondingId positionId
      else s.redelegationMappings }

inductive Step : Ledger → Op → Ledger → Prop
  /-- The outside moves on its own. -/
  | outside {L L' : Ledger} (hstore : L'.store = L.store) (hframe : Frame codec none L L') :
      Step L .outside L'
  /-- Time passes. -/
  | tick {L : Ledger} (now : Time) (hnow : L.now ≤ now) : Step L .tick { L with now := now }
  /-- The parameters are set. -/
  | params {L : Ledger} (params : Params) (hvalid : params.validate = .ok ()) :
      Step L .params { L with store := { L.store with params := some params } }
  /-- A tier is set. A change of its rate needs every staked position of the tier to be settled. -/
  | setTier {L : Ledger} (tier : Tier) (hvalid : tier.validate = .ok ())
      (hsettled : ∀ old, L.store.tiers[tier.id]? = some old → old.bonusApy ≠ tier.bonusApy →
        ∀ id p a v s, L.Holds codec id p a → p.tierId = tier.id → L.StakedOn a v s →
          L.Settled p v) :
      Step L (.setTier tier)
        { L with store := { L.store with tiers := L.store.tiers.insert tier.id tier } }
  /-- A tier without positions is deleted. -/
  | deleteTier {L : Ledger} (tierId : ℕ)
      (hempty : ∀ (id : ℕ) (p : Position), L.store.positions[id]? = some p → p.tierId ≠ tierId) :
      Step L (.deleteTier tierId)
        { L with store := { L.store with tiers := L.store.tiers.erase tierId } }
  /-- A position is created on the stake of an account that did not exist. -/
  | create {L L' : Ledger} {p : Position} {a owner : AccAddress} {v : ValAddress} {s : Dec}
      {tier : Tier} (exiting : Bool) (hfresh : L.Fresh p v tier exiting)
      (hvalid : p.validate codec = .ok ())
      (howner : L.Owns codec p owner)
      (haddress : p.delegatorAddress = codec.bytesToString a)
      (hunused : L.accounts a = false) (hused : L'.accounts a) (hbonded : L.bonded v)
      (hshares : 0 < s) (hstake : L'.StakedOn a v s)
      (hnew : L'.NotRedelegating a ∧ L'.NotUnbonding a) (hframe : Frame codec none L L')
      (hstore : L'.store =
        ({ L.store with nextPositionId := L.store.nextPositionId + 1 }.addPosition
        owner p).moveCount none (some v)) :
      Step L (.create p.id exiting) L'
  /-- A staked position replays its pending events. The bonus is paid unless the pool does not cover
  it. -/
  | settle {L : Ledger} {id : ℕ} {p : Position} {a : AccAddress} {v : ValAddress} {s : Dec}
      {tier : Tier} (rate : Dec) (covered : Bool) (hp : L.Holds codec id p a)
      (hstake : L.StakedOn a v s) (htier : L.store.tiers[p.tierId]? = some tier) :
      Step L (.settle id v rate covered)
        { L with
          store := (L.store.replayed p v).putPosition (L.store.settled p s tier v L.now)
          paid :=
            if covered then
              Function.update L.paid id
                (L.paid id + L.store.bonus p s tier v (L.bonded v) rate L.now)
            else L.paid }
  /-- A settled position has its shares changed. -/
  | reshare {L L' : Ledger} {id : ℕ} {p : Position} {a : AccAddress} {v : ValAddress} {s s' : Dec}
      (hp : L.Holds codec id p a) (hstake : L.StakedOn a v s) (hsettled : L.Settled p v)
      (hshares : 0 < s') (hstake' : L'.StakedOn a v s') (hred : SameRedelegations L L' a)
      (hframe : Frame codec (some a) L L') (hstore : L'.store = L.store) :
      Step L (.reshare id) L'
  /-- A settled position loses its stake. -/
  | leave {L L' : Ledger} {id : ℕ} {p : Position} {a : AccAddress} {v : ValAddress} {s : Dec}
      (hp : L.Holds codec id p a) (hstake : L.StakedOn a v s) (hsettled : L.Settled p v)
      (hidle : L'.Idle a) (hred : SameRedelegations L L' a) (hframe : Frame codec (some a) L L')
      (hstore : L'.store = (L.store.putPosition p.clearBonusCheckpoints).moveCount (some v) none) :
      Step L (.leave id) L'
  /-- A settled position takes its stake to another validator, which is bonded. -/
  | move {L L' : Ledger} {id : ℕ} {p : Position} {a : AccAddress} {v v' : ValAddress} {s s' : Dec}
      (unbondingId : ℕ) (hp : L.Holds codec id p a) (hstake : L.StakedOn a v s)
      (hsettled : L.Settled p v) (hopen : p.completedExitLockDuration L.now = false)
      (hne : v ≠ v') (hbonded : L.bonded v') (hshares : 0 < s')
      (hstake' : L'.StakedOn a v' s') (hnone : L.NotRedelegating a)
      (hunused : L.redelegations unbondingId = none)
      (hred : ∀ u red, red.delegator = a →
        (L'.redelegations u = some red ↔ unbondingId ≠ 0 ∧ u = unbondingId ∧ red = ⟨a, v, v'⟩))
      (hframe : Frame codec (some a) L L')
      (hstore : L'.store = ((recordRedelegation L.store unbondingId p.id).putPosition
        (p.updateBonusCheckpoints (L.store.getValidatorEventLatestSeq v') L.now true)).moveCount
          (some v) (some v')) :
      Step L (.move id) L'
  /-- A position without stake is removed. -/
  | remove {L : Ledger} {id : ℕ} {p : Position} {a owner : AccAddress} (hp : L.Holds codec id p a)
      (hidle : L.Idle a) (howner : codec.stringToBytes p.owner = some owner) :
      Step L (.remove id) { L with store := L.store.removePosition owner p }
  /-- An exit is triggered. -/
  | trigger {L : Ledger} {id : ℕ} {p : Position} {a : AccAddress} {tier : Tier}
      (hp : L.Holds codec id p a) (hquiet : p.exitTriggeredAt = 0)
      (htier : L.store.tiers[p.tierId]? = some tier)
      (hvalid : (p.triggerExit L.now tier.exitDuration).validate codec = .ok ()) :
      Step L (.trigger id)
        { L with store := L.store.putPosition (p.triggerExit L.now tier.exitDuration) }
  /-- An exit is cleared; the bonus of a staked position is settled and accrues again from now. -/
  | clear {L : Ledger} {id : ℕ} {p : Position} {a : AccAddress} {accrual : Time}
      (hp : L.Holds codec id p a)
      (hcase : (∃ v s, L.StakedOn a v s ∧ L.Settled p v) ∧ accrual = L.now ∨
        L.Idle a ∧ accrual = p.lastBonusAccrual) :
      Step L (.clear id)
        { L with
          store := L.store.putPosition
            { p with exitTriggeredAt := 0, exitUnlockAt := 0, lastBonusAccrual := accrual } }
  /-- An event of a validator that positions are staked on is recorded. -/
  | record {L : Ledger} (v : ValAddress) (eventType : ValidatorEventType) (rate : Dec) (height : ℤ)
      (htype : eventType ≠ .unspecified)
      (hcount : L.store.getPositionCountForValidator v ≠ 0) :
      Step L (.record v eventType rate)
        { L with
          store := L.store.appendValidatorEvent v ⟨height, L.now, eventType, rate,
            L.store.getPositionCountForValidator v⟩
          bonded := Function.update L.bonded v (eventType.bondedAfter (L.bonded v)) }
  /-- A validator that no position is staked on changes its status. -/
  | status {L : Ledger} (v : ValAddress) (eventType : ValidatorEventType)
      (hcount : L.store.getPositionCountForValidator v = 0) :
      Step L (.status v eventType)
        { L with bonded := Function.update L.bonded v (eventType.bondedAfter (L.bonded v)) }
  /-- A validator that no position is staked on is removed. -/
  | dropSeq {L : Ledger} (v : ValAddress)
      (hempty : ∀ a, L.Held codec a → L.stakes a v = none) :
      Step L (.dropSeq v) { L with store := L.store.afterValidatorRemoved v }
  /-- Redelegation entries mature. -/
  | mature {L : Ledger} (ids : List ℕ) :
      Step L (.mature ids)
        { L with
          redelegations := fun u ↦ if u ∈ ids then none else L.redelegations u
          store :=
            { L.store with
              redelegationMappings :=
                ids.foldl (fun mappings id ↦ mappings.erase id) L.store.redelegationMappings } }

end Ledger

end ChainMain.TieredRewards
