import ChainMain.Foundations.Decimal
import ChainMain.Foundations.OrderedStore

/-!
# The types of `x/tieredrewards`

The data of `x/tieredrewards/types`: tiers, positions, positions paired with their staking
delegation, validator events, parameters, the registered errors, and the methods and checks the Go
types carry. A time is a number of nanoseconds since Go's zero time, so `0` is the time for which
`IsZero` holds; a duration is a signed number of nanoseconds.

An error keeps its registered code, the text it is wrapped with, and the values the text is
formatted with.
-/

set_option autoImplicit false

namespace ChainMain.TieredRewards

open Foundations Decimal OrderedStore

/-- An account address: a byte string of an admissible length, read as a number. -/
abbrev AccAddress := ℕ

abbrev ValAddress := ℕ

/-- Nanoseconds since Go's zero time. -/
abbrev Time := ℤ

/-- A `time.Duration`: a signed number of nanoseconds. -/
abbrev Duration := ℤ

/-- `sdk.Coins`: an amount for each denomination. -/
abbrev Coins := Map String ℤ

/-- `time.Time.Sub`, which saturates at the largest and the smallest `int64`. -/
def Time.sub (t u : Time) : Duration := max (-9223372036854775808) (min (t - u) 9223372036854775807)

def second : Duration := 1000000000

/-- `SecondsPerYear`: 365.25 days. -/
def secondsPerYear : ℤ := 31557600

/-! ### Errors -/

/-- The errors registered in `types/errors.go`, and those of the SDK the module returns. -/
inductive ErrCode
  | transferDelegationSrcNotFound
  | transferDelegationDestNotFound
  | tinyTransferDelegationAmount
  | transferDelegationToPositionSelf
  | tierAlreadyExists
  | tierHasActivePositions
  | tierIsCloseOnly
  | invalidAmount
  | minLockAmountNotMet
  | activeRedelegation
  | validatorNotBonded
  | insufficientBonusPool
  | positionNotDelegated
  | exitLockDurationNotReached
  | positionTriggeredExit
  | redelegationToSameValidator
  | tierNotFound
  | positionNotFound
  | notPositionOwner
  | positionDelegated
  | exitNotTriggered
  | positionUnbonding
  | exitLockDurationElapsed
  | invalidTierID
  | invalidPositionID
  | vestingAccountNotAllowed
  | positionAddressDerivation
  | invalidAddress
  | invalidRequest
  | invalidSigner
  | noValidatorFound
deriving DecidableEq, Repr

/-- A value an error text is formatted with. -/
inductive Arg
  | nat (n : ℕ)
  | int (n : ℤ)
  | dec (d : Dec)
  | str (s : String)
  | coins (c : Coins)

/-- An error: a registered one with the text it is wrapped with, a plain `fmt.Errorf`, an error
around another one, an error of another module's keeper, or a panic. -/
inductive Err
  | registered (code : ErrCode) (text : String := "") (args : List Arg := [])
  | message (text : String) (args : List Arg := [])
  | wrap (text : String) (args : List Arg) (cause : Err)
  | keeper (text : String)
  | panic (text : String)

/-- `errors.Is` for a registered error. -/
def Err.is : Err → ErrCode → Bool
  | .registered code _ _, target => code == target
  | .wrap _ _ cause, target => cause.is target
  | _, _ => false

/-! ### Coins -/

namespace Coins

def amountOf (coins : Coins) (denom : String) : ℤ := (coins[denom]?).getD 0

/-- `Coins.IsZero`: no coin with a non-zero amount. -/
def isZero (coins : Coins) : Bool := coins.toList.all fun coin ↦ coin.2 == 0

def add (coins others : Coins) : Coins :=
  others.toList.foldl (fun acc coin ↦ acc.insert coin.1 (acc.amountOf coin.1 + coin.2)) coins

/-- `Coins.IsAllGTE`: every coin of the second is covered by the first. -/
def isAllGTE (coins others : Coins) : Bool :=
  others.toList.all fun coin ↦ decide (coin.2 ≤ coins.amountOf coin.1)

/-- `sdk.NewCoins(sdk.NewCoin(denom, amount))`, which drops a zero coin. -/
def single (denom : String) (amount : ℤ) : Coins :=
  if amount = 0 then ∅ else (∅ : Coins).insert denom amount

end Coins

/-! ### Parameters and tiers -/

structure Params where
  targetBaseRewardsRate : Dec
deriving DecidableEq

/-- `DefaultParams`. -/
def Params.default : Params := ⟨0⟩

/-- `Params.Validate`, that is `validateTargetBaseRewardsRate`. -/
def Params.validate (p : Params) : Except Err Unit :=
  if p.targetBaseRewardsRate.isNegative then
    .error (.message "target base rewards rate cannot be negative: %s"
      [.dec p.targetBaseRewardsRate])
  else if 1 < p.targetBaseRewardsRate then
    .error (.message "target base rewards rate must not exceed 1.0 (100%%): got %s"
      [.dec p.targetBaseRewardsRate])
  else .ok ()

structure Tier where
  id : ℕ
  exitDuration : Duration
  bonusApy : Dec
  minLockAmount : ℤ
  closeOnly : Bool
deriving DecidableEq

namespace Tier

def validate (t : Tier) : Except Err Unit :=
  if t.id = 0 then .error (.registered .invalidTierID)
  else if t.exitDuration ≤ 0 then .error (.message "exit duration must be positive")
  else if t.bonusApy.isNegative then
    .error (.message "bonus apy cannot be negative: %s" [.dec t.bonusApy])
  else if 1 < t.bonusApy then
    .error (.message "bonus apy must not exceed 1.0 (100%%): got %s" [.dec t.bonusApy])
  else if t.minLockAmount < 0 then
    .error (.message "min lock amount cannot be negative: %s" [.int t.minLockAmount])
  else .ok ()

def isCloseOnly (t : Tier) : Bool := t.closeOnly

def meetsMinLockRequirement (t : Tier) (amount : ℤ) : Bool := decide (t.minLockAmount ≤ amount)

end Tier

/-! ### The staking types the module reads -/

inductive BondStatus
  | unbonded
  | unbonding
  | bonded
deriving DecidableEq, Repr

/-- The part of `stakingtypes.Validator` the module reads. -/
structure Validator where
  status : BondStatus
  tokens : ℤ
  delegatorShares : Dec
deriving DecidableEq

namespace Validator

def isBonded (v : Validator) : Bool := v.status == .bonded

def tokensFromShares (v : Validator) (shares : Dec) : Dec :=
  (shares.mulInt v.tokens).quo v.delegatorShares

end Validator

structure Delegation where
  delegatorAddress : String
  validatorAddress : String
  shares : Dec
deriving DecidableEq

/-! ### Positions -/

structure Position where
  id : ℕ
  owner : String
  tierId : ℕ
  lastBonusAccrual : Time
  lastEventSeq : ℕ
  lastKnownBonded : Bool
  exitTriggeredAt : Time
  exitUnlockAt : Time
  createdAtHeight : ℕ
  createdAtTime : Time
  delegatorAddress : String
deriving DecidableEq

/-- `types.PositionState`: a stored position paired with its live staking delegation, which is
`none` for an undelegated position. -/
structure PositionState extends Position where
  delegation : Option Delegation
deriving DecidableEq

namespace Position

/-- `NewPosition`. -/
def new (id : ℕ) (owner : String) (tierId : ℕ) (delegatorAddress : String)
    (createdAtHeight lastEventSeq : ℕ) (lastBonusAccrual : Time) (lastKnownBonded : Bool)
    (createdAtTime : Time) : Position where
  id := id
  owner := owner
  tierId := tierId
  lastBonusAccrual := lastBonusAccrual
  lastEventSeq := lastEventSeq
  lastKnownBonded := lastKnownBonded
  exitTriggeredAt := 0
  exitUnlockAt := 0
  createdAtHeight := createdAtHeight
  createdAtTime := createdAtTime
  delegatorAddress := delegatorAddress

def completedExitLockDuration (p : Position) (blockTime : Time) : Bool :=
  decide (p.exitUnlockAt ≠ 0) && decide (p.exitUnlockAt ≤ blockTime)

def updateBonusCheckpoints (p : Position) (lastEventSeq : ℕ) (t : Time)
    (lastKnownBonded : Bool) : Position :=
  { p with lastEventSeq, lastBonusAccrual := t, lastKnownBonded }

def triggerExit (p : Position) (blockTime : Time) (duration : Duration) : Position :=
  { p with exitTriggeredAt := blockTime, exitUnlockAt := blockTime + duration }

def clearBonusCheckpoints (p : Position) : Position :=
  { p with lastBonusAccrual := 0, lastEventSeq := 0, lastKnownBonded := false }

def hasTriggeredExit (p : Position) : Bool := decide (p.exitTriggeredAt ≠ 0)

/-- `Position.IsOwner`: the owner is compared as a string. -/
def isOwner (p : Position) (address : String) : Bool := p.owner == address

def exitWithFullDelegation (_p : Position) (amount positionAmount : ℤ) : Bool :=
  amount == positionAmount

end Position

namespace PositionState

def isDelegated (p : PositionState) : Bool := p.delegation.isSome

/-- Replace the stored part and keep the delegation. -/
def withPosition (p : PositionState) (q : Position) : PositionState :=
  { p with toPosition := q }

def clearExit (p : PositionState) (blockTime : Time) : PositionState :=
  { p with
    exitTriggeredAt := 0
    exitUnlockAt := 0
    lastBonusAccrual := if p.isDelegated then blockTime else p.lastBonusAccrual }

end PositionState

/-! ### Validator events -/

inductive ValidatorEventType
  | unspecified
  | slash
  | unbond
  | bond
deriving DecidableEq, Repr

structure ValidatorEvent where
  height : ℤ
  timestamp : Time
  eventType : ValidatorEventType
  tokensPerShare : Dec
  referenceCount : ℕ
deriving DecidableEq

/-- `EventEntry`: an event with its sequence number. -/
structure EventEntry where
  seq : ℕ
  event : ValidatorEvent
deriving DecidableEq

end ChainMain.TieredRewards
