import ChainMain.Inflation.Types

/-!
# The keeper of `x/inflation`

The store of the module, its message and genesis, the check of the supply at the start of a block,
and the inflation with decay. The keeper also has a cache, which is kept in memory and not in the
store: the factor per block for a decay rate and a number of blocks per year.
-/

set_option autoImplicit false

namespace ChainMain.Inflation

open Foundations Decimal Outcomes Texts

variable {Minter MintParams : Type} (S : Sdk Minter MintParams)

/-! ### The store -/

/-- The store of the module: the value under `ParamsKey`, and the height under
`DecayEpochStartKey`. -/
structure Store where
  params : Option Params
  decayEpochStart : Option UInt64
deriving DecidableEq, Repr

/-- The store of a chain that has not started. -/
def emptyStore : Store := ⟨none, none⟩

def getParams (s : Store) : Except Err Params :=
  expect s.params (.message "params not found in store" [])

def setParams (s : Store) (params : Params) : Except Err Store := do
  params.validate S
  return { s with params := some params }

def setDecayEpochStart (s : Store) (height : UInt64) : Store :=
  { s with decayEpochStart := some height }

/-- `UpdateParams`, for a keeper with an authority. -/
def updateParams (authority : Text) (s : Store) (msgAuthority : Text) (params : Params) :
    Except Err Store := do
  ensure (authority == msgAuthority)
    (.invalidSigner "invalid authority; expected %s, got %s" [.text authority, .text msgAuthority])
  setParams S s params

def initGenesis (s : Store) (genState : GenesisState) : Except Err Store := do
  (genState.validate S).mapError .panic
  let s := { s with params := some genState.params }
  return if genState.decayEpochStart ≠ 0 then setDecayEpochStart s genState.decayEpochStart else s

def exportGenesis (s : Store) : Except Err GenesisState := do
  let params ← (getParams s).mapError fun e ↦ .panic (.wrapped "fail to get params:%s" [] e)
  return { defaultGenesis with
    params := params
    decayEpochStart := s.decayEpochStart.getD defaultGenesis.decayEpochStart }

/-! ### The supply cap -/

/-- What the module reads of `x/bank` and `x/staking`. `BondDenom` always answers here: on its
error, that of a store read, `GetSupplyAndDenom` fails and `BeginBlocker` panics. -/
structure Bank where
  bondDenom : String
  getSupply : String → ℤ
  getBalance : AccAddress → String → ℤ

def getAddressBalance (bank : Bank) (address : Text) (denom : String) : Except Err ℤ := do
  let addr ← expect (S.fromBech32 address) (.bech32 address)
  return bank.getBalance addr denom

def getSupplyAndDenom (bank : Bank) : ℤ × String := (bank.getSupply bank.bondDenom, bank.bondDenom)

/-- The supply that `BeginBlocker` compares with the cap. -/
def circulating (bank : Bank) (params : Params) : Except Err ℤ := do
  let (totalsupply, denom) := getSupplyAndDenom bank
  let burned ← params.burnedAddresses.foldlM (fun burned ba ↦ do
    let balance ← (getAddressBalance S bank ba denom).mapError fun e ↦
      .panic (.wrapped "could not get %s balance: %s" [.text ba] e)
    return burned + balance) 0
  return totalsupply - burned

def beginBlocker (bank : Bank) (s : Store) : Except Err Unit := do
  let params ← (getParams s).mapError fun e ↦ .panic (.wrapped "could not get params: %s" [] e)
  let totalsupply ← circulating S bank params
  let maxsupply := params.maxSupply
  ensure (!(0 < maxsupply && maxsupply < totalsupply))
    (.panic (.message "the total supply has exceeded the maximum supply: %s > %s"
      [.int totalsupply, .int maxsupply]))

/-! ### Inflation with decay -/

structure DecayCache where
  decayRate : Dec
  blocksPerYear : UInt64
  blockFactor : Dec
deriving DecidableEq, Repr

def monthsInYear : UInt64 := 12

/-- `int64(x)` of a `uint64`. -/
def int64 (x : UInt64) : ℤ := x.toInt64.toInt

def truncateInt64 (d : Dec) : Except Err ℤ := do
  ensure (-9223372036854775808 ≤ d.truncateInt && d.truncateInt ≤ 9223372036854775807)
    (.panic (.message "Int64() out of bound" []))
  return d.truncateInt

/-- The whole months in a number of blocks, as the exponent is split. -/
def wholeMonths (blocksElapsed blocksPerMonth : UInt64) : Except Err UInt64 := do
  let monthsElapsed := (Dec.ofInt (int64 blocksElapsed)).quo (Dec.ofInt (int64 blocksPerMonth))
  let n ← truncateInt64 monthsElapsed
  return UInt64.ofInt n

/-- `getPerBlockFactor`, with the cache it leaves. -/
def getPerBlockFactor (cache : Option DecayCache) (decayRate : Dec)
    (blocksPerYear blocksPerMonth : UInt64) : Except Err (Dec × Option DecayCache) :=
  match cache.filter fun c ↦ c.decayRate == decayRate && c.blocksPerYear == blocksPerYear with
  | some c => return (c.blockFactor, cache)
  | none => do
    let decayFactor := 1 - decayRate
    let perBlockFactor ← (S.approxRoot decayFactor blocksPerMonth).mapError fun e ↦
      .panic (.wrapped
        "failed to approximate root: decayRate=%s, blocksPerYear=%d, blocksPerMonth=%d, error=%s"
        [.dec decayRate, .nat blocksPerYear.toNat, .nat blocksPerMonth.toNat] (.root e))
    return (perBlockFactor, some ⟨decayRate, blocksPerYear, perBlockFactor⟩)

/-- The last part of `DeflationCalculationFn`: the base rate decayed over the blocks since the
epoch, with the cache that is left. -/
def decayedRate (cache : Option DecayCache) (decayRate baseRate : Dec)
    (blocksPerYear blocksElapsed : UInt64) : Except Err (Dec × Option DecayCache) :=
  let blocksPerMonth := blocksPerYear / monthsInYear
  if 0 < blocksPerMonth then do
    let n ← wholeMonths blocksElapsed blocksPerMonth
    let r := blocksElapsed % blocksPerMonth
    let decayFactor := 1 - decayRate
    let intPart := decayFactor.power n.toNat
    let (perBlockFactor, cache) ← getPerBlockFactor S cache decayRate blocksPerYear blocksPerMonth
    let fracPart := perBlockFactor.power r.toNat
    return (baseRate.mul (intPart.mul fracPart), cache)
  else return (baseRate, cache)

/-- The function `DeflationCalculationFn` returns, at a height, with the cache it leaves. -/
def deflationCalculationFn (s : Store) (cache : Option DecayCache) (height : ℤ) (minter : Minter)
    (params : MintParams) (bondedRatio : Dec) : Except Err (Dec × Option DecayCache) := do
  let inflationParams ← (getParams s).mapError fun e ↦
    .panic (.wrapped "failed to get inflation params: %s" [] e)
  let decayRate := inflationParams.decayRate
  let baseRate := S.defaultInflationCalculationFn minter params bondedRatio
  let currentHeight := UInt64.ofInt height
  if !decayRate.isPositive then return (baseRate, cache)
  else match s.decayEpochStart with
    | none => return (baseRate, cache)
    | some decayEpoch =>
      if currentHeight < decayEpoch then return (baseRate, cache)
      else
        decayedRate S cache decayRate baseRate (S.blocksPerYear params) (currentHeight - decayEpoch)

end ChainMain.Inflation
