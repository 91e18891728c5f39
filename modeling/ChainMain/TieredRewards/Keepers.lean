import ChainMain.Foundations.StoreProgram
import ChainMain.TieredRewards.Messages

/-!
# The keeper, its store and the keepers of other modules

`Store` is the set of collections `NewKeeper` declares. `Keepers σ` is the interface of
`types/expected_keepers.go`: the staking, account, bank and distribution keepers the module is wired
with, over an unspecified state `σ` of those modules. What the getters of `x/staking` report is a
`Staking` record, read off the state by `Keepers.staking`; the operations are functions on `σ`,
about which `StakingContract` says what the module relies on.

`World σ` is what a keeper function runs on: the store, the state of the other modules, the block
context and the typed events emitted so far. `M σ` is the type of keeper functions.
-/

set_option autoImplicit false

namespace ChainMain.TieredRewards

open Foundations Decimal OrderedStore StoreProgram

/-! ### The store -/

/-- The collections of the module. The multi-index of `RedelegationMappings` by position is the
inverse image of the map and is not stored again. -/
structure Store where
  params : Option Params
  tiers : Map ℕ Tier
  positions : Map ℕ Position
  nextPositionId : ℕ
  positionsByOwner : Map (AccAddress × ℕ) Unit
  positionsByTier : Map (ℕ × ℕ) Unit
  positionCountByTier : Map ℕ ℕ
  positionCountByValidator : Map ValAddress ℕ
  validatorEvents : Map (ValAddress × ℕ) ValidatorEvent
  validatorEventSeq : Map ValAddress ℕ
  redelegationMappings : Map ℕ ℕ

/-- A store in which no collection has been written. An unset sequence peeks as `0`. -/
def Store.empty : Store where
  params := none
  tiers := ∅
  positions := ∅
  nextPositionId := 0
  positionsByOwner := ∅
  positionsByTier := ∅
  positionCountByTier := ∅
  positionCountByValidator := ∅
  validatorEvents := ∅
  validatorEventSeq := ∅
  redelegationMappings := ∅

/-! ### What the getters of `x/staking` report -/

/-- An unmatured redelegation entry: who redelegated, from where and to where. -/
structure Redelegation where
  delegator : AccAddress
  src : ValAddress
  dst : ValAddress
deriving DecidableEq

structure UnbondingEntry where
  unbondingId : ℕ
  balance : ℤ
deriving DecidableEq

/-- The records of `x/staking`: validators by operator, delegation shares and unbonding entries by
delegator and validator, and the unmatured redelegation entries by unbonding id. -/
structure Staking where
  validators : Map ValAddress Validator
  delegations : Map (AccAddress × ValAddress) Dec
  unbondingDelegations : Map (AccAddress × ValAddress) (List UnbondingEntry)
  redelegations : Map ℕ Redelegation

namespace Staking

/-- Whether a validator exists and is bonded. -/
def isBonded (s : Staking) (v : ValAddress) : Bool := (s.validators[v]?).any Validator.isBonded

/-- The delegations of a delegator with their shares, in store order. -/
def delegationsOf (s : Staking) (del : AccAddress) : List (ValAddress × Dec) :=
  (s.delegations.toList.filter fun entry ↦ entry.1.1 == del).map fun entry ↦
    (entry.1.2, entry.2)

/-- The unbonding delegations of a delegator, in store order. -/
def unbondingDelegationsOf (s : Staking) (del : AccAddress) : List (List UnbondingEntry) :=
  (s.unbondingDelegations.toList.filter fun entry ↦ entry.1.1 == del).map fun entry ↦ entry.2

/-- The redelegation entries of a delegator, in store order. -/
def redelegationsOf (s : Staking) (del : AccAddress) : List Redelegation :=
  (s.redelegations.toList.filter fun entry ↦ entry.2.delegator == del).map fun entry ↦ entry.2

end Staking

/-! ### The expected keepers -/

/-- What `GetAccount` reports about an account. -/
inductive AccountKind
  | plain
  | vesting
deriving DecidableEq

structure Context where
  blockTime : Time
  blockHeight : ℤ
  headerHash : List UInt8

/-- The keepers of `types/expected_keepers.go`, over a state `σ` of the other modules. The
operations that unbond report the validators they remove, for which staking runs the
`AfterValidatorRemoved` hook. -/
structure Keepers (σ : Type) where
  accCodec : AddressCodec
  valCodec : AddressCodec
  authority : String
  moduleAddress : String → AccAddress
  addressModule : String → List UInt8 → AccAddress → ℕ → ℕ → AccAddress
  staking : σ → Staking
  account : σ → AccAddress → Option AccountKind
  hasModuleAccount : σ → String → Bool
  balances : σ → AccAddress → Coins
  spendableCoins : σ → AccAddress → Coins
  bondDenom : σ → String
  newAccount : σ → AccAddress → σ
  sendCoins : Context → σ → AccAddress → AccAddress → Coins → Except Err σ
  sendCoinsFromModuleToAccount : Context → σ → String → AccAddress → Coins → Except Err σ
  withdrawDelegationRewards : Context → σ → AccAddress → ValAddress → Except Err (Coins × σ)
  setWithdrawAddr : Context → σ → AccAddress → AccAddress → Except Err σ
  deleteDelegatorWithdrawAddr : Context → σ → AccAddress → AccAddress → Except Err σ
  validateUnbondAmount : σ → AccAddress → ValAddress → ℤ → Except Err Dec
  delegate : Context → σ → AccAddress → ℤ → BondStatus → ValAddress → Bool → Except Err (Dec × σ)
  unbond : Context → σ → AccAddress → ValAddress → Dec → Except Err ((ℤ × List ValAddress) × σ)
  undelegate : Context → σ → AccAddress → ValAddress → Dec →
    Except Err (((Time × ℤ) × List ValAddress) × σ)
  beginRedelegation : Context → σ → AccAddress → ValAddress → ValAddress → Dec →
    Except Err (((Time × ℕ) × List ValAddress) × σ)

/-! ### Keeper functions -/

structure World (σ : Type) where
  store : Store
  ext : σ
  ctx : Context
  emitted : List Event

abbrev M (σ : Type) := Program (World σ) Err

variable {σ : Type}

def modifyStore (f : Store → Store) : M σ PUnit := modify fun w ↦ { w with store := f w.store }

/-- `EventManager().EmitTypedEvent`. -/
def emit (event : Event) : M σ PUnit := modify fun w ↦ { w with emitted := w.emitted ++ [event] }

/-- Call an operation of another module's keeper that returns a value. -/
def call {α : Type} (f : Context → σ → Except Err (α × σ)) : M σ α := do
  let w ← get
  let (a, ext) ← fromOutcome (f w.ctx w.ext)
  set { w with ext := ext }
  return a

/-- Call an operation of another module's keeper that only changes its state. -/
def callUnit (f : Context → σ → Except Err σ) : M σ PUnit :=
  call fun ctx ext ↦ (f ctx ext).map fun ext' ↦ (⟨⟩, ext')

/-- `sdk.AccAddressFromBech32`, with the error the caller returns. -/
def accAddressFromBech32 (K : Keepers σ) (address : String) (e : Err) : M σ AccAddress :=
  expect (K.accCodec.stringToBytes address) e

/-- `sdk.ValAddressFromBech32`, with the error the caller returns. -/
def valAddressFromBech32 (K : Keepers σ) (address : String) (e : Err) : M σ ValAddress :=
  expect (K.valCodec.stringToBytes address) e

/-- The error of a failed bech32 decoding, returned as it is. -/
def bech32Error : Err := .keeper "decoding bech32 failed"

/-- The error of `errorsmod.Wrap(sdkerrors.ErrInvalidAddress, "invalid owner address")`. -/
def invalidOwnerAddress : Err := .registered .invalidAddress "invalid owner address"

/-- The error of `errorsmod.Wrap(sdkerrors.ErrInvalidAddress, "invalid delegator address")`. -/
def invalidDelegatorAddress : Err := .registered .invalidAddress "invalid delegator address"

/-! ### Successful calls -/

theorem succeeds_modifyStore {f : Store → Store} {w w' : World σ} {u : PUnit} :
    Succeeds (modifyStore f) w u w' ↔ { w with store := f w.store } = w' :=
  succeeds_modify

theorem succeeds_emit {event : Event} {w w' : World σ} {u : PUnit} :
    Succeeds (emit event) w u w' ↔ { w with emitted := w.emitted ++ [event] } = w' :=
  succeeds_modify

theorem succeeds_call {α : Type} {f : Context → σ → Except Err (α × σ)} {w w' : World σ} {a : α} :
    Succeeds (call f) w a w' ↔ ∃ ext, f w.ctx w.ext = .ok (a, ext) ∧
      w' = { w with ext := ext } := by
  unfold call
  rw [succeeds_bind]
  constructor
  · rintro ⟨s, s₁, hget, hrest⟩
    obtain ⟨rfl, rfl⟩ := succeeds_get.mp hget
    obtain ⟨⟨b, ext⟩, s₂, hf, hset⟩ := succeeds_bind.mp hrest
    obtain ⟨hok, rfl⟩ := succeeds_fromOutcome.mp hf
    obtain ⟨u, s₃, hwrite, hret⟩ := succeeds_bind.mp hset
    obtain ⟨rfl, rfl⟩ := succeeds_pure.mp hret
    refine ⟨ext, hok, ?_⟩
    exact (Prod.mk.inj hwrite).2.symm
  · rintro ⟨ext, hok, rfl⟩
    refine ⟨w, w, succeeds_get.mpr ⟨rfl, rfl⟩, ?_⟩
    refine succeeds_bind.mpr ⟨(a, ext), w, succeeds_fromOutcome.mpr ⟨hok, rfl⟩, ?_⟩
    exact succeeds_bind.mpr ⟨⟨⟩, _, rfl, .pure⟩

theorem succeeds_callUnit {f : Context → σ → Except Err σ} {w w' : World σ} {u : PUnit} :
    Succeeds (callUnit f) w u w' ↔ ∃ ext, f w.ctx w.ext = .ok ext ∧ w' = { w with ext := ext } := by
  unfold callUnit
  rw [succeeds_call]
  constructor
  · rintro ⟨ext, hok, rfl⟩
    cases hf : f w.ctx w.ext with
    | error e => simp [hf, Except.map] at hok
    | ok ext' =>
      simp only [hf, Except.map, Except.ok.injEq, Prod.mk.injEq] at hok
      exact ⟨ext', rfl, by rw [hok.2]⟩
  · rintro ⟨ext, hok, rfl⟩
    exact ⟨ext, by simp [hok, Except.map], rfl⟩

/-- An operation of another module's keeper that fails changes nothing. -/
theorem fails_call {α : Type} {f : Context → σ → Except Err (α × σ)} {w w' : World σ} {e : Err}
    (h : Fails (call f) w e w') : w' = w := by
  unfold call at h
  rcases fails_bind.mp h with hget | ⟨_, _, hget, hrest⟩
  · exact absurd hget fails_get
  obtain ⟨rfl, rfl⟩ := succeeds_get.mp hget
  rcases fails_bind.mp hrest with hf | ⟨⟨a, ext⟩, _, _, hset⟩
  · exact (fails_fromOutcome.mp hf).2.symm
  · rcases fails_bind.mp hset with hwrite | ⟨_, _, _, hpure⟩
    · cases (Prod.mk.inj hwrite).1
    · exact absurd hpure fails_pure

theorem fails_callUnit {f : Context → σ → Except Err σ} {w w' : World σ} {e : Err}
    (h : Fails (callUnit f) w e w') : w' = w :=
  fails_call h

end ChainMain.TieredRewards
