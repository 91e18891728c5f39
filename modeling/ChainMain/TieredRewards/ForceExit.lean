import ChainMain.TieredRewards.MsgServer

/-!
# The forced exit of the v2 migration

`ForceFullExitWithDelegation` and `alignVestingDelegationTracking` of `keeper/force_exit.go`. The
migration calls it for the positions of vesting accounts. It unwinds a delegated position without a
message of its owner (`unwindPosition`) and deletes it; a position without a delegation is left
alone.

What a vesting account tracks is not among the expected keepers of the module: `VestingAccounts` is
the part of the vesting account interface the function uses.
-/

set_option autoImplicit false

namespace ChainMain.TieredRewards

open Foundations Decimal OrderedStore StoreProgram

variable {σ : Type}

/-- `GetDelegatedVesting` and `GetDelegatedFree` of a vesting account, and `TrackDelegation` with
the balance equal to the amount, followed by `SetAccount`. -/
structure VestingAccounts (σ : Type) where
  delegatedVesting : σ → AccAddress → Coins
  delegatedFree : σ → AccAddress → Coins
  trackDelegation : Context → σ → AccAddress → Coins → σ

/-- `fmt.Errorf` with `%w` around the error of a call. -/
def wrapping {α : Type} (text : String) (args : List Arg) (x : M σ α) : M σ α :=
  ExceptT.adapt (Err.wrap text args) x

theorem succeeds_wrapping {α : Type} {text : String} {args : List Arg} {x : M σ α} {w w' : World σ}
    {a : α} : Succeeds (wrapping text args x) w a w' ↔ Succeeds x w a w' := by
  change ((ExceptT.run x).run w).map (Except.mapError (Err.wrap text args)) id = _ ↔ _
  unfold Succeeds exec
  rcases hx : (ExceptT.run x).run w with ⟨outcome, w₁⟩
  cases outcome <;> simp [Prod.map, Except.mapError]

variable (K : Keepers σ) (V : VestingAccounts σ)

/-- The loop of `alignVestingDelegationTracking`: the tokens of the delegations. -/
def sumDelegatedTokens : List (ValAddress × Dec) → ℤ → M σ ℤ
  | [], total => pure total
  | (v, shares) :: delegations, total => do
    let val ← wrapping "get validator %s: %w" [.str (K.valCodec.bytesToString v)] (getValidator K v)
    sumDelegatedTokens delegations (total + (val.tokensFromShares shares).truncateInt)

/-- The top-up of `alignVestingDelegationTracking` for a vesting account. -/
def topUpVestingDelegation (owner : AccAddress) : M σ PUnit := do
  let w ← get
  let denom := K.bondDenom w.ext
  let actual ← sumDelegatedTokens K (((K.staking w.ext).delegationsOf owner).take 1000) 0
  let tracked := (V.delegatedVesting w.ext owner).amountOf denom +
    (V.delegatedFree w.ext owner).amountOf denom
  if actual ≤ tracked then pure ⟨⟩
  else modify fun w ↦
    { w with ext := V.trackDelegation w.ctx w.ext owner (Coins.single denom (actual - tracked)) }

def alignVestingDelegationTracking (owner : AccAddress) : M σ PUnit := do
  let w ← get
  match K.account w.ext owner with
  | some .vesting => topUpVestingDelegation K V owner
  | _ => pure ⟨⟩

/-- `ForceFullExitWithDelegation` for a delegated position, up to its deletion: the position as it
stands in memory, and its validator. -/
def unwindPosition (id : ℕ) (pos : PositionState) : M σ (PositionState × ValAddress) := do
  let (pos, _, _) ← wrapping "claim rewards for position %d: %w" [.nat id] (claimRewards K pos)
  let delegation ← expect pos.delegation (.panic "nil delegation")
  let v ← wrapping "parse validator address for position %d: %w" [.nat id]
    (valAddressFromBech32 K delegation.validatorAddress bech32Error)
  let positionAmount ← wrapping "reconcile amount for position %d: %w" [.nat id]
    (reconcileAmountFromShares K v delegation.shares)
  let _ ← wrapping "transfer delegation back to owner for position %d: %w" [.nat id]
    (transferDelegationFromPosition K pos v positionAmount)
  let owner ← wrapping "parse owner address for position %d: %w" [.nat id]
    (accAddressFromBech32 K pos.owner bech32Error)
  wrapping "align vesting delegation tracking for position %d: %w" [.nat id]
    (alignVestingDelegationTracking K V owner)
  return (pos, v)

def forceFullExitWithDelegation (id : ℕ) : M σ PUnit := do
  let pos ← wrapping "get position %d: %w" [.nat id] (getPositionState K id)
  if pos.isDelegated then
    let (pos, v) ← unwindPosition K V id pos
    wrapping "delete position %d: %w" [.nat id]
      (deletePosition K pos.toPosition (some ⟨K.valCodec.bytesToString v⟩))
  else pure ⟨⟩

end ChainMain.TieredRewards
