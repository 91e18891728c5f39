import ChainMain.TieredRewards.MessageRuns

/-!
# The chain

What can happen to the module in a chain, one step at a time: a block begins, a message is
delivered, staking calls one of the module's hooks, or something else happens outside.

A message is delivered as a transaction does it (`deliver`), and its signer has an account that no
position holds: the accounts of positions have no key. A validator changes between bonded and not
bonded only together with its hook. The other modules do what they like on their own, as long as
they leave alone the delegations and the redelegations of the accounts held by positions, which
nobody can sign for (`Ledger.Frame`); tokens burned by a slash and matured unbondings are among the
things that happen outside. A redelegation slash is the hook followed by the unbonding of the same
shares.

`Reachable` are the worlds a chain can get to from an empty module.
-/

set_option autoImplicit false

namespace ChainMain.TieredRewards

open Foundations Decimal OrderedStore StoreProgram Runs

variable {σ : Type} (K : Keepers σ)

inductive Label
  | beginBlock
  | deliver (msg : Msg)
  | validatorBonded (v : ValAddress)
  | validatorBeginUnbonding (v : ValAddress)
  | validatorSlashed (v : ValAddress) (fraction : Dec)
  | validatorRemoved (v : ValAddress)
  | redelegationSlashed (unbondingId : ℕ) (shares : Dec)
  | redelegationsCompleted (unbondingIds : List ℕ)
  | outside

/-- Staking changes its records and nothing else happens. -/
structure Restakes (f : Staking → Staking) (ext ext' : σ) : Prop where
  staking : K.staking ext' = f (K.staking ext)
  account : ∀ a, K.account ext' a = K.account ext a

/-- The records with the status of a validator set. -/
def Staking.setStatus (v : ValAddress) (val : Validator) (status : BondStatus) (st : Staking) :
    Staking :=
  { st with validators := st.validators.insert v { val with status } }

def Staking.removeValidator (v : ValAddress) (st : Staking) : Staking :=
  { st with validators := st.validators.erase v }

/-- The records without matured redelegation entries. -/
def Staking.completeRedelegations (unbondingIds : List ℕ) (st : Staking) : Staking :=
  { st with
    redelegations := unbondingIds.foldl (fun entries id ↦ entries.erase id) st.redelegations }

/-- Staking unbonds shares of a redelegation entry that is slashed, if its delegation is still
there. -/
inductive UnbondsSlashed (red : Redelegation) (shares : Dec) (w w' : World σ) : Prop
  | gone (hgone : (K.staking w.ext).delegations[(red.delegator, red.dst)]? = none) (hworld : w' = w)
  | unbonded {amount : ℤ} (h : Succeeds (unbond K red.delegator red.dst shares) w amount w')

inductive ChainStep : World σ → Label → World σ → Prop
  /-- A block begins, not before the last one. -/
  | beginBlock {w : World σ} (ctx : Context) (htime : w.ctx.blockTime ≤ ctx.blockTime) :
      ChainStep w .beginBlock { w with ctx }
  /-- A message is delivered. -/
  | deliver {w : World σ} (msg : Msg) (hsigner : SignerIsFree K w msg.signer) :
      ChainStep w (.deliver msg) (deliver K msg w).2
  /-- A validator is bonded. -/
  | validatorBonded {w w' : World σ} {v : ValAddress} {val : Validator} {ext : σ}
      (hval : (K.staking w.ext).validators[v]? = some val) (hbefore : val.isBonded = false)
      (hstaking : Restakes K (Staking.setStatus v val .bonded) w.ext ext)
      (hhook : Succeeds (afterValidatorBonded K v) { w with ext } ⟨⟩ w') :
      ChainStep w (.validatorBonded v) w'
  /-- A validator begins to unbond. -/
  | validatorBeginUnbonding {w w' : World σ} {v : ValAddress} {val : Validator} {ext : σ}
      (hval : (K.staking w.ext).validators[v]? = some val) (hbefore : val.isBonded = true)
      (hstaking : Restakes K (Staking.setStatus v val .unbonding) w.ext ext)
      (hhook : Succeeds (afterValidatorBeginUnbonding K v) { w with ext } ⟨⟩ w') :
      ChainStep w (.validatorBeginUnbonding v) w'
  /-- A validator is about to be slashed. -/
  | validatorSlashed {w w' : World σ} {v : ValAddress} (fraction : Dec)
      (hhook : Succeeds (beforeValidatorSlashed K v fraction) w ⟨⟩ w') :
      ChainStep w (.validatorSlashed v fraction) w'
  /-- A validator that is not bonded and has no delegation is removed. -/
  | validatorRemoved {w w' : World σ} {v : ValAddress} {ext : σ}
      (hbonded : (K.staking w.ext).isBonded v = false)
      (hempty : ∀ a : AccAddress, (K.staking w.ext).delegations[(a, v)]? = none)
      (hstaking : Restakes K (Staking.removeValidator v) w.ext ext)
      (hhook : Succeeds (afterValidatorRemoved v) { w with ext } ⟨⟩ w') :
      ChainStep w (.validatorRemoved v) w'
  /-- A redelegation entry is slashed. -/
  | redelegationSlashed {w w₁ w' : World σ} {unbondingId : ℕ} {red : Redelegation} {shares : Dec}
      (hentry : (K.staking w.ext).redelegations[unbondingId]? = some red)
      (hhook : Succeeds (beforeRedelegationSlashed K unbondingId shares) w ⟨⟩ w₁)
      (hunbond : UnbondsSlashed K red shares w₁ w') :
      ChainStep w (.redelegationSlashed unbondingId shares) w'
  /-- Redelegation entries mature. -/
  | redelegationsCompleted {w w' : World σ} {ext : σ} (unbondingIds : List ℕ)
      (hstaking : Restakes K (Staking.completeRedelegations unbondingIds) w.ext ext)
      (hhook : Succeeds (afterRedelegationCompleted unbondingIds) { w with ext } ⟨⟩ w') :
      ChainStep w (.redelegationsCompleted unbondingIds) w'
  /-- Something else happens outside. -/
  | outside {w : World σ} (ext : σ)
      (hframe : (K.view w).Frame K.accCodec none (K.view { w with ext })) :
      ChainStep w .outside { w with ext }

/-- A world in which the module is empty: only its parameters are set. -/
structure Fresh (w : World σ) : Prop where
  store : ∃ params : Params, params.validate = .ok () ∧
    w.store = { Store.empty with params := some params }
  emitted : w.emitted = []
  time : 0 < w.ctx.blockTime
  tidy : (K.view w).Tidy

/-- The worlds a chain gets to from an empty module, with the history that leads to them. -/
def Reaches (τ : List (Transition (World σ) Label)) (w : World σ) : Prop :=
  ∃ w₀, Fresh K w₀ ∧ Run (ChainStep K) w₀ τ w

/-- The worlds a chain gets to from an empty module. -/
def Reachable (w : World σ) : Prop := ∃ τ, Reaches K τ w

end ChainMain.TieredRewards
