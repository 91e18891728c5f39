import ChainMain.TieredRewards.Positions

/-!
# What the position functions do

One lemma for each function of `Positions`: what a successful call has read and written. Readers
leave the world alone. `setPositionWithState` is described by `setPositionWithState_new` for an id
that is not stored and by `succeeds_setPositionWithState` for a stored one whose owner and tier
stay; the counter by validator moves as `Store.moveCount` says, where a validator is an option
instead of a possibly empty string.
-/

set_option autoImplicit false

namespace ChainMain.TieredRewards

open Foundations Decimal OrderedStore StoreProgram

variable {σ : Type} {K : Keepers σ} {w w' : World σ}
variable {a : AccAddress} {u : PUnit} {pos : Position} {delegatorAddress : String} {v : ValAddress}
  {id : ℕ} {amount : ℤ}

/-! ### Readers -/

theorem succeeds_accAddressFromBech32 {address : String} {e : Err} :
    Succeeds (accAddressFromBech32 K address e) w a w' ↔
      K.accCodec.stringToBytes address = some a ∧ w = w' :=
  succeeds_expect

theorem succeeds_valAddressFromBech32 {address : String} {e : Err} :
    Succeeds (valAddressFromBech32 K address e) w v w' ↔
      K.valCodec.stringToBytes address = some v ∧ w = w' :=
  succeeds_expect

/-- A program that reads the world and returns a value found there. -/
theorem succeeds_read {α : Type} {f : World σ → M σ α} {a : α} :
    Succeeds (get >>= f) w a w' ↔ Succeeds (f w) w a w' := by
  rw [succeeds_bind]
  constructor
  · rintro ⟨s, s₁, hget, hrest⟩
    obtain ⟨rfl, rfl⟩ := succeeds_get.mp hget
    exact hrest
  · intro h
    exact ⟨w, w, succeeds_get.mpr ⟨rfl, rfl⟩, h⟩

theorem succeeds_getTier {tier : Tier} :
    Succeeds (getTier id) w tier w' ↔ w.store.tiers[id]? = some tier ∧ w = w' := by
  unfold getTier
  rw [succeeds_read, succeeds_expect]

theorem succeeds_getValidator {val : Validator} :
    Succeeds (getValidator K v) w val w' ↔
      (K.staking w.ext).validators[v]? = some val ∧ w = w' := by
  unfold getValidator
  rw [succeeds_read, succeeds_expect]

theorem succeeds_getTokensPerShare {rate : Dec} :
    Succeeds (getTokensPerShare K v) w rate w' ↔
      (∃ val, (K.staking w.ext).validators[v]? = some val ∧ val.tokensPerShare = rate) ∧
        w = w' := by
  unfold getTokensPerShare
  simp only [succeeds_bind, succeeds_getValidator, succeeds_pure]
  constructor
  · rintro ⟨val, w₁, ⟨hval, rfl⟩, hrate, rfl⟩
    exact ⟨⟨val, hval, hrate⟩, rfl⟩
  · rintro ⟨⟨val, hval, hrate⟩, rfl⟩
    exact ⟨val, w, ⟨hval, rfl⟩, hrate, rfl⟩

/-- What `reconcileAmountFromShares` makes of some shares of a validator. -/
def Validator.amountOfShares (val : Validator) (shares : Dec) : ℤ :=
  if val.delegatorShares.isZero then 0 else (val.tokensFromShares shares).truncateInt

theorem succeeds_reconcileAmountFromShares {shares : Dec} :
    Succeeds (reconcileAmountFromShares K v shares) w amount w' ↔
      (∃ val, (K.staking w.ext).validators[v]? = some val ∧ val.amountOfShares shares = amount) ∧
        w = w' := by
  unfold reconcileAmountFromShares
  simp only [succeeds_bind, succeeds_getValidator, succeeds_pure]
  constructor
  · rintro ⟨val, _, ⟨hval, rfl⟩, hamount, rfl⟩
    exact ⟨⟨val, hval, hamount⟩, rfl⟩
  · rintro ⟨⟨val, hval, hamount⟩, rfl⟩
    exact ⟨val, w, ⟨hval, rfl⟩, hamount, rfl⟩

/-- `reconcileAmountFromShares` reads the world. -/
theorem reconcileAmountFromShares_reads {shares : Dec}
    (h : Succeeds (reconcileAmountFromShares K v shares) w amount w') : w = w' :=
  (succeeds_reconcileAmountFromShares.mp h).2

/-- A program that decodes an address and reads the world there. -/
theorem succeeds_readAt {α : Type} {e : Err} {read : World σ → AccAddress → α} {x : α} :
    Succeeds (do
        let del ← accAddressFromBech32 K delegatorAddress e
        let w ← get
        return read w del) w x w' ↔
      (∃ a, K.accCodec.stringToBytes delegatorAddress = some a ∧ read w a = x) ∧ w = w' := by
  simp only [succeeds_bind, succeeds_accAddressFromBech32, succeeds_get, succeeds_pure]
  constructor
  · rintro ⟨a, _, ⟨ha, rfl⟩, _, _, ⟨rfl, rfl⟩, hread, rfl⟩
    exact ⟨⟨a, ha, hread⟩, rfl⟩
  · rintro ⟨⟨a, ha, hread⟩, rfl⟩
    exact ⟨a, w, ⟨ha, rfl⟩, w, w, ⟨rfl, rfl⟩, hread, rfl⟩

theorem succeeds_getDelegation {del : Option Delegation} :
    Succeeds (getDelegation K delegatorAddress) w del w' ↔
      (∃ a, K.accCodec.stringToBytes delegatorAddress = some a ∧
        firstDelegation K (K.staking w.ext) a = del) ∧ w = w' :=
  succeeds_readAt

/-- `getPositionState` pairs the stored position with the first delegation of its delegator. -/
theorem succeeds_getPositionState {pos : PositionState} :
    Succeeds (getPositionState K id) w pos w' ↔
      w.store.positions[id]? = some pos.toPosition ∧
      (∃ a, K.accCodec.stringToBytes pos.delegatorAddress = some a ∧
        firstDelegation K (K.staking w.ext) a = pos.delegation) ∧ w = w' := by
  unfold getPositionState getPosition
  simp only [succeeds_bind, succeeds_get, succeeds_expect, succeeds_getDelegation, succeeds_pure]
  constructor
  · rintro ⟨p, _, ⟨_, _, ⟨rfl, rfl⟩, hp, rfl⟩, del, _, ⟨hdel, rfl⟩, rfl, rfl⟩
    exact ⟨hp, hdel, rfl⟩
  · rintro ⟨hp, hdel, rfl⟩
    exact ⟨pos.toPosition, w, ⟨w, w, ⟨rfl, rfl⟩, hp, rfl⟩, pos.delegation, w, ⟨hdel, rfl⟩, rfl, rfl⟩

theorem succeeds_isRedelegating {redelegating : Bool} :
    Succeeds (isRedelegating K delegatorAddress) w redelegating w' ↔
      (∃ a, K.accCodec.stringToBytes delegatorAddress = some a ∧
        (!((K.staking w.ext).redelegationsOf a).isEmpty) = redelegating) ∧ w = w' :=
  succeeds_readAt

/-- `isUnbonding` reads the world. -/
theorem succeeds_isUnbonding {unbonding : Bool} :
    Succeeds (isUnbonding K delegatorAddress) w unbonding w' ↔
      (∃ a, K.accCodec.stringToBytes delegatorAddress = some a ∧
        (!((K.staking w.ext).unbondingDelegationsOf a).isEmpty) = unbonding) ∧ w = w' :=
  succeeds_readAt

/-- `getPositionAmount` reads the world. -/
theorem getPositionAmount_reads {pos : PositionState}
    (h : Succeeds (getPositionAmount K pos) w amount w') : w = w' := by
  unfold getPositionAmount at h
  cases hdel : pos.delegation with
  | some del =>
    simp only [hdel, getDelegatedAmount, succeeds_bind, succeeds_valAddressFromBech32] at h
    obtain ⟨v, w₁, ⟨_, rfl⟩, hrest⟩ := h
    exact reconcileAmountFromShares_reads hrest
  | none =>
    simp only [hdel, getUndelegatedAmount, succeeds_bind, succeeds_accAddressFromBech32,
      succeeds_get] at h
    obtain ⟨a, _, ⟨_, rfl⟩, _, _, ⟨rfl, rfl⟩, hrest⟩ := h
    split at hrest
    · exact (succeeds_pure.mp hrest).2
    · exact (succeeds_pure.mp hrest).2

/-! ### The counter by validator -/

/-- A position moves in the counter by validator, from where it was to where it is. -/
def moveCounts (counts : Map ValAddress ℕ) (src dst : Option ValAddress) : Map ValAddress ℕ :=
  if src = dst then counts
  else dst.elim (src.elim counts (decreaseCount counts))
    (increaseCount (src.elim counts (decreaseCount counts)))

/-- The store in which a position has moved in the counter by validator. -/
def Store.moveCount (s : Store) (src dst : Option ValAddress) : Store :=
  { s with positionCountByValidator := moveCounts s.positionCountByValidator src dst }

/-- The spelling of an optional validator in a `ValidatorTransition`. -/
def validatorString (K : Keepers σ) (v : Option ValAddress) : String :=
  (v.map K.valCodec.bytesToString).getD ""

theorem validatorString_injective : Function.Injective (validatorString K) := by
  intro v v' h
  unfold validatorString at h
  cases v with
  | none =>
    cases v' with
    | none => rfl
    | some b => exact absurd h.symm (K.valCodec.bytesToString_ne_empty b)
  | some a =>
    cases v' with
    | none => exact absurd h (K.valCodec.bytesToString_ne_empty a)
    | some b => exact congrArg some (K.valCodec.bytesToString_injective h)

theorem validatorString_eq_empty {v : Option ValAddress} : validatorString K v = "" ↔ v = none := by
  have hnone : validatorString K none = "" := rfl
  rw [← hnone]
  exact validatorString_injective.eq_iff

theorem stringToBytes_validatorString (v : ValAddress) :
    K.valCodec.stringToBytes (validatorString K (some v)) = some v :=
  K.valCodec.stringToBytes_bytesToString v

/-- A transition between two validators in staking's spelling is a move in the counter. -/
theorem succeeds_reindexPositionCountByValidator {src dst : Option ValAddress} :
    Succeeds (reindexPositionCountByValidator K (validatorString K src) (validatorString K dst)) w u
      w' ↔ { w with store := w.store.moveCount src dst } = w' := by
  unfold reindexPositionCountByValidator Store.moveCount moveCounts
  by_cases heq : src = dst
  · rw [if_pos (congrArg _ heq), if_pos heq]
    exact succeeds_pure.trans (and_iff_right rfl)
  · rw [if_neg (fun hs ↦ heq (validatorString_injective hs)), if_neg heq]
    simp only [ne_eq, validatorString_eq_empty]
    cases src with
    | none =>
      cases dst with
      | none => exact absurd rfl heq
      | some b =>
        simp [succeeds_bind, succeeds_valAddressFromBech32, succeeds_modifyStore,
          stringToBytes_validatorString, Store.increasePositionCountForValidator]
    | some a =>
      cases dst with
      | none =>
        simp [succeeds_bind, succeeds_valAddressFromBech32, succeeds_modifyStore,
          stringToBytes_validatorString, Store.decreasePositionCountForValidator]
      | some b =>
        simp [succeeds_bind, succeeds_valAddressFromBech32, succeeds_modifyStore,
          stringToBytes_validatorString, Store.increasePositionCountForValidator,
          Store.decreasePositionCountForValidator]

/-- What a write does to the counter by validator: nothing without a transition. -/
def Store.applyMove (s : Store) (update : Option (Option ValAddress)) (dst : Option ValAddress) :
    Store :=
  match update with
  | none => s
  | some src => s.moveCount src dst

/-- The transition a caller passes, from the validator in `update`. -/
def transition (K : Keepers σ) (update : Option (Option ValAddress)) : Option ValidatorTransition :=
  update.map fun src ↦ ⟨validatorString K src⟩

theorem succeeds_applyTransition {update : Option (Option ValAddress)} {dst : Option ValAddress} :
    Succeeds (applyTransition K (transition K update) (validatorString K dst)) w u w' ↔
      { w with store := w.store.applyMove update dst } = w' := by
  unfold applyTransition transition
  cases update with
  | none => exact succeeds_pure.trans (and_iff_right rfl)
  | some src => exact succeeds_reindexPositionCountByValidator

/-! ### Writing positions -/

/-- The store with a new position and its index entries. -/
def Store.addPosition (s : Store) (owner : AccAddress) (p : Position) : Store :=
  { s with
    positions := s.positions.insert p.id p
    positionsByOwner := s.positionsByOwner.insert (owner, p.id) ()
    positionsByTier := s.positionsByTier.insert (p.tierId, p.id) ()
    positionCountByTier := increaseCount s.positionCountByTier p.tierId }

def Store.putPosition (s : Store) (p : Position) : Store :=
  { s with positions := s.positions.insert p.id p }

/-- The store without a position, its index entries and its redelegation mappings. -/
def Store.removePosition (s : Store) (owner : AccAddress) (p : Position) : Store :=
  { s with
    positions := s.positions.erase p.id
    positionsByOwner := s.positionsByOwner.erase (owner, p.id)
    positionsByTier := s.positionsByTier.erase (p.tierId, p.id)
    positionCountByTier := decreaseCount s.positionCountByTier p.tierId
    redelegationMappings :=
      ((s.redelegationMappings.toList.filter fun entry ↦ entry.2 == p.id).map Prod.fst).foldl
        (fun mappings id ↦ mappings.erase id) s.redelegationMappings }

theorem setPositionWithState_new {state : PositionState} {update : Option (Option ValAddress)}
    {dst : Option ValAddress} (hnew : w.store.positions[state.id]? = none)
    (hdst : (state.delegation.map Delegation.validatorAddress).getD "" = validatorString K dst)
    (h : Succeeds (setPositionWithState K state (transition K update)) w u w') :
    state.validate K.accCodec K.valCodec = .ok () ∧
      ∃ owner, K.accCodec.stringToBytes state.owner = some owner ∧
        w' = { w with
          store := (w.store.addPosition owner state.toPosition).applyMove update dst } := by
  unfold setPositionWithState at h
  rw [hdst] at h
  simp only [succeeds_bind, succeeds_fromOutcome, succeeds_get, succeeds_modifyStore] at h
  obtain ⟨_, _, ⟨hvalid, rfl⟩, _, _, ⟨rfl, rfl⟩, _, _, rfl, _, w₂, hindex, hmove⟩ := h
  simp only [hnew, indexPosition, indexNewPosition, succeeds_bind, succeeds_accAddressFromBech32,
    succeeds_modifyStore] at hindex
  obtain ⟨owner, _, ⟨howner, rfl⟩, _, _, rfl, _, _, rfl, rfl⟩ := hindex
  exact ⟨hvalid, owner, howner, (succeeds_applyTransition.mp hmove).symm⟩

/-- A stored position whose owner and tier stay is replaced in place. -/
theorem succeeds_setPositionWithState {state : PositionState} {old : Position}
    {update : Option (Option ValAddress)} {dst : Option ValAddress}
    (hold : w.store.positions[state.id]? = some old) (howner : old.owner = state.owner)
    (htier : old.tierId = state.tierId)
    (hdst : (state.delegation.map Delegation.validatorAddress).getD "" = validatorString K dst) :
    Succeeds (setPositionWithState K state (transition K update)) w u w' ↔
      state.validate K.accCodec K.valCodec = .ok () ∧
        { w with store := (w.store.putPosition state.toPosition).applyMove update dst } = w' := by
  unfold setPositionWithState
  rw [hdst]
  simp only [succeeds_bind, succeeds_fromOutcome, succeeds_get, succeeds_modifyStore]
  constructor
  · rintro ⟨_, _, ⟨hvalid, rfl⟩, _, _, ⟨rfl, rfl⟩, _, _, rfl, _, w₂, hindex, hmove⟩
    simp only [hold, indexPosition, reindexPosition, howner, htier, ne_eq, not_true,
      if_false] at hindex
    obtain ⟨_, rfl⟩ := succeeds_pure.mp hindex
    exact ⟨hvalid, succeeds_applyTransition.mp hmove⟩
  · rintro ⟨hvalid, rfl⟩
    refine ⟨⟨⟩, w, ⟨hvalid, rfl⟩, w, w, ⟨rfl, rfl⟩, ⟨⟩, _, rfl, ⟨⟩,
      { w with store := w.store.putPosition state.toPosition }, ?_,
      succeeds_applyTransition.mpr rfl⟩
    simp only [hold, indexPosition, reindexPosition, howner, htier, ne_eq, not_true, if_false]
    exact .pure

/-- The validator of the first delegation of a delegator. -/
def Staking.stakedOn (staking : Staking) (del : AccAddress) : Option ValAddress :=
  (staking.delegationsOf del).head?.map Prod.fst

theorem firstDelegation_validatorAddress (staking : Staking) (del : AccAddress) :
    ((firstDelegation K staking del).map Delegation.validatorAddress).getD "" =
      validatorString K (staking.stakedOn del) := by
  unfold firstDelegation Staking.stakedOn validatorString
  cases (staking.delegationsOf del).head? with
  | none => rfl
  | some entry => rfl

/-- `setPosition` reads the live delegation and writes the position with it. -/
theorem succeeds_setPosition {update : Option ValidatorTransition} :
    Succeeds (setPosition K pos update) w u w' ↔
      ∃ a, K.accCodec.stringToBytes pos.delegatorAddress = some a ∧
        Succeeds (setPositionWithState K ⟨pos, firstDelegation K (K.staking w.ext) a⟩ update)
          w u w' := by
  unfold setPosition
  simp only [succeeds_bind, succeeds_getDelegation]
  constructor
  · rintro ⟨del, _, ⟨⟨a, ha, rfl⟩, rfl⟩, hset⟩
    exact ⟨a, ha, hset⟩
  · rintro ⟨a, ha, hset⟩
    exact ⟨_, w, ⟨⟨a, ha, rfl⟩, rfl⟩, hset⟩

/-- A position is deleted only when its delegator has no delegation left. -/
theorem succeeds_deletePosition {update : Option (Option ValAddress)}
    (h : Succeeds (deletePosition K pos (transition K update)) w u w') :
    ∃ owner a ext, K.accCodec.stringToBytes pos.owner = some owner ∧
      K.accCodec.stringToBytes pos.delegatorAddress = some a ∧
      firstDelegation K (K.staking w.ext) a = none ∧
      K.deleteDelegatorWithdrawAddr w.ctx w.ext a owner = .ok ext ∧
      w' = { w with
        ext := ext
        store := (w.store.removePosition owner pos).applyMove update none } := by
  unfold deletePosition deletePositionRedelegationMappings at h
  simp only [succeeds_bind, succeeds_accAddressFromBech32, succeeds_getDelegation,
    succeeds_modifyStore, succeeds_callUnit] at h
  obtain ⟨owner, _, ⟨howner, rfl⟩, a, _, ⟨ha, rfl⟩, del, _, ⟨⟨a', ha', rfl⟩, rfl⟩, _, w₁, hreject,
    _, _, ⟨ext, hext, rfl⟩, _, _, rfl, _, _, rfl, _, _, rfl, _, _, rfl, _, _, rfl, hmove⟩ := h
  rw [ha] at ha'
  obtain rfl := Option.some.inj ha'
  cases hdel : firstDelegation K (K.staking w.ext) a with
  | some del =>
    rw [hdel] at hreject
    exact absurd hreject succeeds_throw
  | none =>
    rw [hdel] at hreject
    obtain ⟨_, rfl⟩ := succeeds_pure.mp hreject
    have hmove' :
        Succeeds (applyTransition K (transition K update) (validatorString K none)) _ _ _ :=
      hmove
    exact ⟨owner, a, ext, howner, ha, hdel, hext, (succeeds_applyTransition.mp hmove').symm⟩

/-! ### Creating positions -/

theorem succeeds_createPositionDelegatorAccount {owner : AccAddress}
    (h : Succeeds (createPositionDelegatorAccount K owner id) w a w') :
    K.account w.ext a = none ∧ w' = { w with ext := K.newAccount w.ext a } := by
  unfold createPositionDelegatorAccount at h
  generalize maxPositionAddressDerivationAttempts = attempts at h
  generalize 0 = nonce at h
  induction attempts generalizing nonce with
  | zero => exact absurd h succeeds_throw
  | succ attempts ih =>
    unfold tryPositionDelegatorAddresses at h
    rw [succeeds_read] at h
    by_cases hused : (K.account w.ext
        (derivePositionDelegatorAddress K w.ctx.headerHash owner id nonce)).isSome
    · rw [if_pos hused] at h
      exact ih _ h
    · rw [if_neg hused] at h
      simp only [succeeds_bind, succeeds_modify, succeeds_pure] at h
      obtain ⟨_, _, rfl, rfl, rfl⟩ := h
      exact ⟨Option.not_isSome_iff_eq_none.mp hused, rfl⟩

/-- The position `createDelegatedPosition` returns, before an exit is triggered on it. -/
def World.newPosition (w : World σ) (owner : String) (tierId : ℕ) (v : ValAddress)
    (delegatorAddress : String) : Position :=
  Position.new w.store.nextPositionId owner tierId delegatorAddress w.ctx.blockHeight.toNat
    (w.store.getValidatorEventLatestSeq v) w.ctx.blockTime true w.ctx.blockTime

theorem succeeds_createDelegatedPosition {owner : String} {tier : Tier} {triggerExit : Bool}
    (h : Succeeds (createDelegatedPosition K owner tier v a triggerExit) w pos w') :
    ∃ ownerAddr ext, K.accCodec.stringToBytes owner = some ownerAddr ∧
      K.setWithdrawAddr w.ctx w.ext a ownerAddr = .ok ext ∧
      pos = (if triggerExit then
          (w.newPosition owner tier.id v (K.accCodec.bytesToString a)).triggerExit w.ctx.blockTime
            tier.exitDuration
        else w.newPosition owner tier.id v (K.accCodec.bytesToString a)) ∧
      w' = { w with
        ext := ext
        store := { w.store with nextPositionId := w.store.nextPositionId + 1 } } := by
  unfold createDelegatedPosition at h
  simp only [succeeds_bind, succeeds_get, succeeds_modifyStore, succeeds_accAddressFromBech32,
    succeeds_callUnit, succeeds_pure] at h
  obtain ⟨_, _, ⟨rfl, rfl⟩, _, _, rfl, ownerAddr, _, ⟨howner, rfl⟩, _, _, ⟨ext, hext, rfl⟩, rfl,
    rfl⟩ := h
  exact ⟨ownerAddr, ext, howner, hext, rfl, rfl⟩

end ChainMain.TieredRewards
