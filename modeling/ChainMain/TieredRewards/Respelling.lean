import ChainMain.TieredRewards.Chain

/-!
# The module under another spelling of its owners

An owner is stored in a position, compared by `IsOwner`, and written into events as the string the
message carries; everything else about the owner is done with the decoded account. A `Respelling` is
a change of that string which the codec does not see and which keeps different strings apart, and
`Respellings` are one for each position. Every keeper function, run on a respelled world with
respelled arguments, ends as it would have ended, in the respelled world: `Alike` says this of one
function, and it is proved of each by following its text. A message on a position is mirrored when
it spells the owner as stored in one world if and only if it does in the other.
-/

set_option autoImplicit false

namespace ChainMain.TieredRewards

open Foundations Decimal OrderedStore StoreProgram

/-! ### Respellings -/

/-- A change of spelling: the codec reads the same address, and different spellings stay
different. -/
structure Respelling (codec : AddressCodec) where
  spell : String → String
  injective : Function.Injective spell
  decodes : ∀ address, codec.stringToBytes (spell address) = codec.stringToBytes address

/-- A change of spelling for each position. -/
structure Respellings (codec : AddressCodec) where
  spell : ℕ → String → String
  injective : ∀ id, Function.Injective (spell id)
  decodes : ∀ id address, codec.stringToBytes (spell id address) = codec.stringToBytes address

instance {codec : AddressCodec} : CoeOut (Respellings codec) (ℕ → String → String) :=
  ⟨Respellings.spell⟩

section Data

variable (ρ : ℕ → String → String)

/-- The position with its owner respelled. -/
def Position.respell (p : Position) : Position := { p with owner := ρ p.id p.owner }

/-- The position with its owner respelled, and its delegation. -/
def PositionState.respell (p : PositionState) : PositionState := { p with owner := ρ p.id p.owner }

/-- The event with its owner respelled; the claim of several positions goes by the first. -/
def Event.respell : Event → Event
  | .tierChanged action tier => .tierChanged action tier
  | .positionCreated position => .positionCreated (position.respell ρ)
  | .delegationCommitted position => .delegationCommitted (position.respell ρ)
  | .baseRewardsClaimed id owner rewards => .baseRewardsClaimed id (ρ id owner) rewards
  | .bonusRewardsClaimed id owner rewards => .bonusRewardsClaimed id (ρ id owner) rewards
  | .positionUndelegated id tierId owner validator time =>
    .positionUndelegated id tierId (ρ id owner) validator time
  | .positionRedelegated id tierId owner src dst time =>
    .positionRedelegated id tierId (ρ id owner) src dst time
  | .positionAmountAdded id tierId owner shares amount =>
    .positionAmountAdded id tierId (ρ id owner) shares amount
  | .exitTriggered id tierId owner time => .exitTriggered id tierId (ρ id owner) time
  | .exitCleared id tierId owner => .exitCleared id tierId (ρ id owner)
  | .tierRewardsClaimed owner ids base bonus =>
    .tierRewardsClaimed (ρ (ids.headD 0) owner) ids base bonus
  | .positionWithdrawn position amount => .positionWithdrawn (position.respell ρ) amount
  | .exitTierWithDelegation id tierId owner validator amount shares full =>
    .exitTierWithDelegation id tierId (ρ id owner) validator amount shares full

/-- The store with the owners of its positions respelled. -/
def Store.respell (s : Store) : Store :=
  { s with positions := s.positions.map fun _ p ↦ p.respell ρ }

/-- The world with the owner of every position respelled. -/
def World.respellEach {σ : Type} (w : World σ) : World σ :=
  { w with store := w.store.respell ρ, emitted := w.emitted.map (Event.respell ρ) }

theorem Store.getElem?_respell (s : Store) (id : ℕ) :
    (s.respell ρ).positions[id]? = (s.positions[id]?).map (Position.respell ρ) :=
  Std.ExtTreeMap.getElem?_map

end Data

/-- Every position is stored under its id. -/
def World.Keyed {σ : Type} (w : World σ) : Prop :=
  ∀ (id : ℕ) (p : Position), w.store.positions[id]? = some p → p.id = id

variable {σ : Type} {K : Keepers σ}

/-- The second program is the first one for respelled owners. -/
abbrev Alike (ρ : ℕ → String → String) {α : Type} (x y : M σ α) : Prop :=
  Mirrors World.Keyed (World.respellEach ρ) id x y

/-- The second program is the first one for respelled owners, from the world `w`. -/
abbrev AlikeAt (ρ : ℕ → String → String) (w : World σ) {α : Type} (x y : M σ α) : Prop :=
  MirrorsAt World.Keyed (World.respellEach ρ) id x y w

/-- The program does not see how owners are spelled. -/
abbrev Blind (ρ : ℕ → String → String) {α : Type} (x : M σ α) : Prop := Alike ρ x x

/-! ### Statements that do not see the spelling -/

section Statements

variable (ρ : ℕ → String → String)

theorem respell_modifyStore {f f' : Store → Store} (h : ∀ s, f' (s.respell ρ) = (f s).respell ρ)
    (hkeyed : ∀ w : World σ, w.Keyed → World.Keyed { w with store := f w.store }) :
    Alike ρ (modifyStore f : M σ PUnit) (modifyStore f') := by
  refine mirrors_modify (fun w ↦ ?_) hkeyed
  exact congrArg (fun s ↦ { w.respellEach ρ with store := s }) (h w.store)

/-- A change of the store beside the positions. -/
theorem respell_modifyRest {f : Store → Store}
    (h : ∀ s, f (s.respell ρ) = (f s).respell ρ ∧ (f s).positions = s.positions) :
    Blind ρ (modifyStore f : M σ PUnit) :=
  respell_modifyStore ρ (fun s ↦ (h s).1) fun w hw id p hp ↦
    hw id p ((congrArg (·[id]?) (h w.store).2).symm.trans hp)

theorem respell_emit (event : Event) :
    Alike ρ (emit event : M σ PUnit) (emit (event.respell ρ)) := by
  refine mirrors_modify (fun w ↦ ?_) fun _ hw ↦ hw
  simp only [World.respellEach, List.map_append, List.map_cons, List.map_nil]

theorem respell_call {α : Type} (f : Context → σ → Except Err (α × σ)) :
    Blind ρ (call f) := by
  refine mirrors_get_bind fun w hw ↦ mirrors_bind (mirrors_fromOutcome_self _) ?_
  rintro ⟨a, ext⟩
  exact mirrors_bind (mirrors_set (s := { w with ext }) hw) fun _ ↦ mirrors_pure rfl

theorem respell_callUnit (f : Context → σ → Except Err σ) :
    Blind ρ (callUnit f) :=
  respell_call ρ _

theorem respell_callRemoving {α : Type} (f : Context → σ → Except Err ((α × List ValAddress) × σ)) :
    Blind ρ (callRemoving f) := by
  refine mirrors_bind (respell_call ρ f) fun result ↦ ?_
  refine mirrors_bind (respell_modifyRest ρ fun s ↦ ?_) fun _ ↦ mirrors_pure rfl
  -- the hook writes the sequences only, whatever validators are removed
  generalize result.2 = removed
  induction removed generalizing s with
  | nil => exact ⟨rfl, rfl⟩
  | cons v removed ih => exact ih (s.afterValidatorRemoved v)

theorem respell_getTier (tierId : ℕ) :
    Blind ρ (getTier tierId : M σ Tier) :=
  mirrors_get_bind fun _ _ ↦ mirrors_expect_self _ _

theorem respell_setTier (tier : Tier) :
    Blind ρ (setTier tier : M σ PUnit) :=
  mirrors_bind (mirrors_fromOutcome_self _) fun _ ↦ respell_modifyRest ρ fun _ ↦ ⟨rfl, rfl⟩

theorem respell_deleteTier (tierId : ℕ) :
    Blind ρ (deleteTier tierId : M σ PUnit) :=
  mirrors_get_bind fun _ _ ↦ mirrors_bind (mirrors_ensure _ rfl) fun _ ↦
    respell_modifyRest ρ fun _ ↦ ⟨rfl, rfl⟩

theorem respell_getValidator (v : ValAddress) :
    Blind ρ (getValidator K v) :=
  mirrors_get_bind fun _ _ ↦ mirrors_expect_self _ _

theorem respell_getBondedValidator (v : ValAddress) (notFound : ErrCode) :
    Blind ρ (getBondedValidator K v notFound) :=
  mirrors_get_bind fun _ _ ↦ mirrors_bind (mirrors_expect_self _ _) fun _ ↦
    mirrors_bind (mirrors_ensure _ rfl) fun _ ↦ mirrors_pure rfl

theorem respell_getTokensPerShare (v : ValAddress) :
    Blind ρ (getTokensPerShare K v) :=
  mirrors_bind (respell_getValidator ρ v) fun _ ↦ mirrors_pure rfl

theorem respell_reconcileAmountFromShares (v : ValAddress) (shares : Dec) :
    Blind ρ (reconcileAmountFromShares K v shares) :=
  mirrors_bind (respell_getValidator ρ v) fun _ ↦ mirrors_pure rfl

theorem respell_delegate (del : AccAddress) (v : ValAddress) (amount : ℤ) :
    Blind ρ (delegate K del v amount) :=
  mirrors_bind (respell_getValidator ρ v) fun _ ↦ mirrors_bind (mirrors_ensure _ rfl) fun _ ↦
    respell_call ρ _

theorem respell_redelegate (del : AccAddress) (src dst : ValAddress) (shares : Dec) :
    Blind ρ (redelegate K del src dst shares) :=
  mirrors_bind (respell_getValidator ρ dst) fun _ ↦ mirrors_bind (mirrors_ensure _ rfl) fun _ ↦
    respell_callRemoving ρ _

theorem respell_getDelegation (address : String) :
    Blind ρ (getDelegation K address) :=
  mirrors_bind (mirrors_expect_self _ _) fun _ ↦ mirrors_get_bind fun _ _ ↦ mirrors_pure rfl

theorem respell_isRedelegating (address : String) :
    Blind ρ (isRedelegating K address) :=
  mirrors_bind (mirrors_expect_self _ _) fun _ ↦ mirrors_get_bind fun _ _ ↦ mirrors_pure rfl

theorem respell_isUnbonding (address : String) :
    Blind ρ (isUnbonding K address) :=
  mirrors_bind (mirrors_expect_self _ _) fun _ ↦ mirrors_get_bind fun _ _ ↦ mirrors_pure rfl

theorem respell_reindexPositionCountByValidator (src dst : String) :
    Blind ρ (reindexPositionCountByValidator K src dst) := by
  have hdst : Blind ρ (if dst ≠ "" then do
        let v ← valAddressFromBech32 K dst bech32Error
        modifyStore fun s ↦ s.increasePositionCountForValidator v
      else pure ⟨⟩) :=
    mirrors_ite Iff.rfl (mirrors_bind (mirrors_expect_self _ _) fun _ ↦
      respell_modifyRest ρ fun _ ↦ ⟨rfl, rfl⟩) (mirrors_pure rfl)
  refine mirrors_ite Iff.rfl (mirrors_pure rfl) (mirrors_ite Iff.rfl ?_ hdst)
  refine mirrors_bind (mirrors_expect_self _ _) fun _ ↦ ?_
  exact mirrors_bind (respell_modifyRest ρ fun _ ↦ ⟨rfl, rfl⟩) fun _ ↦ hdst

theorem respell_applyTransition (update : Option ValidatorTransition) (currVal : String) :
    Blind ρ (applyTransition K update currVal) := by
  cases update with
  | none => exact mirrors_pure rfl
  | some update => exact respell_reindexPositionCountByValidator ρ _ _

theorem respell_createPositionDelegatorAccount (owner : AccAddress) (positionId : ℕ) :
    Blind ρ (createPositionDelegatorAccount K owner positionId) := by
  have htry : ∀ attempts nonce,
      Blind ρ (tryPositionDelegatorAddresses K owner positionId nonce attempts) := by
    intro attempts
    induction attempts with
    | zero => exact fun nonce ↦ mirrors_throw _
    | succ attempts ih =>
      intro nonce
      refine mirrors_get_bind fun w _ ↦ mirrors_ite Iff.rfl (ih _) ?_
      exact mirrors_bind (mirrors_modify (fun _ ↦ rfl) fun _ hw ↦ hw) fun _ ↦ mirrors_pure rfl
  exact htry _ _

theorem respell_moveShares (src dst : AccAddress) (v : ValAddress) (shares : Dec) :
    Blind ρ (moveShares K src dst v shares) := by
  refine mirrors_bind (respell_callRemoving ρ _) fun amount ↦ ?_
  refine mirrors_bind (mirrors_ensure _ rfl) fun _ ↦ ?_
  refine mirrors_bind (respell_getValidator ρ v) fun val ↦ ?_
  exact mirrors_bind (respell_call ρ _) fun _ ↦ mirrors_pure rfl

theorem respell_sweepBalances (del owner : AccAddress) :
    Blind ρ (sweepBalances K del owner) := by
  refine mirrors_get_bind fun w _ ↦ mirrors_ite Iff.rfl ?_ (mirrors_pure rfl)
  exact mirrors_bind (respell_callUnit ρ _) fun _ ↦ mirrors_pure rfl

theorem respell_recordValidatorEvent (eventType : ValidatorEventType) (v : ValAddress) :
    Blind ρ (recordValidatorEvent K eventType v) := by
  refine mirrors_get_bind fun w _ ↦ mirrors_ite Iff.rfl ?_ (mirrors_pure rfl)
  exact mirrors_bind (respell_getTokensPerShare ρ v) fun _ ↦ respell_modifyRest ρ fun _ ↦ ⟨rfl, rfl⟩

theorem respell_afterValidatorRemoved (v : ValAddress) :
    Blind ρ (afterValidatorRemoved v : M σ PUnit) :=
  respell_modifyRest ρ fun _ ↦ ⟨rfl, rfl⟩

theorem respell_afterRedelegationCompleted (ids : List ℕ) :
    Blind ρ (afterRedelegationCompleted ids : M σ PUnit) :=
  respell_modifyRest ρ fun _ ↦ ⟨rfl, rfl⟩

end Statements

/-! ### Positions -/

section Positions

variable (ρ : Respellings K.accCodec)

theorem respell_address {owner owner' : String}
    (h : K.accCodec.stringToBytes owner' = K.accCodec.stringToBytes owner) (e : Err) :
    Alike ρ (accAddressFromBech32 K owner e) (accAddressFromBech32 K owner' e) := by
  refine mirrors_expect e ?_
  rw [h, Option.map_id_apply]

theorem respell_ownerAddress (pos : Position) (e : Err) :
    Alike ρ (accAddressFromBech32 K pos.owner e) (accAddressFromBech32 K (pos.respell ρ).owner e) :=
  respell_address ρ (ρ.decodes pos.id pos.owner) e

theorem respell_getPosition (positionId : ℕ) :
    Mirrors World.Keyed (World.respellEach ρ) (Position.respell ρ)
      (getPosition positionId : M σ Position)
      (getPosition positionId) :=
  mirrors_get_bind fun w _ ↦ mirrors_expect _ (w.store.getElem?_respell ρ positionId)

theorem respell_getPositionState (positionId : ℕ) :
    Mirrors World.Keyed (World.respellEach ρ) (PositionState.respell ρ)
      (getPositionState K positionId)
      (getPositionState K positionId) :=
  mirrors_bind (respell_getPosition ρ positionId) fun _ ↦
    mirrors_bind (respell_getDelegation ρ _) fun _ ↦ mirrors_pure rfl

theorem respell_indexPosition (oldPos : Option Position) (pos : Position)
    (hid : ∀ p, oldPos = some p → p.id = pos.id) :
    Alike ρ (indexPosition K oldPos pos)
      (indexPosition K (oldPos.map (Position.respell ρ)) (pos.respell ρ)) := by
  cases oldPos with
  | none =>
    refine mirrors_bind (respell_ownerAddress ρ pos _) fun owner ↦ ?_
    refine mirrors_bind (respell_modifyRest _ fun _ ↦ ⟨rfl, rfl⟩) fun _ ↦ ?_
    refine mirrors_bind (respell_modifyRest _ fun _ ↦ ⟨rfl, rfl⟩) fun _ ↦ ?_
    exact respell_modifyRest _ fun _ ↦ ⟨rfl, rfl⟩
  | some oldPos =>
    have htier : Blind ρ (if oldPos.tierId ≠ pos.tierId then do
          modifyStore fun s ↦
            { s with positionsByTier := s.positionsByTier.erase (oldPos.tierId, pos.id) }
          modifyStore fun s ↦
            { s with positionsByTier := s.positionsByTier.insert (pos.tierId, pos.id) () }
          modifyStore fun s ↦ s.decreasePositionCountForTier oldPos.tierId
          modifyStore fun s ↦ s.increasePositionCountForTier pos.tierId
        else pure ⟨⟩ : M σ PUnit) := by
      refine mirrors_ite Iff.rfl ?_ (mirrors_pure rfl)
      refine mirrors_bind (respell_modifyRest _ fun _ ↦ ⟨rfl, rfl⟩) fun _ ↦ ?_
      refine mirrors_bind (respell_modifyRest _ fun _ ↦ ⟨rfl, rfl⟩) fun _ ↦ ?_
      refine mirrors_bind (respell_modifyRest _ fun _ ↦ ⟨rfl, rfl⟩) fun _ ↦ ?_
      exact respell_modifyRest _ fun _ ↦ ⟨rfl, rfl⟩
    -- an owner that is spelled as before is still spelled as before
    have howner : (oldPos.respell ρ).owner = (pos.respell ρ).owner ↔ oldPos.owner = pos.owner := by
      unfold Position.respell
      rw [hid oldPos rfl, (ρ.injective pos.id).eq_iff]
    refine mirrors_ite (not_congr howner.symm) ?_ htier
    refine mirrors_bind (respell_ownerAddress ρ oldPos _) fun oldOwner ↦ ?_
    refine mirrors_bind (respell_modifyRest _ fun _ ↦ ⟨rfl, rfl⟩) fun _ ↦ ?_
    refine mirrors_bind (respell_ownerAddress ρ pos _) fun newOwner ↦ ?_
    exact mirrors_bind (respell_modifyRest _ fun _ ↦ ⟨rfl, rfl⟩) fun _ ↦ htier

theorem respell_validate (state : PositionState) :
    (state.respell ρ).validate K.accCodec K.valCodec =
      state.validate K.accCodec K.valCodec := by
  have howner : (state.respell ρ).toPosition.validate K.accCodec =
      state.toPosition.validate K.accCodec := by
    unfold Position.validate
    rw [show (state.respell ρ).owner = ρ.spell state.id state.owner from rfl, ρ.decodes]
    rfl
  unfold PositionState.validate
  rw [howner]
  rfl

theorem respell_setPositionWithState (state : PositionState) (update : Option ValidatorTransition) :
    Alike ρ (setPositionWithState K state update)
      (setPositionWithState K (state.respell ρ) update) := by
  unfold setPositionWithState
  rw [respell_validate]
  refine mirrors_bind (mirrors_fromOutcome_self _) fun _ ↦ mirrors_get_bind fun w hw ↦ ?_
  refine mirrors_bind (respell_modifyStore _ (fun s ↦ ?_) fun w' hw' id p hp ↦ ?_) fun _ ↦ ?_
  · exact congrArg (fun positions ↦ { s with positions := positions })
      (map_insert (fun _ p ↦ Position.respell ρ p) s.positions _ _).symm
  · rw [getElem?_insert_eq] at hp
    split_ifs at hp with hid
    · obtain rfl := Option.some.inj hp
      exact hid
    · exact hw' id p hp
  have hindex : Alike ρ
      (indexPosition K w.store.positions[state.id]? state.toPosition)
      (indexPosition K (w.respellEach ρ).store.positions[state.id]?
        (state.toPosition.respell ρ)) := by
    rw [show (w.respellEach ρ).store.positions[state.id]? = _ from
      w.store.getElem?_respell ρ state.id]
    exact respell_indexPosition ρ _ _ fun p hp ↦ hw _ p hp
  exact mirrors_bind hindex fun _ ↦ respell_applyTransition ρ _ _

theorem respell_setPosition (pos : Position) (update : Option ValidatorTransition) :
    Alike ρ (setPosition K pos update)
      (setPosition K (pos.respell ρ) update) :=
  mirrors_bind (respell_getDelegation ρ _) fun del ↦
    respell_setPositionWithState ρ { toPosition := pos, delegation := del } update

theorem respell_deletePosition (pos : Position) (update : Option ValidatorTransition) :
    Alike ρ (deletePosition K pos update)
      (deletePosition K (pos.respell ρ) update) := by
  refine mirrors_bind (respell_ownerAddress ρ pos _) fun owner ↦ ?_
  refine mirrors_bind (mirrors_expect_self _ _) fun delAddr ↦ ?_
  refine mirrors_bind (respell_getDelegation ρ _) fun del ↦ ?_
  have hreject : Blind ρ (rejectDelegated pos.id del : M σ PUnit) := by
    cases del with
    | none => exact mirrors_pure rfl
    | some del => exact mirrors_throw _
  refine mirrors_bind hreject fun _ ↦ mirrors_bind (respell_callUnit _ _) fun _ ↦ ?_
  refine mirrors_bind (respell_modifyRest _ fun _ ↦ ⟨rfl, rfl⟩) fun _ ↦ ?_
  refine mirrors_bind (respell_modifyStore _ (fun s ↦ ?_) fun w' hw' id p hp ↦ ?_) fun _ ↦ ?_
  · exact congrArg (fun positions ↦ { s with positions := positions })
      (map_erase (fun _ p ↦ Position.respell ρ p) s.positions _).symm
  · rw [getElem?_erase_eq] at hp
    split_ifs at hp
    exact hw' id p hp
  refine mirrors_bind (respell_modifyRest _ fun _ ↦ ⟨rfl, rfl⟩) fun _ ↦ ?_
  refine mirrors_bind (respell_modifyRest _ fun _ ↦ ⟨rfl, rfl⟩) fun _ ↦ ?_
  refine mirrors_bind (respell_modifyRest _ fun _ ↦ ⟨rfl, rfl⟩) fun _ ↦ ?_
  exact respell_applyTransition ρ _ _

/-- The new position is spelled as the position whose id it gets, and the id is then checked. -/
theorem respell_storeNewPosition (owner : String) (tier : Tier) (v : ValAddress) (del : AccAddress)
    (exiting : Bool) (positionId : ℕ) :
    Mirrors World.Keyed (World.respellEach ρ) (Position.respell ρ)
      (storeNewPosition K owner tier v del exiting positionId)
      (storeNewPosition K (ρ.spell positionId owner) tier v del exiting positionId) := by
  have hcreate : Mirrors World.Keyed (World.respellEach ρ)
      (fun pos ↦ { pos with owner := ρ.spell positionId pos.owner })
      (createDelegatedPosition K owner tier v del exiting)
      (createDelegatedPosition K (ρ.spell positionId owner) tier v del exiting) := by
    refine mirrors_get_bind fun w _ ↦
      mirrors_bind (respell_modifyRest _ fun _ ↦ ⟨rfl, rfl⟩) fun _ ↦ ?_
    refine mirrors_bind (respell_address ρ (ρ.decodes _ _) _) fun ownerAddr ↦ ?_
    refine mirrors_bind (respell_callUnit _ _) fun _ ↦ mirrors_pure ?_
    cases exiting <;> rfl
  refine mirrors_bind hcreate fun pos w hw ↦ mirrorsAt_bind (mirrors_ensure _ rfl w hw) ?_
  intro _ w' hid hw'
  obtain rfl := of_decide_eq_true (succeeds_ensure.mp hid).1
  refine mirrors_bind (respell_setPosition ρ pos _) (fun _ ↦ ?_) w' hw'
  exact mirrors_pure rfl

end Positions

/-! ### Rewards -/

section Rewards

variable (ρ : Respellings K.accCodec)

theorem respell_sufficientBonusPoolBalance (bonus : Coins) :
    Blind ρ (sufficientBonusPoolBalance K bonus) :=
  mirrors_ite Iff.rfl (mirrors_pure rfl)
    (mirrors_get_bind fun _ _ ↦ mirrors_ensure _ rfl)

theorem respell_payBonus (pos : Position) (totalBonus : ℤ) :
    Alike ρ (payBonus K pos totalBonus)
      (payBonus K (pos.respell ρ) totalBonus) := by
  refine mirrors_ite Iff.rfl (mirrors_pure rfl) (mirrors_get_bind fun w _ ↦ ?_)
  refine mirrors_bind (mirrors_ensure _ rfl) fun _ ↦ ?_
  refine mirrors_bind (respell_sufficientBonusPoolBalance ρ _) fun _ ↦ ?_
  refine mirrors_bind (respell_ownerAddress ρ pos _) fun owner ↦ ?_
  refine mirrors_bind (respell_callUnit _ _) fun _ ↦ ?_
  exact mirrors_bind (respell_emit _ (.bonusRewardsClaimed pos.id pos.owner _)) fun _ ↦
    mirrors_pure rfl

theorem respell_bonus (w : World σ) (pos : PositionState) (shares : Dec) (tier : Tier)
    (v : ValAddress) (bonded : Bool) (rate : Dec) :
    (w.respellEach ρ).store.bonus (pos.respell ρ).toPosition shares tier v bonded rate
      (w.respellEach ρ).ctx.blockTime =
        w.store.bonus pos.toPosition shares tier v bonded rate w.ctx.blockTime :=
  rfl

theorem respell_settled (w : World σ) (pos : PositionState) (shares : Dec) (tier : Tier)
    (v : ValAddress) :
    (w.respellEach ρ).store.settled (pos.respell ρ).toPosition shares tier v
      (w.respellEach ρ).ctx.blockTime =
        (w.store.settled pos.toPosition shares tier v w.ctx.blockTime).respell ρ :=
  rfl

/-- The settlement does not see the spelling, whether it pays or not. -/
theorem respell_processEvents (pos : PositionState) :
    Mirrors World.Keyed (World.respellEach ρ) (fun r ↦ (r.1.respell ρ, r.2))
      (always (processEventsAndClaimBonus K pos) : M σ _)
      (always (processEventsAndClaimBonus K (pos.respell ρ))) := by
  refine mirrors_always fun w hw ↦ ?_
  cases hdel : pos.delegation with
  | none =>
    unfold processEventsAndClaimBonus
    rw [show (pos.respell ρ).delegation = none from hdel, hdel]
    exact ⟨rfl, hw⟩
  | some del =>
    have hdel' : (pos.respell ρ).delegation = some del := hdel
    cases hv : K.valCodec.stringToBytes del.validatorAddress with
    | none =>
      unfold processEventsAndClaimBonus
      simp only [hdel, hdel', hv]
      exact ⟨rfl, hw⟩
    | some v =>
      cases htier : w.store.tiers[pos.tierId]? with
      | none =>
        have htier' : (w.respellEach ρ).store.tiers[(pos.respell ρ).tierId]? = none := htier
        unfold processEventsAndClaimBonus
        simp only [hdel, hdel', hv, StateT.run_bind, StateT.run_get, htier, htier', pure_bind]
        exact ⟨rfl, hw⟩
      | some tier =>
        have htier' : (w.respellEach ρ).store.tiers[(pos.respell ρ).tierId]? = some tier :=
          htier
        cases hval : (K.staking w.ext).validators[v]? with
        | none =>
          have hval' : (K.staking (w.respellEach ρ).ext).validators[v]? = none := hval
          unfold processEventsAndClaimBonus
          simp only [hdel, hdel', hv, StateT.run_bind, StateT.run_get, htier, htier',
            StateT.run_set, hval, hval', pure_bind]
          exact ⟨rfl, hw⟩
        | some val =>
          have hval' : (K.staking (w.respellEach ρ).ext).validators[v]? = some val := hval
          rw [run_processEventsAndClaimBonus hdel hv htier hval,
            run_processEventsAndClaimBonus hdel' hv htier' hval', respell_settled, respell_bonus]
          obtain ⟨hpay, hkeyed⟩ := respell_payBonus ρ
            (w.store.settled pos.toPosition del.shares tier v w.ctx.blockTime)
            (w.store.bonus pos.toPosition del.shares tier v val.isBonded val.tokensPerShare
              w.ctx.blockTime) { w with store := w.store.replayed pos.toPosition v } hw
          rw [Except.map_id] at hpay
          have houtcome := congrArg Prod.fst hpay
          have hworld := congrArg Prod.snd hpay
          exact ⟨Prod.ext (Prod.ext rfl houtcome) hworld, hkeyed⟩

theorem respell_claimBonus (pos : PositionState) :
    Mirrors World.Keyed (World.respellEach ρ) (fun r ↦ (r.1.respell ρ, r.2)) (claimBonus K pos)
      (claimBonus K (pos.respell ρ)) := by
  refine mirrors_bind (respell_processEvents ρ pos) ?_
  rintro ⟨pos', outcome⟩
  exact mirrors_bind (mirrors_fromOutcome_self _) fun _ ↦ mirrors_pure rfl

theorem respell_claimBaseRewards (pos : PositionState) :
    Alike ρ (claimBaseRewards K pos)
      (claimBaseRewards K (pos.respell ρ)) := by
  unfold claimBaseRewards
  rw [show (pos.respell ρ).delegation = pos.delegation from rfl]
  cases pos.delegation with
  | none => exact mirrors_pure rfl
  | some del =>
    refine mirrors_bind (mirrors_expect_self _ _) fun v ↦ ?_
    refine mirrors_bind (mirrors_expect_self _ _) fun a ↦ ?_
    refine mirrors_bind (respell_call _ _) fun rewards ↦ ?_
    refine mirrors_ite Iff.rfl ?_ (mirrors_pure rfl)
    exact mirrors_bind (respell_emit _ (.baseRewardsClaimed pos.id pos.owner rewards)) fun _ ↦
      mirrors_pure rfl

theorem respell_claimRewards (pos : PositionState) :
    Mirrors World.Keyed (World.respellEach ρ) (fun r ↦ (r.1.respell ρ, r.2)) (claimRewards K pos)
      (claimRewards K (pos.respell ρ)) := by
  refine mirrors_ite Iff.rfl ?_ (mirrors_pure rfl)
  refine mirrors_bind (respell_claimBaseRewards ρ pos) fun base ↦ ?_
  exact mirrors_bind (respell_claimBonus ρ pos) fun _ ↦ mirrors_pure rfl

theorem respell_claimRewardsAndUpdatePosition (pos : PositionState) :
    Alike ρ (claimRewardsAndUpdatePosition K pos)
      (claimRewardsAndUpdatePosition K (pos.respell ρ)) := by
  refine mirrors_ite Iff.rfl ?_ (mirrors_pure rfl)
  refine mirrors_bind (respell_claimBaseRewards ρ pos) fun base ↦ ?_
  refine mirrors_bind (respell_claimBonus ρ pos) fun claimed ↦ ?_
  exact mirrors_bind (respell_setPosition ρ claimed.1.toPosition none) fun _ ↦ mirrors_pure rfl

theorem respell_claimRewardsAndUpdatePositionIds (ids : List ℕ) :
    Blind ρ (claimRewardsAndUpdatePositionIds K ids) := by
  induction ids with
  | nil => exact mirrors_pure rfl
  | cons positionId ids ih =>
    refine mirrors_bind (respell_getPositionState ρ positionId) fun pos ↦ ?_
    exact mirrors_bind (respell_claimRewardsAndUpdatePosition ρ pos) fun _ ↦ ih

theorem respell_claimRewardsAndUpdatesPositions (positions : List PositionState)
    (totalBase totalBonus : Coins) :
    Alike ρ
      (claimRewardsAndUpdatesPositions K positions totalBase totalBonus)
      (claimRewardsAndUpdatesPositions K (positions.map (PositionState.respell ρ)) totalBase
        totalBonus) := by
  induction positions generalizing totalBase totalBonus with
  | nil => exact mirrors_pure rfl
  | cons pos positions ih =>
    exact mirrors_bind (respell_claimRewardsAndUpdatePosition ρ pos) fun _ ↦ ih _ _

theorem respell_slashRedelegationPosition (unbondingId : ℕ) (shares : Dec) :
    Blind ρ (slashRedelegationPosition K unbondingId shares) := by
  have hsettle : ∀ pos, Mirrors World.Keyed (World.respellEach ρ) (PositionState.respell ρ)
      (settleBeforeSlash K pos) (settleBeforeSlash K (pos.respell ρ)) := by
    intro pos
    refine mirrors_bind (respell_processEvents ρ pos) ?_
    rintro ⟨pos', outcome⟩
    cases outcome with
    | ok bonus => exact mirrors_pure rfl
    | error e => exact mirrors_ite Iff.rfl (mirrors_pure rfl) (mirrors_throw _)
  have hslash : ∀ pos del, Alike ρ (slashDelegatedPosition K pos del shares)
      (slashDelegatedPosition K (pos.respell ρ) del shares) := by
    intro pos del
    refine mirrors_bind (hsettle pos) fun settled ↦ mirrors_ite Iff.rfl ?_ ?_
    · exact respell_setPositionWithState ρ
        (({ settled with delegation := none } : PositionState).withPosition
          settled.toPosition.clearBonusCheckpoints) _
    · exact respell_setPositionWithState ρ
        { settled with delegation := some (del.subShares shares) } none
  refine mirrors_get_bind fun w _ ↦ ?_
  rw [show (w.respellEach ρ).store.redelegationMappings[unbondingId]? =
    w.store.redelegationMappings[unbondingId]? from rfl]
  cases w.store.redelegationMappings[unbondingId]? with
  | none => exact mirrors_pure rfl
  | some positionId =>
    have hstored : w.store.positions[positionId]?.isNone ↔
        (w.respellEach ρ).store.positions[positionId]?.isNone := by
      rw [show (w.respellEach ρ).store.positions[positionId]? = _ from
        w.store.getElem?_respell ρ positionId, Option.isNone_map]
    refine mirrors_ite hstored (mirrors_pure rfl) ?_
    refine mirrors_bind (respell_getPositionState ρ positionId) fun pos ↦ ?_
    rw [show (pos.respell ρ).delegation = pos.delegation from rfl]
    cases pos.delegation with
    | none => exact mirrors_pure rfl
    | some del => exact hslash pos del

end Rewards

/-! ### Messages -/

/-- The message with another owner; a message of the authority has none. -/
def Msg.withOwner (owner : String) : Msg → Msg
  | .lockTier msg => .lockTier { msg with owner }
  | .commitDelegationToTier msg => .commitDelegationToTier { msg with delegatorAddress := owner }
  | .tierUndelegate msg => .tierUndelegate { msg with owner }
  | .tierRedelegate msg => .tierRedelegate { msg with owner }
  | .addToTierPosition msg => .addToTierPosition { msg with owner }
  | .triggerExitFromTier msg => .triggerExitFromTier { msg with owner }
  | .clearPosition msg => .clearPosition { msg with owner }
  | .claimTierRewards msg => .claimTierRewards { msg with owner }
  | .withdrawFromTier msg => .withdrawFromTier { msg with owner }
  | .exitTierWithDelegation msg => .exitTierWithDelegation { msg with owner }
  | msg => msg

def Msg.positionIds : Msg → List ℕ
  | .tierUndelegate msg => [msg.positionId]
  | .tierRedelegate msg => [msg.positionId]
  | .addToTierPosition msg => [msg.positionId]
  | .triggerExitFromTier msg => [msg.positionId]
  | .clearPosition msg => [msg.positionId]
  | .claimTierRewards msg => msg.positionIds
  | .withdrawFromTier msg => [msg.positionId]
  | .exitTierWithDelegation msg => [msg.positionId]
  | _ => []

def Msg.createsPosition : Msg → Bool
  | .lockTier _ => true
  | .commitDelegationToTier _ => true
  | _ => false

/-- Another owner for a message in the respelled world: it denotes the same account, it is the
stored owner of a position the message names if and only if the owner of the message is, and a
position that is created gets it as its spelling. -/
structure Respelled {codec : AddressCodec} (ρ : Respellings codec) (w : World σ) (msg : Msg)
    (owner : String) : Prop where
  decodes : codec.stringToBytes owner = codec.stringToBytes msg.signer
  asStored : ∀ id ∈ msg.positionIds, ∀ p, w.store.positions[id]? = some p →
    (p.respell ρ).isOwner owner = p.isOwner msg.signer
  created : msg.createsPosition → owner = ρ.spell w.store.nextPositionId msg.signer

section Messages

variable (ρ : Respellings K.accCodec)

theorem respell_validateAddress {address address' : String}
    (h : K.accCodec.stringToBytes address' = K.accCodec.stringToBytes address) (text : String) :
    validateAddress K.accCodec address' text = validateAddress K.accCodec address text := by
  unfold validateAddress
  rw [h]

/-- Where the spelling of a message is the stored one, the other spelling is the respelled one. -/
theorem spell_eq_of_isOwner {p : Position} {owner owner' : String}
    (h : (p.respell ρ).isOwner owner' = p.isOwner owner) (hp : p.isOwner owner) :
    ρ.spell p.id owner = owner' := by
  have howner' : ρ.spell p.id p.owner = owner' := beq_iff_eq.mp (h.trans hp)
  rwa [beq_iff_eq.mp hp] at howner'

/-- A handler that checks its message and loads the position it names goes on alike. -/
theorem respell_loading {α : Type} {w : World σ} (hw : w.Keyed) {id : ℕ} {owner owner' : String}
    {checked : Except Err Unit} {k k' : PositionState → M σ α}
    (howner : ∀ p, w.store.positions[id]? = some p →
      (p.respell ρ).isOwner owner' = p.isOwner owner)
    (hk : ∀ pos, (pos.toPosition.respell ρ).isOwner owner' = pos.toPosition.isOwner owner →
      Alike ρ (k pos) (k' (pos.respell ρ))) :
    AlikeAt ρ w (do fromOutcome checked; let pos ← getPositionState K id; k pos)
      (do fromOutcome checked; let pos ← getPositionState K id; k' pos) := by
  refine mirrorsAt_read (mirrors_fromOutcome_self _ w hw)
    (fun _ _ h ↦ (succeeds_fromOutcome.mp h).2.symm) fun _ _ ↦ ?_
  refine mirrorsAt_read (respell_getPositionState ρ id w hw)
    (fun _ _ h ↦ (succeeds_getPositionState.mp h).2.2.symm) fun pos hpos ↦ ?_
  exact hk pos (howner _ (succeeds_getPositionState.mp hpos).1) w hw

theorem respell_rejectRedelegating (pos : Position) :
    Alike ρ (rejectRedelegating K pos)
      (rejectRedelegating K (pos.respell ρ)) :=
  mirrors_bind (respell_isRedelegating ρ _) fun _ ↦ mirrors_ensure _ rfl

theorem respell_rejectUnbonding (pos : Position) :
    Alike ρ (rejectUnbonding K pos)
      (rejectUnbonding K (pos.respell ρ)) :=
  mirrors_bind (respell_isUnbonding ρ _) fun _ ↦ mirrors_ensure _ rfl

theorem respell_validateNewPosition {owner owner' : String}
    (h : K.accCodec.stringToBytes owner' = K.accCodec.stringToBytes owner) (amount : ℤ)
    (tier : Tier) :
    Alike ρ (validateNewPosition K owner amount tier)
      (validateNewPosition K owner' amount tier) := by
  have hvesting :
      Alike ρ (validateNonVestingAccount K owner) (validateNonVestingAccount K owner') :=
    mirrors_bind (respell_address ρ h _) fun _ ↦ mirrors_get_bind fun _ _ ↦
      mirrors_ensure _ rfl
  refine mirrors_bind hvesting fun _ ↦ mirrors_bind (mirrors_ensure _ rfl) fun _ ↦ ?_
  exact mirrors_ensure _ rfl

theorem respell_transferDelegationToPosition {owner owner' : String}
    (h : K.accCodec.stringToBytes owner' = K.accCodec.stringToBytes owner) (validatorAddr : String)
    (del : AccAddress) (amount : ℤ) :
    Alike ρ (transferDelegationToPosition K owner del validatorAddr amount)
      (transferDelegationToPosition K owner' del validatorAddr amount) := by
  refine mirrors_bind (mirrors_ensure _ rfl) fun _ ↦ ?_
  refine mirrors_bind (respell_address ρ h _) fun src ↦ ?_
  refine mirrors_bind (mirrors_expect_self _ _) fun v ↦
    mirrors_bind (mirrors_ensure _ rfl) fun _ ↦ ?_
  refine mirrors_bind (respell_getBondedValidator _ _ _) fun _ ↦ mirrors_get_bind fun w _ ↦ ?_
  refine mirrors_bind (mirrors_ensure _ rfl) fun _ ↦ ?_
  refine mirrors_bind (mirrors_fromOutcome_self _) fun shares ↦ ?_
  exact mirrors_bind (respell_moveShares _ _ _ _ _) fun _ ↦ mirrors_pure rfl

theorem respell_validateExitTierWithDelegation (pos : PositionState) {owner owner' : String}
    (howner : (pos.toPosition.respell ρ).isOwner owner' = pos.toPosition.isOwner owner)
    (amount : ℤ) :
    Alike ρ (validateExitTierWithDelegation K pos owner amount)
      (validateExitTierWithDelegation K (pos.respell ρ) owner' amount) := by
  have hamount : Alike ρ (getPositionAmount K pos)
      (getPositionAmount K (pos.respell ρ)) := by
    unfold getPositionAmount
    rw [show (pos.respell ρ).delegation = pos.delegation from rfl]
    cases pos.delegation with
    | some del =>
      exact mirrors_bind (mirrors_expect_self _ _) fun _ ↦ respell_reconcileAmountFromShares _ _ _
    | none =>
      refine mirrors_bind (mirrors_expect_self _ _) fun del ↦ mirrors_get_bind fun w _ ↦ ?_
      dsimp only [World.respellEach, id]
      rcases (K.staking w.ext).unbondingDelegationsOf del with _ | ⟨_ | ⟨entry, _⟩, _⟩ <;>
        exact mirrors_pure rfl
  refine mirrors_bind (mirrors_ensure _ howner) fun _ ↦ ?_
  refine mirrors_bind (mirrors_ensure _ rfl) fun _ ↦ mirrors_bind (mirrors_ensure _ rfl) fun _ ↦ ?_
  refine mirrors_get_bind fun _ _ ↦ mirrors_bind (mirrors_ensure _ rfl) fun _ ↦ ?_
  refine mirrors_bind hamount fun _ ↦ mirrors_bind (mirrors_ensure _ rfl) fun _ ↦ ?_
  exact respell_rejectRedelegating ρ pos.toPosition

theorem respell_transferDelegationFromPosition (pos : PositionState) (v : ValAddress) (amount : ℤ) :
    Alike ρ (transferDelegationFromPosition K pos v amount)
      (transferDelegationFromPosition K (pos.respell ρ) v amount) := by
  refine mirrors_bind (respell_ownerAddress ρ pos.toPosition _) fun owner ↦ ?_
  refine mirrors_bind (mirrors_expect_self _ _) fun delAddr ↦ ?_
  refine mirrors_bind (mirrors_expect_self _ _) fun del ↦ ?_
  refine mirrors_bind (respell_rejectRedelegating ρ pos.toPosition) fun _ ↦ ?_
  refine mirrors_bind (respell_getBondedValidator _ _ _) fun _ ↦ ?_
  refine mirrors_bind (respell_reconcileAmountFromShares _ _ _) fun positionAmount ↦ ?_
  have hshares : Alike ρ
      (sharesToTransfer K pos del delAddr v amount positionAmount)
      (sharesToTransfer K (pos.respell ρ) del delAddr v amount positionAmount) :=
    mirrors_ite Iff.rfl (mirrors_pure rfl)
      (mirrors_get_bind fun _ _ ↦ mirrors_fromOutcome_self _)
  refine mirrors_bind hshares fun shares ↦ ?_
  exact mirrors_bind (respell_moveShares _ _ _ _ _) fun _ ↦ mirrors_pure rfl

theorem respell_updateTier (msg : MsgUpdateTier) :
    Blind ρ (updateTier K msg) := by
  have hrest : Blind ρ (do setTier msg.tier; emit (.tierChanged .update msg.tier) : M σ PUnit) :=
    mirrors_bind (respell_setTier _ _) fun _ ↦ respell_emit _ (.tierChanged .update msg.tier)
  have hclaim : Blind ρ (claimRewardsAndUpdateTierPositions K msg.tier.id) :=
    mirrors_get_bind fun _ _ ↦ respell_claimRewardsAndUpdatePositionIds ρ _
  refine mirrors_bind (mirrors_ensure _ rfl) fun _ ↦ ?_
  refine mirrors_bind (respell_getTier _ _) fun oldTier ↦ mirrors_ite Iff.rfl ?_ hrest
  exact mirrors_bind hclaim fun _ ↦ hrest

variable {w : World σ} (hw : w.Keyed) {owner : String}
include hw

/-- A handler that creates a position reads before it peeks at the next id. -/
theorem respell_creating {α : Type} {owner' : String} {checked : Except Err Unit} {amount : ℤ}
    {tierId : ℕ} {validator : String} {k k' : Tier → ValAddress → AccAddress → M σ α}
    (h : K.accCodec.stringToBytes owner' = K.accCodec.stringToBytes owner)
    (hk : ∀ tier v account, AlikeAt ρ w (k tier v account) (k' tier v account)) :
    AlikeAt ρ w
      (do
        fromOutcome checked
        let tier ← getTier tierId
        validateNewPosition K owner amount tier
        let v ← valAddressFromBech32 K validator bech32Error
        let account ← accAddressFromBech32 K owner bech32Error
        k tier v account)
      (do
        fromOutcome checked
        let tier ← getTier tierId
        validateNewPosition K owner' amount tier
        let v ← valAddressFromBech32 K validator bech32Error
        let account ← accAddressFromBech32 K owner' bech32Error
        k' tier v account) := by
  refine mirrorsAt_read (mirrors_fromOutcome_self _ w hw)
    (fun _ _ h ↦ (succeeds_fromOutcome.mp h).2.symm) fun _ _ ↦ ?_
  refine mirrorsAt_read (respell_getTier _ _ w hw) (fun _ _ h ↦ (succeeds_getTier.mp h).2.symm)
    fun tier _ ↦ ?_
  refine mirrorsAt_read (respell_validateNewPosition ρ h _ _ w hw)
    (fun _ _ h ↦ succeeds_validateNewPosition h) fun _ _ ↦ ?_
  refine mirrorsAt_read (mirrors_expect_self _ _ w hw) (fun _ _ h ↦ (succeeds_expect.mp h).2.symm)
    fun v _ ↦ ?_
  refine mirrorsAt_read (respell_address ρ h _ w hw)
    (fun _ _ h ↦ (succeeds_expect.mp h).2.symm) fun account _ ↦ ?_
  exact hk tier v account

theorem respell_lockTier (msg : MsgLockTier) (h : Respelled ρ w (.lockTier msg) owner) :
    AlikeAt ρ w (lockTier K msg) (lockTier K { msg with owner }) := by
  unfold lockTier MsgLockTier.validate
  rw [respell_validateAddress h.decodes]
  refine respell_creating ρ hw h.decodes fun tier v account ↦ ?_
  -- the id that is peeked at here is the one the position gets
  obtain rfl := h.created rfl
  refine mirrors_bind (respell_createPositionDelegatorAccount _ _ _) (fun del ↦ ?_) w hw
  refine mirrors_bind (respell_callUnit _ _) fun _ ↦ ?_
  refine mirrors_bind (respell_delegate _ _ _ _) fun _ ↦ ?_
  refine mirrors_bind (respell_storeNewPosition ρ _ _ _ _ _ _) fun pos ↦ ?_
  exact mirrors_bind (respell_emit _ (.positionCreated pos)) fun _ ↦ mirrors_pure rfl

theorem respell_commitDelegationToTier (msg : MsgCommitDelegationToTier)
    (h : Respelled ρ w (.commitDelegationToTier msg) owner) :
    AlikeAt ρ w (commitDelegationToTier K msg)
      (commitDelegationToTier K { msg with delegatorAddress := owner }) := by
  unfold commitDelegationToTier MsgCommitDelegationToTier.validate
  rw [respell_validateAddress h.decodes]
  refine respell_creating ρ hw h.decodes fun tier v account ↦ ?_
  -- the id that is peeked at here is the one the position gets
  obtain rfl := h.created rfl
  refine mirrors_bind (respell_createPositionDelegatorAccount _ _ _) (fun del ↦ ?_) w hw
  refine mirrors_bind (respell_transferDelegationToPosition ρ h.decodes _ _ _) fun _ ↦ ?_
  refine mirrors_bind (respell_storeNewPosition ρ _ _ _ _ _ _) fun pos ↦ ?_
  exact mirrors_bind (respell_emit _ (.delegationCommitted pos)) fun _ ↦ mirrors_pure rfl

theorem respell_tierUndelegate (msg : MsgTierUndelegate)
    (h : Respelled ρ w (.tierUndelegate msg) owner) :
    AlikeAt ρ w (tierUndelegate K msg) (tierUndelegate K { msg with owner }) := by
  have hcheck : ∀ pos, (pos.toPosition.respell ρ).isOwner owner = pos.toPosition.isOwner msg.owner →
      Alike ρ
      (validateUndelegatePosition pos msg.owner : M σ PUnit)
      (validateUndelegatePosition (pos.respell ρ) owner) := by
    intro pos howner
    refine mirrors_bind (mirrors_ensure _ howner) fun _ ↦ ?_
    refine mirrors_bind (mirrors_ensure _ rfl) fun _ ↦
      mirrors_bind (mirrors_ensure _ rfl) fun _ ↦ ?_
    exact mirrors_get_bind fun _ _ ↦ mirrors_ensure _ rfl
  unfold tierUndelegate MsgTierUndelegate.validate
  rw [respell_validateAddress h.decodes]
  refine respell_loading ρ hw (h.asStored _ List.mem_cons_self) fun pos howner ↦ ?_
  refine mirrors_bind (hcheck pos howner) fun _ ↦ ?_
  refine mirrors_bind (respell_claimRewards ρ pos) ?_
  rintro ⟨pos', base, bonus⟩
  refine mirrors_bind (mirrors_expect_self _ _) fun delegation ↦ ?_
  refine mirrors_bind (mirrors_expect_self _ _) fun v ↦ ?_
  refine mirrors_bind (mirrors_expect_self _ _) fun del ↦ ?_
  refine mirrors_bind (respell_callRemoving _ _) fun completion ↦ ?_
  refine mirrors_bind (respell_setPosition ρ pos'.toPosition.clearBonusCheckpoints _) fun _ ↦ ?_
  exact mirrors_bind (respell_emit _ (.positionUndelegated pos'.id pos'.tierId pos'.owner
    delegation.validatorAddress completion.1)) fun _ ↦ mirrors_pure rfl

theorem respell_tierRedelegate (msg : MsgTierRedelegate)
    (h : Respelled ρ w (.tierRedelegate msg) owner) :
    AlikeAt ρ w (tierRedelegate K msg) (tierRedelegate K { msg with owner }) := by
  have hcheck : ∀ pos, (pos.toPosition.respell ρ).isOwner owner = pos.toPosition.isOwner msg.owner →
      Alike ρ
      (validateRedelegatePosition K pos msg.owner msg.dstValidator)
      (validateRedelegatePosition K (pos.respell ρ) owner msg.dstValidator) := by
    intro pos howner
    refine mirrors_bind (mirrors_ensure _ howner) fun _ ↦ ?_
    refine mirrors_bind (mirrors_ensure _ rfl) fun _ ↦
      mirrors_bind (mirrors_ensure _ rfl) fun _ ↦ ?_
    refine mirrors_get_bind fun _ _ ↦ mirrors_bind (mirrors_ensure _ rfl) fun _ ↦ ?_
    refine mirrors_bind (respell_getTier _ _) fun tier ↦
      mirrors_bind (mirrors_ensure _ rfl) fun _ ↦ ?_
    exact respell_rejectRedelegating ρ pos.toPosition
  unfold tierRedelegate MsgTierRedelegate.validate
  rw [respell_validateAddress h.decodes]
  refine respell_loading ρ hw (h.asStored _ List.mem_cons_self) fun pos howner ↦ ?_
  refine mirrors_bind (hcheck pos howner) fun _ ↦
    mirrors_bind (mirrors_expect_self _ _) fun dst ↦ ?_
  refine mirrors_bind (respell_claimRewards ρ pos) ?_
  rintro ⟨pos', base, bonus⟩
  refine mirrors_bind (mirrors_expect_self _ _) fun delegation ↦ ?_
  refine mirrors_bind (mirrors_expect_self _ _) fun src ↦ ?_
  refine mirrors_bind (mirrors_expect_self _ _) fun del ↦ ?_
  refine mirrors_bind (respell_redelegate _ _ _ _ _) ?_
  rintro ⟨completionTime, unbondingId⟩
  have hmapping : Blind ρ (setRedelegationMapping unbondingId pos'.id : M σ PUnit) :=
    mirrors_ite Iff.rfl (respell_modifyRest _ fun _ ↦ ⟨rfl, rfl⟩) (mirrors_pure rfl)
  refine mirrors_bind hmapping fun _ ↦ mirrors_get_bind fun w _ ↦ ?_
  refine mirrors_bind (respell_setPosition ρ (pos'.toPosition.updateBonusCheckpoints
    (w.store.getValidatorEventLatestSeq dst) w.ctx.blockTime true) _) fun _ ↦ ?_
  exact mirrors_bind (respell_emit _ (.positionRedelegated pos'.id pos'.tierId pos'.owner
    delegation.validatorAddress msg.dstValidator completionTime)) fun _ ↦ mirrors_pure rfl

theorem respell_addToTierPosition (msg : MsgAddToTierPosition)
    (h : Respelled ρ w (.addToTierPosition msg) owner) :
    AlikeAt ρ w (addToTierPosition K msg) (addToTierPosition K { msg with owner }) := by
  have hcheck : ∀ pos, (pos.toPosition.respell ρ).isOwner owner = pos.toPosition.isOwner msg.owner →
      Alike ρ
      (validateAddToPosition pos msg.owner : M σ PUnit)
      (validateAddToPosition (pos.respell ρ) owner) := by
    intro pos howner
    refine mirrors_bind (mirrors_ensure _ howner) fun _ ↦ ?_
    refine mirrors_bind (mirrors_ensure _ rfl) fun _ ↦
      mirrors_bind (mirrors_ensure _ rfl) fun _ ↦ ?_
    exact mirrors_bind (respell_getTier _ _) fun tier ↦ mirrors_ensure _ rfl
  have hvalidate : MsgAddToTierPosition.validate K.accCodec { msg with owner } =
      msg.validate K.accCodec := by
    unfold MsgAddToTierPosition.validate
    rw [respell_validateAddress h.decodes]
    rfl
  unfold addToTierPosition
  rw [hvalidate]
  refine respell_loading ρ hw (h.asStored _ List.mem_cons_self) fun pos howner ↦ ?_
  refine mirrors_bind (hcheck pos howner) fun _ ↦ ?_
  refine mirrors_bind (respell_address ρ h.decodes _) fun owner ↦ ?_
  refine mirrors_bind (mirrors_expect_self _ _) fun del ↦ ?_
  refine mirrors_bind (respell_callUnit _ _) fun _ ↦ mirrors_bind (respell_claimRewards ρ pos) ?_
  rintro ⟨pos', base, bonus⟩
  refine mirrors_bind (mirrors_expect_self _ _) fun delegation ↦ ?_
  refine mirrors_bind (mirrors_expect_self _ _) fun v ↦ ?_
  refine mirrors_bind (respell_delegate _ _ _ _) fun newShares ↦ ?_
  refine mirrors_bind (respell_setPosition ρ pos'.toPosition none) fun _ ↦ ?_
  exact mirrors_bind (respell_emit _ (.positionAmountAdded pos'.id pos'.tierId pos'.owner newShares
    msg.amount)) fun _ ↦ mirrors_pure rfl

theorem respell_triggerExitFromTier (msg : MsgTriggerExitFromTier)
    (h : Respelled ρ w (.triggerExitFromTier msg) owner) :
    AlikeAt ρ w (triggerExitFromTier K msg) (triggerExitFromTier K { msg with owner }) := by
  unfold triggerExitFromTier MsgTriggerExitFromTier.validate
  rw [respell_validateAddress h.decodes]
  refine respell_loading ρ hw (h.asStored _ List.mem_cons_self) fun pos howner ↦ ?_
  have hcheck : Alike ρ
      (validateTriggerExit pos.toPosition msg.owner : M σ PUnit)
      (validateTriggerExit (pos.toPosition.respell ρ) owner) :=
    mirrors_bind (mirrors_ensure _ howner) fun _ ↦
      mirrors_ensure _ rfl
  refine mirrors_bind hcheck fun _ ↦ mirrors_bind (respell_getTier _ _) fun tier ↦ ?_
  refine mirrors_get_bind fun w _ ↦ ?_
  refine mirrors_bind (respell_setPosition ρ
    (pos.toPosition.triggerExit w.ctx.blockTime tier.exitDuration) none) fun _ ↦ ?_
  exact mirrors_bind (respell_emit _ (.exitTriggered pos.id pos.tierId pos.owner
    (pos.toPosition.triggerExit w.ctx.blockTime tier.exitDuration).exitUnlockAt)) fun _ ↦
    mirrors_pure rfl

theorem respell_clearPosition (msg : MsgClearPosition)
    (h : Respelled ρ w (.clearPosition msg) owner) :
    AlikeAt ρ w (clearPosition K msg) (clearPosition K { msg with owner }) := by
  unfold clearPosition MsgClearPosition.validate
  rw [respell_validateAddress h.decodes]
  refine respell_loading ρ hw (h.asStored _ List.mem_cons_self) fun pos howner ↦ ?_
  have hopen : Blind ρ
      (do let tier ← getTier pos.tierId; ensure (!tier.isCloseOnly) (.registered .tierIsCloseOnly) :
        M σ PUnit) :=
    mirrors_bind (respell_getTier _ _) fun _ ↦ mirrors_ensure _ rfl
  have hunlocked : Alike ρ (validateClearUnlocked K pos)
      (validateClearUnlocked K (pos.respell ρ)) :=
    mirrors_bind (respell_rejectUnbonding ρ pos.toPosition) fun _ ↦ mirrors_ensure _ rfl
  have hcheck : Alike ρ (validateClearPosition K pos msg.owner)
      (validateClearPosition K (pos.respell ρ) owner) := by
    refine mirrors_bind (mirrors_ensure _ howner) fun _ ↦ ?_
    refine mirrors_get_bind fun w _ ↦ mirrors_ite Iff.rfl ?_ hopen
    exact mirrors_bind hunlocked fun _ ↦ hopen
  refine mirrors_bind hcheck fun _ ↦ mirrors_ite Iff.rfl ?_ (mirrors_pure rfl)
  refine mirrors_bind (respell_claimRewards ρ pos) ?_
  rintro ⟨pos', base, bonus⟩
  refine mirrors_get_bind fun w _ ↦ ?_
  refine mirrors_bind (respell_setPosition ρ (pos'.clearExit w.ctx.blockTime).toPosition none)
    fun _ ↦ ?_
  exact mirrors_bind (respell_emit _ (.exitCleared pos'.id pos'.tierId pos'.owner)) fun _ ↦
    mirrors_pure rfl

theorem respell_loadClaimedPositions {owner owner' : String} {ids : List ℕ}
    (howner : ∀ id ∈ ids, ∀ p, w.store.positions[id]? = some p →
      (p.respell ρ).isOwner owner' = p.isOwner owner) :
    MirrorsAt World.Keyed (World.respellEach ρ) (List.map (PositionState.respell ρ))
      (loadClaimedPositions K owner ids) (loadClaimedPositions K owner' ids) w := by
  induction ids with
  | nil => exact mirrors_pure rfl w hw
  | cons positionId ids ih =>
    refine mirrorsAt_read (respell_getPositionState ρ positionId w hw)
      (fun _ _ h ↦ (succeeds_getPositionState.mp h).2.2.symm) fun pos hpos ↦ ?_
    have hstored := (succeeds_getPositionState.mp hpos).1
    refine mirrorsAt_read (mirrors_ensure _ (howner _ List.mem_cons_self _ hstored) w hw)
      (fun _ _ h ↦ (succeeds_ensure.mp h).2.symm) fun _ _ ↦ ?_
    refine mirrorsAt_bind (ih fun id hid ↦ howner id (List.mem_cons_of_mem _ hid)) ?_
    exact fun _ w' _ hw' ↦ mirrors_pure rfl w' hw'

theorem respell_claimTierRewards (msg : MsgClaimTierRewards)
    (h : Respelled ρ w (.claimTierRewards msg) owner) :
    AlikeAt ρ w (claimTierRewards K msg) (claimTierRewards K { msg with owner }) := by
  have hvalidate : MsgClaimTierRewards.validate K.accCodec { msg with owner } =
      msg.validate K.accCodec := by
    unfold MsgClaimTierRewards.validate
    rw [respell_validateAddress h.decodes]
    rfl
  unfold claimTierRewards
  rw [hvalidate]
  refine mirrorsAt_read (mirrors_fromOutcome_self _ w hw)
    (fun _ _ h ↦ (succeeds_fromOutcome.mp h).2.symm) fun _ hvalid ↦ ?_
  refine mirrorsAt_read (respell_loadClaimedPositions ρ hw h.asStored)
    (fun _ _ h ↦ (succeeds_loadClaimedPositions_iff.mp h).2) fun positions hload ↦ ?_
  -- the owner of the message is spelled as in the first position
  have howner : ρ.spell (msg.positionIds.headD 0) msg.owner = owner := by
    obtain ⟨_, hne, _⟩ :=
      (validate_claimTierRewards_iff _ _ _).mp (succeeds_fromOutcome.mp hvalid).1
    cases hids : msg.positionIds with
    | nil => exact absurd hids hne
    | cons id ids =>
      rw [hids] at hload
      obtain ⟨pos, _, ⟨hpos, hisOwner⟩, _, _⟩ :=
        List.forall₂_cons_left_iff.mp (succeeds_loadClaimedPositions_iff.mp hload).1
      have hstored := (succeeds_getPositionState.mp hpos).1
      have hmem : id ∈ msg.positionIds := hids ▸ List.mem_cons_self
      rw [List.headD_cons, ← hw id _ hstored]
      exact spell_eq_of_isOwner ρ (h.asStored id hmem _ hstored) hisOwner
  refine mirrors_bind (respell_claimRewardsAndUpdatesPositions ρ positions ∅ ∅) ?_ w hw
  rintro ⟨totalBase, totalBonus⟩
  have hemit : Alike ρ
      (emit (.tierRewardsClaimed msg.owner msg.positionIds totalBase totalBonus) : M σ PUnit)
      (emit (.tierRewardsClaimed owner msg.positionIds totalBase totalBonus)) := by
    rw [← howner]
    exact respell_emit ρ _
  exact mirrors_bind hemit fun _ ↦ mirrors_pure rfl

theorem respell_withdrawFromTier (msg : MsgWithdrawFromTier)
    (h : Respelled ρ w (.withdrawFromTier msg) owner) :
    AlikeAt ρ w (withdrawFromTier K msg) (withdrawFromTier K { msg with owner }) := by
  unfold withdrawFromTier MsgWithdrawFromTier.validate
  rw [respell_validateAddress h.decodes]
  refine respell_loading ρ hw (h.asStored _ List.mem_cons_self) fun pos howner ↦ ?_
  have hcheck : Alike ρ (validateWithdrawFromTier K pos msg.owner)
      (validateWithdrawFromTier K (pos.respell ρ) owner) := by
    refine mirrors_bind (mirrors_ensure _ howner) fun _ ↦ ?_
    refine mirrors_bind (mirrors_ensure _ rfl) fun _ ↦ mirrors_get_bind fun _ _ ↦ ?_
    refine mirrors_bind (mirrors_ensure _ rfl) fun _ ↦
      mirrors_bind (mirrors_ensure _ rfl) fun _ ↦ ?_
    exact respell_rejectUnbonding ρ pos.toPosition
  refine mirrors_bind hcheck fun _ ↦ ?_
  refine mirrors_bind (respell_ownerAddress ρ pos.toPosition _) fun owner ↦ ?_
  refine mirrors_bind (mirrors_expect_self _ _) fun del ↦ ?_
  refine mirrors_bind (respell_sweepBalances _ _ _) fun balances ↦ ?_
  refine mirrors_bind (respell_deletePosition ρ pos.toPosition none) fun _ ↦ ?_
  exact mirrors_bind (respell_emit _ (.positionWithdrawn pos.toPosition balances)) fun _ ↦
    mirrors_pure rfl

theorem respell_exitTierWithDelegation (msg : MsgExitTierWithDelegation)
    (h : Respelled ρ w (.exitTierWithDelegation msg) owner) :
    AlikeAt ρ w (exitTierWithDelegation K msg) (exitTierWithDelegation K { msg with owner }) := by
  have hvalidate : MsgExitTierWithDelegation.validate K.accCodec
      { msg with owner } = msg.validate K.accCodec := by
    unfold MsgExitTierWithDelegation.validate
    rw [respell_validateAddress h.decodes]
    rfl
  unfold exitTierWithDelegation
  rw [hvalidate]
  refine respell_loading ρ hw (h.asStored _ List.mem_cons_self) fun pos howner ↦ ?_
  intro w hw
  refine mirrorsAt_read (respell_validateExitTierWithDelegation ρ pos howner _ w hw)
    (fun _ _ h ↦ (succeeds_validateExitTierWithDelegation h).1) fun _ hcheck ↦ ?_
  have hisOwner := (succeeds_validateExitTierWithDelegation hcheck).2.1
  refine mirrorsAt_bind (respell_claimRewards ρ pos w hw) ?_
  rintro ⟨pos', base, bonus⟩ w₁ hclaim hw₁
  have hspell : ρ.spell pos'.id msg.owner = owner := by
    rw [(identity_of_claimRewards hclaim).1]
    exact spell_eq_of_isOwner ρ howner hisOwner
  refine mirrors_bind (mirrors_expect_self _ _) (fun delegation ↦ ?_) w₁ hw₁
  refine mirrors_bind (mirrors_expect_self _ _) fun v ↦ ?_
  refine mirrors_bind (respell_reconcileAmountFromShares _ _ _) fun positionAmount ↦ ?_
  refine mirrors_bind (respell_transferDelegationFromPosition ρ _ _ _) ?_
  rintro ⟨transferredShares, unbondedShares, transferredAmount⟩
  have hemit : ∀ full, Alike ρ
      (emit (.exitTierWithDelegation pos'.id pos'.tierId msg.owner delegation.validatorAddress
        transferredAmount transferredShares full) : M σ PUnit)
      (emit (.exitTierWithDelegation pos'.id pos'.tierId owner delegation.validatorAddress
        transferredAmount transferredShares full)) := by
    intro full
    rw [← hspell]
    exact respell_emit ρ _
  have hfull : Alike ρ (exitFully K msg.owner pos' delegation.validatorAddress)
      (exitFully K owner (pos'.respell ρ) delegation.validatorAddress) := by
    refine mirrors_bind (respell_address ρ h.decodes _) fun account ↦ ?_
    refine mirrors_bind (mirrors_expect_self _ _) fun del ↦ ?_
    refine mirrors_bind (respell_sweepBalances _ _ _) fun balances ↦ ?_
    exact respell_deletePosition ρ pos'.toPosition _
  have hpartial : Alike ρ (exitPartially K pos' v (delegation.shares - unbondedShares))
      (exitPartially K (pos'.respell ρ) v (delegation.shares - unbondedShares)) := by
    refine mirrors_bind (respell_reconcileAmountFromShares _ _ _) fun remaining ↦ ?_
    refine mirrors_bind (respell_getTier _ _) fun tier ↦
      mirrors_bind (mirrors_ensure _ rfl) fun _ ↦ ?_
    exact respell_setPosition ρ pos'.toPosition none
  refine mirrors_ite Iff.rfl ?_ ?_
  · exact mirrors_bind hfull fun _ ↦ mirrors_bind (hemit _) fun _ ↦ mirrors_pure rfl
  · exact mirrors_bind hpartial fun _ ↦ mirrors_bind (hemit _) fun _ ↦ mirrors_pure rfl

/-- A message with another owner that `Respelled` allows goes as the message. -/
theorem respell_handle {msg : Msg} (h : Respelled ρ w msg owner) :
    AlikeAt ρ w (handle K msg) (handle K (msg.withOwner owner)) := by
  have hdrop : ∀ {α : Type} {x y : M σ α}, AlikeAt ρ w x y →
      AlikeAt ρ w (do let _ ← x) (do let _ ← y) :=
    fun hxy ↦ mirrorsAt_bind hxy fun _ w' _ hw' ↦ mirrors_pure rfl w' hw'
  cases msg with
  | lockTier msg => exact hdrop (respell_lockTier ρ hw msg h)
  | commitDelegationToTier msg => exact hdrop (respell_commitDelegationToTier ρ hw msg h)
  | tierUndelegate msg => exact hdrop (respell_tierUndelegate ρ hw msg h)
  | tierRedelegate msg => exact hdrop (respell_tierRedelegate ρ hw msg h)
  | addToTierPosition msg => exact hdrop (respell_addToTierPosition ρ hw msg h)
  | triggerExitFromTier msg => exact hdrop (respell_triggerExitFromTier ρ hw msg h)
  | clearPosition msg => exact hdrop (respell_clearPosition ρ hw msg h)
  | claimTierRewards msg => exact hdrop (respell_claimTierRewards ρ hw msg h)
  | withdrawFromTier msg => exact hdrop (respell_withdrawFromTier ρ hw msg h)
  | exitTierWithDelegation msg => exact hdrop (respell_exitTierWithDelegation ρ hw msg h)
  | updateParams msg =>
    refine mirrors_bind (mirrors_ensure _ rfl) (fun _ ↦ ?_) w hw
    refine mirrors_bind (mirrors_fromOutcome_self _) fun _ ↦ ?_
    exact respell_modifyRest _ fun _ ↦ ⟨rfl, rfl⟩
  | addTier msg =>
    refine mirrors_bind (mirrors_ensure _ rfl) (fun _ ↦ mirrors_get_bind fun w _ ↦ ?_) w hw
    refine mirrors_bind (mirrors_ensure _ rfl) fun _ ↦ ?_
    refine mirrors_bind (respell_setTier _ _) fun _ ↦ ?_
    exact respell_emit _ (.tierChanged .new msg.tier)
  | updateTier msg => exact respell_updateTier ρ msg w hw
  | deleteTier msg =>
    refine mirrors_bind (mirrors_ensure _ rfl) (fun _ ↦ ?_) w hw
    refine mirrors_bind (respell_getTier _ _) fun tier ↦ ?_
    refine mirrors_bind (respell_deleteTier _ _) fun _ ↦ ?_
    exact respell_emit _ (.tierChanged .delete tier)

end Messages

end ChainMain.TieredRewards
