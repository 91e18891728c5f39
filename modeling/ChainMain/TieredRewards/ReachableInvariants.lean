import ChainMain.TieredRewards.ChainRuns
import ChainMain.TieredRewards.ReferenceKeepers

/-!
# Invariants of the reachable worlds

What the soundness of the ledger says about the collections of the module and the staking records
they are read with: the reference counts of the validator events, the derived indexes, and the
agreement of a position's checkpoints with its live delegation.
-/

set_option autoImplicit false

namespace ChainMain.TieredRewards

open Foundations Decimal OrderedStore StoreProgram

variable {σ : Type} {K : Keepers σ} {w : World σ}

/-- The delegator address of a position has a staking delegation to a validator. -/
def delegatedTo (K : Keepers σ) (w : World σ) (v : ValAddress) (p : Position) : Bool :=
  (K.accCodec.stringToBytes p.delegatorAddress).any fun a ↦
    ((K.staking w.ext).delegations[(a, v)]?).isSome

/-! ### Validator events -/

/-- The event log of a validator agrees with the positions that have to replay it. -/
structure EventsReferenced (K : Keepers σ) (w : World σ) (v : ValAddress) : Prop where
  /-- Every stored event is waited for, by as many positions as its reference count says. -/
  referenceCount : ∀ (seq : ℕ) (event : ValidatorEvent),
    w.store.validatorEvents[(v, seq)]? = some event →
      1 ≤ event.referenceCount ∧
        event.referenceCount =
          count (fun _ p ↦ delegatedTo K w v p && decide (p.lastEventSeq < seq)) w.store.positions
  /-- No position is ahead of the log, and every event it has to replay is there. -/
  pending : ∀ (id : ℕ) (p : Position), w.store.positions[id]? = some p → delegatedTo K w v p →
    p.lastEventSeq ≤ w.store.getValidatorEventLatestSeq v ∧
      ∀ seq, p.lastEventSeq < seq → seq ≤ w.store.getValidatorEventLatestSeq v →
        ∃ event, w.store.validatorEvents[(v, seq)]? = some event
  /-- The events are in the order of time. -/
  ordered : ∀ (seq seq' : ℕ) (event event' : ValidatorEvent),
    w.store.validatorEvents[(v, seq)]? = some event →
      w.store.validatorEvents[(v, seq')]? = some event' → seq ≤ seq' →
        event.timestamp ≤ event'.timestamp

theorem eventsReferenced_of_sound (hw : K.Sound w) (v : ValAddress) :
    EventsReferenced K w v := by
  have hlogged := hw.logged
  constructor
  · intro seq event hevent
    obtain ⟨hcount, hpositive⟩ := hlogged.referenceCount v seq event hevent
    exact ⟨hpositive, hcount⟩
  · intro id p hp hdelegated
    refine ⟨hlogged.seq_le id p v hp hdelegated, fun seq hlt hle ↦ ?_⟩
    exact hlogged.complete id p v seq hp (Ledger.pending_iff.mpr ⟨hdelegated, hlt⟩) hle
  · exact hlogged.monotone v

theorem events_referenced (hK : K.Contract) (h : Reachable K w) (v : ValAddress) :
    EventsReferenced K w v :=
  eventsReferenced_of_sound (h.sound hK) v

open Reference

/-- The position of the reference history has the event of the slash still to replay. -/
theorem events_referenced_history :
    ((world₄.store.validatorEvents[((1 : ℕ), (1 : ℕ))]?).map
      ValidatorEvent.referenceCount) = some 1 ∧
      EventsReferenced keepers world₄ 1 :=
  ⟨by decide +kernel, events_referenced keepers_contract ⟨_, reaches_history⟩ 1⟩

/-! ### Derived indexes -/

/-- The collections derived from the positions and the staking records. -/
structure IndexesAgree (K : Keepers σ) (w : World σ) : Prop where
  /-- The key of a position is its id, and the owner of a position is an address. -/
  key : ∀ (id : ℕ) (p : Position), w.store.positions[id]? = some p →
    p.id = id ∧ ∃ owner, K.accCodec.stringToBytes p.owner = some owner
  byOwner : ∀ (owner : AccAddress) (id : ℕ), w.store.positionsByOwner[(owner, id)]? = some () ↔
    ∃ p : Position, w.store.positions[id]? = some p ∧ K.accCodec.stringToBytes p.owner = some owner
  byTier : ∀ tierId id : ℕ, w.store.positionsByTier[(tierId, id)]? = some () ↔
    ∃ p : Position, w.store.positions[id]? = some p ∧ p.tierId = tierId
  /-- A counter is the number of positions, and is absent when there are none. -/
  countByTier : IsTally w.store.positionCountByTier fun tierId ↦
    count (fun _ p ↦ p.tierId == tierId) w.store.positions
  countByValidator : IsTally w.store.positionCountByValidator fun v ↦
    count (fun _ p ↦ delegatedTo K w v p) w.store.positions
  tierStored : ∀ (id : ℕ) (p : Position), w.store.positions[id]? = some p →
    ∃ tier, w.store.tiers[p.tierId]? = some tier
  belowNext : ∀ (id : ℕ) (p : Position), w.store.positions[id]? = some p →
    id < w.store.nextPositionId
  distinct : ∀ (id id' : ℕ) (p p' : Position), w.store.positions[id]? = some p →
    w.store.positions[id']? = some p' → p.delegatorAddress = p'.delegatorAddress → id = id'

theorem indexesAgree_of_sound (hw : K.Sound w) : IndexesAgree K w := by
  refine ⟨fun id p hp ↦ ⟨hw.indexed.id_eq id p hp, hw.indexed.owner id p hp⟩, hw.indexed.byOwner,
    hw.indexed.byTier, hw.indexed.countByTier, hw.coherent.counted, hw.indexed.tierStored,
    hw.indexed.id_lt, ?_⟩
  intro id id' p p' hp hp' haddress
  obtain ⟨a, ha, _, _⟩ := hw.accounted.holds hp
  have ha' : (K.view w).Holds K.accCodec id' p' a := ⟨hp', haddress ▸ ha.account⟩
  exact hw.accounted.distinct id id' p p' a ha ha'

theorem indexes_agree (hK : K.Contract) (h : Reachable K w) : IndexesAgree K w :=
  indexesAgree_of_sound (h.sound hK)

theorem indexes_agree_history :
    world₄.store.positions[(0 : ℕ)]? = some position ∧
      IndexesAgree keepers world₄ :=
  ⟨by decide +kernel, indexes_agree keepers_contract ⟨_, reaches_history⟩⟩

/-! ### Checkpoints and delegations -/

/-- A position and the staking records of its delegator address fit together. -/
structure PositionBacked (K : Keepers σ) (w : World σ) (p : Position) (a : AccAddress)
    (pos : PositionState) : Prop where
  /-- What is loaded is the stored position with its live delegation. -/
  loaded : Succeeds (getPositionState K p.id) w pos w
  position : pos.toPosition = p
  valid : pos.validate K.accCodec K.valCodec = .ok ()
  oneDelegation : ∀ v v' : ValAddress, ((K.staking w.ext).delegations[(a, v)]?).isSome →
    ((K.staking w.ext).delegations[(a, v')]?).isSome → v = v'
  checkpoint : pos.isDelegated ↔ p.lastBonusAccrual ≠ 0
  shares : ∀ del, pos.delegation = some del → 0 < del.shares
  undelegated : pos.isDelegated = false →
    p.lastBonusAccrual = 0 ∧ p.lastEventSeq = 0 ∧ p.lastKnownBonded = false

/-- A valid position whose checkpoints fit its delegation makes a valid state. -/
theorem validate_of_checkpoints {acc val : AddressCodec} {pos : PositionState}
    (hvalid : pos.toPosition.validate acc = .ok ())
    (hdelegation : pos.validateDelegation val = .ok ()) : pos.validate acc val = .ok () := by
  unfold PositionState.validate
  rw [hvalid]
  exact hdelegation

theorem position_backed (hK : K.Contract) (h : Reachable K w) {id : ℕ} {p : Position}
    (hp : w.store.positions[id]? = some p) :
    ∃ a pos, K.accCodec.stringToBytes p.delegatorAddress = some a ∧ PositionBacked K w p a pos := by
  have hw := h.sound hK
  obtain ⟨a, ha, haddress, _⟩ := hw.accounted.holds hp
  have hid : p.id = id := hw.indexed.id_eq id p hp
  have hloaded :
      Succeeds (getPositionState K p.id) w ⟨p, firstDelegation K (K.staking w.ext) a⟩ w :=
    succeeds_getPositionState.mpr ⟨hid ▸ hp, ⟨a, ha.account, rfl⟩, rfl⟩
  have hvalid := hw.coherent.valid id p hp
  refine ⟨a, ⟨p, firstDelegation K (K.staking w.ext) a⟩, ha.account, ?_⟩
  rcases hw.coherent.backed id p a ha with ⟨v, s, hstake, hpositive, haccrual⟩ | ⟨hidle, hclear⟩
  · have hfirst := firstDelegation_of_stakedOn hstake
    rw [hfirst] at hloaded ⊢
    refine ⟨hloaded, rfl, validate_of_checkpoints hvalid ?_, ?_, ?_, ?_, fun hnone ↦ nomatch hnone⟩
    · have hshares : s.isPositive = true := decide_eq_true hpositive
      unfold PositionState.validateDelegation
      dsimp only
      rw [K.valCodec.stringToBytes_bytesToString, if_neg (by simp), if_neg (by simp [haddress]),
        if_neg (not_not.mpr hshares), if_neg haccrual]
    · have hone : ∀ u : ValAddress, ((K.staking w.ext).delegations[(a, u)]?).isSome → u = v := by
        intro u hu
        change ((K.view w).stakes a u).isSome at hu
        rw [hstake u] at hu
        by_contra huv
        rw [if_neg huv] at hu
        cases hu
      intro u u' hu hu'
      rw [hone u hu, hone u' hu']
    · exact ⟨fun _ ↦ haccrual, fun _ ↦ rfl⟩
    · rintro del hdel
      obtain rfl := Option.some.inj hdel
      exact hpositive
  · have hfirst : firstDelegation K (K.staking w.ext) a = none := firstDelegation_eq_none.mpr hidle
    rw [hfirst] at hloaded ⊢
    refine ⟨hloaded, rfl, validate_of_checkpoints hvalid ?_, ?_, ?_, (fun del hdel ↦ nomatch hdel),
      fun _ ↦ hclear⟩
    · unfold PositionState.validateDelegation
      dsimp only
      rw [if_neg (not_not.mpr hclear.1), if_neg (not_not.mpr hclear.2.1), hclear.2.2]
      rfl
    · intro u _ hu
      change ((K.view w).stakes a u).isSome at hu
      rw [hidle u] at hu
      cases hu
    · exact ⟨(fun hdel ↦ nomatch hdel), fun hne ↦ absurd hclear.1 hne⟩

theorem position_backed_history :
    ∃ a pos, codec.stringToBytes position.delegatorAddress = some a ∧
      PositionBacked keepers world₄ position a pos := by
  have hstored : world₄.store.positions[(0 : ℕ)]? = some position := by
    decide +kernel
  exact position_backed keepers_contract ⟨_, reaches_history⟩ hstored

end ChainMain.TieredRewards
