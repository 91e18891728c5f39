import ChainMain.TieredRewards.Genesis
import ChainMain.TieredRewards.LedgerIndexes

/-!
# What `InitGenesis` writes

`GenesisState.Importable` lists what `InitGenesis` compares with the live staking records, and
`GenesisState.imported` is the store it leaves: every collection is loaded from one list of the
genesis, and the index collections from the list of positions. `succeeds_initGenesis` is the
specification: for an accepted genesis and an empty store, `InitGenesis` does not panic if and only
if the genesis is importable, and then it leaves this store.
-/

set_option autoImplicit false

namespace ChainMain.TieredRewards

open Foundations Decimal OrderedStore StoreProgram

variable {σ : Type}

/-! ### The imported store -/

/-- The account behind an address that has been checked to decode. -/
def Keepers.accountOf (K : Keepers σ) (address : String) : AccAddress :=
  (K.accCodec.stringToBytes address).getD 0

/-- The operator behind a validator address that has been checked to decode. -/
def Keepers.operatorOf (K : Keepers σ) (address : String) : ValAddress :=
  (K.valCodec.stringToBytes address).getD 0

/-- The validator a position is delegated to. -/
def Position.validator (K : Keepers σ) (st : Staking) (pos : Position) : Option ValAddress :=
  st.stakedOn (K.accountOf pos.delegatorAddress)

/-- A position is delegated to the validator with this spelling and has not processed the event. -/
def ValidatorEventEntry.awaitedBy (K : Keepers σ) (st : Staking) (entry : ValidatorEventEntry)
    (pos : Position) : Bool :=
  decide ((pos.validator K st).map K.valCodec.bytesToString = some entry.validator) &&
    decide (pos.lastEventSeq < entry.sequence)

/-- The checks of a position against its live delegation. -/
structure Position.Importable (K : Keepers σ) (st : Staking) (currentSeqs : Map String ℕ)
    (pos : Position) : Prop where
  state : (PositionState.mk pos (firstDelegation K st (K.accountOf pos.delegatorAddress))).validate
    K.accCodec K.valCodec = .ok ()
  seq : ∀ v, pos.validator K st = some v →
    pos.lastEventSeq ≤ (currentSeqs[K.valCodec.bytesToString v]?).getD 0

/-- The checks of a mapping against the live redelegations. -/
def RedelegationMapping.Importable (K : Keepers σ) (st : Staking) (positions : Map ℕ Position)
    (entry : RedelegationMapping) : Prop :=
  ∃ red pos, st.redelegations[entry.unbondingId]? = some red ∧
    positions[entry.positionId]? = some pos ∧
    K.accCodec.bytesToString red.delegator = pos.delegatorAddress

def GenesisState.positionsById (data : GenesisState) : Map ℕ Position :=
  load Position.id id data.positions

/-- What `InitGenesis` checks in addition to `ValidateGenesis`. -/
structure GenesisState.Importable (K : Keepers σ) (ext : σ) (data : GenesisState) : Prop where
  moduleAccount : K.hasModuleAccount ext moduleName
  rewardsPool : K.hasModuleAccount ext rewardsPoolName
  position : ∀ pos ∈ data.positions,
    pos.Importable K (K.staking ext) (currentSeqByValidator data.validatorEventSeqs)
  mapping : ∀ entry ∈ data.redelegationMappings,
    entry.Importable K (K.staking ext) data.positionsById
  event : ∀ entry ∈ data.validatorEvents,
    entry.event.referenceCount = data.positions.countP (entry.awaitedBy K (K.staking ext))

/-- The store after the import of a genesis. -/
def GenesisState.imported (K : Keepers σ) (st : Staking) (data : GenesisState) : Store where
  params := some data.params
  tiers := load Tier.id id data.tiers
  positions := data.positionsById
  nextPositionId := data.nextPositionId
  positionsByOwner := load (fun pos ↦ (K.accountOf pos.owner, pos.id)) (fun _ ↦ ()) data.positions
  positionsByTier := load (fun pos ↦ (pos.tierId, pos.id)) (fun _ ↦ ()) data.positions
  positionCountByTier := tallyBy (fun pos ↦ some pos.tierId) data.positions
  positionCountByValidator := tallyBy (Position.validator K st) data.positions
  validatorEvents := load (fun entry ↦ (K.operatorOf entry.validator, entry.sequence))
    ValidatorEventEntry.event data.validatorEvents
  validatorEventSeq := load (fun entry ↦ K.operatorOf entry.validator)
    ValidatorEventSeqEntry.currentSeq data.validatorEventSeqs
  redelegationMappings := load RedelegationMapping.unbondingId RedelegationMapping.positionId
    data.redelegationMappings

/-! ### Positions -/

variable {K : Keepers σ} {w w' : World σ}

theorem Position.decodes_of_validate {acc : AddressCodec} {pos : Position}
    (h : pos.validate acc = .ok ()) :
    (∃ owner, acc.stringToBytes pos.owner = some owner) ∧
      ∃ a, acc.stringToBytes pos.delegatorAddress = some a := by
  unfold Position.validate at h
  split_ifs at h with howner hdel
  exact ⟨Option.ne_none_iff_exists'.mp fun hnone ↦ howner (by rw [hnone]; rfl),
    Option.ne_none_iff_exists'.mp fun hnone ↦ hdel (by rw [hnone]; rfl)⟩

theorem PositionState.validate_eq_ok {acc val : AddressCodec} {pos : PositionState} :
    pos.validate acc val = .ok () ↔
      pos.toPosition.validate acc = .ok () ∧ pos.validateDelegation val = .ok () := by
  unfold PositionState.validate
  exact Foundations.Outcomes.check_eq_ok

theorem Keepers.accountOf_eq {address : String} {a : AccAddress}
    (h : K.accCodec.stringToBytes address = some a) : K.accountOf address = a := by
  rw [Keepers.accountOf, h, Option.getD_some]

theorem Keepers.operatorOf_eq {address : String} {v : ValAddress}
    (h : K.valCodec.stringToBytes address = some v) : K.operatorOf address = v := by
  rw [Keepers.operatorOf, h, Option.getD_some]

theorem Keepers.operatorOf_bytesToString (v : ValAddress) :
    K.operatorOf (K.valCodec.bytesToString v) = v :=
  Keepers.operatorOf_eq (K.valCodec.stringToBytes_bytesToString v)

theorem firstDelegation_map_validatorAddress (st : Staking) (a : AccAddress) :
    (firstDelegation K st a).map Delegation.validatorAddress =
      (st.stakedOn a).map K.valCodec.bytesToString := by
  unfold firstDelegation Staking.stakedOn
  rw [Option.map_map, Option.map_map]
  rfl

def Store.importPosition (K : Keepers σ) (st : Staking) (s : Store) (pos : Position) : Store :=
  (s.addPosition (K.accountOf pos.owner) pos).moveCount none (pos.validator K st)

def Store.importTier (s : Store) (tier : Tier) : Store :=
  { s with tiers := s.tiers.insert tier.id tier }

/-- The store with a redelegation mapping imported. -/
def Store.importMapping (s : Store) (entry : RedelegationMapping) : Store :=
  { s with
    redelegationMappings := s.redelegationMappings.insert entry.unbondingId entry.positionId }

/-- The store with a validator event imported. -/
def Store.importEvent (K : Keepers σ) (s : Store) (entry : ValidatorEventEntry) : Store :=
  { s with
    validatorEvents :=
      s.validatorEvents.insert (K.operatorOf entry.validator, entry.sequence) entry.event }

/-- The store with a current sequence number imported. -/
def Store.importEventSeq (K : Keepers σ) (s : Store) (entry : ValidatorEventSeqEntry) : Store :=
  { s with
    validatorEventSeq :=
      s.validatorEventSeq.insert (K.operatorOf entry.validator) entry.currentSeq }

/-- Where a position is entered among the delegated ones. -/
def delegatedKey (K : Keepers σ) (st : Staking) (pos : Position) : Option String :=
  (pos.validator K st).map K.valCodec.bytesToString

theorem succeeds_recordDelegated {currentSeqs : Map String ℕ} {seqs seqs' : DelegatedSeqs}
    {pos : Position} {del : Option Delegation} :
    Succeeds (recordDelegated currentSeqs seqs pos del) w seqs' w' ↔
      (∀ v, del.map Delegation.validatorAddress = some v →
        pos.lastEventSeq ≤ (currentSeqs[v]?).getD 0) ∧
      seqs' = (del.map Delegation.validatorAddress).elim seqs
        (fun v ↦ seqs.insert v ((seqs[v]?).getD [] ++ [pos.lastEventSeq])) ∧ w = w' := by
  unfold recordDelegated
  cases del with
  | none =>
    simp only [succeeds_pure]
    simp [eq_comm]
  | some del =>
    simp only [succeeds_bind, succeeds_ensure, succeeds_pure, decide_eq_true_iff]
    constructor
    · rintro ⟨_, _, ⟨hle, rfl⟩, rfl, rfl⟩
      exact ⟨fun v hv ↦ Option.some.inj hv ▸ hle, rfl, rfl⟩
    · rintro ⟨hle, rfl, rfl⟩
      exact ⟨⟨⟩, w, ⟨hle _ rfl, rfl⟩, rfl, rfl⟩

/-- A position that is not stored yet is written exactly when its state is valid. -/
theorem succeeds_setPositionWithState_new {state : PositionState} {dst : Option ValAddress}
    (hnew : w.store.positions[state.id]? = none)
    (hdst : (state.delegation.map Delegation.validatorAddress).getD "" = validatorString K dst) :
    Succeeds (setPositionWithState K state (some ⟨""⟩)) w ⟨⟩ w' ↔
      state.validate K.accCodec K.valCodec = .ok () ∧
        w' = { w with
          store :=
            (w.store.addPosition (K.accountOf state.owner) state.toPosition).moveCount
              none dst } := by
  constructor
  · intro h
    have h' : Succeeds (setPositionWithState K state (transition K (some none))) w ⟨⟩ w' := h
    obtain ⟨hvalid, owner, howner, rfl⟩ := setPositionWithState_new hnew hdst h'
    rw [Keepers.accountOf_eq howner]
    exact ⟨hvalid, rfl⟩
  · rintro ⟨hvalid, rfl⟩
    obtain ⟨⟨owner, howner⟩, _⟩ :=
      Position.decodes_of_validate (PositionState.validate_eq_ok.mp hvalid).1
    rw [Keepers.accountOf_eq howner]
    unfold setPositionWithState
    rw [hdst]
    refine succeeds_bind.mpr ⟨⟨⟩, w, succeeds_fromOutcome.mpr ⟨hvalid, rfl⟩, succeeds_read.mpr ?_⟩
    rw [hnew]
    refine succeeds_bind.mpr ⟨⟨⟩, _, succeeds_modifyStore.mpr rfl, ?_⟩
    have hmove : Succeeds (applyTransition K (transition K (some none)) (validatorString K dst))
        { w with store := w.store.addPosition owner state.toPosition } ⟨⟩ _ :=
      succeeds_applyTransition.mpr rfl
    refine succeeds_bind.mpr ⟨⟨⟩, _, ?_, hmove⟩
    unfold indexPosition indexNewPosition
    simp only [succeeds_bind, succeeds_accAddressFromBech32, succeeds_modifyStore]
    exact ⟨owner, _, ⟨howner, rfl⟩, ⟨⟩, _, rfl, ⟨⟩, _, rfl, rfl⟩

theorem succeeds_initPosition {currentSeqs : Map String ℕ} {seqs seqs' : DelegatedSeqs}
    {pos : Position} (hnew : w.store.positions[pos.id]? = none) :
    Succeeds (initPosition K currentSeqs seqs pos) w seqs' w' ↔
      pos.Importable K (K.staking w.ext) currentSeqs ∧
        seqs' = collectByKey (delegatedKey K (K.staking w.ext)) Position.lastEventSeq seqs pos ∧
        w' = { w with store := w.store.importPosition K (K.staking w.ext) pos } := by
  have hset : ∀ a, Succeeds (setPositionWithState K ⟨pos, firstDelegation K (K.staking w.ext) a⟩
      (some ⟨""⟩)) w ⟨⟩ w' ↔ _ :=
    fun a ↦
      succeeds_setPositionWithState_new hnew (firstDelegation_validatorAddress (K.staking w.ext) a)
  unfold initPosition
  simp only [succeeds_bind, succeeds_wrapping, succeeds_getDelegation, succeeds_recordDelegated,
    succeeds_fromOutcome, succeeds_setPosition, succeeds_pure]
  constructor
  · rintro ⟨_, _, ⟨⟨a, ha, rfl⟩, rfl⟩, _, _, ⟨hseq, rfl, rfl⟩, _, _, ⟨hvalid, rfl⟩, _, _,
      ⟨a', ha', hwrite⟩, rfl, rfl⟩
    obtain rfl := Option.mem_unique ha ha'
    obtain ⟨_, rfl⟩ := (hset a).mp hwrite
    rw [firstDelegation_map_validatorAddress] at hseq ⊢
    have hvalidator : pos.validator K (K.staking w.ext) = (K.staking w.ext).stakedOn a := by
      rw [Position.validator, Keepers.accountOf_eq ha]
    refine ⟨⟨?_, fun v hv ↦ hseq _ ?_⟩, ?_, ?_⟩
    · rw [Keepers.accountOf_eq ha]
      exact hvalid
    · rw [← hvalidator, hv]
      rfl
    · rw [collectByKey, delegatedKey, hvalidator]
    · rw [Store.importPosition, hvalidator]
  · rintro ⟨hpos, rfl, rfl⟩
    obtain ⟨_, a, ha⟩ := Position.decodes_of_validate (PositionState.validate_eq_ok.mp hpos.state).1
    have hvalidator : pos.validator K (K.staking w.ext) = (K.staking w.ext).stakedOn a := by
      rw [Position.validator, Keepers.accountOf_eq ha]
    have hvalid := hpos.state
    rw [Keepers.accountOf_eq ha] at hvalid
    refine ⟨_, w, ⟨⟨a, ha, rfl⟩, rfl⟩, _, w, ⟨?_, rfl, rfl⟩, ⟨⟩, w, ⟨hvalid, rfl⟩, ⟨⟩, _,
      ⟨a, ha, (hset a).mpr ⟨hvalid, ?_⟩⟩, ?_, rfl⟩
    · rw [firstDelegation_map_validatorAddress, ← hvalidator]
      intro v hv
      obtain ⟨operator, hoperator, rfl⟩ := Option.map_eq_some_iff.mp hv
      exact hpos.seq operator hoperator
    · rw [Store.importPosition, hvalidator]
    · rw [firstDelegation_map_validatorAddress, ← hvalidator]
      rfl

/-! ### The other entries -/

theorem succeeds_initTier {tier : Tier} :
    Succeeds (setTier tier) w ⟨⟩ w' ↔ tier.validate = .ok () ∧
      w' = { w with store := w.store.importTier tier } := by
  unfold setTier
  simp only [succeeds_bind, succeeds_fromOutcome, succeeds_modifyStore]
  constructor
  · rintro ⟨_, _, ⟨hvalid, rfl⟩, rfl⟩
    exact ⟨hvalid, rfl⟩
  · rintro ⟨hvalid, rfl⟩
    exact ⟨⟨⟩, w, ⟨hvalid, rfl⟩, rfl⟩

theorem succeeds_initRedelegationMapping {entry : RedelegationMapping} :
    Succeeds (initRedelegationMapping K entry) w ⟨⟩ w' ↔
      entry.Importable K (K.staking w.ext) w.store.positions ∧
        w' = { w with store := w.store.importMapping entry } := by
  unfold initRedelegationMapping RedelegationMapping.Importable
  simp only [succeeds_bind, succeeds_get, succeeds_expect, succeeds_wrapping, getPosition,
    succeeds_ensure, succeeds_modifyStore, beq_iff_eq]
  constructor
  · rintro ⟨_, _, ⟨rfl, rfl⟩, red, _, ⟨hred, rfl⟩, pos, _, ⟨_, _, ⟨rfl, rfl⟩, hpos, rfl⟩, _, _,
      ⟨haddress, rfl⟩, rfl⟩
    exact ⟨⟨red, pos, hred, hpos, haddress⟩, rfl⟩
  · rintro ⟨⟨red, pos, hred, hpos, haddress⟩, rfl⟩
    exact ⟨w, w, ⟨rfl, rfl⟩, red, w, ⟨hred, rfl⟩, pos, w, ⟨w, w, ⟨rfl, rfl⟩, hpos, rfl⟩, ⟨⟩, w,
      ⟨haddress, rfl⟩, rfl⟩

theorem succeeds_initValidatorEvent {seqs : DelegatedSeqs} {entry : ValidatorEventEntry} :
    Succeeds (initValidatorEvent K seqs entry) w ⟨⟩ w' ↔
      (entry.event.referenceCount = expectedReferences seqs entry ∧
        (K.valCodec.stringToBytes entry.validator).isSome) ∧
        w' = { w with store := w.store.importEvent K entry } := by
  unfold initValidatorEvent Store.importEvent
  simp only [succeeds_bind, succeeds_ensure, succeeds_valAddressFromBech32, succeeds_modifyStore,
    beq_iff_eq]
  constructor
  · rintro ⟨_, _, ⟨hcount, rfl⟩, v, _, ⟨hv, rfl⟩, rfl⟩
    exact ⟨⟨hcount, by rw [hv]; rfl⟩, by rw [Keepers.operatorOf_eq hv]⟩
  · rintro ⟨⟨hcount, hsome⟩, rfl⟩
    obtain ⟨v, hv⟩ := Option.isSome_iff_exists.mp hsome
    exact ⟨⟨⟩, w, ⟨hcount, rfl⟩, v, w, ⟨hv, rfl⟩, by rw [Keepers.operatorOf_eq hv]⟩

theorem succeeds_initValidatorEventSeq {entry : ValidatorEventSeqEntry} :
    Succeeds (initValidatorEventSeq K entry) w ⟨⟩ w' ↔
      (K.valCodec.stringToBytes entry.validator).isSome ∧
        w' = { w with store := w.store.importEventSeq K entry } := by
  unfold initValidatorEventSeq Store.importEventSeq
  simp only [succeeds_bind, succeeds_valAddressFromBech32, succeeds_modifyStore]
  constructor
  · rintro ⟨v, _, ⟨hv, rfl⟩, rfl⟩
    exact ⟨by rw [hv]; rfl, by rw [Keepers.operatorOf_eq hv]⟩
  · rintro ⟨hsome, rfl⟩
    obtain ⟨v, hv⟩ := Option.isSome_iff_exists.mp hsome
    exact ⟨v, w, ⟨hv, rfl⟩, by rw [Keepers.operatorOf_eq hv]⟩

/-! ### The loops -/

theorem foldl_store {α : Type} (f : Store → α → Store) (items : List α) :
    items.foldl (fun w a ↦ { w with store := f w.store a }) w =
      { w with store := items.foldl f w.store } :=
  List.foldl_hom (fun s ↦ { w with store := s }) fun _ _ ↦ rfl

theorem moveCounts_none (counts : Map ValAddress ℕ) (dst : Option ValAddress) :
    moveCounts counts none dst = dst.elim counts (increaseCount counts) := by
  cases dst <;> rfl

theorem foldl_importPosition (st : Staking) (positions : List Position) (s : Store) :
    positions.foldl (Store.importPosition K st) s =
      { s with
        positions := positions.foldl (fun acc pos ↦ acc.insert pos.id pos) s.positions
        positionsByOwner := positions.foldl
          (fun acc pos ↦ acc.insert (K.accountOf pos.owner, pos.id) ()) s.positionsByOwner
        positionsByTier := positions.foldl (fun acc pos ↦ acc.insert (pos.tierId, pos.id) ())
          s.positionsByTier
        positionCountByTier := positions.foldl (fun acc pos ↦ increaseCount acc pos.tierId)
          s.positionCountByTier
        positionCountByValidator := positions.foldl
          (fun acc pos ↦ (pos.validator K st).elim acc (increaseCount acc))
          s.positionCountByValidator } := by
  induction positions generalizing s with
  | nil => rfl
  | cons pos rest ih =>
    rw [List.foldl_cons, ih]
    simp only [Store.importPosition, Store.moveCount, Store.addPosition, moveCounts_none,
      List.foldl_cons]

theorem succeeds_initTiers {tiers : List Tier} :
    Succeeds (tiers.forM setTier) w ⟨⟩ w' ↔ (∀ tier ∈ tiers, tier.validate = .ok ()) ∧
      w' = { w with store := tiers.foldl Store.importTier w.store } := by
  rw [← foldl_store]
  exact succeeds_forM (P := fun _ _ ↦ True) (fun _ _ _ _ _ ↦ succeeds_initTier) (fun _ _ _ h ↦ h)
    trivial

theorem succeeds_initPositions {currentSeqs : Map String ℕ} {seqs : DelegatedSeqs}
    {positions : List Position} (hids : (positions.map Position.id).Nodup)
    (hnew : w.store.positions = ∅) :
    Succeeds (positions.foldlM (initPosition K currentSeqs) ∅) w seqs w' ↔
      (∀ pos ∈ positions, pos.Importable K (K.staking w.ext) currentSeqs) ∧
        seqs =
          positions.foldl (collectByKey (delegatedKey K (K.staking w.ext)) Position.lastEventSeq)
            ∅ ∧
        w' =
          { w with
            store := positions.foldl (Store.importPosition K (K.staking w.ext)) w.store } := by
  rw [← foldl_store]
  -- the ids still to come are not stored, and the staking records are those of the start
  refine succeeds_foldlM (P := fun rest (w₁ : World σ) ↦ K.staking w₁.ext = K.staking w.ext ∧
    (rest.map Position.id).Nodup ∧ ∀ pos ∈ rest, w₁.store.positions[pos.id]? = none) ?_ ?_
    ⟨rfl, hids, fun pos _ ↦ by rw [hnew]; simp⟩
  · rintro pos rest b b' w₁ w₂ ⟨hext, _, hfresh⟩
    rw [succeeds_initPosition (hfresh pos List.mem_cons_self), hext]
  · rintro pos rest w₁ ⟨hext, hnodup, hfresh⟩
    rw [List.map_cons, List.nodup_cons] at hnodup
    refine ⟨hext, hnodup.2, fun other hother ↦ ?_⟩
    have hne : pos.id ≠ other.id := fun heq ↦ hnodup.1 (heq ▸ List.mem_map_of_mem hother)
    change (w₁.store.positions.insert pos.id pos)[other.id]? = none
    rw [getElem?_insert_ne hne]
    exact hfresh other (List.mem_cons_of_mem _ hother)

theorem succeeds_initNextPositionId {n : ℕ} (hzero : w.store.nextPositionId = 0) :
    Succeeds (initNextPositionId n) w ⟨⟩ w' ↔
      w' = { w with store := { w.store with nextPositionId := n } } := by
  unfold initNextPositionId
  rw [succeeds_ite, succeeds_modifyStore, succeeds_pure]
  rcases Nat.eq_zero_or_pos n with rfl | hpos
  · have hsame : { w with store := { w.store with nextPositionId := 0 } } = w := by rw [← hzero]
    rw [hsame]
    simp [eq_comm]
  · simp [hpos, eq_comm]

theorem succeeds_initRedelegationMappings {mappings : List RedelegationMapping} :
    Succeeds (mappings.forM (initRedelegationMapping K)) w ⟨⟩ w' ↔
      (∀ entry ∈ mappings, entry.Importable K (K.staking w.ext) w.store.positions) ∧
        w' = { w with store := mappings.foldl Store.importMapping w.store } := by
  rw [← foldl_store]
  refine succeeds_forM (P := fun _ (w₁ : World σ) ↦
    K.staking w₁.ext = K.staking w.ext ∧ w₁.store.positions = w.store.positions) ?_ ?_ ⟨rfl, rfl⟩
  · rintro entry _ w₁ w₂ ⟨hext, hpositions⟩
    rw [succeeds_initRedelegationMapping, hext, hpositions]
  · exact fun _ _ _ h ↦ h

/-- The number of positions that would process an event is counted on the positions. -/
theorem expectedReferences_eq (st : Staking) (positions : List Position)
    (entry : ValidatorEventEntry) :
    expectedReferences (positions.foldl (collectByKey (delegatedKey K st) Position.lastEventSeq) ∅)
      entry = positions.countP (entry.awaitedBy K st) := by
  rw [expectedReferences, getD_foldl_collectByKey, List.countP_map, List.countP_filter]
  refine List.countP_congr fun pos _ ↦ ?_
  simp [ValidatorEventEntry.awaitedBy, delegatedKey, and_comm]

theorem succeeds_initValidatorEvents {seqs : DelegatedSeqs} {events : List ValidatorEventEntry} :
    Succeeds (events.forM (initValidatorEvent K seqs)) w ⟨⟩ w' ↔
      (∀ entry ∈ events, entry.event.referenceCount = expectedReferences seqs entry ∧
        (K.valCodec.stringToBytes entry.validator).isSome) ∧
        w' = { w with store := events.foldl (Store.importEvent K) w.store } := by
  rw [← foldl_store]
  exact succeeds_forM (P := fun _ _ ↦ True) (fun _ _ _ _ _ ↦ succeeds_initValidatorEvent)
    (fun _ _ _ h ↦ h) trivial

theorem succeeds_initValidatorEventSeqs {seqs : List ValidatorEventSeqEntry} :
    Succeeds (seqs.forM (initValidatorEventSeq K)) w ⟨⟩ w' ↔
      (∀ entry ∈ seqs, (K.valCodec.stringToBytes entry.validator).isSome) ∧
        w' = { w with store := seqs.foldl (Store.importEventSeq K) w.store } := by
  rw [← foldl_store]
  exact succeeds_forM (P := fun _ _ ↦ True) (fun _ _ _ _ _ ↦ succeeds_initValidatorEventSeq)
    (fun _ _ _ h ↦ h) trivial

/-! ### The whole import -/

theorem foldl_importTier (tiers : List Tier) (s : Store) :
    tiers.foldl Store.importTier s =
      { s with tiers := tiers.foldl (fun acc tier ↦ acc.insert tier.id tier) s.tiers } :=
  List.foldl_hom (fun m ↦ { s with tiers := m }) fun _ _ ↦ rfl

theorem foldl_importMapping (mappings : List RedelegationMapping) (s : Store) :
    mappings.foldl Store.importMapping s =
      { s with
        redelegationMappings := mappings.foldl
          (fun acc entry ↦ acc.insert entry.unbondingId entry.positionId)
          s.redelegationMappings } :=
  List.foldl_hom (fun m ↦ { s with redelegationMappings := m }) fun _ _ ↦ rfl

theorem foldl_importEvent (events : List ValidatorEventEntry) (s : Store) :
    events.foldl (Store.importEvent K) s =
      { s with
        validatorEvents := events.foldl (fun acc entry ↦
          acc.insert (K.operatorOf entry.validator, entry.sequence) entry.event)
            s.validatorEvents } :=
  List.foldl_hom (fun m ↦ { s with validatorEvents := m }) fun _ _ ↦ rfl

theorem foldl_importEventSeq (seqs : List ValidatorEventSeqEntry) (s : Store) :
    seqs.foldl (Store.importEventSeq K) s =
      { s with
        validatorEventSeq := seqs.foldl (fun acc entry ↦
          acc.insert (K.operatorOf entry.validator) entry.currentSeq) s.validatorEventSeq } :=
  List.foldl_hom (fun m ↦ { s with validatorEventSeq := m }) fun _ _ ↦ rfl

def GenesisState.withTiers (data : GenesisState) : Store :=
  data.tiers.foldl Store.importTier { Store.empty with params := some data.params }

/-- The store after the positions and the next position id. -/
def GenesisState.withPositions (K : Keepers σ) (st : Staking) (data : GenesisState) : Store :=
  { data.positions.foldl (Store.importPosition K st) data.withTiers with
    nextPositionId := data.nextPositionId }

theorem GenesisState.withPositions_positions (st : Staking) (data : GenesisState) :
    (data.withPositions K st).positions = data.positionsById := by
  rw [GenesisState.withPositions, foldl_importPosition, GenesisState.withTiers, foldl_importTier]
  rfl

theorem GenesisState.imported_eq (st : Staking) (data : GenesisState) :
    data.validatorEventSeqs.foldl (Store.importEventSeq K)
        (data.validatorEvents.foldl (Store.importEvent K)
          (data.redelegationMappings.foldl Store.importMapping (data.withPositions K st))) =
      data.imported K st := by
  rw [foldl_importEventSeq, foldl_importEvent, foldl_importMapping, GenesisState.withPositions,
    foldl_importPosition, GenesisState.withTiers, foldl_importTier]
  rfl

/-- `InitGenesis` of an accepted genesis over an empty store. -/
theorem succeeds_initGenesis {data : GenesisState} (hdata : data.Accepted K.accCodec K.valCodec)
    (hempty : w.store = Store.empty) :
    Succeeds (initGenesis K data) w ⟨⟩ w' ↔
      data.Importable K w.ext ∧ w' = { w with store := data.imported K (K.staking w.ext) } := by
  obtain ⟨store, ext, ctx, emitted⟩ := w
  obtain rfl : store = Store.empty := hempty
  have hnone : data.withTiers.positions = ∅ ∧ data.withTiers.nextPositionId = 0 := by
    rw [GenesisState.withTiers, foldl_importTier]
    exact ⟨rfl, rfl⟩
  have hnext : (data.positions.foldl (Store.importPosition K (K.staking ext))
      data.withTiers).nextPositionId = 0 := by
    rw [foldl_importPosition]
    exact hnone.2
  have hpositions : ∀ seqs w₁, Succeeds (data.positions.foldlM
      (initPosition K (currentSeqByValidator data.validatorEventSeqs)) ∅)
      ⟨data.withTiers, ext, ctx, emitted⟩ seqs w₁ ↔ _ :=
    fun seqs w₁ ↦ succeeds_initPositions hdata.posIDs hnone.1
  unfold initGenesis
  rw [succeeds_read]
  constructor
  · intro h
    simp only [succeeds_bind, succeeds_ensure, setParams, succeeds_fromOutcome,
      succeeds_modifyStore] at h
    obtain ⟨_, _, ⟨hmodule, rfl⟩, _, _, ⟨hpool, rfl⟩, _, _, ⟨_, _, ⟨_, rfl⟩, rfl⟩, _, w₀, htiers,
      seqs, w₁, hwrite, _, w₂, hid, _, w₃, hmappings, _, w₄, hevents, hseqs⟩ := h
    obtain ⟨_, rfl⟩ := succeeds_initTiers.mp htiers
    obtain ⟨hpos, rfl, rfl⟩ := (hpositions seqs w₁).mp hwrite
    obtain rfl := (succeeds_initNextPositionId hnext).mp hid
    obtain ⟨hmapping, rfl⟩ := succeeds_initRedelegationMappings.mp hmappings
    obtain ⟨hevent, rfl⟩ := succeeds_initValidatorEvents.mp hevents
    obtain ⟨_, rfl⟩ := succeeds_initValidatorEventSeqs.mp hseqs
    refine ⟨⟨hmodule, hpool, hpos, ?_, ?_⟩, ?_⟩
    · intro entry hentry
      rw [← GenesisState.withPositions_positions]
      exact hmapping entry hentry
    · intro entry hentry
      rw [(hevent entry hentry).1, expectedReferences_eq]
    · rw [← GenesisState.imported_eq]
      rfl
  · rintro ⟨himport, rfl⟩
    refine succeeds_bind.mpr ⟨⟨⟩, _, succeeds_ensure.mpr ⟨himport.moduleAccount, rfl⟩, ?_⟩
    refine succeeds_bind.mpr ⟨⟨⟩, _, succeeds_ensure.mpr ⟨himport.rewardsPool, rfl⟩, ?_⟩
    refine succeeds_bind.mpr ⟨⟨⟩, _, succeeds_bind.mpr ⟨⟨⟩, _,
      succeeds_fromOutcome.mpr ⟨hdata.params, rfl⟩, succeeds_modifyStore.mpr rfl⟩, ?_⟩
    refine succeeds_bind.mpr ⟨⟨⟩, _, succeeds_initTiers.mpr ⟨hdata.tier, rfl⟩, ?_⟩
    refine succeeds_bind.mpr ⟨_, _, (hpositions _ _).mpr ⟨himport.position, rfl, rfl⟩, ?_⟩
    refine succeeds_bind.mpr ⟨⟨⟩, _, (succeeds_initNextPositionId hnext).mpr rfl, ?_⟩
    refine succeeds_bind.mpr ⟨⟨⟩, _, succeeds_initRedelegationMappings.mpr ⟨?_, rfl⟩, ?_⟩
    · intro entry hentry
      have hmapping := himport.mapping entry hentry
      rw [← GenesisState.withPositions_positions] at hmapping
      exact hmapping
    refine succeeds_bind.mpr ⟨⟨⟩, _, succeeds_initValidatorEvents.mpr ⟨?_, rfl⟩, ?_⟩
    · intro entry hentry
      rw [himport.event entry hentry, ← expectedReferences_eq]
      exact ⟨rfl, (hdata.event entry hentry).1⟩
    · rw [← GenesisState.imported_eq]
      exact succeeds_initValidatorEventSeqs.mpr ⟨hdata.seq, rfl⟩

/-! ### The rebuilt indexes -/

section Imported

variable {data : GenesisState} {st : Staking}

theorem GenesisState.Accepted.positionsById_eq_some (h : data.Accepted K.accCodec K.valCodec)
    {id : ℕ} {pos : Position} :
    data.positionsById[id]? = some pos ↔ pos ∈ data.positions ∧ pos.id = id := by
  rw [GenesisState.positionsById, getElem?_load h.posIDs]
  constructor
  · rintro ⟨p, hp, hid, rfl⟩
    exact ⟨hp, hid⟩
  · rintro ⟨hp, hid⟩
    exact ⟨pos, hp, hid, rfl⟩

theorem GenesisState.Accepted.count_positionsById (h : data.Accepted K.accCodec K.valCodec)
    (P : Position → Bool) :
    count (fun _ pos ↦ P pos) data.positionsById = data.positions.countP P :=
  count_load (fun _ pos ↦ P pos) h.posIDs

theorem GenesisState.Accepted.nodup_keys {α : Type} (h : data.Accepted K.accCodec K.valCodec)
    (f : Position → α) : (data.positions.map fun pos ↦ (f pos, pos.id)).Nodup := by
  refine List.Nodup.of_map Prod.snd ?_
  rw [List.map_map]
  exact h.posIDs

/-- `InitGenesis` rebuilds the indexes that the positions determine. -/
theorem GenesisState.Accepted.indexed (h : data.Accepted K.accCodec K.valCodec) :
    (data.imported K st).Indexed K.accCodec := by
  have hdecodes : ∀ pos ∈ data.positions, ∃ owner, K.accCodec.stringToBytes pos.owner =
      some owner :=
    fun pos hpos ↦ (Position.decodes_of_validate (h.position pos hpos).1).1
  constructor
  · intro id pos hpos
    exact (h.positionsById_eq_some.mp hpos).2
  · intro id pos hpos
    obtain ⟨hmem, rfl⟩ := h.positionsById_eq_some.mp hpos
    exact h.next pos hmem
  · intro id pos hpos
    exact hdecodes pos (h.positionsById_eq_some.mp hpos).1
  · intro owner id
    refine (getElem?_load (h.nodup_keys fun pos ↦ K.accountOf pos.owner)).trans ?_
    constructor
    · rintro ⟨pos, hpos, hkey, _⟩
      obtain ⟨a, ha⟩ := hdecodes pos hpos
      obtain ⟨howner, rfl⟩ := Prod.mk.inj hkey
      rw [Keepers.accountOf_eq ha] at howner
      exact ⟨pos, h.positionsById_eq_some.mpr ⟨hpos, rfl⟩, howner ▸ ha⟩
    · rintro ⟨pos, hpos, howner⟩
      obtain ⟨hmem, rfl⟩ := h.positionsById_eq_some.mp hpos
      exact ⟨pos, hmem, by rw [Keepers.accountOf_eq howner], rfl⟩
  · intro tierId id
    refine (getElem?_load (h.nodup_keys Position.tierId)).trans ?_
    constructor
    · rintro ⟨pos, hpos, hkey, _⟩
      obtain ⟨htier, rfl⟩ := Prod.mk.inj hkey
      exact ⟨pos, h.positionsById_eq_some.mpr ⟨hpos, rfl⟩, htier⟩
    · rintro ⟨pos, hpos, rfl⟩
      obtain ⟨hmem, rfl⟩ := h.positionsById_eq_some.mp hpos
      exact ⟨pos, hmem, rfl, rfl⟩
  · refine (isTally_tallyBy (fun pos : Position ↦ some pos.tierId) data.positions).congr
      fun tierId ↦ ?_
    refine (h.count_positionsById fun pos ↦ pos.tierId == tierId).trans ?_
    exact List.countP_congr fun pos _ ↦ by simp
  · intro id pos hpos
    obtain ⟨tier, htier, hid⟩ :=
      List.mem_map.mp (h.position pos (h.positionsById_eq_some.mp hpos).1).2
    exact ⟨tier, (getElem?_load h.tierIDs).mpr ⟨tier, htier, hid, rfl⟩⟩
  · intro tierId tier htier
    obtain ⟨_, hmem, hid, rfl⟩ := (getElem?_load h.tierIDs).mp htier
    exact ⟨hid, h.tier _ hmem⟩

/-- The rebuilt counter by validator counts the delegated positions. -/
theorem GenesisState.Accepted.counted (h : data.Accepted K.accCodec K.valCodec) :
    IsTally (data.imported K st).positionCountByValidator fun v ↦
      count (fun _ pos ↦ decide (pos.validator K st = some v)) (data.imported K st).positions :=
  (isTally_tallyBy (Position.validator K st) data.positions).congr fun v ↦
    h.count_positionsById fun pos ↦ decide (pos.validator K st = some v)

end Imported

end ChainMain.TieredRewards
