import ChainMain.Foundations.Outcomes
import ChainMain.Foundations.Loading
import ChainMain.TieredRewards.ForceExit

/-!
# The genesis of the module

`ValidateGenesis` of `types/genesis.go`, and `InitGenesis` and `ExportGenesis` of
`keeper/genesis.go`.

`ValidateGenesis` checks five lists, each in a loop that checks an entry, rejects a key it has seen,
and checks the entry against the lists before it (`EntryCheck`). It then compares the highest
sequence number of a validator's events with the current one. `validateGenesis_eq_ok` says what
passes.

`InitGenesis` returns nothing and panics on an error: here its errors are what it panics with. It
reads the live delegations, compares them with the checkpoints of the positions and with the
reference counts of the events, and writes every position with `setPosition`, which rebuilds the
indexes.
-/

set_option autoImplicit false

namespace ChainMain.TieredRewards

open Foundations Decimal OrderedStore StoreProgram

/-! ### The genesis state -/

structure RedelegationMapping where
  unbondingId : ℕ
  positionId : ℕ
deriving DecidableEq

structure ValidatorEventEntry where
  validator : String
  sequence : ℕ
  event : ValidatorEvent
deriving DecidableEq

structure ValidatorEventSeqEntry where
  validator : String
  currentSeq : ℕ
deriving DecidableEq

structure GenesisState where
  params : Params
  tiers : List Tier
  positions : List Position
  nextPositionId : ℕ
  redelegationMappings : List RedelegationMapping
  validatorEvents : List ValidatorEventEntry
  validatorEventSeqs : List ValidatorEventSeqEntry

/-- `DefaultGenesisState`. -/
def GenesisState.default : GenesisState := ⟨Params.default, [], [], 0, [], [], []⟩

/-! ### Validation -/

section Validation

open Foundations.Outcomes

/-- The checks of an entry in a loop of `ValidateGenesis`: those before its key is compared with the
keys seen so far, the error for a key that was seen, and the checks after that. -/
structure EntryCheck (α κ : Type) where
  before : ℕ → α → Except Err Unit
  key : α → κ
  duplicate : ℕ → α → Err
  after : ℕ → α → Except Err Unit

variable {α κ : Type} [DecidableEq κ]

/-- A loop of `ValidateGenesis`, at an index and with the keys seen so far. -/
def EntryCheck.validate (c : EntryCheck α κ) : ℕ → List κ → List α → Except Err (List κ)
  | _, seen, [] => .ok seen
  | i, seen, entry :: rest => do
    c.before i entry
    ensure (!seen.contains (c.key entry)) (c.duplicate i entry)
    c.after i entry
    c.validate (i + 1) (c.key entry :: seen) rest

/-- The loop over the tiers. -/
def tierChecks : EntryCheck Tier ℕ where
  before i tier := tier.validate.mapError (.wrap "invalid tier at index %d: %w" [.nat i])
  key := Tier.id
  duplicate i tier := .message "duplicate tier ID %d at index %d" [.nat tier.id, .nat i]
  after _ _ := .ok ()

/-- The loop over the positions. -/
def positionChecks (acc : AddressCodec) (tierIDs : List ℕ) : EntryCheck Position ℕ where
  before i pos := (pos.validate acc).mapError (.wrap "invalid position at index %d: %w" [.nat i])
  key := Position.id
  duplicate i pos := .message "duplicate position ID %d at index %d" [.nat pos.id, .nat i]
  after _ pos := ensure (tierIDs.contains pos.tierId)
    (.message "position %d references unknown tier ID %d" [.nat pos.id, .nat pos.tierId])

/-- The loop over the redelegation mappings. -/
def mappingChecks (posIDs : List ℕ) : EntryCheck RedelegationMapping ℕ where
  before i entry := ensure (entry.unbondingId != 0)
    (.message "redelegation mapping at index %d has zero unbonding_id" [.nat i])
  key := RedelegationMapping.unbondingId
  duplicate i entry := .message "duplicate redelegation mapping unbonding_id %d at index %d"
    [.nat entry.unbondingId, .nat i]
  after i entry := ensure (posIDs.contains entry.positionId)
    (.message "redelegation mapping at index %d references unknown position ID %d"
      [.nat i, .nat entry.positionId])

/-- The loop over the validator events. -/
def eventChecks (val : AddressCodec) : EntryCheck ValidatorEventEntry (String × ℕ) where
  before i entry := ensure (val.stringToBytes entry.validator).isSome
    (.wrap "invalid validator address in event at index %d: %w" [.nat i] bech32Error)
  key entry := (entry.validator, entry.sequence)
  duplicate i entry := .message "duplicate validator event (validator=%s, seq=%d) at index %d"
    [.str entry.validator, .nat entry.sequence, .nat i]
  after i entry := ensure (entry.event.referenceCount != 0)
    (.message "validator event at index %d has zero reference count" [.nat i])

/-- The loop over the current sequence numbers. -/
def seqChecks (val : AddressCodec) : EntryCheck ValidatorEventSeqEntry String where
  before i entry := ensure (val.stringToBytes entry.validator).isSome
    (.wrap "invalid validator address in event current seq at index %d: %w" [.nat i] bech32Error)
  key := ValidatorEventSeqEntry.validator
  duplicate i entry := .message "duplicate validator %s in event current seqs at index %d"
    [.str entry.validator, .nat i]
  after _ _ := .ok ()

def maxPosID (positions : List Position) : ℕ :=
  positions.foldl (fun maxPosID pos ↦ if maxPosID < pos.id then pos.id else maxPosID) 0

/-- The highest sequence number of every validator's events. -/
def maxSeqByValidator (events : List ValidatorEventEntry) : Map String ℕ :=
  events.foldl (fun maxSeqs entry ↦
    if (maxSeqs[entry.validator]?).getD 0 < entry.sequence then
      maxSeqs.insert entry.validator entry.sequence
    else maxSeqs) ∅

/-- The current sequence number of every validator. -/
def currentSeqByValidator (seqs : List ValidatorEventSeqEntry) : Map String ℕ :=
  seqs.foldl (fun currentSeqs entry ↦ currentSeqs.insert entry.validator entry.currentSeq) ∅

/-- The comparison of a validator's highest sequence number with its current one. -/
def checkCurrentSeq (currentSeqs : Map String ℕ) (entry : String × ℕ) : Except Err Unit := do
  let currentSeq ← expect currentSeqs[entry.1]?
    (.message "validator %s has events but no current_seq entry" [.str entry.1])
  ensure (decide (entry.2 ≤ currentSeq))
    (.message
      "validator %s current_seq (%d) must be greater than or equal to max event sequence (%d)"
      [.str entry.1, .nat currentSeq, .nat entry.2])

def validateGenesis (acc val : AddressCodec) (data : GenesisState) : Except Err Unit := do
  data.params.validate.mapError (.wrap "invalid params: %w" [])
  let tierIDs ← tierChecks.validate 0 [] data.tiers
  let posIDs ← (positionChecks acc tierIDs).validate 0 [] data.positions
  ensure (data.positions.isEmpty || decide (maxPosID data.positions < data.nextPositionId))
    (.message "next_position_id (%d) must be greater than the highest position ID (%d)"
      [.nat data.nextPositionId, .nat (maxPosID data.positions)])
  let _ ← (mappingChecks posIDs).validate 0 [] data.redelegationMappings
  let _ ← (eventChecks val).validate 0 [] data.validatorEvents
  let _ ← (seqChecks val).validate 0 [] data.validatorEventSeqs
  (maxSeqByValidator data.validatorEvents).toList.forM
    (checkCurrentSeq (currentSeqByValidator data.validatorEventSeqs))

end Validation

/-! ### Import and export -/

def moduleName : String := "tieredrewards"

section Keeper

variable {σ : Type} (K : Keepers σ)

/-- The `LastEventSeq` of the delegated positions, by validator. -/
abbrev DelegatedSeqs := Map String (List ℕ)

/-- The checks of a delegated position against the current sequence number of its validator, and its
entry among the delegated positions. -/
def recordDelegated (currentSeqs : Map String ℕ) (delegatedPosSeqsByVal : DelegatedSeqs)
    (pos : Position) (del : Option Delegation) : M σ DelegatedSeqs :=
  match del with
  | none => pure delegatedPosSeqsByVal
  | some del => do
    let currentSeq := (currentSeqs[del.validatorAddress]?).getD 0
    ensure (decide (pos.lastEventSeq ≤ currentSeq))
      (.message "position %d has LastEventSeq (%d) greater than validator %s current_seq (%d)"
        [.nat pos.id, .nat pos.lastEventSeq, .str del.validatorAddress, .nat currentSeq])
    return delegatedPosSeqsByVal.insert del.validatorAddress
      ((delegatedPosSeqsByVal[del.validatorAddress]?).getD [] ++ [pos.lastEventSeq])

/-- The body of the loop over the positions. -/
def initPosition (currentSeqs : Map String ℕ) (delegatedPosSeqsByVal : DelegatedSeqs)
    (pos : Position) :
    M σ DelegatedSeqs := do
  let del ← wrapping "failed to get delegation for position %d: %w" [.nat pos.id]
    (getDelegation K pos.delegatorAddress)
  let delegatedPosSeqsByVal ← recordDelegated currentSeqs delegatedPosSeqsByVal pos del
  wrapping "position state validation failed for position %d: %w" [.nat pos.id]
    (fromOutcome (PositionState.validate K.accCodec K.valCodec ⟨pos, del⟩))
  setPosition K pos (some ⟨""⟩)
  return delegatedPosSeqsByVal

/-- The body of the loop over the redelegation mappings. -/
def initRedelegationMapping (entry : RedelegationMapping) : M σ PUnit := do
  let w ← get
  let red ← expect (K.staking w.ext).redelegations[entry.unbondingId]?
    (.wrap
      ("redelegation mapping (unbonding_id=%d, position_id=%d) " ++
        "has no matching staking redelegation: %w")
      [.nat entry.unbondingId, .nat entry.positionId] (.keeper "unbonding operation not found"))
  let pos ← wrapping "redelegation mapping references unknown position %d: %w"
    [.nat entry.positionId] (getPosition entry.positionId)
  ensure (K.accCodec.bytesToString red.delegator == pos.delegatorAddress)
    (.message
      ("redelegation mapping (unbonding_id=%d, position_id=%d) " ++
        "delegator mismatch: staking has %q, expected %q")
      [.nat entry.unbondingId, .nat entry.positionId, .str (K.accCodec.bytesToString red.delegator),
        .str pos.delegatorAddress])
  modifyStore fun s ↦
    { s with
      redelegationMappings := s.redelegationMappings.insert entry.unbondingId entry.positionId }

/-- The number of positions that would process an event. -/
def expectedReferences (delegatedPosSeqsByVal : DelegatedSeqs) (entry : ValidatorEventEntry) : ℕ :=
  ((delegatedPosSeqsByVal[entry.validator]?).getD []).countP fun lastSeq ↦
    decide (lastSeq < entry.sequence)

/-- The body of the loop over the validator events. -/
def initValidatorEvent (delegatedPosSeqsByVal : DelegatedSeqs) (entry : ValidatorEventEntry) :
    M σ PUnit := do
  ensure (entry.event.referenceCount == expectedReferences delegatedPosSeqsByVal entry)
    (.message "validator %s event seq %d has ReferenceCount %d but %d positions would process it"
      [.str entry.validator, .nat entry.sequence, .nat entry.event.referenceCount,
        .nat (expectedReferences delegatedPosSeqsByVal entry)])
  let v ← valAddressFromBech32 K entry.validator bech32Error
  modifyStore fun s ↦
    { s with validatorEvents := s.validatorEvents.insert (v, entry.sequence) entry.event }

/-- The body of the loop over the current sequence numbers. -/
def initValidatorEventSeq (entry : ValidatorEventSeqEntry) : M σ PUnit := do
  let v ← valAddressFromBech32 K entry.validator bech32Error
  modifyStore fun s ↦ { s with validatorEventSeq := s.validatorEventSeq.insert v entry.currentSeq }

/-- The write of the next position id, which is left alone at zero. -/
def initNextPositionId (nextPositionId : ℕ) : M σ PUnit :=
  if 0 < nextPositionId then modifyStore fun s ↦ { s with nextPositionId := nextPositionId }
  else pure ⟨⟩

def initGenesis (data : GenesisState) : M σ PUnit := do
  let w ← get
  ensure (K.hasModuleAccount w.ext moduleName)
    (.panic "tieredrewards module account was not created")
  ensure (K.hasModuleAccount w.ext rewardsPoolName)
    (.panic "tieredrewards rewards pool module account was not created")
  setParams data.params
  data.tiers.forM setTier
  let delegatedPosSeqsByVal ← data.positions.foldlM
    (initPosition K (currentSeqByValidator data.validatorEventSeqs)) ∅
  initNextPositionId data.nextPositionId
  data.redelegationMappings.forM (initRedelegationMapping K)
  data.validatorEvents.forM (initValidatorEvent K delegatedPosSeqsByVal)
  data.validatorEventSeqs.forM (initValidatorEventSeq K)

/-- What `ExportGenesis` collects: the walks of the collections. The indexes are not exported. -/
def Store.exported (s : Store) (params : Params) : GenesisState where
  params := params
  tiers := s.tiers.toList.map Prod.snd
  positions := s.positions.toList.map Prod.snd
  nextPositionId := s.nextPositionId
  redelegationMappings := s.redelegationMappings.toList.map fun entry ↦ ⟨entry.1, entry.2⟩
  validatorEvents := s.validatorEvents.toList.map fun entry ↦
    ⟨K.valCodec.bytesToString entry.1.1, entry.1.2, entry.2⟩
  validatorEventSeqs := s.validatorEventSeq.toList.map fun entry ↦
    ⟨K.valCodec.bytesToString entry.1, entry.2⟩

def exportGenesis (s : Store) : Except Err GenesisState :=
  match s.params with
  | none => .error (.panic "collections: not found")
  | some params => .ok (s.exported K params)

end Keeper

/-! ### What validation accepts -/

section Accepted

open Foundations.Outcomes

theorem EntryCheck.validate_eq_ok {α κ : Type} [DecidableEq κ] {c : EntryCheck α κ}
    {before after : α → Prop} (hbefore : ∀ i entry, c.before i entry = .ok () ↔ before entry)
    (hafter : ∀ i entry, c.after i entry = .ok () ↔ after entry) {i : ℕ} {seen keys : List κ}
    {items : List α} :
    c.validate i seen items = .ok keys ↔
      (∀ entry ∈ items, before entry ∧ after entry) ∧ (items.map c.key).Nodup ∧
        (∀ entry ∈ items, c.key entry ∉ seen) ∧ keys = (items.map c.key).reverse ++ seen := by
  induction items generalizing i seen with
  | nil => simp [EntryCheck.validate, eq_comm]
  | cons entry rest ih =>
    rw [EntryCheck.validate, check_eq_ok, check_eq_ok, check_eq_ok, ih, hbefore, hafter,
      ensure_eq_ok, List.contains_eq_mem, Bool.not_eq_true', decide_eq_false_iff_not,
      List.forall_mem_cons, List.forall_mem_cons, List.map_cons, List.nodup_cons, List.reverse_cons,
      List.append_assoc]
    have hfresh : (∀ other ∈ rest, c.key other ∉ c.key entry :: seen) ↔
        c.key entry ∉ rest.map c.key ∧ ∀ other ∈ rest, c.key other ∉ seen := by
      simp only [List.mem_cons, not_or, List.mem_map, not_exists, not_and]
      exact ⟨fun h ↦ ⟨fun other hother ↦ (h other hother).1, fun other hother ↦ (h other hother).2⟩,
        fun h other hother ↦ ⟨h.1 other hother, h.2 other hother⟩⟩
    rw [hfresh]
    constructor
    · rintro ⟨hb, hnew, ha, hall, hnodup, ⟨hhead, hrest⟩, hkeys⟩
      exact ⟨⟨⟨hb, ha⟩, hall⟩, ⟨hhead, hnodup⟩, ⟨hnew, hrest⟩, hkeys⟩
    · rintro ⟨⟨⟨hb, ha⟩, hall⟩, ⟨hhead, hnodup⟩, ⟨hnew, hrest⟩, hkeys⟩
      exact ⟨hb, hnew, ha, hall, hnodup, ⟨hhead, hrest⟩, hkeys⟩

theorem foldl_maxPosID_lt {positions : List Position} {next : ℕ} (m : ℕ) :
    positions.foldl (fun m pos ↦ if m < pos.id then pos.id else m) m < next ↔
      m < next ∧ ∀ pos ∈ positions, pos.id < next := by
  induction positions generalizing m with
  | nil => simp
  | cons pos rest ih =>
    rw [List.foldl_cons, ih, List.forall_mem_cons, ← and_assoc]
    refine and_congr_left fun _ ↦ ?_
    split_ifs <;> omega

/-- The next id is above the highest one if and only if it is above all. -/
theorem maxPosID_lt_iff {positions : List Position} {next : ℕ} :
    (positions.isEmpty || decide (maxPosID positions < next)) = true ↔
      ∀ pos ∈ positions, pos.id < next := by
  rw [Bool.or_eq_true, List.isEmpty_iff, decide_eq_true_iff, maxPosID, foldl_maxPosID_lt]
  constructor
  · rintro (rfl | hlt) pos hpos
    · exact absurd hpos List.not_mem_nil
    · exact hlt.2 pos hpos
  · intro hall
    cases positions with
    | nil => exact Or.inl rfl
    | cons pos rest => exact Or.inr ⟨(Nat.zero_le _).trans_lt (hall pos List.mem_cons_self), hall⟩

/-- A bound on the highest sequence numbers is a bound on every sequence number; a number `0` is not
recorded. -/
theorem maxSeqByValidator_iff {P : String → ℕ → Prop} (hdown : ∀ v m n, m ≤ n → P v n → P v m)
    {events : List ValidatorEventEntry} :
    (∀ v n, (maxSeqByValidator events)[v]? = some n → P v n) ↔
      ∀ entry ∈ events, 0 < entry.sequence → P entry.validator entry.sequence := by
  have hfold : ∀ (rest : List ValidatorEventEntry) (maxSeqs : Map String ℕ),
      (∀ (v : String) (n : ℕ), (rest.foldl (fun (maxSeqs : Map String ℕ) entry ↦
        if (maxSeqs[entry.validator]?).getD 0 < entry.sequence then
          maxSeqs.insert entry.validator entry.sequence
        else maxSeqs) maxSeqs)[v]? = some n → P v n) ↔
      (∀ v n, maxSeqs[v]? = some n → P v n) ∧
        ∀ entry ∈ rest, 0 < entry.sequence → P entry.validator entry.sequence := by
    intro rest
    induction rest with
    | nil => simp
    | cons entry rest ih =>
      intro maxSeqs
      rw [List.foldl_cons, ih, List.forall_mem_cons, ← and_assoc]
      refine and_congr_left fun _ ↦ ?_
      split_ifs with hlt
      · constructor
        · intro h
          have hnew : P entry.validator entry.sequence :=
            h entry.validator entry.sequence (by rw [getElem?_insert_eq, if_pos rfl])
          refine ⟨fun v n hn ↦ ?_, fun _ ↦ hnew⟩
          by_cases hv : entry.validator = v
          · subst hv
            rw [hn] at hlt
            exact hdown _ n _ hlt.le hnew
          · exact h v n (by rw [getElem?_insert_eq, if_neg hv, hn])
        · rintro ⟨hold, hnew⟩ v n hn
          rw [getElem?_insert_eq] at hn
          split_ifs at hn with hv
          · obtain rfl := Option.some.inj hn
            exact hv ▸ hnew (by omega)
          · exact hold v n hn
      · refine ⟨fun h ↦ ⟨h, fun hpos ↦ ?_⟩, fun h ↦ h.1⟩
        cases hmax : maxSeqs[entry.validator]? with
        | none =>
          rw [hmax] at hlt
          exact absurd hpos hlt
        | some n =>
          rw [hmax] at hlt
          exact hdown _ _ n (not_lt.mp hlt) (h _ n hmax)
  rw [maxSeqByValidator, hfold]
  simp

theorem checkCurrentSeq_eq_ok {currentSeqs : Map String ℕ} {entry : String × ℕ} :
    checkCurrentSeq currentSeqs entry = .ok () ↔
      ∃ currentSeq, currentSeqs[entry.1]? = some currentSeq ∧ entry.2 ≤ currentSeq := by
  unfold checkCurrentSeq
  simp only [bind_eq_ok, expect_eq_ok, ensure_eq_ok, decide_eq_true_iff]

/-- What `ValidateGenesis` accepts. -/
structure GenesisState.Accepted (acc val : AddressCodec) (data : GenesisState) : Prop where
  params : data.params.validate = .ok ()
  tier : ∀ tier ∈ data.tiers, tier.validate = .ok ()
  tierIDs : (data.tiers.map Tier.id).Nodup
  position : ∀ pos ∈ data.positions, pos.validate acc = .ok () ∧ pos.tierId ∈ data.tiers.map Tier.id
  posIDs : (data.positions.map Position.id).Nodup
  next : ∀ pos ∈ data.positions, pos.id < data.nextPositionId
  mapping : ∀ entry ∈ data.redelegationMappings,
    entry.unbondingId ≠ 0 ∧ entry.positionId ∈ data.positions.map Position.id
  unbondingIds : (data.redelegationMappings.map RedelegationMapping.unbondingId).Nodup
  event : ∀ entry ∈ data.validatorEvents,
    (val.stringToBytes entry.validator).isSome ∧ entry.event.referenceCount ≠ 0
  eventKeys : (data.validatorEvents.map fun entry ↦ (entry.validator, entry.sequence)).Nodup
  seq : ∀ entry ∈ data.validatorEventSeqs, (val.stringToBytes entry.validator).isSome
  seqKeys : (data.validatorEventSeqs.map ValidatorEventSeqEntry.validator).Nodup
  bounded : ∀ entry ∈ data.validatorEvents, 0 < entry.sequence →
    ∃ currentSeq, (currentSeqByValidator data.validatorEventSeqs)[entry.validator]? =
      some currentSeq ∧ entry.sequence ≤ currentSeq

theorem tierChecks_eq_ok {tiers : List Tier} {tierIDs : List ℕ} :
    tierChecks.validate 0 [] tiers = .ok tierIDs ↔
      (∀ tier ∈ tiers, tier.validate = .ok ()) ∧ (tiers.map Tier.id).Nodup ∧
        tierIDs = (tiers.map Tier.id).reverse := by
  have hafter : ∀ i tier, tierChecks.after i tier = .ok () ↔ True :=
    fun _ _ ↦ iff_of_true rfl trivial
  rw [EntryCheck.validate_eq_ok (fun _ _ ↦ mapError_eq_ok) hafter]
  simp [tierChecks]

theorem positionChecks_eq_ok {acc : AddressCodec} {tierIDs posIDs : List ℕ}
    {positions : List Position} :
    (positionChecks acc tierIDs).validate 0 [] positions = .ok posIDs ↔
      (∀ pos ∈ positions, pos.validate acc = .ok () ∧ pos.tierId ∈ tierIDs) ∧
        (positions.map Position.id).Nodup ∧ posIDs = (positions.map Position.id).reverse := by
  rw [EntryCheck.validate_eq_ok (fun _ _ ↦ mapError_eq_ok) fun _ _ ↦ ensure_eq_ok]
  simp [positionChecks]

theorem mappingChecks_eq_ok {posIDs ids : List ℕ} {mappings : List RedelegationMapping} :
    (mappingChecks posIDs).validate 0 [] mappings = .ok ids ↔
      (∀ entry ∈ mappings, entry.unbondingId ≠ 0 ∧ entry.positionId ∈ posIDs) ∧
        (mappings.map RedelegationMapping.unbondingId).Nodup ∧
        ids = (mappings.map RedelegationMapping.unbondingId).reverse := by
  rw [EntryCheck.validate_eq_ok (fun _ _ ↦ ensure_eq_ok) fun _ _ ↦ ensure_eq_ok]
  simp [mappingChecks]

theorem eventChecks_eq_ok {val : AddressCodec} {keys : List (String × ℕ)}
    {events : List ValidatorEventEntry} :
    (eventChecks val).validate 0 [] events = .ok keys ↔
      (∀ entry ∈ events, (val.stringToBytes entry.validator).isSome ∧
        entry.event.referenceCount ≠ 0) ∧
        (events.map fun entry ↦ (entry.validator, entry.sequence)).Nodup ∧
        keys = (events.map fun entry ↦ (entry.validator, entry.sequence)).reverse := by
  rw [EntryCheck.validate_eq_ok (fun _ _ ↦ ensure_eq_ok) fun _ _ ↦ ensure_eq_ok]
  simp [eventChecks]

theorem seqChecks_eq_ok {val : AddressCodec} {keys : List String}
    {seqs : List ValidatorEventSeqEntry} :
    (seqChecks val).validate 0 [] seqs = .ok keys ↔
      (∀ entry ∈ seqs, (val.stringToBytes entry.validator).isSome) ∧
        (seqs.map ValidatorEventSeqEntry.validator).Nodup ∧
        keys = (seqs.map ValidatorEventSeqEntry.validator).reverse := by
  have hafter : ∀ i entry, (seqChecks val).after i entry = .ok () ↔ True :=
    fun _ _ ↦ iff_of_true rfl trivial
  rw [EntryCheck.validate_eq_ok (fun _ _ ↦ ensure_eq_ok) hafter]
  simp [seqChecks]

theorem crossChecks_eq_ok {currentSeqs : Map String ℕ} {events : List ValidatorEventEntry} :
    (maxSeqByValidator events).toList.forM (checkCurrentSeq currentSeqs) = .ok () ↔
      ∀ entry ∈ events, 0 < entry.sequence →
        ∃ currentSeq, currentSeqs[entry.validator]? = some currentSeq ∧
        entry.sequence ≤ currentSeq := by
  have hdown : ∀ (v : String) (m n : ℕ), m ≤ n →
      (∃ currentSeq, currentSeqs[v]? = some currentSeq ∧ n ≤ currentSeq) →
      ∃ currentSeq, currentSeqs[v]? = some currentSeq ∧ m ≤ currentSeq :=
    fun v m n hmn h ↦ h.imp fun c hc ↦ ⟨hc.1, hmn.trans hc.2⟩
  rw [forM_eq_ok]
  refine Iff.trans ?_ (maxSeqByValidator_iff hdown)
  constructor
  · intro h v n hn
    exact checkCurrentSeq_eq_ok.mp (h (v, n) (mem_toList.mpr hn))
  · rintro h ⟨v, n⟩ hmem
    exact checkCurrentSeq_eq_ok.mpr (h v n (mem_toList.mp hmem))

/-- `ValidateGenesis` succeeds exactly on the accepted genesis states. -/
theorem validateGenesis_eq_ok {acc val : AddressCodec} {data : GenesisState} :
    validateGenesis acc val data = .ok () ↔ data.Accepted acc val := by
  unfold validateGenesis
  simp only [bind_eq_ok, mapError_eq_ok, ensure_eq_ok, tierChecks_eq_ok,
    positionChecks_eq_ok, mappingChecks_eq_ok, eventChecks_eq_ok, seqChecks_eq_ok,
    crossChecks_eq_ok, maxPosID_lt_iff]
  constructor
  · rintro ⟨_, hparams, _, ⟨htier, htierIDs, rfl⟩, _, ⟨hposition, hposIDs, rfl⟩, _, hnext, _,
      ⟨hmapping, hids, rfl⟩, _, ⟨hevent, hkeys, rfl⟩, _, ⟨hseq, hseqKeys, rfl⟩, hbounded⟩
    simp only [List.mem_reverse] at hposition hmapping
    exact ⟨hparams, htier, htierIDs, hposition, hposIDs, hnext, hmapping, hids, hevent, hkeys, hseq,
      hseqKeys, hbounded⟩
  · intro h
    refine ⟨(), h.params, _, ⟨h.tier, h.tierIDs, rfl⟩, _, ⟨?_, h.posIDs, rfl⟩, (), h.next, _,
      ⟨?_, h.unbondingIds, rfl⟩, _, ⟨h.event, h.eventKeys, rfl⟩, _,
      ⟨h.seq, h.seqKeys, rfl⟩, h.bounded⟩
    · simpa only [List.mem_reverse] using h.position
    · simpa only [List.mem_reverse] using h.mapping

end Accepted

end ChainMain.TieredRewards
