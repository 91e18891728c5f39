import ChainMain.TieredRewards.GenesisImport
import ChainMain.TieredRewards.ReachableInvariants

/-!
# Laws of export and import

`genesis_round_trip`: in a reachable world the export is accepted by `ValidateGenesis`, and
`InitGenesis` over the same staking records gives the store back, the derived indexes included.

`genesis_invariants_iff` is about a genesis from elsewhere: what the checks of `ValidateGenesis` and
`InitGenesis` establish, and what they leave to the author of the genesis (`GenesisState.Complete`).
The reference counts of the events are always right. That no account backs two positions, that no
event a position has to process is missing, and that no redelegation is unmapped is not checked
(`shared_delegator_accepted`).
-/

set_option autoImplicit false

namespace ChainMain.TieredRewards

open Foundations Decimal OrderedStore StoreProgram

variable {σ : Type} {K : Keepers σ} {w w' : World σ}

/-! ### Indexes are determined -/

/-- Two indexed stores with the same positions have the same indexes. -/
theorem Store.Indexed.unique {codec : AddressCodec} {s s' : Store} (h : s.Indexed codec)
    (h' : s'.Indexed codec) (hpositions : s'.positions = s.positions) :
    s'.positionsByOwner = s.positionsByOwner ∧ s'.positionsByTier = s.positionsByTier ∧
      s'.positionCountByTier = s.positionCountByTier := by
  refine ⟨?_, ?_, ?_⟩
  · ext1 ⟨owner, id⟩
    refine Option.ext fun _ ↦ ?_
    refine (h'.byOwner owner id).trans (Iff.trans ?_ (h.byOwner owner id).symm)
    rw [hpositions]
  · ext1 ⟨tierId, id⟩
    refine Option.ext fun _ ↦ ?_
    refine (h'.byTier tierId id).trans (Iff.trans ?_ (h.byTier tierId id).symm)
    rw [hpositions]
  · refine h'.countByTier.unique (h.countByTier.congr fun tierId ↦ ?_)
    rw [Store.tierSize, Store.tierSize, hpositions]

/-! ### A sound world -/

section Sound

variable (hw : K.Sound w) {id : ℕ} {p : Position}

include hw

theorem staked_eq_validator (hp : w.store.positions[id]? = some p) (v : ValAddress) :
    (K.view w).staked K.accCodec v p = decide (p.validator K (K.staking w.ext) = some v) := by
  obtain ⟨a, ha, _, _⟩ := hw.accounted.holds hp
  rw [Ledger.staked_eq ha.account, Position.validator, Keepers.accountOf_eq ha.account]
  rcases hw.coherent.backed id p a ha with ⟨u, s, hstake, _⟩ | ⟨hidle, _⟩
  · rw [stakedOn_eq_some hstake, hstake v]
    by_cases hv : v = u
    · simp [hv]
    · simp [hv, Ne.symm hv]
  · rw [stakedOn_eq_none hidle, hidle v]
    simp

/-- A stored position passes the checks against its live delegation. -/
theorem position_importable (hp : w.store.positions[id]? = some p) {currentSeqs : Map String ℕ}
    (hseqs : ∀ v, (currentSeqs[K.valCodec.bytesToString v]?).getD 0 =
      w.store.getValidatorEventLatestSeq v) :
    p.Importable K (K.staking w.ext) currentSeqs := by
  obtain ⟨a, ha, haddress, _⟩ := hw.accounted.holds hp
  constructor
  · rw [Keepers.accountOf_eq ha.account]
    refine validate_of_checkpoints (hw.coherent.valid id p hp) ?_
    unfold PositionState.validateDelegation
    rcases hw.coherent.backed id p a ha with ⟨v, s, hstake, hpositive, haccrual⟩ | ⟨hidle, hclear⟩
    · have hshares : s.isPositive = true := decide_eq_true hpositive
      rw [firstDelegation_of_stakedOn hstake]
      simp [K.valCodec.stringToBytes_bytesToString, haddress, hshares, haccrual]
    · rw [firstDelegation_eq_none.mpr hidle]
      simp [hclear]
  · intro v hv
    rw [hseqs v]
    refine hw.logged.seq_le id p v hp ?_
    rw [staked_eq_validator hw hp]
    exact decide_eq_true hv

/-! ### The export is accepted -/

omit hw in
theorem nodup_seqKeys_exported (params : Params) :
    ((w.store.exported K params).validatorEventSeqs.map ValidatorEventSeqEntry.validator).Nodup :=
  nodup_keys_map_toList K.valCodec.bytesToString_injective fun _ _ _ ↦ rfl

omit hw in
/-- The current sequence numbers of the export are those of the store. -/
theorem currentSeqByValidator_exported (params : Params) (v : ValAddress) :
    (currentSeqByValidator (w.store.exported K params).validatorEventSeqs)[K.valCodec.bytesToString
      v]? = w.store.validatorEventSeq[v]? := by
  refine Option.ext fun n ↦ (getElem?_load (nodup_seqKeys_exported params)).trans ?_
  rw [← mem_toList]
  simp only [Store.exported, List.mem_map]
  constructor
  · rintro ⟨_, ⟨⟨u, m⟩, hmem, rfl⟩, hv, rfl⟩
    rwa [← K.valCodec.bytesToString_injective hv]
  · intro hmem
    exact ⟨_, ⟨(v, n), hmem, rfl⟩, rfl, rfl⟩

theorem exported_accepted {params : Params} (hparams : params.validate = .ok ()) :
    (w.store.exported K params).Accepted K.accCodec K.valCodec := by
  have hposition : ∀ pos ∈ (w.store.exported K params).positions,
      w.store.positions[pos.id]? = some pos := by
    intro pos hpos
    obtain ⟨⟨i, _⟩, hmem, rfl⟩ := List.mem_map.mp hpos
    have hstored := mem_toList.mp hmem
    rwa [hw.indexed.id_eq i _ hstored]
  have hstored : ∀ (i : ℕ) (p : Position), w.store.positions[i]? = some p →
      p ∈ (w.store.exported K params).positions ∧ p.id = i :=
    fun i p hp ↦ ⟨List.mem_map.mpr ⟨(i, p), mem_toList.mpr hp, rfl⟩, hw.indexed.id_eq i p hp⟩
  constructor
  · exact hparams
  · intro tier htier
    obtain ⟨⟨i, _⟩, hmem, rfl⟩ := List.mem_map.mp htier
    exact (hw.indexed.tierValid i _ (mem_toList.mp hmem)).2
  · exact nodup_keys_map_toList Function.injective_id fun i tier h ↦
      (hw.indexed.tierValid i tier h).1
  · intro pos hpos
    refine ⟨hw.coherent.valid _ pos (hposition pos hpos), ?_⟩
    obtain ⟨tier, htier⟩ := hw.indexed.tierStored _ pos (hposition pos hpos)
    refine List.mem_map.mpr
      ⟨tier, List.mem_map.mpr ⟨(pos.tierId, tier), mem_toList.mpr htier, rfl⟩, ?_⟩
    exact (hw.indexed.tierValid _ tier htier).1
  · exact nodup_keys_map_toList Function.injective_id fun i p h ↦ hw.indexed.id_eq i p h
  · intro pos hpos
    exact hw.indexed.id_lt _ pos (hposition pos hpos)
  · intro entry hentry
    obtain ⟨⟨u, i⟩, hmem, rfl⟩ := List.mem_map.mp hentry
    obtain ⟨red, ⟨p, hp⟩, hred⟩ := (hw.mapped.mapping u i).mp (mem_toList.mp hmem)
    constructor
    · rintro rfl
      rw [hw.tidy.zero] at hred
      cases hred
    · obtain ⟨hmem', hid⟩ := hstored i p hp.stored
      exact List.mem_map.mpr ⟨p, hmem', hid⟩
  · exact nodup_keys_map_toList Function.injective_id fun _ _ _ ↦ rfl
  · intro entry hentry
    obtain ⟨⟨⟨v, n⟩, event⟩, hmem, rfl⟩ := List.mem_map.mp hentry
    have hcount := (hw.logged.referenceCount v n event (mem_toList.mp hmem)).2
    refine ⟨?_, Nat.one_le_iff_ne_zero.mp hcount⟩
    dsimp only
    rw [K.valCodec.stringToBytes_bytesToString]
    rfl
  · have hinjective : Function.Injective fun key : ValAddress × ℕ ↦
        (K.valCodec.bytesToString key.1, key.2) := by
      intro key key' h
      obtain ⟨hv, hn⟩ := Prod.mk.inj h
      exact Prod.ext (K.valCodec.bytesToString_injective hv) hn
    exact nodup_keys_map_toList hinjective fun _ _ _ ↦ rfl
  · intro entry hentry
    obtain ⟨⟨v, n⟩, _, rfl⟩ := List.mem_map.mp hentry
    dsimp only
    rw [K.valCodec.stringToBytes_bytesToString]
    rfl
  · exact nodup_seqKeys_exported params
  · intro entry hentry hpos
    obtain ⟨⟨⟨v, n⟩, event⟩, hmem, rfl⟩ := List.mem_map.mp hentry
    have hbound := hw.logged.bound v n event (mem_toList.mp hmem)
    change n ≤ (w.store.validatorEventSeq[v]?).getD 0 at hbound
    dsimp only at hpos ⊢
    rw [currentSeqByValidator_exported]
    cases hseq : w.store.validatorEventSeq[v]? with
    | none =>
      rw [hseq, Option.getD_none] at hbound
      omega
    | some current => exact ⟨current, rfl, by rwa [hseq] at hbound⟩

/-! ### The import gives the store back -/

theorem positionsById_exported (params : Params) :
    (w.store.exported K params).positionsById = w.store.positions :=
  load_toList fun i p h ↦ ⟨hw.indexed.id_eq i p h, rfl⟩

theorem exported_importable {params : Params} (hmodule : K.hasModuleAccount w.ext moduleName)
    (hpool : K.hasModuleAccount w.ext rewardsPoolName) :
    (w.store.exported K params).Importable K w.ext := by
  refine ⟨hmodule, hpool, ?_, ?_, ?_⟩
  · intro pos hpos
    obtain ⟨⟨i, _⟩, hmem, rfl⟩ := List.mem_map.mp hpos
    refine position_importable hw (mem_toList.mp hmem) fun v ↦ ?_
    rw [currentSeqByValidator_exported]
    rfl
  · intro entry hentry
    obtain ⟨⟨u, i⟩, hmem, rfl⟩ := List.mem_map.mp hentry
    obtain ⟨red, ⟨p, hp⟩, hred⟩ := (hw.mapped.mapping u i).mp (mem_toList.mp hmem)
    obtain ⟨a, ha, haddress, _⟩ := hw.accounted.holds hp.stored
    obtain rfl := Option.mem_unique ha.account hp.account
    refine ⟨red, p, hred, ?_, haddress.symm⟩
    rw [positionsById_exported hw]
    exact hp.stored
  · intro entry hentry
    obtain ⟨⟨⟨v, n⟩, event⟩, hmem, rfl⟩ := List.mem_map.mp hentry
    refine ((hw.logged.referenceCount v n event (mem_toList.mp hmem)).1).trans ?_
    rw [Store.exported, List.countP_map]
    refine List.countP_congr ?_
    rintro ⟨i, p⟩ hp
    have hstaked := staked_eq_validator hw (mem_toList.mp hp) v
    have hspelled : (p.validator K (K.staking w.ext)).map K.valCodec.bytesToString =
        some (K.valCodec.bytesToString v) ↔ p.validator K (K.staking w.ext) = some v := by
      rw [← Option.map_some, (Option.map_injective K.valCodec.bytesToString_injective).eq_iff]
    simp [Ledger.pending, hstaked, ValidatorEventEntry.awaitedBy, hspelled]

theorem imported_exported {params : Params} (hparams : w.store.params = some params)
    (hvalid : params.validate = .ok ()) :
    (w.store.exported K params).imported K (K.staking w.ext) = w.store := by
  have haccepted := exported_accepted hw hvalid
  have hpositions : ((w.store.exported K params).imported K (K.staking w.ext)).positions =
      w.store.positions := positionsById_exported hw params
  obtain ⟨howner, htier, hcountTier⟩ := hw.indexed.unique haccepted.indexed hpositions
  have hcount :
      ((w.store.exported K params).imported K (K.staking w.ext)).positionCountByValidator =
      w.store.positionCountByValidator := by
    refine haccepted.counted.unique (hw.coherent.counted.congr fun v ↦ ?_)
    rw [hpositions]
    exact count_congr fun i p hp ↦ (staked_eq_validator hw hp v).symm
  have htiers : ((w.store.exported K params).imported K (K.staking w.ext)).tiers = w.store.tiers :=
    load_toList fun i tier h ↦ ⟨(hw.indexed.tierValid i tier h).1, rfl⟩
  have hevents : ((w.store.exported K params).imported K (K.staking w.ext)).validatorEvents =
      w.store.validatorEvents :=
    load_toList fun key event _ ↦ ⟨Prod.ext (Keepers.operatorOf_bytesToString key.1) rfl, rfl⟩
  have hseqs : ((w.store.exported K params).imported K (K.staking w.ext)).validatorEventSeq =
      w.store.validatorEventSeq :=
    load_toList fun v _ _ ↦ ⟨Keepers.operatorOf_bytesToString v, rfl⟩
  have hmappings : ((w.store.exported K params).imported K (K.staking w.ext)).redelegationMappings =
      w.store.redelegationMappings :=
    load_toList fun _ _ _ ↦ ⟨rfl, rfl⟩
  have hstore : ∀ s s' : Store, s'.params = s.params → s'.tiers = s.tiers →
      s'.positions = s.positions → s'.nextPositionId = s.nextPositionId →
      s'.positionsByOwner = s.positionsByOwner → s'.positionsByTier = s.positionsByTier →
      s'.positionCountByTier = s.positionCountByTier →
      s'.positionCountByValidator = s.positionCountByValidator →
      s'.validatorEvents = s.validatorEvents → s'.validatorEventSeq = s.validatorEventSeq →
      s'.redelegationMappings = s.redelegationMappings → s' = s := by
    rintro ⟨⟩ ⟨⟩ rfl rfl rfl rfl rfl rfl rfl rfl rfl rfl rfl
    rfl
  exact hstore _ _ hparams.symm htiers hpositions rfl howner htier hcountTier hcount hevents hseqs
    hmappings

/-- The export of a sound world can be imported, and gives the world back. -/
theorem succeeds_initGenesis_exported {params : Params} (hparams : w.store.params = some params)
    (hvalid : params.validate = .ok ()) (hmodule : K.hasModuleAccount w.ext moduleName)
    (hpool : K.hasModuleAccount w.ext rewardsPoolName) :
    Succeeds (initGenesis K (w.store.exported K params)) { w with store := Store.empty } ⟨⟩ w := by
  refine (succeeds_initGenesis (exported_accepted hw hvalid) rfl).mpr
    ⟨exported_importable hw hmodule hpool, ?_⟩
  dsimp only
  rw [imported_exported hw hparams hvalid]

end Sound

/-- Export and import. The module accounts are those the account keeper has made. -/
theorem genesis_round_trip (hK : K.Contract) (h : Reachable K w)
    (hmodule : K.hasModuleAccount w.ext moduleName)
    (hpool : K.hasModuleAccount w.ext rewardsPoolName) :
    ∃ data, exportGenesis K w.store = .ok data ∧
      validateGenesis K.accCodec K.valCodec data = .ok () ∧
      Succeeds (initGenesis K data) { w with store := Store.empty } ⟨⟩ w := by
  have hw := h.sound hK
  obtain ⟨params, hparams, hvalid⟩ := hw.configured
  refine ⟨w.store.exported K params, ?_, validateGenesis_eq_ok.mpr (exported_accepted hw hvalid),
    succeeds_initGenesis_exported hw hparams hvalid hmodule hpool⟩
  have hsome : w.store.params = some params := hparams
  rw [exportGenesis, hsome]

open Reference

/-- The reference history ends with a position and an event that has to be replayed. -/
theorem genesis_round_trip_history :
    ∃ data, exportGenesis keepers world₄.store = .ok data ∧
      validateGenesis codec codec data = .ok () ∧
      Succeeds (initGenesis keepers data) { world₄ with store := Store.empty } ⟨⟩
        world₄ :=
  genesis_round_trip keepers_contract ⟨_, reaches_history⟩ rfl rfl

/-! ### A genesis from elsewhere -/

/-- A stored position that is delegated to a validator and has not replayed the event with a
sequence number. -/
def awaitsEvent (K : Keepers σ) (st : Staking) (v : ValAddress) (seq : ℕ) (p : Position) : Bool :=
  decide (p.validator K st = some v) && decide (p.lastEventSeq < seq)

/-- The invariants that the keeper relies on after an import. -/
structure GenesisInvariants (K : Keepers σ) (w : World σ) : Prop where
  /-- No account backs two positions. -/
  distinct : ∀ (id id' : ℕ) (p p' : Position), w.store.positions[id]? = some p →
    w.store.positions[id']? = some p' →
      K.accCodec.stringToBytes p.delegatorAddress = K.accCodec.stringToBytes p'.delegatorAddress →
        id = id'
  /-- Every stored event is waited for by as many positions as its reference count says. -/
  referenceCount : ∀ (v : ValAddress) (seq : ℕ) (event : ValidatorEvent),
    w.store.validatorEvents[(v, seq)]? = some event →
      event.referenceCount =
        count (fun _ p ↦ awaitsEvent K (K.staking w.ext) v seq p) w.store.positions
  /-- Every delegated position finds the events it has to replay. -/
  complete : ∀ (id : ℕ) (p : Position) (v : ValAddress) (seq : ℕ), w.store.positions[id]? = some p →
    awaitsEvent K (K.staking w.ext) v seq p → seq ≤ w.store.getValidatorEventLatestSeq v →
      ∃ event, w.store.validatorEvents[(v, seq)]? = some event
  /-- Every redelegation of a position's account is mapped to the position. -/
  mapped : ∀ (id : ℕ) (p : Position) (u : ℕ) (red : Redelegation), w.store.positions[id]? = some p →
    K.accCodec.stringToBytes p.delegatorAddress = some red.delegator →
      (K.staking w.ext).redelegations[u]? = some red → w.store.redelegationMappings[u]? = some id

/-- The current sequence number a genesis gives a validator: the last entry that decodes to it. -/
def GenesisState.currentSeqOf (K : Keepers σ) (data : GenesisState) (v : ValAddress) : ℕ :=
  (((data.validatorEventSeqs.filter
    fun entry ↦ decide (K.operatorOf entry.validator = v)).getLast?).map
    ValidatorEventSeqEntry.currentSeq).getD 0

/-- What `ValidateGenesis` and `InitGenesis` do not check. -/
structure GenesisState.Complete (K : Keepers σ) (st : Staking) (data : GenesisState) : Prop where
  /-- The delegator addresses of the positions name different accounts. -/
  delegators : (data.positions.map fun pos ↦ K.accountOf pos.delegatorAddress).Nodup
  /-- The events above the checkpoint of a delegated position are listed. -/
  events : ∀ pos ∈ data.positions, ∀ v seq, awaitsEvent K st v seq pos →
    seq ≤ data.currentSeqOf K v → ∃ entry ∈ data.validatorEvents,
    entry.validator = K.valCodec.bytesToString v ∧ entry.sequence = seq
  /-- The redelegations of the positions' accounts are listed. -/
  redelegations : ∀ pos ∈ data.positions, ∀ (u : ℕ) (red : Redelegation),
    st.redelegations[u]? = some red → red.delegator = K.accountOf pos.delegatorAddress →
      ⟨u, pos.id⟩ ∈ data.redelegationMappings

section Imported

variable {data : GenesisState} {st : Staking} {ext : σ}

/-- An event that some position awaits is listed under the spelling staking writes. -/
theorem GenesisState.Importable.spelling (hdata : data.Accepted K.accCodec K.valCodec)
    (himport : data.Importable K ext) {entry : ValidatorEventEntry}
    (hentry : entry ∈ data.validatorEvents) :
    entry.validator = K.valCodec.bytesToString (K.operatorOf entry.validator) := by
  -- the reference count is positive, so a delegated position has this spelling of its validator
  have hpositive : 0 < data.positions.countP (entry.awaitedBy K (K.staking ext)) := by
    rw [← himport.event entry hentry]
    exact Nat.pos_of_ne_zero (hdata.event entry hentry).2
  obtain ⟨pos, _, hawaits⟩ := List.countP_pos_iff.mp hpositive
  have hspelled := of_decide_eq_true (Bool.and_eq_true_iff.mp hawaits).1
  obtain ⟨v, _, hv⟩ := Option.map_eq_some_iff.mp hspelled
  rw [← hv, Keepers.operatorOf_bytesToString]

theorem GenesisState.Importable.validatorEvents_eq_some
    (hdata : data.Accepted K.accCodec K.valCodec) (himport : data.Importable K ext) {v : ValAddress}
    {seq : ℕ} {event : ValidatorEvent} :
    (data.imported K st).validatorEvents[(v, seq)]? = some event ↔
      ⟨K.valCodec.bytesToString v, seq, event⟩ ∈ data.validatorEvents := by
  have hkeys : (data.validatorEvents.map fun entry ↦
      (K.operatorOf entry.validator, entry.sequence)).Nodup := by
    refine List.Nodup.of_map (fun key ↦ (K.valCodec.bytesToString key.1, key.2)) ?_
    rw [List.map_map]
    refine (List.map_congr_left fun entry hentry ↦ ?_).symm ▸ hdata.eventKeys
    exact Prod.ext (himport.spelling hdata hentry).symm rfl
  refine (getElem?_load hkeys).trans ⟨?_, ?_⟩
  · rintro ⟨entry, hentry, hkey, rfl⟩
    obtain ⟨rfl, rfl⟩ := Prod.mk.inj hkey
    rw [← himport.spelling hdata hentry]
    exact hentry
  · intro hentry
    exact ⟨_, hentry, Prod.ext (Keepers.operatorOf_bytesToString v) rfl, rfl⟩

theorem awaitedBy_eq (entry : ValidatorEventEntry) {v : ValAddress}
    (hv : entry.validator = K.valCodec.bytesToString v) (pos : Position) :
    entry.awaitedBy K st pos = awaitsEvent K st v entry.sequence pos := by
  have hspelled : (pos.validator K st).map K.valCodec.bytesToString =
      some (K.valCodec.bytesToString v) ↔ pos.validator K st = some v := by
    rw [← Option.map_some, (Option.map_injective K.valCodec.bytesToString_injective).eq_iff]
  rw [ValidatorEventEntry.awaitedBy, awaitsEvent, hv, decide_eq_decide.mpr hspelled]

theorem GenesisState.Importable.referenceCount (hdata : data.Accepted K.accCodec K.valCodec)
    (himport : data.Importable K ext) {v : ValAddress} {seq : ℕ} {event : ValidatorEvent}
    (hevent : (data.imported K (K.staking ext)).validatorEvents[(v, seq)]? = some event) :
    event.referenceCount =
      count (fun _ p ↦ awaitsEvent K (K.staking ext) v seq p)
        (data.imported K (K.staking ext)).positions := by
  have hmem := (himport.validatorEvents_eq_some hdata).mp hevent
  refine (himport.event _ hmem).trans (Eq.trans ?_ (hdata.count_positionsById _).symm)
  exact List.countP_congr fun pos _ ↦ by rw [awaitedBy_eq _ rfl]

theorem GenesisState.Accepted.delegator_decodes (hdata : data.Accepted K.accCodec K.valCodec)
    {pos : Position} (hpos : pos ∈ data.positions) :
    K.accCodec.stringToBytes pos.delegatorAddress = some (K.accountOf pos.delegatorAddress) := by
  obtain ⟨_, a, ha⟩ := Position.decodes_of_validate (hdata.position pos hpos).1
  rw [Keepers.accountOf_eq ha, ha]

theorem GenesisState.Accepted.mapping_eq_some (hdata : data.Accepted K.accCodec K.valCodec)
    {u id : ℕ} :
    (data.imported K st).redelegationMappings[u]? = some id ↔
      ⟨u, id⟩ ∈ data.redelegationMappings := by
  refine (getElem?_load hdata.unbondingIds).trans ⟨?_, fun hmem ↦ ⟨_, hmem, rfl, rfl⟩⟩
  rintro ⟨entry, hentry, rfl, rfl⟩
  exact hentry

theorem GenesisState.latestSeq_imported (v : ValAddress) :
    (data.imported K st).getValidatorEventLatestSeq v = data.currentSeqOf K v := by
  rw [Store.getValidatorEventLatestSeq, GenesisState.currentSeqOf]
  exact congrArg (fun seq ↦ Option.getD seq 0) (getElem?_load_last _ v)

/-- Two positions of an accepted genesis are equal when their ids are. -/
theorem GenesisState.Accepted.eq_of_id (hdata : data.Accepted K.accCodec K.valCodec)
    {p q : Position} (hp : p ∈ data.positions) (hq : q ∈ data.positions) (h : p.id = q.id) :
    p = q :=
  List.inj_on_of_nodup_map hdata.posIDs hp hq h

end Imported

/-- An accepted genesis that is imported without a panic: the reference counts are right, and the
other invariants hold exactly when the genesis is complete. -/
theorem genesis_invariants_iff {data : GenesisState}
    (hvalid : validateGenesis K.accCodec K.valCodec data = .ok ()) (hempty : w.store = Store.empty)
    (h : Succeeds (initGenesis K data) w ⟨⟩ w') :
    (∀ (v : ValAddress) (seq : ℕ) (event : ValidatorEvent),
      w'.store.validatorEvents[(v, seq)]? = some event →
        event.referenceCount =
          count (fun _ p ↦ awaitsEvent K (K.staking w'.ext) v seq p) w'.store.positions) ∧
      (GenesisInvariants K w' ↔ data.Complete K (K.staking w'.ext)) := by
  have hdata := validateGenesis_eq_ok.mp hvalid
  obtain ⟨himport, rfl⟩ := (succeeds_initGenesis hdata hempty).mp h
  have hstored : ∀ {id : ℕ} {pos : Position}, (data.imported K (K.staking w.ext)).positions[id]? =
      some pos ↔ pos ∈ data.positions ∧ pos.id = id := hdata.positionsById_eq_some
  refine ⟨fun v seq event hevent ↦ himport.referenceCount hdata hevent, fun hinv ↦ ⟨?_, ?_, ?_⟩,
    fun hcomplete ↦ ⟨?_, fun v seq event hevent ↦ himport.referenceCount hdata hevent, ?_, ?_⟩⟩
  · refine (List.Nodup.of_map _ hdata.posIDs).map_on fun p hp q hq haccount ↦ ?_
    refine hdata.eq_of_id hp hq
      (hinv.distinct _ _ p q (hstored.mpr ⟨hp, rfl⟩) (hstored.mpr ⟨hq, rfl⟩) ?_)
    rw [hdata.delegator_decodes hp, hdata.delegator_decodes hq, haccount]
  · intro pos hpos v seq hawaits hle
    obtain ⟨event, hevent⟩ := hinv.complete pos.id pos v seq (hstored.mpr ⟨hpos, rfl⟩) hawaits
      (hle.trans_eq (GenesisState.latestSeq_imported v).symm)
    exact ⟨_, (himport.validatorEvents_eq_some hdata).mp hevent, rfl, rfl⟩
  · intro pos hpos u red hred hdelegator
    refine hdata.mapping_eq_some.mp (hinv.mapped pos.id pos u red (hstored.mpr ⟨hpos, rfl⟩) ?_ hred)
    rw [hdata.delegator_decodes hpos, hdelegator]
  · intro id id' p p' hp hp' haccount
    obtain ⟨hmem, rfl⟩ := hstored.mp hp
    obtain ⟨hmem', rfl⟩ := hstored.mp hp'
    rw [hdata.delegator_decodes hmem, hdata.delegator_decodes hmem'] at haccount
    exact congrArg Position.id
      (List.inj_on_of_nodup_map hcomplete.delegators hmem hmem' (Option.some.inj haccount))
  · intro id p v seq hp hawaits hle
    obtain ⟨⟨spelling, n, event⟩, hentry, rfl, rfl⟩ :=
      hcomplete.events p (hstored.mp hp).1 v seq hawaits
      (hle.trans_eq (GenesisState.latestSeq_imported v))
    exact ⟨event, (himport.validatorEvents_eq_some hdata).mpr hentry⟩
  · intro id p u red hp hdelegator hred
    obtain ⟨hmem, rfl⟩ := hstored.mp hp
    refine hdata.mapping_eq_some.mpr (hcomplete.redelegations p hmem u red hred ?_)
    rw [Keepers.accountOf_eq hdelegator]

/-- The export of the reference history is complete. -/
theorem genesis_invariants_iff_history :
    GenesisInvariants keepers world₄ ↔
      (world₄.store.exported keepers Params.default).Complete keepers
        (keepers.staking world₄.ext) := by
  have hw := Reachable.sound keepers_contract ⟨_, reaches_history⟩
  have hparams : world₄.store.params = some Params.default := by decide +kernel
  have hvalid : Params.default.validate = .ok () := eq_ok_of_isOk (by decide +kernel)
  have haccepted := validateGenesis_eq_ok.mpr (exported_accepted hw hvalid)
  exact (genesis_invariants_iff haccepted rfl
    (succeeds_initGenesis_exported hw hparams hvalid rfl rfl)).2

namespace Reference

/-- Two positions on one account that is redelegating, with a checkpoint below the current sequence
number of the validator. Neither the event nor the redelegation is listed. -/
def sharedGenesis : GenesisState where
  params := Params.default
  tiers := redelegated.store.tiers.toList.map Prod.snd
  positions := [position, { position with id := 1 }]
  nextPositionId := 2
  redelegationMappings := []
  validatorEvents := []
  validatorEventSeqs := [⟨codec.bytesToString 2, 1⟩]

/-- The world that imports it, over the staking records of a position that has moved to the
validator `2`. -/
def sharedImport : World Outside :=
  (exec (initGenesis keepers sharedGenesis) { redelegated with store := Store.empty }).2

/-- The genesis is accepted and imported. One delegation backs both positions, the event they have
to replay is missing, and the redelegation is not mapped. -/
theorem shared_delegator_accepted :
    validateGenesis codec codec sharedGenesis = .ok () ∧
      Succeeds (initGenesis keepers sharedGenesis) { redelegated with store := Store.empty } ⟨⟩
        sharedImport ∧
      (sharedImport.store.positions[(0 : ℕ)]? = some position ∧
        sharedImport.store.positions[(1 : ℕ)]? = some { position with id := 1 }) ∧
      (awaitsEvent keepers (keepers.staking sharedImport.ext) 2 1 position ∧
        sharedImport.store.getValidatorEventLatestSeq 2 = 1 ∧
        sharedImport.store.validatorEvents[((2 : ℕ), (1 : ℕ))]? = none) ∧
      ((keepers.staking sharedImport.ext).redelegations[(1 : ℕ)]? = some ⟨10, 1, 2⟩ ∧
        sharedImport.store.redelegationMappings[(1 : ℕ)]? = none) ∧
      ¬ GenesisInvariants keepers sharedImport := by
  have hfirst : sharedImport.store.positions[(0 : ℕ)]? = some position := by decide +kernel
  have hsecond : sharedImport.store.positions[(1 : ℕ)]? = some { position with id := 1 } := by
    decide +kernel
  refine ⟨eq_ok_of_isOk (by decide +kernel), succeeds_exec (by decide +kernel), ⟨hfirst, hsecond⟩,
    by decide +kernel, by decide +kernel, fun h ↦ ?_⟩
  exact absurd (h.distinct 0 1 position _ hfirst hsecond rfl) (by decide)

end Reference

end ChainMain.TieredRewards
