import ChainMain.Inflation.CachedDecay

/-!
# Export and import of the genesis state

The parameters and the height at which the decay begins are kept under different keys and are
changed by different paths, and the check of a genesis state relates them: the height has to be zero
when there is no decay. Nothing removes the height when the decay is disabled, so the state that is
exported then is not accepted any more (`disabled_decay_not_imported`). In all other states the
store is imported as it was (`genesis_round_trip_iff`).
-/

set_option autoImplicit false

namespace ChainMain.Inflation

open Foundations Decimal Outcomes Texts

variable {Minter MintParams : Type} {S : Sdk Minter MintParams} {authority : Text} {s s' : Store}

/-- The stores a chain gets to from a genesis state that is accepted, by messages that are accepted
and by setting the height at which the decay begins. -/
inductive Reaches (S : Sdk Minter MintParams) (authority : Text) : Store → Prop
  | genesis {gs : GenesisState} {s : Store} : initGenesis S emptyStore gs = .ok s →
      Reaches S authority s
  | updateParams {s s' : Store} {msgAuthority : Text} {params : Params} : Reaches S authority s →
      updateParams S authority s msgAuthority params = .ok s' → Reaches S authority s'
  | setDecayEpochStart {s : Store} {height : UInt64} : Reaches S authority s → height ≠ 0 →
      Reaches S authority (setDecayEpochStart s height)

/-- The stored parameters are valid, and the stored height is not zero. -/
structure Store.Valid (S : Sdk Minter MintParams) (s : Store) (params : Params) : Prop where
  stored : s.params = some params
  valid : params.validate S = .ok ()
  epoch_ne : s.decayEpochStart ≠ some 0

theorem initGenesis_eq_ok {gs : GenesisState} :
    initGenesis S emptyStore gs = .ok s ↔ gs.validate S = .ok () ∧
      s = ⟨some gs.params, if gs.decayEpochStart = 0 then none else some gs.decayEpochStart⟩ := by
  unfold initGenesis
  rw [check_eq_ok, mapError_eq_ok, pure_eq_ok, eq_comm (a := s)]
  split_ifs <;> simp_all [emptyStore, setDecayEpochStart]

theorem updateParams_eq_ok {msgAuthority : Text} {params : Params}
    (h : updateParams S authority s msgAuthority params = .ok s') :
    params.validate S = .ok () ∧ s' = { s with params := some params } := by
  obtain ⟨-, hset⟩ := check_eq_ok.mp h
  obtain ⟨hvalid, hstore⟩ := check_eq_ok.mp hset
  exact ⟨hvalid, (pure_eq_ok.mp hstore).symm⟩

theorem Reaches.valid (h : Reaches S authority s) : ∃ params, s.Valid S params := by
  induction h with
  | @genesis gs s hinit =>
    obtain ⟨hvalid, rfl⟩ := initGenesis_eq_ok.mp hinit
    refine ⟨gs.params, rfl, ((GenesisState.validate_eq_ok S).mp hvalid).1, ?_⟩
    dsimp only
    split_ifs with hzero
    · exact (Option.some_ne_none 0).symm
    · exact fun heq ↦ hzero (Option.some.inj heq)
  | updateParams _ hupdate ih =>
    obtain ⟨_, hold⟩ := ih
    obtain ⟨hvalid, rfl⟩ := updateParams_eq_ok hupdate
    exact ⟨_, rfl, hvalid, hold.epoch_ne⟩
  | setDecayEpochStart _ hheight ih =>
    obtain ⟨params, hold⟩ := ih
    exact ⟨params, hold.stored, hold.valid, fun heq ↦ hheight (Option.some.inj heq)⟩

/-- What is exported is accepted and imported, and the inflation is the same after it. -/
def RoundTrips (S : Sdk Minter MintParams) (s : Store) : Prop :=
  ∃ gs s', exportGenesis s = .ok gs ∧ gs.validate S = .ok () ∧
    initGenesis S emptyStore gs = .ok s' ∧ ∀ cache cache', Coherent S cache → Coherent S cache' →
      ∀ height minter params bondedRatio,
      (deflationCalculationFn S s' cache' height minter params bondedRatio).map Prod.fst =
        (deflationCalculationFn S s cache height minter params bondedRatio).map Prod.fst

theorem exportGenesis_eq {params : Params} (h : s.params = some params) :
    exportGenesis s = .ok ⟨params, s.decayEpochStart.getD 0⟩ := by
  have hget : getParams s = .ok params := expect_eq_ok.mpr h
  rw [exportGenesis, hget]
  rfl

/-- The state a chain gets to survives export and import if and only if there is decay, or the
height at which it begins has never been set. -/
theorem genesis_round_trip_iff (h : Reaches S authority s) :
    RoundTrips S s ↔
      ∀ params, s.params = some params → 0 < params.decayRate ∨ s.decayEpochStart = none := by
  obtain ⟨params, hvalid⟩ := h.valid
  have hexport := exportGenesis_eq hvalid.stored
  constructor
  · rintro ⟨gs, s', hgs, haccepted, -, -⟩ params' hparams'
    obtain rfl := Option.mem_unique hvalid.stored hparams'
    obtain rfl := Except.ok.inj (hexport.symm.trans hgs)
    refine ((GenesisState.validate_eq_ok S).mp haccepted).2.imp_right fun hzero ↦ ?_
    cases hepoch : s.decayEpochStart with
    | none => rfl
    | some epoch =>
      rw [hepoch] at hzero
      exact absurd (hepoch.trans (congrArg some hzero)) hvalid.epoch_ne
  · intro hdecay
    have haccepted : (⟨params, s.decayEpochStart.getD 0⟩ : GenesisState).validate S = .ok () := by
      refine (GenesisState.validate_eq_ok S).mpr ⟨hvalid.valid, ?_⟩
      refine (hdecay params hvalid.stored).imp_right fun hnone ↦ ?_
      rw [hnone]
      rfl
    -- the store is imported as it was
    have hstore : s = ⟨some params, if s.decayEpochStart.getD 0 = 0 then none
        else some (s.decayEpochStart.getD 0)⟩ := by
      obtain ⟨_, epoch⟩ := s
      obtain rfl := hvalid.stored
      cases epoch with
      | none => rfl
      | some height =>
        have hheight : height ≠ 0 := fun heq ↦ hvalid.epoch_ne (congrArg some heq)
        rw [Option.getD_some, if_neg hheight]
    refine ⟨_, s, hexport, haccepted, initGenesis_eq_ok.mpr ⟨haccepted, hstore⟩, ?_⟩
    intro cache cache' hcache hcache' height minter params bondedRatio
    rw [(deflationCalculationFn_agrees hcache' s height minter params bondedRatio).value,
      (deflationCalculationFn_agrees hcache s height minter params bondedRatio).value]

section Histories

open Reference

/-- The store of a chain whose decay begins at the first height. -/
def decayingStore : Store := ⟨some decaying, some 1⟩

theorem reaches_decayingStore : Reaches sdk Reference.authority decayingStore :=
  .genesis (show initGenesis sdk emptyStore ⟨decaying, 1⟩ = .ok decayingStore by decide +kernel)

theorem genesis_round_trip_decayingStore : RoundTrips sdk decayingStore := by
  refine (genesis_round_trip_iff reaches_decayingStore).mpr fun params hparams ↦ Or.inl ?_
  obtain rfl := Option.some.inj hparams
  decide

/-- The store after the decay has been disabled by a message. -/
def disabledStore : Store := ⟨some defaultParams, some 1⟩

/-- Disabling the decay is accepted, and what is exported then is rejected. -/
theorem disabled_decay_not_imported :
    Reaches sdk Reference.authority disabledStore ∧
      exportGenesis disabledStore = .ok ⟨defaultParams, 1⟩ ∧
      GenesisState.validate sdk ⟨defaultParams, 1⟩ =
        .error (.message "decay_epoch_start must be zero when decay is disabled" []) ∧
      initGenesis sdk emptyStore ⟨defaultParams, 1⟩ =
        .error (.panic (.message "decay_epoch_start must be zero when decay is disabled" [])) := by
  refine ⟨?_, by decide +kernel, by decide +kernel, by decide +kernel⟩
  have hupdate : updateParams sdk Reference.authority decayingStore Reference.authority
      defaultParams = .ok disabledStore := by
    decide +kernel
  exact .updateParams reaches_decayingStore hupdate

end Histories

end ChainMain.Inflation
