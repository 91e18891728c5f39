import ChainMain.TieredRewards.Chain

/-!
# The chain as runs of the ledger

Every step of the chain from a sound world is a run of the ledger: a hook records an event, changes
the status of a validator that no position is staked on, or maps to the step of the same name, and a
redelegation slash settles the position before its stake is reduced or taken (`ChainStep.effect`).
So every reachable world is sound (`Reachable.sound`).
-/

set_option autoImplicit false

namespace ChainMain.TieredRewards

open Foundations Decimal OrderedStore StoreProgram Runs

open Ledger (QuietRun)

variable {σ : Type} {K : Keepers σ} {w w' : World σ} {id : ℕ} {a : AccAddress} {v : ValAddress}
  {s : Dec}
variable {shares : Dec} {u : PUnit} {pos : PositionState} {w₁ : World σ}

/-- The tokens one share of a validator stands for. -/
def Keepers.rate (K : Keepers σ) (w : World σ) (v : ValAddress) : Dec :=
  ((K.staking w.ext).validators[v]?).elim 0 Validator.tokensPerShare

/-! ### Hooks that record an event -/

theorem succeeds_recordValidatorEvent {eventType : ValidatorEventType}
    (h : Succeeds (recordValidatorEvent K eventType v) w u w') :
    (w.store.getPositionCountForValidator v = 0 ∧ w' = w) ∨
      (w.store.getPositionCountForValidator v ≠ 0 ∧
        w' = { w with
          store := w.store.appendValidatorEvent v ⟨w.ctx.blockHeight, w.ctx.blockTime, eventType,
            K.rate w v, w.store.getPositionCountForValidator v⟩ }) := by
  unfold recordValidatorEvent at h
  rw [succeeds_read] at h
  rcases succeeds_ite.mp h with ⟨hcount, hrest⟩ | ⟨hcount, hpure⟩
  · simp only [succeeds_bind, succeeds_getTokensPerShare, succeeds_modifyStore] at hrest
    obtain ⟨rate, _, ⟨⟨val, hval, rfl⟩, rfl⟩, rfl⟩ := hrest
    refine Or.inr ⟨hcount, ?_⟩
    unfold Keepers.rate
    rw [hval]
    rfl
  · exact Or.inl ⟨not_not.mp hcount, (succeeds_pure.mp hpure).2.symm⟩

/-- What a hook that records an event amounts to. -/
inductive Records (K : Keepers σ) (w w' : World σ) (v : ValAddress)
    (eventType : ValidatorEventType) : Prop
  | recorded
      (hstep : Ledger.Step K.accCodec (K.view w) (.record v eventType (K.rate w v)) (K.view w'))
  | unnoticed (hcount : w.store.getPositionCountForValidator v = 0)
      (hquiet : QuietRun K.accCodec (K.view w) (K.view w'))

/-- A hook runs after the status of a validator has been set, if it has. -/
theorem records_of_hook {eventType : ValidatorEventType} {ext : σ}
    (htype : eventType ≠ .unspecified) (hrate : K.rate { w with ext } v = K.rate w v)
    (hview : K.view { w with ext } = { K.view w with
      bonded := Function.update (K.view w).bonded v (eventType.bondedAfter ((K.view w).bonded v)) })
    (h : Succeeds (recordValidatorEvent K eventType v) { w with ext } u w') :
    Records K w w' v eventType := by
  rcases succeeds_recordValidatorEvent h with ⟨hcount, rfl⟩ | ⟨hcount, rfl⟩
  · refine .unnoticed hcount ?_
    rw [hview]
    exact .single (.status v eventType hcount) rfl
  · refine .recorded ?_
    have hstep : Ledger.Step K.accCodec (K.view w) _ _ :=
      .record v eventType (K.rate w v) w.ctx.blockHeight htype hcount
    have hstore := congrArg (fun L : Ledger ↦ { L with
      store := w.store.appendValidatorEvent v ⟨w.ctx.blockHeight, w.ctx.blockTime, eventType,
        K.rate w v, w.store.getPositionCountForValidator v⟩ }) hview
    rw [hrate]
    exact Eq.mpr (congrArg (Ledger.Step K.accCodec (K.view w) _) hstore) hstep

theorem isBonded_setStatus (st : Staking) (val : Validator) (status : BondStatus) :
    (st.setStatus v val status).isBonded = Function.update st.isBonded v (status == .bonded) := by
  funext u
  unfold Staking.isBonded Staking.setStatus
  dsimp only
  rw [getElem?_insert_eq]
  by_cases hu : v = u
  · subst hu
    rw [if_pos rfl, Function.update_self]
    rfl
  · rw [if_neg hu, Function.update_of_ne (Ne.symm hu)]

theorem view_setStatus {val : Validator} {status : BondStatus} {ext : σ}
    (h : Restakes K (Staking.setStatus v val status) w.ext ext) :
    K.view { w with ext } =
      { K.view w with bonded := Function.update (K.view w).bonded v (status == .bonded) } := by
  unfold Keepers.view
  dsimp only
  rw [h.staking, isBonded_setStatus]
  congr 1
  funext b
  rw [h.account]

theorem rate_setStatus {val : Validator} {status : BondStatus} {ext : σ}
    (hval : (K.staking w.ext).validators[v]? = some val)
    (h : Restakes K (Staking.setStatus v val status) w.ext ext) :
    K.rate { w with ext } v = K.rate w v := by
  unfold Keepers.rate
  dsimp only
  rw [h.staking, hval]
  unfold Staking.setStatus
  rw [getElem?_insert_eq, if_pos rfl]
  rfl

/-! ### Removed validators and matured redelegations -/

theorem validatorRemoved_run {ext : σ} (hbonded : (K.staking w.ext).isBonded v = false)
    (hempty : ∀ a : AccAddress, (K.staking w.ext).delegations[(a, v)]? = none)
    (hstaking : Restakes K (Staking.removeValidator v) w.ext ext)
    (hhook : Succeeds (afterValidatorRemoved v) { w with ext } ⟨⟩ w') :
    QuietRun K.accCodec (K.view w) (K.view w') := by
  obtain rfl := succeeds_modifyStore.mp hhook
  have hview : K.view { w with ext } = K.view w := by
    unfold Keepers.view
    dsimp only
    rw [hstaking.staking]
    congr 1
    · funext u
      unfold Staking.isBonded Staking.removeValidator
      dsimp only
      rw [getElem?_erase_eq]
      split_ifs with hu
      · subst hu
        exact hbonded.symm
      · rfl
    · funext b
      rw [hstaking.account]
  have hdrop : QuietRun K.accCodec (K.view { w with ext })
      (K.view { w with ext := ext, store := w.store.afterValidatorRemoved v }) := by
    refine .single (.dropSeq v fun b _ ↦ ?_) rfl
    rw [hview]
    exact hempty b
  rwa [hview] at hdrop

theorem redelegationsCompleted_run {ext : σ} {ids : List ℕ}
    (hstaking : Restakes K (Staking.completeRedelegations ids) w.ext ext)
    (hhook : Succeeds (afterRedelegationCompleted ids) { w with ext } ⟨⟩ w') :
    QuietRun K.accCodec (K.view w) (K.view w') := by
  obtain rfl := succeeds_modifyStore.mp hhook
  have hstep : Ledger.Step K.accCodec (K.view w) _ _ := .mature ids
  refine .single (?_ : Ledger.Step K.accCodec (K.view w) (.mature ids) _) rfl
  have hview : { K.view w with
      redelegations := fun u ↦ if u ∈ ids then none else (K.view w).redelegations u } =
      K.view { w with ext } := by
    unfold Keepers.view
    dsimp only
    rw [hstaking.staking]
    congr 1
    · funext u
      unfold Staking.completeRedelegations
      dsimp only
      rw [getElem?_foldl_erase]
    · funext b
      rw [hstaking.account]
  have hstore := congrArg (fun L : Ledger ↦ { L with
    store := { w.store with
      redelegationMappings :=
        ids.foldl (fun mappings id ↦ mappings.erase id) w.store.redelegationMappings } }) hview
  exact Eq.mpr (congrArg (Ledger.Step K.accCodec (K.view w) _) hstore.symm) hstep

/-! ### Redelegation slashes -/

/-- What a redelegation slash amounts to. -/
inductive Slashes (K : Keepers σ) (w w' : World σ) (unbondingId : ℕ) : Prop
  /-- No staked position is concerned. -/
  | untouched
      (hidle : ∀ i, w.store.redelegationMappings[unbondingId]? = some i →
        ∃ p a, (K.view w).Holds K.accCodec i p a ∧ (K.view w).Idle a)
      (hquiet : QuietRun K.accCodec (K.view w) (K.view w'))
  /-- A staked position is settled, and its stake is reduced or taken. -/
  | settled {id : ℕ} {p : Position} {a : AccAddress} {v : ValAddress} {s : Dec} {tier : Tier}
      {val : Validator} {covered : Bool} {w₁ : World σ}
      (hmapping : w.store.redelegationMappings[unbondingId]? = some id)
      (hsettle : Settlement K w id p a v s tier val covered w₁)
      (hcovered : covered = false → ∃ pos e, Succeeds (getPositionState K id) w pos w ∧
        ((processEventsAndClaimBonus K pos).run w).1.2 = .error e ∧ e.is .insufficientBonusPool)
      (hquiet : QuietRun K.accCodec (K.view w₁) (K.view w'))

theorem settleBeforeSlash_settles (hK : K.Contract) (hw : K.Sound w) {pos pos' : PositionState}
    (hpos : Delegated K w id pos a v s) (h : Succeeds (settleBeforeSlash K pos) w pos' w') :
    ∃ tier val covered,
      pos' = pos.withPosition (w.store.settled pos.toPosition s tier v w.ctx.blockTime) ∧
      w'.store = w.store.replayed pos.toPosition v ∧
      Settlement K w id pos.toPosition a v s tier val covered (w'.putPosition pos'.toPosition) ∧
      (covered = false → ∃ e, ((processEventsAndClaimBonus K pos).run w).1.2 = .error e ∧
        e.is .insufficientBonusPool) := by
  obtain ⟨del, hdel, rfl, hv⟩ := hpos.valString
  obtain ⟨tier, val, htier, hval, rfl, ⟨bonus, hpay⟩ | ⟨⟨e, hpool, herror⟩, rfl⟩⟩ :=
    succeeds_settleBeforeSlash hdel hv h
  · obtain ⟨hstore, houtside, hctx, hpaid⟩ := payBonus_paid hK hpay
    refine ⟨tier, val, true, rfl, hstore, ⟨hpos.holds, hpos.stake, htier, hval, ?_, houtside, hctx,
      ?_⟩, fun hfalse ↦ nomatch hfalse⟩
    · change w'.store.putPosition _ = _
      rw [hstore]
      rfl
    · have hid : pos.toPosition.id = id := hw.indexed.id_eq id _ hpos.holds.stored
      change bonusPaid w'.emitted = _
      rw [hpaid]
      change Function.update (bonusPaid w.emitted) pos.toPosition.id _ = _
      rw [if_pos rfl, ← hid]
      rfl
  · exact ⟨tier, val, false, rfl, rfl,
      ⟨hpos.holds, hpos.stake, htier, hval, rfl, .refl _, rfl, rfl⟩, fun _ ↦ ⟨e, herror, hpool⟩⟩

theorem unbondsSlashed_free (hK : K.Contract) (hw : K.Sound w) {u : ℕ} {red : Redelegation}
    (hentry : (K.staking w.ext).redelegations[u]? = some red)
    (hfree : ¬ (K.view w).Held K.accCodec red.delegator) (h : UnbondsSlashed K red shares w w') :
    QuietRun K.accCodec (K.view w) (K.view w') := by
  rcases h with ⟨_, rfl⟩ | h
  · exact .refl _
  · obtain ⟨removed, ext, hext, rfl⟩ := succeeds_callRemoving h
    have htouches := hK.touches_unbond hext
    obtain ⟨_, hremoves, _, _, _⟩ := hK.unbond _ _ _ _ _ _ _ _ hext
    have hexists : (K.account w.ext red.delegator).isSome := by
      by_contra hnone
      exact hw.tidy.notRedelegating red.delegator (Bool.not_eq_true _ ▸ hnone) u red hentry rfl
    have houtside : QuietRun K.accCodec (K.view w) (K.view { w with ext }) := by
      refine .single (.outside rfl (frame_of_touches htouches rfl rfl ?_ hw.tidy ?_ ?_)) rfl
      · rintro b rfl
        exact htouches.account _ hexists
      · rintro b hb _ rfl
        exact hfree hb
      · exact fun _ hnone ↦ nomatch hnone
    exact houtside.trans (quiet_dropRemoved removed fun x hx b _ ↦ (hremoves x hx).2 b)

/-- What `slashDelegatedPosition` writes for a position that was settled in memory. -/
theorem slashDelegatedPosition_writes {del : Delegation} {w₀ w₁ : World σ} {p old : Position}
    (hdel : del.validatorAddress = K.valCodec.bytesToString v)
    (hold : w₀.store.positions[p.id]? = some old) (hsame : old.SameIdentity p)
    (hsettle : Succeeds (settleBeforeSlash K pos) w (pos.withPosition p) w₀)
    (h : Succeeds (slashDelegatedPosition K pos del shares) w u w₁) :
    (del.shares ≤ shares ∧
        w₁ = { w₀ with
          store := (w₀.store.putPosition p.clearBonusCheckpoints).moveCount (some v) none }) ∨
      0 < del.shares - shares ∧ w₁ = { w₀ with store := w₀.store.putPosition p } := by
  unfold slashDelegatedPosition at h
  obtain ⟨pos', w₂, hsettle', hrest⟩ := succeeds_bind.mp h
  obtain ⟨rfl, rfl⟩ := hsettle.unique hsettle'
  rcases succeeds_ite.mp hrest with ⟨hall, hset⟩ | ⟨_, hset⟩
  · rw [hdel] at hset
    have hset' : Succeeds (setPositionWithState K ⟨p.clearBonusCheckpoints, none⟩
      (transition K (some (some v)))) w₀ _ w₁ := hset
    have hnone : ((none : Option Delegation).map Delegation.validatorAddress).getD "" =
      validatorString K none := rfl
    obtain ⟨_, rfl⟩ :=
      (succeeds_setPositionWithState hold hsame.owner.symm hsame.tierId.symm hnone).mp hset'
    exact Or.inl ⟨hall, rfl⟩
  · have hset' : Succeeds (setPositionWithState K ⟨p, some (del.subShares shares)⟩
      (transition K none)) w₀ _ w₁ := hset
    have hlast : ((some (del.subShares shares)).map Delegation.validatorAddress).getD "" =
      validatorString K (some v) := hdel
    obtain ⟨hvalid, rfl⟩ :=
      (succeeds_setPositionWithState hold hsame.owner.symm hsame.tierId.symm hlast).mp hset'
    exact Or.inr ⟨(validate_positionState hvalid).2 _ rfl, rfl⟩

/-- A slashed position is settled in memory and written back, without its checkpoints when it loses
all its shares. -/
theorem slashDelegatedPosition_settles (hK : K.Contract) (hw : K.Sound w)
    (hpos : Delegated K w id pos a v s)
    (h : Succeeds (slashDelegatedPosition K pos
      ⟨K.accCodec.bytesToString a, K.valCodec.bytesToString v, s⟩ shares) w u w₁) :
    ∃ tier val covered, ∃ (p : Position) (w₀ : World σ),
      Settlement K w id pos.toPosition a v s tier val covered (w₀.putPosition p) ∧
      (covered = false → ∃ e, ((processEventsAndClaimBonus K pos).run w).1.2 = .error e ∧
        e.is .insufficientBonusPool) ∧
      p = w.store.settled pos.toPosition s tier v w.ctx.blockTime ∧
      w₀.store.positions = w.store.positions ∧
      (K.view (w₀.putPosition p)).Holds K.accCodec id p a ∧
      (K.view (w₀.putPosition p)).Settled p v ∧
      (s ≤ shares ∧
          w₁ = { w₀ with
            store := (w₀.store.putPosition p.clearBonusCheckpoints).moveCount (some v) none } ∨
        0 < s - shares ∧ w₁ = w₀.putPosition p) := by
  obtain ⟨pos', w₀, hsettle, _⟩ := succeeds_bind.mp h
  obtain ⟨tier, val, covered, rfl, hstore, hsettlement, hcovered⟩ :=
    settleBeforeSlash_settles hK hw hpos hsettle
  have hsame := Position.sameIdentity_settled w.store pos.toPosition s tier v w.ctx.blockTime
  have hpositions : w₀.store.positions = w.store.positions := by
    rw [hstore]
    rfl
  have hold : w₀.store.positions[(w.store.settled pos.toPosition s tier v w.ctx.blockTime).id]? =
      some pos.toPosition := by
    rw [hpositions, hsame.id, hw.indexed.id_eq id _ hpos.holds.stored]
    exact hpos.holds.stored
  exact ⟨tier, val, covered, _, w₀, hsettlement, hcovered, rfl, hpositions,
    hsettlement.holds_after hw, hsettlement.settled hw,
    slashDelegatedPosition_writes rfl hold hsame hsettle h⟩

/-- A slashed position is settled in memory, written back, and loses the slashed shares. -/
theorem slashDelegatedPosition_run (hK : K.Contract) (hw : K.Sound w)
    {red : Redelegation}
    (hpos : Delegated K w id pos red.delegator red.dst s)
    (h : Succeeds (slashDelegatedPosition K pos
      ⟨K.accCodec.bytesToString red.delegator, K.valCodec.bytesToString red.dst, s⟩ shares) w u w₁)
    (hunbond : UnbondsSlashed K red shares w₁ w') :
    ∃ tier val covered w₂,
      Settlement K w id pos.toPosition red.delegator red.dst s tier val covered w₂ ∧
      (covered = false → ∃ e, ((processEventsAndClaimBonus K pos).run w).1.2 = .error e ∧
        e.is .insufficientBonusPool) ∧
      QuietRun K.accCodec (K.view w₂) (K.view w') := by
  obtain ⟨tier, val, covered, p, w₀, hsettlement, hcovered, _, _, hholds, hsettled, hwrites⟩ :=
    slashDelegatedPosition_settles hK hw hpos h
  refine ⟨tier, val, covered, _, hsettlement, hcovered, ?_⟩
  have hready : Ready K w₀ id p red.delegator red.dst s :=
    ⟨hsettlement.sound hw, hholds, hsettlement.stakedOn_after, hsettled⟩
  have hext₁ : w₁.ext = w₀.ext ∧ w₁.ctx = w₀.ctx := by
    rcases hwrites with ⟨_, rfl⟩ | ⟨_, rfl⟩
    · exact ⟨rfl, rfl⟩
    · exact ⟨rfl, rfl⟩
  rcases hunbond with ⟨hgone, _⟩ | hunbond
  · have hstake : (K.staking w₀.ext).delegations[(red.delegator, red.dst)]? = some s :=
      hready.stake.stakes_eq
    rw [hext₁.1, hstake] at hgone
    cases hgone
  · obtain ⟨removed, ext, hext, rfl⟩ := succeeds_callRemoving hunbond
    rw [hext₁.1] at hext
    obtain ⟨hpersists, hremoves, ⟨held, hheld, hle, hdelegations⟩, hred, hunbonding⟩ :=
      hK.unbond _ _ _ _ _ _ _ _ hext
    obtain rfl : s = held := Option.mem_unique hready.stake.stakes_eq hheld
    have htouches := hK.touches_unbond hext
    have hexists : ∀ b, b = red.delegator → (K.account ext b).isSome := by
      rintro b rfl
      exact htouches.account _ hready.account_exists
    have hremoved : ∀ st emitted, ∀ x ∈ removed, ∀ b,
        (K.view ⟨st, ext, w₁.ctx, emitted⟩).stakes b x = none :=
      fun _ _ x hx b ↦ (hremoves x hx).2 b
    have hstakes : ∀ st emitted, ∀ x : ValAddress,
        (K.view ⟨st, ext, w₁.ctx, emitted⟩).stakes red.delegator x =
          (takeShares (K.staking w₀.ext).delegations red.delegator red.dst s shares)[(red.delegator,
            x)]? :=
      fun _ _ x ↦ congrArg (fun m ↦ m[(red.delegator, x)]?) hdelegations
    rcases hwrites with ⟨hall, rfl⟩ | ⟨hpositive, rfl⟩
    · obtain rfl : s = shares := le_antisymm hall hle
      refine hready.quiet_leave removed (idle_takeShares hready.stake (hstakes _ _))
        htouches hexists
        (fun b _ hne heq ↦ hne heq) hred (hremoved _ _) ?_ rfl rfl
      change ((w₀.store.putPosition _).moveCount _ none).dropRemoved removed = _
      rw [Store.dropRemoved_moveCount, Store.dropRemoved_putPosition]
    · refine hready.quiet_reshare removed hpositive
        (stakedOn_takeShares hready.stake hpositive.ne' (hstakes _ _)) htouches hexists
        (fun b _ hne heq ↦ hne heq) hred hunbonding (hremoved _ _) ?_ rfl rfl
      change (w₀.store.putPosition _).dropRemoved removed = _
      rw [Store.dropRemoved_putPosition]

/-- What the hook before the slash of an entry comes to. -/
inductive BeforeSlash (K : Keepers σ) (w : World σ) (unbondingId : ℕ) (red : Redelegation)
    (shares : Dec) : World σ → Prop
  /-- No position holds the delegator of the entry. -/
  | free (hmapping : w.store.redelegationMappings[unbondingId]? = none)
      (hfree : ¬ (K.view w).Held K.accCodec red.delegator) :
      BeforeSlash K w unbondingId red shares w
  /-- The position that holds it has no stake. -/
  | idle {i : ℕ} {p : Position} (hmapping : w.store.redelegationMappings[unbondingId]? = some i)
      (hp : (K.view w).Holds K.accCodec i p red.delegator) (hidle : (K.view w).Idle red.delegator) :
      BeforeSlash K w unbondingId red shares w
  /-- The position that holds it is staked where the entry leads to. -/
  | staked {i : ℕ} {pos : PositionState} {s : Dec} {w₁ : World σ}
      (hmapping : w.store.redelegationMappings[unbondingId]? = some i)
      (hload : Succeeds (getPositionState K i) w pos w)
      (hpos : Delegated K w i pos red.delegator red.dst s)
      (hslash : Succeeds (slashDelegatedPosition K pos
        ⟨K.accCodec.bytesToString red.delegator, K.valCodec.bytesToString red.dst, s⟩ shares) w ⟨⟩
        w₁) :
      BeforeSlash K w unbondingId red shares w₁

theorem beforeSlash_of_succeeds (hw : K.Sound w) {u : ℕ} {red : Redelegation}
    (hentry : (K.staking w.ext).redelegations[u]? = some red)
    (hhook : Succeeds (beforeRedelegationSlashed K u shares) w ⟨⟩ w') :
    BeforeSlash K w u red shares w' := by
  unfold beforeRedelegationSlashed slashRedelegationPosition at hhook
  rw [succeeds_read] at hhook
  cases hmapping : w.store.redelegationMappings[u]? with
  | none =>
    rw [hmapping] at hhook
    obtain ⟨_, rfl⟩ := succeeds_pure.mp hhook
    refine .free hmapping fun hheld ↦ ?_
    obtain ⟨i, p, hp⟩ := hheld.holds
    have hsome := (hw.mapped.mapping u i).mpr ⟨red, ⟨p, hp⟩, hentry⟩
    rw [show (K.view w).store.redelegationMappings[u]? = none from hmapping] at hsome
    cases hsome
  | some i =>
    obtain ⟨red', ⟨p, hp⟩, hred'⟩ := (hw.mapped.mapping u i).mp hmapping
    obtain rfl : red = red' := Option.mem_unique hentry hred'
    have hstored : w.store.positions[i]? = some p := hp.stored
    rw [hmapping] at hhook
    dsimp only at hhook
    rw [hstored, if_neg (by simp)] at hhook
    obtain ⟨pos, w₀, hload, hslash⟩ := succeeds_bind.mp hhook
    obtain ⟨hworld, a, hpos⟩ := loaded_cases hw hload
    subst hworld
    rcases hpos with ⟨v, s, hpos⟩ | hpos
    · obtain rfl := Option.mem_unique hp.stored hpos.holds.stored
      obtain rfl := Option.mem_unique hp.account hpos.holds.account
      obtain rfl : red.dst = v := hw.mapped.dst i u red v s ⟨⟨_, hp⟩, hentry⟩ hpos.stake
      rw [hpos.delegation] at hslash
      exact .staked hmapping hload hpos hslash
    · rw [hpos.delegation] at hslash
      obtain ⟨_, rfl⟩ := succeeds_pure.mp hslash
      obtain rfl := Option.mem_unique hp.stored hpos.holds.stored
      obtain rfl := Option.mem_unique hp.account hpos.holds.account
      exact .idle hmapping hp hpos.idle

theorem redelegationSlashed_run (hK : K.Contract) (hw : K.Sound w) {u : ℕ} {red : Redelegation}
    (hentry : (K.staking w.ext).redelegations[u]? = some red)
    (hhook : Succeeds (beforeRedelegationSlashed K u shares) w ⟨⟩ w₁)
    (hunbond : UnbondsSlashed K red shares w₁ w') : Slashes K w w' u := by
  cases beforeSlash_of_succeeds hw hentry hhook with
  | free hmapping hfree =>
    refine .untouched (fun i hi ↦ ?_) (unbondsSlashed_free hK hw hentry hfree hunbond)
    rw [hmapping] at hi
    cases hi
  | @idle i p hmapping hp hidle =>
    refine .untouched (fun j hj ↦ ?_) ?_
    · obtain rfl := Option.mem_unique hmapping hj
      exact ⟨p, _, hp, hidle⟩
    · rcases hunbond with ⟨_, rfl⟩ | hunbond
      · exact .refl _
      · obtain ⟨removed, ext, hext, rfl⟩ := succeeds_callRemoving hunbond
        obtain ⟨_, _, ⟨held, hheld, _⟩, _⟩ := hK.unbond _ _ _ _ _ _ _ _ hext
        have hnone := hidle red.dst
        change (K.staking w.ext).delegations[(red.delegator, red.dst)]? = none at hnone
        rw [hheld] at hnone
        cases hnone
  | @staked i pos s _ hmapping hload hpos hslash =>
    obtain ⟨tier, val, covered, w₂, hsettle, hcovered, hquiet⟩ :=
      slashDelegatedPosition_run hK hw hpos hslash hunbond
    refine .settled hmapping hsettle (fun hfalse ↦ ?_) hquiet
    obtain ⟨e, herror, hpool⟩ := hcovered hfalse
    exact ⟨pos, e, hload, herror, hpool⟩

/-! ### What a step of the chain amounts to -/

/-- The validator event a label stands for. -/
def Label.event : Label → Option (ValAddress × ValidatorEventType)
  | .validatorBonded v => some (v, .bond)
  | .validatorBeginUnbonding v => some (v, .unbond)
  | .validatorSlashed v _ => some (v, .slash)
  | _ => none

/-- The labels that concern neither a bonus nor an exit. -/
def Label.silent : Label → Bool
  | .beginBlock => true
  | .validatorRemoved _ => true
  | .redelegationsCompleted _ => true
  | .outside => true
  | _ => false

inductive ChainEffect (K : Keepers σ) (w : World σ) : Label → World σ → Prop
  /-- Nothing that concerns a bonus or an exit. -/
  | silent {label : Label} {w' : World σ} (hlabel : label.silent)
      (hquiet : QuietRun K.accCodec (K.view w) (K.view w')) : ChainEffect K w label w'
  /-- A message has failed. -/
  | failed {msg : Msg} {e : Err} (herror : (deliver K msg w).1 = .error e) :
      ChainEffect K w (.deliver msg) w
  /-- A message has settled positions and had its effect. -/
  | delivered {msg : Msg} {w₁ w' : World σ} (hok : (deliver K msg w).1 = .ok ⟨⟩)
      (hsuccess : Succeeds (handle K msg) w ⟨⟩ w') (hnodup : (msg.settled w).Nodup)
      (hsettles : SettleRun K w (msg.settled w) w₁) (heffect : Effect K w w₁ w' msg) :
      ChainEffect K w (.deliver msg) w'
  /-- A hook has recorded an event. -/
  | noticed {label : Label} {v : ValAddress} {eventType : ValidatorEventType} {w' : World σ}
      (hlabel : label.event = some (v, eventType)) (hrecords : Records K w w' v eventType) :
      ChainEffect K w label w'
  /-- A redelegation entry has been slashed. -/
  | slashed {unbondingId : ℕ} {shares : Dec} {w' : World σ}
      (hslashes : Slashes K w w' unbondingId) :
      ChainEffect K w (.redelegationSlashed unbondingId shares) w'

theorem ChainStep.effect (hK : K.Contract) (hw : K.Sound w) {label : Label}
    (h : ChainStep K w label w') : ChainEffect K w label w' := by
  cases h with
  | beginBlock ctx htime => exact .silent rfl (.single (.tick ctx.blockTime htime) rfl)
  | deliver msg hsigner =>
    rcases atomically_cases (handle K msg) w with ⟨_, hsuccess, hok⟩ | ⟨⟨e, herror⟩, hworld⟩
    · obtain ⟨hnodup, w₁, hsettles, heffect⟩ := handle_effect hK hw hsigner hsuccess
      exact .delivered hok hsuccess hnodup hsettles heffect
    · have hsame : (TieredRewards.deliver K msg w).2 = w := hworld
      rw [hsame]
      exact .failed herror
  | validatorBonded hval _ hstaking hhook =>
    exact .noticed rfl (records_of_hook (by decide) (rate_setStatus hval hstaking)
      (view_setStatus hstaking) hhook)
  | validatorBeginUnbonding hval _ hstaking hhook =>
    exact .noticed rfl (records_of_hook (by decide) (rate_setStatus hval hstaking)
      (view_setStatus hstaking) hhook)
  | validatorSlashed fraction hhook =>
    refine .noticed rfl (records_of_hook (by decide) rfl ?_ hhook)
    exact congrArg (fun bonded ↦ { K.view w with bonded }) (Function.update_eq_self _ _).symm
  | validatorRemoved hbonded hempty hstaking hhook =>
    exact .silent rfl (validatorRemoved_run hbonded hempty hstaking hhook)
  | redelegationSlashed hentry hhook hunbond =>
    exact .slashed (redelegationSlashed_run hK hw hentry hhook hunbond)
  | redelegationsCompleted unbondingIds hstaking hhook =>
    exact .silent rfl (redelegationsCompleted_run hstaking hhook)
  | outside ext hframe => exact .silent rfl (.single (.outside rfl hframe) rfl)

/-! ### Sound worlds -/

/-- Whatever a message does after the settlements is a run of the ledger. -/
theorem Effect.run {msg : Msg} (h : Effect K w w₁ w' msg) :
    ∃ τ, Run (Ledger.Step K.accCodec) (K.view w₁) τ (K.view w') := by
  cases h with
  | quiet _ hquiet =>
    obtain ⟨τ, hrun, _⟩ := hquiet
    exact ⟨τ, hrun⟩
  | lock hworld hcreate | commit hworld hcreate =>
    subst hworld
    obtain ⟨_, ⟨τ, hrun, _⟩, hstep⟩ := hcreate
    exact ⟨_, hrun.snoc hstep⟩
  | trigger hworld hstep =>
    subst hworld
    exact ⟨_, .single hstep⟩
  | clear _ hstep => exact ⟨_, .single hstep⟩

theorem ChainEffect.run {label : Label} (h : ChainEffect K w label w') (hw : K.Sound w) :
    ∃ τ, Run (Ledger.Step K.accCodec) (K.view w) τ (K.view w') := by
  have hquiets : ∀ {L L' : Ledger}, QuietRun K.accCodec L L' →
      ∃ τ, Run (Ledger.Step K.accCodec) L τ L' := fun ⟨τ, hrun, _⟩ ↦ ⟨τ, hrun⟩
  cases h with
  | silent _ hquiet => exact hquiets hquiet
  | failed _ => exact ⟨[], .nil⟩
  | delivered _ _ _ hsettles heffect =>
    obtain ⟨_, hfirst⟩ := hsettles.run hw
    obtain ⟨_, hrest⟩ := heffect.run
    exact ⟨_, hfirst.append hrest⟩
  | noticed _ hrecords =>
    rcases hrecords with hstep | ⟨_, hquiet⟩
    · exact ⟨_, .single hstep⟩
    · exact hquiets hquiet
  | slashed hslashes =>
    rcases hslashes with ⟨_, hquiet⟩ | ⟨_, hsettle, _, hquiet⟩
    · exact hquiets hquiet
    · obtain ⟨_, hfirst⟩ := hsettle.run hw
      obtain ⟨_, hrest⟩ := hquiets hquiet
      exact ⟨_, hfirst.append hrest⟩

theorem ChainEffect.sound {label : Label} (h : ChainEffect K w label w')
    (hw : K.Sound w) : K.Sound w' := by
  obtain ⟨_, hrun⟩ := h.run hw
  exact hw.run hrun

theorem Fresh.sound (h : Fresh K w) : K.Sound w := by
  obtain ⟨params, hvalid, hstore⟩ := h.store
  have hview : (K.view w).store = { Store.empty with params := some params } := hstore
  have hpositions : (K.view w).store.positions = ∅ := congrArg Store.positions hview
  have hstored : ∀ (i : ℕ) (p : Position), (K.view w).store.positions[i]? ≠ some p := by
    intro i p
    rw [hpositions, Std.ExtTreeMap.getElem?_empty]
    simp
  have hevents : ∀ (x : ValAddress) (n : ℕ) (e : ValidatorEvent),
      (K.view w).store.validatorEvents[(x, n)]? ≠ some e := by
    intro x n e
    rw [congrArg Store.validatorEvents hview]
    simp [Store.empty]
  have hnone : ∀ {i p b}, ¬ (K.view w).Holds K.accCodec i p b := fun hp ↦ hstored _ _ hp.stored
  refine ⟨⟨params, congrArg Store.params hview, hvalid⟩, ?_, ?_, h.tidy, ?_, ?_, ?_, ?_, ?_, ?_⟩
  · refine ⟨fun i p hp ↦ absurd hp (hstored i p), fun i p hp ↦ absurd hp (hstored i p),
      fun i p hp ↦ absurd hp (hstored i p), fun o i ↦ ?_, fun t i ↦ ?_, fun t ↦ ?_,
      fun i p hp ↦ absurd hp (hstored i p), fun t tier ht ↦ ?_⟩
    · rw [congrArg Store.positionsByOwner hview]
      simp [Store.empty, hpositions]
    · rw [congrArg Store.positionsByTier hview]
      simp [Store.empty, hpositions]
    · unfold Store.tierSize
      rw [congrArg Store.positionCountByTier hview, hpositions, count_empty]
      simp [Store.empty]
    · rw [congrArg Store.tiers hview] at ht
      simp [Store.empty] at ht
  · exact ⟨fun i p hp ↦ absurd hp (hstored i p), fun i j p q b hp _ ↦ absurd hp hnone⟩
  · refine ⟨h.time,
      fun i p hp ↦ absurd hp (hstored i p), fun i p b hp ↦ absurd hp hnone, fun x ↦ ?_⟩
    unfold Ledger.validatorSize
    rw [congrArg Store.positionCountByValidator hview, hpositions, count_empty]
    simp [Store.empty]
  · exact ⟨fun x n e he ↦ absurd he (hevents x n e), fun x n e he ↦ absurd he (hevents x n e),
      fun i p x hp ↦ absurd hp (hstored i p), fun i p x n hp ↦ absurd hp (hstored i p),
      fun x n e he ↦ absurd he (hevents x n e), fun x n n' e e' he ↦ absurd he (hevents x n e)⟩
  · refine ⟨fun u i ↦ ?_, fun i u red x t hred ↦ ?_⟩
    · rw [congrArg Store.redelegationMappings hview]
      simp only [Store.empty, Std.ExtTreeMap.getElem?_empty, reduceCtorEq, false_iff, not_exists]
      rintro red ⟨⟨p, hp⟩, _⟩
      exact hnone hp
    · obtain ⟨⟨p, hp⟩, _⟩ := hred
      exact absurd hp hnone
  · exact fun i p b x t tier hp ↦ absurd hp hnone
  · rintro b ⟨i, p, hp, _⟩
    exact absurd hp (hstored i p)
  · exact fun i p owner hp ↦ absurd hp (hstored i p)

theorem Reaches.sound (hK : K.Contract) {τ : List (Transition (World σ) Label)}
    (h : Reaches K τ w) :
    K.Sound w := by
  obtain ⟨w₀, hfresh, hrun⟩ := h
  exact hrun.invariant (P := fun w ↦ K.Sound w) hfresh.sound
    fun _ _ _ hs hstep ↦ (hstep.effect hK hs).sound hs

theorem Reachable.sound (hK : K.Contract) (h : Reachable K w) : K.Sound w := by
  obtain ⟨_, hreaches⟩ := h
  exact hreaches.sound hK

end ChainMain.TieredRewards
