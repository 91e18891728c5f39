import ChainMain.TieredRewards.MessageChecks
import ChainMain.TieredRewards.StakeMoves

/-!
# Messages as runs of the ledger

For every message of an owner and of the authority, what a successful delivery from a sound world
amounts to in the ledger: some positions are settled, one after the other (`SettleRun`), and what
follows is a quiet run, or the one step the message is for: a position is created, or an exit is
triggered or cleared.
-/

set_option autoImplicit false

namespace ChainMain.TieredRewards

open Foundations Decimal OrderedStore StoreProgram Runs

open Ledger (QuietRun)

variable {σ : Type} {K : Keepers σ} {w w' : World σ} {pos : PositionState} {id : ℕ}
  {a : AccAddress} {v : ValAddress} {s : Dec}
variable {owner : AccAddress} {newShares shares : Dec} {u : PUnit} {p : Position} {dst : ValAddress}
  {w₁ w₂ : World σ} {amount : ℤ}

/-! ### A position that has claimed its rewards -/

/-- A staked position settled in memory: with the position written back, the world is sound and the
position settled. -/
structure Ready (K : Keepers σ) (w : World σ) (id : ℕ) (p : Position) (a : AccAddress)
    (v : ValAddress) (s : Dec) : Prop where
  sound : K.Sound (w.putPosition p)
  holds : (K.view (w.putPosition p)).Holds K.accCodec id p a
  stake : (K.view (w.putPosition p)).StakedOn a v s
  settled : (K.view (w.putPosition p)).Settled p v

namespace Ready

variable {w₁ : World σ} {p : Position}

theorem account_exists (h : Ready K w₁ id p a v s) : (K.account w₁.ext a).isSome :=
  h.sound.accounted.exists_of_held h.holds.held

/-- The position loses its stake and is written back without checkpoints. -/
theorem quiet_leave (h : Ready K w₁ id p a v s) (removed : List ValAddress)
    {P : AccAddress → Prop} (hidle : (K.view w').Idle a) (htouches : K.Touches P w₁.ext w'.ext)
    (hP : ∀ b, P b → (K.account w'.ext b).isSome)
    (hexempt : ∀ b, (K.view (w₁.putPosition p)).Held K.accCodec b → b ≠ a → ¬ P b)
    (hred : (K.staking w'.ext).redelegations = (K.staking w₁.ext).redelegations)
    (hremoved : ∀ u ∈ removed, ∀ b, (K.view w').stakes b u = none)
    (hstore : w'.store = ((w₁.store.dropRemoved removed).putPosition
      p.clearBonusCheckpoints).moveCount (some v) none)
    (hctx : w'.ctx = w₁.ctx) (hpaid : bonusPaid w'.emitted = bonusPaid w₁.emitted) :
    QuietRun K.accCodec (K.view (w₁.putPosition p)) (K.view w') := by
  set wl : World σ := { w' with
    store := (w₁.store.putPosition p.clearBonusCheckpoints).moveCount (some v) none }
    with hwl
  have hframe : (K.view (w₁.putPosition p)).Frame K.accCodec (some a) (K.view wl) :=
    frame_of_touches htouches hctx hpaid hP h.sound.tidy
      (fun b hb hne ↦ hexempt b hb fun heq ↦ hne (congrArg some heq.symm))
      fun b heq ↦ Or.inl (Option.some.inj heq ▸ hidle)
  have hleave : Ledger.Step K.accCodec (K.view (w₁.putPosition p)) (.leave id)
      (K.view wl) := by
    refine .leave h.holds h.stake h.settled hidle (sameRedelegations_of_eq hred a) hframe ?_
    have hput := putPosition_putPosition w₁.store (p := p)
      (q := p.clearBonusCheckpoints) rfl
    exact congrArg (fun st ↦ Store.moveCount st (some v) none) hput.symm
  have hdrop := quiet_dropRemoved (K := K) (w := wl) removed fun u hu b _ ↦ hremoved u hu b
  have hfinal : K.view { wl with store := wl.store.dropRemoved removed } = K.view w' := by
    refine view_congr ?_ rfl rfl rfl
    rw [hstore, hwl, Store.dropRemoved_moveCount, Store.dropRemoved_putPosition]
  rw [← hfinal]
  exact (QuietRun.single hleave rfl).trans hdrop

end Ready

/-- A delegated position in the middle of a message, settled in memory. With the position written
back, the world is one settlement away from the one the message started in. -/
structure Claimed (K : Keepers σ) (w : World σ) (id : ℕ) (p : Position) (a : AccAddress)
    (v : ValAddress) (s : Dec) (pos : PositionState) (w' : World σ) : Prop extends
    Ready K w' id pos.toPosition a v s where
  before : (K.view w).Holds K.accCodec id p a
  settles : SettleRun K w [id] (w'.putPosition pos.toPosition)
  stored : w'.store.positions[pos.id]? = some p
  same : p.SameIdentity pos.toPosition
  delegation : pos.delegation = some ⟨K.accCodec.bytesToString a, K.valCodec.bytesToString v, s⟩
  exitTriggeredAt : pos.exitTriggeredAt = p.exitTriggeredAt
  exitUnlockAt : pos.exitUnlockAt = p.exitUnlockAt
  ctx : w'.ctx = w.ctx
  outside : K.LeavesStaking w.ext w'.ext
  id_eq : pos.id = id

theorem claimed_of_claimRewards (hK : K.Contract) (hw : K.Sound w)
    {pos' : PositionState} {base bonus : Coins} {w₀ : World σ} (hpos : Delegated K w id pos a v s)
    (haside : Aside K w w₀) (h : Succeeds (claimRewards K pos) w₀ (pos', base, bonus) w') :
    Claimed K w id pos.toPosition a v s pos' w' := by
  have hw₀ := (haside.quiet hw).sound hw
  obtain ⟨tier, val, rfl, hstore, hsettle⟩ :=
    claimRewards_settles hK hw₀ (hpos.aside haside) h
  have hid : pos.toPosition.id = id := hw.indexed.id_eq id _ hpos.holds.stored
  refine ⟨⟨hsettle.sound hw₀, hsettle.holds_after hw₀, hsettle.stakedOn_after, hsettle.settled hw₀⟩,
    hpos.holds, .settle (hsettle.of_aside haside) (.nil _), ?_,
    Position.sameIdentity_settled _ _ _ _ _ _, hpos.delegation, rfl, rfl,
    (hsettle.of_aside haside).ctx, (hsettle.of_aside haside).outside, hid⟩
  rw [hstore, haside.store]
  change w.store.positions[pos.toPosition.id]? = _
  rw [hid]
  exact hpos.holds.stored

namespace Claimed

variable {w₁ : World σ} {p : Position}

/-- The validator and the account the rest of a message works with are those of the stake. -/
theorem validator_eq (h : Claimed K w id p a v s pos w₁) {delegation : Delegation} {u : ValAddress}
    (hdel : pos.delegation = some delegation)
    (hu : K.valCodec.stringToBytes delegation.validatorAddress = some u) :
    delegation = ⟨K.accCodec.bytesToString a, K.valCodec.bytesToString v, s⟩ ∧ u = v := by
  obtain rfl := Option.mem_unique hdel h.delegation
  rw [K.valCodec.stringToBytes_bytesToString] at hu
  exact ⟨rfl, (Option.some.inj hu).symm⟩

theorem account_eq (h : Claimed K w id p a v s pos w₁) {b : AccAddress}
    (hb : K.accCodec.stringToBytes pos.delegatorAddress = some b) : b = a :=
  Option.mem_unique hb h.holds.account

end Claimed

/-! ### Undelegating -/

theorem tierUndelegate_run (hK : K.Contract) (hw : K.Sound w) {msg : MsgTierUndelegate}
    {response : CompletionResponse} (h : Succeeds (tierUndelegate K msg) w response w') :
    ∃ w₁, SettleRun K w [msg.positionId] w₁ ∧ QuietRun K.accCodec (K.view w₁) (K.view w') := by
  unfold tierUndelegate at h
  simp only [succeeds_bind, succeeds_fromOutcome, succeeds_expect, succeeds_valAddressFromBech32,
    succeeds_accAddressFromBech32, succeeds_emit, succeeds_pure] at h
  obtain ⟨_, _, ⟨_, rfl⟩, pos, w₀, hload, _, w₀', hcheck, ⟨pos', base, bonus⟩, w₁,
    hclaim, delegation, _, ⟨hdel, rfl⟩, v', _, ⟨hv, rfl⟩, b, _, ⟨hb, rfl⟩, ⟨completion, amount⟩, w₂,
    hundelegate, _, w₃, hset, _, _, rfl, _, rfl⟩ := h
  obtain ⟨rfl, _, hdelegated, _, _⟩ := succeeds_validateUndelegatePosition hcheck
  obtain ⟨rfl, a, v, s, hpos⟩ := delegated_of_loaded hw hload hdelegated
  have hclaimed := claimed_of_claimRewards hK hw hpos (.refl _) hclaim
  obtain ⟨rfl, rfl⟩ := hclaimed.validator_eq hdel hv
  obtain rfl := hclaimed.account_eq hb
  refine ⟨_, hclaimed.settles, ?_⟩
  obtain ⟨removed, ext, hext, rfl⟩ := succeeds_callRemoving hundelegate
  obtain ⟨hpersists, hremoves, ⟨held, hheld, _, hdelegations⟩, hred, _⟩ :=
    hK.undelegate _ _ _ _ _ _ _ _ hext
  obtain rfl : s = held := Option.mem_unique hclaimed.stake.stakes_eq hheld
  have hstored : (w₁.store.dropRemoved removed).positions[pos'.id]? = some pos.toPosition := by
    rw [Store.dropRemoved_positions]
    exact hclaimed.stored
  obtain ⟨_, rfl⟩ := setPosition_update pos'.toPosition.clearBonusCheckpoints (some (some v')) hset
    hstored
    ⟨hclaimed.same.id, hclaimed.same.owner, hclaimed.same.tierId, hclaimed.same.delegatorAddress⟩
    hclaimed.holds.account
  have hidle : ∀ st emitted, (K.view ⟨st, ext, w₁.ctx, emitted⟩).Idle b := fun st emitted ↦
    idle_takeShares hclaimed.stake fun u ↦ congrArg (fun m ↦ m[(b, u)]?) hdelegations
  refine hclaimed.quiet_leave removed (hidle _ _) (hK.touches_undelegate hext) ?_ ?_ hred
    ?_ ?_ rfl ?_
  · rintro c rfl
    exact hpersists.account c hclaimed.account_exists
  · intro c _ hne heq
    exact hne heq
  · intro u hu c
    exact (hremoves u hu).2 c
  · rw [stakedOn_eq_none (hidle _ _)]
    rfl
  · exact bonusPaid_append_of_zero fun _ ↦ rfl

/-! ### Redelegating -/

theorem succeeds_redelegate {src dst : ValAddress} {result : Time × ℕ}
    (h : Succeeds (redelegate K a src dst shares) w result w') :
    (K.staking w.ext).isBonded dst ∧ ∃ removed ext,
      K.beginRedelegation w.ctx w.ext a src dst shares = .ok ((result, removed), ext) ∧
      w' = { w with ext := ext, store := w.store.dropRemoved removed } := by
  unfold redelegate at h
  simp only [succeeds_bind, succeeds_getValidator, succeeds_ensure] at h
  obtain ⟨val, _, ⟨hval, rfl⟩, _, _, ⟨hbonded, rfl⟩, hcall⟩ := h
  exact ⟨(isBonded_eq hval).trans hbonded, succeeds_callRemoving hcall⟩

theorem succeeds_setRedelegationMapping {unbondingId positionId : ℕ}
    (h : Succeeds (setRedelegationMapping unbondingId positionId) w u w') :
    w' = { w with store := Ledger.recordRedelegation w.store unbondingId positionId } := by
  unfold setRedelegationMapping at h
  unfold Ledger.recordRedelegation
  split_ifs at h ⊢ with hzero
  · exact (succeeds_modifyStore.mp h).symm
  · exact (succeeds_pure.mp h).2.symm

theorem stakedOn_redelegated
    (hstake : (K.view w).StakedOn a v s)
    (h : (K.staking w'.ext).delegations =
      addShares (takeShares (K.staking w.ext).delegations a v s s) a dst newShares) :
    (K.view w').StakedOn a dst newShares := by
  intro u
  change (K.staking w'.ext).delegations[(a, u)]? = _
  have hnone : ∀ x : ValAddress,
      (takeShares (K.staking w.ext).delegations a v s s)[(a, x)]? = none := by
    intro x
    rw [Keepers.getElem?_takeShares, if_pos (sub_self s)]
    by_cases hx : x = v
    · rw [if_pos ⟨rfl, hx⟩]
    · rw [if_neg fun hkey ↦ hx hkey.2]
      exact (hstake x).trans (if_neg hx)
  rw [h, Keepers.getElem?_addShares, hnone, hnone]
  by_cases hu : u = dst
  · rw [if_pos ⟨rfl, hu⟩, if_pos hu]
    exact congrArg some (zero_add newShares)
  · rw [if_neg fun hkey ↦ hu hkey.2, if_neg hu]

/-- The entries of an account that was not redelegating, after it has redelegated. -/
theorem redelegations_after {unbondingId : ℕ}
    (hnone : (K.view w).NotRedelegating a)
    (hred : (K.staking w'.ext).redelegations =
      if unbondingId = 0 then (K.staking w.ext).redelegations
      else (K.staking w.ext).redelegations.insert unbondingId ⟨a, v, dst⟩)
    (u : ℕ) (red : Redelegation) (ha : red.delegator = a) :
    (K.view w').redelegations u = some red ↔
      unbondingId ≠ 0 ∧ u = unbondingId ∧ red = ⟨a, v, dst⟩ := by
  have hbefore : (K.staking w.ext).redelegations[u]? ≠ some red := fun hold ↦ hnone u red hold ha
  change (K.staking w'.ext).redelegations[u]? = some red ↔ _
  rw [hred]
  by_cases hzero : unbondingId = 0
  · rw [if_pos hzero]
    exact ⟨fun hold ↦ absurd hold hbefore, fun hnew ↦ absurd hzero hnew.1⟩
  · rw [if_neg hzero, getElem?_insert_eq]
    by_cases hu : unbondingId = u
    · rw [if_pos hu]
      constructor
      · intro hnew
        exact ⟨hzero, hu.symm, (Option.some.inj hnew).symm⟩
      · rintro ⟨_, _, rfl⟩
        rfl
    · rw [if_neg hu]
      exact ⟨fun hold ↦ absurd hold hbefore, fun hnew ↦ absurd hnew.2.1.symm hu⟩

/-- The position takes its stake to another validator and is written back with new checkpoints. -/
theorem Ready.quiet_move {s' : Dec}
    (h : Ready K w₁ id p a v s) (removed : List ValAddress) (unbondingId : ℕ)
    (hopen : p.completedExitLockDuration w₁.ctx.blockTime = false) (hne : v ≠ dst)
    (hbonded : (K.staking w₁.ext).isBonded dst) (hshares : 0 < s')
    (hstake : (K.view w').StakedOn a dst s') (hnone : (K.view w₁).NotRedelegating a)
    (hunused : unbondingId ≠ 0 → (K.staking w₁.ext).redelegations[unbondingId]? = none)
    (hred : (K.staking w'.ext).redelegations =
      if unbondingId = 0 then (K.staking w₁.ext).redelegations
      else (K.staking w₁.ext).redelegations.insert unbondingId ⟨a, v, dst⟩)
    (hunbonding : (K.staking w'.ext).unbondingDelegations = (K.staking w₁.ext).unbondingDelegations)
    (htouches : K.Touches (· = a) w₁.ext w'.ext)
    (hremoved : ∀ u ∈ removed, ∀ b, (K.view w').stakes b u = none)
    (hstore : w'.store = ((Ledger.recordRedelegation (w₁.store.dropRemoved removed) unbondingId
      p.id).putPosition (p.updateBonusCheckpoints
        (w₁.store.getValidatorEventLatestSeq dst) w₁.ctx.blockTime true)).moveCount
          (some v) (some dst))
    (hctx : w'.ctx = w₁.ctx) (hpaid : bonusPaid w'.emitted = bonusPaid w₁.emitted) :
    QuietRun K.accCodec (K.view (w₁.putPosition p)) (K.view w') := by
  set q := p.updateBonusCheckpoints (w₁.store.getValidatorEventLatestSeq dst)
    w₁.ctx.blockTime true with hq
  set wm : World σ := { w' with
    store := ((Ledger.recordRedelegation w₁.store unbondingId p.id).putPosition q).moveCount
      (some v) (some dst) } with hwm
  have hframe : (K.view (w₁.putPosition p)).Frame K.accCodec (some a) (K.view wm) := by
    refine frame_of_touches htouches hctx hpaid ?_ h.sound.tidy ?_ ?_
    · rintro b rfl
      exact htouches.account b h.account_exists
    · exact fun b _ hne heq ↦ hne (congrArg some heq.symm)
    · exact fun b _ ↦ Or.inr (unbonding_of_eq hunbonding b)
  have hzero : (K.view w₁).redelegations unbondingId = none := by
    by_cases hid : unbondingId = 0
    · rw [hid]
      exact h.sound.tidy.zero
    · exact hunused hid
  have hmove : Ledger.Step K.accCodec (K.view (w₁.putPosition p)) (.move id)
      (K.view wm) := by
    refine .move unbondingId h.holds h.stake h.settled hopen hne hbonded hshares hstake hnone hzero
      (redelegations_after hnone hred) hframe ?_
    have hput := putPosition_putPosition
      (Ledger.recordRedelegation w₁.store unbondingId p.id) (p := p) (q := q) rfl
    exact congrArg (fun st ↦ Store.moveCount st (some v) (some dst)) hput.symm
  have hdrop := quiet_dropRemoved (K := K) (w := wm) removed fun u hu b _ ↦ hremoved u hu b
  have hfinal : K.view { wm with store := wm.store.dropRemoved removed } = K.view w' := by
    refine view_congr ?_ rfl rfl rfl
    rw [hstore, hwm, Store.dropRemoved_moveCount, Store.dropRemoved_putPosition,
      Store.dropRemoved_recordRedelegation]
  rw [← hfinal]
  exact (QuietRun.single hmove rfl).trans hdrop

theorem tierRedelegate_run (hK : K.Contract) (hw : K.Sound w) {msg : MsgTierRedelegate}
    {response : CompletionResponse} (h : Succeeds (tierRedelegate K msg) w response w') :
    ∃ w₁, SettleRun K w [msg.positionId] w₁ ∧ QuietRun K.accCodec (K.view w₁) (K.view w') := by
  unfold tierRedelegate at h
  simp only [succeeds_bind, succeeds_fromOutcome, succeeds_expect, succeeds_valAddressFromBech32,
    succeeds_accAddressFromBech32, succeeds_get, succeeds_emit, succeeds_pure] at h
  obtain ⟨_, _, ⟨_, rfl⟩, pos, w₀, hload, _, w₀', hcheck, dst, _, ⟨_, rfl⟩, ⟨pos', base, bonus⟩, w₁,
    hclaim, delegation, _, ⟨hdel, rfl⟩, v', _, ⟨hv, rfl⟩, b, _, ⟨hb, rfl⟩,
    ⟨completion, unbondingId⟩, w₂, hredelegate, _, w₃, hmapping, _, _, ⟨rfl, rfl⟩, _,
    w₄, hset, _, _, rfl, _, rfl⟩ := h
  obtain ⟨rfl, _, hdelegated, hopen, b', hb', hnone⟩ := succeeds_validateRedelegatePosition hcheck
  obtain ⟨rfl, a, v, s, hpos⟩ := delegated_of_loaded hw hload hdelegated
  have hclaimed := claimed_of_claimRewards hK hw hpos (.refl _) hclaim
  obtain ⟨rfl, rfl⟩ := hclaimed.validator_eq hdel hv
  obtain rfl := hclaimed.account_eq hb
  obtain rfl : b = b' := Option.mem_unique hpos.holds.account hb'
  refine ⟨_, hclaimed.settles, ?_⟩
  obtain ⟨hbonded, removed, ext, hext, rfl⟩ := succeeds_redelegate hredelegate
  obtain rfl := succeeds_setRedelegationMapping hmapping
  obtain ⟨hne, hpersists, hremoves, ⟨held, newShares, hheld, _, hdelegations⟩, hunused, hred,
    hunbonding⟩ := hK.beginRedelegation _ _ _ _ _ _ _ _ _ _ hext
  obtain rfl : s = held := Option.mem_unique hclaimed.stake.stakes_eq hheld
  have hdst : dst ∉ removed := by
    intro hmem
    rw [(hremoves dst hmem).1] at hbonded
    cases hbonded
  have hstored : (w₁.store.dropRemoved removed).positions[pos'.id]? = some pos.toPosition := by
    rw [Store.dropRemoved_positions]
    exact hclaimed.stored
  obtain ⟨hvalid, rfl⟩ := setPosition_update (pos'.toPosition.updateBonusCheckpoints
      ((w₁.store.dropRemoved removed).getValidatorEventLatestSeq dst) w₁.ctx.blockTime true)
    (some (some v')) hset hstored
    ⟨hclaimed.same.id, hclaimed.same.owner, hclaimed.same.tierId, hclaimed.same.delegatorAddress⟩
    hclaimed.holds.account
  have hstake : ∀ st emitted, (K.view ⟨st, ext, w₁.ctx, emitted⟩).StakedOn b dst newShares :=
    fun st emitted ↦ stakedOn_redelegated hclaimed.stake hdelegations
  have hshares : 0 < newShares :=
    (validate_positionState hvalid).2 _ (firstDelegation_of_stakedOn (hstake _ _))
  refine hclaimed.quiet_move removed unbondingId ?_ hne hbonded hshares (hstake _ _) ?_ hunused hred
    hunbonding (hK.touches_beginRedelegation hext) ?_ ?_ rfl ?_
  · by_contra hdone
    rw [Bool.not_eq_false] at hdone
    have hexit :=
      hasTriggeredExit_of_completed (hclaimed.sound.coherent.valid _ _ hclaimed.holds.stored)
      hdone
    unfold Position.hasTriggeredExit at hexit hopen
    unfold Position.completedExitLockDuration at hdone hopen
    rw [hclaimed.exitTriggeredAt] at hexit
    rw [hclaimed.exitUnlockAt, hclaimed.ctx] at hdone
    rw [hexit, hdone] at hopen
    cases hopen
  · intro u red hu
    refine hnone u red ?_
    change (K.staking w₁.ext).redelegations[u]? = _ at hu
    rw [hclaimed.outside.staking] at hu
    exact hu
  · intro u hu c
    exact (hremoves u hu).2 c
  · rw [stakedOn_eq_some (hstake _ _), Store.getValidatorEventLatestSeq_dropRemoved _ hdst]
    rfl
  · exact bonusPaid_append_of_zero fun _ ↦ rfl

/-! ### Adding to a position -/

theorem Ready.quiet_reshare {s' : Dec} (h : Ready K w₁ id p a v s) (removed : List ValAddress)
    {P : AccAddress → Prop} (hshares : 0 < s') (hstake : (K.view w').StakedOn a v s')
    (htouches : K.Touches P w₁.ext w'.ext) (hP : ∀ b, P b → (K.account w'.ext b).isSome)
    (hexempt : ∀ b, (K.view (w₁.putPosition p)).Held K.accCodec b → b ≠ a → ¬ P b)
    (hred : (K.staking w'.ext).redelegations = (K.staking w₁.ext).redelegations)
    (hunbonding : (K.staking w'.ext).unbondingDelegations = (K.staking w₁.ext).unbondingDelegations)
    (hremoved : ∀ u ∈ removed, ∀ b, (K.view w').stakes b u = none)
    (hstore : w'.store = (w₁.store.dropRemoved removed).putPosition p) (hctx : w'.ctx = w₁.ctx)
    (hpaid : bonusPaid w'.emitted = bonusPaid w₁.emitted) :
    QuietRun K.accCodec (K.view (w₁.putPosition p)) (K.view w') := by
  set wr : World σ := { w' with store := w₁.store.putPosition p } with hwr
  have hframe : (K.view (w₁.putPosition p)).Frame K.accCodec (some a) (K.view wr) :=
    frame_of_touches htouches hctx hpaid hP h.sound.tidy
      (fun b hb hne ↦ hexempt b hb fun heq ↦ hne (congrArg some heq.symm))
      fun b _ ↦ Or.inr (unbonding_of_eq hunbonding b)
  have hreshare : Ledger.Step K.accCodec (K.view (w₁.putPosition p)) (.reshare id)
      (K.view wr) :=
    .reshare h.holds h.stake h.settled hshares hstake (sameRedelegations_of_eq hred a) hframe rfl
  have hdrop := quiet_dropRemoved (K := K) (w := wr) removed fun u hu b _ ↦ hremoved u hu b
  have hfinal : K.view { wr with store := wr.store.dropRemoved removed } = K.view w' := by
    refine view_congr ?_ rfl rfl rfl
    rw [hstore, hwr, Store.dropRemoved_putPosition]
  rw [← hfinal]
  exact (QuietRun.single hreshare rfl).trans hdrop

theorem succeeds_delegate (h : Succeeds (delegate K a v amount) w shares w') :
    (K.staking w.ext).isBonded v ∧ ∃ ext,
      K.delegate w.ctx w.ext a amount .unbonded v true = .ok (shares, ext) ∧
      w' = { w with ext := ext } := by
  unfold delegate at h
  simp only [succeeds_bind, succeeds_getValidator, succeeds_ensure, succeeds_call] at h
  obtain ⟨val, _, ⟨hval, rfl⟩, _, _, ⟨hbonded, rfl⟩, ext, hext, rfl⟩ := h
  exact ⟨(isBonded_eq hval).trans hbonded, ext, hext, rfl⟩

theorem aside_lockFunds (hK : K.Contract) {owner del : AccAddress}
    (h : Succeeds (lockFunds K owner del amount) w u w') : Aside K w w' := by
  obtain ⟨ext, hext, rfl⟩ := succeeds_callUnit.mp h
  exact .of_ext (hK.sendCoins _ _ _ _ _ _ hext)

theorem addToTierPosition_run (hK : K.Contract) (hw : K.Sound w) {msg : MsgAddToTierPosition}
    {response : PositionResponse} (h : Succeeds (addToTierPosition K msg) w response w') :
    ∃ w₁, SettleRun K w [msg.positionId] w₁ ∧ QuietRun K.accCodec (K.view w₁) (K.view w') := by
  unfold addToTierPosition at h
  simp only [succeeds_bind, succeeds_fromOutcome, succeeds_expect, succeeds_valAddressFromBech32,
    succeeds_accAddressFromBech32, succeeds_emit, succeeds_pure] at h
  obtain ⟨_, _, ⟨_, rfl⟩, pos, w₀, hload, _, w₀', hcheck, owner, _, ⟨_, rfl⟩, b, _,
    ⟨hb, rfl⟩, _, wf, hlock, ⟨pos', base, bonus⟩, w₁, hclaim, delegation, _, ⟨hdel, rfl⟩, v', _,
    ⟨hv, rfl⟩, newShares, w₂, hdelegate, _, w₃, hset, _, _, rfl, _, rfl⟩ := h
  obtain ⟨rfl, _, hdelegated⟩ := succeeds_validateAddToPosition hcheck
  obtain ⟨rfl, a, v, s, hpos⟩ := delegated_of_loaded hw hload hdelegated
  have hclaimed := claimed_of_claimRewards hK hw hpos (aside_lockFunds hK hlock) hclaim
  obtain ⟨rfl, rfl⟩ := hclaimed.validator_eq hdel hv
  obtain rfl : a = b := Option.mem_unique hpos.holds.account hb
  refine ⟨_, hclaimed.settles, ?_⟩
  obtain ⟨_, ext, hext, rfl⟩ := succeeds_delegate hdelegate
  obtain ⟨hpersists, hdelegations, hred, hunbonding⟩ := hK.delegate _ _ _ _ _ _ _ _ _ hext
  obtain ⟨hvalid, rfl⟩ := setPosition_update pos'.toPosition none hset hclaimed.stored hclaimed.same
    hclaimed.holds.account
  have hstake : ∀ st emitted, (K.view ⟨st, ext, w₁.ctx, emitted⟩).StakedOn a v' (s + newShares) :=
    fun st emitted ↦ stakedOn_addShares hclaimed.stake hdelegations
  have hshares : 0 < s + newShares :=
    (validate_positionState hvalid).2 _ (firstDelegation_of_stakedOn (hstake _ _))
  refine hclaimed.quiet_reshare [] hshares (hstake _ _) (hK.touches_delegate hext) ?_ ?_ hred
    hunbonding ?_ rfl rfl ?_
  · rintro c rfl
    exact hpersists.account c hclaimed.account_exists
  · intro c _ hne heq
    exact hne heq
  · intro u hu
    cases hu
  · exact bonusPaid_append_of_zero fun _ ↦ rfl

/-! ### Triggering and clearing an exit -/

theorem triggerExitFromTier_run (hw : K.Sound w) {msg : MsgTriggerExitFromTier}
    {response : TriggerExitResponse} (h : Succeeds (triggerExitFromTier K msg) w response w') :
    Ledger.Step K.accCodec (K.view w) (.trigger msg.positionId) (K.view w') := by
  unfold triggerExitFromTier at h
  simp only [succeeds_bind, succeeds_fromOutcome, succeeds_getTier, succeeds_get, succeeds_emit,
    succeeds_pure] at h
  obtain ⟨_, _, ⟨_, rfl⟩, pos, w₀, hload, _, w₀', hcheck, tier, _, ⟨htier, rfl⟩, _, _,
    ⟨rfl, rfl⟩, _, w₁, hset, _, _, rfl, _, rfl⟩ := h
  obtain ⟨rfl, _, hquiet⟩ := succeeds_validateTriggerExit hcheck
  obtain ⟨rfl, a, hpos⟩ := loaded_cases hw hload
  have hp : (K.view w₀').Holds K.accCodec msg.positionId pos.toPosition a := by
    rcases hpos with ⟨v, s, hpos⟩ | hpos
    · exact hpos.holds
    · exact hpos.holds
  have hstored : w₀'.store.positions[pos.toPosition.id]? = some pos.toPosition := by
    rw [hw.indexed.id_eq _ _ hp.stored]
    exact hp.stored
  obtain ⟨hvalid, rfl⟩ := setPosition_update
    (pos.toPosition.triggerExit w₀'.ctx.blockTime tier.exitDuration) none hset hstored
    (Position.sameIdentity_triggerExit _ _ _) hp.account
  have hstep := Ledger.Step.trigger hp hquiet htier (validate_positionState hvalid).1
  rw [view_emit]
  · exact hstep
  · exact fun _ ↦ rfl

theorem stored_of_loaded (hw : K.Sound w) (h : Succeeds (getPositionState K id) w pos w') :
    w.store.positions[id]? = some pos.toPosition ∧ pos.id = id := by
  obtain ⟨hstored, _, _⟩ := succeeds_getPositionState.mp h
  exact ⟨hstored, hw.indexed.id_eq id _ hstored⟩

/-- Clearing the exit of a position that has been settled, or has no stake. -/
theorem clearExitingPosition_run (hK : K.Contract) (hw : K.Sound w)
    {response : PositionResponse} (hload : Succeeds (getPositionState K id) w pos w)
    (h : Succeeds (clearExitingPosition K pos) w response w') :
    ∃ w₁, SettleRun K w [id] w₁ ∧ Ledger.Step K.accCodec (K.view w₁) (.clear id) (K.view w') := by
  unfold clearExitingPosition at h
  simp only [succeeds_bind, succeeds_get, succeeds_emit, succeeds_pure] at h
  obtain ⟨⟨pos', base, bonus⟩, w₁, hclaim, _, _, ⟨rfl, rfl⟩, _, w₂, hset, _, _, rfl, _, rfl⟩ := h
  obtain ⟨_, a, ⟨v, s, hpos⟩ | hpos⟩ := loaded_cases hw hload
  · have hclaimed := claimed_of_claimRewards hK hw hpos (.refl _) hclaim
    have hcleared : (pos'.clearExit w₁.ctx.blockTime).toPosition =
        { pos'.toPosition with
          exitTriggeredAt := 0, exitUnlockAt := 0, lastBonusAccrual := w₁.ctx.blockTime } := by
      unfold PositionState.clearExit PositionState.isDelegated
      rw [hclaimed.delegation]
      rfl
    change Succeeds (setPosition K (pos'.clearExit w₁.ctx.blockTime).toPosition _) _ _ _ at hset
    rw [hcleared] at hset
    refine ⟨_, hclaimed.settles, ?_⟩
    obtain ⟨_, rfl⟩ := setPosition_update _ none hset hclaimed.stored
      ⟨hclaimed.same.id, hclaimed.same.owner, hclaimed.same.tierId, hclaimed.same.delegatorAddress⟩
      hclaimed.holds.account
    have hstep := Ledger.Step.clear hclaimed.holds
      (Or.inl ⟨⟨v, s, hclaimed.stake, hclaimed.settled⟩, rfl⟩)
    rw [view_emit]
    · have hput := putPosition_putPosition w₁.store (p := pos'.toPosition)
        (q := { pos'.toPosition with
          exitTriggeredAt := 0, exitUnlockAt := 0, lastBonusAccrual := w₁.ctx.blockTime }) rfl
      change Ledger.Step _ _ _ { K.view (w₁.putPosition pos'.toPosition) with
        store := w₁.store.putPosition { pos'.toPosition with
          exitTriggeredAt := 0, exitUnlockAt := 0, lastBonusAccrual := w₁.ctx.blockTime } }
      rw [← hput]
      exact hstep
    · exact fun _ ↦ rfl
  · unfold claimRewards at hclaim
    rw [if_neg (by rw [hpos.isDelegated]; exact Bool.false_ne_true)] at hclaim
    obtain ⟨hresult, rfl⟩ := succeeds_pure.mp hclaim
    obtain ⟨rfl, _⟩ := Prod.mk.inj hresult
    refine ⟨_, .skip hpos.holds hpos.idle (.nil _), ?_⟩
    have hcleared : (pos.clearExit w.ctx.blockTime).toPosition =
        { pos.toPosition with
          exitTriggeredAt := 0, exitUnlockAt := 0, lastBonusAccrual := pos.lastBonusAccrual } := by
      unfold PositionState.clearExit PositionState.isDelegated
      rw [hpos.delegation]
      rfl
    change Succeeds (setPosition K (pos.clearExit w.ctx.blockTime).toPosition _) _ _ _ at hset
    rw [hcleared] at hset
    have hstored : w.store.positions[pos.toPosition.id]? = some pos.toPosition := by
      rw [hw.indexed.id_eq _ _ hpos.holds.stored]
      exact hpos.holds.stored
    obtain ⟨_, rfl⟩ := setPosition_update _ none hset hstored
      (Position.sameIdentity_clearExit _ _) hpos.holds.account
    have hstep := Ledger.Step.clear hpos.holds (Or.inr ⟨hpos.idle, rfl⟩)
    rw [view_emit]
    · exact hstep
    · exact fun _ ↦ rfl

/-- `ClearPosition` does nothing to a position that is not exiting. -/
theorem clearPosition_run (hK : K.Contract) (hw : K.Sound w) {msg : MsgClearPosition}
    {response : PositionResponse} (h : Succeeds (clearPosition K msg) w response w') :
    ∃ p : Position, w.store.positions[msg.positionId]? = some p ∧
      (p.hasTriggeredExit = false ∧ w' = w ∨
        p.hasTriggeredExit = true ∧ ∃ w₁, SettleRun K w [msg.positionId] w₁ ∧
          Ledger.Step K.accCodec (K.view w₁) (.clear msg.positionId) (K.view w')) := by
  unfold clearPosition at h
  simp only [succeeds_bind, succeeds_fromOutcome] at h
  obtain ⟨_, _, ⟨_, rfl⟩, pos, w₀, hload, _, w₀', hcheck, hrest⟩ := h
  obtain ⟨rfl, _⟩ := succeeds_validateClearPosition hcheck
  obtain ⟨rfl, _⟩ := loaded_cases hw hload
  refine ⟨pos.toPosition, (stored_of_loaded hw hload).1, ?_⟩
  rcases succeeds_ite.mp hrest with ⟨hexit, hclear⟩ | ⟨hexit, hpure⟩
  · exact Or.inr ⟨hexit, clearExitingPosition_run hK hw hload hclear⟩
  · exact Or.inl ⟨Bool.not_eq_true _ ▸ hexit, (succeeds_pure.mp hpure).2.symm⟩

/-! ### Claiming -/

/-- The first loop of `ClaimTierRewards` loads the positions it is asked for. -/
theorem succeeds_loadClaimedPositions (hw : K.Sound w) {owner : String}
    {ids : List ℕ} {positions : List PositionState}
    (h : Succeeds (loadClaimedPositions K owner ids) w positions w') :
    w' = w ∧ positions.map (fun pos ↦ pos.id) = ids ∧
      ∀ pos ∈ positions, ∃ a, (∃ v s, Delegated K w pos.id pos a v s) ∨
        Undelegated K w pos.id pos a := by
  obtain ⟨hall, rfl⟩ := succeeds_loadClaimedPositions_iff.mp h
  clear h
  induction hall with
  | nil => simp
  | cons hfirst _ ih =>
    obtain ⟨_, hids, hrest⟩ := ih
    obtain ⟨_, rfl⟩ := stored_of_loaded hw hfirst.1
    exact ⟨rfl, by rw [List.map_cons, hids],
      List.forall_mem_cons.mpr ⟨(loaded_cases hw hfirst.1).2, hrest⟩⟩

theorem claimTierRewards_run (hK : K.Contract) (hw : K.Sound w) {msg : MsgClaimTierRewards}
    {response : ClaimTierRewardsResponse} (h : Succeeds (claimTierRewards K msg) w response w') :
    msg.positionIds.Nodup ∧ ∃ w₁, SettleRun K w msg.positionIds w₁ ∧
      QuietRun K.accCodec (K.view w₁) (K.view w') := by
  unfold claimTierRewards at h
  simp only [succeeds_bind, succeeds_fromOutcome, succeeds_emit, succeeds_pure] at h
  obtain ⟨_, _, ⟨hvalid, rfl⟩, positions, w₀, hload, totals, w₁, hclaim, _, _, rfl, _, rfl⟩ := h
  obtain ⟨rfl, hids, hloaded⟩ := succeeds_loadClaimedPositions hw hload
  have hnodup := MsgClaimTierRewards.nodup_of_validate hvalid
  refine ⟨hnodup, w₁, ?_, ?_⟩
  · rw [← hids]
    exact claimRewardsAndUpdatesPositions_settles hK hw (hids ▸ hnodup) hloaded hclaim
  · rw [view_emit]
    · exact .refl _
    · exact fun _ ↦ rfl

/-! ### Withdrawing -/

theorem aside_sweepBalances (hK : K.Contract) {del owner : AccAddress} {balances : Coins}
    (h : Succeeds (sweepBalances K del owner) w balances w') : Aside K w w' := by
  unfold sweepBalances at h
  rw [succeeds_read] at h
  rcases succeeds_ite.mp h with ⟨_, hsend⟩ | ⟨_, hpure⟩
  · obtain ⟨_, _, hcall, hpure⟩ := succeeds_bind.mp hsend
    obtain ⟨ext, hext, rfl⟩ := succeeds_callUnit.mp hcall
    obtain ⟨_, rfl⟩ := succeeds_pure.mp hpure
    exact .of_ext (hK.sendCoins _ _ _ _ _ _ hext)
  · obtain ⟨_, rfl⟩ := succeeds_pure.mp hpure
    exact .refl w

/-- What `WithdrawFromTier` has done: the balance of a position without stake is swept, and the
position is deleted. -/
theorem withdrawFromTier_cases (hw : K.Sound w) {msg : MsgWithdrawFromTier}
    {response : WithdrawFromTierResponse} (h : Succeeds (withdrawFromTier K msg) w response w') :
    ∃ (pos : PositionState) (a owner : AccAddress) (w₁ w₂ : World σ) (event : Event),
      Undelegated K w msg.positionId pos a ∧ (K.view w).NotUnbonding a ∧
      K.accCodec.stringToBytes pos.owner = some owner ∧
      Succeeds (sweepBalances K a owner) w response.amount w₁ ∧
      Succeeds (deletePosition K pos.toPosition (transition K none)) w₁ ⟨⟩ w₂ ∧
      (∀ i, event.bonusFor i = 0) ∧ w' = { w₂ with emitted := w₂.emitted ++ [event] } := by
  unfold withdrawFromTier at h
  simp only [succeeds_bind, succeeds_fromOutcome, succeeds_accAddressFromBech32, succeeds_emit,
    succeeds_pure] at h
  obtain ⟨_, _, ⟨_, rfl⟩, pos, w₀, hload, _, w₀', hcheck, owner, _, ⟨howner, rfl⟩, b, _, ⟨hb, rfl⟩,
    balances, w₁, hsweep, _, w₂, hdelete, _, _, rfl, rfl, rfl⟩ := h
  obtain ⟨rfl, _, _, _, hdelegated, b', hb', hunbonding⟩ := succeeds_validateWithdrawFromTier hcheck
  obtain ⟨rfl, a, ⟨v, s, hpos⟩ | hpos⟩ := loaded_cases hw hload
  · rw [hpos.isDelegated] at hdelegated
    cases hdelegated
  obtain rfl : b = a := Option.mem_unique hb hpos.holds.account
  obtain rfl : b = b' := Option.mem_unique hb hb'
  exact ⟨pos, b, owner, w₁, w₂, _, hpos, hunbonding, howner, hsweep, hdelete, fun _ ↦ rfl, rfl⟩

theorem withdrawFromTier_run (hK : K.Contract) (hw : K.Sound w) {msg : MsgWithdrawFromTier}
    {response : WithdrawFromTierResponse} (h : Succeeds (withdrawFromTier K msg) w response w') :
    QuietRun K.accCodec (K.view w) (K.view w') := by
  obtain ⟨pos, a, owner, w₁, w₂, event, hpos, _, howner, hsweep, hdelete, hevent, rfl⟩ :=
    withdrawFromTier_cases hw h
  have haside := aside_sweepBalances hK hsweep
  obtain ⟨owner', a', ext, howner', _, _, hext, rfl⟩ := succeeds_deletePosition hdelete
  obtain rfl := Option.mem_unique howner howner'
  have hremove : QuietRun K.accCodec (K.view w)
      (K.view { w with store := w.store.removePosition owner pos.toPosition }) :=
    .single (.remove hpos.holds hpos.idle howner) rfl
  refine hremove.trans (Aside.quiet ⟨?_, ?_, haside.ctx, ?_⟩ (hremove.sound hw))
  · change w₁.store.removePosition owner pos.toPosition = _
    rw [haside.store]
  · exact haside.outside.trans (hK.deleteDelegatorWithdrawAddr _ _ _ _ _ hext)
  · exact (bonusPaid_append_of_zero hevent).trans haside.paid

/-! ### Exiting with the delegation -/

theorem succeeds_getBondedValidator {notFound : ErrCode} {val : Validator}
    (h : Succeeds (getBondedValidator K v notFound) w val w') :
    w' = w ∧ (K.staking w.ext).isBonded v := by
  unfold getBondedValidator at h
  simp only [succeeds_bind, succeeds_get, succeeds_expect, succeeds_ensure, succeeds_pure] at h
  obtain ⟨_, _, ⟨rfl, rfl⟩, val', _, ⟨hval, rfl⟩, _, _, ⟨hbonded, rfl⟩, _, rfl⟩ := h
  exact ⟨rfl, (isBonded_eq hval).trans hbonded⟩

/-- Shares that were unbonded for one account and delegated for another on the same, bonded,
validator. -/
structure Transferred (K : Keepers σ) (ext : σ) (src dst : AccAddress) (v : ValAddress)
    (held shares newShares : Dec) (removed : List ValAddress) (ext' : σ) : Prop where
  source : (K.staking ext).delegations[(src, v)]? = some held
  delegations : (K.staking ext').delegations =
    addShares (takeShares (K.staking ext).delegations src v held shares) dst v newShares
  redelegations : (K.staking ext').redelegations = (K.staking ext).redelegations
  unbonding : (K.staking ext').unbondingDelegations = (K.staking ext).unbondingDelegations
  touches : K.Touches (fun b ↦ b = src ∨ b = dst) ext ext'
  emptied : ∀ u ∈ removed, ∀ b : AccAddress, (K.staking ext').delegations[(b, u)]? = none
  kept : v ∉ removed

theorem transferred_of_moveShares (hK : K.Contract) {src dst : AccAddress}
    {result : Dec × ℤ} (hbonded : (K.staking w.ext).isBonded v)
    (h : Succeeds (moveShares K src dst v shares) w result w') :
    ∃ held removed ext, Transferred K w.ext src dst v held shares result.1 removed ext ∧
      w' = { w with ext := ext, store := w.store.dropRemoved removed } := by
  unfold moveShares unbond at h
  simp only [succeeds_bind, succeeds_ensure, succeeds_getValidator, succeeds_call,
    succeeds_pure] at h
  obtain ⟨amount, _, hunbond, _, _, ⟨_, rfl⟩, val, _, ⟨_, rfl⟩, newShares, _,
    ⟨ext', hext', rfl⟩, rfl, rfl⟩ := h
  obtain ⟨removed, ext, hext, rfl⟩ := succeeds_callRemoving hunbond
  obtain ⟨_, hremoves, ⟨held, hheld, _, hdelegations⟩, hred, hunbonding⟩ :=
    hK.unbond _ _ _ _ _ _ _ _ hext
  obtain ⟨_, hdelegations', hred', hunbonding'⟩ := hK.delegate _ _ _ _ _ _ _ _ _ hext'
  have hkept : v ∉ removed := by
    intro hmem
    rw [(hremoves v hmem).1] at hbonded
    cases hbonded
  refine ⟨held, removed, ext', ⟨hheld, ?_, hred'.trans hred, hunbonding'.trans hunbonding, ?_, ?_,
    hkept⟩, rfl⟩
  · rw [hdelegations']
    exact congrArg (fun m ↦ addShares m dst v newShares) hdelegations
  · exact ((hK.touches_unbond hext).mono fun _ ↦ Or.inl).trans
      ((hK.touches_delegate hext').mono fun _ ↦ Or.inr)
  · intro u hu b
    rw [hdelegations', Keepers.getElem?_addShares, if_neg]
    · exact (hremoves u hu).2 b
    · rintro ⟨_, rfl⟩
      exact hkept hu

theorem Transferred.stakes_src {ext ext' : σ} {src dst : AccAddress} {held shares newShares : Dec}
    {removed : List ValAddress} (h : Transferred K ext src dst v held shares newShares removed ext')
    (hne : src ≠ dst) (u : ValAddress) :
    (K.staking ext').delegations[(src, u)]? =
      (takeShares (K.staking ext).delegations src v held shares)[(src, u)]? := by
  rw [h.delegations, Keepers.getElem?_addShares, if_neg fun hkey ↦ hne hkey.1]

/-- What `transferDelegationFromPosition` has done: all shares are unbonded for the whole amount. -/
theorem succeeds_transferDelegationFromPosition (hK : K.Contract)
    (hclaimed : Claimed K w id p a v s pos w₁) {amount positionAmount : ℤ} {result : Dec × Dec × ℤ}
    (hamount : Succeeds (reconcileAmountFromShares K v s) w₁ positionAmount w₁)
    (h : Succeeds (transferDelegationFromPosition K pos v amount) w₁ result w') :
    ∃ owner removed ext, K.accCodec.stringToBytes pos.owner = some owner ∧
      Transferred K w₁.ext a owner v s result.2.1 result.1 removed ext ∧
      (pos.exitWithFullDelegation amount positionAmount → result.2.1 = s) ∧
      Succeeds
        (sharesToTransfer K pos ⟨K.accCodec.bytesToString a, K.valCodec.bytesToString v, s⟩ a v
        amount positionAmount) w₁ result.2.1 w₁ ∧
      Succeeds (moveShares K a owner v result.2.1) w₁ (result.1, result.2.2) w' ∧
      w' = { w₁ with ext := ext, store := w₁.store.dropRemoved removed } := by
  unfold transferDelegationFromPosition at h
  simp only [succeeds_bind, succeeds_accAddressFromBech32, succeeds_expect, succeeds_pure] at h
  obtain ⟨owner, _, ⟨howner, rfl⟩, b, _, ⟨hb, rfl⟩, del, _, ⟨hdel, rfl⟩, _, _, hreject, val, _,
    hbonded, amount', _, hamount', shares, w₂, hshares, ⟨newShares, transferred⟩, w₃, hmove, rfl,
    rfl⟩ := h
  obtain rfl := (succeeds_rejectRedelegating hreject).1.symm
  obtain ⟨hread, hisBonded⟩ := succeeds_getBondedValidator hbonded
  obtain rfl := hread.symm
  obtain rfl := reconcileAmountFromShares_reads hamount'
  obtain rfl := Option.mem_unique hdel hclaimed.delegation
  obtain rfl := (hamount.unique hamount').1
  obtain rfl := hclaimed.account_eq hb
  have hw₂ : w₂ = w₁ ∧ (pos.exitWithFullDelegation amount positionAmount → shares = s) := by
    rcases succeeds_ite.mp hshares with ⟨_, hpure⟩ | ⟨hpart, hrest⟩
    · obtain ⟨rfl, rfl⟩ := succeeds_pure.mp hpure
      exact ⟨rfl, fun _ ↦ rfl⟩
    · obtain ⟨_, rfl⟩ := succeeds_fromOutcome.mp (succeeds_read.mp hrest)
      exact ⟨rfl, fun hfull ↦ absurd hfull hpart⟩
  obtain ⟨hread, hfull⟩ := hw₂
  obtain rfl := hread.symm
  obtain ⟨held, removed, ext, htransfer, rfl⟩ := transferred_of_moveShares hK hisBonded hmove
  obtain rfl : s = held :=
    Option.mem_unique hclaimed.stake.stakes_eq htransfer.source
  exact ⟨owner, removed, ext, howner, htransfer, hfull, hshares, hmove, rfl⟩

theorem validate_undelegated (h : PositionState.validate K.accCodec K.valCodec ⟨p, none⟩ = .ok ()) :
    p.lastBonusAccrual = 0 := by
  unfold PositionState.validate at h
  cases hposition : p.validate K.accCodec with
  | error e =>
    rw [hposition] at h
    cases h
  | ok u =>
    rw [hposition] at h
    change PositionState.validateDelegation K.valCodec ⟨p, none⟩ = .ok () at h
    unfold PositionState.validateDelegation at h
    dsimp only at h
    split_ifs at h with h₁
    exact not_not.mp h₁

theorem removePosition_putPosition (st : Store) {p q : Position} (hsame : p.SameIdentity q)
    (owner : AccAddress) (src dst : Option ValAddress) :
    ((st.putPosition q).moveCount src dst).removePosition owner q =
      (st.removePosition owner p).moveCount src dst := by
  unfold Store.removePosition Store.moveCount Store.putPosition
  dsimp only
  rw [erase_insert, hsame.id, hsame.tierId]

/-- The deletion of a position whose shares were all transferred to its owner. -/
theorem deleteTransferred_run (hK : K.Contract) {w₁ w₂ w₃ : World σ} {ext : σ}
    {removed : List ValAddress} (hclaimed : Claimed K w id p a v s pos w₁)
    (htransfer : Transferred K w₁.ext a owner v s s newShares removed ext)
    (howner : K.accCodec.stringToBytes pos.owner = some owner)
    (hexists : (K.account w₁.ext owner).isSome)
    (hfree : ¬ (K.view (w₁.putPosition pos.toPosition)).Held K.accCodec owner)
    (haside : Aside K { w₁ with ext := ext, store := w₁.store.dropRemoved removed } w₃)
    (h : Succeeds (deletePosition K pos.toPosition (transition K (some (some v)))) w₃ u w₂) :
    QuietRun K.accCodec (K.view (w₁.putPosition pos.toPosition)) (K.view w₂) ∧
      (K.view w₂).Idle a := by
  obtain ⟨owner', a', ext', howner', _, _, hext', rfl⟩ := succeeds_deletePosition h
  obtain rfl := Option.mem_unique howner howner'
  have houtside : K.LeavesStaking ext ext' :=
    haside.outside.trans (hK.deleteDelegatorWithdrawAddr _ _ _ _ _ hext')
  have hne : a ≠ owner := by
    rintro rfl
    exact hfree hclaimed.holds.held
  set q := pos.toPosition.clearBonusCheckpoints with hq
  set wl : World σ :=
    ⟨((w₁.store.dropRemoved removed).putPosition q).moveCount (some v) none, ext', w₃.ctx,
      w₃.emitted⟩ with hwl
  have hidle : (K.view wl).Idle a := by
    refine idle_takeShares hclaimed.stake fun x ↦ ?_
    change (K.staking ext').delegations[(a, x)]? = _
    rw [houtside.staking]
    exact htransfer.stakes_src hne x
  have htouches : K.Touches (fun b ↦ b = a ∨ b = owner) w₁.ext ext' :=
    htransfer.touches.trans (.of_leavesStaking houtside)
  have hleave : QuietRun K.accCodec (K.view (w₁.putPosition pos.toPosition)) (K.view wl) := by
    refine hclaimed.quiet_leave removed hidle htouches ?_ ?_ ?_ ?_ rfl haside.ctx haside.paid
    · rintro c (rfl | rfl)
      · exact htouches.account c hclaimed.account_exists
      · exact htouches.account c hexists
    · rintro c hc hca (heq | rfl)
      · exact hca heq
      · exact hfree hc
    · change (K.staking ext').redelegations = _
      rw [houtside.staking]
      exact htransfer.redelegations
    · intro x hx c
      change (K.staking ext').delegations[(c, x)]? = none
      rw [houtside.staking]
      exact htransfer.emptied x hx c
  have hholds : (K.view wl).Holds K.accCodec id q a := by
    refine ⟨?_, hclaimed.holds.account⟩
    change ((w₁.store.dropRemoved removed).positions.insert pos.id q)[id]? = some q
    rw [hclaimed.id_eq, getElem?_insert_eq, if_pos rfl]
  have hremove := Ledger.Step.remove hholds hidle howner
  refine ⟨hleave.trans (QuietRun.single (show Ledger.Step _ _ (.remove id) _ from ?_) rfl), hidle⟩
  have hstore := removePosition_putPosition (w₁.store.dropRemoved removed)
    (Position.sameIdentity_clearBonusCheckpoints pos.toPosition) owner (some v) none
  have hfinal : { K.view wl with store := (K.view wl).store.removePosition owner q } =
      K.view { w₃ with
        ext := ext'
        store :=
          (w₃.store.removePosition owner pos.toPosition).applyMove (some (some v)) none } := by
    rw [haside.store]
    exact congrArg (fun st ↦ { K.view wl with store := st }) hstore
  rw [← hfinal]
  exact hremove

/-- The full exit of a position whose shares were all transferred to its owner. -/
theorem exitFully_run (hK : K.Contract) {ext : σ}
    {removed : List ValAddress} {msgOwner : String}
    (hclaimed : Claimed K w id p a v s pos w₁)
    (htransfer : Transferred K w₁.ext a owner v s s newShares removed ext)
    (howner : K.accCodec.stringToBytes pos.owner = some owner)
    (hexists : (K.account w₁.ext owner).isSome)
    (hfree : ¬ (K.view (w₁.putPosition pos.toPosition)).Held K.accCodec owner)
    (h : Succeeds (exitFully K msgOwner pos (K.valCodec.bytesToString v))
      { w₁ with ext := ext, store := w₁.store.dropRemoved removed } u w₂) :
    QuietRun K.accCodec (K.view (w₁.putPosition pos.toPosition)) (K.view w₂) := by
  unfold exitFully at h
  simp only [succeeds_bind, succeeds_accAddressFromBech32] at h
  obtain ⟨ownerAddr, _, ⟨_, rfl⟩, b, _, ⟨_, rfl⟩, balances, w₃, hsweep, hdelete⟩ := h
  exact (deleteTransferred_run hK hclaimed htransfer howner hexists hfree
    (aside_sweepBalances hK hsweep) hdelete).1

/-- The partial exit of a position some of whose shares were transferred to its owner. -/
theorem exitPartially_run {ext : σ}
    {removed : List ValAddress} {shares newShares remaining : Dec}
    (hclaimed : Claimed K w id p a v s pos w₁)
    (htransfer : Transferred K w₁.ext a owner v s shares newShares removed ext)
    (hexists : (K.account w₁.ext owner).isSome)
    (hfree : ¬ (K.view (w₁.putPosition pos.toPosition)).Held K.accCodec owner)
    (h : Succeeds (exitPartially K pos v remaining)
      { w₁ with ext := ext, store := w₁.store.dropRemoved removed } u w₂) :
    QuietRun K.accCodec (K.view (w₁.putPosition pos.toPosition)) (K.view w₂) := by
  unfold exitPartially at h
  simp only [succeeds_bind, succeeds_getTier, succeeds_ensure] at h
  obtain ⟨amount, _, hamount, tier, _, ⟨_, rfl⟩, _, _, ⟨_, rfl⟩, hset⟩ := h
  obtain rfl := reconcileAmountFromShares_reads hamount
  have hstored : (w₁.store.dropRemoved removed).positions[pos.id]? = some p := by
    rw [Store.dropRemoved_positions]
    exact hclaimed.stored
  obtain ⟨hvalid, rfl⟩ := setPosition_update pos.toPosition none hset hstored hclaimed.same
    hclaimed.holds.account
  have hne : a ≠ owner := by
    rintro rfl
    exact hfree hclaimed.holds.held
  have hstakes : ∀ st emitted x, (K.view ⟨st, ext, w₁.ctx, emitted⟩).stakes a x =
      (takeShares (K.staking w₁.ext).delegations a v s shares)[(a, x)]? :=
    fun st emitted x ↦ htransfer.stakes_src hne x
  have hsome : s - shares ≠ 0 := by
    intro hzero
    obtain rfl : s = shares := sub_eq_zero.mp hzero
    have hidle := idle_takeShares (w := w₁) hclaimed.stake (hstakes w₁.store w₁.emitted)
    have hnone := firstDelegation_eq_none.mpr hidle
    change PositionState.validate K.accCodec K.valCodec
      ⟨pos.toPosition, firstDelegation K (K.staking ext) a⟩ = .ok () at hvalid
    rw [show firstDelegation K (K.staking ext) a = none from hnone] at hvalid
    have haccrual := validate_undelegated hvalid
    rcases hclaimed.sound.coherent.backed id _ a hclaimed.holds with ⟨_, _, _, _, hset⟩
        | ⟨hidle', _⟩
    · exact hset haccrual
    · exact hclaimed.stake.not_idle hidle'
  have hstake : ∀ st emitted, (K.view ⟨st, ext, w₁.ctx, emitted⟩).StakedOn a v (s - shares) :=
    fun st emitted ↦ stakedOn_takeShares hclaimed.stake hsome (hstakes st emitted)
  have hshares : 0 < s - shares :=
    (validate_positionState hvalid).2 _ (firstDelegation_of_stakedOn (hstake _ _))
  refine hclaimed.quiet_reshare removed hshares (hstake _ _) htransfer.touches ?_ ?_
    htransfer.redelegations htransfer.unbonding ?_ rfl rfl rfl
  · rintro c (rfl | rfl)
    · exact htransfer.touches.account c hclaimed.account_exists
    · exact htransfer.touches.account c hexists
  · rintro c hc hca (heq | rfl)
    · exact hca heq
    · exact hfree hc
  · intro x hx c
    exact htransfer.emptied x hx c

/-- Whoever signs a message has an account that no position holds. -/
def SignerIsFree (K : Keepers σ) (w : World σ) (signer : String) : Prop :=
  ∀ b, K.accCodec.stringToBytes signer = some b →
    (K.account w.ext b).isSome ∧ ¬ (K.view w).Held K.accCodec b

/-- The amounts of an exit: the message asks for a positive part of the value of the position, the
shares to transfer are chosen for it, and what they were worth is reported. -/
structure ExitAmounts (K : Keepers σ) (w : World σ) (msg : MsgExitTierWithDelegation)
    (response : ExitTierWithDelegationResponse) (pos : PositionState) (a owner : AccAddress)
    (v : ValAddress) (s shares newShares : Dec) (positionAmount : ℤ) (w₁ w₂ : World σ) : Prop where
  positive : 0 < msg.amount
  value : Succeeds (reconcileAmountFromShares K v s) w positionAmount w
  covered : msg.amount ≤ positionAmount
  full : response.fullExit = pos.exitWithFullDelegation msg.amount positionAmount
  chosen :
    Succeeds (sharesToTransfer K pos ⟨K.accCodec.bytesToString a, K.valCodec.bytesToString v, s⟩
    a v msg.amount positionAmount) w₁ shares w₁
  moved : Succeeds (moveShares K a owner v shares) w₁ (newShares, response.transferredAmount) w₂

/-- What `ExitTierWithDelegation` has done: the shares are transferred, and the position is deleted
or written back. -/
theorem exitTierWithDelegation_cases (hK : K.Contract) (hw : K.Sound w)
    {msg : MsgExitTierWithDelegation} {response : ExitTierWithDelegationResponse}
    (h : Succeeds (exitTierWithDelegation K msg) w response w') :
    ∃ a v s p pos, ∃ (w₁ w₂ : World σ) (owner : AccAddress) (shares newShares : Dec)
        (removed : List ValAddress) (ext : σ) (event : Event),
      Claimed K w msg.positionId p a v s pos w₁ ∧
      K.accCodec.stringToBytes pos.owner = some owner ∧ msg.owner = pos.owner ∧
      Transferred K w₁.ext a owner v s shares newShares removed ext ∧
      (∃ positionAmount, ExitAmounts K w msg response pos a owner v s shares newShares
        positionAmount w₁ { w₁ with ext := ext, store := w₁.store.dropRemoved removed }) ∧
      (∀ i, event.bonusFor i = 0) ∧ w' = { w₂ with emitted := w₂.emitted ++ [event] } ∧
      (response.fullExit = true ∧ shares = s ∧
          Succeeds (exitFully K msg.owner pos (K.valCodec.bytesToString v))
            { w₁ with ext := ext, store := w₁.store.dropRemoved removed } ⟨⟩ w₂ ∨
        response.fullExit = false ∧ Succeeds (exitPartially K pos v (s - shares))
          { w₁ with ext := ext, store := w₁.store.dropRemoved removed } ⟨⟩ w₂) := by
  unfold exitTierWithDelegation at h
  simp only [succeeds_bind, succeeds_fromOutcome, succeeds_expect,
    succeeds_valAddressFromBech32] at h
  obtain ⟨_, _, ⟨hvalid, rfl⟩, pos, w₀, hload, _, w₀', hcheck, ⟨pos', base, bonus⟩, w₁, hclaim,
    delegation, _, ⟨hdel, rfl⟩, v', _, ⟨hv, rfl⟩, positionAmount, _, hamount,
    ⟨newShares, shares, transferred⟩, w₂, htransfer, hrest⟩ := h
  obtain ⟨rfl, howner, hdelegated, _, _, positionAmount', hamount', hcovered⟩ :=
    succeeds_validateExitTierWithDelegation hcheck
  obtain ⟨rfl, a, v, s, hpos⟩ := delegated_of_loaded hw hload hdelegated
  have hclaimed := claimed_of_claimRewards hK hw hpos (.refl _) hclaim
  obtain ⟨rfl, rfl⟩ := hclaimed.validator_eq hdel hv
  obtain rfl := reconcileAmountFromShares_reads hamount
  obtain ⟨owner, removed, ext, hownerAddr, htransferred, hfull, hchosen, hmoved, rfl⟩ :=
    succeeds_transferDelegationFromPosition hK hclaimed hamount htransfer
  -- the claim in between does not change what the shares are worth
  have hvalue : Succeeds (reconcileAmountFromShares K v' s) w₀' positionAmount w₀' := by
    obtain ⟨hval, _⟩ := succeeds_reconcileAmountFromShares.mp hamount
    rw [hclaimed.outside.staking] at hval
    exact succeeds_reconcileAmountFromShares.mpr ⟨hval, rfl⟩
  obtain rfl : positionAmount' = positionAmount := by
    unfold getPositionAmount at hamount'
    simp only [hpos.delegation, getDelegatedAmount, succeeds_bind, succeeds_valAddressFromBech32,
      K.valCodec.stringToBytes_bytesToString] at hamount'
    obtain ⟨_, _, ⟨hv', rfl⟩, hreconcile⟩ := hamount'
    obtain rfl := Option.some.inj hv'
    exact (hreconcile.unique hvalue).1
  have hamounts : ExitAmounts K w₀' msg
      ⟨pos'.id, transferred, newShares, pos'.exitWithFullDelegation msg.amount positionAmount'⟩
      pos' a
      owner v' s shares newShares positionAmount' w₁
      { w₁ with ext := ext, store := w₁.store.dropRemoved removed } :=
    ⟨amount_pos_of_validate hvalid, hvalue, hcovered, rfl, hchosen, hmoved⟩
  have hsame : msg.owner = pos'.owner :=
    (beq_iff_eq.mp howner).symm.trans hclaimed.same.owner.symm
  rcases succeeds_ite.mp hrest with ⟨hexit, hrest⟩ | ⟨hpart, hrest⟩
  · obtain ⟨_, w₃, hexitFully, hemit⟩ := succeeds_bind.mp hrest
    simp only [succeeds_bind, succeeds_emit, succeeds_pure] at hemit
    obtain ⟨_, _, rfl, rfl, rfl⟩ := hemit
    exact ⟨a, v', s, _, pos', w₁, w₃, owner, shares, newShares, removed, ext, _,
      hclaimed, hownerAddr, hsame, htransferred, ⟨_, hamounts⟩, fun _ ↦ rfl, rfl,
      Or.inl ⟨hexit, hfull hexit, hexitFully⟩⟩
  · obtain ⟨_, w₃, hexitPartially, hemit⟩ := succeeds_bind.mp hrest
    simp only [succeeds_bind, succeeds_emit, succeeds_pure] at hemit
    obtain ⟨_, _, rfl, rfl, rfl⟩ := hemit
    exact ⟨a, v', s, _, pos', w₁, w₃, owner, shares, newShares, removed, ext, _,
      hclaimed, hownerAddr, hsame, htransferred, ⟨_, hamounts⟩, fun _ ↦ rfl, rfl,
      Or.inr ⟨Bool.not_eq_true _ ▸ hpart, hexitPartially⟩⟩

theorem exitTierWithDelegation_run (hK : K.Contract) (hw : K.Sound w)
    {msg : MsgExitTierWithDelegation} {response : ExitTierWithDelegationResponse}
    (hsigner : SignerIsFree K w msg.owner)
    (h : Succeeds (exitTierWithDelegation K msg) w response w') :
    ∃ w₁, SettleRun K w [msg.positionId] w₁ ∧ QuietRun K.accCodec (K.view w₁) (K.view w') := by
  obtain ⟨a, v, s, p, pos, w₁, w₂, owner, shares, newShares, removed, ext, event,
    hclaimed, hownerAddr, hsame, htransferred, _, hevent, rfl, hcases⟩ :=
      exitTierWithDelegation_cases hK hw h
  refine ⟨_, hclaimed.settles, ?_⟩
  obtain ⟨hexists, hfree⟩ := hsigner owner (hsame ▸ hownerAddr)
  have hexists₁ : (K.account w₁.ext owner).isSome := hclaimed.outside.account owner hexists
  have hfree₁ : ¬ (K.view (w₁.putPosition pos.toPosition)).Held K.accCodec owner :=
    fun hheld ↦ hfree (hclaimed.settles.held hw hheld)
  rw [view_emit hevent]
  rcases hcases with ⟨_, rfl, hexitFully⟩ | ⟨_, hexitPartially⟩
  · exact exitFully_run hK hclaimed htransferred hownerAddr hexists₁ hfree₁ hexitFully
  · exact exitPartially_run hclaimed htransferred hexists₁ hfree₁ hexitPartially

end ChainMain.TieredRewards
