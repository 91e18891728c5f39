import ChainMain.TieredRewards.StakingContract

/-!
# Settlements of the keeper

A position that is loaded from a sound world is either delegated, to one validator, or undelegated
(`loaded_cases`). When a delegated position claims its rewards, the world that results, with the
position written back, is one `settle` step of the ledger away (`claimRewards_settles`,
`Settlement.run`). The messages that settle write the position once more after they have changed its
stake; the write in between is the same as none, because the second one replaces it
(`putPosition_putPosition`).
-/

set_option autoImplicit false

namespace ChainMain.TieredRewards

open Foundations Decimal OrderedStore StoreProgram Runs

variable {σ : Type} {K : Keepers σ} {w w' : World σ} {id : ℕ} {pos pos' : PositionState}
  {a : AccAddress} {v : ValAddress} {s : Dec}
variable {b : AccAddress} {base bonus : Coins} {ids : List ℕ} {p : Position} {tier : Tier}
  {val : Validator} {j : ℕ}

/-! ### Loading a position -/

theorem mem_delegationsOf {staking : Staking} :
    (v, s) ∈ staking.delegationsOf a ↔ staking.delegations[(a, v)]? = some s := by
  unfold Staking.delegationsOf
  simp only [List.mem_map, List.mem_filter, beq_iff_eq, Prod.mk.injEq]
  constructor
  · rintro ⟨⟨⟨b, u⟩, t⟩, ⟨hmem, rfl⟩, rfl, rfl⟩
    exact mem_toList.mp hmem
  · intro h
    exact ⟨((a, v), s), ⟨mem_toList.mpr h, rfl⟩, rfl, rfl⟩

/-- The only delegation of an account whose whole stake is on one validator. -/
theorem head?_delegationsOf (h : (K.view w).StakedOn a v s) :
    ((K.staking w.ext).delegationsOf a).head? = some (v, s) := by
  cases hlist : (K.staking w.ext).delegationsOf a with
  | nil =>
    have hmem := mem_delegationsOf.mpr h.stakes_eq
    rw [hlist] at hmem
    cases hmem
  | cons entry rest =>
    have hstake := mem_delegationsOf.mp (hlist ▸ List.mem_cons_self : (entry.1, entry.2) ∈ _)
    have hentry := h entry.1
    change (K.staking w.ext).delegations[(a, entry.1)]? = _ at hentry
    rw [hstake] at hentry
    split_ifs at hentry with hv
    exact congrArg some (Prod.ext hv (Option.some.inj hentry))

theorem firstDelegation_of_stakedOn (h : (K.view w).StakedOn a v s) :
    firstDelegation K (K.staking w.ext) a =
      some ⟨K.accCodec.bytesToString a, K.valCodec.bytesToString v, s⟩ := by
  unfold firstDelegation
  rw [head?_delegationsOf h]
  rfl

theorem firstDelegation_eq_none : firstDelegation K (K.staking w.ext) a = none ↔
  (K.view w).Idle a := by
  unfold firstDelegation
  rw [Option.map_eq_none_iff, List.head?_eq_none_iff]
  constructor
  · intro hnil u
    cases hstake : (K.view w).stakes a u with
    | none => rfl
    | some t =>
      have hmem : (u, t) ∈ (K.staking w.ext).delegationsOf a := mem_delegationsOf.mpr hstake
      rw [hnil] at hmem
      cases hmem
  · intro hidle
    refine List.eq_nil_iff_forall_not_mem.mpr fun entry hentry ↦ ?_
    have hstake := mem_delegationsOf.mp (show (entry.1, entry.2) ∈ _ from hentry)
    have hnone := hidle entry.1
    change (K.staking w.ext).delegations[(a, entry.1)]? = none at hnone
    rw [hstake] at hnone
    cases hnone

theorem stakedOn_eq_some (h : (K.view w).StakedOn a v s) :
    (K.staking w.ext).stakedOn a = some v := by
  unfold Staking.stakedOn
  rw [head?_delegationsOf h]
  rfl

theorem stakedOn_eq_none (h : (K.view w).Idle a) : (K.staking w.ext).stakedOn a = none := by
  have hfirst := firstDelegation_eq_none.mpr h
  unfold firstDelegation at hfirst
  unfold Staking.stakedOn
  rw [Option.map_eq_none_iff] at hfirst ⊢
  exact hfirst

/-- A position loaded with its delegation. -/
structure Delegated (K : Keepers σ) (w : World σ) (id : ℕ) (pos : PositionState) (a : AccAddress)
    (v : ValAddress) (s : Dec) : Prop where
  holds : (K.view w).Holds K.accCodec id pos.toPosition a
  address : pos.delegatorAddress = K.accCodec.bytesToString a
  stake : (K.view w).StakedOn a v s
  delegation : pos.delegation = some ⟨K.accCodec.bytesToString a, K.valCodec.bytesToString v, s⟩

/-- A position loaded without a delegation. -/
structure Undelegated (K : Keepers σ) (w : World σ) (id : ℕ) (pos : PositionState)
    (a : AccAddress) :
    Prop where
  holds : (K.view w).Holds K.accCodec id pos.toPosition a
  address : pos.delegatorAddress = K.accCodec.bytesToString a
  idle : (K.view w).Idle a
  delegation : pos.delegation = none

/-- What `getPositionState` finds in a sound world. -/
theorem loaded_cases (hw : K.Sound w) (h : Succeeds (getPositionState K id) w pos w') :
    w' = w ∧ ∃ a, (∃ v s, Delegated K w id pos a v s) ∨ Undelegated K w id pos a := by
  obtain ⟨hstored, ⟨a, ha, hdel⟩, rfl⟩ := succeeds_getPositionState.mp h
  refine ⟨rfl, a, ?_⟩
  obtain ⟨b, hb, haddress, _⟩ := hw.accounted.holds hstored
  obtain rfl := Option.mem_unique ha hb.account
  rcases hw.coherent.backed id pos.toPosition a hb with ⟨v, s, hstake, _, _⟩ | ⟨hidle, _⟩
  · exact Or.inl ⟨v, s, hb, haddress, hstake, hdel ▸ firstDelegation_of_stakedOn hstake⟩
  · exact Or.inr ⟨hb, haddress, hidle, hdel ▸ firstDelegation_eq_none.mpr hidle⟩

theorem Delegated.isDelegated (h : Delegated K w id pos a v s) : pos.isDelegated = true := by
  unfold PositionState.isDelegated
  rw [h.delegation]
  rfl

theorem Undelegated.isDelegated (h : Undelegated K w id pos a) : pos.isDelegated = false := by
  unfold PositionState.isDelegated
  rw [h.delegation]
  rfl

theorem delegated_of_loaded (hw : K.Sound w)
    (h : Succeeds (getPositionState K id) w pos w') (hdel : pos.isDelegated = true) :
    w' = w ∧ ∃ a v s, Delegated K w id pos a v s := by
  obtain ⟨rfl, a, ⟨v, s, hpos⟩ | hpos⟩ := loaded_cases hw h
  · exact ⟨rfl, a, v, s, hpos⟩
  · rw [hpos.isDelegated] at hdel
    cases hdel

/-! ### The bonus paid so far -/

theorem total_single (denom : String) {amount : ℤ} (h : amount ≠ 0) :
    (Coins.single denom amount).total = amount := by
  unfold Coins.single Coins.total
  have hnew : (∅ : Coins)[denom]? = none := Std.ExtTreeMap.getElem?_empty
  rw [if_neg h, ((toList_insert_perm hnew amount).map Prod.snd).sum_eq, List.map_cons,
    List.sum_cons]
  exact add_zero amount

theorem bonusPaid_append_of_zero {events : List Event} {event : Event}
    (h : ∀ i, event.bonusFor i = 0) : bonusPaid (events ++ [event]) = bonusPaid events := by
  funext i
  unfold bonusPaid
  rw [List.map_append, List.sum_append]
  simp [h i]

theorem bonusPaid_append_claimed (events : List Event) (owner denom : String) {amount : ℤ}
    (h : amount ≠ 0) :
    bonusPaid (events ++ [.bonusRewardsClaimed id owner (Coins.single denom amount)]) =
      Function.update (bonusPaid events) id (bonusPaid events id + amount) := by
  funext i
  unfold bonusPaid
  rw [List.map_append, List.sum_append]
  by_cases hi : i = id
  · subst hi
    simp [Event.bonusFor, total_single denom h]
  · rw [Function.update_of_ne hi]
    simp [Event.bonusFor, Ne.symm hi]

/-! ### One settlement -/

/-- A settlement of a staked position, with the position written back. The bonus is paid unless the
pool does not cover it. -/
structure Settlement (K : Keepers σ) (w : World σ) (id : ℕ) (p : Position) (a : AccAddress)
    (v : ValAddress) (s : Dec) (tier : Tier) (val : Validator) (covered : Bool) (w' : World σ) :
    Prop where
  holds : (K.view w).Holds K.accCodec id p a
  stake : (K.view w).StakedOn a v s
  tierStored : w.store.tiers[p.tierId]? = some tier
  validator : (K.staking w.ext).validators[v]? = some val
  store : w'.store =
    (w.store.replayed p v).putPosition (w.store.settled p s tier v w.ctx.blockTime)
  outside : K.LeavesStaking w.ext w'.ext
  ctx : w'.ctx = w.ctx
  paid : bonusPaid w'.emitted =
    if covered then
      Function.update (bonusPaid w.emitted) id (bonusPaid w.emitted id +
        w.store.bonus p s tier v val.isBonded val.tokensPerShare w.ctx.blockTime)
    else bonusPaid w.emitted

theorem isBonded_eq {staking : Staking} (h : staking.validators[v]? = some val) :
    staking.isBonded v = val.isBonded := by
  unfold Staking.isBonded
  rw [h]
  rfl

section Settlement

variable {p : Position} {tier : Tier} {val : Validator} {covered : Bool}

/-- A settlement of the keeper is a settlement of the ledger, after which the outside moves. -/
theorem Settlement.steps (h : Settlement K w id p a v s tier val covered w') (hw : K.Sound w) :
    ∃ L, Ledger.Step K.accCodec (K.view w) (.settle id v val.tokensPerShare covered) L ∧
      Ledger.Step K.accCodec L .outside (K.view w') := by
  have hsettle := Ledger.Step.settle val.tokensPerShare covered h.holds h.stake h.tierStored
  have hbonded : (K.view w).bonded v = val.isBonded := isBonded_eq h.validator
  refine ⟨_, hsettle, .outside ?_ ?_⟩
  · exact h.store
  · have htidy := hsettle.tidy hw.tidy
    constructor
    · exact congrArg Context.blockTime h.ctx
    · funext u
      change (K.staking w'.ext).isBonded u = _
      rw [h.outside.staking]
      rfl
    · exact h.outside.account
    · rw [hbonded]
      exact h.paid
    · intro b _ _
      funext u
      change (K.staking w'.ext).delegations[(b, u)]? = _
      rw [h.outside.staking]
      rfl
    · intro b _ _ u red _
      change (K.staking w'.ext).redelegations[u]? = some red ↔ _
      rw [h.outside.staking]
      rfl
    · intro b u _ hu
      change ((K.staking w'.ext).unbondingDelegations[(b, u)]?).isSome at hu
      rw [h.outside.staking] at hu
      exact Or.inl hu
    · exact tidy_of_touches (P := fun _ ↦ False) (.of_leavesStaking h.outside)
        (fun _ hfalse ↦ hfalse.elim) hw.tidy

theorem Settlement.run (h : Settlement K w id p a v s tier val covered w') (hw : K.Sound w) :
    ∃ τ, Run (Ledger.Step K.accCodec) (K.view w) τ (K.view w') := by
  obtain ⟨_, hsettle, houtside⟩ := h.steps hw
  exact ⟨_, (Run.single hsettle).snoc houtside⟩

theorem Settlement.sound (h : Settlement K w id p a v s tier val covered w')
    (hw : K.Sound w) : K.Sound w' := by
  obtain ⟨_, hrun⟩ := h.run hw
  exact hw.run hrun

theorem Settlement.holds_after (h : Settlement K w id p a v s tier val covered w')
    (hw : K.Sound w) :
    (K.view w').Holds K.accCodec id (w.store.settled p s tier v w.ctx.blockTime) a := by
  refine ⟨?_, h.holds.account⟩
  change w'.store.positions[id]? = _
  rw [h.store]
  change (w.store.positions.insert p.id _)[id]? = _
  rw [hw.indexed.id_eq id p h.holds.stored, getElem?_insert_eq, if_pos rfl]

theorem Settlement.stakedOn_after (h : Settlement K w id p a v s tier val covered w') :
    (K.view w').StakedOn a v s := by
  intro u
  change (K.staking w'.ext).delegations[(a, u)]? = _
  rw [h.outside.staking]
  exact h.stake u

theorem Settlement.settled (h : Settlement K w id p a v s tier val covered w') (hw : K.Sound w) :
    (K.view w').Settled (w.store.settled p s tier v w.ctx.blockTime) v := by
  have hbefore :=
    hw.logged.settled h.holds h.stake tier (hw.tracked id p a v s tier h.holds h.stake)
  constructor
  · refine hbefore.seq.trans ?_
    change _ = w'.store.getValidatorEventLatestSeq v
    rw [h.store]
    rfl
  · refine hbefore.bonded.trans ?_
    change _ = (K.staking w'.ext).isBonded v
    rw [h.outside.staking]
    rfl
  · refine hbefore.accrual.trans ?_
    have hnow : (K.view w').now = w.ctx.blockTime := congrArg Context.blockTime h.ctx
    rw [hnow]
    rfl

end Settlement

/-! ### Claiming the rewards of a position -/

theorem Keepers.LeavesStaking.refl (ext : σ) : K.LeavesStaking ext ext := ⟨rfl, fun _ h ↦ h⟩

theorem Keepers.LeavesStaking.trans {ext ext' ext'' : σ} (h : K.LeavesStaking ext ext')
    (h' : K.LeavesStaking ext' ext'') : K.LeavesStaking ext ext'' :=
  ⟨h'.staking.trans h.staking, fun a ha ↦ h'.account a (h.account a ha)⟩

/-- Something happened in a world that concerns neither the store nor staking nor bonuses. -/
structure Aside (K : Keepers σ) (w w' : World σ) : Prop where
  store : w'.store = w.store
  outside : K.LeavesStaking w.ext w'.ext
  ctx : w'.ctx = w.ctx
  paid : bonusPaid w'.emitted = bonusPaid w.emitted

theorem Aside.refl (w : World σ) : Aside K w w := ⟨rfl, .refl _, rfl, rfl⟩

theorem Aside.trans {w₁ w₂ w₃ : World σ} (h : Aside K w₁ w₂) (h' : Aside K w₂ w₃) : Aside K w₁ w₃ :=
  ⟨h'.store.trans h.store, h.outside.trans h'.outside, h'.ctx.trans h.ctx, h'.paid.trans h.paid⟩

theorem Aside.of_ext {ext : σ} (h : K.LeavesStaking w.ext ext) : Aside K w { w with ext } :=
  ⟨rfl, h, rfl, rfl⟩

theorem Aside.of_emit {event : Event} (h : ∀ i, event.bonusFor i = 0) :
    Aside K w { w with emitted := w.emitted ++ [event] } :=
  ⟨rfl, .refl _, rfl, bonusPaid_append_of_zero h⟩

theorem aside_claimBaseRewards (hK : K.Contract)
    (h : Succeeds (claimBaseRewards K pos) w base w') : Aside K w w' := by
  unfold claimBaseRewards at h
  cases hdel : pos.delegation with
  | none =>
    rw [hdel] at h
    obtain ⟨_, rfl⟩ := succeeds_pure.mp h
    exact .refl w
  | some del =>
    rw [hdel] at h
    simp only [succeeds_bind, succeeds_valAddressFromBech32, succeeds_accAddressFromBech32,
      succeeds_call] at h
    obtain ⟨v, _, ⟨_, rfl⟩, posDelAddr, _, ⟨_, rfl⟩, rewards, _, ⟨ext, hext, rfl⟩, hrest⟩ := h
    have hcall : Aside K w { w with ext } :=
      .of_ext (hK.withdrawDelegationRewards _ _ _ _ _ _ hext)
    by_cases hzero : rewards.isZero
    · rw [if_neg (not_not.mpr hzero)] at hrest
      obtain ⟨_, rfl⟩ := succeeds_pure.mp hrest
      exact hcall
    · rw [if_pos hzero, succeeds_bind] at hrest
      obtain ⟨_, _, hemit, hpure⟩ := hrest
      obtain rfl := succeeds_emit.mp hemit
      obtain ⟨_, rfl⟩ := succeeds_pure.mp hpure
      exact hcall.trans (.of_emit fun _ ↦ rfl)

theorem payBonus_paid (hK : K.Contract) {totalBonus : ℤ}
    (h : Succeeds (payBonus K p totalBonus) w bonus w') :
    w'.store = w.store ∧ K.LeavesStaking w.ext w'.ext ∧ w'.ctx = w.ctx ∧
      bonusPaid w'.emitted =
        Function.update (bonusPaid w.emitted) p.id (bonusPaid w.emitted p.id + totalBonus) := by
  rcases succeeds_payBonus h with ⟨rfl, _, rfl⟩ | ⟨hpos, _, _, owner, ext, _, hsend, rfl⟩
  · refine ⟨rfl, .refl _, rfl, ?_⟩
    rw [add_zero, Function.update_eq_self]
  · exact ⟨rfl, hK.sendCoinsFromModuleToAccount _ _ _ _ _ _ hsend, rfl,
      bonusPaid_append_claimed w.emitted p.owner _ hpos.ne'⟩

/-- The world with a position written back. -/
def World.putPosition (w : World σ) (p : Position) : World σ :=
  { w with store := w.store.putPosition p }

theorem Delegated.valString (h : Delegated K w id pos a v s) :
    ∃ del, pos.delegation = some del ∧ del.shares = s ∧
      K.valCodec.stringToBytes del.validatorAddress = some v :=
  ⟨_, h.delegation, rfl, K.valCodec.stringToBytes_bytesToString v⟩

/-- A delegated position stays delegated when something happens aside. -/
theorem Delegated.aside (h : Delegated K w id pos a v s) (haside : Aside K w w') :
    Delegated K w' id pos a v s := by
  refine ⟨⟨?_, h.holds.account⟩, h.address, ?_, h.delegation⟩
  · change w'.store.positions[id]? = _
    rw [haside.store]
    exact h.holds.stored
  · intro u
    change (K.staking w'.ext).delegations[(a, u)]? = _
    rw [haside.outside.staking]
    exact h.stake u

/-- A settlement can be counted from an earlier world if only something aside happened since. -/
theorem Settlement.of_aside {w₀ : World σ}
    {covered : Bool} (h : Settlement K w id p a v s tier val covered w') (haside : Aside K w₀ w) :
    Settlement K w₀ id p a v s tier val covered w' where
  holds := ⟨show w₀.store.positions[id]? = _ from haside.store ▸ h.holds.stored, h.holds.account⟩
  stake := fun u ↦ by
    have hu := h.stake u
    change (K.staking w.ext).delegations[(a, u)]? = _ at hu
    rw [haside.outside.staking] at hu
    exact hu
  tierStored := haside.store ▸ h.tierStored
  validator := haside.outside.staking ▸ h.validator
  store := by rw [h.store, haside.store, haside.ctx]
  outside := haside.outside.trans h.outside
  ctx := h.ctx.trans haside.ctx
  paid := by rw [h.paid, haside.paid, haside.store, haside.ctx]

theorem claimBonus_settles (hK : K.Contract) (hid : pos.toPosition.id = id)
    (hpos : Delegated K w id pos a v s) (h : Succeeds (claimBonus K pos) w (pos', bonus) w') :
    ∃ tier val,
      pos' = pos.withPosition (w.store.settled pos.toPosition s tier v w.ctx.blockTime) ∧
      w'.store = w.store.replayed pos.toPosition v ∧
      Settlement K w id pos.toPosition a v s tier val true (w'.putPosition pos'.toPosition) := by
  obtain ⟨del, hdel, rfl, hv⟩ := hpos.valString
  obtain ⟨tier, val, htier, hval, rfl, hpay⟩ := succeeds_claimBonus hdel hv h
  obtain ⟨hstore, houtside, hctx, hpaid⟩ := payBonus_paid hK hpay
  refine ⟨tier, val, rfl, hstore, hpos.holds, hpos.stake, htier, hval, ?_, houtside, hctx, ?_⟩
  · change w'.store.putPosition _ = _
    rw [hstore]
    rfl
  · change bonusPaid w'.emitted = _
    rw [hpaid]
    change Function.update (bonusPaid w.emitted) pos.toPosition.id _ = _
    rw [if_pos rfl, ← hid]
    rfl

/-- The rewards of a delegated position are claimed: the position is settled. -/
theorem claimRewards_settles (hK : K.Contract) (hw : K.Sound w) (hpos : Delegated K w id pos a v s)
    (h : Succeeds (claimRewards K pos) w (pos', base, bonus) w') :
    ∃ tier val,
      pos' = pos.withPosition (w.store.settled pos.toPosition s tier v w.ctx.blockTime) ∧
      w'.store = w.store.replayed pos.toPosition v ∧
      Settlement K w id pos.toPosition a v s tier val true (w'.putPosition pos'.toPosition) := by
  unfold claimRewards at h
  rw [if_pos hpos.isDelegated] at h
  simp only [succeeds_bind, succeeds_pure] at h
  obtain ⟨base₁, w₁, hbase, ⟨pos₁, bonus₁⟩, w₂, hbonus, hresult, rfl⟩ := h
  obtain ⟨rfl, _⟩ := Prod.mk.inj hresult
  have haside := aside_claimBaseRewards hK hbase
  obtain ⟨tier, val, hpos', hstore, hsettle⟩ := claimBonus_settles hK
    (hw.indexed.id_eq id _ hpos.holds.stored) (hpos.aside haside) hbonus
  rw [haside.store] at hpos' hstore
  rw [haside.ctx] at hpos'
  exact ⟨tier, val, hpos', hstore, hsettle.of_aside haside⟩

/-! ### Writing a position back -/

/-- `setPosition` on a stored position replaces it and moves it in the counter by validator. -/
theorem setPosition_update (p : Position) (update : Option (Option ValAddress)) {old : Position}
    {u : PUnit} (h : Succeeds (setPosition K p (transition K update)) w u w')
    (hold : w.store.positions[p.id]? = some old) (hsame : old.SameIdentity p)
    (haccount : K.accCodec.stringToBytes p.delegatorAddress = some a) :
    PositionState.validate K.accCodec K.valCodec ⟨p, firstDelegation K (K.staking w.ext) a⟩ =
      .ok () ∧ w' = { w with
        store := (w.store.putPosition p).applyMove update ((K.staking w.ext).stakedOn a) } := by
  obtain ⟨b, hb, hset⟩ := succeeds_setPosition.mp h
  obtain rfl := Option.mem_unique haccount hb
  obtain ⟨hvalid, rfl⟩ := (succeeds_setPositionWithState hold hsame.owner.symm hsame.tierId.symm
    (firstDelegation_validatorAddress _ _)).mp hset
  exact ⟨hvalid, rfl⟩

/-- A valid position state has a valid position, and positive shares if it is delegated. -/
theorem validate_positionState {del : Option Delegation}
    (h : PositionState.validate K.accCodec K.valCodec ⟨p, del⟩ = .ok ()) :
    p.validate K.accCodec = .ok () ∧ ∀ d, del = some d → 0 < d.shares := by
  unfold PositionState.validate at h
  cases hposition : p.validate K.accCodec with
  | error e =>
    rw [hposition] at h
    cases h
  | ok u =>
    rw [hposition] at h
    refine ⟨rfl, ?_⟩
    rintro d rfl
    change PositionState.validateDelegation K.valCodec ⟨p, some d⟩ = .ok () at h
    unfold PositionState.validateDelegation at h
    dsimp only at h
    split_ifs at h with h₁ h₂ h₃ h₄
    exact of_decide_eq_true h₃

theorem putPosition_putPosition (st : Store) {p q : Position} (h : p.id = q.id) :
    (st.putPosition p).putPosition q = st.putPosition q := by
  unfold Store.putPosition
  rw [h, insert_insert]

/-! ### Settling several positions -/

/-- The positions in a list are settled one after the other; those without a delegation are left
out. -/
inductive SettleRun (K : Keepers σ) : World σ → List ℕ → World σ → Prop
  | nil (w : World σ) : SettleRun K w [] w
  | settle {w w₁ w' : World σ} {id : ℕ} {ids : List ℕ} {p : Position} {a : AccAddress}
      {v : ValAddress} {s : Dec} {tier : Tier} {val : Validator}
      (hfirst : Settlement K w id p a v s tier val true w₁) (hrest : SettleRun K w₁ ids w') :
      SettleRun K w (id :: ids) w'
  | skip {w w' : World σ} {id : ℕ} {ids : List ℕ} {p : Position} {a : AccAddress}
      (hp : (K.view w).Holds K.accCodec id p a) (hidle : (K.view w).Idle a)
      (hrest : SettleRun K w ids w') : SettleRun K w (id :: ids) w'

theorem SettleRun.run (h : SettleRun K w ids w') (hw : K.Sound w) :
    ∃ τ, Run (Ledger.Step K.accCodec) (K.view w) τ (K.view w') := by
  induction h with
  | nil w => exact ⟨[], .nil⟩
  | settle hfirst _ ih =>
    obtain ⟨τ, hrun⟩ := hfirst.run hw
    obtain ⟨τ', hrun'⟩ := ih (hfirst.sound hw)
    exact ⟨_, hrun.append hrun'⟩
  | skip _ _ _ ih => exact ih hw

theorem claimRewardsAndUpdatePosition_settles (hK : K.Contract) (hw : K.Sound w)
    {rewards : Coins × Coins}
    (hpos : (∃ v s, Delegated K w id pos a v s) ∨ Undelegated K w id pos a)
    (h : Succeeds (claimRewardsAndUpdatePosition K pos) w rewards w') :
    SettleRun K w [id] w' := by
  unfold claimRewardsAndUpdatePosition at h
  rcases hpos with ⟨v, s, hpos⟩ | hpos
  · rw [if_pos hpos.isDelegated] at h
    simp only [succeeds_bind, succeeds_pure] at h
    obtain ⟨base, w₁, hbase, ⟨pos₁, bonus⟩, w₂, hbonus, _, w₃, hset, _, rfl⟩ := h
    have haside := aside_claimBaseRewards hK hbase
    have hid : pos.toPosition.id = id := hw.indexed.id_eq id _ hpos.holds.stored
    obtain ⟨tier, val, rfl, hstore, hsettle⟩ :=
      claimBonus_settles hK hid (hpos.aside haside) hbonus
    have hold : w₂.store.positions[pos.toPosition.id]? = some pos.toPosition := by
      rw [hstore, haside.store, hid]
      exact hpos.holds.stored
    obtain ⟨_, rfl⟩ := setPosition_update
      (w₁.store.settled pos.toPosition s tier v w₁.ctx.blockTime) none hset hold
      (Position.sameIdentity_settled _ _ _ _ _ _) hpos.holds.account
    exact .settle (hsettle.of_aside haside) (.nil _)
  · rw [if_neg (by rw [hpos.isDelegated]; exact Bool.false_ne_true)] at h
    obtain ⟨_, rfl⟩ := succeeds_pure.mp h
    exact .skip hpos.holds hpos.idle (.nil w)

theorem SettleRun.append {ids ids' : List ℕ} {w₁ : World σ} (h : SettleRun K w ids w₁)
    (h' : SettleRun K w₁ ids' w') : SettleRun K w (ids ++ ids') w' := by
  induction h with
  | nil w => exact h'
  | settle hfirst _ ih => exact .settle hfirst (ih h')
  | skip hp hidle _ ih => exact .skip hp hidle (ih h')

theorem SettleRun.sound (h : SettleRun K w ids w') (hw : K.Sound w) : K.Sound w' := by
  obtain ⟨_, hrun⟩ := h.run hw
  exact hw.run hrun

/-- `claimRewardsAndUpdateTierPositions` settles the positions it runs over. -/
theorem claimRewardsAndUpdatePositionIds_settles (hK : K.Contract) {u : PUnit} (hw : K.Sound w)
    (h : Succeeds (claimRewardsAndUpdatePositionIds K ids) w u w') : SettleRun K w ids w' := by
  induction ids generalizing w with
  | nil =>
    obtain ⟨_, rfl⟩ := succeeds_pure.mp h
    exact .nil w
  | cons id ids ih =>
    unfold claimRewardsAndUpdatePositionIds at h
    simp only [succeeds_bind] at h
    obtain ⟨pos, _, hload, rewards, w₁, hclaim, hrest⟩ := h
    obtain ⟨rfl, a, hpos⟩ := loaded_cases hw hload
    have hfirst := claimRewardsAndUpdatePosition_settles hK hw hpos hclaim
    exact hfirst.append (ih (hfirst.sound hw) hrest)

theorem SettleRun.other (h : SettleRun K w ids w') (hw : K.Sound w) (hj : j ∉ ids)
    (hp : (K.view w).Holds K.accCodec j p b) : (K.view w').Holds K.accCodec j p b := by
  induction h with
  | nil w => exact hp
  | @settle w w₁ w' id ids q a v s tier val hfirst _ ih =>
    refine ih (hfirst.sound hw) (fun hmem ↦ hj (List.mem_cons_of_mem _ hmem)) ⟨?_, hp.account⟩
    change w₁.store.positions[j]? = _
    rw [hfirst.store]
    change (w.store.positions.insert q.id _)[j]? = _
    rw [hw.indexed.id_eq id q hfirst.holds.stored, getElem?_insert_ne]
    · exact hp.stored
    · rintro rfl
      exact hj List.mem_cons_self
  | skip _ _ _ ih => exact ih hw (fun hmem ↦ hj (List.mem_cons_of_mem _ hmem)) hp

theorem SettleRun.staking (h : SettleRun K w ids w') :
    K.staking w'.ext = K.staking w.ext := by
  induction h with
  | nil w => rfl
  | settle hfirst _ ih => exact ih.trans hfirst.outside.staking
  | skip _ _ _ ih => exact ih

theorem SettleRun.ctx (h : SettleRun K w ids w') : w'.ctx = w.ctx := by
  induction h with
  | nil w => rfl
  | settle hfirst _ ih => exact ih.trans hfirst.ctx
  | skip _ _ _ ih => exact ih

theorem SettleRun.tiers (h : SettleRun K w ids w') :
    w'.store.tiers = w.store.tiers ∧ w'.store.positionsByTier = w.store.positionsByTier := by
  induction h with
  | nil w => exact ⟨rfl, rfl⟩
  | settle hfirst _ ih =>
    rw [ih.1, ih.2, hfirst.store]
    exact ⟨rfl, rfl⟩
  | skip _ _ _ ih => exact ih

theorem SettleRun.held (h : SettleRun K w ids w') (hw : K.Sound w)
    (hb : (K.view w').Held K.accCodec b) : (K.view w).Held K.accCodec b := by
  induction h with
  | nil w => exact hb
  | @settle w w₁ w' id ids p a v s tier val hfirst _ ih =>
    obtain ⟨j, q, hq⟩ := (ih (hfirst.sound hw) hb).holds
    have hput : (K.view w₁).store.positions = (K.view w).store.positions.insert id
        (w.store.settled p s tier v w.ctx.blockTime) := by
      change w₁.store.positions = w.store.positions.insert id _
      rw [hfirst.store, ← hw.indexed.id_eq id p hfirst.holds.stored]
      rfl
    obtain ⟨r, hr⟩ := (Ledger.holds_put hfirst.holds (Position.sameIdentity_settled _ _ _ _ _ _)
      hput j b).mp ⟨q, hq⟩
    exact hr.held
  | skip _ _ _ ih => exact ih hw hb

/-- A position is loaded the same after other positions have been settled. -/
theorem SettleRun.loaded (h : SettleRun K w ids w') (hw : K.Sound w) (hj : j ∉ ids)
    (hpos : (∃ v s, Delegated K w j pos b v s) ∨ Undelegated K w j pos b) :
    (∃ v s, Delegated K w' j pos b v s) ∨ Undelegated K w' j pos b := by
  have hstakes : ∀ u, (K.view w').stakes b u = (K.view w).stakes b u := by
    intro u
    change (K.staking w'.ext).delegations[(b, u)]? = _
    rw [h.staking]
    rfl
  rcases hpos with ⟨v, s, hpos⟩ | hpos
  · exact Or.inl ⟨v, s, h.other hw hj hpos.holds, hpos.address, hpos.stake.congr (funext hstakes),
      hpos.delegation⟩
  · exact Or.inr ⟨h.other hw hj hpos.holds, hpos.address, hpos.idle.congr (funext hstakes),
      hpos.delegation⟩

/-- `claimRewardsAndUpdatesPositions` settles the positions it is given, when they were loaded from
the world it starts in and are pairwise different. -/
theorem claimRewardsAndUpdatesPositions_settles (hK : K.Contract) {positions : List PositionState}
    {totals : Coins × Coins} (hw : K.Sound w)
    (hnodup : (positions.map fun pos ↦ pos.id).Nodup)
    (hloaded : ∀ pos ∈ positions, ∃ a, (∃ v s, Delegated K w pos.id pos a v s) ∨
      Undelegated K w pos.id pos a)
    (h : Succeeds (claimRewardsAndUpdatesPositions K positions base bonus) w totals w') :
    SettleRun K w (positions.map fun pos ↦ pos.id) w' := by
  induction positions generalizing w base bonus with
  | nil =>
    obtain ⟨_, rfl⟩ := succeeds_pure.mp h
    exact .nil w
  | cons pos positions ih =>
    unfold claimRewardsAndUpdatesPositions at h
    simp only [succeeds_bind] at h
    obtain ⟨rewards, w₁, hclaim, hrest⟩ := h
    obtain ⟨a, hpos⟩ := hloaded pos List.mem_cons_self
    have hfirst := claimRewardsAndUpdatePosition_settles hK hw hpos hclaim
    obtain ⟨hnew, hnodup'⟩ := List.nodup_cons.mp hnodup
    refine hfirst.append (ih (hfirst.sound hw) hnodup' ?_ hrest)
    intro other hother
    obtain ⟨b, hloadedOther⟩ := hloaded other (List.mem_cons_of_mem _ hother)
    refine ⟨b, hfirst.loaded hw ?_ hloadedOther⟩
    rw [List.mem_singleton]
    intro heq
    exact hnew (List.mem_map.mpr ⟨other, hother, heq⟩)

/-- The position with an id is settled if it is staked. -/
def SettledAt (K : Keepers σ) (w : World σ) (id : ℕ) : Prop :=
  ∀ p a v s, (K.view w).Holds K.accCodec id p a → (K.view w).StakedOn a v s → (K.view w).Settled p v

theorem Settlement.settledAt {covered : Bool}
    (h : Settlement K w id p a v s tier val covered w') (hw : K.Sound w) :
    SettledAt K w' id := by
  intro q b u t hq hstake
  have hp := h.holds_after hw
  obtain rfl := Option.mem_unique hp.stored hq.stored
  obtain rfl := Option.mem_unique hp.account hq.account
  obtain ⟨rfl, _⟩ := h.stakedOn_after.unique hstake
  exact h.settled hw

theorem Settlement.settledAt_other {covered : Bool}
    (h : Settlement K w id p a v s tier val covered w') (hw : K.Sound w)
    (hj : j ≠ id) (hsettled : SettledAt K w j) : SettledAt K w' j := by
  intro q b u t hq hstake
  have hold : (K.view w).Holds K.accCodec j q b := by
    refine ⟨?_, hq.account⟩
    have hstored := hq.stored
    change w'.store.positions[j]? = _ at hstored
    rw [h.store] at hstored
    change (w.store.positions.insert p.id _)[j]? = _ at hstored
    rwa [hw.indexed.id_eq id p h.holds.stored, getElem?_insert_ne (Ne.symm hj)] at hstored
  have hstake₀ : (K.view w).StakedOn b u t := by
    intro x
    have hx := hstake x
    change (K.staking w'.ext).delegations[(b, x)]? = _ at hx
    rw [h.outside.staking] at hx
    exact hx
  have hbefore := hsettled q b u t hold hstake₀
  constructor
  · refine hbefore.seq.trans ?_
    change _ = w'.store.getValidatorEventLatestSeq u
    rw [h.store]
    rfl
  · refine hbefore.bonded.trans ?_
    change _ = (K.staking w'.ext).isBonded u
    rw [h.outside.staking]
    rfl
  · refine hbefore.accrual.trans ?_
    have hnow : (K.view w').now = (K.view w).now := congrArg Context.blockTime h.ctx
    rw [hnow]

theorem SettleRun.settledAt (h : SettleRun K w ids w')
    (hw : K.Sound w) (hj : j ∈ ids ∨ SettledAt K w j) :
    SettledAt K w' j := by
  induction h with
  | nil w =>
    rcases hj with hj | hj
    · cases hj
    · exact hj
  | @settle w w₁ w' id ids p a v s tier val hfirst _ ih =>
    refine ih (hfirst.sound hw) ?_
    by_cases hid : j = id
    · subst hid
      exact Or.inr (hfirst.settledAt hw)
    · rcases hj with hj | hj
      · exact Or.inl (List.mem_of_ne_of_mem hid hj)
      · exact Or.inr (hfirst.settledAt_other hw hid hj)
  | @skip w w' id ids p a hp hidle _ ih =>
    refine ih hw ?_
    by_cases hid : j = id
    · subst hid
      refine Or.inr fun q b u t hq hstake ↦ ?_
      obtain rfl := Option.mem_unique hp.stored hq.stored
      obtain rfl := Option.mem_unique hp.account hq.account
      exact absurd hidle hstake.not_idle
    · exact hj.imp (List.mem_of_ne_of_mem hid) fun h ↦ h

end ChainMain.TieredRewards
