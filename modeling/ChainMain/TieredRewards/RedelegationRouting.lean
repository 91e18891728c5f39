import ChainMain.TieredRewards.ChainRuns
import ChainMain.TieredRewards.ReferenceKeepers

/-!
# The routing of redelegation slashes

A redelegation slash names an unbonding id, and the module finds the position it concerns by its own
mapping. `RoutesSlashes` says that the mapping is the truth: the ids mapped to a position are those
of the unmatured entries of its delegator address, every mapped position is stored, and the hook
settles the position whose stake is about to be slashed and leaves every other position alone.
-/

set_option autoImplicit false

namespace ChainMain.TieredRewards

open Foundations Decimal OrderedStore StoreProgram

variable {σ : Type} {K : Keepers σ} {w w' : World σ}

/-- A position as it is stored after the hook before a slash: settled up to now on its validator,
and without checkpoints when the slash takes all its shares. Its bonus is paid, unless the rewards
pool does not cover it. -/
structure SettledForSlash (K : Keepers σ) (w : World σ) (id : ℕ) (p : Position) (a : AccAddress)
    (v : ValAddress) (s shares : Dec) (w' : World σ) : Prop where
  stored : ∃ tier, w.store.tiers[p.tierId]? = some tier ∧
    w'.store.positions[id]? = some
      (if s ≤ shares then
        (w.store.settled p s tier v w.ctx.blockTime).clearBonusCheckpoints
      else w.store.settled p s tier v w.ctx.blockTime)
  paid : ∃ tier val, w.store.tiers[p.tierId]? = some tier ∧
    (K.staking w.ext).validators[v]? = some val ∧
    (bonusPaid w'.emitted id = bonusPaid w.emitted id +
        w.store.bonus p s tier v val.isBonded val.tokensPerShare w.ctx.blockTime ∨
      ∃ pos e, Succeeds (getPositionState K id) w pos w ∧
        ((processEventsAndClaimBonus K pos).run w).1.2 = .error e ∧ e.is .insufficientBonusPool)

/-- Redelegation slashes find the position they concern. -/
structure RoutesSlashes (K : Keepers σ) (w : World σ) : Prop where
  mapping : ∀ (id : ℕ) (p : Position) (a : AccAddress), w.store.positions[id]? = some p →
    K.accCodec.stringToBytes p.delegatorAddress = some a → ∀ u : ℕ,
      (w.store.redelegationMappings[u]? = some id ↔
        ∃ red, (K.staking w.ext).redelegations[u]? = some red ∧ red.delegator = a)
  stored : ∀ u id : ℕ, w.store.redelegationMappings[u]? = some id →
    ∃ p, w.store.positions[id]? = some p
  /-- The position whose stake is slashed is settled. -/
  settles : ∀ (u : ℕ) (red : Redelegation) (shares : Dec) (w' : World σ),
    (K.staking w.ext).redelegations[u]? = some red →
    Succeeds (beforeRedelegationSlashed K u shares) w ⟨⟩ w' →
    ∀ (id : ℕ) (p : Position) (s : Dec), w.store.positions[id]? = some p →
      K.accCodec.stringToBytes p.delegatorAddress = some red.delegator →
      (K.staking w.ext).delegations[(red.delegator, red.dst)]? = some s →
        SettledForSlash K w id p red.delegator red.dst s shares w'
  /-- No other position is. -/
  spares : ∀ (u : ℕ) (red : Redelegation) (shares : Dec) (w' : World σ),
    (K.staking w.ext).redelegations[u]? = some red →
    Succeeds (beforeRedelegationSlashed K u shares) w ⟨⟩ w' →
    ∀ (id : ℕ) (p : Position), w.store.positions[id]? = some p →
      K.accCodec.stringToBytes p.delegatorAddress ≠ some red.delegator →
        w'.store.positions[id]? = some p ∧ bonusPaid w'.emitted id = bonusPaid w.emitted id

theorem settledForSlash_of_slash (hK : K.Contract) (hw : K.Sound w) {id : ℕ}
    {pos : PositionState} {a : AccAddress} {v : ValAddress} {s shares : Dec}
    (hload : Succeeds (getPositionState K id) w pos w) (hpos : Delegated K w id pos a v s)
    (h : Succeeds (slashDelegatedPosition K pos
      ⟨K.accCodec.bytesToString a, K.valCodec.bytesToString v, s⟩ shares) w ⟨⟩ w') :
    SettledForSlash K w id pos.toPosition a v s shares w' := by
  obtain ⟨tier, val, covered, p, w₀, hsettlement, hcovered, rfl, _, _, _, hwrites⟩ :=
    slashDelegatedPosition_settles hK hw hpos h
  have hid : pos.toPosition.id = id := hw.indexed.id_eq id _ hpos.holds.stored
  have hemitted : w'.emitted = w₀.emitted := by
    rcases hwrites with ⟨_, rfl⟩ | ⟨_, rfl⟩ <;> rfl
  refine ⟨⟨tier, hsettlement.tierStored, ?_⟩,
    ⟨tier, val, hsettlement.tierStored, hsettlement.validator, ?_⟩⟩
  · rcases hwrites with ⟨hall, rfl⟩ | ⟨hrest, rfl⟩
    · rw [if_pos hall]
      change (w₀.store.positions.insert pos.toPosition.id _)[id]? = _
      rw [hid, getElem?_insert_eq, if_pos rfl]
    · rw [if_neg (not_le.mpr (sub_pos.mp hrest))]
      change (w₀.store.positions.insert pos.toPosition.id _)[id]? = _
      rw [hid, getElem?_insert_eq, if_pos rfl]
  · have hpaid := congrFun hsettlement.paid id
    change bonusPaid w₀.emitted id = _ at hpaid
    rw [hemitted]
    cases covered with
    | true =>
      rw [if_pos rfl, Function.update_self] at hpaid
      exact Or.inl hpaid
    | false =>
      obtain ⟨e, herror, hpool⟩ := hcovered rfl
      exact Or.inr ⟨pos, e, hload, herror, hpool⟩

theorem spared_by_slash (hK : K.Contract) (hw : K.Sound w) {id j : ℕ}
    {pos : PositionState} {a : AccAddress} {v : ValAddress} {s shares : Dec} {q : Position}
    (hpos : Delegated K w id pos a v s)
    (h : Succeeds (slashDelegatedPosition K pos
      ⟨K.accCodec.bytesToString a, K.valCodec.bytesToString v, s⟩ shares) w ⟨⟩ w')
    (hq : w.store.positions[j]? = some q) (hne : id ≠ j) :
    w'.store.positions[j]? = some q ∧ bonusPaid w'.emitted j = bonusPaid w.emitted j := by
  obtain ⟨tier, val, covered, p, w₀, hsettlement, _, rfl, hpositions, _, _, hwrites⟩ :=
    slashDelegatedPosition_settles hK hw hpos h
  have hid : pos.toPosition.id = id := hw.indexed.id_eq id _ hpos.holds.stored
  have hother : ∀ r : Position,
      (w₀.store.positions.insert pos.toPosition.id r)[j]? = some q := by
    intro r
    rw [hid, getElem?_insert_ne hne, hpositions]
    exact hq
  have hpaid : bonusPaid w₀.emitted j = bonusPaid w.emitted j := by
    have hpaid := congrFun hsettlement.paid j
    change bonusPaid w₀.emitted j = _ at hpaid
    cases covered with
    | true =>
      rw [if_pos rfl, Function.update_of_ne hne.symm] at hpaid
      exact hpaid
    | false => exact hpaid
  rcases hwrites with ⟨_, rfl⟩ | ⟨_, rfl⟩
  · exact ⟨hother _, hpaid⟩
  · exact ⟨hother _, hpaid⟩

/-- In every reachable world redelegation slashes find the position they concern. -/
theorem redelegation_slashes_routed (hK : K.Contract) (h : Reachable K w) : RoutesSlashes K w := by
  have hw := h.sound hK
  have hmapping := hw.mapped.mapping
  constructor
  · intro id p a hp ha u
    have hholds : (K.view w).Holds K.accCodec id p a := ⟨hp, ha⟩
    constructor
    · intro hu
      obtain ⟨red, ⟨q, hq⟩, hred⟩ := (hmapping u id).mp hu
      obtain rfl := Option.mem_unique hq.stored hp
      exact ⟨red, hred, Option.mem_unique hq.account ha⟩
    · rintro ⟨red, hred, rfl⟩
      exact (hmapping u id).mpr ⟨red, ⟨p, hholds⟩, hred⟩
  · intro u id hu
    obtain ⟨_, ⟨p, hp⟩, _⟩ := (hmapping u id).mp hu
    exact ⟨p, hp.stored⟩
  · intro u red shares w' hentry hhook id p s hp ha hstake
    have hholds : (K.view w).Holds K.accCodec id p red.delegator := ⟨hp, ha⟩
    cases beforeSlash_of_succeeds hw hentry hhook with
    | free _ hfree => exact absurd hholds.held hfree
    | idle _ _ hidle => cases hstake.symm.trans (hidle red.dst)
    | staked _ hload hpos hslash =>
      obtain rfl := hw.accounted.distinct _ _ _ _ _ hpos.holds hholds
      obtain rfl := Option.mem_unique hpos.holds.stored hp
      obtain rfl := Option.mem_unique hpos.stake.stakes_eq hstake
      exact settledForSlash_of_slash hK hw hload hpos hslash
  · intro u red shares w' hentry hhook id p hp hother
    cases beforeSlash_of_succeeds hw hentry hhook with
    | free => exact ⟨hp, rfl⟩
    | idle => exact ⟨hp, rfl⟩
    | staked _ _ hpos hslash =>
      refine spared_by_slash hK hw hpos hslash hp ?_
      rintro rfl
      obtain rfl := Option.mem_unique hpos.holds.stored hp
      exact hother hpos.holds.account

/-- In the reference history the owner has moved the position to the second validator, and a tenth
of its shares is slashed. -/
theorem redelegation_slashes_routed_history :
    SettledForSlash Reference.keepers Reference.redelegated 0
      (Reference.position.updateBonusCheckpoints 0 Reference.world₄.ctx.blockTime true) 10 2
      (Dec.ofInt 1000000) (Dec.ofInt 100000)
      (exec (beforeRedelegationSlashed Reference.keepers 1 (Dec.ofInt 100000))
        Reference.redelegated).2 :=
  (redelegation_slashes_routed Reference.keepers_contract Reference.reachable_redelegated).settles 1
    ⟨10, 1, 2⟩ _ _ (by decide +kernel) (Reference.succeeds_exec (by decide +kernel)) 0 _ _
    (by decide +kernel) (by decide +kernel) (by decide +kernel)

end ChainMain.TieredRewards
