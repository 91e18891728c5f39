import ChainMain.TieredRewards.StakingContract

/-!
# What the stateful checks establish

A message whose stateful check succeeds has changed nothing yet, and the position it names meets the
conditions of `msg_validate.go`. In a valid position the unlock time is set only together with the
trigger time, so a lock that has run out was triggered.
-/

set_option autoImplicit false

namespace ChainMain.TieredRewards

open Foundations Decimal OrderedStore StoreProgram

variable {σ : Type} {K : Keepers σ} {w w' : World σ} {pos : PositionState} {a : AccAddress}
variable {u : PUnit} {p : Position} {owner : String}

/-! ### The stateful checks -/

theorem succeeds_validateUndelegatePosition
    (h : Succeeds (validateUndelegatePosition pos owner) w u w') :
    w' = w ∧ pos.isOwner owner ∧ pos.isDelegated ∧ pos.hasTriggeredExit ∧
      pos.completedExitLockDuration w.ctx.blockTime := by
  unfold validateUndelegatePosition at h
  simp only [succeeds_bind, succeeds_ensure, succeeds_get] at h
  obtain ⟨_, _, ⟨howner, rfl⟩, _, _, ⟨hdel, rfl⟩, _, _, ⟨hexit, rfl⟩, _, _, ⟨rfl, rfl⟩, hlock,
    rfl⟩ := h
  exact ⟨rfl, howner, hdel, hexit, hlock⟩

theorem redelegationsOf_eq_nil :
    (K.staking w.ext).redelegationsOf a = [] ↔ (K.view w).NotRedelegating a := by
  unfold Staking.redelegationsOf
  rw [List.map_eq_nil_iff, List.filter_eq_nil_iff]
  constructor
  · rintro hnone u red hred rfl
    exact hnone (u, red) (mem_toList.mpr hred) (beq_self_eq_true _)
  · rintro hnone ⟨u, red⟩ hmem heq
    exact hnone u red (mem_toList.mp hmem) (beq_iff_eq.mp heq)

theorem succeeds_rejectRedelegating (h : Succeeds (rejectRedelegating K p) w u w') :
    w' = w ∧ ∃ b, K.accCodec.stringToBytes p.delegatorAddress = some b ∧
      (K.view w).NotRedelegating b := by
  unfold rejectRedelegating at h
  simp only [succeeds_bind, succeeds_isRedelegating, succeeds_ensure] at h
  obtain ⟨_, _, ⟨⟨b, hb, rfl⟩, rfl⟩, hnone, rfl⟩ := h
  refine ⟨rfl, b, hb, redelegationsOf_eq_nil.mp ?_⟩
  rwa [Bool.not_not, List.isEmpty_iff] at hnone

theorem notUnbonding_of_nil (h : (K.staking w.ext).unbondingDelegationsOf a = []) :
    (K.view w).NotUnbonding a := by
  unfold Staking.unbondingDelegationsOf at h
  rw [List.map_eq_nil_iff, List.filter_eq_nil_iff] at h
  intro v
  change ((K.staking w.ext).unbondingDelegations[(a, v)]?).isSome = false
  cases hentries : (K.staking w.ext).unbondingDelegations[(a, v)]? with
  | none => rfl
  | some entries =>
    exact absurd (beq_self_eq_true a) (h ((a, v), entries) (mem_toList.mpr hentries))

theorem succeeds_rejectUnbonding (h : Succeeds (rejectUnbonding K p) w u w') :
    w' = w ∧ ∃ b, K.accCodec.stringToBytes p.delegatorAddress = some b ∧
      (K.view w).NotUnbonding b := by
  unfold rejectUnbonding at h
  simp only [succeeds_bind, succeeds_isUnbonding, succeeds_ensure] at h
  obtain ⟨_, _, ⟨⟨b, hb, rfl⟩, rfl⟩, hnone, rfl⟩ := h
  refine ⟨rfl, b, hb, notUnbonding_of_nil ?_⟩
  rwa [Bool.not_not, List.isEmpty_iff] at hnone

theorem succeeds_validateRedelegatePosition {owner dstValidator : String}
    (h : Succeeds (validateRedelegatePosition K pos owner dstValidator) w u w') :
    w' = w ∧ pos.isOwner owner ∧ pos.isDelegated ∧
      (pos.hasTriggeredExit && pos.completedExitLockDuration w.ctx.blockTime) = false ∧
      ∃ b, K.accCodec.stringToBytes pos.delegatorAddress = some b ∧
        (K.view w).NotRedelegating b := by
  unfold validateRedelegatePosition at h
  simp only [succeeds_bind, succeeds_ensure, succeeds_get, succeeds_getTier] at h
  obtain ⟨_, _, ⟨howner, rfl⟩, _, _, ⟨hdel, rfl⟩, _, _, ⟨_, rfl⟩, _, _, ⟨rfl, rfl⟩, _, _,
    ⟨hopen, rfl⟩, _, _, ⟨_, rfl⟩, _, _, ⟨_, rfl⟩, hreject⟩ := h
  obtain ⟨rfl, hnone⟩ := succeeds_rejectRedelegating hreject
  exact ⟨rfl, howner, hdel, by rwa [Bool.not_eq_true'] at hopen, hnone⟩

theorem succeeds_validateAddToPosition (h : Succeeds (validateAddToPosition pos owner) w u w') :
    w' = w ∧ pos.isOwner owner ∧ pos.isDelegated := by
  unfold validateAddToPosition at h
  simp only [succeeds_bind, succeeds_ensure, succeeds_getTier] at h
  obtain ⟨_, _, ⟨howner, rfl⟩, _, _, ⟨hdel, rfl⟩, _, _, ⟨_, rfl⟩, _, _, ⟨_, rfl⟩, _, rfl⟩ := h
  exact ⟨rfl, howner, hdel⟩

theorem succeeds_validateTriggerExit (h : Succeeds (validateTriggerExit p owner) w u w') :
    w' = w ∧ p.isOwner owner ∧ p.exitTriggeredAt = 0 := by
  unfold validateTriggerExit at h
  simp only [succeeds_bind, succeeds_ensure] at h
  obtain ⟨_, _, ⟨howner, rfl⟩, hquiet, rfl⟩ := h
  refine ⟨rfl, howner, ?_⟩
  unfold Position.hasTriggeredExit at hquiet
  simpa using hquiet

theorem succeeds_validateClearPosition
    (h : Succeeds (validateClearPosition K pos owner) w u w') : w' = w ∧ pos.isOwner owner := by
  unfold validateClearPosition at h
  simp only [succeeds_bind, succeeds_ensure, succeeds_get] at h
  obtain ⟨_, _, ⟨howner, rfl⟩, _, _, ⟨rfl, rfl⟩, hrest⟩ := h
  refine ⟨?_, howner⟩
  rcases succeeds_ite.mp hrest with ⟨_, hrest⟩ | ⟨_, hrest⟩
  · simp only [validateClearUnlocked, succeeds_bind, succeeds_ensure, succeeds_getTier] at hrest
    obtain ⟨_, _, ⟨_, _, hreject, _, rfl⟩, _, _, ⟨_, rfl⟩, _, rfl⟩ := hrest
    exact (succeeds_rejectUnbonding hreject).1
  · simp only [succeeds_bind, succeeds_ensure, succeeds_getTier] at hrest
    obtain ⟨_, _, ⟨_, rfl⟩, _, rfl⟩ := hrest
    rfl

theorem succeeds_validateWithdrawFromTier
    (h : Succeeds (validateWithdrawFromTier K pos owner) w u w') :
    w' = w ∧ pos.isOwner owner ∧ pos.hasTriggeredExit ∧
      pos.completedExitLockDuration w.ctx.blockTime ∧ pos.isDelegated = false ∧
      ∃ b, K.accCodec.stringToBytes pos.delegatorAddress = some b ∧
        (K.view w).NotUnbonding b := by
  unfold validateWithdrawFromTier at h
  simp only [succeeds_bind, succeeds_ensure, succeeds_get] at h
  obtain ⟨_, _, ⟨howner, rfl⟩, _, _, ⟨hexit, rfl⟩, _, _, ⟨rfl, rfl⟩, _, _, ⟨hlock, rfl⟩, _, _,
    ⟨hdel, rfl⟩, hreject⟩ := h
  obtain ⟨rfl, hunbonding⟩ := succeeds_rejectUnbonding hreject
  exact ⟨rfl, howner, hexit, hlock, by simpa using hdel, hunbonding⟩

theorem succeeds_validateExitTierWithDelegation {amount : ℤ}
    (h : Succeeds (validateExitTierWithDelegation K pos owner amount) w u w') :
    w' = w ∧ pos.isOwner owner ∧ pos.isDelegated ∧ pos.hasTriggeredExit ∧
      pos.completedExitLockDuration w.ctx.blockTime ∧
      ∃ positionAmount, Succeeds (getPositionAmount K pos) w positionAmount w ∧
        amount ≤ positionAmount := by
  unfold validateExitTierWithDelegation at h
  simp only [succeeds_bind, succeeds_ensure, succeeds_get] at h
  obtain ⟨_, _, ⟨howner, rfl⟩, _, _, ⟨hdel, rfl⟩, _, _, ⟨hexit, rfl⟩, _, _, ⟨rfl, rfl⟩, _, _,
    ⟨hlock, rfl⟩, _, _, hamount, _, _, ⟨hle, rfl⟩, hreject⟩ := h
  obtain rfl := getPositionAmount_reads hamount
  exact ⟨(succeeds_rejectRedelegating hreject).1, howner, hdel, hexit, hlock, _, hamount,
    of_decide_eq_true hle⟩

/-- The list can be loaded when every position is there and belongs to the owner. -/
theorem succeeds_loadClaimedPositions_iff {ids : List ℕ} {positions : List PositionState} :
    Succeeds (loadClaimedPositions K owner ids) w positions w' ↔
      List.Forall₂ (fun id pos ↦ Succeeds (getPositionState K id) w pos w ∧
        pos.isOwner owner = true)
        ids positions ∧ w' = w := by
  induction ids generalizing positions with
  | nil =>
    rw [List.forall₂_nil_left_iff]
    refine succeeds_pure.trans ?_
    rw [eq_comm, eq_comm (a := w)]
  | cons id ids ih =>
    unfold loadClaimedPositions validateClaimRewards
    simp only [succeeds_bind, succeeds_ensure, succeeds_pure]
    constructor
    · rintro ⟨pos, w₀, hload, _, _, ⟨howner, rfl⟩, rest, w₁, hrest, rfl, rfl⟩
      obtain ⟨_, _, rfl⟩ := succeeds_getPositionState.mp hload
      obtain ⟨hall, rfl⟩ := ih.mp hrest
      exact ⟨.cons ⟨hload, howner⟩ hall, rfl⟩
    · rintro ⟨hall, rfl⟩
      cases hall with
      | cons hfirst hrest =>
        exact ⟨_, _, hfirst.1, ⟨⟩, _, ⟨hfirst.2, rfl⟩, _, _, ih.mpr ⟨hrest, rfl⟩, rfl, rfl⟩

/-- The positions of a list that belong to an owner can be loaded. -/
def Loadable (K : Keepers σ) (w : World σ) (owner : String) (ids : List ℕ) : Prop :=
  ∀ id ∈ ids, ∃ pos, Succeeds (getPositionState K id) w pos w ∧ pos.isOwner owner = true

theorem loadable_iff {ids : List ℕ} :
    Loadable K w owner ids ↔
      ∃ positions, Succeeds (loadClaimedPositions K owner ids) w positions w := by
  simp only [succeeds_loadClaimedPositions_iff, and_true]
  constructor
  · intro h
    induction ids with
    | nil => exact ⟨[], .nil⟩
    | cons id ids ih =>
      obtain ⟨pos, hpos⟩ := h id List.mem_cons_self
      obtain ⟨positions, hrest⟩ := ih fun i hi ↦ h i (List.mem_cons_of_mem _ hi)
      exact ⟨pos :: positions, .cons hpos hrest⟩
  · rintro ⟨positions, hall⟩ id hid
    induction hall with
    | nil => cases hid
    | cons hfirst _ ih =>
      rcases List.mem_cons.mp hid with rfl | hid
      · exact ⟨_, hfirst⟩
      · exact ih hid

/-- A valid position whose lock has run out has triggered its exit. -/
theorem hasTriggeredExit_of_completed {codec : AddressCodec} {now : Time}
    (hvalid : p.validate codec = .ok ()) (h : p.completedExitLockDuration now) :
    p.hasTriggeredExit := by
  unfold Position.completedExitLockDuration at h
  rw [Bool.and_eq_true, decide_eq_true_eq] at h
  unfold Position.hasTriggeredExit
  rw [decide_eq_true_eq]
  intro hzero
  unfold Position.validate at hvalid
  split_ifs at hvalid with h₁ h₂ h₃
  exact h₃ ⟨hzero, h.1⟩

end ChainMain.TieredRewards
