import ChainMain.TieredRewards.ChainRuns

/-!
# Frames of the keeper

Which functions of the keeper leave a part of the world alone. A part that lies outside the module's
own store (`ReadsOutside`) survives every write to the store. A part that also survives the calls of
a settlement, of a transfer back to the owner and of a deletion (`Keepers.Keeps`) survives the
functions that make no other calls: `claimRewards`, `transferDelegationFromPosition`,
`deletePosition`. The proofs go through the functions as they are written, call by call (`Leaves`).
-/

set_option autoImplicit false

namespace ChainMain.TieredRewards

open Foundations Decimal OrderedStore StoreProgram

variable {σ γ : Type} {K : Keepers σ} {g : World σ → γ}

/-- A part of the world that the block and the other modules determine. -/
def ReadsOutside (g : World σ → γ) : Prop :=
  ∀ w w' : World σ, w'.ctx = w.ctx → w'.ext = w.ext → g w' = g w

/-- A part of the world that a settlement, a transfer of a delegation and a deletion leave alone. -/
structure Keepers.Keeps (K : Keepers σ) (g : World σ → γ) : Prop where
  outside : ReadsOutside g
  sendCoinsFromModuleToAccount : ∀ (w : World σ) pool dst coins ext,
    K.sendCoinsFromModuleToAccount w.ctx w.ext pool dst coins = .ok ext →
      g { w with ext := ext } = g w
  withdrawDelegationRewards : ∀ (w : World σ) del v coins ext,
    K.withdrawDelegationRewards w.ctx w.ext del v = .ok (coins, ext) → g { w with ext := ext } = g w
  deleteDelegatorWithdrawAddr : ∀ (w : World σ) del owner ext,
    K.deleteDelegatorWithdrawAddr w.ctx w.ext del owner = .ok ext → g { w with ext := ext } = g w
  /-- A delegation of tokens that are in the pools of staking already. -/
  delegate : ∀ (w : World σ) del amount status v shares ext,
    K.delegate w.ctx w.ext del amount status v false = .ok (shares, ext) →
      g { w with ext := ext } = g w
  unbond : ∀ (w : World σ) del v shares amount removed ext,
    K.unbond w.ctx w.ext del v shares = .ok ((amount, removed), ext) → g { w with ext := ext } = g w

/-! ### Reads and calls -/

section Calls

theorem leaves_call {α : Type} {f : Context → σ → Except Err (α × σ)}
    (h : ∀ (w : World σ) a ext, f w.ctx w.ext = .ok (a, ext) → g { w with ext := ext } = g w) :
    Leaves g (call f) := by
  intro w a w' hcall
  obtain ⟨ext, hok, rfl⟩ := succeeds_call.mp hcall
  exact h _ _ _ hok

theorem leaves_callUnit {f : Context → σ → Except Err σ}
    (h : ∀ (w : World σ) ext, f w.ctx w.ext = .ok ext → g { w with ext := ext } = g w) :
    Leaves g (callUnit f) := by
  intro w a w' hcall
  obtain ⟨ext, hok, rfl⟩ := succeeds_callUnit.mp hcall
  exact h _ _ hok

theorem leaves_getPositionState (id : ℕ) : Leaves g (getPositionState K id) :=
  leaves_of_reads fun _ _ _ h ↦ (succeeds_getPositionState.mp h).2.2.symm

theorem leaves_getTier (id : ℕ) : Leaves g (getTier id) :=
  leaves_of_reads fun _ _ _ h ↦ (succeeds_getTier.mp h).2.symm

theorem leaves_getValidator (v : ValAddress) : Leaves g (getValidator K v) :=
  leaves_of_reads fun _ _ _ h ↦ (succeeds_getValidator.mp h).2.symm

theorem leaves_reconcileAmountFromShares (v : ValAddress) (shares : Dec) :
    Leaves g (reconcileAmountFromShares K v shares) :=
  leaves_of_reads fun _ _ _ h ↦ (reconcileAmountFromShares_reads h).symm

theorem leaves_getBondedValidator (v : ValAddress) (notFound : ErrCode) :
    Leaves g (getBondedValidator K v notFound) :=
  leaves_bind leaves_get fun _ ↦ leaves_bind (leaves_expect _ _) fun _ ↦
    leaves_bind (leaves_ensure _ _) fun _ ↦ leaves_pure _

end Calls

/-! ### Writes to the store -/

section Writes

variable (hg : ReadsOutside g)

include hg

theorem leaves_modifyStore (f : Store → Store) : Leaves g (modifyStore f : M σ PUnit) :=
  leaves_modify fun w ↦ hg w _ rfl rfl

theorem leaves_emit (event : Event) : Leaves g (emit event) :=
  leaves_modify fun w ↦ hg w _ rfl rfl

theorem leaves_callRemoving {α : Type} {f : Context → σ → Except Err ((α × List ValAddress) × σ)}
    (h : ∀ (w : World σ) a removed ext, f w.ctx w.ext = .ok ((a, removed), ext) →
      g { w with ext := ext } = g w) :
    Leaves g (callRemoving f) :=
  leaves_bind (leaves_call fun w a ext hok ↦ h w a.1 a.2 ext hok) fun _ ↦
    leaves_bind (leaves_modifyStore hg _) fun _ ↦ leaves_pure _

theorem leaves_reindexPositionCountByValidator (src dst : String) :
    Leaves g (reindexPositionCountByValidator K src dst) := by
  have hdst : Leaves g (if dst ≠ "" then do
      let v ← valAddressFromBech32 K dst bech32Error
      modifyStore fun s ↦ s.increasePositionCountForValidator v
      else pure ⟨⟩) :=
    leaves_ite (leaves_bind (leaves_expect _ _) fun _ ↦ leaves_modifyStore hg _) (leaves_pure _)
  unfold reindexPositionCountByValidator
  dsimp only
  refine leaves_ite (leaves_pure _) (leaves_ite ?_ hdst)
  exact leaves_bind (leaves_expect _ _) fun _ ↦ leaves_bind (leaves_modifyStore hg _) fun _ ↦ hdst

theorem leaves_applyTransition (update : Option ValidatorTransition) (currVal : String) :
    Leaves g (applyTransition K update currVal) := by
  cases update with
  | none => exact leaves_pure _
  | some update => exact leaves_reindexPositionCountByValidator hg _ _

theorem leaves_reindexPosition (oldPos pos : Position) :
    Leaves g (reindexPosition K oldPos pos) := by
  unfold reindexPosition
  dsimp only
  have htier : Leaves g (if oldPos.tierId ≠ pos.tierId then do
      modifyStore fun s ↦
        { s with positionsByTier := s.positionsByTier.erase (oldPos.tierId, pos.id) }
      modifyStore fun s ↦
        { s with positionsByTier := s.positionsByTier.insert (pos.tierId, pos.id) () }
      modifyStore fun s ↦ s.decreasePositionCountForTier oldPos.tierId
      modifyStore fun s ↦ s.increasePositionCountForTier pos.tierId
      else (pure ⟨⟩ : M σ PUnit)) := by
    refine leaves_ite ?_ (leaves_pure _)
    refine leaves_bind (leaves_modifyStore hg _) fun _ ↦
      leaves_bind (leaves_modifyStore hg _) fun _ ↦ ?_
    exact leaves_bind (leaves_modifyStore hg _) fun _ ↦ leaves_modifyStore hg _
  refine leaves_ite ?_ htier
  refine leaves_bind (leaves_expect _ _) fun _ ↦ leaves_bind (leaves_modifyStore hg _) fun _ ↦ ?_
  exact leaves_bind (leaves_expect _ _) fun _ ↦ leaves_bind (leaves_modifyStore hg _) fun _ ↦ htier

theorem leaves_indexPosition (oldPos : Option Position) (pos : Position) :
    Leaves g (indexPosition K oldPos pos) := by
  cases oldPos with
  | none =>
    refine leaves_bind (leaves_expect _ _) fun _ ↦ leaves_bind (leaves_modifyStore hg _) fun _ ↦ ?_
    exact leaves_bind (leaves_modifyStore hg _) fun _ ↦ leaves_modifyStore hg _
  | some oldPos => exact leaves_reindexPosition hg oldPos pos

theorem leaves_setPositionWithState (state : PositionState) (update : Option ValidatorTransition) :
    Leaves g (setPositionWithState K state update) := by
  refine leaves_bind (leaves_fromOutcome _) fun _ ↦ leaves_bind leaves_get fun _ ↦ ?_
  refine leaves_bind (leaves_modifyStore hg _) fun _ ↦ ?_
  exact leaves_bind (leaves_indexPosition hg _ _) fun _ ↦ leaves_applyTransition hg _ _

theorem leaves_setPosition (pos : Position) (update : Option ValidatorTransition) :
    Leaves g (setPosition K pos update) :=
  leaves_bind (leaves_of_reads fun _ _ _ h ↦ (succeeds_getDelegation.mp h).2.symm) fun _ ↦
    leaves_setPositionWithState hg _ _

theorem leaves_deletePosition (pos : Position) (update : Option ValidatorTransition)
    (h : ∀ (w : World σ) del owner ext,
      K.deleteDelegatorWithdrawAddr w.ctx w.ext del owner = .ok ext →
        g { w with ext := ext } = g w) :
    Leaves g (deletePosition K pos update) := by
  refine leaves_bind (leaves_expect _ _) fun owner ↦
    leaves_bind (leaves_expect _ _) fun delAddr ↦ ?_
  refine leaves_bind (leaves_of_reads fun _ _ _ h ↦ (succeeds_getDelegation.mp h).2.symm)
    fun del ↦ ?_
  have hreject : Leaves g (rejectDelegated pos.id del : M σ PUnit) := by
    cases del with
    | none => exact leaves_pure _
    | some del => exact leaves_throw _
  refine leaves_bind hreject fun _ ↦
    leaves_bind (leaves_callUnit fun w ext ↦ h w _ _ ext) fun _ ↦ ?_
  refine leaves_bind (leaves_modifyStore hg _) fun _ ↦
    leaves_bind (leaves_modifyStore hg _) fun _ ↦ ?_
  refine leaves_bind (leaves_modifyStore hg _) fun _ ↦
    leaves_bind (leaves_modifyStore hg _) fun _ ↦ ?_
  exact leaves_bind (leaves_modifyStore hg _) fun _ ↦ leaves_applyTransition hg _ _

end Writes

/-! ### Rewards and transfers -/

section Rewards

variable (hg : K.Keeps g)

include hg

theorem leaves_payBonus (pos : Position) (totalBonus : ℤ) :
    Leaves g (payBonus K pos totalBonus) := by
  intro w bonus w' h
  rcases succeeds_payBonus h with ⟨_, _, rfl⟩ | ⟨_, _, _, owner, ext, _, hsend, rfl⟩
  · rfl
  · refine Eq.trans ?_ (hg.sendCoinsFromModuleToAccount _ _ _ _ _ hsend)
    exact hg.outside _ _ rfl rfl

theorem run_processEvents_leaves (pos : PositionState) (w : World σ) :
    g ((processEventsAndClaimBonus K pos).run w).2 = g w := by
  have hpay : ∀ (w : World σ) p bonus, g (exec (payBonus K p bonus) w).2 = g w := by
    intro w p bonus
    rcases hrun : exec (payBonus K p bonus) w with ⟨outcome, w'⟩
    cases outcome with
    | ok paid => exact leaves_payBonus hg p bonus w paid w' hrun
    | error e => rw [fails_payBonus hrun]
  cases hdel : pos.delegation with
  | none =>
    unfold processEventsAndClaimBonus
    rw [hdel]
    rfl
  | some del =>
    cases hv : K.valCodec.stringToBytes del.validatorAddress with
    | none =>
      unfold processEventsAndClaimBonus
      simp only [hdel, hv]
      rfl
    | some v =>
      cases htier : w.store.tiers[pos.tierId]? with
      | none =>
        unfold processEventsAndClaimBonus
        simp only [hdel, hv, StateT.run_bind, StateT.run_get, htier, pure_bind]
        rfl
      | some tier =>
        cases hval : (K.staking w.ext).validators[v]? with
        | none =>
          unfold processEventsAndClaimBonus
          simp only [hdel, hv, StateT.run_bind, StateT.run_get, htier, StateT.run_set,
            hval, pure_bind]
          exact hg.outside _ _ rfl rfl
        | some val =>
          rw [run_processEventsAndClaimBonus hdel hv htier hval]
          exact (hpay _ _ _).trans (hg.outside _ _ rfl rfl)

theorem leaves_claimBonus (pos : PositionState) : Leaves g (claimBonus K pos) := by
  refine leaves_bind (leaves_always (run_processEvents_leaves hg pos)) ?_
  rintro ⟨pos', outcome⟩
  exact leaves_bind (leaves_fromOutcome _) fun _ ↦ leaves_pure _

theorem leaves_claimBaseRewards (pos : PositionState) : Leaves g (claimBaseRewards K pos) := by
  unfold claimBaseRewards
  cases pos.delegation with
  | none => exact leaves_pure _
  | some del =>
    refine leaves_bind (leaves_expect _ _) fun v ↦ leaves_bind (leaves_expect _ _) fun a ↦ ?_
    refine leaves_bind (leaves_call fun w _ _ h ↦ ?_) fun rewards ↦ leaves_ite ?_ (leaves_pure _)
    · exact hg.withdrawDelegationRewards _ _ _ _ _ h
    · exact leaves_bind (leaves_emit hg.outside _) fun _ ↦ leaves_pure _

theorem leaves_claimRewards (pos : PositionState) : Leaves g (claimRewards K pos) := by
  refine leaves_ite (leaves_bind (leaves_claimBaseRewards hg pos) fun base ↦ ?_) (leaves_pure _)
  exact leaves_bind (leaves_claimBonus hg pos) fun _ ↦ leaves_pure _

theorem leaves_moveShares (src dst : AccAddress) (v : ValAddress) (shares : Dec) :
    Leaves g (moveShares K src dst v shares) := by
  have hunbond : Leaves g (unbond K src v shares) :=
    leaves_callRemoving hg.outside fun _ _ _ _ h ↦ hg.unbond _ _ _ _ _ _ _ h
  refine leaves_bind hunbond fun amount ↦ leaves_bind (leaves_ensure _ _) fun _ ↦ ?_
  refine leaves_bind (leaves_getValidator v) fun val ↦ ?_
  refine leaves_bind (leaves_call fun _ _ _ h ↦ ?_) fun _ ↦ leaves_pure _
  exact hg.delegate _ _ _ _ _ _ _ h

theorem leaves_transferDelegationFromPosition (pos : PositionState) (v : ValAddress) (amount : ℤ) :
    Leaves g (transferDelegationFromPosition K pos v amount) := by
  refine leaves_bind (leaves_expect _ _) fun owner ↦ leaves_bind (leaves_expect _ _) fun del ↦ ?_
  refine leaves_bind (leaves_expect _ _) fun delegation ↦ ?_
  refine leaves_bind (leaves_of_reads fun _ _ _ h ↦ (succeeds_rejectRedelegating h).1) fun _ ↦ ?_
  refine leaves_bind (leaves_getBondedValidator v _) fun _ ↦ ?_
  refine leaves_bind (leaves_reconcileAmountFromShares _ _) fun positionAmount ↦ ?_
  have hshares : Leaves g (sharesToTransfer K pos delegation del v amount positionAmount) :=
    leaves_ite (leaves_pure _) (leaves_bind leaves_get fun _ ↦ leaves_fromOutcome _)
  refine leaves_bind hshares fun shares ↦ ?_
  exact leaves_bind (leaves_moveShares hg _ _ _ _) fun _ ↦ leaves_pure _

end Rewards

end ChainMain.TieredRewards
