import ChainMain.TieredRewards.ChainRuns
import ChainMain.TieredRewards.ForceExit
import ChainMain.TieredRewards.ReferenceKeepers

/-!
# What is left when a position is deleted

Nobody holds the key of a position's delegator address, so what is left there is lost. A position is
deleted by `WithdrawFromTier`, by an `ExitTierWithDelegation` of the whole amount and by the forced
exit of the v2 migration. `NothingLeft` is what a deletion should leave.

The two messages sweep the balance of the address before they delete the position. The forced exit
does not: coins that were sent to the address stay there (`forced_exit_strands_coins`). That is the
only thing that can be left: `nothing_left_iff` says that a deletion leaves nothing exactly when it
is not forced, or the address had no spendable coins before it. What the forced exit pays on the way
goes to module accounts, to withdraw addresses and to the owner (`Keepers.PayoutContract`), so this
is about an address that is none of them (`Unpaid`).
-/

set_option autoImplicit false

namespace ChainMain.TieredRewards

open Foundations Decimal OrderedStore StoreProgram Runs

open Ledger (QuietRun)

variable {σ : Type} {K : Keepers σ} {V : VestingAccounts σ} {w w' : World σ} {id : ℕ}
  {a : AccAddress} {withdrawAddr : σ → AccAddress → AccAddress}
variable {owner : AccAddress} {s : Dec} {u : PUnit} {p : Position} {pos pos' : PositionState}
  {v : ValAddress}

/-! ### The statement -/

/-- What a deletion relies on in the bank and in the vesting accounts. -/
structure Keepers.BankContract (K : Keepers σ) (V : VestingAccounts σ) : Prop where
  /-- Whoever sends all spendable coins to somebody else has none left. -/
  sendAll : ∀ ctx ext src dst ext', src ≠ dst →
    K.sendCoins ctx ext src dst (K.spendableCoins ext src) = .ok ext' →
    (K.spendableCoins ext' src).isZero
  deleteDelegatorWithdrawAddr : ∀ ctx ext del owner ext',
    K.deleteDelegatorWithdrawAddr ctx ext del owner = .ok ext' →
    K.spendableCoins ext' del = K.spendableCoins ext del
  trackDelegation : ∀ ctx ext owner coins,
    K.LeavesStaking ext (V.trackDelegation ctx ext owner coins)

/-- An address that is neither a module account nor anybody's withdraw address. -/
structure Unpaid (K : Keepers σ) (withdrawAddr : σ → AccAddress → AccAddress) (ext : σ)
    (a : AccAddress) : Prop where
  notModule : ∀ name, K.moduleAddress name ≠ a
  notWithdrawAddr : ∀ b, withdrawAddr ext b ≠ a

/-- The address keeps its spendable coins if it is unpaid, and it stays so. -/
def Spares (K : Keepers σ) (withdrawAddr : σ → AccAddress → AccAddress) (a : AccAddress)
    (ext ext' : σ) : Prop :=
  Unpaid K withdrawAddr ext a →
    Unpaid K withdrawAddr ext' a ∧ K.spendableCoins ext' a = K.spendableCoins ext a

/-- Whom the calls of a forced exit pay. Rewards go to withdraw addresses, also those that staking
and distribution withdraw by themselves when a delegation changes; stake moves between module
accounts; the bonus goes to the account it is sent to. `withdrawAddr` is
`GetDelegatorWithdrawAddr`. -/
structure Keepers.PayoutContract (K : Keepers σ) (V : VestingAccounts σ)
    (withdrawAddr : σ → AccAddress → AccAddress) : Prop where
  withdrawDelegationRewards : ∀ ctx ext del v coins ext' a,
    K.withdrawDelegationRewards ctx ext del v = .ok (coins, ext') → Spares K withdrawAddr a ext ext'
  sendCoinsFromModuleToAccount : ∀ ctx ext name dst coins ext' a, a ≠ dst →
    K.sendCoinsFromModuleToAccount ctx ext name dst coins = .ok ext' →
      Spares K withdrawAddr a ext ext'
  unbond : ∀ ctx ext del v shares result ext' a,
    K.unbond ctx ext del v shares = .ok (result, ext') → Spares K withdrawAddr a ext ext'
  delegate : ∀ ctx ext del amount status v shares ext' a,
    K.delegate ctx ext del amount status v false = .ok (shares, ext') →
      Spares K withdrawAddr a ext ext'
  trackDelegation : ∀ ctx ext owner coins a, a ≠ owner →
    Spares K withdrawAddr a ext (V.trackDelegation ctx ext owner coins)

inductive DeletionKind
  | withdraw
  | exit
  | forced
deriving DecidableEq

inductive Deletes (K : Keepers σ) (V : VestingAccounts σ) (w : World σ) (id : ℕ) :
    DeletionKind → World σ → Prop
  | withdraw {msg : MsgWithdrawFromTier} {response : WithdrawFromTierResponse} {w' : World σ}
      (hid : msg.positionId = id) (h : Succeeds (withdrawFromTier K msg) w response w') :
      Deletes K V w id .withdraw w'
  | exit {msg : MsgExitTierWithDelegation} {response : ExitTierWithDelegationResponse}
      {w' : World σ} (hid : msg.positionId = id)
      (h : Succeeds (exitTierWithDelegation K msg) w response w')
      (hfull : response.fullExit = true) : Deletes K V w id .exit w'
  | forced {w' : World σ} (h : Succeeds (forceFullExitWithDelegation K V id) w ⟨⟩ w')
      (hdeleted : w'.store.positions[id]? = none) : Deletes K V w id .forced w'

/-- Nothing of a position is left: neither funds at its delegator address nor an entry in the
store. -/
structure NothingLeft (K : Keepers σ) (id : ℕ) (a : AccAddress) (w : World σ) : Prop where
  delegations : ∀ v : ValAddress, (K.staking w.ext).delegations[(a, v)]? = none
  unbondingDelegations : ∀ v : ValAddress, (K.staking w.ext).unbondingDelegations[(a, v)]? = none
  spendable : ∀ denom, (K.spendableCoins w.ext a).amountOf denom = 0
  positions : w.store.positions[id]? = none
  byOwner : ∀ owner : AccAddress, w.store.positionsByOwner[(owner, id)]? = none
  byTier : ∀ tierId : ℕ, w.store.positionsByTier[(tierId, id)]? = none
  mappings : ∀ u : ℕ, w.store.redelegationMappings[u]? ≠ some id

/-- The worlds a chain gets to when positions may also be forced to exit. -/
def ReachableWithExits (K : Keepers σ) (V : VestingAccounts σ) (w : World σ) : Prop :=
  ∃ w₀ τ, Fresh K w₀ ∧ Run (fun w (label : Option Label) w' ↦
    match label with
    | some label => ChainStep K w label w'
    | none => ∃ id, Succeeds (forceFullExitWithDelegation K V id) w ⟨⟩ w') w₀ τ w

/-! ### Coins -/

theorem Coins.isZero_iff {coins : Coins} : coins.isZero ↔ ∀ denom, coins.amountOf denom = 0 := by
  unfold Coins.isZero Coins.amountOf
  rw [List.all_eq_true]
  constructor
  · intro hall denom
    cases hcoin : coins[denom]? with
    | none => rfl
    | some amount => exact beq_iff_eq.mp (hall (denom, amount) (mem_toList.mpr hcoin))
  · rintro hzero ⟨denom, amount⟩ hmem
    have hcoin := hzero denom
    rw [mem_toList.mp hmem] at hcoin
    exact beq_iff_eq.mpr hcoin

theorem sweepBalances_empties (hB : K.BankContract V) {balances : Coins}
    (hne : a ≠ owner) (h : Succeeds (sweepBalances K a owner) w balances w') :
    (K.spendableCoins w'.ext a).isZero := by
  unfold sweepBalances at h
  rw [succeeds_read] at h
  rcases succeeds_ite.mp h with ⟨_, hsend⟩ | ⟨hzero, hpure⟩
  · obtain ⟨_, _, hcall, hpure⟩ := succeeds_bind.mp hsend
    obtain ⟨ext, hext, rfl⟩ := succeeds_callUnit.mp hcall
    obtain ⟨_, rfl⟩ := succeeds_pure.mp hpure
    exact hB.sendAll _ _ _ _ _ hne hext
  · obtain ⟨_, rfl⟩ := succeeds_pure.mp hpure
    exact not_not.mp hzero

/-! ### The store -/

theorem nothingLeft_of_sound (hw : K.Sound w) (hpositions : w.store.positions[id]? = none)
    (hidle : (K.view w).Idle a) (hunbonding : (K.view w).NotUnbonding a) :
    NothingLeft K id a w ↔ ∀ denom, (K.spendableCoins w.ext a).amountOf denom = 0 := by
  have hstored : ∀ p : Position, w.store.positions[id]? ≠ some p := by
    intro p hp
    rw [hpositions] at hp
    cases hp
  refine ⟨NothingLeft.spendable, fun hspendable ↦ ⟨hidle, fun v ↦ ?_, hspendable, hpositions,
    fun owner ↦ ?_, fun tierId ↦ ?_, fun u hu ↦ ?_⟩⟩
  · exact Option.not_isSome_iff_eq_none.mp fun hsome ↦
      Bool.false_ne_true ((hunbonding v).symm.trans hsome)
  · cases hentry : w.store.positionsByOwner[(owner, id)]? with
    | none => rfl
    | some u =>
      obtain ⟨p, hp, _⟩ := (hw.indexed.byOwner owner id).mp hentry
      exact absurd hp (hstored p)
  · cases hentry : w.store.positionsByTier[(tierId, id)]? with
    | none => rfl
    | some u =>
      obtain ⟨p, hp, _⟩ := (hw.indexed.byTier tierId id).mp hentry
      exact absurd hp (hstored p)
  · obtain ⟨_, ⟨p, hp⟩, _⟩ := (hw.mapped.mapping u id).mp hu
    exact hstored p hp.stored

theorem positions_of_deletePosition {update : Option (Option ValAddress)}
    (h : Succeeds (deletePosition K p (transition K update)) w u w') :
    w'.store.positions[p.id]? = none := by
  obtain ⟨owner, a, ext, _, _, _, _, rfl⟩ := succeeds_deletePosition h
  have hpositions : ((w.store.removePosition owner p).applyMove update none).positions =
      w.store.positions.erase p.id := by
    cases update <;> rfl
  change ((w.store.removePosition owner p).applyMove update none).positions[p.id]? = none
  rw [hpositions, getElem?_erase_eq, if_pos rfl]

/-- The deletion itself leaves staking and the spendable coins of the address alone. -/
theorem outside_of_deletePosition (hK : K.Contract) (hB : K.BankContract V)
    {update : Option (Option ValAddress)}
    (ha : K.accCodec.stringToBytes p.delegatorAddress = some a)
    (h : Succeeds (deletePosition K p (transition K update)) w u w') :
    K.staking w'.ext = K.staking w.ext ∧ K.spendableCoins w'.ext a = K.spendableCoins w.ext a := by
  obtain ⟨owner, a', ext, _, ha', _, hext, rfl⟩ := succeeds_deletePosition h
  obtain rfl := Option.mem_unique ha ha'
  exact ⟨(hK.deleteDelegatorWithdrawAddr _ _ _ _ _ hext).staking,
    hB.deleteDelegatorWithdrawAddr _ _ _ _ _ hext⟩

/-! ### The forced exit -/

theorem sumDelegatedTokens_reads {delegations : List (ValAddress × Dec)} {total sum : ℤ}
    (h : Succeeds (sumDelegatedTokens K delegations total) w sum w') : w' = w := by
  induction delegations generalizing total w with
  | nil => exact (succeeds_pure.mp h).2.symm
  | cons entry delegations ih =>
    unfold sumDelegatedTokens at h
    simp only [succeeds_bind, succeeds_wrapping, succeeds_getValidator] at h
    obtain ⟨_, _, ⟨_, rfl⟩, hrest⟩ := h
    exact ih hrest

/-- `AlignVestingDelegationTracking` tracks a delegation of the owner, or does nothing. -/
theorem tracks_alignVestingDelegationTracking
    (h : Succeeds (alignVestingDelegationTracking K V owner) w u w') :
    w' = w ∨ ∃ coins, w' = { w with ext := V.trackDelegation w.ctx w.ext owner coins } := by
  unfold alignVestingDelegationTracking at h
  rw [succeeds_read] at h
  split at h
  · unfold topUpVestingDelegation at h
    rw [succeeds_read] at h
    obtain ⟨sum, w₁, hsum, hrest⟩ := succeeds_bind.mp h
    obtain rfl := sumDelegatedTokens_reads hsum
    rcases succeeds_ite.mp hrest with ⟨_, hpure⟩ | ⟨_, hmodify⟩
    · exact .inl (succeeds_pure.mp hpure).2.symm
    · exact .inr ⟨_, (succeeds_modify.mp hmodify).symm⟩
  · exact .inl (succeeds_pure.mp h).2.symm

theorem aside_alignVestingDelegationTracking (hB : K.BankContract V)
    (h : Succeeds (alignVestingDelegationTracking K V owner) w u w') : Aside K w w' := by
  rcases tracks_alignVestingDelegationTracking h with rfl | ⟨_, rfl⟩
  · exact .refl _
  · exact .of_ext (hB.trackDelegation _ _ _ _)

/-- Unwinding a position: its rewards are claimed, its delegation goes to its owner, and what the
owner's account tracks is aligned. -/
theorem succeeds_unwindPosition :
    Succeeds (unwindPosition K V id pos) w (pos', v) w' ↔
      ∃ base bonus del amount result owner w₁ w₂,
        Succeeds (claimRewards K pos) w (pos', base, bonus) w₁ ∧ pos'.delegation = some del ∧
        K.valCodec.stringToBytes del.validatorAddress = some v ∧
        Succeeds (reconcileAmountFromShares K v del.shares) w₁ amount w₁ ∧
        Succeeds (transferDelegationFromPosition K pos' v amount) w₁ result w₂ ∧
        K.accCodec.stringToBytes pos'.owner = some owner ∧
        Succeeds (alignVestingDelegationTracking K V owner) w₂ ⟨⟩ w' := by
  unfold unwindPosition
  simp only [succeeds_bind, succeeds_wrapping, succeeds_expect, succeeds_valAddressFromBech32,
    succeeds_accAddressFromBech32, succeeds_pure]
  constructor
  · rintro ⟨⟨pos₁, base, bonus⟩, w₁, hclaim, del, _, ⟨hdel, rfl⟩, u, _, ⟨hu, rfl⟩,
      amount, _, hamount, result, w₂, htransfer, owner, _, ⟨howner, rfl⟩, _, _, halign, heq, rfl⟩
    obtain ⟨rfl, rfl⟩ := Prod.mk.inj heq
    obtain rfl := reconcileAmountFromShares_reads hamount
    exact ⟨base, bonus, del, amount, result, owner, w₁, w₂, hclaim, hdel, hu, hamount,
      htransfer, howner, halign⟩
  · rintro ⟨base, bonus, del, amount, result, owner, w₁, w₂, hclaim, hdel, hv, hamount,
      htransfer, howner, halign⟩
    exact ⟨(pos', base, bonus), w₁, hclaim, del, w₁, ⟨hdel, rfl⟩, v, w₁, ⟨hv, rfl⟩, amount,
      w₁, hamount, result, w₂, htransfer, owner, w₂, ⟨howner, rfl⟩, ⟨⟩, w', halign, rfl, rfl⟩

/-! ### Whom an unwinding pays -/

/-- The owner of a position that was claimed has an account that no position holds. -/
theorem Claimed.owner_free {w₁ : World σ} (h : Claimed K w id p a v s pos w₁)
    (howner : K.accCodec.stringToBytes pos.owner = some owner) :
    (K.account w₁.ext owner).isSome ∧
      ¬ (K.view (w₁.putPosition pos.toPosition)).Held K.accCodec owner := by
  have howns := h.sound.owned id pos.toPosition owner h.holds.stored howner
  exact ⟨howns.accountExists, howns.free⟩

theorem Spares.refl (ext : σ) : Spares K withdrawAddr a ext ext := fun hunpaid ↦ ⟨hunpaid, rfl⟩

theorem Spares.trans {ext ext' ext'' : σ} (h : Spares K withdrawAddr a ext ext')
    (h' : Spares K withdrawAddr a ext' ext'') : Spares K withdrawAddr a ext ext'' := by
  intro hunpaid
  obtain ⟨hunpaid', hcoins⟩ := h hunpaid
  obtain ⟨hunpaid'', hcoins'⟩ := h' hunpaid'
  exact ⟨hunpaid'', hcoins'.trans hcoins⟩

section Payouts

variable (hP : K.PayoutContract V withdrawAddr) {owner : AccAddress}

include hP

theorem spares_claimRewards {base bonus : Coins}
    (hpos : Delegated K w id pos a v s) (howner : K.accCodec.stringToBytes pos.owner = some owner)
    (hne : a ≠ owner) (h : Succeeds (claimRewards K pos) w (pos', base, bonus) w') :
    Spares K withdrawAddr a w.ext w'.ext := by
  unfold claimRewards claimBaseRewards at h
  rw [if_pos hpos.isDelegated, hpos.delegation] at h
  simp only [succeeds_bind, succeeds_valAddressFromBech32, succeeds_accAddressFromBech32,
    succeeds_call, succeeds_pure] at h
  obtain ⟨_, w₁, ⟨u, _, ⟨hu, rfl⟩, b, _, ⟨_, rfl⟩, rewards, _, ⟨ext, hwithdraw, rfl⟩, hemit⟩,
    ⟨pos₁, _⟩, _, hbonus, _, rfl⟩ := h
  have hbase : w₁.ext = ext := by
    rcases succeeds_ite.mp hemit with ⟨_, hlog⟩ | ⟨_, hpure⟩
    · obtain ⟨_, _, hlog, hpure⟩ := succeeds_bind.mp hlog
      obtain rfl := succeeds_emit.mp hlog
      rw [← (succeeds_pure.mp hpure).2]
    · rw [← (succeeds_pure.mp hpure).2]
  obtain ⟨tier, val, _, _, _, hpay⟩ := succeeds_claimBonus hpos.delegation hu hbonus
  refine (hP.withdrawDelegationRewards _ _ _ _ _ _ a hwithdraw).trans ?_
  rw [← hbase]
  rcases succeeds_payBonus hpay with ⟨_, _, rfl⟩ | ⟨_, _, _, payee, ext', hpayee, hsend, rfl⟩
  · exact .refl _
  · obtain rfl := Option.mem_unique howner hpayee
    exact hP.sendCoinsFromModuleToAccount _ _ _ _ _ _ a hne hsend

theorem spares_moveShares {src dst : AccAddress} {shares : Dec} {result : Dec × ℤ}
    (h : Succeeds (moveShares K src dst v shares) w result w') :
    Spares K withdrawAddr a w.ext w'.ext := by
  unfold moveShares unbond at h
  simp only [succeeds_bind, succeeds_ensure, succeeds_getValidator, succeeds_call,
    succeeds_pure] at h
  obtain ⟨amount, _, hunbond, _, _, ⟨_, rfl⟩, val, _, ⟨_, rfl⟩, _, _, ⟨ext, hdelegate, rfl⟩,
    _, rfl⟩ := h
  obtain ⟨removed, ext', hext, rfl⟩ := succeeds_callRemoving hunbond
  exact (hP.unbond _ _ _ _ _ _ _ a hext).trans (hP.delegate _ _ _ _ _ _ _ _ a hdelegate)

theorem spares_alignVestingDelegationTracking (hne : a ≠ owner)
    (h : Succeeds (alignVestingDelegationTracking K V owner) w u w') :
    Spares K withdrawAddr a w.ext w'.ext := by
  rcases tracks_alignVestingDelegationTracking h with rfl | ⟨_, rfl⟩
  · exact .refl _
  · exact hP.trackDelegation _ _ _ _ a hne

/-- Unwinding a position pays nothing to its delegator address. -/
theorem spares_unwindPosition (hK : K.Contract) (hw : K.Sound w) {u v : ValAddress}
    (hpos : Delegated K w id pos a v s) (h : Succeeds (unwindPosition K V id pos) w (pos', u) w') :
    Spares K withdrawAddr a w.ext w'.ext := by
  obtain ⟨base, bonus, del, amount, result, owner, w₁, w₂, hclaim, hdel, hu, hamount, htransfer,
    howner, halign⟩ := succeeds_unwindPosition.mp h
  have hclaimed := claimed_of_claimRewards hK hw hpos (.refl _) hclaim
  obtain ⟨rfl, rfl⟩ := hclaimed.validator_eq hdel hu
  obtain ⟨owner', _, _, howner', _, _, _, hmove, rfl⟩ :=
    succeeds_transferDelegationFromPosition hK hclaimed hamount htransfer
  obtain rfl := Option.mem_unique howner howner'
  have hne : a ≠ owner := by
    rintro rfl
    exact (hclaimed.owner_free howner).2 hclaimed.holds.held
  have hsame : pos'.owner = pos.owner := hclaimed.same.owner
  exact (spares_claimRewards hP hpos (hsame ▸ howner) hne hclaim).trans
    ((spares_moveShares hP hmove).trans (spares_alignVestingDelegationTracking hP hne halign))

end Payouts

/-- A forced exit unwinds and deletes a delegated position, and leaves any other alone. -/
theorem succeeds_forceFullExitWithDelegation :
    Succeeds (forceFullExitWithDelegation K V id) w ⟨⟩ w' ↔
      ∃ pos, Succeeds (getPositionState K id) w pos w ∧
        (pos.isDelegated ∧ (∃ pos' v w₁, Succeeds (unwindPosition K V id pos) w (pos', v) w₁ ∧
            Succeeds (deletePosition K pos'.toPosition (transition K (some (some v)))) w₁ ⟨⟩ w') ∨
          ¬ pos.isDelegated ∧ w' = w) := by
  unfold forceFullExitWithDelegation
  rw [succeeds_bind]
  simp only [succeeds_wrapping]
  constructor
  · rintro ⟨pos, _, hload, hrest⟩
    obtain rfl := (succeeds_getPositionState.mp hload).2.2
    refine ⟨pos, hload, ?_⟩
    rcases succeeds_ite.mp hrest with ⟨hdelegated, hexit⟩ | ⟨hnot, hpure⟩
    · obtain ⟨⟨pos', v⟩, w₁, hunwind, hdelete⟩ := succeeds_bind.mp hexit
      exact Or.inl ⟨hdelegated, pos', v, w₁, hunwind, succeeds_wrapping.mp hdelete⟩
    · exact Or.inr ⟨hnot, (succeeds_pure.mp hpure).2.symm⟩
  · rintro ⟨pos, hload, ⟨hdelegated, pos', v, w₁, hunwind, hdelete⟩ | ⟨hnot, rfl⟩⟩
    · refine ⟨pos, w, hload, succeeds_ite.mpr (Or.inl ⟨hdelegated, ?_⟩)⟩
      exact succeeds_bind.mpr ⟨(pos', v), w₁, hunwind, succeeds_wrapping.mpr hdelete⟩
    · exact ⟨pos, w', hload, succeeds_ite.mpr (Or.inr ⟨hnot, .pure⟩)⟩

/-- What a forced exit has done: nothing, or the position is unwound and deleted. -/
theorem forceFullExitWithDelegation_cases (hK : K.Contract) (hB : K.BankContract V) (hw : K.Sound w)
    (h : Succeeds (forceFullExitWithDelegation K V id) w ⟨⟩ w') :
    (w' = w ∧ ∃ pos a, Undelegated K w id pos a) ∨
      ∃ (a : AccAddress) (v : ValAddress) (s : Dec) (p : Position) (pos₀ pos : PositionState)
        (w₁ w₂ : World σ) (owner : AccAddress) (newShares : Dec)
        (removed : List ValAddress) (ext : σ),
      Claimed K w id p a v s pos w₁ ∧ K.accCodec.stringToBytes pos.owner = some owner ∧
      Transferred K w₁.ext a owner v s s newShares removed ext ∧
      Aside K { w₁ with ext := ext, store := w₁.store.dropRemoved removed } w₂ ∧
      Delegated K w id pos₀ a v s ∧ Succeeds (unwindPosition K V id pos₀) w (pos, v) w₂ ∧
      Succeeds (deletePosition K pos.toPosition (transition K (some (some v)))) w₂ ⟨⟩ w' ∧
      ∃ amount, Succeeds (moveShares K a owner v s) w₁ (newShares, amount)
        { w₁ with ext := ext, store := w₁.store.dropRemoved removed } := by
  obtain ⟨pos₀, hload, ⟨hdelegated, pos, u, w₂, hunwind, hdelete⟩ | ⟨hnot, rfl⟩⟩ :=
    succeeds_forceFullExitWithDelegation.mp h
  · obtain ⟨_, a, v, s, hpos⟩ := delegated_of_loaded hw hload hdelegated
    obtain ⟨base, bonus, del, amount, ⟨newShares, shares, transferred⟩, owner, w₁, w₃,
      hclaim, hdel, hu, hamount, htransfer, howner, halign⟩ := succeeds_unwindPosition.mp hunwind
    have hclaimed := claimed_of_claimRewards hK hw hpos (.refl _) hclaim
    obtain ⟨rfl, rfl⟩ := hclaimed.validator_eq hdel hu
    obtain ⟨owner', removed, ext, howner', htransferred, hfull, _, hmove, rfl⟩ :=
      succeeds_transferDelegationFromPosition hK hclaimed hamount htransfer
    obtain rfl := Option.mem_unique howner howner'
    obtain rfl := hfull (beq_self_eq_true amount)
    exact Or.inr ⟨a, u, shares, _, pos₀, pos, w₁, _, owner, newShares, removed, ext,
      hclaimed, howner, htransferred, aside_alignVestingDelegationTracking hB halign, hpos, hunwind,
      hdelete, _, hmove⟩
  · obtain ⟨_, a, ⟨v, s, hpos⟩ | hpos⟩ := loaded_cases hw hload
    · exact absurd hpos.isDelegated hnot
    · exact Or.inl ⟨rfl, pos₀, a, hpos⟩

theorem forceFullExitWithDelegation_sound (hK : K.Contract) (hB : K.BankContract V) (hw : K.Sound w)
    (h : Succeeds (forceFullExitWithDelegation K V id) w ⟨⟩ w') : K.Sound w' := by
  rcases forceFullExitWithDelegation_cases hK hB hw h with ⟨rfl, _⟩
      | ⟨a, v, s, p, pos₀, pos, w₁, w₂, owner,
    newShares, removed, ext, hclaimed, howner, htransferred, haside, _, _, hdelete, _⟩
  · exact hw
  · obtain ⟨hexists, hfree⟩ := hclaimed.owner_free howner
    exact (deleteTransferred_run hK hclaimed htransferred howner hexists hfree haside
      hdelete).1.sound
      hclaimed.sound

theorem Reachable.withExits (h : Reachable K w) : ReachableWithExits K V w := by
  obtain ⟨τ, w₀, hfresh, hrun⟩ := h
  refine ⟨w₀, τ.map fun t ↦ ⟨t.source, some t.label, t.target⟩, hfresh, ?_⟩
  induction hrun with
  | nil => exact .nil
  | snoc _ hstep ih =>
    rw [List.map_append]
    exact ih.snoc hstep

theorem ReachableWithExits.sound (hK : K.Contract) (hB : K.BankContract V)
    (h : ReachableWithExits K V w) : K.Sound w := by
  obtain ⟨w₀, τ, hfresh, hrun⟩ := h
  refine hrun.invariant (P := fun w ↦ K.Sound w) hfresh.sound ?_
  rintro w (_ | label) w' hw hstep
  · obtain ⟨id, hforced⟩ := hstep
    exact forceFullExitWithDelegation_sound hK hB hw hforced
  · exact (hstep.effect hK hw).sound hw

/-! ### The three ways -/

/-- What a deletion leaves behind, apart from coins. -/
structure Cleared (K : Keepers σ) (id : ℕ) (a : AccAddress) (w : World σ) : Prop where
  sound : K.Sound w
  positions : w.store.positions[id]? = none
  idle : (K.view w).Idle a
  notUnbonding : (K.view w).NotUnbonding a

theorem Cleared.emit {event : Event} (h : Cleared K id a w) (hevent : ∀ i, event.bonusFor i = 0) :
    Cleared K id a { w with emitted := w.emitted ++ [event] } := by
  have hview := view_emit (K := K) (w := w) hevent
  refine ⟨?_, h.positions, hview ▸ h.idle, hview ▸ h.notUnbonding⟩
  unfold Keepers.Sound
  exact hview ▸ h.sound

/-- A position whose stake was transferred to its owner is deleted. -/
theorem cleared_of_transferred (hK : K.Contract) (hB : K.BankContract V) {s newShares : Dec}
    {w₁ w₂ : World σ} {removed : List ValAddress} {ext : σ}
    (hclaimed : Claimed K w id p a v s pos w₁)
    (howner : K.accCodec.stringToBytes pos.owner = some owner)
    (htransfer : Transferred K w₁.ext a owner v s s newShares removed ext)
    (haside : Aside K { w₁ with ext := ext, store := w₁.store.dropRemoved removed } w₂)
    (h : Succeeds (deletePosition K pos.toPosition (transition K (some (some v)))) w₂ ⟨⟩ w') :
    Cleared K id a w' := by
  obtain ⟨hexists, hfree⟩ := hclaimed.owner_free howner
  obtain ⟨hquiet, hidle⟩ :=
    deleteTransferred_run hK hclaimed htransfer howner hexists hfree haside h
  refine ⟨hquiet.sound hclaimed.sound, ?_, hidle, fun u ↦ ?_⟩
  · rw [← hclaimed.id_eq]
    exact positions_of_deletePosition h
  · have hreleased := hclaimed.sound.released a hclaimed.holds.held hclaimed.stake.not_idle u
    change ((K.staking w'.ext).unbondingDelegations[(a, u)]?).isSome = false
    rw [(outside_of_deletePosition hK hB hclaimed.holds.account h).1, haside.outside.staking,
      htransfer.unbonding]
    exact hreleased

theorem cleared_of_withdraw (hK : K.Contract) (hB : K.BankContract V) (hw : K.Sound w)
    {msg : MsgWithdrawFromTier} {response : WithdrawFromTierResponse}
    (hp : (K.view w).Holds K.accCodec msg.positionId p a)
    (h : Succeeds (withdrawFromTier K msg) w response w') :
    Cleared K msg.positionId a w' ∧ (K.spendableCoins w'.ext a).isZero := by
  have hsound := (withdrawFromTier_run hK hw h).sound hw
  obtain ⟨pos, b, owner, w₁, w₂, event, hpos, hunbonding, howner, hsweep, hdelete, _, rfl⟩ :=
    withdrawFromTier_cases hw h
  obtain rfl := Option.mem_unique hp.stored hpos.holds.stored
  obtain rfl := Option.mem_unique hp.account hpos.holds.account
  have hne : a ≠ owner := by
    rintro rfl
    exact (hw.owned _ _ _ hp.stored howner).free hp.held
  obtain ⟨hstaking, hspendable⟩ := outside_of_deletePosition hK hB hp.account hdelete
  have hsame : K.staking w₂.ext = K.staking w.ext :=
    hstaking.trans (aside_sweepBalances hK hsweep).outside.staking
  refine ⟨⟨hsound, ?_, fun u ↦ ?_, fun u ↦ ?_⟩, ?_⟩
  · rw [← hw.indexed.id_eq _ _ hp.stored]
    have hpositions := positions_of_deletePosition hdelete
    exact hpositions
  · change (K.staking w₂.ext).delegations[(a, u)]? = none
    rw [hsame]
    exact hpos.idle u
  · change ((K.staking w₂.ext).unbondingDelegations[(a, u)]?).isSome = false
    rw [hsame]
    exact hunbonding u
  · change (K.spendableCoins w₂.ext a).isZero
    rw [hspendable]
    exact sweepBalances_empties hB hne hsweep

theorem cleared_of_exit (hK : K.Contract) (hB : K.BankContract V) (hw : K.Sound w)
    {msg : MsgExitTierWithDelegation} {response : ExitTierWithDelegationResponse}
    (hp : (K.view w).Holds K.accCodec msg.positionId p a)
    (h : Succeeds (exitTierWithDelegation K msg) w response w') (hfull : response.fullExit = true) :
    Cleared K msg.positionId a w' ∧ (K.spendableCoins w'.ext a).isZero := by
  obtain ⟨b, v, s, q, pos, w₁, w₂, owner, shares, newShares, removed, ext, event, hclaimed, howner,
    hsame, htransferred, _, hevent, rfl, ⟨_, rfl, hexit⟩ | ⟨hpart, _⟩⟩ :=
    exitTierWithDelegation_cases hK hw h
  · unfold exitFully at hexit
    simp only [succeeds_bind, succeeds_accAddressFromBech32] at hexit
    obtain ⟨owner', _, ⟨howner', rfl⟩, c, _, ⟨hc, rfl⟩, balances, w₃, hsweep, hdelete⟩ := hexit
    obtain rfl := Option.some.inj ((hsame ▸ howner').symm.trans howner)
    obtain rfl := Option.mem_unique hc hclaimed.holds.account
    obtain rfl := Option.mem_unique hp.stored hclaimed.before.stored
    obtain rfl := Option.mem_unique hp.account hclaimed.before.account
    have hne : a ≠ owner' := by
      rintro rfl
      exact (hclaimed.owner_free howner).2 hclaimed.holds.held
    have hdeletes : Succeeds (deletePosition K pos.toPosition (transition K (some (some v)))) w₃ ⟨⟩
      w₂ := hdelete
    have hcleared := cleared_of_transferred hK hB hclaimed howner htransferred
      (aside_sweepBalances hK hsweep) hdeletes
    have hspendable : K.spendableCoins w₂.ext a = K.spendableCoins w₃.ext a :=
      (outside_of_deletePosition hK hB hclaimed.holds.account hdeletes).2
    refine ⟨hcleared.emit hevent, ?_⟩
    change (K.spendableCoins w₂.ext a).isZero
    rw [hspendable]
    exact sweepBalances_empties hB hne hsweep
  · rw [hpart] at hfull
    cases hfull

/-- A deletion leaves nothing behind exactly when it is not forced, or the address of the position
had no spendable coins before it. -/
theorem nothing_left_iff (hK : K.Contract) (hB : K.BankContract V)
    (hP : K.PayoutContract V withdrawAddr) (hreach : ReachableWithExits K V w) {kind : DeletionKind}
    {p : Position} (hp : w.store.positions[id]? = some p)
    (ha : K.accCodec.stringToBytes p.delegatorAddress = some a) (h : Deletes K V w id kind w')
    (hunpaid : kind = .forced → Unpaid K withdrawAddr w.ext a) :
    NothingLeft K id a w' ↔
      (kind = .forced → ∀ denom, (K.spendableCoins w.ext a).amountOf denom = 0) := by
  have hw := hreach.sound hK hB
  have hholds : (K.view w).Holds K.accCodec id p a := ⟨hp, ha⟩
  cases h with
  | withdraw hid hrun =>
    subst hid
    obtain ⟨hcleared, hzero⟩ := cleared_of_withdraw hK hB hw hholds hrun
    rw [nothingLeft_of_sound hcleared.sound hcleared.positions hcleared.idle hcleared.notUnbonding]
    exact ⟨(fun _ hforced ↦ nomatch hforced), fun _ ↦ Coins.isZero_iff.mp hzero⟩
  | exit hid hrun hfull =>
    subst hid
    obtain ⟨hcleared, hzero⟩ := cleared_of_exit hK hB hw hholds hrun hfull
    rw [nothingLeft_of_sound hcleared.sound hcleared.positions hcleared.idle hcleared.notUnbonding]
    exact ⟨(fun _ hforced ↦ nomatch hforced), fun _ ↦ Coins.isZero_iff.mp hzero⟩
  | forced hrun hdeleted =>
    rcases forceFullExitWithDelegation_cases hK hB hw hrun with ⟨rfl, _⟩
        | ⟨b, v, s, q, pos₀, pos, w₁, w₂,
      owner, newShares, removed, ext, hclaimed, howner, htransferred, haside, hpos,
      hunwind, hdelete, _⟩
    · rw [hp] at hdeleted
      cases hdeleted
    obtain rfl := Option.mem_unique hp hclaimed.before.stored
    obtain rfl := Option.mem_unique ha hclaimed.before.account
    have hcleared := cleared_of_transferred hK hB hclaimed howner htransferred haside hdelete
    have hspared := (spares_unwindPosition hP hK hw hpos hunwind (hunpaid rfl)).2
    rw [nothingLeft_of_sound hcleared.sound hcleared.positions hcleared.idle hcleared.notUnbonding,
      (outside_of_deletePosition hK hB hclaimed.holds.account hdelete).2, hspared]
    exact ⟨fun hzero _ ↦ hzero, fun hzero ↦ hzero rfl⟩

/-! ### On the reference keepers -/

namespace Reference

/-- Vesting accounts that track nothing. -/
def vestingAccounts : VestingAccounts Outside where
  delegatedVesting _ _ := ∅
  delegatedFree _ _ := ∅
  trackDelegation _ o _ _ := o

theorem bankContract : keepers.BankContract vestingAccounts where
  sendAll ctx o src dst o' hne h := by
    obtain ⟨o₁, hdebit, rfl⟩ := map_eq_ok h
    unfold Outside.debit at hdebit
    split_ifs at hdebit
    obtain rfl := Except.ok.inj hdebit
    have hamount : (keepers.spendableCoins o src).amountOf denom = o.balance src :=
      amountOf_single (o.balance src)
    have hbalance : ∀ x : ℤ, ((o.credit src (-o.balance src)).credit dst x).balance src = 0 := by
      intro x
      unfold Outside.credit Outside.balance
      dsimp only
      rw [getElem?_insert_ne hne.symm, getElem?_insert_eq, if_pos rfl]
      exact add_neg_cancel (o.balance src)
    change (Coins.single denom _).isZero
    rw [hamount, hbalance]
    rfl
  deleteDelegatorWithdrawAddr ctx o del owner o' h := by
    obtain rfl := Except.ok.inj h
    rfl
  trackDelegation _ o _ _ := ⟨rfl, fun _ ha ↦ ha⟩

/-- The rewards of the position go to its owner, all others to the delegator. -/
def rewardAddr (_ : Outside) (b : AccAddress) : AccAddress := if b = 10 then 2 else b

theorem unpaid_ten (o : Outside) : Unpaid keepers rewardAddr o 10 where
  notModule name := by
    change 0 ≠ 10
    decide
  notWithdrawAddr b := by
    unfold rewardAddr
    split_ifs with hb
    · decide
    · exact hb

theorem spares_of_balance {a : AccAddress} {o o' : Outside}
    (h : (∀ name, keepers.moduleAddress name ≠ a) → o'.balance a = o.balance a) :
    Spares keepers rewardAddr a o o' :=
  fun hunpaid ↦ ⟨⟨hunpaid.notModule, hunpaid.notWithdrawAddr⟩,
    congrArg (Coins.single denom) (h hunpaid.notModule)⟩

theorem payoutContract : keepers.PayoutContract vestingAccounts rewardAddr where
  withdrawDelegationRewards ctx o del v coins o' a h := by
    obtain ⟨_, rfl⟩ := Prod.mk.inj (Except.ok.inj h)
    exact .refl _
  sendCoinsFromModuleToAccount ctx o name dst coins o' a hne h := by
    refine spares_of_balance fun hmodule ↦ ?_
    obtain ⟨o₁, hdebit, rfl⟩ := map_eq_ok h
    unfold Outside.debit at hdebit
    split_ifs at hdebit
    obtain rfl := Except.ok.inj hdebit
    unfold Outside.credit Outside.balance
    dsimp only
    have hpool : (0 : AccAddress) ≠ a := hmodule name
    rw [getElem?_insert_ne hne.symm, getElem?_insert_ne hpool]
  unbond ctx o del v shares result o' a h := by
    obtain ⟨o₁, htake, heq⟩ := map_eq_ok h
    obtain ⟨_, rfl⟩ := Prod.mk.inj heq
    obtain ⟨_, _, _, rfl⟩ := Outside.takeStake_ok htake
    exact spares_of_balance fun _ ↦ rfl
  delegate ctx o del amount status v shares o' a h := by
    obtain ⟨_, rfl⟩ := Prod.mk.inj (Except.ok.inj h)
    exact spares_of_balance fun _ ↦ rfl
  trackDelegation _ o _ _ a _ := .refl o

/-- Somebody sends coins to the address of the position. -/
def gifted : World Outside := { world₄ with ext := (world₄.ext.credit 2 (-5)).credit 10 5 }

theorem reachable_gifted : Reachable keepers gifted := by
  have hsound := reaches_history.sound keepers_contract
  refine ⟨_, world₀, fresh_world₀, run_history.snoc (.outside _ ?_)⟩
  have hleaves : keepers.LeavesStaking world₄.ext gifted.ext := ⟨rfl, fun _ ha ↦ ha⟩
  exact frame_of_touches (P := fun _ ↦ False) (.of_leavesStaking hleaves) rfl rfl
    (fun _ hfalse ↦ hfalse.elim) hsound.tidy (fun _ _ _ hfalse ↦ hfalse) fun _ hnone ↦ nomatch hnone

end Reference

open Reference

/-- A forced exit leaves coins behind that were sent to the address of the position. -/
theorem forced_exit_strands_coins :
    ReachableWithExits keepers vestingAccounts gifted ∧
      gifted.store.positions[(0 : ℕ)]? = some position ∧
      codec.stringToBytes position.delegatorAddress = some 10 ∧
      Deletes keepers vestingAccounts gifted 0 .forced
        (exec (forceFullExitWithDelegation keepers vestingAccounts 0)
          gifted).2 ∧
      ¬ NothingLeft keepers 0 10
        (exec (forceFullExitWithDelegation keepers vestingAccounts 0)
          gifted).2 := by
  refine ⟨reachable_gifted.withExits, by decide +kernel, by decide +kernel,
    .forced (succeeds_exec (by decide +kernel)) (by decide +kernel), fun hnothing ↦ ?_⟩
  have hleft : (keepers.spendableCoins
      (exec (forceFullExitWithDelegation keepers vestingAccounts 0)
        gifted).2.ext 10).amountOf denom = 5 := by
    decide +kernel
  rw [hnothing.spendable] at hleft
  cases hleft

/-- The position of the reference history is forced to exit, or its owner takes the whole stake
out. -/
theorem nothing_left_iff_history :
    NothingLeft keepers 0 10
        (exec (forceFullExitWithDelegation keepers vestingAccounts 0)
          world₄).2 ∧
      NothingLeft keepers 0 10
        (exec (exitTierWithDelegation keepers ⟨user, 0, 1000000⟩)
          world₆).2 := by
  have hstored : world₆.store.positions[(0 : ℕ)]? = some (position.triggerExit
      world₄.ctx.blockTime (30 * 24 * 60 * 60 * second)) := by
    decide +kernel
  have hstored' : world₄.store.positions[(0 : ℕ)]? = some position := by
    decide +kernel
  obtain ⟨response, hfull, hrun⟩ := succeeds_exec_of_any
    (P := ExitTierWithDelegationResponse.fullExit) (x := exitTierWithDelegation keepers
      ⟨user, 0, 1000000⟩) (w := world₆) (by decide +kernel)
  have hreach : Reachable keepers world₆ := ⟨_, reaches_exitHistory⟩
  have hreach' : Reachable keepers world₄ := ⟨_, reaches_history⟩
  constructor
  · exact (nothing_left_iff keepers_contract bankContract
      payoutContract hreach'.withExits hstored' (by decide +kernel)
      (.forced (succeeds_exec (by decide +kernel)) (by decide +kernel))
      fun _ ↦ unpaid_ten _).mpr fun _ ↦ Coins.isZero_iff.mp (by decide +kernel)
  · exact (nothing_left_iff keepers_contract bankContract
      payoutContract hreach.withExits hstored (by decide +kernel)
      (.exit rfl hrun hfull) fun hforced ↦ nomatch hforced).mpr fun hforced ↦ nomatch hforced

end ChainMain.TieredRewards
