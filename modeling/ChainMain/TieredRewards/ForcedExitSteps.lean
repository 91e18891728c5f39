import ChainMain.TieredRewards.ExitDichotomy
import ChainMain.TieredRewards.KeeperFrames
import ChainMain.TieredRewards.SlashHook

/-!
# When a forced exit goes through

A forced exit claims the rewards of the position and moves its delegation to the owner. Both can
refuse: the bonus when the pool does not cover it, the move when the position has an active
redelegation, when its validator is not bonded, when the shares are worth no token, and when taking
them leaves the validator without an exchange rate. `CanExit` is that none of this is so. It is
enough (`forceFullExitWithDelegation_succeeds`), as far as the other modules do what
`Keepers.ExitContract` says.

`ForcedExitEffect` is what a forced exit changes: the position is gone, other positions and their
stake stay, and no account becomes or ceases to be a vesting account.
-/

set_option autoImplicit false

namespace ChainMain.TieredRewards

open Foundations Decimal OrderedStore StoreProgram

variable {σ : Type} {K : Keepers σ} {V : VestingAccounts σ} {w w' : World σ} {id : ℕ}
  {a : AccAddress}
  {v : ValAddress} {s : Dec}
variable {owner : AccAddress} {shares : Dec} {p : Position} {pos : PositionState} {val : Validator}
  {w₁ : World σ}

/-! ### What the other modules promise -/

/-- `Validator.InvalidExRate`: there are shares but no tokens. -/
def Validator.invalidExRate (val : Validator) : Bool :=
  decide (val.tokens = 0) && decide (0 < val.delegatorShares)

/-- No validator is forgotten but the removed ones, and none has negative tokens or shares. -/
structure Staking.KeepsValidators (removed : List ValAddress) (st st' : Staking) : Prop where
  kept : ∀ (u : ValAddress) (val : Validator), st.validators[u]? = some val → u ∉ removed →
    ∃ val', st'.validators[u]? = some val'
  tokens : ∀ (u : ValAddress) (val : Validator), st'.validators[u]? = some val →
    0 ≤ val.tokens ∧ 0 ≤ val.delegatorShares

/-- What the forced exits need of the other modules to go through. -/
structure Keepers.ExitContract (K : Keepers σ) (V : VestingAccounts σ) : Prop where
  /-- The rewards of a delegation can be withdrawn, and do not come out of the pool of the
  module. -/
  withdrawDelegationRewards : ∀ ctx ext del v (shares : Dec),
    (K.staking ext).delegations[(del, v)]? = some shares →
    ∃ coins ext', K.withdrawDelegationRewards ctx ext del v = .ok (coins, ext') ∧
      ∀ bonus, K.poolCovers ext bonus → K.poolCovers ext' bonus
  deleteDelegatorWithdrawAddr : ∀ ctx ext del owner,
    ∃ ext', K.deleteDelegatorWithdrawAddr ctx ext del owner = .ok ext'
  /-- All shares of a delegation can be unbonded. -/
  unbond : ∀ ctx ext del v shares (val : Validator), (K.staking ext).validators[v]? = some val →
    (K.staking ext).delegations[(del, v)]? = some shares →
    ∃ result ext', K.unbond ctx ext del v shares = .ok (result, ext')
  unbond_validators : ∀ ctx ext del v shares amount removed ext', (K.staking ext).WellFormed →
    K.unbond ctx ext del v shares = .ok ((amount, removed), ext') →
    (K.staking ext).KeepsValidators removed (K.staking ext')
  /-- Tokens in the pools of staking can be delegated to a validator that has an exchange rate. -/
  delegate : ∀ ctx ext del amount v (val : Validator), (K.staking ext).validators[v]? = some val →
    0 < amount → val.invalidExRate = false →
    ∃ shares ext', K.delegate ctx ext del amount val.status v false = .ok (shares, ext')
  delegate_validators : ∀ ctx ext del amount status v shares ext', (K.staking ext).WellFormed →
    K.delegate ctx ext del amount status v false = .ok (shares, ext') →
    (K.staking ext).KeepsValidators [] (K.staking ext')
  /-- A vesting account is not a module account, which could not receive coins. -/
  paysOut : ∀ ext owner, K.account ext owner = some .vesting → K.PaysOut ext owner
  /-- No account becomes or ceases to be a vesting account. -/
  vesting : ∀ owner, K.Keeps fun w ↦ K.account w.ext owner = some .vesting
  trackDelegation : ∀ ctx ext b owner coins,
    (K.account (V.trackDelegation ctx ext owner coins) b = some .vesting) =
      (K.account ext b = some .vesting)

/-- None of the checks on the way of a forced exit refuses a position with `s` shares of `v`. -/
structure CanExit (K : Keepers σ) (w : World σ) (p : Position) (a : AccAddress) (v : ValAddress)
    (s : Dec) : Prop where
  notRedelegating : (K.view w).NotRedelegating a
  bonded : (K.staking w.ext).isBonded v
  /-- The pool covers the bonus that is due. -/
  covered : ∀ (tier : Tier) (val : Validator), w.store.tiers[p.tierId]? = some tier →
    (K.staking w.ext).validators[v]? = some val →
    K.poolCovers w.ext (w.store.bonus p s tier v val.isBonded val.tokensPerShare w.ctx.blockTime)
  /-- The shares are worth a token. -/
  worth : ∀ val : Validator, (K.staking w.ext).validators[v]? = some val → 0 < val.issuedTokens s
  /-- Taking the shares does not leave the validator with shares but without tokens. -/
  rate : ∀ ctx ext result ext' (val : Validator), K.staking ext = K.staking w.ext →
    K.unbond ctx ext a v s = .ok (result, ext') →
    (K.staking ext').validators[v]? = some val → val.invalidExRate = false

/-! ### Well-formed records -/

/-- Delegations that staking keeps are to validators that it keeps. -/
theorem Staking.KeepsValidators.wellFormed {removed : List ValAddress} {st st' : Staking}
    (hkeeps : st.KeepsValidators removed st')
    (hdelegations : ∀ (b : AccAddress) (u : ValAddress) (t : Dec),
      st'.delegations[(b, u)]? = some t → u ∉ removed ∧ ∃ val, st.validators[u]? = some val) :
    st'.WellFormed := by
  refine ⟨hkeeps.tokens, fun b u t ht ↦ ?_⟩
  obtain ⟨hkept, val, hval⟩ := hdelegations b u t ht
  exact hkeeps.kept u val hval hkept

variable (hK : K.Contract) (hX : K.ExitContract V)

include hK hX

theorem wellFormed_unbond {ctx : Context} {ext ext' : σ} {del : AccAddress} {amount : ℤ}
    {removed : List ValAddress} (hstaking : (K.staking ext).WellFormed)
    (h : K.unbond ctx ext del v shares = .ok ((amount, removed), ext')) :
    (K.staking ext').WellFormed := by
  obtain ⟨_, hremoves, ⟨held, hheld, _, hdelegations⟩, _⟩ := hK.unbond _ _ _ _ _ _ _ _ h
  refine (hX.unbond_validators _ _ _ _ _ _ _ _ hstaking h).wellFormed fun b u t ht ↦ ⟨?_, ?_⟩
  · intro hmem
    rw [(hremoves u hmem).2 b] at ht
    cases ht
  · rw [hdelegations, Keepers.getElem?_takeShares] at ht
    split_ifs at ht with hkey
    · exact hkey.2 ▸ hstaking.validator _ _ _ hheld
    · exact hstaking.validator _ _ _ ht

theorem wellFormed_delegate {ctx : Context} {ext ext' : σ} {del : AccAddress}
    {amount : ℤ} {status : BondStatus} (hstaking : (K.staking ext).WellFormed)
    (hval : (K.staking ext).validators[v]? = some val)
    (h : K.delegate ctx ext del amount status v false = .ok (shares, ext')) :
    (K.staking ext').WellFormed := by
  obtain ⟨_, hdelegations, _⟩ := hK.delegate _ _ _ _ _ _ _ _ _ h
  refine (hX.delegate_validators _ _ _ _ _ _ _ _ hstaking h).wellFormed
    fun b u t ht ↦ ⟨List.not_mem_nil, ?_⟩
  rw [hdelegations, Keepers.getElem?_addShares] at ht
  split_ifs at ht with hkey
  · exact hkey.2 ▸ ⟨val, hval⟩
  · exact hstaking.validator _ _ _ ht

theorem wellFormed_moveShares {src dst : AccAddress} {result : Dec × ℤ}
    (hstaking : (K.staking w.ext).WellFormed)
    (h : Succeeds (moveShares K src dst v shares) w result w') : (K.staking w'.ext).WellFormed := by
  unfold moveShares unbond at h
  simp only [succeeds_bind, succeeds_ensure, succeeds_getValidator, succeeds_call,
    succeeds_pure] at h
  obtain ⟨amount, _, hunbond, _, _, ⟨_, rfl⟩, val, _, ⟨hval, rfl⟩, newShares, _,
    ⟨ext', hext', rfl⟩, rfl, rfl⟩ := h
  obtain ⟨removed, ext, hext, rfl⟩ := succeeds_callRemoving hunbond
  exact wellFormed_delegate hK hX (wellFormed_unbond hK hX hstaking hext) hval hext'

/-! ### The parts go through -/

omit hK in
theorem claimBaseRewards_succeeds (hpos : Delegated K w id pos a v s) :
    ∃ base ext emitted,
      Succeeds (claimBaseRewards K pos) w base { w with ext := ext, emitted := emitted } ∧
      ∀ bonus, K.poolCovers w.ext bonus → K.poolCovers ext bonus := by
  obtain ⟨coins, ext, hwithdraw, hpool⟩ :=
    hX.withdrawDelegationRewards w.ctx w.ext a v s hpos.stake.stakes_eq
  have hreport : ∃ emitted, Succeeds
      (do if ¬ coins.isZero then emit (.baseRewardsClaimed pos.id pos.owner coins)
          return coins) { w with ext := ext } coins { w with ext := ext, emitted := emitted } := by
    by_cases hzero : coins.isZero
    · refine ⟨w.emitted, ?_⟩
      rw [if_neg (not_not.mpr hzero)]
      exact .pure
    · refine ⟨w.emitted ++ [.baseRewardsClaimed pos.id pos.owner coins], ?_⟩
      rw [if_pos hzero]
      exact succeeds_bind.mpr ⟨⟨⟩, _, succeeds_emit.mpr rfl, .pure⟩
  obtain ⟨emitted, hreport⟩ := hreport
  refine ⟨coins, ext, emitted, ?_, hpool⟩
  unfold claimBaseRewards
  simp only [hpos.delegation, succeeds_bind, succeeds_valAddressFromBech32,
    succeeds_accAddressFromBech32, succeeds_call]
  exact ⟨v, w, ⟨K.valCodec.stringToBytes_bytesToString v, rfl⟩, a, w,
    ⟨hpos.holds.account, rfl⟩, coins, _, ⟨ext, hwithdraw, rfl⟩, hreport⟩

omit hK hX in
theorem claimBonus_covered {del : Delegation} {tier : Tier}
    (hdel : pos.delegation = some del)
    (hv : K.valCodec.stringToBytes del.validatorAddress = some v)
    (htier : w.store.tiers[pos.tierId]? = some tier)
    (hval : (K.staking w.ext).validators[v]? = some val)
    (howner : K.accCodec.stringToBytes pos.owner = some owner) (hreceives : K.PaysOut w.ext owner)
    (hbonus : 0 ≤ w.store.bonus pos.toPosition del.shares tier v val.isBonded val.tokensPerShare
      w.ctx.blockTime)
    (hpool : K.poolCovers w.ext (w.store.bonus pos.toPosition del.shares tier v val.isBonded
      val.tokensPerShare w.ctx.blockTime)) :
    ∃ result w', Succeeds (claimBonus K pos) w result w' := by
  set bonus := w.store.bonus pos.toPosition del.shares tier v val.isBonded val.tokensPerShare
    w.ctx.blockTime with hbonus_eq
  set p := w.store.settled pos.toPosition del.shares tier v w.ctx.blockTime with hp
  set w₁ : World σ := { w with store := w.store.replayed pos.toPosition v } with hw₁
  obtain ⟨coins, w₂, hpay⟩ : ∃ coins w₂, Succeeds (payBonus K p bonus) w₁ coins w₂ := by
    rcases hbonus.eq_or_lt with hzero | hpos
    · refine ⟨∅, w₁, ?_⟩
      unfold payBonus
      rw [if_pos hzero.symm]
      exact .pure
    · obtain ⟨ext, hsend⟩ := hreceives w.ctx bonus hpos hpool
      exact ⟨_, _, payBonus_covered (w := w₁) hpos hpool howner hsend⟩
  exact ⟨(pos.withPosition p, coins), w₂, claimBonus_of_payBonus hdel hv htier hval hpay⟩

/-- The rewards of a position whose bonus the pool covers are claimed. -/
theorem claimRewards_succeeds (hw : K.Sound w) (hstaking : (K.staking w.ext).WellFormed)
    (hpriced : (K.view w).Priced) (hpos : Delegated K w id pos a v s)
    (howner : K.accCodec.stringToBytes pos.owner = some owner)
    (hvesting : K.account w.ext owner = some .vesting) (hcan : CanExit K w pos.toPosition a v s) :
    ∃ result w₁, Succeeds (claimRewards K pos) w result w₁ := by
  obtain ⟨base, ext, emitted, hbase, hpool⟩ := claimBaseRewards_succeeds hX hpos
  have haside := aside_claimBaseRewards hK hbase
  have hkept : K.account ext owner = some .vesting :=
    (leaves_claimBaseRewards (hX.vesting owner) pos _ _ _ hbase).mpr hvesting
  obtain ⟨tier, val, htier, hval, hbonus⟩ := hpos.bonus_nonneg hw hstaking hpriced
  have hval' : (K.staking ext).validators[v]? = some val :=
    (congrArg (fun st ↦ st.validators[v]?) haside.outside.staking).trans hval
  obtain ⟨⟨pos', bonus⟩, w₁, hclaim⟩ := claimBonus_covered
    (w := { w with ext := ext, emitted := emitted }) hpos.delegation
    (K.valCodec.stringToBytes_bytesToString v) htier hval' howner (hX.paysOut _ _ hkept) hbonus
    (hpool _ (hcan.covered tier val htier hval))
  refine ⟨(pos', base, bonus), w₁, ?_⟩
  unfold claimRewards
  rw [if_pos hpos.isDelegated]
  exact succeeds_bind.mpr ⟨base, _, hbase, succeeds_bind.mpr ⟨(pos', bonus), w₁, hclaim,
    .pure⟩⟩

theorem moveShares_succeeds (hR : K.ExchangeRates) (hsame : K.staking w₁.ext = K.staking w.ext)
    (hstaking : (K.staking w.ext).WellFormed) (hstake : (K.view w).StakedOn a v s)
    (hval : (K.staking w.ext).validators[v]? = some val) (hcan : CanExit K w p a v s) :
    ∃ result w₂, Succeeds (moveShares K a owner v s) w₁ result w₂ := by
  have hval₁ : (K.staking w₁.ext).validators[v]? = some val := hsame ▸ hval
  obtain ⟨⟨amount, removed⟩, ext, hunbond⟩ :=
    hX.unbond w₁.ctx w₁.ext a v s val hval₁ (hsame ▸ hstake.stakes_eq)
  obtain ⟨val', hval', hamount⟩ := hR.unbond _ _ _ _ _ _ _ _ hunbond
  obtain rfl := Option.mem_unique hval₁ hval'
  have hpositive : 0 < amount := hamount ▸ hcan.worth val hval
  -- a bonded validator is not removed with its last shares
  obtain ⟨_, hremoves, _⟩ := hK.unbond _ _ _ _ _ _ _ _ hunbond
  have hkept : v ∉ removed := by
    intro hmem
    have hbonded := hcan.bonded
    rw [← hsame, (hremoves v hmem).1] at hbonded
    cases hbonded
  obtain ⟨left, hleft⟩ :=
    (hX.unbond_validators _ _ _ _ _ _ _ _ (hsame ▸ hstaking) hunbond).kept v val
    hval₁ hkept
  obtain ⟨newShares, ext', hdelegate⟩ := hX.delegate w₁.ctx ext owner amount v left hleft hpositive
    (hcan.rate _ _ _ _ left hsame hunbond hleft)
  refine ⟨(newShares, amount), { w₁ with ext := ext', store := w₁.store.dropRemoved removed }, ?_⟩
  unfold moveShares unbond callRemoving afterValidatorsRemoved
  simp only [succeeds_bind, succeeds_ensure, succeeds_getValidator, succeeds_call,
    succeeds_modifyStore, succeeds_pure]
  exact ⟨amount, { w₁ with ext := ext, store := w₁.store.dropRemoved removed },
    ⟨(amount, removed), _, ⟨ext, hunbond, rfl⟩, ⟨⟩, _, rfl, rfl, rfl⟩, ⟨⟩, _,
    ⟨decide_eq_true hpositive.ne', rfl⟩, left, _, ⟨hleft, rfl⟩, newShares, _,
    ⟨ext', hdelegate, rfl⟩, rfl, rfl⟩

/-- The delegation of a claimed position goes to its owner, for the whole amount. -/
theorem transferDelegationFromPosition_succeeds (hR : K.ExchangeRates)
    (hclaimed : Claimed K w id p a v s pos w₁) (hstaking : (K.staking w.ext).WellFormed)
    (howner : K.accCodec.stringToBytes pos.owner = some owner)
    (hval : (K.staking w.ext).validators[v]? = some val) (hcan : CanExit K w p a v s) :
    ∃ result w₂, Succeeds (transferDelegationFromPosition K pos v (val.amountOfShares s)) w₁ result
      w₂ := by
  have hsame : K.staking w₁.ext = K.staking w.ext := hclaimed.outside.staking
  have hval₁ : (K.staking w₁.ext).validators[v]? = some val := hsame ▸ hval
  have hstake : (K.view w).StakedOn a v s := by
    intro u
    change (K.staking w.ext).delegations[(a, u)]? = _
    rw [← hsame]
    exact hclaimed.stake u
  obtain ⟨⟨newShares, amount⟩, w₂, hmove⟩ :=
    moveShares_succeeds hK hX hR hsame hstaking hstake hval hcan
  have hnone : (K.staking w₁.ext).redelegationsOf a = [] := by
    rw [hsame]
    exact redelegationsOf_eq_nil.mpr hcan.notRedelegating
  have hreject : Succeeds (rejectRedelegating K pos.toPosition) w₁ ⟨⟩ w₁ := by
    unfold rejectRedelegating
    simp only [succeeds_bind, succeeds_isRedelegating, succeeds_ensure]
    refine ⟨_, w₁, ⟨⟨a, hclaimed.holds.account, rfl⟩, rfl⟩, ?_, rfl⟩
    rw [hnone]
    rfl
  have hbonded : Succeeds (getBondedValidator K v .transferDelegationDestNotFound) w₁ val w₁ := by
    unfold getBondedValidator
    simp only [succeeds_bind, succeeds_get, succeeds_expect, succeeds_ensure, succeeds_pure]
    exact ⟨w₁, w₁, ⟨rfl, rfl⟩, val, w₁, ⟨hval₁, rfl⟩, ⟨⟩, w₁,
      ⟨(isBonded_eq hval).symm.trans hcan.bonded, rfl⟩, rfl, rfl⟩
  refine ⟨(newShares, s, amount), w₂, ?_⟩
  unfold transferDelegationFromPosition
  simp only [succeeds_bind, succeeds_accAddressFromBech32, succeeds_expect, succeeds_pure]
  refine ⟨owner, w₁, ⟨howner, rfl⟩, a, w₁, ⟨hclaimed.holds.account, rfl⟩, _, w₁,
    ⟨hclaimed.delegation, rfl⟩, ⟨⟩, w₁, hreject, val, w₁, hbonded, val.amountOfShares s, w₁,
    succeeds_reconcileAmountFromShares.mpr ⟨⟨val, hval₁, rfl⟩, rfl⟩, s, w₁, ?_,
    (newShares, amount), w₂, hmove, rfl, rfl⟩
  exact succeeds_ite.mpr (Or.inl ⟨beq_self_eq_true (val.amountOfShares s),
    .pure⟩)

omit hK hX in
/-- Where every delegation is to a validator, what an account tracks can be aligned. -/
theorem alignVestingDelegationTracking_succeeds (hstaking : (K.staking w.ext).WellFormed)
    (owner : AccAddress) : ∃ w', Succeeds (alignVestingDelegationTracking K V owner) w ⟨⟩ w' := by
  have hsum : ∀ (delegations : List (ValAddress × Dec)) (total : ℤ),
      (∀ entry ∈ delegations, ∃ val, (K.staking w.ext).validators[entry.1]? = some val) →
      ∃ sum, Succeeds (sumDelegatedTokens K delegations total) w sum w := by
    intro delegations
    induction delegations with
    | nil => exact fun total _ ↦ ⟨total, .pure⟩
    | cons entry delegations ih =>
      intro total hentries
      obtain ⟨val, hval⟩ := hentries entry List.mem_cons_self
      obtain ⟨sum, hrest⟩ := ih (total + (val.tokensFromShares entry.2).truncateInt)
        fun e he ↦ hentries e (List.mem_cons_of_mem _ he)
      exact ⟨sum, succeeds_bind.mpr ⟨val, w, succeeds_wrapping.mpr
        (succeeds_getValidator.mpr ⟨hval, rfl⟩), hrest⟩⟩
  have hdelegations : ∀ entry ∈ ((K.staking w.ext).delegationsOf owner).take 1000,
      ∃ val, (K.staking w.ext).validators[entry.1]? = some val := by
    rintro ⟨u, t⟩ hentry
    obtain ⟨⟨⟨b, u'⟩, t'⟩, hmem, heq⟩ := List.mem_map.mp (List.mem_of_mem_take hentry)
    obtain ⟨rfl, rfl⟩ := Prod.mk.inj heq
    exact hstaking.validator b u' t' (mem_toList.mp (List.mem_filter.mp hmem).1)
  obtain ⟨actual, hactual⟩ := hsum _ 0 hdelegations
  unfold alignVestingDelegationTracking
  simp only [succeeds_read]
  split
  · unfold topUpVestingDelegation
    simp only [succeeds_read]
    by_cases hle : actual ≤ (V.delegatedVesting w.ext owner).amountOf (K.bondDenom w.ext) +
        (V.delegatedFree w.ext owner).amountOf (K.bondDenom w.ext)
    · exact ⟨w, succeeds_bind.mpr ⟨actual, w, hactual,
        succeeds_ite.mpr (Or.inl ⟨hle, .pure⟩)⟩⟩
    · exact ⟨_, succeeds_bind.mpr ⟨actual, w, hactual,
        succeeds_ite.mpr (Or.inr ⟨hle, succeeds_modify.mpr rfl⟩)⟩⟩
  · exact ⟨w, .pure⟩

omit hK in
theorem deletePosition_succeeds {pos : Position}
    (howner : K.accCodec.stringToBytes pos.owner = some owner)
    (ha : K.accCodec.stringToBytes pos.delegatorAddress = some a) (hidle : (K.view w).Idle a)
    (update : Option (Option ValAddress)) :
    ∃ w', Succeeds (deletePosition K pos (transition K update)) w ⟨⟩ w' := by
  obtain ⟨ext, hext⟩ := hX.deleteDelegatorWithdrawAddr w.ctx w.ext a owner
  have hdel : Succeeds (getDelegation K pos.delegatorAddress) w none w :=
    succeeds_getDelegation.mpr ⟨⟨a, ha, firstDelegation_eq_none.mpr hidle⟩, rfl⟩
  have hmove : ∀ w₁ : World σ,
      Succeeds (applyTransition K (transition K update) (validatorString K none))
      w₁ ⟨⟩ { w₁ with store := w₁.store.applyMove update none } := fun w₁ ↦
    succeeds_applyTransition.mpr rfl
  unfold deletePosition deletePositionRedelegationMappings
  simp only [succeeds_bind, succeeds_accAddressFromBech32, succeeds_modifyStore, succeeds_callUnit]
  exact ⟨_, owner, w, ⟨howner, rfl⟩, a, w, ⟨ha, rfl⟩, none, w, hdel, ⟨⟩, w, .pure,
    ⟨⟩, _, ⟨ext, hext, rfl⟩, ⟨⟩, _, rfl, ⟨⟩, _, rfl, ⟨⟩, _, rfl, ⟨⟩, _, rfl, ⟨⟩, _, rfl, hmove _⟩

/-! ### The whole exit -/

omit hK hX in
/-- A position whose shares were all transferred has no stake left. -/
theorem idle_of_transferred {newShares : Dec} {removed : List ValAddress} {ext : σ}
    (hclaimed : Claimed K w id p a v s pos w₁) (hne : a ≠ owner)
    (htransfer : Transferred K w₁.ext a owner v s s newShares removed ext)
    (hsame : K.staking w'.ext = K.staking ext) : (K.view w').Idle a := by
  refine idle_takeShares hclaimed.stake fun x ↦ ?_
  change (K.staking w'.ext).delegations[(a, x)]? = _
  rw [hsame]
  exact htransfer.stakes_src hne x

/-- A forced exit of a position of a vesting account goes through if nothing on its way refuses. -/
theorem forceFullExitWithDelegation_succeeds (hB : K.BankContract V) (hR : K.ExchangeRates)
    (hw : K.Sound w) (hstaking : (K.staking w.ext).WellFormed) (hpriced : (K.view w).Priced)
    (hp : w.store.positions[id]? = some p) (howner : K.accCodec.stringToBytes p.owner = some owner)
    (hvesting : K.account w.ext owner = some .vesting)
    (hcan : ∀ pos a v s, Delegated K w id pos a v s → CanExit K w pos.toPosition a v s) :
    ∃ w', Succeeds (forceFullExitWithDelegation K V id) w ⟨⟩ w' := by
  obtain ⟨b, hb, _⟩ := hw.accounted.holds hp
  have hload : Succeeds (getPositionState K id) w ⟨p, firstDelegation K (K.staking w.ext) b⟩ w :=
    succeeds_getPositionState.mpr ⟨hp, ⟨b, hb.account, rfl⟩, rfl⟩
  obtain ⟨_, a, ⟨v, s, hpos⟩ | hpos⟩ := loaded_cases hw hload
  · have hexits := hcan _ a v s hpos
    obtain ⟨⟨pos, base, bonus⟩, w₁, hclaim⟩ :=
      claimRewards_succeeds hK hX hw hstaking hpriced hpos howner hvesting hexits
    have hclaimed := claimed_of_claimRewards hK hw hpos (.refl _) hclaim
    have howner₁ : K.accCodec.stringToBytes pos.owner = some owner :=
      hclaimed.same.owner.symm ▸ howner
    obtain ⟨val, hval⟩ := hstaking.validator a v s hpos.stake.stakes_eq
    obtain ⟨⟨newShares, shares, transferred⟩, w₂, htransfer⟩ :=
      transferDelegationFromPosition_succeeds hK hX hR hclaimed hstaking howner₁ hval hexits
    have hsame : K.staking w₁.ext = K.staking w.ext := hclaimed.outside.staking
    have hamount : Succeeds (reconcileAmountFromShares K v s) w₁ (val.amountOfShares s) w₁ :=
      succeeds_reconcileAmountFromShares.mpr ⟨⟨val, hsame ▸ hval, rfl⟩, rfl⟩
    obtain ⟨owner', removed, ext, howner', htransferred, hfull, _, hmove, rfl⟩ :=
      succeeds_transferDelegationFromPosition hK hclaimed hamount htransfer
    obtain rfl := Option.mem_unique howner₁ howner'
    obtain rfl := hfull (beq_self_eq_true _)
    have hstaking₂ := wellFormed_moveShares hK hX (hsame ▸ hstaking) hmove
    obtain ⟨w₃, halign⟩ := alignVestingDelegationTracking_succeeds (V := V) hstaking₂ owner
    have hne : a ≠ owner := by
      rintro rfl
      exact (hclaimed.owner_free howner₁).2 hclaimed.holds.held
    have hidle : (K.view w₃).Idle a := idle_of_transferred hclaimed hne htransferred
      (aside_alignVestingDelegationTracking hB halign).outside.staking
    obtain ⟨w', hdelete⟩ :=
      deletePosition_succeeds hX howner₁ hclaimed.holds.account hidle (some (some v))
    refine ⟨w', succeeds_forceFullExitWithDelegation.mpr ⟨_, hload,
      Or.inl ⟨hpos.isDelegated, pos, v, w₃, succeeds_unwindPosition.mpr ?_, hdelete⟩⟩⟩
    exact ⟨base, bonus, _, val.amountOfShares shares, _, owner, w₁, _, hclaim, hclaimed.delegation,
      K.valCodec.stringToBytes_bytesToString v, hamount, htransfer, howner₁, halign⟩
  · refine ⟨w, succeeds_forceFullExitWithDelegation.mpr ⟨_, hload, Or.inr ⟨?_, rfl⟩⟩⟩
    rw [hpos.isDelegated]
    exact Bool.false_ne_true

structure ForcedExitEffect (K : Keepers σ) (w : World σ) (id : ℕ) (w' : World σ) : Prop where
  sound : K.Sound w'
  wellFormed : (K.staking w'.ext).WellFormed
  priced : (K.view w').Priced
  exited : w'.store.positions[id]? = none ∨
    w' = w ∧ ∀ p b, (K.view w).Holds K.accCodec id p b → (K.view w).Idle b
  others : ∀ i, i ≠ id → w'.store.positions[i]? = w.store.positions[i]?
  vesting : ∀ b, K.account w'.ext b = some .vesting ↔ K.account w.ext b = some .vesting
  stakes : ∀ i p b, i ≠ id → (K.view w).Holds K.accCodec i p b → ∀ u : ValAddress,
    (K.staking w'.ext).delegations[(b, u)]? = (K.staking w.ext).delegations[(b, u)]?

omit hK hX in
theorem SettleRun.positions_of_not_mem {ids : List ℕ} {i : ℕ} (h : SettleRun K w ids w')
    (hw : K.Sound w) (hi : i ∉ ids) :
    w'.store.positions[i]? = w.store.positions[i]? := by
  induction h with
  | nil w => rfl
  | @settle w w₁ w' id ids p a v s tier val hfirst hrest ih =>
    obtain ⟨hne, hi⟩ := List.ne_and_not_mem_of_not_mem_cons hi
    rw [ih (hfirst.sound hw) hi, hfirst.store]
    have hid : (w.store.settled p s tier v w.ctx.blockTime).id ≠ i := by
      rw [(Position.sameIdentity_settled w.store p s tier v w.ctx.blockTime).id,
        hw.indexed.id_eq id p hfirst.holds.stored]
      exact fun heq ↦ hne heq.symm
    exact getElem?_insert_ne hid _
  | skip _ _ _ ih => exact ih hw (List.not_mem_of_not_mem_cons hi)

omit hK in
/-- No account becomes or ceases to be a vesting account in a forced exit. -/
theorem leaves_vesting_forceFullExit (b : AccAddress) :
    Leaves (fun w : World σ ↦ K.account w.ext b = some .vesting)
      (forceFullExitWithDelegation K V id) := by
  rintro w ⟨⟩ w' h
  obtain ⟨pos, _, ⟨_, pos', v, w₁, hunwind, hdelete⟩ | ⟨_, rfl⟩⟩ :=
    succeeds_forceFullExitWithDelegation.mp h
  · obtain ⟨_, _, _, _, _, owner, w₂, w₃, hclaim, _, _, _, htransfer, _, halign⟩ :=
      succeeds_unwindPosition.mp hunwind
    have hkept := hX.vesting b
    have haligned : Leaves (fun w : World σ ↦ K.account w.ext b = some .vesting)
        (alignVestingDelegationTracking K V owner) := by
      refine leaves_bind leaves_get fun w ↦ ?_
      split
      · refine leaves_bind leaves_get fun w ↦ leaves_bind
          (leaves_of_reads fun _ _ _ hsum ↦ sumDelegatedTokens_reads hsum) fun actual ↦ ?_
        exact leaves_ite (leaves_pure _) (leaves_modify fun w ↦ hX.trackDelegation _ _ _ _ _)
      · exact leaves_pure _
    exact (leaves_deletePosition hkept.outside _ _ hkept.deleteDelegatorWithdrawAddr _ _ _
      hdelete).trans
      ((haligned _ _ _ halign).trans ((leaves_transferDelegationFromPosition hkept _ _ _ _ _ _
        htransfer).trans (leaves_claimRewards hkept _ _ _ _ hclaim)))
  · rfl

theorem forceFullExitWithDelegation_effect (hB : K.BankContract V)
    (hw : K.Sound w) (hstaking : (K.staking w.ext).WellFormed)
    (hpriced : (K.view w).Priced) (h : Succeeds (forceFullExitWithDelegation K V id) w ⟨⟩ w') :
    ForcedExitEffect K w id w' := by
  have hvesting : ∀ b, K.account w'.ext b = some .vesting ↔ K.account w.ext b = some .vesting :=
    fun b ↦ Iff.of_eq (leaves_vesting_forceFullExit hX b _ _ _ h)
  rcases forceFullExitWithDelegation_cases hK hB hw h with ⟨rfl, pos, a, hpos⟩
      | ⟨a, v, s, p, pos₀, pos, w₁, w₂, owner,
    newShares, removed, ext, hclaimed, howner, htransferred, haside, _, _, hdelete, amount, hmove⟩
  · refine ⟨hw, hstaking, hpriced, Or.inr ⟨rfl, fun p b hb ↦ ?_⟩, fun _ _ ↦ rfl, hvesting,
      fun _ _ _ _ _ _ ↦ rfl⟩
    obtain rfl := Option.mem_unique hpos.holds.stored hb.stored
    obtain rfl := Option.mem_unique hpos.holds.account hb.account
    exact hpos.idle
  · obtain ⟨hexists, hfree⟩ := hclaimed.owner_free howner
    obtain ⟨hquiet, _⟩ :=
      deleteTransferred_run hK hclaimed htransferred howner hexists hfree haside hdelete
    have hstaking₁ : (K.staking w₁.ext).WellFormed := hclaimed.outside.staking ▸ hstaking
    obtain ⟨owner', a', ext', howner', _, _, hext', rfl⟩ := succeeds_deletePosition hdelete
    obtain rfl := Option.mem_unique howner howner'
    have hsame : K.staking ext' = K.staking ext :=
      (hK.deleteDelegatorWithdrawAddr _ _ _ _ _ hext').staking.trans haside.outside.staking
    have hwell : (K.staking ext).WellFormed := wellFormed_moveShares hK hX hstaking₁ hmove
    have hpositions : ((w₂.store.removePosition owner pos.toPosition).applyMove (some (some v))
        none).positions = w₁.store.positions.erase id := by
      rw [← hclaimed.id_eq, haside.store]
      change (w₁.store.dropRemoved removed).positions.erase _ = _
      rw [Store.dropRemoved_positions]
    refine ⟨hquiet.sound hclaimed.sound, hsame ▸ hwell,
      hquiet.priced (hclaimed.settles.priced hw hpriced),
      Or.inl ?_, fun i hi ↦ ?_, hvesting, fun i q b hi hb u ↦ ?_⟩
    · dsimp only
      rw [hpositions, getElem?_erase_eq, if_pos rfl]
    · have hsettled := hclaimed.settles.positions_of_not_mem hw
        (fun hmem ↦ hi (List.mem_singleton.mp hmem))
      have hput : (w₁.putPosition pos.toPosition).store.positions[i]? = w₁.store.positions[i]? :=
        getElem?_insert_ne (hclaimed.id_eq.trans_ne (Ne.symm hi)) _
      dsimp only
      rw [hpositions, getElem?_erase_ne (Ne.symm hi), ← hput, hsettled]
    · -- the stake of another position is neither the exited one nor the owner's
      have hother : ¬ (b = a ∨ b = owner) := by
        rintro (rfl | rfl)
        · exact hi (hw.accounted.distinct i id q p b hb hclaimed.before)
        · have howner₀ : K.accCodec.stringToBytes p.owner = some b := hclaimed.same.owner ▸ howner
          exact (hw.owned id p b hclaimed.before.stored howner₀).free hb.held
      change (K.staking ext').delegations[(b, u)]? = _
      rw [hsame, htransferred.touches.delegations b hother u, hclaimed.outside.staking]

end ChainMain.TieredRewards
