import ChainMain.TieredRewards.Deletions

/-!
# Full and partial exits

`ExitTierWithDelegation` compares the amount of the message with the value of the position in whole
tokens, and `transferDelegationFromPosition` does the same before it chooses the shares to unbond.
The value goes through one rounding and the shares through another. `Keepers.ExchangeRates` states
the two roundings of `x/staking`: shares for tokens are truncated to eighteen digits and capped at
the delegation, tokens for shares are rounded half to even and truncated, and the last shares of a
validator take all its tokens.

An amount below the value is worth strictly fewer shares than the position has, whatever the rate
(`sharesFromTokens_lt`), and those shares are worth at most the amount (`amountOfShares_le`), so the
two comparisons cannot disagree (`exit_amount_dichotomy`).
-/

set_option autoImplicit false

namespace ChainMain.TieredRewards

open Foundations Decimal OrderedStore StoreProgram

/-! ### Exchange rates -/

namespace Validator

def sharesFromTokens (val : Validator) (amount : ℤ) : Dec :=
  (val.delegatorShares.mulInt amount).quoInt val.tokens

/-- The tokens of `Validator.RemoveDelShares`: the last shares take what is left. -/
def issuedTokens (val : Validator) (shares : Dec) : ℤ :=
  if val.delegatorShares - shares = 0 then val.tokens else (val.tokensFromShares shares).truncateInt

variable {val : Validator}

theorem amountOfShares_eq (hshares : 0 < val.delegatorShares) (shares : Dec) :
    val.amountOfShares shares = (val.tokensFromShares shares).truncateInt := by
  have hnonzero : ¬ val.delegatorShares.isZero := by
    intro hzero
    exact (Dec.lt_iff.mp hshares).ne' (eq_of_beq hzero)
  rw [amountOfShares, if_neg hnonzero]

/-- Shares that cost at most an amount are worth at most the amount. -/
theorem amountOfShares_le (htokens : 0 < val.tokens) (hshares : 0 < val.delegatorShares)
    {shares : Dec} (hnonneg : 0 ≤ shares) {amount : ℤ}
    (h : shares.units * val.tokens ≤ val.delegatorShares.units * amount) :
    val.amountOfShares shares ≤ amount := by
  rw [amountOfShares_eq hshares]
  exact Dec.truncateInt_quo_le (mul_nonneg (Dec.units_nonneg.mp hnonneg) htokens.le) hshares h

theorem sharesFromTokens_mul_le (hshares : 0 < val.delegatorShares) {amount : ℤ}
    (hamount : 0 ≤ amount) :
    (val.sharesFromTokens amount).units * val.tokens ≤ val.delegatorShares.units * amount := by
  rw [mul_comm]
  exact Int.mul_tdiv_self_le (mul_nonneg (Dec.lt_iff.mp hshares).le hamount)

theorem sharesFromTokens_nonneg (htokens : 0 < val.tokens) (hshares : 0 < val.delegatorShares)
    {amount : ℤ} (hamount : 0 ≤ amount) : 0 ≤ val.sharesFromTokens amount :=
  Int.tdiv_nonneg (mul_nonneg (Dec.lt_iff.mp hshares).le hamount) htokens.le

/-- An amount below the value of some shares buys strictly fewer shares. -/
theorem sharesFromTokens_lt (htokens : 0 < val.tokens) (hshares : 0 < val.delegatorShares)
    {amount : ℤ} (hamount : 0 ≤ amount) {shares : Dec} (hnonneg : 0 ≤ shares)
    (h : amount < val.amountOfShares shares) : val.sharesFromTokens amount < shares := by
  by_contra hle
  have hcost := sharesFromTokens_mul_le hshares hamount
  have hunits : shares.units ≤ (val.sharesFromTokens amount).units := Dec.le_iff.mp (not_lt.mp hle)
  have hshare := (mul_le_mul_of_nonneg_right hunits htokens.le).trans hcost
  exact absurd h (not_lt.mpr (amountOfShares_le htokens hshares hnonneg hshare))

theorem amountOfShares_le_issuedTokens (hshares : 0 < val.delegatorShares) (shares : Dec) :
    val.amountOfShares shares ≤ val.issuedTokens shares := by
  rw [amountOfShares_eq hshares, issuedTokens]
  split_ifs with hlast
  · rw [← sub_eq_zero.mp hlast]
    exact (Dec.truncateInt_mulInt_quo hshares).le
  · rfl

end Validator

variable {σ : Type} {K : Keepers σ} {w w' : World σ} {a : AccAddress} {v : ValAddress} {s : Dec}

/-- How `x/staking` converts between tokens and shares when a delegation is unbonded. -/
structure Keepers.ExchangeRates (K : Keepers σ) : Prop where
  validateUnbondAmount : ∀ ext del v amount shares,
    K.validateUnbondAmount ext del v amount = .ok shares →
      ∃ val held, (K.staking ext).validators[v]? = some val ∧
        (K.staking ext).delegations[(del, v)]? = some held ∧
        shares = min (val.sharesFromTokens amount) held
  unbond : ∀ ctx ext del v shares amount removed ext',
    K.unbond ctx ext del v shares = .ok ((amount, removed), ext') →
      ∃ val, (K.staking ext).validators[v]? = some val ∧ amount = val.issuedTokens shares

/-! ### The two branches -/

theorem issuedTokens_of_moveShares (hR : K.ExchangeRates) {src dst : AccAddress} {shares : Dec}
    {result : Dec × ℤ} {val : Validator} (hval : (K.staking w.ext).validators[v]? = some val)
    (h : Succeeds (moveShares K src dst v shares) w result w') :
    result.2 = val.issuedTokens shares := by
  obtain ⟨amount, _, hunbond, hrest⟩ := succeeds_bind.mp h
  simp only [succeeds_bind, succeeds_ensure, succeeds_pure] at hrest
  obtain ⟨_, _, _, _, _, _, _, _, _, rfl, _⟩ := hrest
  obtain ⟨removed, ext, hext, _⟩ := succeeds_callRemoving hunbond
  obtain ⟨val', hval', hamount⟩ := hR.unbond _ _ _ _ _ _ _ _ hext
  obtain rfl := Option.mem_unique hval hval'
  exact hamount

/-- The shares of a partial exit are fewer than the position has, and worth at most the amount. -/
theorem partial_shares (hR : K.ExchangeRates) {val : Validator}
    (hval : (K.staking w.ext).validators[v]? = some val) (htokens : 0 < val.tokens)
    (hshares : 0 < val.delegatorShares) (hstake : (K.view w).StakedOn a v s) (hpos : 0 ≤ s)
    {pos : PositionState} {del : Delegation} {amount : ℤ} {shares : Dec} (hamount : 0 < amount)
    (hless : amount < val.amountOfShares s)
    (h : Succeeds (sharesToTransfer K pos del a v amount (val.amountOfShares s)) w shares w') :
    0 ≤ shares ∧ shares < s ∧ val.amountOfShares shares ≤ amount := by
  have hpart : ¬ pos.exitWithFullDelegation amount (val.amountOfShares s) := fun hfull ↦
    hless.ne (eq_of_beq hfull)
  rcases succeeds_ite.mp h with ⟨hfull, _⟩ | ⟨_, hrest⟩
  · exact absurd hfull hpart
  · obtain ⟨houtcome, _⟩ := succeeds_fromOutcome.mp (succeeds_read.mp hrest)
    obtain ⟨val', held, hval', hheld, rfl⟩ := hR.validateUnbondAmount _ _ _ _ _ houtcome
    obtain rfl := Option.mem_unique hval hval'
    obtain rfl : s = held := Option.mem_unique hstake.stakes_eq hheld
    have hlt := Validator.sharesFromTokens_lt htokens hshares hamount.le hpos hless
    rw [min_eq_left hlt.le]
    have hnonneg := Validator.sharesFromTokens_nonneg htokens hshares hamount.le
    exact ⟨hnonneg, hlt, Validator.amountOfShares_le htokens hshares hnonneg
      (Validator.sharesFromTokens_mul_le hshares hamount.le)⟩

/-- The position and the stake after a full exit: nothing is left of either. -/
theorem exitFully_removes (hK : K.Contract) {id : ℕ} {w₁ w₂ : World σ} {p : Position}
    {pos : PositionState} {ext : σ} {owner : AccAddress} {removed : List ValAddress}
    {newShares : Dec} {msgOwner : String} {u : PUnit} (hclaimed : Claimed K w id p a v s pos w₁)
    (htransfer : Transferred K w₁.ext a owner v s s newShares removed ext)
    (howner : K.accCodec.stringToBytes pos.owner = some owner)
    (h : Succeeds (exitFully K msgOwner pos (K.valCodec.bytesToString v))
      { w₁ with ext := ext, store := w₁.store.dropRemoved removed } u w₂) :
    w₂.store.positions[id]? = none ∧ (K.view w₂).Idle a := by
  unfold exitFully at h
  simp only [succeeds_bind, succeeds_accAddressFromBech32] at h
  obtain ⟨_, _, ⟨_, rfl⟩, _, _, ⟨_, rfl⟩, balances, w₃, hsweep, hdelete⟩ := h
  have hdeletes :
      Succeeds (deletePosition K pos.toPosition (transition K (some (some v)))) w₃ u w₂ :=
    hdelete
  obtain ⟨hexists, hfree⟩ := hclaimed.owner_free howner
  have hidle := (deleteTransferred_run hK hclaimed htransfer howner hexists hfree
    (aside_sweepBalances hK hsweep) hdeletes).2
  obtain ⟨_, _, _, _, _, _, _, rfl⟩ := succeeds_deletePosition hdeletes
  refine ⟨?_, hidle⟩
  change (w₃.store.positions.erase pos.id)[id]? = none
  rw [hclaimed.id_eq, getElem?_erase_eq, if_pos rfl]

/-- The position and the stake after a partial exit: what is left is staked and worth the minimum of
the tier at the rate of the moment. -/
theorem exitPartially_keeps {id : ℕ} {w₁ w₂ : World σ} {p : Position} {pos : PositionState}
    {ext : σ} {owner : AccAddress} {removed : List ValAddress} {shares newShares : Dec} {u : PUnit}
    (hclaimed : Claimed K w id p a v s pos w₁)
    (htransfer : Transferred K w₁.ext a owner v s shares newShares removed ext)
    (howner : K.accCodec.stringToBytes pos.owner = some owner) (hleft : 0 < s - shares)
    (h : Succeeds (exitPartially K pos v (s - shares))
      { w₁ with ext := ext, store := w₁.store.dropRemoved removed } u w₂) :
    (K.view w₂).StakedOn a v (s - shares) ∧
      ∃ q tier value, (K.view w₂).Holds K.accCodec id q a ∧ w₂.store.tiers[q.tierId]? = some tier ∧
        Succeeds (reconcileAmountFromShares K v (s - shares)) w₂ value w₂ ∧
        tier.minLockAmount ≤ value := by
  unfold exitPartially at h
  simp only [succeeds_bind, succeeds_getTier, succeeds_ensure] at h
  obtain ⟨value, _, hvalue, tier, _, ⟨htier, rfl⟩, _, _, ⟨hminimum, rfl⟩, hset⟩ := h
  obtain rfl := reconcileAmountFromShares_reads hvalue
  have hstored : (w₁.store.dropRemoved removed).positions[pos.id]? = some p := by
    rw [Store.dropRemoved_positions]
    exact hclaimed.stored
  obtain ⟨_, rfl⟩ := setPosition_update pos.toPosition none hset hstored hclaimed.same
    hclaimed.holds.account
  have hne : a ≠ owner := by
    rintro rfl
    exact (hclaimed.owner_free howner).2 hclaimed.holds.held
  refine ⟨stakedOn_takeShares hclaimed.stake hleft.ne' (htransfer.stakes_src hne), pos.toPosition,
    tier, value, ⟨?_, hclaimed.holds.account⟩, htier, ?_, of_decide_eq_true hminimum⟩
  · change ((w₁.store.dropRemoved removed).positions.insert pos.id pos.toPosition)[id]? = _
    rw [hclaimed.id_eq, getElem?_insert_eq, if_pos rfl]
  · obtain ⟨hval, _⟩ := succeeds_reconcileAmountFromShares.mp hvalue
    exact succeeds_reconcileAmountFromShares.mpr ⟨hval, rfl⟩

/-! ### The dichotomy -/

/-- A successful exit from a position with `s` shares of a validator asks for the whole value of the
position and takes all of it, or asks for less and leaves a position with stake. In the first case
all shares are unbonded, at least the amount is transferred and the position is deleted. In the
second strictly fewer shares are unbonded, at most the amount is transferred, and what is left is
worth the minimum of the tier at the new rate. -/
theorem exit_amount_dichotomy (hK : K.Contract) (hR : K.ExchangeRates) (hreach : Reachable K w)
    {msg : MsgExitTierWithDelegation} {response : ExitTierWithDelegationResponse} {p : Position}
    {val : Validator} (hp : (K.view w).Holds K.accCodec msg.positionId p a)
    (hdelegation : (K.staking w.ext).delegations[(a, v)]? = some s)
    (hval : (K.staking w.ext).validators[v]? = some val) (htokens : 0 < val.tokens)
    (hshares : 0 < val.delegatorShares) (hle : s ≤ val.delegatorShares)
    (h : Succeeds (exitTierWithDelegation K msg) w response w') :
    0 < msg.amount ∧ msg.amount ≤ val.amountOfShares s ∧
    (msg.amount = val.amountOfShares s ∧ response.fullExit = true ∧ (K.view w').Idle a ∧
        msg.amount ≤ response.transferredAmount ∧ w'.store.positions[msg.positionId]? = none ∨
      msg.amount ≠ val.amountOfShares s ∧ response.fullExit = false ∧
        response.transferredAmount ≤ msg.amount ∧
        ∃ left q tier value, 0 < left ∧ left ≤ s ∧ (K.view w').StakedOn a v left ∧
          (K.view w').Holds K.accCodec msg.positionId q a ∧
          w'.store.tiers[q.tierId]? = some tier ∧
          Succeeds (reconcileAmountFromShares K v left) w' value w' ∧
          tier.minLockAmount ≤ value) := by
  obtain ⟨hstake, hs⟩ := (hreach.sound hK).coherent.stakedOn_of_stakes hp hdelegation
  obtain ⟨b, u, t, q, pos, w₁, w₂, owner, shares, newShares, removed, ext, event,
    hclaimed, howner, _, htransfer, ⟨positionAmount, hamounts⟩, hevent, rfl, hcases⟩ :=
    exitTierWithDelegation_cases hK (hreach.sound hK) h
  obtain rfl := Option.mem_unique hp.stored hclaimed.before.stored
  obtain rfl := Option.mem_unique hp.account hclaimed.before.account
  have hstake₁ : (K.view w₁).StakedOn a u t := hclaimed.stake
  have hsame : (K.view w).StakedOn a u t := by
    intro x
    have hx := hstake₁ x
    change (K.staking w₁.ext).delegations[(a, x)]? = _ at hx
    rwa [hclaimed.outside.staking] at hx
  obtain ⟨rfl, rfl⟩ := hstake.unique hsame
  have hval₁ : (K.staking w₁.ext).validators[u]? =
      some val := by rw [hclaimed.outside.staking, hval]
  obtain rfl : val.amountOfShares t = positionAmount := by
    obtain ⟨⟨val', hval', hvalue⟩, _⟩ := succeeds_reconcileAmountFromShares.mp hamounts.value
    obtain rfl := Option.mem_unique hval hval'
    exact hvalue
  have hissued : response.transferredAmount = val.issuedTokens shares :=
    issuedTokens_of_moveShares hR hval₁ hamounts.moved
  refine ⟨hamounts.positive, hamounts.covered, ?_⟩
  rcases hcases with ⟨hfull, rfl, hexit⟩ | ⟨hpart, hexit⟩
  · left
    have hequal : msg.amount = val.amountOfShares shares := by
      rw [hamounts.full] at hfull
      exact eq_of_beq hfull
    obtain ⟨hgone, hidle⟩ := exitFully_removes hK hclaimed htransfer howner hexit
    refine ⟨hequal, hfull, hidle, ?_, hgone⟩
    rw [hequal]
    exact (Validator.amountOfShares_le_issuedTokens hshares shares).trans_eq hissued.symm
  · right
    have hne : msg.amount ≠ val.amountOfShares t := by
      intro hequal
      rw [hamounts.full] at hpart
      exact absurd (beq_iff_eq.mpr hequal) (Bool.eq_false_iff.mp hpart)
    have hless := lt_of_le_of_ne hamounts.covered hne
    obtain ⟨hnonneg, hlt, hworth⟩ := partial_shares hR hval₁ htokens hshares hstake₁ hs.le
      hamounts.positive hless hamounts.chosen
    have hleft : 0 < t - shares := sub_pos.mpr hlt
    obtain ⟨hstaked, q, tier, value, hholds, htier, hvalue, hminimum⟩ :=
      exitPartially_keeps hclaimed htransfer howner hleft hexit
    have htransferred : response.transferredAmount ≤ msg.amount := by
      -- the position does not hold the last shares of the validator once some of its own are left
      have hrest : val.delegatorShares - shares ≠ 0 := (sub_pos.mpr (hlt.trans_le hle)).ne'
      rw [hissued, Validator.issuedTokens, if_neg hrest, ← Validator.amountOfShares_eq hshares]
      exact hworth
    exact ⟨hne, hpart, htransferred, t - shares, q, tier, value, hleft,
      sub_le_self t hnonneg, hstaked, ⟨hholds.stored, hholds.account⟩, htier,
      succeeds_reconcileAmountFromShares.mpr
        ⟨(succeeds_reconcileAmountFromShares.mp hvalue).1, rfl⟩, hminimum⟩

/-! ### An exit -/

namespace Reference

/-- The keepers with the exchange rates of a validator. -/
def ratedKeepers : Keepers Outside :=
  { keepers with
    validateUnbondAmount := fun o del v amount ↦
      match o.staking.validators[v]?, o.staking.delegations[(del, v)]? with
      | some val, some held => .ok (min (val.sharesFromTokens amount) held)
      | _, _ => .error (.registered .noValidatorFound)
    unbond := fun _ o del v shares ↦
      match o.staking.validators[v]? with
      | none => .error (.registered .noValidatorFound)
      | some val => (o.takeStake del v shares).map fun o' ↦ ((val.issuedTokens shares, []), o') }

theorem rated_leavesStaking {o o' : Outside} (h : keepers.LeavesStaking o o') :
    ratedKeepers.LeavesStaking o o' :=
  ⟨h.staking, h.account⟩

theorem rated_persists {o o' : Outside} (h : keepers.Persists o o') : ratedKeepers.Persists o o' :=
  ⟨h.account, h.bonded⟩

/-- What is unbonded at a rate is unbonded at par, for another amount. -/
theorem ratedKeepers_unbond {ctx : Context} {o o' : Outside} {del : AccAddress} {v : ValAddress}
    {shares : Dec} {amount : ℤ} {removed : List ValAddress}
    (h : ratedKeepers.unbond ctx o del v shares = .ok ((amount, removed), o')) :
    (∃ val, o.staking.validators[v]? = some val ∧ amount = val.issuedTokens shares) ∧
      keepers.unbond ctx o del v shares = .ok ((shares.truncateInt, removed), o') := by
  unfold ratedKeepers at h
  dsimp only at h
  cases hval : o.staking.validators[v]? with
  | none =>
    rw [hval] at h
    cases h
  | some val =>
    rw [hval] at h
    obtain ⟨o₁, htake, heq⟩ := map_eq_ok h
    obtain ⟨hresult, rfl⟩ := Prod.mk.inj heq
    obtain ⟨rfl, rfl⟩ := Prod.mk.inj hresult
    refine ⟨⟨val, rfl, rfl⟩, ?_⟩
    change (o.takeStake del v shares).map _ = _
    rw [htake]
    rfl

theorem ratedKeepers_contract : ratedKeepers.Contract where
  newAccount_staking := keepers_contract.newAccount_staking
  newAccount_self := keepers_contract.newAccount_self
  newAccount_other := keepers_contract.newAccount_other
  sendCoins ctx o src dst coins o' h :=
    rated_leavesStaking (keepers_contract.sendCoins ctx o src dst coins o' h)
  sendCoinsFromModuleToAccount ctx o pool dst coins o' h :=
    rated_leavesStaking (keepers_contract.sendCoinsFromModuleToAccount ctx o pool dst coins o' h)
  withdrawDelegationRewards ctx o del v coins o' h :=
    rated_leavesStaking (keepers_contract.withdrawDelegationRewards ctx o del v coins o' h)
  setWithdrawAddr ctx o del owner o' h :=
    rated_leavesStaking (keepers_contract.setWithdrawAddr ctx o del owner o' h)
  deleteDelegatorWithdrawAddr ctx o del owner o' h :=
    rated_leavesStaking (keepers_contract.deleteDelegatorWithdrawAddr ctx o del owner o' h)
  delegate ctx o del amount status v subtract shares o' h := by
    obtain ⟨hpersists, hrest⟩ :=
      keepers_contract.delegate ctx o del amount status v subtract shares o' h
    exact ⟨rated_persists hpersists, hrest⟩
  unbond ctx o del v shares amount removed o' h := by
    obtain ⟨hpersists, hrest⟩ :=
      keepers_contract.unbond ctx o del v shares _ removed o' (ratedKeepers_unbond h).2
    exact ⟨rated_persists hpersists, hrest⟩
  undelegate ctx o del v shares completion removed o' h := by
    obtain ⟨hpersists, hrest⟩ :=
      keepers_contract.undelegate ctx o del v shares completion removed o' h
    exact ⟨rated_persists hpersists, hrest⟩
  beginRedelegation ctx o del src dst shares completion unbondingId removed o' h := by
    obtain ⟨hne, hpersists, hrest⟩ := keepers_contract.beginRedelegation ctx o del src dst shares
      completion unbondingId removed o' h
    exact ⟨hne, rated_persists hpersists, hrest⟩

theorem ratedKeepers_exchangeRates : ratedKeepers.ExchangeRates where
  validateUnbondAmount o del v amount shares h := by
    unfold ratedKeepers at h
    dsimp only at h
    split at h
    · rename_i val held hval hheld
      exact ⟨val, held, hval, hheld, (Except.ok.inj h).symm⟩
    · cases h
  unbond ctx o del v shares amount removed o' h := (ratedKeepers_unbond h).1

/-- The world a year after the exit of a new position was triggered. -/
def exiting : World Outside :=
  yearLater (deliver ratedKeepers triggerExit
    (deliver ratedKeepers lockTier (deliver ratedKeepers addTier world₀).2).2).2

theorem reachable_exiting : Reachable ratedKeepers exiting := by
  refine ⟨_, world₀, ⟨fresh_world₀.store, fresh_world₀.emitted, fresh_world₀.time,
    ⟨fresh_world₀.tidy.idle, fresh_world₀.tidy.notRedelegating, fresh_world₀.tidy.zero,
      fresh_world₀.tidy.notUnbonding⟩⟩, .cons (.deliver addTier ?_) (.cons (.deliver lockTier ?_)
        (.cons (.deliver triggerExit ?_) (.cons (.beginBlock _ ?_) .nil)))⟩
  · exact signerIsFree_sound (by decide +kernel)
  · exact signerIsFree_sound (by decide +kernel)
  · exact signerIsFree_sound (by decide +kernel)
  · exact le_add_of_nonneg_right (by decide)

/-- The owner takes two fifths of the position out. -/
def partialExit : MsgExitTierWithDelegation := ⟨user, 0, 400000⟩

end Reference

open Reference

/-- A partial exit. -/
theorem exit_amount_dichotomy_partial :
    ∃ response : ExitTierWithDelegationResponse, response.fullExit = false ∧
      response.transferredAmount ≤ 400000 := by
  obtain ⟨response, hpart, hexit⟩ := succeeds_exec_of_any
    (x := exitTierWithDelegation ratedKeepers partialExit)
    (w := exiting) (P := fun response ↦ !response.fullExit) (by decide +kernel)
  obtain ⟨p, hstored⟩ : ∃ p, exiting.store.positions[0]? = some p :=
    Option.isSome_iff_exists.mp (by decide +kernel)
  have haccount : (exiting.store.positions[0]?).bind
      (fun p ↦ codec.stringToBytes p.delegatorAddress) = some 10 := by decide +kernel
  rw [hstored] at haccount
  obtain ⟨_, _, ⟨_, hfull, _⟩ | ⟨_, _, htransferred, _⟩⟩ := exit_amount_dichotomy
    ratedKeepers_contract ratedKeepers_exchangeRates reachable_exiting
    (show (ratedKeepers.view exiting).Holds ratedKeepers.accCodec
      partialExit.positionId p 10 from ⟨hstored, haccount⟩)
    (show (ratedKeepers.staking exiting.ext).delegations[(10, 1)]? =
      some (Dec.ofInt 1000000) by decide +kernel)
    (show (ratedKeepers.staking exiting.ext).validators[1]? =
      some ⟨.bonded, 5000000, Dec.ofInt 5000000⟩ by decide +kernel)
    (by decide) (by decide) (by decide) hexit
  · rw [hfull] at hpart
    cases hpart
  · exact ⟨response, by simpa using hpart, htransferred⟩

end ChainMain.TieredRewards
