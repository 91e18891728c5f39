import ChainMain.TieredRewards.Deletions
import ChainMain.TieredRewards.KeeperFrames

/-!
# Vesting accounts after forced exits

A vesting account tracks how much of its coins is delegated, as an amount of vesting and an amount
of free coins. A forced exit gives a delegation back to the owner behind the back of the bank, and
tops the tracked amounts up by what they are short of the delegated tokens. `VestingAccount.align`
is that top-up.

Aligning twice is aligning to the later amount (`VestingAccount.align_align`), so after any number
of forced exits the account is what one alignment to the final amount makes of it. The order does
not matter (`tracking_after_forced_exits`). If nothing is exited, nothing is topped up, and an
account that tracked too little before still does (`no_exit_no_alignment`).
-/

set_option autoImplicit false

namespace ChainMain.TieredRewards

open Foundations Decimal OrderedStore StoreProgram Runs

/-! ### One account -/

/-- A vesting account at one time: what it tracks as delegated and what is still vesting. -/
structure VestingAccount where
  delegatedVesting : ℤ
  delegatedFree : ℤ
  vesting : ℤ
deriving DecidableEq

namespace VestingAccount

/-- What the account tracks as delegated. -/
def tracked (a : VestingAccount) : ℤ := a.delegatedVesting + a.delegatedFree

/-- The part of an amount that `TrackDelegation` counts as vesting. -/
def vestingPart (a : VestingAccount) (amount : ℤ) : ℤ :=
  min (max (a.vesting - a.delegatedVesting) 0) amount

/-- `TrackDelegation`: vesting coins are delegated first. -/
def trackDelegation (a : VestingAccount) (amount : ℤ) : VestingAccount :=
  { a with
    delegatedVesting := a.delegatedVesting + a.vestingPart amount
    delegatedFree := a.delegatedFree + (amount - a.vestingPart amount) }

/-- The top-up of an account whose owner has delegated `actual` tokens. -/
def align (a : VestingAccount) (actual : ℤ) : VestingAccount :=
  if actual ≤ a.tracked then a else a.trackDelegation (actual - a.tracked)

@[simp] theorem tracked_trackDelegation (a : VestingAccount) (amount : ℤ) :
    (a.trackDelegation amount).tracked = a.tracked + amount := by
  unfold trackDelegation tracked
  dsimp only
  ring

/-- An aligned account tracks what it tracked before, or the delegated amount if that is more. -/
theorem tracked_align (a : VestingAccount) (actual : ℤ) :
    (a.align actual).tracked = max a.tracked actual := by
  unfold align
  split_ifs with hle
  · exact (max_eq_left hle).symm
  · rw [tracked_trackDelegation, max_eq_right (le_of_not_ge hle)]
    ring

/-- Two amounts tracked one after the other are split as their sum is. -/
theorem trackDelegation_trackDelegation (a : VestingAccount) {x y : ℤ} (hx : 0 ≤ x) (hy : 0 ≤ y) :
    (a.trackDelegation x).trackDelegation y = a.trackDelegation (x + y) := by
  have hparts : (a.trackDelegation x).vestingPart y = a.vestingPart (x + y) - a.vestingPart x := by
    unfold trackDelegation vestingPart
    dsimp only
    omega
  unfold trackDelegation at hparts ⊢
  rw [hparts]
  dsimp only
  congr 1 <;> ring

/-- Aligning twice is aligning to the later amount, if that is not less. -/
theorem align_align (a : VestingAccount) {first second : ℤ} (hle : first ≤ second) :
    (a.align first).align second = a.align second := by
  by_cases hfirst : first ≤ a.tracked
  · rw [show a.align first = a from if_pos hfirst]
  have hstep : a.align first = a.trackDelegation (first - a.tracked) := if_neg hfirst
  have hlast : a.align second = a.trackDelegation (second - a.tracked) :=
    if_neg fun hsecond ↦ hfirst (hle.trans hsecond)
  have htracked : (a.align first).tracked = first := by
    rw [tracked_align, max_eq_right (le_of_not_ge hfirst)]
  rw [hlast]
  by_cases hsame : second ≤ first
  · obtain rfl := le_antisymm hle hsame
    rw [align, if_pos htracked.ge, hstep]
  · rw [align, if_neg fun h ↦ hsame (h.trans htracked.le), htracked, hstep,
      trackDelegation_trackDelegation a (by omega) (by omega)]
    congr 1
    ring

end VestingAccount

/-! ### Accounts in a world -/

section Worlds

variable {σ : Type} (K : Keepers σ) (V : VestingAccounts σ)
  (vesting : σ → AccAddress → Time → Coins)

/-- What an owner's account tracks of the bond denomination, if it is a vesting account. `vesting`
is `GetVestingCoins`. -/
def vestingAccount (owner : AccAddress) (w : World σ) : Option VestingAccount :=
  match K.account w.ext owner with
  | some .vesting => some {
      delegatedVesting := (V.delegatedVesting w.ext owner).amountOf (K.bondDenom w.ext)
      delegatedFree := (V.delegatedFree w.ext owner).amountOf (K.bondDenom w.ext)
      vesting := (vesting w.ext owner w.ctx.blockTime).amountOf (K.bondDenom w.ext) }
  | _ => none

def delegationTokens (ext : σ) (delegation : ValAddress × Dec) : ℤ :=
  match (K.staking ext).validators[delegation.1]? with
  | some val => (val.tokensFromShares delegation.2).truncateInt
  | none => 0

def delegatedTokens (owner : AccAddress) (ext : σ) : ℤ :=
  (((K.staking ext).delegationsOf owner).map (delegationTokens K ext)).sum

/-- What the forced exits rely on in the vesting accounts: `TrackDelegation` delegates vesting coins
first, and nothing else that a forced exit calls concerns what an account tracks. -/
structure TracksDelegations : Prop where
  trackDelegation : ∀ (w : World σ) owner account amount, 0 < amount →
    vestingAccount K V vesting owner w = some account →
    vestingAccount K V vesting owner { w with
      ext := V.trackDelegation w.ctx w.ext owner (Coins.single (K.bondDenom w.ext) amount) } =
        some (account.trackDelegation amount)
  trackDelegation_staking : ∀ ctx ext owner coins,
    K.staking (V.trackDelegation ctx ext owner coins) = K.staking ext
  keeps : ∀ owner, K.Keeps (vestingAccount K V vesting owner)

/-- The forced exit of a position: it is deleted, and its owner has the delegation back. -/
structure ForcedExit (owner : AccAddress) (amount : ℕ → ℕ) (w : World σ) (id : ℕ) (w' : World σ) :
    Prop where
  run : Succeeds (forceFullExitWithDelegation K V id) w ⟨⟩ w'
  owned : ∃ p : Position, w.store.positions[id]? = some p ∧
    K.accCodec.stringToBytes p.owner = some owner
  deleted : w'.store.positions[id]? = none
  returned : delegatedTokens K owner w'.ext = delegatedTokens K owner w.ext + amount id
  few : ((K.staking w'.ext).delegationsOf owner).length ≤ 1000

end Worlds

/-! ### One forced exit -/

section Exits

variable {σ : Type} {K : Keepers σ} {V : VestingAccounts σ}
  {vesting : σ → AccAddress → Time → Coins}
  {w w' w'' : World σ} {owner : AccAddress} {account : VestingAccount} {amount : ℕ → ℕ}

theorem sumDelegatedTokens_eq {delegations : List (ValAddress × Dec)} {total sum : ℤ}
    (h : Succeeds (sumDelegatedTokens K delegations total) w sum w') :
    sum = total + (delegations.map (delegationTokens K w.ext)).sum := by
  induction delegations generalizing total w with
  | nil =>
    rw [← (succeeds_pure.mp h).1, List.map_nil, List.sum_nil, add_zero]
  | cons entry delegations ih =>
    unfold sumDelegatedTokens at h
    simp only [succeeds_bind, succeeds_wrapping, succeeds_getValidator] at h
    obtain ⟨val, _, ⟨hval, rfl⟩, hrest⟩ := h
    have htokens : delegationTokens K w.ext entry = (val.tokensFromShares entry.2).truncateInt := by
      unfold delegationTokens
      rw [hval]
    rw [ih hrest, List.map_cons, List.sum_cons, htokens, add_assoc]

/-- The alignment leaves staking alone and aligns the account of the owner. -/
theorem alignVestingDelegationTracking_aligns (hV : TracksDelegations K V vesting) {u : PUnit}
    (haccount : vestingAccount K V vesting owner w = some account)
    (h : Succeeds (alignVestingDelegationTracking K V owner) w u w') :
    K.staking w'.ext = K.staking w.ext ∧
      (((K.staking w.ext).delegationsOf owner).length ≤ 1000 →
        vestingAccount K V vesting owner w' =
          some (account.align (delegatedTokens K owner w.ext))) := by
  have hkind : K.account w.ext owner = some .vesting := by
    unfold vestingAccount at haccount
    split at haccount
    · assumption
    · cases haccount
  have htracked : account.tracked = (V.delegatedVesting w.ext owner).amountOf (K.bondDenom w.ext) +
      (V.delegatedFree w.ext owner).amountOf (K.bondDenom w.ext) := by
    unfold vestingAccount at haccount
    rw [hkind] at haccount
    obtain rfl := Option.some.inj haccount
    rfl
  unfold alignVestingDelegationTracking topUpVestingDelegation at h
  rw [succeeds_read, hkind] at h
  dsimp only at h
  rw [succeeds_read] at h
  obtain ⟨actual, w₁, hsum, hrest⟩ := succeeds_bind.mp h
  obtain rfl := sumDelegatedTokens_reads hsum
  have hactual := sumDelegatedTokens_eq hsum
  rw [zero_add] at hactual
  have hfew : ((K.staking w₁.ext).delegationsOf owner).length ≤ 1000 →
      delegatedTokens K owner w₁.ext = actual := by
    intro hlength
    rw [hactual, List.take_of_length_le hlength]
    rfl
  rw [← htracked] at hrest
  rcases succeeds_ite.mp hrest with ⟨hle, hpure⟩ | ⟨hgt, hmodify⟩
  · obtain ⟨_, rfl⟩ := succeeds_pure.mp hpure
    refine ⟨rfl, fun hlength ↦ ?_⟩
    rw [hfew hlength, VestingAccount.align, if_pos hle, haccount]
  · obtain rfl := succeeds_modify.mp hmodify
    refine ⟨hV.trackDelegation_staking _ _ _ _, fun hlength ↦ ?_⟩
    rw [hfew hlength, VestingAccount.align, if_neg hgt]
    exact hV.trackDelegation _ _ _ _ (by omega) haccount

theorem leaves_staking_deletePosition (hK : K.Contract) (pos : Position)
    (update : Option ValidatorTransition) :
    Leaves (fun w : World σ ↦ K.staking w.ext) (deletePosition K pos update) :=
  leaves_deletePosition (fun _ _ _ hext ↦ congrArg K.staking hext) _ _
    fun _ _ _ _ hok ↦ (hK.deleteDelegatorWithdrawAddr _ _ _ _ _ hok).staking

/-- A forced exit aligns the account of the owner with what is delegated in the end. -/
theorem ForcedExit.aligns (hK : K.Contract) (hV : TracksDelegations K V vesting) {id : ℕ}
    (haccount : vestingAccount K V vesting owner w = some account)
    (h : ForcedExit K V owner amount w id w') :
    vestingAccount K V vesting owner w' =
      some (account.align (delegatedTokens K owner w'.ext)) := by
  obtain ⟨p, hp, howner⟩ := h.owned
  obtain ⟨pos, hload, ⟨_, pos', v, w₃, hunwind, hdelete⟩ | ⟨_, rfl⟩⟩ :=
    succeeds_forceFullExitWithDelegation.mp h.run
  · obtain ⟨hstored, _, _⟩ := succeeds_getPositionState.mp hload
    obtain rfl := Option.mem_unique hp hstored
    obtain ⟨_, _, _, _, _, owner', w₁, w₂, hclaim, _, _, _, htransfer, howner', halign⟩ :=
      succeeds_unwindPosition.mp hunwind
    rw [(identity_of_claimRewards hclaim).2] at howner'
    obtain rfl := Option.mem_unique howner howner'
    -- up to the alignment nothing concerns the account, after it nothing concerns staking either
    have hbefore : vestingAccount K V vesting owner w₂ = some account :=
      (leaves_transferDelegationFromPosition (hV.keeps owner) _ _ _ _ _ _ htransfer).trans
        ((leaves_claimRewards (hV.keeps owner) _ _ _ _ hclaim).trans haccount)
    obtain ⟨hsame, haligned⟩ := alignVestingDelegationTracking_aligns hV hbefore halign
    have hstaking : K.staking w'.ext = K.staking w₂.ext :=
      (leaves_staking_deletePosition hK _ _ _ _ _ hdelete).trans hsame
    have htokens : delegatedTokens K owner w'.ext = delegatedTokens K owner w₂.ext := by
      unfold delegatedTokens delegationTokens
      rw [hstaking]
    rw [htokens, ← haligned (hstaking ▸ h.few)]
    exact leaves_deletePosition (hV.keeps owner).outside _ _
      (hV.keeps owner).deleteDelegatorWithdrawAddr _ _ _ hdelete
  · -- a position that stays stored was not deleted
    have hdeleted := h.deleted
    rw [hp] at hdeleted
    cases hdeleted

/-! ### All forced exits of a block -/

/-- After some forced exits an account is aligned with what is delegated in the end, and each exit
has added the amount of its position to that. -/
theorem forcedExits_align (hK : K.Contract) (hV : TracksDelegations K V vesting)
    (haccount : vestingAccount K V vesting owner w = some account)
    {τ : List (Transition (World σ) ℕ)} (h : Run (ForcedExit K V owner amount) w τ w') :
    delegatedTokens K owner w'.ext = delegatedTokens K owner w.ext +
        (τ.map fun t ↦ (amount t.label : ℤ)).sum ∧
      vestingAccount K V vesting owner w' =
        some (if τ = [] then account else account.align (delegatedTokens K owner w'.ext)) := by
  induction h with
  | nil =>
    rw [if_pos rfl]
    exact ⟨(add_zero _).symm, haccount⟩
  | @snoc τ s s' id hrun hexit ih =>
    obtain ⟨htokens, haligned⟩ := ih
    have hreturned := hexit.returned
    have hstep := hexit.aligns hK hV haligned
    rw [if_neg (List.append_ne_nil_of_right_ne_nil τ (List.cons_ne_nil _ _))]
    constructor
    · rw [hreturned, htokens, List.map_append, List.sum_append, List.map_singleton,
        List.sum_singleton, add_assoc]
    · rw [hstep]
      split_ifs
      · rfl
      · rw [VestingAccount.align_align account (by omega)]

/-- After the forced exits of some positions of a vesting owner in one block, in any order: the
account tracks what it tracked before or the delegated tokens if those are more, provided that there
was an exit, and any other order of the same exits leaves the same account. -/
theorem tracking_after_forced_exits (hK : K.Contract) (hV : TracksDelegations K V vesting)
    (haccount : vestingAccount K V vesting owner w = some account)
    {τ : List (Transition (World σ) ℕ)} (h : Run (ForcedExit K V owner amount) w τ w') :
    ∃ final, vestingAccount K V vesting owner w' = some final ∧
      (τ ≠ [] → final.delegatedVesting + final.delegatedFree =
        max (account.delegatedVesting + account.delegatedFree) (delegatedTokens K owner w'.ext)) ∧
      ∀ (τ' : List (Transition (World σ) ℕ)) (w'' : World σ),
        (τ'.map Transition.label).Perm (τ.map Transition.label) →
        Run (ForcedExit K V owner amount) w τ' w'' →
        vestingAccount K V vesting owner w'' = some final := by
  obtain ⟨htokens, haligned⟩ := forcedExits_align hK hV haccount h
  refine ⟨_, haligned, fun hne ↦ ?_, fun τ' w'' hperm h' ↦ ?_⟩
  · rw [if_neg hne]
    exact account.tracked_align _
  · obtain ⟨htokens', haligned'⟩ := forcedExits_align hK hV haccount h'
    have hsum : (τ'.map fun t ↦ (amount t.label : ℤ)).sum =
        (τ.map fun t ↦ (amount t.label : ℤ)).sum := by
      have hamounts := (hperm.map fun id ↦ (amount id : ℤ)).sum_eq
      rwa [List.map_map, List.map_map] at hamounts
    have hnil : τ' = [] ↔ τ = [] := by
      rw [← List.map_eq_nil_iff (f := Transition.label), ← List.map_eq_nil_iff
        (f := Transition.label)]
      constructor
      · exact fun hnil ↦ List.perm_nil.mp (hnil ▸ hperm.symm)
      · exact fun hnil ↦ List.perm_nil.mp (hnil ▸ hperm)
    rw [haligned', htokens', hsum, ← htokens]
    simp only [hnil]

end Exits

/-! ### An owner with two positions -/

namespace Reference

/-- Vesting accounts of which a fixed amount stays locked for ever. -/
def lockedCoins (_ : Outside) (_ : AccAddress) (_ : Time) : Coins := Coins.single denom 1200000

def trackedOf (o : Outside) (a : AccAddress) : VestingAccount :=
  ⟨((o.tracked[a]?).getD (0, 0)).1, ((o.tracked[a]?).getD (0, 0)).2, 1200000⟩

/-- Vesting accounts that track delegations. -/
def trackingAccounts : VestingAccounts Outside where
  delegatedVesting o a := Coins.single denom (trackedOf o a).delegatedVesting
  delegatedFree o a := Coins.single denom (trackedOf o a).delegatedFree
  trackDelegation _ o a coins :=
    let account := (trackedOf o a).trackDelegation (coins.amountOf denom)
    { o with tracked := o.tracked.insert a (account.delegatedVesting, account.delegatedFree) }

theorem vestingAccount_eq (owner : AccAddress) (w : World Outside) :
    vestingAccount keepers trackingAccounts lockedCoins owner w =
      if w.ext.accounts[owner]? = some .vesting then some (trackedOf w.ext owner) else none := by
  have hdata : (⟨(trackingAccounts.delegatedVesting w.ext owner).amountOf denom,
      (trackingAccounts.delegatedFree w.ext owner).amountOf denom,
      (lockedCoins w.ext owner w.ctx.blockTime).amountOf denom⟩ : VestingAccount) =
        trackedOf w.ext owner :=
    congr (congr (congrArg _ (amountOf_single _)) (amountOf_single _)) (amountOf_single _)
  unfold vestingAccount
  split
  · next hkind => exact (congrArg some hdata).trans (if_pos hkind).symm
  · next hkind => exact (if_neg hkind).symm

theorem vestingAccount_congr {owner : AccAddress} {w : World Outside} {o : Outside}
    (haccounts : o.accounts = w.ext.accounts) (htracked : o.tracked = w.ext.tracked) :
    vestingAccount keepers trackingAccounts lockedCoins owner { w with ext := o } =
      vestingAccount keepers trackingAccounts lockedCoins owner w := by
  rw [vestingAccount_eq, vestingAccount_eq]
  unfold trackedOf
  rw [haccounts, htracked]

theorem tracksDelegations : TracksDelegations keepers trackingAccounts lockedCoins where
  trackDelegation w owner account amount _ haccount := by
    rw [vestingAccount_eq] at haccount ⊢
    split_ifs at haccount with hkind
    obtain rfl := Option.some.inj haccount
    refine (if_pos hkind).trans (congrArg some ?_)
    have hamount : (Coins.single (keepers.bondDenom w.ext) amount).amountOf denom = amount :=
      amountOf_single amount
    unfold trackingAccounts
    dsimp only
    rw [hamount, trackedOf]
    dsimp only
    rw [getElem?_insert_eq, if_pos rfl]
    rfl
  trackDelegation_staking _ _ _ _ := rfl
  keeps owner := {
    outside := by
      intro w w' _ hext
      rw [vestingAccount_eq, vestingAccount_eq, hext]
    sendCoinsFromModuleToAccount := by
      intro w pool dst coins o h
      obtain ⟨o₁, hdebit, rfl⟩ := map_eq_ok h
      unfold Outside.debit at hdebit
      split_ifs at hdebit
      obtain rfl := Except.ok.inj hdebit
      exact vestingAccount_congr rfl rfl
    withdrawDelegationRewards := by
      intro w del v coins o h
      obtain ⟨_, rfl⟩ := Prod.mk.inj (Except.ok.inj h)
      rfl
    deleteDelegatorWithdrawAddr := by
      intro w del withdraw o h
      obtain rfl := Except.ok.inj h
      rfl
    delegate := by
      intro w del amount status v shares o h
      obtain ⟨_, rfl⟩ := Prod.mk.inj (Except.ok.inj h)
      exact vestingAccount_congr rfl rfl
    unbond := by
      intro w del v shares amount removed o h
      obtain ⟨o₁, htake, heq⟩ := map_eq_ok h
      obtain ⟨_, rfl⟩ := Prod.mk.inj heq
      obtain ⟨held, _, _, rfl⟩ := Outside.takeStake_ok htake
      exact vestingAccount_congr rfl rfl }

/-- The user has a second position, and vesting coins of which some are tracked as delegated. -/
def vestingOwner : World Outside :=
  let w := (deliver keepers (.lockTier ⟨user, 1, 500000, codec.bytesToString 2, false⟩) world₂).2
  { w with
    ext := { w.ext with
      accounts := w.ext.accounts.insert 2 .vesting
      tracked := w.ext.tracked.insert 2 (300000, 0) } }

def amounts : ℕ → ℕ
  | 0 => 1000000
  | _ => 500000

def forceExit (w : World Outside) (id : ℕ) : World Outside :=
  (exec (forceFullExitWithDelegation keepers trackingAccounts id) w).2

/-- A check that the user's position was forced to exit. -/
def exitsByForce (w : World Outside) (id : ℕ) : Bool :=
  (exec (forceFullExitWithDelegation keepers trackingAccounts id) w).1.isOk &&
    (w.store.positions[id]?).any (fun p ↦ codec.stringToBytes p.owner == some 2) &&
    ((forceExit w id).store.positions[id]?).isNone &&
    (delegatedTokens keepers 2 (forceExit w id).ext == delegatedTokens keepers 2 w.ext +
      amounts id) &&
    decide (((forceExit w id).ext.staking.delegationsOf 2).length ≤ 1000)

theorem exitsByForce_sound {w : World Outside} {id : ℕ} (h : exitsByForce w id) :
    ForcedExit keepers trackingAccounts 2 amounts w id (forceExit w id) := by
  unfold exitsByForce at h
  simp only [Bool.and_eq_true, beq_iff_eq, decide_eq_true_eq, Option.isNone_iff_eq_none,
    Option.any_eq_true] at h
  obtain ⟨⟨⟨⟨hrun, howned⟩, hdeleted⟩, hreturned⟩, hfew⟩ := h
  exact ⟨succeeds_exec hrun, howned, hdeleted, hreturned, hfew⟩

/-- The user has also delegated tokens directly, more than are tracked. -/
def untracked : World Outside :=
  { vestingOwner with
    ext := vestingOwner.ext.setDelegations
      (addShares vestingOwner.ext.staking.delegations 2 1 (Dec.ofInt 400000)) }

end Reference

open Reference

/-- The two positions of the reference owner, exited in either order. -/
theorem tracking_after_forced_exits_pair :
    ∃ final : VestingAccount,
      vestingAccount keepers trackingAccounts lockedCoins 2
        (forceExit (forceExit vestingOwner 0) 1) = some final ∧
      final.delegatedVesting + final.delegatedFree = 1500000 ∧
      vestingAccount keepers trackingAccounts lockedCoins 2
        (forceExit (forceExit vestingOwner 1) 0) = some final := by
  have haccount : vestingAccount keepers trackingAccounts lockedCoins 2
      vestingOwner = some ⟨300000, 0, 1200000⟩ := by
    rw [vestingAccount_eq]
    decide +kernel
  have hfirst : exitsByForce vestingOwner 0 := by decide +kernel
  have hsecond : exitsByForce (forceExit vestingOwner 0) 1 := by
    decide +kernel
  have hfirst' : exitsByForce vestingOwner 1 := by decide +kernel
  have hsecond' : exitsByForce (forceExit vestingOwner 1) 0 := by
    decide +kernel
  have hrun := (Run.single (exitsByForce_sound hfirst)).snoc
    (exitsByForce_sound hsecond)
  have hrun' := (Run.single (exitsByForce_sound hfirst')).snoc
    (exitsByForce_sound hsecond')
  obtain ⟨final, hfinal, htracked, horder⟩ := tracking_after_forced_exits keepers_contract
    tracksDelegations haccount hrun
  refine ⟨final, hfinal, ?_, horder _ _ (by decide) hrun'⟩
  rw [htracked (List.cons_ne_nil _ _)]
  decide +kernel

/-- Where nothing is exited, what an account is short of stays missing. -/
theorem no_exit_no_alignment :
    ∃ account : VestingAccount,
      vestingAccount keepers trackingAccounts lockedCoins 2
        untracked = some account ∧
      (untracked.ext.staking.delegationsOf 2).length ≤ 1000 ∧
      Run (ForcedExit keepers trackingAccounts 2 amounts)
        untracked [] untracked ∧
      account.delegatedVesting + account.delegatedFree ≠
        max (account.delegatedVesting + account.delegatedFree)
          (delegatedTokens keepers 2 untracked.ext) := by
  refine ⟨⟨300000, 0, 1200000⟩, ?_, by decide +kernel, .nil, by decide +kernel⟩
  rw [vestingAccount_eq]
  decide +kernel

end ChainMain.TieredRewards
