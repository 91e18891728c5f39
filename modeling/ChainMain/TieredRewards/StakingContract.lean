import ChainMain.TieredRewards.LedgerReplay
import ChainMain.TieredRewards.MsgServer

/-!
# What the module relies on in the other modules

`Keepers.Contract` states, for each operation the module calls on the staking, bank, account and
distribution keepers, the documented effect the development uses. Operations of bank and
distribution leave staking alone. `Delegate` adds shares, `Unbond` and `Undelegate` take shares and
remove an empty delegation, and `BeginRedelegation` does one and then the other and creates an entry
with a fresh id that is not zero, or none when it returns `0`. None of them changes which validators
are bonded, and a validator is removed only when it is not bonded and nobody delegates to it.

`Keepers.view` is the ledger a world shows, and `Keepers.Touches` says which accounts an operation
may have touched, from which the frame conditions of the ledger follow.
-/

set_option autoImplicit false

namespace ChainMain.TieredRewards

open Foundations Decimal OrderedStore StoreProgram

variable {σ : Type}

/-! ### The view -/

/-- The sum of all amounts of a set of coins. -/
def Coins.total (coins : Coins) : ℤ := (coins.toList.map Prod.snd).sum

/-- The bonus an event reports for a position. -/
def Event.bonusFor (id : ℕ) : Event → ℤ
  | .bonusRewardsClaimed positionId _ rewards => if positionId = id then rewards.total else 0
  | _ => 0

/-- The bonus a position has been paid, by the events emitted so far. -/
def bonusPaid (emitted : List Event) (id : ℕ) : ℤ := (emitted.map (Event.bonusFor id)).sum

def Keepers.view (K : Keepers σ) (w : World σ) : Ledger where
  store := w.store
  now := w.ctx.blockTime
  stakes := fun a v ↦ (K.staking w.ext).delegations[(a, v)]?
  redelegations := fun u ↦ (K.staking w.ext).redelegations[u]?
  unbonding := fun a v ↦ ((K.staking w.ext).unbondingDelegations[(a, v)]?).isSome
  bonded := (K.staking w.ext).isBonded
  accounts := fun a ↦ (K.account w.ext a).isSome
  paid := bonusPaid w.emitted

/-- What the ledger invariants say of a world. -/
abbrev Keepers.Sound (K : Keepers σ) (w : World σ) : Prop := (K.view w).Sound K.accCodec

/-! ### The contract -/

/-- The delegations after shares are taken from one of them; an empty delegation is removed. -/
def takeShares (delegations : Map (AccAddress × ValAddress) Dec) (del : AccAddress) (v : ValAddress)
    (held shares : Dec) : Map (AccAddress × ValAddress) Dec :=
  if held - shares = 0 then delegations.erase (del, v)
  else delegations.insert (del, v) (held - shares)

/-- The delegations after shares are added to one of them. -/
def addShares (delegations : Map (AccAddress × ValAddress) Dec) (del : AccAddress) (v : ValAddress)
    (shares : Dec) : Map (AccAddress × ValAddress) Dec :=
  delegations.insert (del, v) ((delegations[(del, v)]?).getD 0 + shares)

namespace Keepers

variable (K : Keepers σ)

/-- No account goes away and no validator changes between bonded and not bonded. -/
structure Persists (ext ext' : σ) : Prop where
  account : ∀ a, (K.account ext a).isSome → (K.account ext' a).isSome
  bonded : ∀ v, (K.staking ext').isBonded v = (K.staking ext).isBonded v

/-- An operation that does not concern staking. -/
structure LeavesStaking (ext ext' : σ) : Prop where
  staking : K.staking ext' = K.staking ext
  account : ∀ a, (K.account ext a).isSome → (K.account ext' a).isSome

/-- A removed validator was not bonded and has no delegation left. -/
def RemovesEmpty (removed : List ValAddress) (ext ext' : σ) : Prop :=
  ∀ v ∈ removed, (K.staking ext).isBonded v = false ∧
    ∀ a : AccAddress, (K.staking ext').delegations[(a, v)]? = none

/-- The documented behaviour of the other modules' keepers. -/
structure Contract : Prop where
  newAccount_staking : ∀ ext a, K.staking (K.newAccount ext a) = K.staking ext
  newAccount_self : ∀ ext a, (K.account (K.newAccount ext a) a).isSome
  newAccount_other : ∀ ext a b, (K.account ext b).isSome → (K.account (K.newAccount ext a) b).isSome
  sendCoins : ∀ ctx ext src dst coins ext', K.sendCoins ctx ext src dst coins = .ok ext' →
    K.LeavesStaking ext ext'
  sendCoinsFromModuleToAccount : ∀ ctx ext pool dst coins ext',
    K.sendCoinsFromModuleToAccount ctx ext pool dst coins = .ok ext' → K.LeavesStaking ext ext'
  withdrawDelegationRewards : ∀ ctx ext del v coins ext',
    K.withdrawDelegationRewards ctx ext del v = .ok (coins, ext') → K.LeavesStaking ext ext'
  setWithdrawAddr : ∀ ctx ext del owner ext', K.setWithdrawAddr ctx ext del owner = .ok ext' →
    K.LeavesStaking ext ext'
  deleteDelegatorWithdrawAddr : ∀ ctx ext del owner ext',
    K.deleteDelegatorWithdrawAddr ctx ext del owner = .ok ext' → K.LeavesStaking ext ext'
  delegate : ∀ ctx ext del amount status v subtract shares ext',
    K.delegate ctx ext del amount status v subtract = .ok (shares, ext') →
      K.Persists ext ext' ∧
      (K.staking ext').delegations = addShares (K.staking ext).delegations del v shares ∧
      (K.staking ext').redelegations = (K.staking ext).redelegations ∧
      (K.staking ext').unbondingDelegations = (K.staking ext).unbondingDelegations
  unbond : ∀ ctx ext del v shares amount removed ext',
    K.unbond ctx ext del v shares = .ok ((amount, removed), ext') →
      K.Persists ext ext' ∧ K.RemovesEmpty removed ext ext' ∧
      (∃ held, (K.staking ext).delegations[(del, v)]? = some held ∧ shares ≤ held ∧
        (K.staking ext').delegations = takeShares (K.staking ext).delegations del v held shares) ∧
      (K.staking ext').redelegations = (K.staking ext).redelegations ∧
      (K.staking ext').unbondingDelegations = (K.staking ext).unbondingDelegations
  undelegate : ∀ ctx ext del v shares completion removed ext',
    K.undelegate ctx ext del v shares = .ok ((completion, removed), ext') →
      K.Persists ext ext' ∧ K.RemovesEmpty removed ext ext' ∧
      (∃ held, (K.staking ext).delegations[(del, v)]? = some held ∧ shares ≤ held ∧
        (K.staking ext').delegations = takeShares (K.staking ext).delegations del v held shares) ∧
      (K.staking ext').redelegations = (K.staking ext).redelegations ∧
      ((K.staking ext').unbondingDelegations = (K.staking ext).unbondingDelegations ∨
        ∃ entry, (K.staking ext').unbondingDelegations =
          (K.staking ext).unbondingDelegations.insert (del, v)
            (((K.staking ext).unbondingDelegations[(del, v)]?).getD [] ++ [entry]))
  beginRedelegation : ∀ ctx ext del src dst shares completion unbondingId removed ext',
    K.beginRedelegation ctx ext del src dst shares =
      .ok (((completion, unbondingId), removed), ext') →
      src ≠ dst ∧ K.Persists ext ext' ∧ K.RemovesEmpty removed ext ext' ∧
      (∃ held newShares, (K.staking ext).delegations[(del, src)]? = some held ∧ shares ≤ held ∧
        (K.staking ext').delegations = addShares
          (takeShares (K.staking ext).delegations del src held shares) del dst newShares) ∧
      (unbondingId ≠ 0 → (K.staking ext).redelegations[unbondingId]? = none) ∧
      (K.staking ext').redelegations =
        (if unbondingId = 0 then (K.staking ext).redelegations
          else (K.staking ext).redelegations.insert unbondingId ⟨del, src, dst⟩) ∧
      (K.staking ext').unbondingDelegations = (K.staking ext).unbondingDelegations

/-! ### The accounts an operation touches -/

/-- An operation of another module touches the stake, the redelegations and the unbonding
delegations of the accounts `P` only. -/
structure Touches (P : AccAddress → Prop) (ext ext' : σ) : Prop extends K.Persists ext ext' where
  delegations : ∀ a, ¬ P a → ∀ v : ValAddress,
    (K.staking ext').delegations[(a, v)]? = (K.staking ext).delegations[(a, v)]?
  redelegations : ∀ (u : ℕ) (red : Redelegation), ¬ P red.delegator →
    ((K.staking ext').redelegations[u]? = some red ↔ (K.staking ext).redelegations[u]? = some red)
  zero : (K.staking ext).redelegations[0]? = none → (K.staking ext').redelegations[0]? = none
  unbonding : ∀ a, ¬ P a → ∀ v : ValAddress,
    (K.staking ext').unbondingDelegations[(a, v)]? = (K.staking ext).unbondingDelegations[(a, v)]?

variable {K} {P Q : AccAddress → Prop} {ext ext' ext'' : σ}

namespace Touches

theorem refl : K.Touches P ext ext :=
  ⟨⟨fun _ h ↦ h, fun _ ↦ rfl⟩, fun _ _ _ ↦ rfl, fun _ _ _ ↦ Iff.rfl, fun h ↦ h,
    fun _ _ _ ↦ rfl⟩

theorem trans (h : K.Touches P ext ext') (h' : K.Touches P ext' ext'') : K.Touches P ext ext'' where
  account := fun a ha ↦ h'.account a (h.account a ha)
  bonded := fun v ↦ (h'.bonded v).trans (h.bonded v)
  delegations := fun a ha v ↦ (h'.delegations a ha v).trans (h.delegations a ha v)
  redelegations := fun u red hred ↦ (h'.redelegations u red hred).trans (h.redelegations u red hred)
  zero := fun hz ↦ h'.zero (h.zero hz)
  unbonding := fun a ha v ↦ (h'.unbonding a ha v).trans (h.unbonding a ha v)

theorem mono (h : K.Touches P ext ext') (hPQ : ∀ a, P a → Q a) : K.Touches Q ext ext' where
  account := h.account
  bonded := h.bonded
  delegations := fun a ha ↦ h.delegations a fun hp ↦ ha (hPQ a hp)
  redelegations := fun u red hred ↦ h.redelegations u red fun hp ↦ hred (hPQ _ hp)
  zero := h.zero
  unbonding := fun a ha ↦ h.unbonding a fun hp ↦ ha (hPQ a hp)

theorem of_leavesStaking (h : K.LeavesStaking ext ext') : K.Touches P ext ext' where
  account := h.account
  bonded := fun v ↦ by rw [h.staking]
  delegations := fun a _ v ↦ by rw [h.staking]
  redelegations := fun u red _ ↦ by rw [h.staking]
  zero := fun hz ↦ by rw [h.staking, hz]
  unbonding := fun a _ v ↦ by rw [h.staking]

end Touches

/-! ### Shares of one delegation -/

theorem getElem?_addShares (delegations : Map (AccAddress × ValAddress) Dec) (del : AccAddress)
    (v : ValAddress) (shares : Dec) (a : AccAddress) (u : ValAddress) :
    (addShares delegations del v shares)[(a, u)]? =
      if a = del ∧ u = v then some ((delegations[(del, v)]?).getD 0 + shares)
      else delegations[(a, u)]? := by
  unfold addShares
  rw [getElem?_insert_eq]
  simp only [Prod.mk.injEq, eq_comm]

theorem getElem?_takeShares (delegations : Map (AccAddress × ValAddress) Dec) (del : AccAddress)
    (v : ValAddress) (held shares : Dec) (a : AccAddress) (u : ValAddress) :
    (takeShares delegations del v held shares)[(a, u)]? =
      if a = del ∧ u = v then (if held - shares = 0 then none else some (held - shares))
      else delegations[(a, u)]? := by
  unfold takeShares
  split_ifs with hzero hkey hkey
  · obtain ⟨rfl, rfl⟩ := hkey
    rw [getElem?_erase_eq, if_pos rfl]
  · refine getElem?_erase_ne fun heq ↦ hkey ?_
    obtain ⟨rfl, rfl⟩ := Prod.mk.inj heq
    exact ⟨rfl, rfl⟩
  · obtain ⟨rfl, rfl⟩ := hkey
    rw [getElem?_insert_eq, if_pos rfl]
  · refine getElem?_insert_ne (fun heq ↦ hkey ?_) _
    obtain ⟨rfl, rfl⟩ := Prod.mk.inj heq
    exact ⟨rfl, rfl⟩

namespace Contract

variable (hK : K.Contract) {ctx : Context} {del : AccAddress} {v : ValAddress} {shares : Dec}
  {removed : List ValAddress}

include hK

theorem touches_newAccount (a : AccAddress) : K.Touches P ext (K.newAccount ext a) :=
  Touches.of_leavesStaking ⟨hK.newAccount_staking ext a, fun b hb ↦ hK.newAccount_other ext a b hb⟩

theorem touches_delegate {amount : ℤ} {status : BondStatus} {subtract : Bool}
    (h : K.delegate ctx ext del amount status v subtract = .ok (shares, ext')) :
    K.Touches (· = del) ext ext' := by
  obtain ⟨hpersists, hdelegations, hred, hunbonding⟩ := hK.delegate _ _ _ _ _ _ _ _ _ h
  refine ⟨hpersists, ?_, ?_, ?_, fun a _ u ↦ by rw [hunbonding]⟩
  · intro a ha u
    rw [hdelegations, getElem?_addShares, if_neg fun hkey ↦ ha hkey.1]
  · intro u red _
    rw [hred]
  · intro hz
    rw [hred, hz]

theorem touches_unbond {amount : ℤ}
    (h : K.unbond ctx ext del v shares = .ok ((amount, removed), ext')) :
    K.Touches (· = del) ext ext' := by
  obtain ⟨hpersists, _, ⟨held, _, _, hdelegations⟩, hred, hunbonding⟩ :=
    hK.unbond _ _ _ _ _ _ _ _ h
  refine ⟨hpersists, ?_, ?_, ?_, fun a _ u ↦ by rw [hunbonding]⟩
  · intro a ha u
    rw [hdelegations, getElem?_takeShares, if_neg fun hkey ↦ ha hkey.1]
  · intro u red _
    rw [hred]
  · intro hz
    rw [hred, hz]

theorem touches_undelegate {completion : Time × ℤ}
    (h : K.undelegate ctx ext del v shares = .ok ((completion, removed), ext')) :
    K.Touches (· = del) ext ext' := by
  obtain ⟨hpersists, _, ⟨held, _, _, hdelegations⟩, hred, hunbonding⟩ :=
    hK.undelegate _ _ _ _ _ _ _ _ h
  refine ⟨hpersists, ?_, ?_, ?_, ?_⟩
  · intro a ha u
    rw [hdelegations, getElem?_takeShares, if_neg fun hkey ↦ ha hkey.1]
  · intro u red _
    rw [hred]
  · intro hz
    rw [hred, hz]
  · intro a ha u
    rcases hunbonding with hsame | ⟨entry, hadded⟩
    · rw [hsame]
    · rw [hadded, getElem?_insert_ne fun hkey ↦ ha (Prod.mk.inj hkey).1.symm]

theorem touches_beginRedelegation {dst : ValAddress} {completion : Time} {unbondingId : ℕ}
    (h : K.beginRedelegation ctx ext del v dst shares =
      .ok (((completion, unbondingId), removed), ext')) :
    K.Touches (· = del) ext ext' := by
  obtain ⟨_, hpersists, _, ⟨held, newShares, _, _, hdelegations⟩, hunused, hred, hunbonding⟩ :=
    hK.beginRedelegation _ _ _ _ _ _ _ _ _ _ h
  refine ⟨hpersists, ?_, ?_, ?_, fun a _ u ↦ by rw [hunbonding]⟩
  · intro a ha u
    rw [hdelegations, getElem?_addShares, if_neg fun hkey ↦ ha hkey.1, getElem?_takeShares,
      if_neg fun hkey ↦ ha hkey.1]
  · intro u red hne
    rw [hred]
    split_ifs with hzero
    · rfl
    · rw [getElem?_insert_eq]
      split_ifs with hu
      · subst hu
        rw [hunused hzero]
        constructor
        · intro heq
          exact absurd (congrArg Redelegation.delegator (Option.some.inj heq)).symm hne
        · intro heq
          cases heq
      · rfl
  · intro hz
    rw [hred]
    split_ifs with hzero
    · exact hz
    · rw [getElem?_insert_ne hzero, hz]

end Contract

end Keepers

/-! ### Frames -/

section Frames

variable {K : Keepers σ} {w w' : World σ} {P : AccAddress → Prop} {exempt : Option AccAddress}

/-- Touching existing accounts only keeps everything else out of staking. -/
theorem tidy_of_touches (htouches : K.Touches P w.ext w'.ext)
    (hP : ∀ a, P a → (K.account w'.ext a).isSome) (htidy : (K.view w).Tidy) : (K.view w').Tidy := by
  have hbefore : ∀ a, (K.view w').accounts a = false → (K.view w).accounts a = false ∧ ¬ P a := by
    intro a ha
    constructor
    · by_contra hne
      have := htouches.account a (Bool.not_eq_false _ ▸ hne)
      change (K.account w'.ext a).isSome = false at ha
      rw [ha] at this
      cases this
    · intro hp
      have := hP a hp
      change (K.account w'.ext a).isSome = false at ha
      rw [ha] at this
      cases this
  constructor
  · intro a ha v
    obtain ⟨hnone, hp⟩ := hbefore a ha
    exact (htouches.delegations a hp v).trans (htidy.idle a hnone v)
  · intro a ha u red hu
    obtain ⟨hnone, hp⟩ := hbefore a ha
    rintro rfl
    exact htidy.notRedelegating _ hnone u red ((htouches.redelegations u red hp).mp hu) rfl
  · exact htouches.zero htidy.zero
  · intro a ha v
    obtain ⟨hnone, hp⟩ := hbefore a ha
    exact (congrArg Option.isSome (htouches.unbonding a hp v)).trans (htidy.notUnbonding a hnone v)

/-- An operation that touches no held account but the exempt one is a frame of the ledger. -/
theorem frame_of_touches (htouches : K.Touches P w.ext w'.ext) (hctx : w'.ctx = w.ctx)
    (hpaid : bonusPaid w'.emitted = bonusPaid w.emitted)
    (hP : ∀ a, P a → (K.account w'.ext a).isSome) (htidy : (K.view w).Tidy)
    (hexempt : ∀ a, (K.view w).Held K.accCodec a → exempt ≠ some a → ¬ P a)
    (hunbonding : ∀ a, exempt = some a → (K.view w').Idle a ∨
      (K.view w').unbonding a = (K.view w).unbonding a) :
    (K.view w).Frame K.accCodec exempt (K.view w') where
  now := congrArg Context.blockTime hctx
  bonded := funext htouches.bonded
  accounts := htouches.account
  paid := hpaid
  stakes := fun a ha hne ↦ funext (htouches.delegations a (hexempt a ha hne))
  redelegations := fun a ha hne u red hred ↦
    htouches.redelegations u red (hred ▸ hexempt a ha hne)
  unbonding := by
    intro a v ha hv
    by_cases hexempt' : exempt = some a
    · rcases hunbonding a hexempt' with hidle | hsame
      · exact Or.inr ⟨hexempt', hidle⟩
      · exact Or.inl (hsame ▸ hv)
    · have hsame := htouches.unbonding a (hexempt a ha hexempt') v
      exact Or.inl ((congrArg Option.isSome hsame).symm.trans hv)
  tidy := tidy_of_touches htouches hP htidy

end Frames

end ChainMain.TieredRewards
