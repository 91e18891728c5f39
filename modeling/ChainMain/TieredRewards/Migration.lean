import ChainMain.TieredRewards.ForcedExitSteps
import ChainMain.TieredRewards.ReachableInvariants

/-!
# The v2 migration

`Migrate` of `migrations/v2/migrate.go`. A v1 position has no delegator address of its own; the
migration gives each position the address that was derived from its id, and then forces the
positions of vesting accounts to exit.

A v1 state is a state of the module in which the accounts of the positions are the legacy ones, with
the addresses left out of the positions (`World.withoutDelegatorAddresses`). An error of the
migration halts the chain, and there are v1 states on which it returns one: a forced exit is refused
when the position has an active redelegation (`migration_refused`), and likewise when its validator
is not bonded, when the pool does not cover its bonus, or when its shares are worth nothing. If
nothing refuses any of the exits (`Unhindered`), the migration returns no error and leaves the state
of the remaining positions (`migration_total`).
-/

set_option autoImplicit false

namespace ChainMain.TieredRewards

open Foundations Decimal OrderedStore StoreProgram Runs

variable {σ : Type}

/-! ### The code -/

section Model

variable (K : Keepers σ) (V : VestingAccounts σ)

/-- The account of `LegacyDelegatorAddress`. -/
def legacyDelegator (id : ℕ) : AccAddress :=
  K.moduleAddress ("tieredrewards/position/" ++ toString id)

def legacyDelegatorAddress (id : ℕ) : String := K.accCodec.bytesToString (legacyDelegator K id)

/-- A position with the address that is derived from its id. -/
def Position.backfilled (p : Position) : Position :=
  { p with delegatorAddress := legacyDelegatorAddress K p.id }

/-- The loop of `backfillDelegatorAddress`. -/
def backfillPositions : List (ℕ × Position) → M σ PUnit
  | [] => pure ⟨⟩
  | (_, p) :: kvs => do
    let p := p.backfilled K
    let _ ← wrapping "backfill produced invalid delegator address for position %d: %w" [.nat p.id]
      (accAddressFromBech32 K p.delegatorAddress bech32Error)
    modifyStore fun s ↦ { s with positions := s.positions.insert p.id p }
    backfillPositions kvs

def backfillDelegatorAddress : M σ PUnit := do
  let w ← get
  backfillPositions K w.store.positions.toList

/-- The walk of `exitVestedAccountsPositions`: the ids of the positions whose owner is a vesting
account. -/
def collectVestingOwned : List (ℕ × Position) → M σ (List ℕ)
  | [] => pure []
  | (id, p) :: kvs => do
    let owner ← wrapping "parse owner address for position %d: %w" [.nat id]
      (accAddressFromBech32 K p.owner bech32Error)
    let w ← get
    let account ← expect (K.account w.ext owner)
        (.message "owner account not found for position %d: %s"
      [.nat id, .str (K.accCodec.bytesToString owner)])
    let ids ← collectVestingOwned kvs
    return if account = .vesting then id :: ids else ids

/-- The loop over the collected positions. -/
def forceExits : List ℕ → M σ PUnit
  | [] => pure ⟨⟩
  | id :: ids => do
    wrapping "force-exit position %d: %w" [.nat id] (forceFullExitWithDelegation K V id)
    forceExits ids

def exitVestedAccountsPositions : M σ PUnit := do
  let w ← get
  let ids ← wrapping "walk positions: %w" [] (collectVestingOwned K w.store.positions.toList)
  forceExits K V ids

def migrate : M σ PUnit := do
  wrapping "backfill delegator address: %w" [] (backfillDelegatorAddress K)
  wrapping "exit vested accounts positions: %w" [] (exitVestedAccountsPositions K V)

/-! ### The statement -/

/-- The world as v1 stores it: positions do not carry their delegator address. -/
def World.withoutDelegatorAddresses (w : World σ) : World σ :=
  { w with
    store := { w.store with
      positions := w.store.positions.map fun _ p ↦ { p with delegatorAddress := "" } } }

/-- Whether the owner of a position has a vesting account. -/
def ownedByVesting (ext : σ) (p : Position) : Bool :=
  (K.accCodec.stringToBytes p.owner).any fun owner ↦ K.account ext owner == some .vesting

/-- The positions whose owner is a vesting account, in store order. -/
def vestingOwned (w : World σ) : List ℕ :=
  (w.store.positions.toList.filter fun entry ↦ ownedByVesting K w.ext entry.2).map Prod.fst

/-- Nothing refuses any of some forced exits, one after the other. -/
def Unhindered : List ℕ → World σ → Prop
  | [], _ => True
  | id :: ids, w =>
    (∀ pos a v s, Delegated K w id pos a v s → CanExit K w pos.toPosition a v s) ∧
      ∀ w', Succeeds (forceFullExitWithDelegation K V id) w ⟨⟩ w' → Unhindered ids w'

/-- What the migration of a v1 world `w` should leave. -/
structure Migrated (w w' : World σ) : Prop where
  legacy : ∀ (id : ℕ) (p : Position), w'.store.positions[id]? = some p →
    p.delegatorAddress = legacyDelegatorAddress K id
  noVesting : ∀ id pos a v s, Delegated K w' id pos a v s →
    ownedByVesting K w'.ext pos.toPosition = false
  /-- The position of another owner has its address filled in, and its stake is as before. -/
  unchanged : ∀ (id : ℕ) (p : Position), w.store.positions[id]? = some p →
    ownedByVesting K w.ext p = false →
    w'.store.positions[id]? = some { p with delegatorAddress := legacyDelegatorAddress K id } ∧
      ∀ v : ValAddress, (K.staking w'.ext).delegations[(legacyDelegator K id, v)]? =
        (K.staking w.ext).delegations[(legacyDelegator K id, v)]?
  indexes : IndexesAgree K w'
  events : ∀ v, EventsReferenced K w' v

end Model

variable {K : Keepers σ} {V : VestingAccounts σ} {w w' : World σ}

theorem ownedByVesting_iff {ext : σ} {p : Position} : ownedByVesting K ext p ↔
    ∃ owner, K.accCodec.stringToBytes p.owner = some owner ∧
    K.account ext owner = some .vesting := by
  unfold ownedByVesting
  rw [Option.any_eq_true]
  exact exists_congr fun owner ↦ and_congr_right fun _ ↦ beq_iff_eq

theorem mem_vestingOwned {id : ℕ} : id ∈ vestingOwned K w ↔
    ∃ p : Position, w.store.positions[id]? = some p ∧ ownedByVesting K w.ext p := by
  unfold vestingOwned
  rw [List.mem_map]
  constructor
  · rintro ⟨⟨i, p⟩, hmem, rfl⟩
    obtain ⟨hentry, howned⟩ := List.mem_filter.mp hmem
    exact ⟨p, mem_toList.mp hentry, howned⟩
  · rintro ⟨p, hp, howned⟩
    exact ⟨(id, p), List.mem_filter.mpr ⟨mem_toList.mpr hp, howned⟩, rfl⟩

theorem nodup_vestingOwned (w : World σ) : (vestingOwned K w).Nodup :=
  (nodup_keys_toList w.store.positions).sublist (List.filter_sublist.map Prod.fst)

/-! ### Filling in the addresses -/

theorem succeeds_backfillPositions (kvs : List (ℕ × Position)) (w : World σ) :
    Succeeds (backfillPositions K kvs) w ⟨⟩ { w with
      store := { w.store with
        positions := kvs.foldl (fun acc kv ↦ acc.insert kv.2.id (kv.2.backfilled K))
          w.store.positions } } := by
  induction kvs generalizing w with
  | nil => exact .pure
  | cons kv kvs ih =>
    refine succeeds_bind.mpr ⟨legacyDelegator K kv.2.id, w, succeeds_wrapping.mpr ?_, ?_⟩
    · exact succeeds_accAddressFromBech32.mpr ⟨K.accCodec.stringToBytes_bytesToString _, rfl⟩
    · exact succeeds_bind.mpr ⟨⟨⟩, _, succeeds_modifyStore.mpr rfl, ih _⟩

/-- The backfill turns the v1 form of a world back into the world, if its addresses are the legacy
ones. -/
theorem backfillDelegatorAddress_restores
    (hkey : ∀ (id : ℕ) (p : Position), w.store.positions[id]? = some p → p.id = id)
    (hlegacy : ∀ (id : ℕ) (p : Position), w.store.positions[id]? = some p →
      p.delegatorAddress = legacyDelegatorAddress K id) :
    Succeeds (backfillDelegatorAddress K) w.withoutDelegatorAddresses ⟨⟩ w := by
  refine succeeds_read.mpr ?_
  have hrun := succeeds_backfillPositions (K := K)
    w.withoutDelegatorAddresses.store.positions.toList w.withoutDelegatorAddresses
  have hpositions : w.withoutDelegatorAddresses.store.positions.toList.foldl
      (fun acc kv ↦ acc.insert kv.2.id (kv.2.backfilled K))
      w.withoutDelegatorAddresses.store.positions = w.store.positions := by
    rw [foldl_rewrite_toList _ Position.id (Position.backfilled K)]
    · ext1 id
      unfold World.withoutDelegatorAddresses
      rw [Std.ExtTreeMap.getElem?_map, Std.ExtTreeMap.getElem?_map]
      cases hp : w.store.positions[id]? with
      | none => rfl
      | some p =>
        refine congrArg some ?_
        have haddress := hlegacy id p hp
        rw [← hkey id p hp] at haddress
        exact congrArg (fun address ↦ { p with delegatorAddress := address }) haddress.symm
    · intro id p hp
      unfold World.withoutDelegatorAddresses at hp
      rw [Std.ExtTreeMap.getElem?_map] at hp
      obtain ⟨q, hq, rfl⟩ := Option.map_eq_some_iff.mp hp
      exact hkey id q hq
  rw [hpositions] at hrun
  exact hrun

/-! ### Collecting the positions -/

/-- Where every owner has an account, the walk finds the positions of vesting accounts. -/
theorem collectVestingOwned_succeeds {kvs : List (ℕ × Position)}
    (howners : ∀ entry ∈ kvs, ∃ owner, K.accCodec.stringToBytes entry.2.owner = some owner ∧
      (K.account w.ext owner).isSome) :
    Succeeds (collectVestingOwned K kvs) w
      ((kvs.filter fun entry ↦ ownedByVesting K w.ext entry.2).map Prod.fst) w := by
  induction kvs with
  | nil => exact .pure
  | cons entry kvs ih =>
    obtain ⟨id, p⟩ := entry
    obtain ⟨owner, howner, hsome⟩ := howners (id, p) List.mem_cons_self
    obtain ⟨kind, hkind⟩ := Option.isSome_iff_exists.mp hsome
    have hrest := ih fun e he ↦ howners e (List.mem_cons_of_mem _ he)
    have howned : ownedByVesting K w.ext p = decide (kind = .vesting) := by
      unfold ownedByVesting
      rw [howner, Option.any_some, hkind]
      cases kind <;> rfl
    refine succeeds_bind.mpr ⟨owner, w, succeeds_wrapping.mpr
      (succeeds_accAddressFromBech32.mpr ⟨howner, rfl⟩), succeeds_read.mpr ?_⟩
    refine succeeds_bind.mpr ⟨kind, w, succeeds_expect.mpr ⟨hkind, rfl⟩, ?_⟩
    refine succeeds_bind.mpr ⟨_, w, hrest, succeeds_pure.mpr ⟨?_, rfl⟩⟩
    rw [List.filter_cons, howned]
    by_cases hvesting : kind = .vesting
    · rw [if_pos hvesting, if_pos (decide_eq_true hvesting), List.map_cons]
    · rw [if_neg hvesting, if_neg (by simpa using hvesting)]

/-! ### All forced exits -/

/-- What some forced exits, one after the other, change. -/
structure ForcedExitsEffect (K : Keepers σ) (w : World σ) (ids : List ℕ) (w' : World σ) : Prop where
  sound : K.Sound w'
  others : ∀ i, i ∉ ids → w'.store.positions[i]? = w.store.positions[i]?
  exited : ∀ i ∈ ids, w'.store.positions[i]? = none ∨
    w'.store.positions[i]? = w.store.positions[i]? ∧
      ∀ p b, (K.view w').Holds K.accCodec i p b → (K.view w').Idle b
  vesting : ∀ b, K.account w'.ext b = some .vesting ↔ K.account w.ext b = some .vesting
  stakes : ∀ i p b, (K.view w').Holds K.accCodec i p b → ∀ u : ValAddress,
    (K.staking w'.ext).delegations[(b, u)]? = (K.staking w.ext).delegations[(b, u)]?

/-- A position that is there after the exits was there before them. -/
theorem ForcedExitsEffect.stored {ids : List ℕ} (h : ForcedExitsEffect K w ids w') {i : ℕ}
    {p : Position} (hp : w'.store.positions[i]? = some p) : w.store.positions[i]? = some p := by
  by_cases hi : i ∈ ids
  · rcases h.exited i hi with hnone | ⟨hsame, _⟩
    · rw [hnone] at hp
      cases hp
    · exact hsame ▸ hp
  · exact h.others i hi ▸ hp

theorem ForcedExitEffect.then {id : ℕ} {ids : List ℕ} {w₁ : World σ} (hnew : id ∉ ids)
    (hfirst : ForcedExitEffect K w id w₁) (hrest : ForcedExitsEffect K w₁ ids w') :
    ForcedExitsEffect K w (id :: ids) w' where
  sound := hrest.sound
  others := fun i hi ↦ (hrest.others i (List.not_mem_of_not_mem_cons hi)).trans
    (hfirst.others i (List.ne_of_not_mem_cons hi))
  exited := by
    intro i hi
    rcases List.mem_cons.mp hi with rfl | hi
    · rcases hfirst.exited with hnone | ⟨rfl, hidle⟩
      · exact Or.inl ((hrest.others i hnew).trans hnone)
      · refine Or.inr ⟨hrest.others i hnew, fun p b hb u ↦ ?_⟩
        exact (hrest.stakes i p b hb u).trans (hidle p b ⟨hrest.stored hb.stored, hb.account⟩ u)
    · have hne : i ≠ id := fun heq ↦ hnew (heq ▸ hi)
      rcases hrest.exited i hi with hnone | ⟨hsame, hidle⟩
      · exact Or.inl hnone
      · exact Or.inr ⟨hsame.trans (hfirst.others i hne), hidle⟩
  vesting := fun b ↦ (hrest.vesting b).trans (hfirst.vesting b)
  stakes := by
    intro i p b hb u
    rw [hrest.stakes i p b hb u]
    have hstored := hrest.stored hb.stored
    by_cases hi : i = id
    · subst hi
      rcases hfirst.exited with hnone | ⟨rfl, _⟩
      · rw [hnone] at hstored
        cases hstored
      · rfl
    · exact hfirst.stakes i p b hi ⟨hfirst.others i hi ▸ hstored, hb.account⟩ u

theorem forceExits_succeeds (hK : K.Contract) (hX : K.ExitContract V) (hB : K.BankContract V)
    (hR : K.ExchangeRates) {ids : List ℕ} (hnodup : ids.Nodup) (hw : K.Sound w)
    (hstaking : (K.staking w.ext).WellFormed) (hpriced : (K.view w).Priced)
    (howned : ∀ id ∈ ids, ∃ (p : Position) (owner : AccAddress), w.store.positions[id]? = some p ∧
      K.accCodec.stringToBytes p.owner = some owner ∧ K.account w.ext owner = some .vesting)
    (hcan : Unhindered K V ids w) :
    ∃ w', Succeeds (forceExits K V ids) w ⟨⟩ w' ∧ ForcedExitsEffect K w ids w' := by
  induction ids generalizing w with
  | nil =>
    refine ⟨w, .pure, hw, fun _ _ ↦ rfl, fun _ hi ↦ ?_, fun _ ↦ Iff.rfl,
      fun _ _ _ _ _ ↦ rfl⟩
    cases hi
  | cons id ids ih =>
    obtain ⟨hnew, hnodup⟩ := List.nodup_cons.mp hnodup
    obtain ⟨p, owner, hp, howner, hvesting⟩ := howned id List.mem_cons_self
    obtain ⟨w₁, hexit⟩ :=
      forceFullExitWithDelegation_succeeds hK hX hB hR hw hstaking hpriced hp howner
      hvesting hcan.1
    have heffect := forceFullExitWithDelegation_effect hK hX hB hw hstaking hpriced hexit
    have howned₁ : ∀ i ∈ ids, ∃ (p : Position) (owner : AccAddress),
        w₁.store.positions[i]? = some p ∧ K.accCodec.stringToBytes p.owner = some owner ∧
        K.account w₁.ext owner = some .vesting := by
      intro i hi
      obtain ⟨q, b, hq, hb, hkind⟩ := howned i (List.mem_cons_of_mem _ hi)
      have hne : i ≠ id := fun heq ↦ hnew (heq ▸ hi)
      exact ⟨q, b, (heffect.others i hne).trans hq, hb, (heffect.vesting b).mpr hkind⟩
    obtain ⟨w', hrest, hexits⟩ := ih hnodup heffect.sound heffect.wellFormed heffect.priced howned₁
      (hcan.2 w₁ hexit)
    exact ⟨w', succeeds_bind.mpr ⟨⟨⟩, w₁, succeeds_wrapping.mpr hexit, hrest⟩,
      heffect.then hnew hexits⟩

/-- Where nothing refuses the exit of a vesting account's position, the migration of a v1 world
returns no error and leaves a consistent state. -/
theorem migration_total (hK : K.Contract) (hX : K.ExitContract V) (hB : K.BankContract V)
    (hR : K.ExchangeRates) {τ : List (Transition (World σ) Label)} (hreach : Reaches K τ w)
    (hpast : ∀ t ∈ τ, (K.staking t.source.ext).WellFormed) (hstaking : (K.staking w.ext).WellFormed)
    (hlegacy : ∀ (id : ℕ) (p : Position), w.store.positions[id]? = some p →
      p.delegatorAddress = legacyDelegatorAddress K id)
    (hcan : Unhindered K V (vestingOwned K w) w) :
    ∃ w', Succeeds (migrate K V) w.withoutDelegatorAddresses ⟨⟩ w' ∧
      Migrated K w.withoutDelegatorAddresses w' := by
  have hw := hreach.sound hK
  have hbackfill := backfillDelegatorAddress_restores hw.indexed.id_eq hlegacy
  have hcollect : Succeeds (collectVestingOwned K w.store.positions.toList) w
      (vestingOwned K w) w := by
    refine collectVestingOwned_succeeds fun entry hentry ↦ ?_
    have hp := mem_toList.mp hentry
    obtain ⟨owner, howner⟩ := hw.indexed.owner _ _ hp
    exact ⟨owner, howner, (hw.owned _ _ owner hp howner).accountExists⟩
  have howned : ∀ id ∈ vestingOwned K w, ∃ (p : Position) (owner : AccAddress),
      w.store.positions[id]? = some p ∧ K.accCodec.stringToBytes p.owner = some owner ∧
        K.account w.ext owner = some .vesting := by
    intro id hid
    obtain ⟨p, hp, hvesting⟩ := mem_vestingOwned.mp hid
    obtain ⟨owner, howner, hkind⟩ := ownedByVesting_iff.mp hvesting
    exact ⟨p, owner, hp, howner, hkind⟩
  obtain ⟨w', hexits, heffect⟩ := forceExits_succeeds hK hX hB hR (nodup_vestingOwned w) hw hstaking
    (hreach.priced hK hpast) howned hcan
  have hsame : ∀ p, ownedByVesting K w'.ext p = ownedByVesting K w.ext p := by
    intro p
    rw [Bool.eq_iff_iff, ownedByVesting_iff, ownedByVesting_iff]
    exact exists_congr fun owner ↦ and_congr_right fun _ ↦ heffect.vesting owner
  refine ⟨w', succeeds_bind.mpr ⟨⟨⟩, w, succeeds_wrapping.mpr hbackfill, succeeds_wrapping.mpr
    (succeeds_read.mpr (succeeds_bind.mpr ⟨_, w, succeeds_wrapping.mpr hcollect, hexits⟩))⟩,
    fun id p hp ↦ hlegacy id p (heffect.stored hp), fun id pos a v s hpos ↦
      ?_, fun id p hp hother ↦ ?_,
    indexesAgree_of_sound heffect.sound, eventsReferenced_of_sound heffect.sound⟩
  · by_contra hvesting
    rw [Bool.not_eq_false, hsame] at hvesting
    have hmem := mem_vestingOwned.mpr ⟨_, heffect.stored hpos.holds.stored, hvesting⟩
    rcases heffect.exited id hmem with hnone | ⟨_, hidle⟩
    · have hstored : w'.store.positions[id]? = some pos.toPosition := hpos.holds.stored
      rw [hnone] at hstored
      cases hstored
    · exact hpos.stake.not_idle (hidle _ _ hpos.holds)
  · change (w.store.positions.map fun _ p ↦ { p with delegatorAddress := "" })[id]? = some p at hp
    rw [Std.ExtTreeMap.getElem?_map] at hp
    obtain ⟨q, hq, rfl⟩ := Option.map_eq_some_iff.mp hp
    have hnot : id ∉ vestingOwned K w := by
      intro hmem
      obtain ⟨r, hr, hvesting⟩ := mem_vestingOwned.mp hmem
      obtain rfl := Option.mem_unique hq hr
      exact Bool.false_ne_true (hother.symm.trans hvesting)
    have hstored : w'.store.positions[id]? = some q := (heffect.others id hnot).trans hq
    have haddress := hlegacy id q hq
    refine ⟨hstored.trans (congrArg some ?_), heffect.stakes id q _ ⟨hstored, ?_⟩⟩
    · rw [← haddress]
    · rw [haddress]
      exact K.accCodec.stringToBytes_bytesToString _

/-! ### Keepers with legacy accounts -/

theorem Keepers.Contract.withModuleAddress (h : K.Contract) (f : String → AccAddress) :
    Keepers.Contract { K with moduleAddress := f } where
  newAccount_staking := h.newAccount_staking
  newAccount_self := h.newAccount_self
  newAccount_other := h.newAccount_other
  sendCoins ctx o src dst coins o' hok :=
    have hleaves := h.sendCoins ctx o src dst coins o' hok
    ⟨hleaves.staking, hleaves.account⟩
  sendCoinsFromModuleToAccount ctx o pool dst coins o' hok :=
    have hleaves := h.sendCoinsFromModuleToAccount ctx o pool dst coins o' hok
    ⟨hleaves.staking, hleaves.account⟩
  withdrawDelegationRewards ctx o del v coins o' hok :=
    have hleaves := h.withdrawDelegationRewards ctx o del v coins o' hok
    ⟨hleaves.staking, hleaves.account⟩
  setWithdrawAddr ctx o del owner o' hok :=
    have hleaves := h.setWithdrawAddr ctx o del owner o' hok
    ⟨hleaves.staking, hleaves.account⟩
  deleteDelegatorWithdrawAddr ctx o del owner o' hok :=
    have hleaves := h.deleteDelegatorWithdrawAddr ctx o del owner o' hok
    ⟨hleaves.staking, hleaves.account⟩
  delegate ctx o del amount status v subtract shares o' hok :=
    have ⟨hpersists, hrest⟩ := h.delegate ctx o del amount status v subtract shares o' hok
    ⟨⟨hpersists.account, hpersists.bonded⟩, hrest⟩
  unbond ctx o del v shares amount removed o' hok :=
    have ⟨hpersists, hrest⟩ := h.unbond ctx o del v shares amount removed o' hok
    ⟨⟨hpersists.account, hpersists.bonded⟩, hrest⟩
  undelegate ctx o del v shares completion removed o' hok :=
    have ⟨hpersists, hrest⟩ := h.undelegate ctx o del v shares completion removed o' hok
    ⟨⟨hpersists.account, hpersists.bonded⟩, hrest⟩
  beginRedelegation ctx o del src dst shares completion unbondingId removed o' hok :=
    have ⟨hne, hpersists, hrest⟩ :=
      h.beginRedelegation ctx o del src dst shares completion unbondingId removed o' hok
    ⟨hne, ⟨hpersists.account, hpersists.bonded⟩, hrest⟩

namespace Reference

/-- The keepers under which the account of the first position is the legacy one. -/
def legacyKeepers : Keepers Outside :=
  { ratedKeepers with
    moduleAddress := fun name ↦ if name = "tieredrewards/position/0" then 10 else 0 }

theorem legacyKeepers_contract : legacyKeepers.Contract := ratedKeepers_contract.withModuleAddress _

theorem legacyKeepers_exchangeRates : legacyKeepers.ExchangeRates :=
  ⟨ratedKeepers_exchangeRates.validateUnbondAmount, ratedKeepers_exchangeRates.unbond⟩

theorem legacyKeepers_bankContract : legacyKeepers.BankContract vestingAccounts :=
  ⟨bankContract.sendAll, bankContract.deleteDelegatorWithdrawAddr, fun ctx o owner coins ↦
    have hleaves := bankContract.trackDelegation ctx o owner coins
    ⟨hleaves.staking, hleaves.account⟩⟩

theorem keepsValidators_of_eq {st st' : Staking} {removed : List ValAddress} (hst : st.WellFormed)
    (h : st'.validators = st.validators) : st.KeepsValidators removed st' :=
  ⟨fun _ val hval _ ↦ ⟨val, h ▸ hval⟩, fun u val hval ↦ hst.tokens u val (h ▸ hval)⟩

theorem legacyKeepers_unbond {ctx : Context} {o o' : Outside} {del : AccAddress} {v : ValAddress}
    {shares : Dec} {result : ℤ × List ValAddress}
    (h : legacyKeepers.unbond ctx o del v shares = .ok (result, o')) :
    ∃ held, o' = o.setDelegations (takeShares o.staking.delegations del v held shares) := by
  have hrated : ratedKeepers.unbond ctx o del v shares = .ok ((result.1, result.2), o') := h
  obtain ⟨o₁, htake, heq⟩ := map_eq_ok (ratedKeepers_unbond hrated).2
  obtain ⟨_, rfl⟩ := Prod.mk.inj heq
  obtain ⟨held, _, _, hsame⟩ := Outside.takeStake_ok htake
  exact ⟨held, hsame⟩

theorem keeps_vesting (owner : AccAddress) :
    legacyKeepers.Keeps fun w ↦ legacyKeepers.account w.ext owner = some .vesting where
  outside w w' _ hext :=
    congrArg (fun o : Outside ↦ legacyKeepers.account o owner = some .vesting) hext
  sendCoinsFromModuleToAccount w pool dst coins o h := by
    change (o.accounts[owner]? = _) = (w.ext.accounts[owner]? = _)
    rw [(Outside.movesCoins_send h).accounts]
  withdrawDelegationRewards w del v coins o h := by
    obtain ⟨_, rfl⟩ := Prod.mk.inj (Except.ok.inj h)
    rfl
  deleteDelegatorWithdrawAddr w del withdraw o h := by
    obtain rfl := Except.ok.inj h
    rfl
  delegate w del amount status v shares o h := by
    obtain ⟨_, rfl⟩ := Prod.mk.inj (Except.ok.inj h)
    rfl
  unbond w del v shares amount removed o h := by
    obtain ⟨held, rfl⟩ := legacyKeepers_unbond h
    rfl

theorem legacyKeepers_exitContract : legacyKeepers.ExitContract vestingAccounts where
  withdrawDelegationRewards ctx o del v shares _ := ⟨∅, o, rfl, fun _ h ↦ h⟩
  deleteDelegatorWithdrawAddr ctx o del owner := ⟨o, rfl⟩
  unbond ctx o del v shares val hval hheld := by
    refine ⟨(val.issuedTokens shares, []),
      o.setDelegations (takeShares o.staking.delegations del v shares shares), ?_⟩
    have hval' : o.staking.validators[v]? = some val := hval
    have hheld' : o.staking.delegations[(del, v)]? = some shares := hheld
    unfold legacyKeepers ratedKeepers Outside.takeStake
    dsimp only
    rw [hval', hheld']
    dsimp only
    rw [if_pos (le_refl shares)]
    rfl
  unbond_validators ctx o del v shares amount removed o' hst h := by
    obtain ⟨held, rfl⟩ := legacyKeepers_unbond h
    exact keepsValidators_of_eq hst rfl
  delegate ctx o del amount v val _ _ _ := ⟨_, _, rfl⟩
  delegate_validators ctx o del amount status v shares o' hst h := by
    obtain ⟨_, rfl⟩ := Prod.mk.inj (Except.ok.inj h)
    exact keepsValidators_of_eq hst rfl
  paysOut o owner _ := paysOut o owner
  vesting := keeps_vesting
  trackDelegation _ _ _ _ _ := rfl

/-- Whatever is delivered, the account of an owner can turn out to be a vesting account. -/
def withVestingUser (w : World Outside) : World Outside :=
  { w with ext := { w.ext with accounts := w.ext.accounts.insert 2 .vesting } }

theorem chainStep_withVestingUser {w : World Outside} (h : (w.ext.accounts[(2 : ℕ)]?).isSome)
    (htidy : (legacyKeepers.view w).Tidy) :
    ChainStep legacyKeepers w .outside (withVestingUser w) := by
  have haccounts : ∀ b, (legacyKeepers.view (withVestingUser w)).accounts b =
      (legacyKeepers.view w).accounts b := by
    intro b
    change ((w.ext.accounts.insert 2 .vesting)[b]?).isSome = (w.ext.accounts[b]?).isSome
    rw [getElem?_insert_eq]
    split_ifs with hb
    · subst hb
      exact h.symm
    · rfl
  have hview : legacyKeepers.view (withVestingUser w) = legacyKeepers.view w :=
    congrArg (fun accounts ↦ { legacyKeepers.view w with accounts := accounts }) (funext haccounts)
  refine .outside _ ?_
  change (legacyKeepers.view w).Frame _ none (legacyKeepers.view (withVestingUser w))
  rw [hview]
  exact ⟨rfl, rfl, fun _ hb ↦ hb, rfl, fun _ _ _ ↦ rfl, fun _ _ _ _ _ _ ↦ Iff.rfl,
    fun _ _ _ hv ↦ Or.inl hv, htidy⟩

/-- The user has locked tokens, as v1 would store it under the legacy account. -/
def legacyLocked : World Outside :=
  (deliver legacyKeepers lockTier (deliver legacyKeepers addTier world₀).2).2

/-- The user has moved the position to the second validator. -/
def legacyRedelegated : World Outside := (deliver legacyKeepers redelegate legacyLocked).2

theorem fresh_legacy : Fresh legacyKeepers world₀ :=
  ⟨fresh_world₀.store, fresh_world₀.emitted, fresh_world₀.time, fresh_world₀.tidy.idle,
    fresh_world₀.tidy.notRedelegating, fresh_world₀.tidy.zero, fresh_world₀.tidy.notUnbonding⟩

def legacyHistory : List (Transition (World Outside) Label) :=
  [⟨world₀, .deliver addTier, (deliver legacyKeepers addTier world₀).2⟩,
    ⟨(deliver legacyKeepers addTier world₀).2, .deliver lockTier, legacyLocked⟩]

theorem run_legacyHistory : Run (ChainStep legacyKeepers) world₀ legacyHistory legacyLocked :=
  .cons (.deliver addTier (signerIsFree_sound (by decide +kernel)))
    (.cons (.deliver lockTier (signerIsFree_sound (by decide +kernel))) .nil)

/-- The history in which the owner of the locked position has a vesting account. -/
def vestingHistory : List (Transition (World Outside) Label) :=
  legacyHistory ++ [⟨legacyLocked, .outside, withVestingUser legacyLocked⟩]

theorem reaches_vestingLocked :
    Reaches legacyKeepers vestingHistory (withVestingUser legacyLocked) := by
  have hreach : Reaches legacyKeepers legacyHistory legacyLocked :=
    ⟨world₀, fresh_legacy, run_legacyHistory⟩
  exact ⟨world₀, fresh_legacy, run_legacyHistory.snoc (chainStep_withVestingUser (by decide +kernel)
    (hreach.sound legacyKeepers_contract).tidy)⟩

theorem reachable_vestingRedelegated :
  Reachable legacyKeepers (withVestingUser legacyRedelegated) := by
  have hrun : Run (ChainStep legacyKeepers) world₀
      (legacyHistory ++ [⟨legacyLocked, .deliver redelegate, legacyRedelegated⟩])
      legacyRedelegated :=
    run_legacyHistory.snoc (.deliver redelegate (signerIsFree_sound (by decide +kernel)))
  have hreach : Reaches legacyKeepers _ legacyRedelegated := ⟨world₀, fresh_legacy, hrun⟩
  exact ⟨_, world₀, fresh_legacy, hrun.snoc (chainStep_withVestingUser (by decide +kernel)
    (hreach.sound legacyKeepers_contract).tidy)⟩

/-- A check that the positions have legacy addresses. -/
def hasLegacyAddresses (w : World Outside) : Bool :=
  w.store.positions.toList.all fun entry ↦
    entry.2.delegatorAddress == legacyDelegatorAddress legacyKeepers entry.1

theorem hasLegacyAddresses_sound {w : World Outside} (h : hasLegacyAddresses w) (id : ℕ)
    (p : Position) (hp : w.store.positions[id]? = some p) :
    p.delegatorAddress = legacyDelegatorAddress legacyKeepers id :=
  beq_iff_eq.mp (List.all_eq_true.mp h (id, p) (mem_toList.mpr hp))

theorem fails_exec_of_is {α : Type} {x : M Outside α} {w : World Outside} {code : ErrCode}
    (h : (match (exec x w).1 with | .error e => e.is code | .ok _ => false) = true) :
    ∃ e w', Fails x w e w' ∧ e.is code := by
  cases hx : (exec x w).1 with
  | error e =>
    rw [hx] at h
    exact ⟨e, (exec x w).2, Prod.ext hx rfl, h⟩
  | ok a =>
    rw [hx] at h
    cases h

theorem unhindered_vestingLocked : Unhindered legacyKeepers vestingAccounts
    (vestingOwned legacyKeepers (withVestingUser legacyLocked)) (withVestingUser legacyLocked) := by
  have hids : vestingOwned legacyKeepers (withVestingUser legacyLocked) = [0] := by decide +kernel
  rw [hids]
  refine ⟨fun pos a v s hpos ↦ ?_, fun _ _ ↦ trivial⟩
  have hstored : (withVestingUser legacyLocked).store.positions[(0 : ℕ)]? = some position := by
    decide +kernel
  have hposition : pos.toPosition = position := Option.mem_unique hpos.holds.stored hstored
  obtain rfl : a = 10 := by
    have haccount := hpos.holds.account
    rw [hposition] at haccount
    exact Option.mem_unique haccount (by decide +kernel)
  have hshares : (withVestingUser legacyLocked).ext.staking.delegations[((10 : ℕ), (1 : ℕ))]? =
      some (Dec.ofInt 1000000) := by decide +kernel
  obtain ⟨rfl, rfl⟩ : v = 1 ∧ s = Dec.ofInt 1000000 := by
    have hstake := hpos.stake 1
    change (withVestingUser legacyLocked).ext.staking.delegations[((10 : ℕ), (1 : ℕ))]? =
      _ at hstake
    rw [hshares] at hstake
    split_ifs at hstake with hv
    exact ⟨hv.symm, (Option.some.inj hstake).symm⟩
  have hval : (withVestingUser legacyLocked).ext.staking.validators[(1 : ℕ)]? =
      some ⟨.bonded, 5000000, Dec.ofInt 5000000⟩ := by decide +kernel
  have htier : (withVestingUser legacyLocked).store.tiers[(1 : ℕ)]? =
      some ⟨1, 30 * 24 * 60 * 60 * second, ⟨50000000000000000⟩, 1000, false⟩ := by decide +kernel
  rw [hposition]
  refine ⟨redelegationsOf_eq_nil.mp (by decide +kernel), by decide +kernel, fun tier val ht hv ↦ ?_,
    fun val hv ↦ ?_, fun ctx o result o' val hsame hunbond hv ↦ ?_⟩
  · obtain rfl := Option.mem_unique htier ht
    obtain rfl := Option.mem_unique hval hv
    decide +kernel
  · obtain rfl := Option.mem_unique hval hv
    decide +kernel
  · obtain ⟨held, rfl⟩ := legacyKeepers_unbond hunbond
    have hvalidators : o.staking.validators[(1 : ℕ)]? = some val := hv
    rw [show o.staking = (withVestingUser legacyLocked).ext.staking from hsame, hval] at hvalidators
    obtain rfl := Option.some.inj hvalidators
    decide +kernel

end Reference

open Reference

/-- The migration of a v1 world in which a vesting account owns a position that is redelegating
returns an error. -/
theorem migration_refused :
    Reachable legacyKeepers (withVestingUser legacyRedelegated) ∧
      (∀ (id : ℕ) (p : Position),
        (withVestingUser legacyRedelegated).store.positions[id]? = some p →
          p.delegatorAddress = legacyDelegatorAddress legacyKeepers id) ∧
      ∃ e w', Fails (migrate legacyKeepers vestingAccounts)
          (withVestingUser legacyRedelegated).withoutDelegatorAddresses e w' ∧
        e.is .activeRedelegation :=
  ⟨reachable_vestingRedelegated,
    fun id p hp ↦ hasLegacyAddresses_sound (by decide +kernel) id p hp,
    fails_exec_of_is (by decide +kernel)⟩

/-- The migration of a v1 world in which a vesting account owns a position. -/
theorem migration_total_locked :
    ∃ w', Succeeds (migrate legacyKeepers vestingAccounts)
        (withVestingUser legacyLocked).withoutDelegatorAddresses ⟨⟩ w' ∧
      Migrated legacyKeepers
        (withVestingUser legacyLocked).withoutDelegatorAddresses w' :=
  migration_total legacyKeepers_contract legacyKeepers_exitContract
    legacyKeepers_bankContract legacyKeepers_exchangeRates
    reaches_vestingLocked
    (fun t ht ↦ wellFormed_sound (by
      have hall : vestingHistory.all
          (fun t ↦ wellFormed t.source.ext.staking) = true := by decide +kernel
      exact List.all_eq_true.mp hall t ht))
    (wellFormed_sound (by decide +kernel))
    (fun id p hp ↦ hasLegacyAddresses_sound (by decide +kernel) id p hp)
    unhindered_vestingLocked

end ChainMain.TieredRewards
