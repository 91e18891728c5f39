import ChainMain.TieredRewards.ReachableInvariants

/-!
# Voting power of positions

The keeper functions of `voting_power.go`, and `GetPositionStatesByOwner` of `position_state.go`.
The power of a position is its part of the bonded tokens of its validator. The power of an owner is
summed over the ids that `PositionsByOwner` lists, with those that are not stored left out, and the
total over a walk of `Positions`. In every reachable world the two agree
(`voting_power_queries_agree`), because the index lists every position once, for the account its
owner decodes to.

The validators are those that staking iterates over, in the order of their power, which is left open
(`BondedValidators`).
-/

set_option autoImplicit false

namespace ChainMain.TieredRewards

open Foundations Decimal OrderedStore StoreProgram

variable {σ : Type}

/-! ### Validators for governance -/

inductive VoteOption
  | unspecified
  | yes
  | abstain
  | no
  | noWithVeto
deriving DecidableEq, Repr

/-- `v1.WeightedVoteOption`: the weight is a text. -/
structure WeightedVoteOption where
  option : VoteOption
  weight : String
deriving DecidableEq, Repr

structure ValidatorGovInfo where
  address : ValAddress
  bondedTokens : ℤ
  delegatorShares : Dec
  delegatorDeductions : Dec
  vote : List WeightedVoteOption
deriving DecidableEq

def Validator.getBondedTokens (val : Validator) : ℤ := if val.isBonded then val.tokens else 0

/-- `IterateBondedValidatorsByPower` of the staking keeper: the validators it visits, with their
operator address. -/
structure BondedValidators (σ : Type) where
  iterateBondedValidatorsByPower : σ → List (String × Validator)

def positionVotingPower (pos : PositionState) (bondedVals : Map String ValidatorGovInfo) : Dec :=
  match pos.delegation with
  | none => 0
  | some del =>
    match bondedVals[del.validatorAddress]? with
    | none => 0
    | some val =>
      if val.delegatorShares.isZero then 0
      else (del.shares.mulInt val.bondedTokens).quo val.delegatorShares

/-- What `getCurrentValidators` collects from the validators it visits. A validator whose operator
address does not decode is left out. -/
def collectValidators (codec : AddressCodec) (visited : List (String × Validator)) :
    Map String ValidatorGovInfo :=
  visited.foldl (fun vals entry ↦
    match codec.stringToBytes entry.1 with
    | none => vals
    | some v => vals.insert entry.1 ⟨v, entry.2.getBondedTokens, entry.2.delegatorShares, 0, []⟩) ∅

variable (K : Keepers σ) (G : BondedValidators σ)

def getCurrentValidators : M σ (Map String ValidatorGovInfo) := do
  let w ← get
  return collectValidators K.valCodec (G.iterateBondedValidatorsByPower w.ext)

/-! ### Power of an owner and of all positions -/

/-- The loop of `GetPositionStatesByOwner`, which skips ids that are not stored. -/
def loadPositionStates : List ℕ → M σ (List PositionState)
  | [] => pure []
  | id :: ids => do
    let outcome ← always (getPositionState K id).run
    match outcome with
    | .ok state => do
      let states ← loadPositionStates ids
      return state :: states
    | .error e => if e.is .positionNotFound then loadPositionStates ids else throw e

def getPositionStatesByOwner (owner : AccAddress) : M σ (List PositionState) := do
  let w ← get
  loadPositionStates K (w.store.getPositionsIdsByOwner owner)

def getVotingPowerByOwner (owner : AccAddress) : M σ Dec := do
  let states ← getPositionStatesByOwner K owner
  let vals ← getCurrentValidators K G
  return states.foldl (fun power p ↦ power + positionVotingPower p vals) 0

/-- The walk of `totalDelegatedVotingPower`, over the ids that are left and with the total so
far. -/
def addVotingPowers (vals : Map String ValidatorGovInfo) : List ℕ → Dec → M σ Dec
  | [], total => pure total
  | id :: ids, total => do
    let state ← getPositionState K id
    addVotingPowers vals ids (total + positionVotingPower state vals)

def totalDelegatedVotingPower : M σ Dec := do
  let vals ← getCurrentValidators K G
  let w ← get
  addVotingPowers K vals w.store.positions.keys 0

/-! ### What the queries compute -/

open Reference

section Queries

variable {K} {G} {w : World σ} {id : ℕ}

/-- A stored position with its live delegation. -/
def loadedState (K : Keepers σ) (w : World σ) (p : Position) : PositionState where
  toPosition := p
  delegation :=
    (K.accCodec.stringToBytes p.delegatorAddress).bind (firstDelegation K (K.staking w.ext))

/-- The delegator addresses of the stored positions decode. -/
def Readable (K : Keepers σ) (w : World σ) : Prop :=
  ∀ (id : ℕ) (p : Position), w.store.positions[id]? = some p →
    ∃ a, K.accCodec.stringToBytes p.delegatorAddress = some a

theorem readable_of_sound (hw : K.Sound w) : Readable K w := by
  intro id p hp
  obtain ⟨a, ha, _⟩ := hw.accounted.holds hp
  exact ⟨a, ha.account⟩

theorem getPositionState_stored {p : Position} (hread : Readable K w)
    (hp : w.store.positions[id]? = some p) :
    Succeeds (getPositionState K id) w (loadedState K w p) w := by
  obtain ⟨a, ha⟩ := hread id p hp
  refine succeeds_getPositionState.mpr ⟨hp, ⟨a, ha, ?_⟩, rfl⟩
  rw [loadedState, ha, Option.bind_some]

theorem getPositionState_missing (hp : w.store.positions[id]? = none) :
    exec (getPositionState K id) w =
      (.error (.registered .positionNotFound "position id %d" [.nat id]), w) := by
  unfold getPositionState getPosition
  rw [exec_bind, exec_bind, exec_get]
  dsimp only
  rw [hp]
  rfl

theorem loadPositionStates_eq (hread : Readable K w) (ids : List ℕ) :
    Succeeds (loadPositionStates K ids) w
      ((ids.filterMap fun id ↦ w.store.positions[id]?).map (loadedState K w)) w := by
  induction ids with
  | nil => exact .pure
  | cons id ids ih =>
    cases hp : w.store.positions[id]? with
    | none =>
      rw [List.filterMap_cons_none hp]
      exact succeeds_bind.mpr ⟨_, w, succeeds_always.mpr (getPositionState_missing hp), ih⟩
    | some p =>
      rw [List.filterMap_cons_some hp, List.map_cons]
      refine succeeds_bind.mpr ⟨_, w, succeeds_always.mpr (getPositionState_stored hread hp), ?_⟩
      exact succeeds_bind.mpr ⟨_, w, ih, .pure⟩

/-- The validators that the queries read. -/
def currentValidators (K : Keepers σ) (G : BondedValidators σ) (w : World σ) :
    Map String ValidatorGovInfo :=
  collectValidators K.valCodec (G.iterateBondedValidatorsByPower w.ext)

theorem getCurrentValidators_eq :
    Succeeds (getCurrentValidators K G) w (currentValidators K G w) w := rfl

/-- The power of the position stored under an id, zero if there is none. -/
def powerAt (K : Keepers σ) (G : BondedValidators σ) (w : World σ) (id : ℕ) : Dec :=
  (w.store.positions[id]?).elim 0 fun p ↦
    positionVotingPower (loadedState K w p) (currentValidators K G w)

theorem sum_powerAt (ids : List ℕ) (total : Dec) :
    ((ids.filterMap fun id ↦ w.store.positions[id]?).map (loadedState K w)).foldl
      (fun power p ↦ power + positionVotingPower p (currentValidators K G w)) total =
        total + (ids.map (powerAt K G w)).sum := by
  induction ids generalizing total with
  | nil => exact (add_zero total).symm
  | cons id ids ih =>
    rw [List.map_cons, List.sum_cons, powerAt]
    cases hp : w.store.positions[id]? with
    | none =>
      rw [List.filterMap_cons_none hp, ih, Option.elim_none, zero_add]
    | some p =>
      rw [List.filterMap_cons_some hp, List.map_cons, List.foldl_cons, ih, Option.elim_some,
        add_assoc]

theorem getVotingPowerByOwner_eq (hread : Readable K w) (owner : AccAddress) :
    Succeeds (getVotingPowerByOwner K G owner) w
      (((w.store.getPositionsIdsByOwner owner).map (powerAt K G w)).sum) w := by
  refine succeeds_bind.mpr ⟨_, w, succeeds_read.mpr (loadPositionStates_eq hread _), ?_⟩
  refine succeeds_bind.mpr ⟨_, w, getCurrentValidators_eq, succeeds_pure.mpr ⟨?_, rfl⟩⟩
  rw [sum_powerAt, zero_add]

theorem addVotingPowers_eq (hread : Readable K w) {ids : List ℕ}
    (hstored : ∀ id ∈ ids, ∃ p : Position, w.store.positions[id]? = some p) (total : Dec) :
    Succeeds (addVotingPowers K (currentValidators K G w) ids total) w
      (total + (ids.map (powerAt K G w)).sum) w := by
  induction ids generalizing total with
  | nil => exact succeeds_pure.mpr ⟨(add_zero total).symm, rfl⟩
  | cons id ids ih =>
    obtain ⟨p, hp⟩ := hstored id List.mem_cons_self
    refine succeeds_bind.mpr ⟨_, w, getPositionState_stored hread hp, ?_⟩
    have hpower : powerAt K G w id =
        positionVotingPower (loadedState K w p) (currentValidators K G w) := by
      rw [powerAt, hp, Option.elim_some]
    rw [List.map_cons, List.sum_cons, hpower, ← add_assoc]
    exact ih (fun id' hid' ↦ hstored id' (List.mem_cons_of_mem _ hid')) _

theorem totalDelegatedVotingPower_eq (hread : Readable K w) :
    Succeeds (totalDelegatedVotingPower K G) w
      ((w.store.positions.keys.map (powerAt K G w)).sum) w := by
  refine succeeds_bind.mpr ⟨_, w, getCurrentValidators_eq, succeeds_read.mpr ?_⟩
  rw [← zero_add ((w.store.positions.keys.map (powerAt K G w)).sum)]
  exact addVotingPowers_eq hread (fun id hid ↦ mem_keys.mp hid) 0

/-! ### The queries agree -/

def ownerAccounts (K : Keepers σ) (w : World σ) : Finset AccAddress :=
  (w.store.positions.toList.filterMap fun entry ↦ K.accCodec.stringToBytes entry.2.owner).toFinset

/-- The account that owns the position stored under an id. -/
def ownerAt (K : Keepers σ) (w : World σ) (id : ℕ) : AccAddress :=
  ((w.store.positions[id]?).bind fun p ↦ K.accCodec.stringToBytes p.owner).getD 0

theorem ownerAt_mem (hw : K.Sound w) (hid : id ∈ w.store.positions.keys) :
    ownerAt K w id ∈ ownerAccounts K w ∧
      ∀ owner, id ∈ w.store.getPositionsIdsByOwner owner ↔ ownerAt K w id = owner := by
  obtain ⟨p, hp⟩ := mem_keys.mp hid
  obtain ⟨o, ho⟩ := hw.indexed.owner id p hp
  have howner : ownerAt K w id = o := by rw [ownerAt, hp, Option.bind_some, ho, Option.getD_some]
  refine ⟨?_, fun owner ↦ ?_⟩
  · rw [howner, ownerAccounts, List.mem_toFinset, List.mem_filterMap]
    exact ⟨(id, p), mem_toList.mpr hp, ho⟩
  · rw [howner, Store.getPositionsIdsByOwner, mem_group]
    refine (hw.indexed.byOwner owner id).trans ⟨?_, ?_⟩
    · rintro ⟨q, hq, hdecodes⟩
      obtain rfl := Option.mem_unique hp hq
      exact Option.mem_unique ho hdecodes
    · rintro rfl
      exact ⟨p, hp, ho⟩

/-- The ids listed for an owner are those of the stored positions that the account owns. -/
theorem toFinset_idsByOwner (hw : K.Sound w) (owner : AccAddress) :
    (w.store.getPositionsIdsByOwner owner).toFinset =
      w.store.positions.keys.toFinset.filter fun id ↦ ownerAt K w id = owner := by
  ext id
  rw [List.mem_toFinset, Finset.mem_filter, List.mem_toFinset]
  constructor
  · intro hid
    obtain ⟨p, hp, _⟩ := (hw.indexed.byOwner owner id).mp (mem_group.mp hid)
    have hkey : id ∈ w.store.positions.keys := mem_keys.mpr ⟨p, hp⟩
    exact ⟨hkey, ((ownerAt_mem hw hkey).2 owner).mp hid⟩
  · rintro ⟨hkey, howner⟩
    exact ((ownerAt_mem hw hkey).2 owner).mpr howner

/-- The total voting power is the sum of what the owners of positions have. -/
theorem voting_power_queries_agree (G : BondedValidators σ) (hK : K.Contract) (h : Reachable K w) :
    ∃ (total : Dec) (powers : AccAddress → Dec),
      Succeeds (totalDelegatedVotingPower K G) w total w ∧
      (∀ owner, Succeeds (getVotingPowerByOwner K G owner) w (powers owner) w) ∧
      total = ∑ owner ∈ ownerAccounts K w, powers owner := by
  have hw := h.sound hK
  have hread := readable_of_sound hw
  refine ⟨_, _, totalDelegatedVotingPower_eq hread, getVotingPowerByOwner_eq hread, ?_⟩
  have hkeys : (w.store.positions.keys.map (powerAt K G w)).sum =
      ∑ id ∈ w.store.positions.keys.toFinset, powerAt K G w id :=
    (List.sum_toFinset _ Std.ExtTreeMap.nodup_keys).symm
  have howners : ∀ owner, ((w.store.getPositionsIdsByOwner owner).map (powerAt K G w)).sum =
      ∑ id ∈ w.store.positions.keys.toFinset with ownerAt K w id = owner, powerAt K G w id := by
    intro owner
    rw [← toFinset_idsByOwner hw owner]
    exact (List.sum_toFinset _ (nodup_group _ _)).symm
  have hmaps : ∀ id ∈ w.store.positions.keys.toFinset, ownerAt K w id ∈ ownerAccounts K w :=
    fun id hid ↦ (ownerAt_mem hw (List.mem_toFinset.mp hid)).1
  rw [hkeys, ← Finset.sum_fiberwise_of_maps_to hmaps]
  exact Finset.sum_congr rfl fun owner _ ↦ (howners owner).symm

/-- The bonded validators of the reference keepers. -/
def bondedValidators : BondedValidators Outside where
  iterateBondedValidatorsByPower o :=
    (o.staking.validators.toList.filter fun entry ↦ entry.2.isBonded).map fun entry ↦
      (codec.bytesToString entry.1, entry.2)

theorem voting_power_queries_agree_history :
    (exec (totalDelegatedVotingPower keepers bondedValidators)
      world₄).1.toOption = some (Dec.ofInt 1000000) ∧
      ∃ (total : Dec) (powers : AccAddress → Dec),
        Succeeds (totalDelegatedVotingPower keepers bondedValidators)
          world₄ total world₄ ∧
        (∀ owner, Succeeds (getVotingPowerByOwner keepers bondedValidators owner)
          world₄ (powers owner) world₄) ∧
        total = ∑ owner ∈ ownerAccounts keepers world₄, powers owner :=
  ⟨by decide +kernel, voting_power_queries_agree _ keepers_contract
    ⟨_, reaches_history⟩⟩

end Queries

end ChainMain.TieredRewards
