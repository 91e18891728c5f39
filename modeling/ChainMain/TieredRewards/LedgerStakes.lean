import ChainMain.TieredRewards.LedgerIndexes

/-!
# Stake and checkpoints of the ledger

`Ledger.Coherent` says that the bonus checkpoints of a position are set exactly when its account has
stake, that this stake is on one validator, and that the counter by validator holds the number of
positions staked on each validator. It survives every step of the ledger.
-/

set_option autoImplicit false

namespace ChainMain.TieredRewards

open Foundations Decimal OrderedStore

theorem Position.validate_clearExit {codec : AddressCodec} {p : Position}
    (h : p.validate codec = .ok ()) (accrual : Time) :
    { p with exitTriggeredAt := 0, exitUnlockAt := 0, lastBonusAccrual := accrual }.validate codec =
      .ok () := by
  unfold Position.validate at h ⊢
  split_ifs at h
  simp_all

namespace Ledger

variable {codec : AddressCodec} {L L' : Ledger}

/-- The account of a position has stake on a validator. -/
def staked (codec : AddressCodec) (L : Ledger) (v : ValAddress) (p : Position) : Bool :=
  (codec.stringToBytes p.delegatorAddress).any fun a ↦ (L.stakes a v).isSome

/-- The number of positions staked on a validator. -/
def validatorSize (codec : AddressCodec) (L : Ledger) (v : ValAddress) : ℕ :=
  count (fun _ p ↦ L.staked codec v p) L.store.positions

/-- The checkpoints of a position agree with the stake of its account. -/
def Backed (L : Ledger) (p : Position) (a : AccAddress) : Prop :=
  (∃ v s, L.StakedOn a v s ∧ 0 < s ∧ p.lastBonusAccrual ≠ 0) ∨
    (L.Idle a ∧ p.lastBonusAccrual = 0 ∧ p.lastEventSeq = 0 ∧ p.lastKnownBonded = false)

/-- Every stored position is valid and backed, and the counter by validator is right. -/
structure Coherent (codec : AddressCodec) (L : Ledger) : Prop where
  now : 0 < L.now
  valid : ∀ (i : ℕ) (p : Position), L.store.positions[i]? = some p → p.validate codec = .ok ()
  backed : ∀ (i : ℕ) (p : Position) (a : AccAddress), L.Holds codec i p a → L.Backed p a
  counted : IsTally L.store.positionCountByValidator (L.validatorSize codec)

/-! ### Stake of an account -/

theorem StakedOn.stakes_eq {a : AccAddress} {v : ValAddress} {s : Dec} (h : L.StakedOn a v s) :
    L.stakes a v = some s := by
  rw [h v, if_pos rfl]

theorem StakedOn.unique {a : AccAddress} {v u : ValAddress} {s t : Dec} (h : L.StakedOn a v s)
    (h' : L.StakedOn a u t) : u = v ∧ t = s := by
  have hu := h'.stakes_eq
  rw [h u] at hu
  split_ifs at hu with huv
  exact ⟨huv, (Option.some.inj hu).symm⟩

theorem StakedOn.not_idle {a : AccAddress} {v : ValAddress} {s : Dec} (h : L.StakedOn a v s) :
    ¬ L.Idle a := by
  intro hidle
  have hv := h.stakes_eq
  rw [hidle v] at hv
  cases hv

theorem StakedOn.congr {a : AccAddress} {v : ValAddress} {s : Dec} (h : L.StakedOn a v s)
    (hstakes : L'.stakes a = L.stakes a) : L'.StakedOn a v s := by
  intro u
  rw [hstakes]
  exact h u

theorem Idle.congr {a : AccAddress} (h : L.Idle a) (hstakes : L'.stakes a = L.stakes a) :
    L'.Idle a := by
  intro u
  rw [hstakes]
  exact h u

theorem Backed.congr {p q : Position} {a : AccAddress} (h : L.Backed p a)
    (hstakes : L'.stakes a = L.stakes a) (haccrual : q.lastBonusAccrual = p.lastBonusAccrual)
    (hseq : q.lastEventSeq = p.lastEventSeq) (hbonded : q.lastKnownBonded = p.lastKnownBonded) :
    L'.Backed q a := by
  unfold Backed
  rw [haccrual, hseq, hbonded]
  rcases h with ⟨v, s, hstake, hshares, hset⟩ | ⟨hidle, hclear⟩
  · exact Or.inl ⟨v, s, hstake.congr hstakes, hshares, hset⟩
  · exact Or.inr ⟨hidle.congr hstakes, hclear⟩

/-- A delegation of a held account is its whole stake, and it is positive. -/
theorem Coherent.stakedOn_of_stakes (hL : L.Coherent codec) {i : ℕ} {p : Position} {a : AccAddress}
    {v : ValAddress} {s : Dec} (hp : L.Holds codec i p a) (h : L.stakes a v = some s) :
    L.StakedOn a v s ∧ 0 < s := by
  rcases hL.backed i p a hp with ⟨u, t, hstake, hpos, _⟩ | ⟨hidle, _⟩
  · rw [hstake v] at h
    split_ifs at h with hvu
    obtain rfl := Option.some.inj h
    exact ⟨hvu ▸ hstake, hpos⟩
  · rw [hidle v] at h
    cases h

theorem staked_eq {p : Position} {a : AccAddress}
    (hp : codec.stringToBytes p.delegatorAddress = some a) (v : ValAddress) :
    L.staked codec v p = (L.stakes a v).isSome := by
  unfold staked
  rw [hp]
  rfl

theorem StakedOn.staked {p : Position} {a : AccAddress} {v : ValAddress} {s : Dec}
    (h : L.StakedOn a v s) (hp : codec.stringToBytes p.delegatorAddress = some a) (u : ValAddress) :
    L.staked codec u p = decide (u = v) := by
  rw [staked_eq hp, h u]
  split_ifs with huv <;> simp [huv]

theorem Idle.staked {p : Position} {a : AccAddress} (h : L.Idle a)
    (hp : codec.stringToBytes p.delegatorAddress = some a) (u : ValAddress) :
    L.staked codec u p = false := by
  rw [staked_eq hp, h u]
  rfl

/-! ### One position changes -/

/-- The stored positions other than `i` keep their stake when only the account `a` is touched. -/
theorem staked_other (hacc : L.Accounted codec) {i : ℕ} {p : Position} {a : AccAddress}
    (hp : L.Holds codec i p a) (hstakes : ∀ b, L.Held codec b → b ≠ a → L'.stakes b = L.stakes b)
    (v : ValAddress) (j : ℕ) (r : Position) (hj : j ≠ i) (hr : L.store.positions[j]? = some r) :
    L'.staked codec v r = L.staked codec v r := by
  obtain ⟨b, hb, _, _⟩ := hacc.holds hr
  have hne : b ≠ a := by
    rintro rfl
    exact hj (hacc.distinct j i r p b hb hp)
  rw [staked_eq hb.account, staked_eq hb.account, hstakes b hb.held hne]

/-- How the number of positions of a validator changes when one position is replaced. -/
theorem validatorSize_put (hacc : L.Accounted codec) {i : ℕ} {p q : Position} {a : AccAddress}
    (hp : L.Holds codec i p a) (hput : L'.store.positions = L.store.positions.insert i q)
    (hstakes : ∀ b, L.Held codec b → b ≠ a → L'.stakes b = L.stakes b) (v : ValAddress) :
    L'.validatorSize codec v + (if L.staked codec v p then 1 else 0) =
      L.validatorSize codec v + if L'.staked codec v q then 1 else 0 := by
  unfold validatorSize
  rw [hput]
  exact count_update hp.stored q fun j r hj hr ↦ staked_other hacc hp hstakes v j r hj hr

/-- Backing survives when one position is replaced and only its account is touched. -/
theorem backed_put (hacc : L.Accounted codec) (hL : L.Coherent codec) {i : ℕ} {p q : Position}
    {a : AccAddress} (hp : L.Holds codec i p a) (hsame : p.SameIdentity q)
    (hput : L'.store.positions = L.store.positions.insert i q)
    (hstakes : ∀ b, L.Held codec b → b ≠ a → L'.stakes b = L.stakes b) (hq : L'.Backed q a)
    (j : ℕ) (r : Position) (b : AccAddress) (hr : L'.Holds codec j r b) : L'.Backed r b := by
  rcases hr.of_put hp hsame hput with ⟨_, rfl, rfl⟩ | ⟨hj, hold⟩
  · exact hq
  · have hne : b ≠ a := by
      rintro rfl
      exact hj (hacc.distinct j i r p b hold hp)
    exact (hL.backed j r b hold).congr (hstakes b hold.held hne) rfl rfl rfl

/-- Validity survives when one position is replaced by a valid one. -/
theorem valid_put (hL : L.Coherent codec) {i : ℕ} {q : Position}
    (hput : L'.store.positions = L.store.positions.insert i q) (hq : q.validate codec = .ok ())
    (j : ℕ) (r : Position) (hr : L'.store.positions[j]? = some r) : r.validate codec = .ok () := by
  rw [hput] at hr
  rcases eq_or_getElem?_of_insert hr with ⟨_, rfl⟩ | ⟨_, hold⟩
  · exact hq
  · exact hL.valid j r hold

/-- Coherence survives a step that leaves the positions and their stake alone. -/
theorem Coherent.of_same (hL : L.Coherent codec) (hnow : L.now ≤ L'.now)
    (hpositions : L'.store.positions = L.store.positions)
    (hcounts : L'.store.positionCountByValidator = L.store.positionCountByValidator)
    (hstakes : ∀ a, L.Held codec a → L'.stakes a = L.stakes a) : L'.Coherent codec := by
  refine ⟨lt_of_lt_of_le hL.now hnow, ?_, ?_, ?_⟩
  · intro j r hr
    rw [hpositions] at hr
    exact hL.valid j r hr
  · intro j r b hr
    have hold : L.Holds codec j r b := ⟨hpositions ▸ hr.stored, hr.account⟩
    exact (hL.backed j r b hold).congr (hstakes b hold.held) rfl rfl rfl
  · rw [hcounts]
    refine hL.counted.congr fun v ↦ ?_
    unfold validatorSize
    rw [hpositions]
    refine count_congr fun j r hr ↦ ?_
    cases hb : codec.stringToBytes r.delegatorAddress with
    | none => simp [staked, hb]
    | some b => rw [staked_eq hb, staked_eq hb, hstakes b ⟨j, r, hr, hb⟩]

/-- Coherence survives a step that replaces a position and leaves all stake alone. -/
theorem Coherent.of_put (hL : L.Coherent codec) (hindex : L.store.Indexed codec)
    (hacc : L.Accounted codec) {i : ℕ} {p q : Position} {a : AccAddress} (hp : L.Holds codec i p a)
    (hsame : p.SameIdentity q) (hnow : L'.now = L.now)
    (hput : L'.store.positions = L.store.positions.insert q.id q)
    (hcounts : L'.store.positionCountByValidator = L.store.positionCountByValidator)
    (hstakes : L'.stakes = L.stakes) (hvalid : q.validate codec = .ok ()) (hq : L'.Backed q a) :
    L'.Coherent codec := by
  rw [hindex.insert_eq hp.stored hsame] at hput
  have hothers : ∀ b, L.Held codec b → b ≠ a → L'.stakes b = L.stakes b := by
    intro b _ _
    rw [hstakes]
  refine ⟨hnow ▸ hL.now, valid_put hL hput hvalid, backed_put hacc hL hp hsame hput hothers hq, ?_⟩
  rw [hcounts]
  refine hL.counted.congr fun v ↦ ?_
  have hsize := validatorSize_put hacc hp hput hothers v
  have hstaked : L'.staked codec v q = L.staked codec v p := by
    unfold staked
    rw [hsame.delegatorAddress, hstakes]
  rw [hstaked] at hsize
  omega

/-! ### The steps that touch stake -/

theorem Frame.stakes_other {a : AccAddress} (h : Frame codec (some a) L L') (b : AccAddress)
    (hb : L.Held codec b) (hne : b ≠ a) : L'.stakes b = L.stakes b :=
  h.stakes b hb fun hba ↦ hne (Option.some.inj hba).symm

/-- The bonus of a settled position has accrued up to a time that is not zero. -/
theorem accrualEnd_ne_zero (p : Position) {now : Time} (hnow : 0 < now) :
    (if p.completedExitLockDuration now then p.exitUnlockAt else now) ≠ 0 := by
  split_ifs with hdone
  · unfold Position.completedExitLockDuration at hdone
    rw [Bool.and_eq_true, decide_eq_true_eq] at hdone
    exact hdone.1
  · exact ne_of_gt hnow

theorem Coherent.shares_pos (hL : L.Coherent codec) {i : ℕ} {p : Position} {a : AccAddress}
    {v : ValAddress} {s : Dec} (hp : L.Holds codec i p a) (hstake : L.StakedOn a v s) :
    0 < s ∧ p.lastBonusAccrual ≠ 0 := by
  rcases hL.backed i p a hp with ⟨u, t, hstake', hpos, haccrual⟩ | ⟨hidle, _⟩
  · obtain ⟨_, rfl⟩ := hstake.unique hstake'
    exact ⟨hpos, haccrual⟩
  · exact absurd hidle hstake.not_idle

theorem Coherent.of_create (hL : L.Coherent codec) (hindex : L.store.Indexed codec)
    (hacc : L.Accounted codec) {p : Position} {a owner : AccAddress} {v : ValAddress} {s : Dec}
    {tier : Tier} {exiting : Bool} (hfresh : L.Fresh p v tier exiting)
    (hvalid : p.validate codec = .ok ()) (haddress : p.delegatorAddress = codec.bytesToString a)
    (hshares : 0 < s) (hstake : L'.StakedOn a v s) (hframe : Frame codec none L L')
    (hstore : L'.store = ({ L.store with nextPositionId := L.store.nextPositionId + 1 }.addPosition
      owner p).moveCount none (some v)) : L'.Coherent codec := by
  have hpositions : L'.store.positions = L.store.positions.insert p.id p :=
    congrArg Store.positions hstore
  have hnone : L.store.positions[p.id]? = none := by
    cases hq : L.store.positions[p.id]? with
    | none => rfl
    | some q =>
      have := hindex.id_lt _ q hq
      have := hfresh.id
      omega
  have hp : codec.stringToBytes p.delegatorAddress = some a := by
    rw [haddress]
    exact codec.stringToBytes_bytesToString a
  have hothers : ∀ b, L.Held codec b → L'.stakes b = L.stakes b :=
    fun b hb ↦ hframe.stakes b hb (by simp)
  have hsize : ∀ u, L'.validatorSize codec u =
      L.validatorSize codec u + if u = v then 1 else 0 := by
    intro u
    unfold validatorSize
    rw [hpositions, count_insert_of_none _ hnone, hstake.staked hp]
    have hold : count (fun _ r ↦ L'.staked codec u r) L.store.positions =
        count (fun _ r ↦ L.staked codec u r) L.store.positions := by
      refine count_congr fun j r hr ↦ ?_
      obtain ⟨b, hb, _, _⟩ := hacc.holds hr
      rw [staked_eq hb.account, staked_eq hb.account, hothers b hb.held]
    rw [hold]
    simp
  refine ⟨hframe.now ▸ hL.now, valid_put hL hpositions hvalid, ?_, ?_⟩
  · intro j r b hr
    have hstored := hr.stored
    rw [hpositions, getElem?_insert_eq] at hstored
    split_ifs at hstored with hj
    · obtain rfl := Option.some.inj hstored
      obtain rfl := Option.mem_unique hp hr.account
      refine Or.inl ⟨v, s, hstake, hshares, ?_⟩
      rw [hfresh.accrual]
      exact ne_of_gt hL.now
    · have hold : L.Holds codec j r b := ⟨hstored, hr.account⟩
      exact (hL.backed j r b hold).congr (hothers b hold.held) rfl rfl rfl
  · have hcounts : L'.store.positionCountByValidator =
        increaseCount L.store.positionCountByValidator v := by
      rw [hstore]
      rfl
    rw [hcounts]
    refine hL.counted.increase ?_ ?_
    · rw [hsize, if_pos rfl]
    · intro u hu
      rw [hsize, if_neg hu, Nat.add_zero]

theorem Step.coherent {op : Op} (h : Step codec L op L') (hindex : L.store.Indexed codec)
    (hacc : L.Accounted codec) (hL : L.Coherent codec) : L'.Coherent codec := by
  cases h with
  | outside hstore hframe =>
    exact hL.of_same hframe.now.ge (congrArg Store.positions hstore)
      (congrArg Store.positionCountByValidator hstore) fun a ha ↦ hframe.stakes a ha (by simp)
  | tick now hnow => exact hL.of_same hnow rfl rfl fun _ _ ↦ rfl
  | create _ hfresh hvalid _ haddress _ _ _ hshares hstake _ hframe hstore =>
    exact hL.of_create hindex hacc hfresh hvalid haddress hshares hstake hframe hstore
  | @settle id p a v s tier rate covered hp hstake htier =>
    refine hL.of_put hindex hacc hp (Position.sameIdentity_settled _ p s tier v _) rfl rfl rfl rfl
      (hL.valid id p hp.stored) ?_
    exact Or.inl ⟨v, s, hstake, (hL.shares_pos hp hstake).1, accrualEnd_ne_zero p hL.now⟩
  | @reshare _ id p a v s s' hp hstake _ hshares hstake' _ hframe hstore =>
    have hput : L'.store.positions = L.store.positions.insert id p := by
      rw [hstore, insert_self hp.stored]
    refine ⟨hframe.now ▸ hL.now, valid_put hL hput (hL.valid id p hp.stored),
      backed_put hacc hL hp ⟨rfl, rfl, rfl, rfl⟩ hput hframe.stakes_other ?_, ?_⟩
    · exact Or.inl ⟨v, s', hstake', hshares, (hL.shares_pos hp hstake).2⟩
    · rw [hstore]
      refine hL.counted.congr fun u ↦ ?_
      have hsize := validatorSize_put hacc hp hput hframe.stakes_other u
      rw [hstake.staked hp.account, hstake'.staked hp.account] at hsize
      omega
  | @leave _ id p a v s hp hstake _ hidle _ hframe hstore =>
    have hput : L'.store.positions = L.store.positions.insert id p.clearBonusCheckpoints := by
      rw [hstore, ← hindex.insert_eq hp.stored (Position.sameIdentity_clearBonusCheckpoints p)]
      rfl
    have hsize := validatorSize_put hacc hp hput hframe.stakes_other
    have haccount : codec.stringToBytes p.clearBonusCheckpoints.delegatorAddress = some a :=
      hp.account
    refine ⟨hframe.now ▸ hL.now, valid_put hL hput (hL.valid id p hp.stored),
      backed_put hacc hL hp (Position.sameIdentity_clearBonusCheckpoints p) hput
        hframe.stakes_other (Or.inr ⟨hidle, rfl, rfl, rfl⟩), ?_⟩
    rw [hstore]
    refine hL.counted.decrease ?_ ?_
    · have := hsize v
      simp [hstake.staked hp.account, hidle.staked haccount] at this
      exact this.symm
    · intro u hu
      have := hsize u
      simpa [hstake.staked hp.account, hidle.staked haccount, hu] using this
  | @move _ id p a v v' s s' unbondingId hp hstake _ _ hne _ hshares hstake' _ _ _ hframe hstore =>
    have hput : L'.store.positions = L.store.positions.insert id
        (p.updateBonusCheckpoints (L.store.getValidatorEventLatestSeq v') L.now true) := by
      rw [hstore, ← hindex.insert_eq hp.stored
        (Position.sameIdentity_updateBonusCheckpoints p _ _ _)]
      rfl
    have hsize := validatorSize_put hacc hp hput hframe.stakes_other
    have haccount : codec.stringToBytes (p.updateBonusCheckpoints
        (L.store.getValidatorEventLatestSeq v') L.now true).delegatorAddress = some a := hp.account
    refine ⟨hframe.now ▸ hL.now, valid_put hL hput (hL.valid id p hp.stored),
      backed_put hacc hL hp (Position.sameIdentity_updateBonusCheckpoints p _ _ _) hput
        hframe.stakes_other (Or.inl ⟨v', s', hstake', hshares, ne_of_gt hL.now⟩), ?_⟩
    have hcounts : L'.store.positionCountByValidator =
        increaseCount (decreaseCount L.store.positionCountByValidator v) v' := by
      rw [hstore]
      simp [Store.moveCount, moveCounts, hne, Store.putPosition, recordRedelegation]
    rw [hcounts]
    refine hL.counted.move hne ?_ ?_ ?_
    · have := hsize v
      simp [hstake.staked hp.account, hstake'.staked haccount, hne] at this
      exact this.symm
    · have := hsize v'
      simpa [hstake.staked hp.account, hstake'.staked haccount, Ne.symm hne] using this
    · intro u hu hu'
      have := hsize u
      simpa [hstake.staked hp.account, hstake'.staked haccount, hu, hu'] using this
  | @remove id p a owner hp hidle howner =>
    refine ⟨hL.now, fun j r hr ↦ hL.valid j r (getElem?_of_erase hr).2, ?_, ?_⟩
    · intro j r b hr
      exact (hL.backed j r b ⟨(getElem?_of_erase hr.stored).2, hr.account⟩).congr rfl rfl rfl rfl
    · refine hL.counted.congr fun v ↦ ?_
      have hstored := hp.stored
      rw [← hindex.id_eq id p hp.stored] at hstored
      have hsize := count_erase (fun _ r ↦ L.staked codec v r) hstored
      rw [hidle.staked hp.account] at hsize
      exact hsize
  | @trigger id p a tier hp _ _ hvalid =>
    exact hL.of_put hindex hacc hp (Position.sameIdentity_triggerExit p _ _) rfl rfl rfl rfl hvalid
      ((hL.backed id p a hp).congr rfl rfl rfl rfl)
  | @clear id p a accrual hp hcase =>
    refine hL.of_put hindex hacc hp (Position.sameIdentity_clearExit p accrual) rfl rfl rfl rfl
      (Position.validate_clearExit (hL.valid id p hp.stored) accrual) ?_
    rcases hcase with ⟨⟨v, s, hstake, _⟩, rfl⟩ | ⟨_, rfl⟩
    · exact Or.inl ⟨v, s, hstake, (hL.shares_pos hp hstake).1, ne_of_gt hL.now⟩
    · exact (hL.backed id p a hp).congr rfl rfl rfl rfl
  | params | setTier | deleteTier | record | status | dropSeq | mature =>
    exact hL.of_same le_rfl rfl rfl fun _ _ ↦ rfl

end Ledger

end ChainMain.TieredRewards
