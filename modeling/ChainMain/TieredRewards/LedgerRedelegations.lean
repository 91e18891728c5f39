import ChainMain.TieredRewards.LedgerEvents

/-!
# Redelegation mappings and the bonded flag

`Ledger.Mapped` says that the redelegation mappings are exactly the unmatured redelegation entries
of the accounts held by positions, and that such an entry leads to the validator its position is
staked on. `Ledger.Tracked` says that replaying the pending events of a position ends with the
bonded status its validator has now. Both survive every step of the ledger.
-/

set_option autoImplicit false

namespace ChainMain.TieredRewards

open Foundations Decimal OrderedStore

namespace Ledger

variable {codec : AddressCodec} {L L' : Ledger}

/-- A position of the ledger has an unmatured redelegation entry. -/
def Redelegates (codec : AddressCodec) (L : Ledger) (i u : ℕ) (red : Redelegation) : Prop :=
  (∃ p, L.Holds codec i p red.delegator) ∧ L.redelegations u = some red

/-- The mappings are the redelegation entries of the positions. -/
structure Mapped (codec : AddressCodec) (L : Ledger) : Prop where
  mapping : ∀ u i : ℕ, L.store.redelegationMappings[u]? = some i ↔
    ∃ red, L.Redelegates codec i u red
  dst : ∀ (i u : ℕ) (red : Redelegation) (v : ValAddress) (s : Dec), L.Redelegates codec i u red →
    L.StakedOn red.delegator v s → red.dst = v

/-! ### Mappings -/

/-- The mappings stay right when the positions keep their accounts and the entries of held accounts
stay. -/
theorem Mapped.of_same (hL : L.Mapped codec)
    (hmappings : L'.store.redelegationMappings = L.store.redelegationMappings)
    (hholds : ∀ i a, (∃ p, L'.Holds codec i p a) ↔ ∃ p, L.Holds codec i p a)
    (hred : ∀ a, L.Held codec a → SameRedelegations L L' a)
    (hstake : ∀ (a : AccAddress) (v : ValAddress) (s : Dec), L.Held codec a → L'.StakedOn a v s →
      ∃ s', L.StakedOn a v s') : L'.Mapped codec := by
  have hiff : ∀ (i u : ℕ) (red : Redelegation),
      L'.Redelegates codec i u red ↔ L.Redelegates codec i u red := by
    intro i u red
    unfold Redelegates
    rw [hholds]
    constructor
    · rintro ⟨⟨p, hp⟩, hu⟩
      exact ⟨⟨p, hp⟩, (hred red.delegator hp.held u red rfl).mp hu⟩
    · rintro ⟨⟨p, hp⟩, hu⟩
      exact ⟨⟨p, hp⟩, (hred red.delegator hp.held u red rfl).mpr hu⟩
  constructor
  · intro u i
    rw [hmappings, hL.mapping]
    exact exists_congr fun red ↦ (hiff i u red).symm
  · intro i u red v s hr hst
    have hold := (hiff i u red).mp hr
    obtain ⟨p, hp⟩ := hold.1
    obtain ⟨s', hst'⟩ := hstake red.delegator v s hp.held hst
    exact hL.dst i u red v s' hold hst'

/-- The positions keep their accounts when one of them is replaced by another version. -/
theorem holds_put {i : ℕ} {p q : Position} {a : AccAddress} (hp : L.Holds codec i p a)
    (hsame : p.SameIdentity q) (hput : L'.store.positions = L.store.positions.insert i q) (j : ℕ)
    (b : AccAddress) : (∃ r, L'.Holds codec j r b) ↔ ∃ r, L.Holds codec j r b := by
  constructor
  · rintro ⟨r, hr⟩
    rcases hr.of_put hp hsame hput with ⟨rfl, _, rfl⟩ | ⟨_, hold⟩
    · exact ⟨p, hp⟩
    · exact ⟨r, hold⟩
  · rintro ⟨r, hr⟩
    by_cases hij : i = j
    · subst hij
      obtain rfl := Option.mem_unique hp.stored hr.stored
      refine ⟨q, ?_, ?_⟩
      · rw [hput, getElem?_insert_eq, if_pos rfl]
      · rw [hsame.delegatorAddress]
        exact hr.account
    · exact ⟨r, by rw [hput, getElem?_insert_ne hij, hr.stored], hr.account⟩

theorem holds_same (hpositions : L'.store.positions = L.store.positions) (i : ℕ) (a : AccAddress) :
    (∃ p, L'.Holds codec i p a) ↔ ∃ p, L.Holds codec i p a := by
  constructor
  · rintro ⟨p, hp⟩
    exact ⟨p, hpositions ▸ hp.stored, hp.account⟩
  · rintro ⟨p, hp⟩
    exact ⟨p, hpositions ▸ hp.stored, hp.account⟩

/-- The redelegation entries of the held accounts, when one account is exempt from the frame. -/
theorem Frame.sameRedelegations {a : AccAddress} (h : Frame codec (some a) L L')
    (ha : SameRedelegations L L' a) (b : AccAddress) (hb : L.Held codec b) :
    SameRedelegations L L' b := by
  by_cases hba : b = a
  · rw [hba]
    exact ha
  · exact h.redelegations b hb fun h ↦ hba (Option.some.inj h).symm

/-- The mappings stay right when a position replaces its stake on the same validator or loses it. -/
theorem Mapped.of_restake (hL : L.Mapped codec) {i : ℕ} {p q : Position} {a : AccAddress}
    (hp : L.Holds codec i p a) (hsame : p.SameIdentity q)
    (hput : L'.store.positions = L.store.positions.insert i q)
    (hmappings : L'.store.redelegationMappings = L.store.redelegationMappings)
    (hframe : Frame codec (some a) L L') (hred : SameRedelegations L L' a)
    (hstake : ∀ v s, L'.StakedOn a v s → ∃ s', L.StakedOn a v s') : L'.Mapped codec := by
  refine hL.of_same hmappings (holds_put hp hsame hput) (hframe.sameRedelegations hred) ?_
  intro b v s hb hst
  by_cases hba : b = a
  · subst hba
    exact hstake v s hst
  · exact ⟨s, hst.congr (hframe.stakes_other b hb hba).symm⟩

/-- The mappings stay right when a position moves its stake and the entry is recorded. -/
theorem Mapped.of_move (hL : L.Mapped codec) (hacc : L.Accounted codec) {i : ℕ}
    {p q : Position} {a : AccAddress} {v v' : ValAddress} {s' : Dec} {unbondingId : ℕ}
    (hp : L.Holds codec i p a) (hsame : p.SameIdentity q)
    (hput : L'.store.positions = L.store.positions.insert i q)
    (hmappings : L'.store.redelegationMappings =
      (recordRedelegation L.store unbondingId i).redelegationMappings)
    (hstake' : L'.StakedOn a v' s') (hnone : L.NotRedelegating a)
    (hunused : L.redelegations unbondingId = none)
    (hred : ∀ u red, red.delegator = a →
      (L'.redelegations u = some red ↔ unbondingId ≠ 0 ∧ u = unbondingId ∧ red = ⟨a, v, v'⟩))
    (hframe : Frame codec (some a) L L') : L'.Mapped codec := by
  have hholds := holds_put hp hsame hput
  have hother : ∀ (j u : ℕ) (red : Redelegation), red.delegator ≠ a →
      (L'.Redelegates codec j u red ↔ L.Redelegates codec j u red) := by
    intro j u red hne
    have hsame' : L.Held codec red.delegator → SameRedelegations L L' red.delegator := fun hheld ↦
      hframe.redelegations red.delegator hheld fun h ↦ hne (Option.some.inj h).symm
    unfold Redelegates
    rw [hholds]
    constructor
    · rintro ⟨⟨r, hr⟩, hu⟩
      exact ⟨⟨r, hr⟩, (hsame' hr.held u red rfl).mp hu⟩
    · rintro ⟨⟨r, hr⟩, hu⟩
      exact ⟨⟨r, hr⟩, (hsame' hr.held u red rfl).mpr hu⟩
  have hmine : ∀ (j u : ℕ) (red : Redelegation), red.delegator = a →
      (L'.Redelegates codec j u red ↔
        j = i ∧ unbondingId ≠ 0 ∧ u = unbondingId ∧ red = ⟨a, v, v'⟩) := by
    intro j u red hra
    unfold Redelegates
    rw [hholds, hred u red hra, hra]
    constructor
    · rintro ⟨⟨r, hr⟩, hu⟩
      exact ⟨hacc.distinct j i r p a hr hp, hu⟩
    · rintro ⟨rfl, hu⟩
      exact ⟨⟨p, hp⟩, hu⟩
  constructor
  · intro u j
    rw [hmappings]
    change (if unbondingId ≠ 0 then L.store.redelegationMappings.insert unbondingId i
      else L.store.redelegationMappings)[u]? = some j ↔ _
    have hold : (u ≠ unbondingId ∨ unbondingId = 0) →
        (L.store.redelegationMappings[u]? = some j ↔ ∃ red, L'.Redelegates codec j u red) := by
      intro hu
      rw [hL.mapping]
      refine exists_congr fun red ↦ ?_
      by_cases hra : red.delegator = a
      · rw [hmine j u red hra]
        constructor
        · rintro ⟨_, hstored⟩
          exact absurd hra (hnone u red hstored)
        · rintro ⟨_, hne, heq, _⟩
          rcases hu with hu | hu
          · exact absurd heq hu
          · exact absurd hu hne
      · exact (hother j u red hra).symm
    by_cases hzero : unbondingId = 0
    · rw [if_neg (not_not.mpr hzero)]
      exact hold (Or.inr hzero)
    · rw [if_pos hzero, getElem?_insert_eq]
      by_cases hu : unbondingId = u
      · subst hu
        rw [if_pos rfl]
        constructor
        · intro hj
          obtain rfl := Option.some.inj hj
          exact ⟨⟨a, v, v'⟩, (hmine i unbondingId _ rfl).mpr ⟨rfl, hzero, rfl, rfl⟩⟩
        · rintro ⟨red, hr⟩
          by_cases hra : red.delegator = a
          · rw [((hmine j unbondingId red hra).mp hr).1]
          · have hstored := ((hother j unbondingId red hra).mp hr).2
            rw [hunused] at hstored
            cases hstored
      · rw [if_neg hu]
        exact hold (Or.inl (Ne.symm hu))
  · intro j u red w t hr hst
    by_cases hra : red.delegator = a
    · obtain ⟨_, _, _, rfl⟩ := (hmine j u red hra).mp hr
      exact (hstake'.unique hst).1.symm
    · have hold := (hother j u red hra).mp hr
      obtain ⟨r, hr'⟩ := hold.1
      exact hL.dst j u red w t hold (hst.congr (hframe.stakes_other _ hr'.held hra).symm)

theorem Step.mapped {op : Op} (h : Step codec L op L') (hindex : L.store.Indexed codec)
    (hacc : L.Accounted codec) (hL : L.Mapped codec) : L'.Mapped codec := by
  have hsame : ∀ {L₁ : Ledger}, L₁.store.positions = L.store.positions →
      L₁.store.redelegationMappings = L.store.redelegationMappings →
      L₁.redelegations = L.redelegations → L₁.stakes = L.stakes → L₁.Mapped codec := by
    intro L₁ hpositions hmappings hreds hstakes
    refine hL.of_same hmappings (holds_same hpositions) ?_ ?_
    · intro a _ u red _
      rw [hreds]
    · intro a v s _ hst
      exact ⟨s, hst.congr (congrFun hstakes a).symm⟩
  cases h with
  | outside hstore hframe =>
    refine hL.of_same (congrArg Store.redelegationMappings hstore)
      (holds_same (congrArg Store.positions hstore))
      (fun a ha ↦ hframe.redelegations a ha (by simp)) ?_
    intro a v s ha hst
    exact ⟨s, hst.congr (hframe.stakes a ha (by simp)).symm⟩
  | @create _ p a owner v s tier _ hfresh _ _ haddress hunused _ _ _ hstake hnew hframe hstore =>
    have hpositions : L'.store.positions = L.store.positions.insert p.id p :=
      congrArg Store.positions hstore
    have hmappings : L'.store.redelegationMappings = L.store.redelegationMappings := by
      rw [hstore]
      rfl
    have hiff : ∀ (j u : ℕ) (red : Redelegation),
        L'.Redelegates codec j u red ↔ L.Redelegates codec j u red := by
      intro j u red
      constructor
      · rintro ⟨⟨r, hr⟩, hu⟩
        have hra := hnew.1 u red hu
        have hstored := hr.stored
        rw [hpositions, getElem?_insert_eq] at hstored
        split_ifs at hstored with hj
        · obtain rfl := Option.some.inj hstored
          have haccount := hr.account
          rw [haddress, codec.stringToBytes_bytesToString] at haccount
          exact absurd (Option.some.inj haccount).symm hra
        · have hold : L.Holds codec j r red.delegator := ⟨hstored, hr.account⟩
          exact ⟨⟨r, hold⟩,
            (hframe.redelegations red.delegator hold.held (by simp) u red rfl).mp hu⟩
      · rintro ⟨⟨r, hr⟩, hu⟩
        have hj : p.id ≠ j := by
          have := hindex.id_lt j r hr.stored
          have := hfresh.id
          omega
        refine ⟨⟨r, ?_, hr.account⟩, ?_⟩
        · rw [hpositions, getElem?_insert_ne hj, hr.stored]
        · exact (hframe.redelegations red.delegator hr.held (by simp) u red rfl).mpr hu
    constructor
    · intro u j
      rw [hmappings, hL.mapping]
      exact exists_congr fun red ↦ (hiff j u red).symm
    · intro j u red w t hr hst
      have hold := (hiff j u red).mp hr
      obtain ⟨r, hr'⟩ := hold.1
      exact hL.dst j u red w t hold (hst.congr (hframe.stakes _ hr'.held (by simp)).symm)
  | @settle id p a v s tier rate covered hp hstake _ =>
    refine hL.of_same rfl (holds_put hp (Position.sameIdentity_settled L.store p s tier v L.now)
      (hindex.insert_eq hp.stored (Position.sameIdentity_settled L.store p s tier v L.now)))
      (fun _ _ _ _ _ ↦ Iff.rfl) fun _ v s _ hst ↦ ⟨s, hst⟩
  | @reshare _ id p a v s s' hp hstake _ _ hstake' hred hframe hstore =>
    have hput : L'.store.positions = L.store.positions.insert id p := by
      rw [hstore, insert_self hp.stored]
    refine hL.of_restake hp ⟨rfl, rfl, rfl, rfl⟩ hput
      (congrArg Store.redelegationMappings hstore) hframe hred ?_
    intro u t hst
    obtain ⟨rfl, _⟩ := hstake'.unique hst
    exact ⟨s, hstake⟩
  | @leave _ id p a v s hp hstake _ hidle hred hframe hstore =>
    have hput : L'.store.positions = L.store.positions.insert id p.clearBonusCheckpoints := by
      rw [hstore, ← hindex.insert_eq hp.stored (Position.sameIdentity_clearBonusCheckpoints p)]
      rfl
    refine hL.of_restake hp (Position.sameIdentity_clearBonusCheckpoints p) hput
      (by rw [hstore]; rfl) hframe hred ?_
    intro u t hst
    exact absurd hidle hst.not_idle
  | @move _ id p a v v' s s' unbondingId hp _ _ _ _ _ _ hstake' hnone hunused hred hframe hstore =>
    have hid := hindex.id_eq id p hp.stored
    have hsame' := Position.sameIdentity_updateBonusCheckpoints p
      (L.store.getValidatorEventLatestSeq v') L.now true
    have hput : L'.store.positions = L.store.positions.insert id
        (p.updateBonusCheckpoints (L.store.getValidatorEventLatestSeq v') L.now true) := by
      rw [hstore, ← hindex.insert_eq hp.stored hsame']
      rfl
    refine hL.of_move hacc hp hsame' hput ?_ hstake' hnone hunused hred hframe
    rw [hstore, hid]
    rfl
  | @remove id p a owner hp _ _ =>
    have hid := hindex.id_eq id p hp.stored
    have hiff : ∀ j b, (∃ r, Holds codec { L with store := L.store.removePosition owner p } j r b) ↔
        j ≠ id ∧ ∃ r, L.Holds codec j r b := by
      intro j b
      constructor
      · rintro ⟨r, hr⟩
        obtain ⟨hj, hstored⟩ := getElem?_of_erase hr.stored
        exact ⟨hid ▸ hj, r, hstored, hr.account⟩
      · rintro ⟨hj, r, hr⟩
        refine ⟨r, ?_, hr.account⟩
        change (L.store.positions.erase p.id)[j]? = some r
        rw [hid, getElem?_erase_ne (Ne.symm hj), hr.stored]
    constructor
    · intro u j
      change (((L.store.redelegationMappings.toList.filter fun entry ↦ entry.2 == p.id).map
        Prod.fst).foldl (fun mappings id ↦ mappings.erase id)
          L.store.redelegationMappings)[u]? = some j ↔ _
      rw [getElem?_foldl_erase_value, hid]
      unfold Redelegates
      simp only [hiff]
      by_cases hj : j = id
      · subst hj
        constructor
        · intro h
          split_ifs at h with hmap
          exact absurd h hmap
        · rintro ⟨red, ⟨hne, _⟩, _⟩
          exact absurd rfl hne
      · have hkeep : (if L.store.redelegationMappings[u]? = some id then none
            else L.store.redelegationMappings[u]?) = some j ↔
              L.store.redelegationMappings[u]? = some j := by
          constructor
          · intro h
            split_ifs at h
            exact h
          · intro h
            have hne : (some j : Option ℕ) ≠ some id := fun h ↦ hj (Option.some.inj h)
            rw [h, if_neg hne]
        rw [hkeep, hL.mapping]
        exact exists_congr fun red ↦ ⟨fun h ↦ ⟨⟨hj, h.1⟩, h.2⟩, fun h ↦ ⟨h.1.2, h.2⟩⟩
    · rintro j u red w t ⟨hex, hu⟩ hst
      exact hL.dst j u red w t ⟨((hiff j red.delegator).mp hex).2, hu⟩ hst
  | @trigger id p a tier hp _ _ _ =>
    exact hL.of_same rfl (holds_put hp
      (Position.sameIdentity_triggerExit p L.now tier.exitDuration)
      (hindex.insert_eq hp.stored (Position.sameIdentity_triggerExit p L.now tier.exitDuration)))
      (fun _ _ _ _ _ ↦ Iff.rfl) fun _ v s _ hst ↦ ⟨s, hst⟩
  | @clear id p a accrual hp _ =>
    exact hL.of_same rfl (holds_put hp (Position.sameIdentity_clearExit p accrual)
      (hindex.insert_eq hp.stored (Position.sameIdentity_clearExit p accrual)))
      (fun _ _ _ _ _ ↦ Iff.rfl) fun _ v s _ hst ↦ ⟨s, hst⟩
  | mature ids =>
    have hholds : ∀ j b, (∃ r, Holds codec { L with
        redelegations := fun u ↦ if u ∈ ids then none else L.redelegations u
        store := { L.store with
          redelegationMappings :=
            ids.foldl (fun mappings id ↦ mappings.erase id) L.store.redelegationMappings } } j
              r b) ↔
        ∃ r, L.Holds codec j r b := holds_same rfl
    constructor
    · intro u j
      change (ids.foldl (fun mappings id ↦ mappings.erase id)
        L.store.redelegationMappings)[u]? = some j ↔ _
      rw [getElem?_foldl_erase]
      unfold Redelegates
      by_cases hu : u ∈ ids
      · simp [hu]
      · simp only [hu, if_false, hholds]
        exact hL.mapping u j
    · rintro j u red w t ⟨hex, hu⟩ hst
      rw [hholds] at hex
      change (if u ∈ ids then none else L.redelegations u) = some red at hu
      split_ifs at hu
      exact hL.dst j u red w t ⟨hex, hu⟩ hst
  | tick | params | setTier | deleteTier | record | status | dropSeq => exact hsame rfl rfl rfl rfl

end Ledger

end ChainMain.TieredRewards
