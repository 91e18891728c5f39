import ChainMain.TieredRewards.LedgerRedelegations

/-!
# What a step of the ledger leaves alone

A step is about one position at most, its target (`Op.target`). Every other position is stored as
before and its account keeps its stake (`Step.positions_eq`, `Step.stakes_eq`), the tier of a stored
position changes only when it is set (`Step.tiers_eq`), only a settlement pays (`Step.paid_eq`), an
event in the log was there before or has just been recorded (`Step.event_of`), and the exit of a
position changes only when it is triggered or cleared (`Step.sameExit`). A position that has stake
is not unbonding (`Released`), and the owner of a position is not the account of one (`Owned`).
-/

set_option autoImplicit false

namespace ChainMain.TieredRewards

open Foundations Decimal OrderedStore

/-- Two versions of a position with the same exit. -/
structure Position.SameExit (p q : Position) : Prop where
  triggeredAt : q.exitTriggeredAt = p.exitTriggeredAt
  unlockAt : q.exitUnlockAt = p.exitUnlockAt

theorem Position.SameExit.trans {p q r : Position} (h : p.SameExit q) (h' : q.SameExit r) :
    p.SameExit r :=
  ⟨h'.triggeredAt.trans h.triggeredAt, h'.unlockAt.trans h.unlockAt⟩

theorem Tier.exitDuration_pos {tier : Tier} (h : tier.validate = .ok ()) :
    0 < tier.exitDuration := by
  unfold Tier.validate at h
  split_ifs at h with h₁ h₂ h₃ h₄ h₅
  exact not_le.mp h₂

namespace Ledger

variable {codec : AddressCodec} {L L' : Ledger} {op : Op}

def Op.target : Op → Option ℕ
  | .create id _ => some id
  | .settle id _ _ _ => some id
  | .reshare id => some id
  | .leave id => some id
  | .move id => some id
  | .remove id => some id
  | .trigger id => some id
  | .clear id => some id
  | _ => none

/-- A step about an existing position writes the position it is about, or removes it. -/
theorem Step.positions_eq (h : Step codec L op L') (hindex : L.store.Indexed codec) {j : ℕ}
    (hj : op.target ≠ some j) : L'.store.positions[j]? = L.store.positions[j]? := by
  have hput : ∀ {i : ℕ} {p q : Position}, L.store.positions[i]? = some p → p.SameIdentity q →
      some i ≠ some j → (L.store.positions.insert q.id q)[j]? = L.store.positions[j]? := by
    intro i p q hp hsame hne
    rw [hindex.insert_eq hp hsame]
    exact getElem?_insert_ne (fun heq ↦ hne (congrArg some heq)) _
  cases h with
  | outside hstore _ => rw [hstore]
  | reshare _ _ _ _ _ _ _ hstore => rw [hstore]
  | create _ _ _ _ _ _ _ _ _ _ _ _ hstore =>
    rw [congrArg Store.positions hstore]
    exact getElem?_insert_ne (fun heq ↦ hj (congrArg some heq)) _
  | settle _ _ hp _ _ => exact hput hp.stored (Position.sameIdentity_settled _ _ _ _ _ _) hj
  | leave hp _ _ _ _ _ hstore =>
    rw [congrArg Store.positions hstore]
    exact hput hp.stored (Position.sameIdentity_clearBonusCheckpoints _) hj
  | move _ hp _ _ _ _ _ _ _ _ _ _ _ hstore =>
    rw [congrArg Store.positions hstore]
    exact hput hp.stored (Position.sameIdentity_updateBonusCheckpoints _ _ _ _) hj
  | @remove id p _ _ hp _ _ =>
    change (L.store.positions.erase p.id)[j]? = _
    rw [hindex.id_eq id p hp.stored]
    exact getElem?_erase_ne fun heq ↦ hj (congrArg some heq)
  | trigger hp _ _ _ => exact hput hp.stored (Position.sameIdentity_triggerExit _ _ _) hj
  | clear hp _ => exact hput hp.stored (Position.sameIdentity_clearExit _ _) hj
  | tick | params | setTier | deleteTier | record | status | dropSeq | mature => rfl

/-- The account of a position that a step is not about keeps its stake. -/
theorem Step.stakes_eq (h : Step codec L op L') (hacc : L.Accounted codec) {j : ℕ} {r : Position}
    {b : AccAddress} (hj : op.target ≠ some j) (hr : L.Holds codec j r b) :
    L'.stakes b = L.stakes b := by
  have hother : ∀ {i : ℕ} {p : Position} {a : AccAddress}, L.Holds codec i p a → some i ≠ some j →
      some a ≠ some b := by
    rintro i p a hp hne heq
    obtain rfl := Option.some.inj heq
    exact hne (congrArg some (hacc.distinct i j p r a hp hr))
  cases h with
  | outside _ hframe => exact hframe.stakes b hr.held (by simp)
  | create _ _ _ _ _ _ _ _ _ _ _ hframe _ => exact hframe.stakes b hr.held (by simp)
  | reshare hp _ _ _ _ _ hframe _ => exact hframe.stakes b hr.held (hother hp hj)
  | leave hp _ _ _ _ hframe _ => exact hframe.stakes b hr.held (hother hp hj)
  | move _ hp _ _ _ _ _ _ _ _ _ _ hframe _ => exact hframe.stakes b hr.held (hother hp hj)
  | tick | params | setTier | deleteTier | settle | remove | trigger | clear | record | status
  | dropSeq | mature => rfl

theorem Step.tiers_eq (h : Step codec L op L') {j : ℕ} {r : Position}
    (hr : L.store.positions[j]? = some r)
    (hop : ∀ tier : Tier, op = .setTier tier → tier.id ≠ r.tierId) :
    L'.store.tiers[r.tierId]? = L.store.tiers[r.tierId]? := by
  cases h with
  | outside hstore _ => rw [hstore]
  | reshare _ _ _ _ _ _ _ hstore => rw [hstore]
  | create _ _ _ _ _ _ _ _ _ _ _ _ hstore => rw [congrArg Store.tiers hstore]; rfl
  | leave _ _ _ _ _ _ hstore => rw [congrArg Store.tiers hstore]; rfl
  | move _ _ _ _ _ _ _ _ _ _ _ _ _ hstore => rw [congrArg Store.tiers hstore]; rfl
  | setTier tier _ _ => exact getElem?_insert_ne (hop tier rfl) _
  | deleteTier tierId hempty => exact getElem?_erase_ne (Ne.symm (hempty j r hr))
  | tick | params | settle | remove | trigger | clear | record | status | dropSeq | mature => rfl

theorem Step.paid_eq (h : Step codec L op L') {j : ℕ}
    (hop : ∀ v rate covered, op ≠ .settle j v rate covered) : L'.paid j = L.paid j := by
  cases h with
  | outside _ hframe => rw [hframe.paid]
  | create _ _ _ _ _ _ _ _ _ _ _ hframe _ => rw [hframe.paid]
  | reshare _ _ _ _ _ _ hframe _ => rw [hframe.paid]
  | leave _ _ _ _ _ hframe _ => rw [hframe.paid]
  | move _ _ _ _ _ _ _ _ _ _ _ _ hframe _ => rw [hframe.paid]
  | @settle id _ _ v _ _ rate covered _ _ _ =>
    cases covered with
    | false => rfl
    | true =>
      refine Function.update_of_ne ?_ _ _
      rintro rfl
      exact hop v rate true rfl
  | tick | params | setTier | deleteTier | remove | trigger | clear | record | status | dropSeq
  | mature => rfl

/-! ### Time and events -/

theorem Step.now_le (h : Step codec L op L') : L.now ≤ L'.now := by
  cases h with
  | tick now hnow => exact hnow
  | outside _ hframe => exact hframe.now.ge
  | create _ _ _ _ _ _ _ _ _ _ _ hframe _ => exact hframe.now.ge
  | reshare _ _ _ _ _ _ hframe _ => exact hframe.now.ge
  | leave _ _ _ _ _ hframe _ => exact hframe.now.ge
  | move _ _ _ _ _ _ _ _ _ _ _ _ hframe _ => exact hframe.now.ge
  | params | setTier | deleteTier | settle | remove | trigger | clear | record | status | dropSeq
  | mature => exact le_refl _

/-- An event in the log was there before, with the same content, or has just been recorded. -/
theorem Step.event_of (h : Step codec L op L') {u : ValAddress} {n : ℕ} {e : ValidatorEvent}
    (he : L'.store.validatorEvents[(u, n)]? = some e) :
    (∃ e₀, L.store.validatorEvents[(u, n)]? = some e₀ ∧ e₀.content = e.content) ∨
      ∃ eventType, op = .record u eventType e.tokensPerShare ∧ e.timestamp = L.now := by
  have hsame : L'.store.validatorEvents = L.store.validatorEvents →
      (∃ e₀, L.store.validatorEvents[(u, n)]? = some e₀ ∧ e₀.content = e.content) ∨
        ∃ eventType, op = .record u eventType e.tokensPerShare ∧ e.timestamp = L.now := by
    intro hevents
    rw [hevents] at he
    exact Or.inl ⟨e, he, rfl⟩
  cases h with
  | outside hstore _ => exact hsame (by rw [hstore])
  | reshare _ _ _ _ _ _ _ hstore => exact hsame (by rw [hstore])
  | create _ _ _ _ _ _ _ _ _ _ _ _ hstore => exact hsame (by rw [hstore]; rfl)
  | leave _ _ _ _ _ _ hstore => exact hsame (by rw [hstore]; rfl)
  | move _ _ _ _ _ _ _ _ _ _ _ _ _ hstore => exact hsame (by rw [hstore]; rfl)
  | tick | params | setTier | deleteTier | remove | trigger | clear | status | dropSeq | mature =>
    exact hsame rfl
  | @settle id p a v s tier rate covered hp hstake htier =>
    -- a replay takes references off the events or removes them
    change (L.store.replayed p v).validatorEvents[(u, n)]? = some e at he
    rw [getElem?_replayed] at he
    split_ifs at he
    · cases hold : L.store.validatorEvents[(u, n)]? with
      | none =>
        rw [hold] at he
        cases he
      | some old =>
        rw [hold, dropReference_some] at he
        split_ifs at he
        obtain rfl := Option.some.inj he
        exact Or.inl ⟨old, rfl, rfl⟩
    · exact Or.inl ⟨e, he, rfl⟩
  | record v eventType rate height _ _ =>
    change (L.store.validatorEvents.insert (v, L.store.getValidatorEventLatestSeq v + 1)
      _)[(u, n)]? = some e at he
    rw [getElem?_insert_eq] at he
    split_ifs at he with hkey
    · obtain rfl := Option.some.inj he
      obtain ⟨rfl, _⟩ := Prod.mk.inj hkey
      exact Or.inr ⟨eventType, rfl, rfl⟩
    · exact Or.inl ⟨e, he, rfl⟩

/-! ### Exits -/

/-- The position whose exit a step sets or clears. -/
def Op.exit : Op → Option ℕ
  | .create id _ => some id
  | .trigger id => some id
  | .clear id => some id
  | _ => none

/-- A step keeps the exit of every position it does not set or clear. -/
theorem Step.sameExit (h : Step codec L op L') (hindex : L.store.Indexed codec) {j : ℕ}
    {r' : Position} (hr' : L'.store.positions[j]? = some r') (hop : op.exit ≠ some j) :
    ∃ r, L.store.positions[j]? = some r ∧ r.SameExit r' := by
  by_cases hj : op.target = some j
  · have hput : ∀ {p q : Position}, L.store.positions[j]? = some p → p.SameIdentity q →
        p.SameExit q → (L.store.positions.insert q.id q)[j]? = some r' →
          ∃ r, L.store.positions[j]? = some r ∧ r.SameExit r' := by
      intro p q hp hsame hexit hq
      rw [hindex.insert_eq hp hsame, getElem?_insert_eq, if_pos rfl] at hq
      obtain rfl := Option.some.inj hq
      exact ⟨p, hp, hexit⟩
    cases h with
    | create | trigger | clear => exact absurd hj hop
    | settle _ _ hp _ _ =>
      obtain rfl := Option.some.inj hj
      exact hput hp.stored (Position.sameIdentity_settled _ _ _ _ _ _) ⟨rfl, rfl⟩ hr'
    | reshare _ _ _ _ _ _ _ hstore =>
      rw [hstore] at hr'
      exact ⟨r', hr', rfl, rfl⟩
    | leave hp _ _ _ _ _ hstore =>
      obtain rfl := Option.some.inj hj
      rw [congrArg Store.positions hstore] at hr'
      exact hput hp.stored (Position.sameIdentity_clearBonusCheckpoints _) ⟨rfl, rfl⟩ hr'
    | @move _ id p a v v' s s' _ hp _ _ _ _ _ _ _ _ _ _ _ hstore =>
      obtain rfl := Option.some.inj hj
      rw [congrArg Store.positions hstore] at hr'
      exact hput hp.stored (Position.sameIdentity_updateBonusCheckpoints p
        (L.store.getValidatorEventLatestSeq v') L.now true) ⟨rfl, rfl⟩ hr'
    | @remove id p _ _ hp _ _ =>
      obtain rfl := Option.some.inj hj
      change (L.store.positions.erase p.id)[id]? = _ at hr'
      rw [hindex.id_eq id p hp.stored, getElem?_erase_eq, if_pos rfl] at hr'
      cases hr'
    | outside | tick | params | setTier | deleteTier | record | status | dropSeq | mature =>
      cases hj
  · exact ⟨r', (h.positions_eq hindex hj).symm.trans hr', rfl, rfl⟩

theorem Step.exit_create {id : ℕ} {exiting : Bool} (h : Step codec L (.create id exiting) L') :
    ∃ p tier, L'.store.positions[id]? = some p ∧ L.store.tiers[p.tierId]? = some tier ∧
      p.exitTriggeredAt = (if exiting then L.now else 0) ∧
      p.exitUnlockAt = if exiting then L.now + tier.exitDuration else 0 := by
  cases h with
  | @create _ p _ _ _ _ tier _ hfresh _ _ _ _ _ _ _ _ _ _ hstore =>
    refine ⟨p, tier, ?_, hfresh.tierStored, hfresh.exitTriggeredAt, hfresh.exitUnlockAt⟩
    rw [congrArg Store.positions hstore]
    exact (getElem?_insert_eq _ _ _ _).trans (if_pos rfl)

/-- A triggered exit waits for the exit duration the tier has at the time. -/
theorem Step.exit_trigger {id : ℕ} (h : Step codec L (.trigger id) L')
    (hindex : L.store.Indexed codec) :
    ∃ p tier, L'.store.positions[id]? = some p ∧ L.store.tiers[p.tierId]? = some tier ∧
      p.exitUnlockAt = L.now + tier.exitDuration := by
  cases h with
  | @trigger _ p _ tier hp _ htier _ =>
    refine ⟨p.triggerExit L.now tier.exitDuration, tier, ?_, htier, rfl⟩
    change (L.store.positions.insert _ (p.triggerExit L.now tier.exitDuration))[id]? = _
    rw [hindex.insert_eq hp.stored (Position.sameIdentity_triggerExit _ _ _), getElem?_insert_eq,
      if_pos rfl]

theorem Step.exit_clear {id : ℕ} (h : Step codec L (.clear id) L')
    (hindex : L.store.Indexed codec) :
    ∃ p, L'.store.positions[id]? = some p ∧ p.exitTriggeredAt = 0 := by
  cases h with
  | @clear _ p _ accrual hp _ =>
    refine ⟨{ p with exitTriggeredAt := 0, exitUnlockAt := 0, lastBonusAccrual := accrual },
      ?_, rfl⟩
    change (L.store.positions.insert _ _)[id]? = _
    rw [hindex.insert_eq hp.stored (Position.sameIdentity_clearExit _ _), getElem?_insert_eq,
      if_pos rfl]

/-! ### A new position -/

/-- The position a step creates holds an account that did not exist and is not unbonding, and its
owner has an account that no position holds. -/
theorem Step.created {id : ℕ} {exiting : Bool} {r : Position}
    (h : Step codec L (.create id exiting) L') (hr : L'.store.positions[id]? = some r) :
    ∃ a owner, codec.stringToBytes r.delegatorAddress = some a ∧ L.accounts a = false ∧
      L'.NotUnbonding a ∧ L.Owns codec r owner := by
  cases h with
  | @create _ p a owner _ _ _ _ _ _ howner haddress hunused _ _ _ _ hnew _ hstore =>
    rw [congrArg Store.positions hstore] at hr
    change (L.store.positions.insert p.id p)[p.id]? = some r at hr
    rw [getElem?_insert_eq, if_pos rfl] at hr
    obtain rfl := Option.some.inj hr
    refine ⟨a, owner, ?_, hunused, hnew.2, howner⟩
    rw [haddress]
    exact codec.stringToBytes_bytesToString a

/-- A stored position was there before, with the same identity, or the step has created it. -/
theorem Step.kept_or_created (h : Step codec L op L') (hindex : L.store.Indexed codec) {j : ℕ}
    {r : Position} (hr : L'.store.positions[j]? = some r) :
    (∃ r' : Position, L.store.positions[j]? = some r' ∧ r'.SameIdentity r) ∨
      ∃ exiting, op = .create j exiting := by
  by_cases hop : ∃ id exiting, op = .create id exiting
  · obtain ⟨id, exiting, rfl⟩ := hop
    by_cases hj : id = j
    · exact Or.inr ⟨exiting, hj ▸ rfl⟩
    · refine Or.inl ⟨r, ?_, .refl r⟩
      rw [← h.positions_eq hindex fun heq ↦ hj (Option.some.inj heq)]
      exact hr
  · exact Or.inl (h.identity_kept hindex (fun id exiting heq ↦ hop ⟨id, exiting, heq⟩) hr)

/-! ### Unbonding -/

/-- The account of a position that has stake is not unbonding. -/
def Released (codec : AddressCodec) (L : Ledger) : Prop :=
  ∀ a, L.Held codec a → ¬ L.Idle a → L.NotUnbonding a

/-- A held account begins to unbond only when it is left without stake. -/
theorem Step.unbonding_of (h : Step codec L op L') {a : AccAddress} {v : ValAddress}
    (ha : L.Held codec a) (hidle : ¬ L'.Idle a) (hv : L'.unbonding a v) : L.unbonding a v := by
  have hframe : ∀ {exempt : Option AccAddress}, Frame codec exempt L L' → L.unbonding a v := by
    intro exempt hframe
    rcases hframe.unbonding a v ha hv with hold | ⟨_, hidle'⟩
    · exact hold
    · exact absurd hidle' hidle
  cases h with
  | outside _ h => exact hframe h
  | create _ _ _ _ _ _ _ _ _ _ _ h _ => exact hframe h
  | reshare _ _ _ _ _ _ h _ => exact hframe h
  | leave _ _ _ _ _ h _ => exact hframe h
  | move _ _ _ _ _ _ _ _ _ _ _ _ h _ => exact hframe h
  | tick | params | setTier | deleteTier | settle | remove | trigger | clear | record | status
  | dropSeq | mature => exact hv

theorem Step.not_idle_of (h : Step codec L op L') {a : AccAddress} (ha : L.Held codec a)
    (hidle : ¬ L'.Idle a) : ¬ L.Idle a := by
  have hstakes : L'.stakes a = L.stakes a → ¬ L.Idle a := by
    intro hsame hold
    refine hidle fun u ↦ ?_
    rw [hsame]
    exact hold u
  cases h with
  | outside _ hframe => exact hstakes (hframe.stakes a ha (by simp))
  | create _ _ _ _ _ _ _ _ _ _ _ hframe _ => exact hstakes (hframe.stakes a ha (by simp))
  | @reshare _ _ _ b _ _ _ _ hstake _ _ _ _ hframe _ =>
    by_cases hab : b = a
    · exact hab ▸ hstake.not_idle
    · exact hstakes (hframe.stakes a ha fun heq ↦ hab (Option.some.inj heq))
  | @leave _ _ _ b _ _ _ hstake _ _ _ hframe _ =>
    by_cases hab : b = a
    · exact hab ▸ hstake.not_idle
    · exact hstakes (hframe.stakes a ha fun heq ↦ hab (Option.some.inj heq))
  | @move _ _ _ b _ _ _ _ _ _ hstake _ _ _ _ _ _ _ _ _ hframe _ =>
    by_cases hab : b = a
    · exact hab ▸ hstake.not_idle
    · exact hstakes (hframe.stakes a ha fun heq ↦ hab (Option.some.inj heq))
  | tick | params | setTier | deleteTier | settle | remove | trigger | clear | record | status
  | dropSeq | mature => exact hidle

theorem Step.released (h : Step codec L op L') (hindex : L.store.Indexed codec)
    (hL : L.Released codec) : L'.Released codec := by
  intro a ha hidle
  have hkept : L.Held codec a → L'.NotUnbonding a := by
    intro hheld v
    rw [← Bool.not_eq_true]
    intro hv
    have hold := hL a hheld (h.not_idle_of hheld hidle) v
    rw [h.unbonding_of hheld hidle hv] at hold
    cases hold
  obtain ⟨j, r, hr, haccount⟩ := ha
  rcases h.kept_or_created hindex hr with ⟨r', hr', hsame⟩ | ⟨exiting, rfl⟩
  · exact hkept ⟨j, r', hr', hsame.delegatorAddress ▸ haccount⟩
  · obtain ⟨b, _, hb, _, hnew, _⟩ := h.created hr
    exact Option.mem_unique hb haccount ▸ hnew

/-! ### Owners -/

/-- The owners of the positions have accounts that no position holds. -/
def Owned (codec : AddressCodec) (L : Ledger) : Prop :=
  ∀ (id : ℕ) (p : Position) (owner : AccAddress), L.store.positions[id]? = some p →
    codec.stringToBytes p.owner = some owner → L.Owns codec p owner

/-- After a step, a held account was held before or belongs to a position created on an account that
did not exist. -/
theorem Step.held_of (h : Step codec L op L') (hindex : L.store.Indexed codec) {a : AccAddress}
    (ha : L'.Held codec a) : L.Held codec a ∨ L.accounts a = false := by
  obtain ⟨j, r, hr, haccount⟩ := ha
  rcases h.kept_or_created hindex hr with ⟨r', hr', hsame⟩ | ⟨exiting, rfl⟩
  · exact Or.inl ⟨j, r', hr', hsame.delegatorAddress ▸ haccount⟩
  · obtain ⟨b, _, hb, hunused, _, _⟩ := h.created hr
    exact Or.inr (Option.mem_unique hb haccount ▸ hunused)

/-- Every step keeps the owners apart from the accounts of the positions. -/
theorem Step.owned (h : Step codec L op L') (hindex : L.store.Indexed codec) (hL : L.Owned codec) :
    L'.Owned codec := by
  intro j r owner hr hdecodes
  have hkept : ∀ r' : Position, L.Owns codec r' owner → L'.Owns codec r owner := by
    intro r' howns
    refine ⟨hdecodes, h.accounts_kept howns.accountExists, fun hheld ↦ ?_⟩
    rcases h.held_of hindex hheld with hold | hunused
    · exact howns.free hold
    · rw [howns.accountExists] at hunused
      cases hunused
  rcases h.kept_or_created hindex hr with ⟨r', hr', hsame⟩ | ⟨exiting, rfl⟩
  · exact hkept r' (hL j r' owner hr' (hsame.owner ▸ hdecodes))
  · obtain ⟨_, creator, _, _, _, howns⟩ := h.created hr
    obtain rfl := Option.mem_unique howns.decodes hdecodes
    exact hkept r howns

end Ledger

end ChainMain.TieredRewards
