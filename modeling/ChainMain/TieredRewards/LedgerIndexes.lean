import ChainMain.TieredRewards.Ledger

/-!
# Indexes and accounts of the ledger

`Store.Indexed` says that the index collections of a store are the ones its positions determine,
that the tier of every position is there and that ids are below the next one. `Ledger.Accounted`
says that the positions hold pairwise different accounts that exist. Both survive every step of the
ledger.
-/

set_option autoImplicit false

namespace ChainMain.TieredRewards

open Foundations Decimal OrderedStore

/-! ### Positions with the same identity -/

/-- Two versions of a position: what names it stays. -/
structure Position.SameIdentity (p q : Position) : Prop where
  id : q.id = p.id
  owner : q.owner = p.owner
  tierId : q.tierId = p.tierId
  delegatorAddress : q.delegatorAddress = p.delegatorAddress

namespace Position

theorem SameIdentity.refl (p : Position) : p.SameIdentity p := ⟨rfl, rfl, rfl, rfl⟩

theorem sameIdentity_settled (s : Store) (p : Position) (shares : Dec) (tier : Tier)
    (v : ValAddress) (now : Time) : p.SameIdentity (s.settled p shares tier v now) :=
  ⟨rfl, rfl, rfl, rfl⟩

theorem sameIdentity_clearBonusCheckpoints (p : Position) :
    p.SameIdentity p.clearBonusCheckpoints :=
  ⟨rfl, rfl, rfl, rfl⟩

theorem sameIdentity_updateBonusCheckpoints (p : Position) (seq : ℕ) (t : Time) (bonded : Bool) :
    p.SameIdentity (p.updateBonusCheckpoints seq t bonded) :=
  ⟨rfl, rfl, rfl, rfl⟩

theorem sameIdentity_triggerExit (p : Position) (t : Time) (duration : Duration) :
    p.SameIdentity (p.triggerExit t duration) :=
  ⟨rfl, rfl, rfl, rfl⟩

theorem sameIdentity_clearExit (p : Position) (accrual : Time) :
    p.SameIdentity
      { p with exitTriggeredAt := 0, exitUnlockAt := 0, lastBonusAccrual := accrual } :=
  ⟨rfl, rfl, rfl, rfl⟩

end Position

def Store.tierSize (s : Store) (tierId : ℕ) : ℕ := count (fun _ p ↦ p.tierId == tierId) s.positions

def Store.Configured (s : Store) : Prop :=
  ∃ params, s.params = some params ∧ params.validate = .ok ()

/-- The index collections are determined by the positions. -/
structure Store.Indexed (codec : AddressCodec) (s : Store) : Prop where
  id_eq : ∀ (i : ℕ) (p : Position), s.positions[i]? = some p → p.id = i
  id_lt : ∀ (i : ℕ) (p : Position), s.positions[i]? = some p → i < s.nextPositionId
  owner : ∀ (i : ℕ) (p : Position), s.positions[i]? = some p →
    ∃ o, codec.stringToBytes p.owner = some o
  byOwner : ∀ (o : AccAddress) (i : ℕ), s.positionsByOwner[(o, i)]? = some () ↔
    ∃ p : Position, s.positions[i]? = some p ∧ codec.stringToBytes p.owner = some o
  byTier : ∀ t i : ℕ, s.positionsByTier[(t, i)]? = some () ↔
    ∃ p : Position, s.positions[i]? = some p ∧ p.tierId = t
  countByTier : IsTally s.positionCountByTier s.tierSize
  tierStored : ∀ (i : ℕ) (p : Position), s.positions[i]? = some p →
    ∃ tier : Tier, s.tiers[p.tierId]? = some tier
  tierValid : ∀ (t : ℕ) (tier : Tier), s.tiers[t]? = some tier →
    tier.id = t ∧ tier.validate = .ok ()

namespace Store.Indexed

variable {codec : AddressCodec} {s : Store}

/-- The other collections of the store do not matter to the indexes. -/
theorem congr {s' : Store} (h : s.Indexed codec) (hpositions : s'.positions = s.positions)
    (hnext : s'.nextPositionId = s.nextPositionId)
    (howner : s'.positionsByOwner = s.positionsByOwner)
    (htier : s'.positionsByTier = s.positionsByTier)
    (hcount : s'.positionCountByTier = s.positionCountByTier) (htiers : s'.tiers = s.tiers) :
    s'.Indexed codec := by
  cases s
  cases s'
  subst hpositions hnext howner htier hcount htiers
  exact ⟨h.id_eq, h.id_lt, h.owner, h.byOwner, h.byTier, h.countByTier, h.tierStored, h.tierValid⟩

theorem moveCount (h : s.Indexed codec) (src dst : Option ValAddress) :
    (s.moveCount src dst).Indexed codec :=
  h.congr rfl rfl rfl rfl rfl rfl

theorem replayed (h : s.Indexed codec) (p : Position) (v : ValAddress) :
    (s.replayed p v).Indexed codec :=
  h.congr rfl rfl rfl rfl rfl rfl

theorem recordRedelegation (h : s.Indexed codec) (unbondingId positionId : ℕ) :
    (Ledger.recordRedelegation s unbondingId positionId).Indexed codec :=
  h.congr rfl rfl rfl rfl rfl rfl

/-- Another version of a stored position is written under the same key. -/
theorem insert_eq (h : s.Indexed codec) {i : ℕ} {p q : Position} (hp : s.positions[i]? = some p)
    (hsame : p.SameIdentity q) : s.positions.insert q.id q = s.positions.insert i q := by
  rw [hsame.id, h.id_eq i p hp]

/-- Replacing a position by another version of it keeps the indexes. -/
theorem putPosition (h : s.Indexed codec) {i : ℕ} {p q : Position} (hp : s.positions[i]? = some p)
    (hsame : p.SameIdentity q) : (s.putPosition q).Indexed codec := by
  have hid : q.id = i := hsame.id.trans (h.id_eq i p hp)
  have hput : ∀ j : ℕ, (s.putPosition q).positions[j]? =
      if i = j then some q else s.positions[j]? := by
    intro j
    rw [← hid]
    exact getElem?_insert_eq s.positions q.id j q
  have hold : ∀ (j : ℕ) (r : Position), (s.putPosition q).positions[j]? = some r →
      ∃ r' : Position, s.positions[j]? = some r' ∧ r'.SameIdentity r := by
    intro j r hr
    rw [hput] at hr
    split_ifs at hr with hij
    · subst hij
      obtain rfl := Option.some.inj hr
      exact ⟨p, hp, hsame⟩
    · exact ⟨r, hr, rfl, rfl, rfl, rfl⟩
  have hnew : ∀ (j : ℕ) (r : Position), s.positions[j]? = some r →
      ∃ r' : Position, (s.putPosition q).positions[j]? = some r' ∧ r.SameIdentity r' := by
    intro j r hr
    by_cases hij : i = j
    · subst hij
      obtain rfl := Option.mem_unique hp hr
      exact ⟨q, by rw [hput, if_pos rfl], hsame⟩
    · exact ⟨r, by rw [hput, if_neg hij, hr], rfl, rfl, rfl, rfl⟩
  constructor
  · intro j r hr
    obtain ⟨r', hr', hs⟩ := hold j r hr
    exact hs.id.trans (h.id_eq j r' hr')
  · intro j r hr
    obtain ⟨r', hr', _⟩ := hold j r hr
    exact h.id_lt j r' hr'
  · intro j r hr
    obtain ⟨r', hr', hs⟩ := hold j r hr
    rw [hs.owner]
    exact h.owner j r' hr'
  · intro o j
    refine (h.byOwner o j).trans ⟨?_, ?_⟩
    · rintro ⟨r, hr, ho⟩
      obtain ⟨r', hr', hs⟩ := hnew j r hr
      exact ⟨r', hr', by rw [hs.owner, ho]⟩
    · rintro ⟨r, hr, ho⟩
      obtain ⟨r', hr', hs⟩ := hold j r hr
      exact ⟨r', hr', by rw [← hs.owner, ho]⟩
  · intro t j
    refine (h.byTier t j).trans ⟨?_, ?_⟩
    · rintro ⟨r, hr, ht⟩
      obtain ⟨r', hr', hs⟩ := hnew j r hr
      exact ⟨r', hr', by rw [hs.tierId, ht]⟩
    · rintro ⟨r, hr, ht⟩
      obtain ⟨r', hr', hs⟩ := hold j r hr
      exact ⟨r', hr', by rw [← hs.tierId, ht]⟩
  · refine h.countByTier.congr fun t ↦ ?_
    have hcount := count_insert (fun _ r ↦ r.tierId == t) hp q
    rw [hsame.tierId] at hcount
    change count _ (s.positions.insert q.id q) = count _ s.positions
    rw [hid]
    omega
  · intro j r hr
    obtain ⟨r', hr', hs⟩ := hold j r hr
    rw [hs.tierId]
    exact h.tierStored j r' hr'
  · exact h.tierValid

theorem addPosition (h : s.Indexed codec) {p : Position} {owner : AccAddress} {tier : Tier}
    (hid : p.id = s.nextPositionId) (howner : codec.stringToBytes p.owner = some owner)
    (htier : s.tiers[p.tierId]? = some tier) :
    ({ s with nextPositionId := s.nextPositionId + 1 }.addPosition owner p).Indexed codec := by
  have hnone : s.positions[p.id]? = none := by
    cases hq : s.positions[p.id]? with
    | none => rfl
    | some q => exact absurd (h.id_lt _ q hq) (by omega)
  have hadd : ∀ j : ℕ, (s.positions.insert p.id p)[j]? =
      if p.id = j then some p else s.positions[j]? :=
    fun j ↦ getElem?_insert_eq s.positions p.id j p
  have hcases : ∀ (j : ℕ) (r : Position), (s.positions.insert p.id p)[j]? = some r →
      (j = p.id ∧ r = p) ∨ s.positions[j]? = some r :=
    fun _ _ hr ↦ (eq_or_getElem?_of_insert hr).imp_right And.right
  constructor
  · intro j r hr
    rcases hcases j r hr with ⟨rfl, rfl⟩ | hold
    · rfl
    · exact h.id_eq j r hold
  · intro j r hr
    change j < s.nextPositionId + 1
    rcases hcases j r hr with ⟨rfl, rfl⟩ | hold
    · omega
    · have := h.id_lt j r hold
      omega
  · intro j r hr
    rcases hcases j r hr with ⟨rfl, rfl⟩ | hold
    · exact ⟨owner, howner⟩
    · exact h.owner j r hold
  · intro o j
    change (s.positionsByOwner.insert (owner, p.id) ())[(o, j)]? = some () ↔
      ∃ r : Position, (s.positions.insert p.id p)[j]? = some r ∧
      codec.stringToBytes r.owner = some o
    rw [getElem?_insert_eq, hadd]
    by_cases hj : p.id = j
    · subst hj
      by_cases ho : owner = o
      · subst ho
        simp [howner]
      · have hno := mt (h.byOwner o p.id).mp (by rw [hnone]; simp)
        simp [ho, howner, hno]
    · simp [hj, h.byOwner o j]
  · intro t j
    change (s.positionsByTier.insert (p.tierId, p.id) ())[(t, j)]? = some () ↔
      ∃ r : Position, (s.positions.insert p.id p)[j]? = some r ∧ r.tierId = t
    rw [getElem?_insert_eq, hadd]
    by_cases hj : p.id = j
    · subst hj
      by_cases ht : p.tierId = t
      · simp [ht]
      · have hno := mt (h.byTier t p.id).mp (by rw [hnone]; simp)
        simp [ht, hno]
    · simp [hj, h.byTier t j]
  · have hcount := fun t ↦ count_insert_of_none (fun _ r ↦ r.tierId == t) hnone p
    refine h.countByTier.increase ?_ ?_
    · have := hcount p.tierId
      simpa [Store.tierSize, Store.addPosition] using this
    · intro t ht
      have := hcount t
      simpa [Store.tierSize, Store.addPosition, Ne.symm ht] using this
  · intro j r hr
    rcases hcases j r hr with ⟨rfl, rfl⟩ | hold
    · exact ⟨tier, htier⟩
    · exact h.tierStored j r hold
  · exact h.tierValid

theorem removePosition (h : s.Indexed codec) {i : ℕ} {p : Position} {owner : AccAddress}
    (hp : s.positions[i]? = some p) (howner : codec.stringToBytes p.owner = some owner) :
    (s.removePosition owner p).Indexed codec := by
  obtain rfl := h.id_eq i p hp
  have hrem : ∀ j : ℕ, (s.positions.erase p.id)[j]? = if p.id = j then none else s.positions[j]? :=
    fun j ↦ getElem?_erase_eq s.positions p.id j
  have hold : ∀ (j : ℕ) (r : Position), (s.positions.erase p.id)[j]? = some r →
      s.positions[j]? = some r := fun _ _ hr ↦ (getElem?_of_erase hr).2
  constructor
  · exact fun j r hr ↦ h.id_eq j r (hold j r hr)
  · exact fun j r hr ↦ h.id_lt j r (hold j r hr)
  · exact fun j r hr ↦ h.owner j r (hold j r hr)
  · intro o j
    change (s.positionsByOwner.erase (owner, p.id))[(o, j)]? = some () ↔
      ∃ r : Position, (s.positions.erase p.id)[j]? = some r ∧ codec.stringToBytes r.owner = some o
    rw [getElem?_erase_eq, hrem]
    by_cases hj : p.id = j
    · subst hj
      by_cases ho : owner = o
      · simp [ho]
      · have hno : s.positionsByOwner[(o, p.id)]? ≠ some () := by
          rw [Ne, h.byOwner]
          rintro ⟨r, hr, hro⟩
          obtain rfl := Option.mem_unique hp hr
          exact ho (Option.mem_unique howner hro)
        simp [ho, hno]
    · simp [hj, h.byOwner o j]
  · intro t j
    change (s.positionsByTier.erase (p.tierId, p.id))[(t, j)]? = some () ↔
      ∃ r : Position, (s.positions.erase p.id)[j]? = some r ∧ r.tierId = t
    rw [getElem?_erase_eq, hrem]
    by_cases hj : p.id = j
    · subst hj
      by_cases ht : p.tierId = t
      · simp [ht]
      · have hno : s.positionsByTier[(t, p.id)]? ≠ some () := by
          rw [Ne, h.byTier]
          rintro ⟨r, hr, hrt⟩
          obtain rfl := Option.mem_unique hp hr
          exact ht hrt
        simp [ht, hno]
    · simp [hj, h.byTier t j]
  · have hcount := fun t ↦ count_erase (fun _ r ↦ r.tierId == t) hp
    refine h.countByTier.decrease ?_ ?_
    · have := hcount p.tierId
      simp only [beq_self_eq_true, if_true] at this
      exact this.symm
    · intro t ht
      have := hcount t
      have hne : (p.tierId == t) = false := beq_false_of_ne (Ne.symm ht)
      rw [hne] at this
      exact this
  · exact fun j r hr ↦ h.tierStored j r (hold j r hr)
  · exact h.tierValid

theorem setTier (h : s.Indexed codec) {tier : Tier} (hvalid : tier.validate = .ok ()) :
    { s with tiers := s.tiers.insert tier.id tier }.Indexed codec := by
  refine ⟨h.id_eq, h.id_lt, h.owner, h.byOwner, h.byTier, h.countByTier, ?_, ?_⟩
  · intro j r hr
    obtain ⟨old, hold⟩ := h.tierStored j r hr
    by_cases ht : tier.id = r.tierId
    · exact ⟨tier, by rw [getElem?_insert_eq, if_pos ht]⟩
    · exact ⟨old, by rw [getElem?_insert_ne ht, hold]⟩
  · intro t r hr
    change (s.tiers.insert tier.id tier)[t]? = some r at hr
    rcases eq_or_getElem?_of_insert hr with ⟨rfl, rfl⟩ | ⟨_, hold⟩
    · exact ⟨rfl, hvalid⟩
    · exact h.tierValid t r hold

theorem deleteTier (h : s.Indexed codec) {tierId : ℕ}
    (hempty : ∀ (i : ℕ) (p : Position), s.positions[i]? = some p → p.tierId ≠ tierId) :
    { s with tiers := s.tiers.erase tierId }.Indexed codec := by
  refine ⟨h.id_eq, h.id_lt, h.owner, h.byOwner, h.byTier, h.countByTier, ?_, ?_⟩
  · intro j r hr
    obtain ⟨old, hold⟩ := h.tierStored j r hr
    exact ⟨old, by rw [getElem?_erase_ne (Ne.symm (hempty j r hr)), hold]⟩
  · intro t r hr
    change (s.tiers.erase tierId)[t]? = some r at hr
    rw [getElem?_erase_eq] at hr
    split_ifs at hr
    exact h.tierValid t r hr

end Store.Indexed

/-! ### Accounts -/

namespace Ledger

variable {codec : AddressCodec} {L L' : Ledger}

/-- The positions hold pairwise different accounts, which exist and are spelled as the SDK writes
them. -/
structure Accounted (codec : AddressCodec) (L : Ledger) : Prop where
  account : ∀ (i : ℕ) (p : Position), L.store.positions[i]? = some p →
    ∃ a, p.delegatorAddress = codec.bytesToString a ∧ L.accounts a
  distinct : ∀ (i j : ℕ) (p q : Position) (a : AccAddress),
    L.Holds codec i p a → L.Holds codec j q a → i = j

theorem Holds.held {i : ℕ} {p : Position} {a : AccAddress} (h : L.Holds codec i p a) :
    L.Held codec a :=
  ⟨i, p, h.stored, h.account⟩

theorem Held.holds {a : AccAddress} (h : L.Held codec a) : ∃ i p, L.Holds codec i p a := by
  obtain ⟨i, p, hp, ha⟩ := h
  exact ⟨i, p, hp, ha⟩

/-- A position held after one was written is that one, or one held before. -/
theorem Holds.of_put {i j : ℕ} {p q r : Position} {a b : AccAddress} (hr : L'.Holds codec j r b)
    (hp : L.Holds codec i p a) (hsame : p.SameIdentity q)
    (hput : L'.store.positions = L.store.positions.insert i q) :
    (j = i ∧ r = q ∧ b = a) ∨ (j ≠ i ∧ L.Holds codec j r b) := by
  obtain ⟨hstored, hb⟩ := hr
  rw [hput] at hstored
  rcases eq_or_getElem?_of_insert hstored with ⟨hj, rfl⟩ | ⟨hj, hold⟩
  · rw [hsame.delegatorAddress, hp.account] at hb
    exact .inl ⟨hj, rfl, (Option.some.inj hb).symm⟩
  · exact .inr ⟨hj, hold, hb⟩

namespace Accounted

theorem holds (h : L.Accounted codec) {i : ℕ} {p : Position} (hp : L.store.positions[i]? = some p) :
    ∃ a, L.Holds codec i p a ∧ p.delegatorAddress = codec.bytesToString a ∧ L.accounts a := by
  obtain ⟨a, haddress, hexists⟩ := h.account i p hp
  refine ⟨a, ⟨hp, ?_⟩, haddress, hexists⟩
  rw [haddress]
  exact codec.stringToBytes_bytesToString a

theorem exists_of_held (h : L.Accounted codec) {a : AccAddress} (ha : L.Held codec a) :
    L.accounts a := by
  obtain ⟨i, p, hp, haddress⟩ := ha
  obtain ⟨b, hb, _, hexists⟩ := h.holds hp
  obtain rfl := Option.mem_unique haddress hb.account
  exact hexists

/-- Accounts stay accounted for when every position keeps its address. -/
theorem of_positions (h : L.Accounted codec)
    (hold : ∀ (j : ℕ) (r : Position), L'.store.positions[j]? = some r →
      ∃ r' : Position, L.store.positions[j]? = some r' ∧ r.delegatorAddress = r'.delegatorAddress)
    (haccounts : ∀ a, L.accounts a → L'.accounts a) : L'.Accounted codec := by
  constructor
  · intro j r hr
    obtain ⟨r', hr', haddress⟩ := hold j r hr
    obtain ⟨a, ha, hexists⟩ := h.account j r' hr'
    exact ⟨a, haddress.trans ha, haccounts a hexists⟩
  · intro i j p q a hp hq
    obtain ⟨p', hp', hpa⟩ := hold i p hp.stored
    obtain ⟨q', hq', hqa⟩ := hold j q hq.stored
    refine h.distinct i j p' q' a ⟨hp', ?_⟩ ⟨hq', ?_⟩
    · rw [← hpa]
      exact hp.account
    · rw [← hqa]
      exact hq.account

theorem of_create (h : L.Accounted codec) {p : Position} {a : AccAddress}
    (haddress : p.delegatorAddress = codec.bytesToString a) (hunused : L.accounts a = false)
    (hused : L'.accounts a) (haccounts : ∀ b, L.accounts b → L'.accounts b)
    (hpositions : L'.store.positions = L.store.positions.insert p.id p) : L'.Accounted codec := by
  have hcases : ∀ (j : ℕ) (r : Position), L'.store.positions[j]? = some r →
      (j = p.id ∧ r = p) ∨ L.store.positions[j]? = some r :=
    fun _ _ hr ↦ (eq_or_getElem?_of_insert (hpositions ▸ hr)).imp_right And.right
  have hp : codec.stringToBytes p.delegatorAddress = some a := by
    rw [haddress]
    exact codec.stringToBytes_bytesToString a
  have hother : ∀ (j : ℕ) (r : Position) (b : AccAddress), L.store.positions[j]? = some r →
      codec.stringToBytes r.delegatorAddress = some b → b ≠ a := by
    rintro j r b hr hb rfl
    have hexists := h.exists_of_held ⟨j, r, hr, hb⟩
    rw [hunused] at hexists
    cases hexists
  constructor
  · intro j r hr
    rcases hcases j r hr with ⟨rfl, rfl⟩ | hold
    · exact ⟨a, haddress, hused⟩
    · obtain ⟨b, hb, hexists⟩ := h.account j r hold
      exact ⟨b, hb, haccounts b hexists⟩
  · intro i j q r b hq hr
    rcases hcases i q hq.stored with ⟨rfl, rfl⟩ | hq'
    · rcases hcases j r hr.stored with ⟨rfl, rfl⟩ | hr'
      · rfl
      · obtain rfl := Option.mem_unique hp hq.account
        exact absurd rfl (hother j r _ hr' hr.account)
    · rcases hcases j r hr.stored with ⟨rfl, rfl⟩ | hr'
      · obtain rfl := Option.mem_unique hp hr.account
        exact absurd rfl (hother i q _ hq' hq.account)
      · exact h.distinct i j q r b ⟨hq', hq.account⟩ ⟨hr', hr.account⟩

end Accounted

theorem Step.configured {op : Op} (h : Step codec L op L') (hL : L.store.Configured) :
    L'.store.Configured := by
  cases h with
  | outside hstore _ => rwa [hstore]
  | params params hvalid => exact ⟨params, rfl, hvalid⟩
  | create _ _ _ _ _ _ _ _ _ _ _ _ hstore =>
    rw [hstore]
    exact hL
  | reshare _ _ _ _ _ _ _ hstore => rwa [hstore]
  | leave _ _ _ _ _ _ hstore =>
    rw [hstore]
    exact hL
  | move _ _ _ _ _ _ _ _ _ _ _ _ _ hstore =>
    rw [hstore]
    exact hL
  | tick | setTier | deleteTier | settle | remove | trigger | clear | record | status | dropSeq
    | mature => exact hL

theorem Step.indexed {op : Op} (h : Step codec L op L') (hL : L.store.Indexed codec) :
    L'.store.Indexed codec := by
  cases h with
  | outside hstore _ => rwa [hstore]
  | tick now _ => exact hL
  | params p _ => exact hL.congr rfl rfl rfl rfl rfl rfl
  | setTier tier hvalid _ => exact hL.setTier hvalid
  | deleteTier tierId hempty => exact hL.deleteTier hempty
  | create _ hfresh _ howner _ _ _ _ _ _ _ _ hstore =>
    rw [hstore]
    exact (hL.addPosition hfresh.id howner.decodes hfresh.tierStored).moveCount _ _
  | settle rate covered hp _ _ =>
    exact (hL.replayed _ _).putPosition hp.stored (Position.sameIdentity_settled _ _ _ _ _ _)
  | reshare _ _ _ _ _ _ _ hstore => rwa [hstore]
  | leave hp _ _ _ _ _ hstore =>
    rw [hstore]
    exact (hL.putPosition hp.stored (Position.sameIdentity_clearBonusCheckpoints _)).moveCount _ _
  | move u hp _ _ _ _ _ _ _ _ _ _ _ hstore =>
    rw [hstore]
    exact ((hL.recordRedelegation _ _).putPosition hp.stored
      (Position.sameIdentity_updateBonusCheckpoints _ _ _ _)).moveCount _ _
  | remove hp _ howner => exact hL.removePosition hp.stored howner
  | trigger hp _ _ _ => exact hL.putPosition hp.stored (Position.sameIdentity_triggerExit _ _ _)
  | clear hp _ => exact hL.putPosition hp.stored (Position.sameIdentity_clearExit _ _)
  | record v _ _ _ _ _ => exact hL.congr rfl rfl rfl rfl rfl rfl
  | status v _ _ => exact hL
  | dropSeq v _ => exact hL.congr rfl rfl rfl rfl rfl rfl
  | mature ids => exact hL.congr rfl rfl rfl rfl rfl rfl

theorem Step.accounts_kept {op : Op} (h : Step codec L op L') {a : AccAddress} (ha : L.accounts a) :
    L'.accounts a := by
  cases h with
  | outside _ hframe => exact hframe.accounts a ha
  | create _ _ _ _ _ _ _ _ _ _ _ hframe _ => exact hframe.accounts a ha
  | reshare _ _ _ _ _ _ hframe _ => exact hframe.accounts a ha
  | leave _ _ _ _ _ hframe _ => exact hframe.accounts a ha
  | move _ _ _ _ _ _ _ _ _ _ _ _ hframe _ => exact hframe.accounts a ha
  | tick | params | setTier | deleteTier | settle | remove | trigger | clear | record | status
  | dropSeq | mature => exact ha

/-- A step that creates no position leaves the identities of the positions alone. -/
theorem Step.identity_kept {op : Op} (h : Step codec L op L') (hindex : L.store.Indexed codec)
    (hop : ∀ id exiting, op ≠ .create id exiting) {j : ℕ} {r : Position}
    (hr : L'.store.positions[j]? = some r) :
    ∃ r' : Position, L.store.positions[j]? = some r' ∧ r'.SameIdentity r := by
  have hput : ∀ {i : ℕ} {p q : Position}, L.store.positions[i]? = some p → p.SameIdentity q →
      (L.store.positions.insert q.id q)[j]? = some r →
      ∃ r' : Position, L.store.positions[j]? = some r' ∧ r'.SameIdentity r := by
    intro i p q hp hsame hq
    rw [hindex.insert_eq hp hsame] at hq
    rcases eq_or_getElem?_of_insert hq with ⟨rfl, rfl⟩ | ⟨_, hold⟩
    · exact ⟨p, hp, hsame⟩
    · exact ⟨r, hold, .refl r⟩
  cases h with
  | create => exact absurd rfl (hop _ _)
  | outside hstore _ =>
    rw [hstore] at hr
    exact ⟨r, hr, .refl r⟩
  | reshare _ _ _ _ _ _ _ hstore =>
    rw [hstore] at hr
    exact ⟨r, hr, .refl r⟩
  | settle _ _ hp _ _ => exact hput hp.stored (Position.sameIdentity_settled _ _ _ _ _ _) hr
  | leave hp _ _ _ _ _ hstore =>
    rw [congrArg Store.positions hstore] at hr
    exact hput hp.stored (Position.sameIdentity_clearBonusCheckpoints _) hr
  | move _ hp _ _ _ _ _ _ _ _ _ _ _ hstore =>
    rw [congrArg Store.positions hstore] at hr
    exact hput hp.stored (Position.sameIdentity_updateBonusCheckpoints _ _ _ _) hr
  | remove hp _ _ =>
    change (L.store.positions.erase _)[j]? = some r at hr
    rw [getElem?_erase_eq] at hr
    split_ifs at hr
    exact ⟨r, hr, .refl r⟩
  | trigger hp _ _ _ => exact hput hp.stored (Position.sameIdentity_triggerExit _ _ _) hr
  | clear hp _ => exact hput hp.stored (Position.sameIdentity_clearExit _ _) hr
  | tick | params | setTier | deleteTier | record | status | dropSeq | mature =>
    exact ⟨r, hr, .refl r⟩

theorem Step.accounted {op : Op} (h : Step codec L op L') (hindex : L.store.Indexed codec)
    (hL : L.Accounted codec) : L'.Accounted codec := by
  by_cases hop : ∃ id exiting, op = .create id exiting
  · obtain ⟨id, exiting, rfl⟩ := hop
    cases h with
    | create _ hfresh _ _ haddress hunused hused _ _ _ _ hframe hstore =>
      refine hL.of_create haddress hunused hused hframe.accounts ?_
      rw [hstore]
      rfl
  · refine hL.of_positions (fun j r hr ↦ ?_) fun _ ha ↦ h.accounts_kept ha
    obtain ⟨r', hr', hsame⟩ :=
      h.identity_kept hindex (fun id exiting heq ↦ hop ⟨id, exiting, heq⟩) hr
    exact ⟨r', hr', hsame.delegatorAddress⟩

theorem Step.tidy {op : Op} (h : Step codec L op L') (hL : L.Tidy) : L'.Tidy := by
  cases h with
  | outside _ hframe => exact hframe.tidy
  | create _ _ _ _ _ _ _ _ _ _ _ hframe _ => exact hframe.tidy
  | reshare _ _ _ _ _ _ hframe _ => exact hframe.tidy
  | leave _ _ _ _ _ hframe _ => exact hframe.tidy
  | move _ _ _ _ _ _ _ _ _ _ _ _ hframe _ => exact hframe.tidy
  | mature ids =>
    have hsub : ∀ (u : ℕ) (red : Redelegation),
        (if u ∈ ids then none else L.redelegations u) = some red →
          L.redelegations u = some red := by
      intro u red hu
      split_ifs at hu
      exact hu
    refine ⟨hL.idle, fun a ha u red hu ↦ hL.notRedelegating a ha u red (hsub u red hu), ?_,
      hL.notUnbonding⟩
    change (if 0 ∈ ids then none else L.redelegations 0) = none
    rw [hL.zero, ite_self]
  | tick | params | setTier | deleteTier | settle | remove | trigger | clear | record | status
  | dropSeq => exact ⟨hL.idle, hL.notRedelegating, hL.zero, hL.notUnbonding⟩

end Ledger

end ChainMain.TieredRewards
