import ChainMain.TieredRewards.LedgerReplay

/-!
# Lazy and eager bonuses

An eager reference credits a position at every event of its validator and at every settlement. The
module pays at settlements only and replays there the events since the last one. `Ledger.Books`
relates the two: what the reference has credited is what has been paid, plus what the replay of the
pending events adds to it, and the segment that both have still open starts at the same time, or
when the bonus of the position has already ended.

Every step of the ledger keeps the books, with the credit the reference gives at that step: none
(`Step.books_kept`), or one for a settlement, a recorded event or the start of a position.
-/

set_option autoImplicit false

namespace ChainMain.TieredRewards

open Foundations Decimal OrderedStore Runs

/-- What an eager reference has credited to a position, and when it did so last. -/
structure Credit where
  total : ℤ
  since : Time

/-- The credit after one more segment, which ends now. -/
def Credit.segment (c : Credit) (p : Position) (shares : Dec) (tier : Tier) (bonded : Bool)
    (rate : Dec) (now : Time) : Credit where
  total := c.total + if bonded then computeSegmentBonus p shares tier c.since now rate else 0
  since := now

/-! ### Segments -/

/-- Two starts of a segment that give the same bonus: they are equal, or the bonus of the position
has ended before either. -/
def Position.SameStart (p : Position) (t u : Time) : Prop :=
  t = u ∨ p.exitUnlockAt ≠ 0 ∧ p.exitUnlockAt ≤ t ∧ p.exitUnlockAt ≤ u

theorem Position.capSegmentEnd_le {p : Position} (h : p.exitUnlockAt ≠ 0) (segmentEnd : Time) :
    p.capSegmentEnd segmentEnd ≤ p.exitUnlockAt := by
  unfold Position.capSegmentEnd
  split_ifs with hcap
  · exact le_refl _
  · exact not_lt.mp fun hlt ↦ hcap ⟨h, hlt⟩

theorem computeSegmentBonus_sameStart {p : Position} {t u : Time} (h : p.SameStart t u)
    (shares : Dec) (tier : Tier) (segmentEnd : Time) (rate : Dec) :
    computeSegmentBonus p shares tier t segmentEnd rate =
      computeSegmentBonus p shares tier u segmentEnd rate := by
  rcases h with rfl | ⟨hne, ht, hu⟩
  · rfl
  · have hcap := Position.capSegmentEnd_le hne segmentEnd
    unfold computeSegmentBonus
    dsimp only
    rw [if_pos (hcap.trans ht), if_pos (hcap.trans hu)]

theorem Store.replay_congr_tier (st : Store) (p : Position) (shares : Dec) {tier tier' : Tier}
    (v : ValAddress) (h : tier'.bonusApy = tier.bonusApy) :
    st.replay p shares tier' v = st.replay p shares tier v := by
  unfold Store.replay Replay.events
  refine List.foldl_ext _ _ _ fun r entry _ ↦ ?_
  unfold Replay.event computeSegmentBonus
  rw [h]

/-- An exit that is triggered after the pending events does not change their replay. -/
theorem Store.replay_triggerExit {st : Store} {p : Position} {v : ValAddress} {now : Time}
    {duration : Duration} (hquiet : p.exitUnlockAt = 0) (hduration : 0 < duration)
    (htime : ∀ (n : ℕ) (e : ValidatorEvent), st.validatorEvents[(v, n)]? = some e →
      e.timestamp ≤ now)
    (shares : Dec) (tier : Tier) :
    st.replay (p.triggerExit now duration) shares tier v = st.replay p shares tier v := by
  unfold Store.replay Replay.events
  refine List.foldl_ext _ _ _ fun r entry hentry ↦ ?_
  have hle := htime entry.seq entry.event (mem_getValidatorEventsSince.mp hentry).2
  have hcap : p.capSegmentEnd entry.event.timestamp = entry.event.timestamp :=
    if_neg fun hcond ↦ hcond.1 hquiet
  have hcap' : (p.triggerExit now duration).capSegmentEnd entry.event.timestamp =
      entry.event.timestamp := by
    refine if_neg fun hcond ↦ ?_
    have hlt : now + duration < entry.event.timestamp := hcond.2
    exact absurd (hlt.trans_le hle) (not_lt.mpr (le_add_of_nonneg_right hduration.le))
  unfold Replay.event computeSegmentBonus
  rw [hcap, hcap']

namespace Ledger

variable {codec : AddressCodec} {L L' : Ledger} {op : Op} {id : ℕ} {c : Credit} {p : Position}
  {a : AccAddress} {v : ValAddress} {s : Dec} {tier : Tier}

/-! ### The books -/

/-- A stored position earns at the rate of its tier for its shares of a validator. -/
structure Earns (codec : AddressCodec) (L : Ledger) (id : ℕ) (p : Position) (a : AccAddress)
    (v : ValAddress) (s : Dec) (tier : Tier) : Prop where
  holds : L.Holds codec id p a
  stake : L.StakedOn a v s
  tierStored : L.store.tiers[p.tierId]? = some tier

theorem Earns.unique {q : Position} {b : AccAddress} {u : ValAddress} {t : Dec} {tier' : Tier}
    (h : L.Earns codec id p a v s tier) (h' : L.Earns codec id q b u t tier') :
    q = p ∧ b = a ∧ u = v ∧ t = s ∧ tier' = tier := by
  obtain rfl := Option.mem_unique h.holds.stored h'.holds.stored
  obtain rfl := Option.mem_unique h.holds.account h'.holds.account
  obtain ⟨rfl, rfl⟩ := h.stake.unique h'.stake
  exact ⟨rfl, rfl, rfl, rfl, Option.mem_unique h'.tierStored h.tierStored⟩

/-- The credit of a position agrees with what it has been paid and what it has pending. -/
structure Books (codec : AddressCodec) (L : Ledger) (id : ℕ) (c : Credit) : Prop where
  earning : ∀ p a v s tier, L.Earns codec id p a v s tier →
    c.total = L.paid id + (L.store.replay p s tier v).totalBonus ∧
      p.SameStart (L.store.replay p s tier v).segmentStart c.since
  resting : (∀ p a v s tier, ¬ L.Earns codec id p a v s tier) → c.total = L.paid id

theorem Books.of_earns (h : L.Earns codec id p a v s tier)
    (htotal : c.total = L.paid id + (L.store.replay p s tier v).totalBonus)
    (hstart : p.SameStart (L.store.replay p s tier v).segmentStart c.since) :
    L.Books codec id c where
  earning := by
    intro q b u t tier' h'
    obtain ⟨rfl, rfl, rfl, rfl, rfl⟩ := h.unique h'
    exact ⟨htotal, hstart⟩
  resting := fun hnone ↦ absurd h (hnone p a v s tier)

theorem Books.of_rests (h : ∀ p a v s tier, ¬ L.Earns codec id p a v s tier)
    (htotal : c.total = L.paid id) : L.Books codec id c where
  earning := fun p a v s tier hearns ↦ absurd hearns (h p a v s tier)
  resting := fun _ ↦ htotal

theorem Holds.rests (hp : L.Holds codec id p a) (hidle : L.Idle a) (q : Position) (b : AccAddress)
    (u : ValAddress) (t : Dec) (tier' : Tier) : ¬ L.Earns codec id q b u t tier' := by
  intro h
  obtain rfl := Option.mem_unique hp.stored h.holds.stored
  obtain rfl := Option.mem_unique hp.account h.holds.account
  exact h.stake.not_idle hidle

theorem Settled.replay_eq (h : L.Settled p v) (hL : L.Logged codec) (s : Dec) (tier : Tier) :
    L.store.replay p s tier v = Replay.start p :=
  Store.replay_of_latest (fun n e ↦ hL.bound v n e) h.seq s tier

theorem Earns.of_holds (hL : L.Sound codec) (hp : L.Holds codec id p a)
    (hstake : L.StakedOn a v s) :
    ∃ tier, L.Earns codec id p a v s tier := by
  obtain ⟨tier, htier⟩ := hL.indexed.tierStored id p hp.stored
  exact ⟨tier, hp, hstake, htier⟩

theorem Books.settled (hB : L.Books codec id c) (hL : L.Sound codec) (hp : L.Holds codec id p a)
    (hstake : L.StakedOn a v s) (hsettled : L.Settled p v) :
    c.total = L.paid id ∧ p.SameStart p.lastBonusAccrual c.since := by
  obtain ⟨tier, hearns⟩ := Earns.of_holds hL hp hstake
  obtain ⟨htotal, hstart⟩ := hB.earning p a v s tier hearns
  rw [hsettled.replay_eq hL.logged] at htotal hstart
  exact ⟨htotal.trans (add_zero _), hstart⟩

/-! ### Steps that give no credit -/

/-- A step that is not about a position does not change what it earns. -/
theorem Step.earns_iff (h : Step codec L op L') (hL : L.Sound codec) (hop : op.target ≠ some id)
    (hset : ∀ tier' : Tier, op = .setTier tier' → ∀ q, L.store.positions[id]? = some q →
      tier'.id ≠ q.tierId) :
    L'.Earns codec id p a v s tier ↔ L.Earns codec id p a v s tier := by
  have hpositions := h.positions_eq hL.indexed hop
  constructor
  · intro hearns
    have hp : L.Holds codec id p a := ⟨hpositions ▸ hearns.holds.stored, hearns.holds.account⟩
    refine ⟨hp, hearns.stake.congr (h.stakes_eq hL.accounted hop hp).symm, ?_⟩
    rw [← h.tiers_eq hp.stored fun tier' heq ↦ hset tier' heq p hp.stored]
    exact hearns.tierStored
  · intro hearns
    have hp := hearns.holds
    refine ⟨⟨hpositions ▸ hp.stored, hp.account⟩,
      hearns.stake.congr (h.stakes_eq hL.accounted hop hp), ?_⟩
    rw [h.tiers_eq hp.stored fun tier' heq ↦ hset tier' heq p hp.stored]
    exact hearns.tierStored

theorem Books.of_untouched (hB : L.Books codec id c) (h : Step codec L op L') (hL : L.Sound codec)
    (hop : op.target ≠ some id)
    (hset : ∀ tier' : Tier, op = .setTier tier' → ∀ q, L.store.positions[id]? = some q →
      tier'.id ≠ q.tierId)
    (hrecord : ∀ p a v s tier, L.Earns codec id p a v s tier → ∀ eventType rate,
      op ≠ .record v eventType rate) : L'.Books codec id c := by
  have hpaid : L'.paid id = L.paid id := by
    refine h.paid_eq fun v rate covered heq ↦ hop ?_
    rw [heq]
    rfl
  constructor
  · intro p a v s tier hearns'
    have hearns := (h.earns_iff hL hop hset).mp hearns'
    rw [hpaid, h.replay_eq hL.logged (h.sound hL).logged hearns'.holds.stored
      (hearns.stake.isStaked hearns.holds.account) (hrecord p a v s tier hearns)]
    exact hB.earning p a v s tier hearns
  · intro hnone
    rw [hpaid]
    exact hB.resting fun p a v s tier hearns ↦
      hnone p a v s tier ((h.earns_iff hL hop hset).mpr hearns)

/-- A change of a tier's rate finds its positions settled; nothing else of a tier matters. -/
theorem Books.of_setTier {tier' : Tier} (hB : L.Books codec id c)
    (h : Step codec L (.setTier tier') L') (hL : L.Sound codec) : L'.Books codec id c := by
  by_cases hset : ∀ q, L.store.positions[id]? = some q → tier'.id ≠ q.tierId
  · refine hB.of_untouched h hL (by simp [Op.target]) ?_ (by simp)
    intro tier'' heq
    obtain rfl := Op.setTier.inj heq
    exact hset
  · simp only [not_forall, not_not] at hset
    obtain ⟨q, hq, htierId⟩ := hset
    obtain ⟨old, hold⟩ := hL.indexed.tierStored id q hq
    cases h with
    | setTier _ hvalid hsettled =>
      have hnew : (L.store.tiers.insert tier'.id tier')[q.tierId]? = some tier' := by
        rw [getElem?_insert_eq, if_pos htierId]
      constructor
      · intro p a v s tier hearns'
        have hp : L.Holds codec id p a := ⟨hearns'.holds.stored, hearns'.holds.account⟩
        obtain rfl := Option.mem_unique hq hp.stored
        have hstake : L.StakedOn a v s := hearns'.stake
        obtain rfl : tier = tier' := Option.mem_unique hearns'.tierStored hnew
        have hreplay : L.store.replay q s tier v = L.store.replay q s old v := by
          by_cases hrate : old.bonusApy = tier.bonusApy
          · exact Store.replay_congr_tier _ _ _ _ hrate.symm
          · have hsettled' := hsettled old (htierId ▸ hold) hrate id q a v s hp htierId.symm hstake
            rw [hsettled'.replay_eq hL.logged, hsettled'.replay_eq hL.logged]
        have hbooks := hB.earning q a v s old ⟨hp, hstake, hold⟩
        rw [← hreplay] at hbooks
        exact hbooks
      · intro hnone
        refine hB.resting fun p a v s tier hearns ↦ hnone p a v s tier'
          ⟨⟨hearns.holds.stored, hearns.holds.account⟩, hearns.stake, ?_⟩
        obtain rfl := Option.mem_unique hq hearns.holds.stored
        exact hnew

/-- What is left of a position's stake goes on earning from the settlement. -/
theorem Books.of_reshare (hB : L.Books codec id c) (h : Step codec L (.reshare id) L')
    (hL : L.Sound codec) : L'.Books codec id c := by
  have hpaid : L'.paid id = L.paid id := h.paid_eq (by simp)
  have hL' := h.sound hL
  cases h with
  | @reshare _ _ p a v s s' hp hstake hsettled _ hstake' _ _ hstore =>
    obtain ⟨htotal, hstart⟩ := hB.settled hL hp hstake hsettled
    have hp' : L'.Holds codec id p a := ⟨hstore ▸ hp.stored, hp.account⟩
    obtain ⟨tier, hearns'⟩ := Earns.of_holds hL' hp' hstake'
    have hreplay : L'.store.replay p s' tier v = Replay.start p := by
      rw [hstore]
      exact hsettled.replay_eq hL.logged s' tier
    refine .of_earns hearns' ?_ ?_
    · rw [hreplay, hpaid, htotal]
      exact (add_zero _).symm
    · rw [hreplay]
      exact hstart

theorem Books.of_leave (hB : L.Books codec id c) (h : Step codec L (.leave id) L')
    (hL : L.Sound codec) : L'.Books codec id c := by
  have hpaid : L'.paid id = L.paid id := h.paid_eq (by simp)
  cases h with
  | @leave _ _ p a v s hp hstake hsettled hidle _ _ hstore =>
    obtain ⟨htotal, _⟩ := hB.settled hL hp hstake hsettled
    have hp' : L'.Holds codec id p.clearBonusCheckpoints a := by
      refine ⟨?_, hp.account⟩
      rw [congrArg Store.positions hstore]
      change (L.store.positions.insert _ p.clearBonusCheckpoints)[id]? = _
      rw [hL.indexed.insert_eq hp.stored (Position.sameIdentity_clearBonusCheckpoints p),
        getElem?_insert_eq, if_pos rfl]
    exact .of_rests (hp'.rests hidle) (htotal.trans hpaid.symm)

theorem Books.of_move (hB : L.Books codec id c) (h : Step codec L (.move id) L')
    (hL : L.Sound codec) : L'.Books codec id c := by
  have hpaid : L'.paid id = L.paid id := h.paid_eq (by simp)
  have hL' := h.sound hL
  cases h with
  | @move _ _ p a v v' s s' unbondingId hp hstake hsettled hopen _ _ _ hstake' _ _ _ _ hstore =>
    obtain ⟨htotal, hstart⟩ := hB.settled hL hp hstake hsettled
    set p' := p.updateBonusCheckpoints (L.store.getValidatorEventLatestSeq v') L.now true with hp'
    have hsame : p.SameIdentity p' := Position.sameIdentity_updateBonusCheckpoints _ _ _ _
    have hholds : L'.Holds codec id p' a := by
      refine ⟨?_, hp.account⟩
      rw [congrArg Store.positions hstore]
      change (L.store.positions.insert _ p')[id]? = _
      rw [hL.indexed.insert_eq hp.stored hsame, getElem?_insert_eq, if_pos rfl]
    obtain ⟨tier, hearns'⟩ := Earns.of_holds hL' hholds hstake'
    have hseq : p'.lastEventSeq = L'.store.getValidatorEventLatestSeq v' := by
      rw [hstore]
      rfl
    have hreplay : L'.store.replay p' s' tier v' = Replay.start p' :=
      Store.replay_of_latest (fun n e ↦ hL'.logged.bound v' n e) hseq s' tier
    refine .of_earns hearns' ?_ ?_
    · rw [hreplay, hpaid, htotal]
      exact (add_zero _).symm
    · -- the lock is open, so the reference has credited the position at this very time
      have haccrual := hsettled.accrual
      rw [hopen, if_neg Bool.false_ne_true] at haccrual
      rw [haccrual] at hstart
      rw [hreplay]
      refine Or.inl ?_
      rcases hstart with hsince | ⟨hne, hle, _⟩
      · exact hsince
      · unfold Position.completedExitLockDuration at hopen
        simp [hne, hle] at hopen

theorem Books.of_remove (hB : L.Books codec id c) (h : Step codec L (.remove id) L')
    (hL : L.Sound codec) : L'.Books codec id c := by
  have hpaid : L'.paid id = L.paid id := h.paid_eq (by simp)
  cases h with
  | @remove _ p a owner hp hidle _ =>
    refine .of_rests ?_ ((hB.resting (hp.rests hidle)).trans hpaid.symm)
    intro q b u t tier hearns
    have hstored : (L.store.positions.erase p.id)[id]? = some q := hearns.holds.stored
    rw [hL.indexed.id_eq id p hp.stored, getElem?_erase_eq, if_pos rfl] at hstored
    cases hstored

theorem exitUnlockAt_eq_zero (h : p.validate codec = .ok ()) (hquiet : p.exitTriggeredAt = 0) :
    p.exitUnlockAt = 0 := by
  unfold Position.validate at h
  split_ifs at h with h₁ h₂ h₃
  by_contra hne
  exact h₃ ⟨hquiet, hne⟩

theorem Books.of_trigger (hB : L.Books codec id c) (h : Step codec L (.trigger id) L')
    (hL : L.Sound codec) : L'.Books codec id c := by
  cases h with
  | @trigger _ p a tier hp hquiet htier _ =>
    set p' := p.triggerExit L.now tier.exitDuration with hp'
    have hsame : p.SameIdentity p' := Position.sameIdentity_triggerExit _ _ _
    have hholds : { L with store := L.store.putPosition p' }.Holds codec id p' a := by
      refine ⟨?_, hp.account⟩
      change (L.store.positions.insert _ p')[id]? = _
      rw [hL.indexed.insert_eq hp.stored hsame, getElem?_insert_eq, if_pos rfl]
    have hunlock := exitUnlockAt_eq_zero (hL.coherent.valid id p hp.stored) hquiet
    rcases hL.coherent.backed id p a hp with ⟨v, s, hstake, _, _⟩ | ⟨hidle, _⟩
    · obtain ⟨htotal, hstart⟩ := hB.earning p a v s tier ⟨hp, hstake, htier⟩
      have hreplay : (L.store.putPosition p').replay p' s tier v = L.store.replay p s tier v :=
        (Store.replay_of_events (s := L.store) rfl p' s tier v).trans
          (Store.replay_triggerExit hunlock
            (Tier.exitDuration_pos (hL.indexed.tierValid _ tier htier).2)
            (fun n e ↦ hL.logged.timestamp_le v n e) s tier)
      refine .of_earns ⟨hholds, hstake, htier⟩ ?_ ?_
      · rw [hreplay]
        exact htotal
      · rw [hreplay]
        rcases hstart with hsince | ⟨hne, _, _⟩
        · exact Or.inl hsince
        · exact absurd hunlock hne
    · exact .of_rests (hholds.rests hidle) (hB.resting (hp.rests hidle))

/-- Clearing an exit needs the reference to have credited the position just before. -/
theorem Books.of_clear (hB : L.Books codec id c) (h : Step codec L (.clear id) L')
    (hL : L.Sound codec)
    (hsince : ∀ p a v s tier, L.Earns codec id p a v s tier → c.since = L.now) :
    L'.Books codec id c := by
  have hL' := h.sound hL
  cases h with
  | @clear _ p a accrual hp hcase =>
    set p' : Position :=
      { p with exitTriggeredAt := 0, exitUnlockAt := 0, lastBonusAccrual := accrual }
      with hp'
    have hholds : { L with store := L.store.putPosition p' }.Holds codec id p' a := by
      refine ⟨?_, hp.account⟩
      change (L.store.positions.insert _ p')[id]? = _
      rw [hL.indexed.insert_eq hp.stored (Position.sameIdentity_clearExit p accrual),
        getElem?_insert_eq, if_pos rfl]
    rcases hcase with ⟨⟨v, s, hstake, hsettled⟩, rfl⟩ | ⟨hidle, _⟩
    · obtain ⟨tier, hearns⟩ := Earns.of_holds hL hp hstake
      obtain ⟨htotal, _⟩ := hB.settled hL hp hstake hsettled
      have hseq : p'.lastEventSeq = (L.store.putPosition p').getValidatorEventLatestSeq v :=
        hsettled.seq
      have hreplay : (L.store.putPosition p').replay p' s tier v = Replay.start p' :=
        Store.replay_of_latest (fun n e ↦ hL'.logged.bound v n e) hseq s tier
      refine .of_earns ⟨hholds, hstake, hearns.tierStored⟩ ?_ ?_
      · rw [hreplay, htotal]
        exact (add_zero _).symm
      · rw [hreplay]
        exact Or.inl (hsince p a v s tier hearns).symm
    · exact .of_rests (hholds.rests hidle) (hB.resting (hp.rests hidle))

/-- A step keeps the books of a position that the reference does not credit at it. -/
theorem Step.books_kept (h : Step codec L op L') (hL : L.Sound codec) (hB : L.Books codec id c)
    (hcreate : ∀ exiting, op ≠ .create id exiting)
    (hsettle : ∀ v rate covered, op ≠ .settle id v rate covered)
    (hclear : op = .clear id → ∀ p a v s tier, L.Earns codec id p a v s tier → c.since = L.now)
    (hrecord : ∀ p a v s tier, L.Earns codec id p a v s tier → ∀ eventType rate,
      op ≠ .record v eventType rate) : L'.Books codec id c := by
  by_cases htarget : op.target = some id
  · cases op with
    | create j exiting =>
      obtain rfl := Option.some.inj htarget
      exact absurd rfl (hcreate exiting)
    | settle j v rate covered =>
      obtain rfl := Option.some.inj htarget
      exact absurd rfl (hsettle v rate covered)
    | reshare j =>
      obtain rfl := Option.some.inj htarget
      exact hB.of_reshare h hL
    | leave j =>
      obtain rfl := Option.some.inj htarget
      exact hB.of_leave h hL
    | move j =>
      obtain rfl := Option.some.inj htarget
      exact hB.of_move h hL
    | remove j =>
      obtain rfl := Option.some.inj htarget
      exact hB.of_remove h hL
    | trigger j =>
      obtain rfl := Option.some.inj htarget
      exact hB.of_trigger h hL
    | clear j =>
      obtain rfl := Option.some.inj htarget
      exact hB.of_clear h hL (hclear rfl)
    | outside | tick | params | setTier | deleteTier | record | status | dropSeq | mature =>
      cases htarget
  · by_cases hset : ∃ tier', op = .setTier tier'
    · obtain ⟨tier', rfl⟩ := hset
      exact hB.of_setTier h hL
    · exact hB.of_untouched h hL htarget (fun tier' heq ↦ absurd ⟨tier', heq⟩ hset) hrecord

/-! ### Steps that give a credit -/

/-- What a settlement pays brings the position to what the reference credits. -/
theorem Books.bonus_eq (hB : L.Books codec id c) (hL : L.Sound codec)
    (h : L.Earns codec id p a v s tier) (rate : Dec) :
    L.paid id + L.store.bonus p s tier v (L.bonded v) rate L.now =
      (c.segment p s tier (L.bonded v) rate L.now).total := by
  obtain ⟨htotal, hstart⟩ := hB.earning p a v s tier h
  unfold Store.bonus Replay.finish Credit.segment
  rw [hL.tracked id p a v s tier h.holds h.stake, Bool.and_self,
    computeSegmentBonus_sameStart hstart s tier L.now rate, htotal]
  by_cases hbonded : L.bonded v
  · simp only [hbonded, if_true]
    rw [add_assoc]
  · simp only [hbonded, if_false, Bool.false_eq_true]
    rw [add_zero]

theorem Step.books_settle {rate : Dec} (h : Step codec L (.settle id v rate true) L')
    (hL : L.Sound codec) (hB : L.Books codec id c) (hearns : L.Earns codec id p a v s tier) :
    L'.Books codec id (c.segment p s tier (L.bonded v) rate L.now) ∧
      (c.segment p s tier (L.bonded v) rate L.now).total = L'.paid id := by
  have hL' := h.sound hL
  cases h with
  | settle _ _ hp hstake htier =>
    obtain ⟨rfl, rfl, _, rfl, rfl⟩ := Earns.unique ⟨hp, hstake, htier⟩ hearns
    set p' := L.store.settled p s tier v L.now with hp'
    have hpaid : (c.segment p s tier (L.bonded v) rate L.now).total =
        Function.update L.paid id
          (L.paid id + L.store.bonus p s tier v (L.bonded v) rate L.now) id := by
      rw [Function.update_self]
      exact (hB.bonus_eq hL hearns rate).symm
    refine ⟨?_, hpaid⟩
    have hstored : ((L.store.replayed p v).putPosition p').positions[id]? = some p' := by
      change (L.store.positions.insert _ p')[id]? = _
      rw [hL.indexed.insert_eq hp.stored (Position.sameIdentity_settled _ _ _ _ _ _),
        getElem?_insert_eq, if_pos rfl]
    have hreplay : ((L.store.replayed p v).putPosition p').replay p' s tier v = Replay.start p' :=
      Store.replay_of_latest (fun n e ↦ hL'.logged.bound v n e)
        (hL.logged.replay_lastEventSeq hp.stored (hstake.isStaked hp.account) s tier) s tier
    refine .of_earns ⟨⟨hstored, hp.account⟩, hstake, htier⟩ ?_ ?_
    · rw [hreplay]
      exact hpaid.trans (add_zero _).symm
    · rw [hreplay]
      change p'.SameStart
        (if p.completedExitLockDuration L.now then p.exitUnlockAt else L.now) L.now
      by_cases hlock : p.completedExitLockDuration L.now
      · rw [if_pos hlock]
        unfold Position.completedExitLockDuration at hlock
        rw [Bool.and_eq_true, decide_eq_true_eq, decide_eq_true_eq] at hlock
        exact Or.inr ⟨hlock.1, le_refl _, hlock.2⟩
      · rw [if_neg hlock]
        exact Or.inl rfl

/-- An event that is recorded closes a segment of every position of the validator. -/
theorem Step.books_record {eventType : ValidatorEventType} {rate : Dec}
    (h : Step codec L (.record v eventType rate) L') (hL : L.Sound codec) (hB : L.Books codec id c)
    (hearns : L.Earns codec id p a v s tier) :
    L'.Books codec id (c.segment p s tier (L.bonded v) rate L.now) := by
  cases h with
  | record _ _ _ height _ _ =>
    obtain ⟨htotal, hstart⟩ := hB.earning p a v s tier hearns
    have hle := hL.logged.seq_le id p v hearns.holds.stored
      (hearns.stake.isStaked hearns.holds.account)
    have hreplay : (L.store.appendValidatorEvent v ⟨height, L.now, eventType, rate,
        L.store.getPositionCountForValidator v⟩).replay p s tier v = _ :=
      Store.replay_append (fun n e ↦ hL.logged.bound v n e) hle s tier
    refine .of_earns ⟨⟨hearns.holds.stored, hearns.holds.account⟩, hearns.stake, hearns.tierStored⟩
      ?_ ?_
    · rw [hreplay]
      unfold Replay.event Credit.segment
      rw [hL.tracked id p a v s tier hearns.holds hearns.stake,
        computeSegmentBonus_sameStart hstart s tier L.now rate, htotal]
      by_cases hbonded : L.bonded v
      · simp only [hbonded, if_true]
        rw [add_assoc]
      · simp only [hbonded, if_false, Bool.false_eq_true]
        rw [add_zero]
    · rw [hreplay]
      exact Or.inl rfl

theorem Step.books_create {exiting : Bool} (h : Step codec L (.create id exiting) L')
    (hL : L.Sound codec) (hB : L.Books codec id c) : L'.Books codec id ⟨c.total, L.now⟩ := by
  have hL' := h.sound hL
  have hpaid : L'.paid id = L.paid id := h.paid_eq (by simp)
  cases h with
  | @create _ p a owner v s tier _ hfresh _ _ haddress _ _ _ _ hstake _ _ hstore =>
    have hnew : ∀ q b u t tier', ¬ L.Earns codec p.id q b u t tier' := by
      intro q b u t tier' hearns
      have hlt := hL.indexed.id_lt p.id q hearns.holds.stored
      rw [hfresh.id] at hlt
      exact lt_irrefl _ hlt
    have hp : L'.Holds codec p.id p a := by
      refine ⟨?_, ?_⟩
      · rw [congrArg Store.positions hstore]
        exact (getElem?_insert_eq _ _ _ _).trans (if_pos rfl)
      · rw [haddress]
        exact codec.stringToBytes_bytesToString a
    have hseq : p.lastEventSeq = L'.store.getValidatorEventLatestSeq v := by
      rw [hfresh.seq, hstore]
      rfl
    obtain ⟨tier', hearns⟩ := Earns.of_holds hL' hp hstake
    have hreplay : L'.store.replay p s tier' v = Replay.start p :=
      Store.replay_of_latest (fun n e ↦ hL'.logged.bound v n e) hseq s tier'
    refine .of_earns hearns ?_ ?_
    · rw [hreplay, hpaid]
      exact (hB.resting hnew).trans (add_zero _).symm
    · rw [hreplay]
      exact Or.inl hfresh.accrual

end Ledger

end ChainMain.TieredRewards
