import ChainMain.TieredRewards.EventLog
import ChainMain.TieredRewards.LedgerStakes

/-!
# Reference counts of validator events

`Ledger.Logged` ties the event log to the positions: the reference count of an event is the number
of positions staked on its validator that have not replayed it, every event a position has still to
replay is stored, and the events of a validator are ordered in time. It survives every step of the
ledger. The case that matters is `settle`: the position leaves the count of exactly the events from
which the replay takes a reference.
-/

set_option autoImplicit false

namespace ChainMain.TieredRewards

open Foundations Decimal OrderedStore

namespace Ledger

variable {codec : AddressCodec} {L L' : Ledger}

/-- A position is staked on a validator and has not replayed the event with a sequence number. -/
def pending (codec : AddressCodec) (L : Ledger) (v : ValAddress) (seq : ℕ) (p : Position) : Bool :=
  L.staked codec v p && decide (p.lastEventSeq < seq)

/-- The number of positions that have to replay an event. -/
def pendingCount (codec : AddressCodec) (L : Ledger) (v : ValAddress) (seq : ℕ) : ℕ :=
  count (fun _ p ↦ L.pending codec v seq p) L.store.positions

/-- The event log agrees with the positions. -/
structure Logged (codec : AddressCodec) (L : Ledger) : Prop where
  referenceCount : ∀ (v : ValAddress) (n : ℕ) (e : ValidatorEvent),
    L.store.validatorEvents[(v, n)]? = some e →
      e.referenceCount = L.pendingCount codec v n ∧ 1 ≤ e.referenceCount
  bound : ∀ (v : ValAddress) (n : ℕ) (e : ValidatorEvent),
    L.store.validatorEvents[(v, n)]? = some e → n ≤ L.store.getValidatorEventLatestSeq v
  seq_le : ∀ (i : ℕ) (p : Position) (v : ValAddress), L.store.positions[i]? = some p →
    L.staked codec v p → p.lastEventSeq ≤ L.store.getValidatorEventLatestSeq v
  complete : ∀ (i : ℕ) (p : Position) (v : ValAddress) (n : ℕ), L.store.positions[i]? = some p →
    L.pending codec v n p → n ≤ L.store.getValidatorEventLatestSeq v →
      ∃ e, L.store.validatorEvents[(v, n)]? = some e
  timestamp_le : ∀ (v : ValAddress) (n : ℕ) (e : ValidatorEvent),
    L.store.validatorEvents[(v, n)]? = some e → e.timestamp ≤ L.now
  monotone : ∀ (v : ValAddress) (n n' : ℕ) (e e' : ValidatorEvent),
    L.store.validatorEvents[(v, n)]? = some e → L.store.validatorEvents[(v, n')]? = some e' →
      n ≤ n' → e.timestamp ≤ e'.timestamp

theorem pendingCount_gt_one {i j : ℕ} {p q : Position} {v : ValAddress} {n : ℕ}
    (hp : L.store.positions[i]? = some p) (hq : L.store.positions[j]? = some q) (hij : i ≠ j)
    (hpend : L.pending codec v n p) (hpend' : L.pending codec v n q) :
    1 < L.pendingCount codec v n := by
  have hrest : (L.store.positions.erase i)[j]? = some q := by rw [getElem?_erase_ne hij, hq]
  have hone := count_erase (fun _ r ↦ L.pending codec v n r) hp
  have htwo := count_erase (fun _ r ↦ L.pending codec v n r) hrest
  rw [if_pos hpend] at hone
  rw [if_pos hpend'] at htwo
  unfold pendingCount
  omega

theorem pending_iff {v : ValAddress} {n : ℕ} {p : Position} :
    L.pending codec v n p ↔ L.staked codec v p ∧ p.lastEventSeq < n := by
  unfold pending
  rw [Bool.and_eq_true, decide_eq_true_eq]

/-! ### Steps that leave the log alone -/

/-- How the number of positions that have to replay an event changes when one position is
replaced. -/
theorem pendingCount_put (hacc : L.Accounted codec) {i : ℕ} {p q : Position} {a : AccAddress}
    (hp : L.Holds codec i p a) (hput : L'.store.positions = L.store.positions.insert i q)
    (hstakes : ∀ b, L.Held codec b → b ≠ a → L'.stakes b = L.stakes b) (v : ValAddress) (n : ℕ) :
    L'.pendingCount codec v n + (if L.pending codec v n p then 1 else 0) =
      L.pendingCount codec v n + if L'.pending codec v n q then 1 else 0 := by
  have hother : ∀ (j : ℕ) (r : Position), j ≠ i → L.store.positions[j]? = some r →
      L'.pending codec v n r = L.pending codec v n r := by
    intro j r hj hr
    unfold pending
    rw [staked_other hacc hp hstakes v j r hj hr]
  unfold pendingCount
  rw [hput]
  exact count_update hp.stored q hother

/-- The log stays right when one position is replaced, provided that the position counts for the
same events as before and has no event to replay that is not stored. -/
theorem Logged.of_put (hL : L.Logged codec) (hacc : L.Accounted codec) {i : ℕ} {p q : Position}
    {a : AccAddress} (hp : L.Holds codec i p a)
    (hput : L'.store.positions = L.store.positions.insert i q)
    (hstakes : ∀ b, L.Held codec b → b ≠ a → L'.stakes b = L.stakes b) (hnow : L'.now = L.now)
    (hevents : L'.store.validatorEvents = L.store.validatorEvents)
    (hseqs : L'.store.validatorEventSeq = L.store.validatorEventSeq)
    (hpending : ∀ v n, n ≤ L.store.getValidatorEventLatestSeq v →
      L'.pending codec v n q = L.pending codec v n p)
    (hseq : ∀ v, L'.staked codec v q → q.lastEventSeq ≤ L.store.getValidatorEventLatestSeq v) :
    L'.Logged codec := by
  have hlatest : ∀ v, L'.store.getValidatorEventLatestSeq v =
      L.store.getValidatorEventLatestSeq v := by
    intro v
    unfold Store.getValidatorEventLatestSeq
    rw [hseqs]
  have hcases : ∀ (j : ℕ) (r : Position), L'.store.positions[j]? = some r →
      (j = i ∧ r = q) ∨ (j ≠ i ∧ L.store.positions[j]? = some r) :=
    fun _ _ hr ↦ eq_or_getElem?_of_insert (hput ▸ hr)
  refine ⟨?_, ?_, ?_, ?_, ?_, ?_⟩
  · intro v n e he
    rw [hevents] at he
    obtain ⟨hcount, hpos⟩ := hL.referenceCount v n e he
    have hmove := pendingCount_put hacc hp hput hstakes v n
    rw [hpending v n (hL.bound v n e he)] at hmove
    exact ⟨by omega, hpos⟩
  · intro v n e he
    rw [hevents] at he
    rw [hlatest]
    exact hL.bound v n e he
  · intro j r v hr hstaked
    rw [hlatest]
    rcases hcases j r hr with ⟨rfl, rfl⟩ | ⟨hj, hold⟩
    · exact hseq v hstaked
    · rw [staked_other hacc hp hstakes v j r hj hold] at hstaked
      exact hL.seq_le j r v hold hstaked
  · intro j r v n hr hpend hn
    rw [hlatest] at hn
    rw [hevents]
    rcases hcases j r hr with ⟨rfl, rfl⟩ | ⟨hj, hold⟩
    · rw [hpending v n hn] at hpend
      exact hL.complete j p v n hp.stored hpend hn
    · unfold pending at hpend
      rw [staked_other hacc hp hstakes v j r hj hold] at hpend
      exact hL.complete j r v n hold hpend hn
  · intro v n e he
    rw [hevents] at he
    rw [hnow]
    exact hL.timestamp_le v n e he
  · intro v n n' e e' he he' hle
    rw [hevents] at he he'
    exact hL.monotone v n n' e e' he he' hle

/-- The log stays right when the positions, their stake and the log itself stay. -/
theorem Logged.of_same (hL : L.Logged codec) (hnow : L.now ≤ L'.now)
    (hpositions : L'.store.positions = L.store.positions)
    (hevents : L'.store.validatorEvents = L.store.validatorEvents)
    (hseqs : L'.store.validatorEventSeq = L.store.validatorEventSeq)
    (hstakes : ∀ a, L.Held codec a → L'.stakes a = L.stakes a) : L'.Logged codec := by
  have hlatest : ∀ v, L'.store.getValidatorEventLatestSeq v =
      L.store.getValidatorEventLatestSeq v := by
    intro v
    unfold Store.getValidatorEventLatestSeq
    rw [hseqs]
  have hstaked : ∀ (j : ℕ) (r : Position) (v : ValAddress), L.store.positions[j]? = some r →
      L'.staked codec v r = L.staked codec v r := by
    intro j r v hr
    cases hb : codec.stringToBytes r.delegatorAddress with
    | none => simp [staked, hb]
    | some b => rw [staked_eq hb, staked_eq hb, hstakes b ⟨j, r, hr, hb⟩]
  refine ⟨?_, ?_, ?_, ?_, ?_, ?_⟩
  · intro v n e he
    rw [hevents] at he
    obtain ⟨hcount, hpos⟩ := hL.referenceCount v n e he
    refine ⟨hcount.trans ?_, hpos⟩
    unfold pendingCount
    rw [hpositions]
    refine count_congr fun j r hr ↦ ?_
    unfold pending
    rw [hstaked j r v hr]
  · intro v n e he
    rw [hevents] at he
    rw [hlatest]
    exact hL.bound v n e he
  · intro j r v hr hstake
    rw [hpositions] at hr
    rw [hstaked j r v hr] at hstake
    rw [hlatest]
    exact hL.seq_le j r v hr hstake
  · intro j r v n hr hpend hn
    rw [hpositions] at hr
    rw [hlatest] at hn
    rw [hevents]
    unfold pending at hpend
    rw [hstaked j r v hr] at hpend
    exact hL.complete j r v n hr hpend hn
  · intro v n e he
    rw [hevents] at he
    exact le_trans (hL.timestamp_le v n e he) hnow
  · intro v n n' e e' he he' hle
    rw [hevents] at he he'
    exact hL.monotone v n n' e e' he he' hle

/-! ### Settling -/

/-- A position that is behind has the latest event of its validator pending. -/
theorem Logged.latest_mem (hL : L.Logged codec) {i : ℕ} {p : Position} {v : ValAddress}
    (hp : L.store.positions[i]? = some p) (hstaked : L.staked codec v p)
    (hbehind : p.lastEventSeq < L.store.getValidatorEventLatestSeq v) :
    ∃ e, (⟨L.store.getValidatorEventLatestSeq v, e⟩ : EventEntry) ∈
      L.store.getValidatorEventsSince v p.lastEventSeq := by
  obtain ⟨e, he⟩ := hL.complete i p v _ hp (pending_iff.mpr ⟨hstaked, hbehind⟩) le_rfl
  exact ⟨e, mem_getValidatorEventsSince.mpr ⟨hbehind, he⟩⟩

theorem Logged.replay_lastEventSeq (hL : L.Logged codec) {i : ℕ} {p : Position} {v : ValAddress}
    (hp : L.store.positions[i]? = some p) (hstaked : L.staked codec v p) (shares : Dec)
    (tier : Tier) :
    (L.store.replay p shares tier v).lastEventSeq = L.store.getValidatorEventLatestSeq v := by
  have hle := hL.seq_le i p v hp hstaked
  unfold Store.replay
  rw [TieredRewards.replay_lastEventSeq]
  cases hlast : (L.store.getValidatorEventsSince v p.lastEventSeq).getLast? with
  | none =>
    change p.lastEventSeq = L.store.getValidatorEventLatestSeq v
    by_contra hne
    obtain ⟨e, hmem⟩ := hL.latest_mem hp hstaked (lt_of_le_of_ne hle hne)
    rw [List.getLast?_eq_none_iff.mp hlast] at hmem
    cases hmem
  | some entry =>
    change entry.seq = L.store.getValidatorEventLatestSeq v
    obtain ⟨hlt, hstored⟩ := mem_getValidatorEventsSince.mp (List.mem_of_getLast? hlast)
    have hbound := hL.bound v entry.seq entry.event hstored
    obtain ⟨e, hmem⟩ := hL.latest_mem hp hstaked (lt_of_lt_of_le hlt hbound)
    have hmax :=
      seq_le_getLast (pairwise_getValidatorEventsSince L.store v p.lastEventSeq) hlast hmem
    exact le_antisymm hbound hmax

theorem dropReference_eq_some {event : Option ValidatorEvent} {e : ValidatorEvent}
    (h : dropReference event = some e) :
    ∃ e₀, event = some e₀ ∧ 1 < e₀.referenceCount ∧ e.referenceCount + 1 = e₀.referenceCount ∧
      e.timestamp = e₀.timestamp := by
  cases event with
  | none => cases h
  | some e₀ =>
    rw [dropReference_some] at h
    split_ifs at h with hlast
    obtain rfl := Option.some.inj h
    refine ⟨e₀, rfl, by omega, ?_, rfl⟩
    change e₀.referenceCount - 1 + 1 = e₀.referenceCount
    omega

theorem Logged.of_settle (hL : L.Logged codec) (hindex : L.store.Indexed codec)
    (hacc : L.Accounted codec) {i : ℕ} {p : Position} {a : AccAddress} {v : ValAddress} {s : Dec}
    (hp : L.Holds codec i p a) (hstake : L.StakedOn a v s) (tier : Tier) :
    { L with
      store := (L.store.replayed p v).putPosition
        (L.store.settled p s tier v L.now) }.Logged codec := by
  set q := L.store.settled p s tier v L.now with hq
  set L₁ : Ledger := { L with store := (L.store.replayed p v).putPosition q } with hL₁
  have hstaked : ∀ u, L.staked codec u p = decide (u = v) := hstake.staked hp.account
  have hstaked' : ∀ u, L₁.staked codec u q = decide (u = v) := hstaked
  have hqseq : q.lastEventSeq = L.store.getValidatorEventLatestSeq v :=
    hL.replay_lastEventSeq hp.stored (by rw [hstaked]; simp) s tier
  have hput : L₁.store.positions = L.store.positions.insert i q := by
    rw [← hindex.insert_eq hp.stored (Position.sameIdentity_settled L.store p s tier v L.now)]
    rfl
  have hothers : ∀ b, L.Held codec b → b ≠ a → L₁.stakes b = L.stakes b := fun _ _ _ ↦ rfl
  have hevents : ∀ (u : ValAddress) (n : ℕ), L₁.store.validatorEvents[(u, n)]? =
      if u = v ∧ p.lastEventSeq < n then dropReference L.store.validatorEvents[(u, n)]?
      else L.store.validatorEvents[(u, n)]? := fun u n ↦ getElem?_replayed L.store p v u n
  have hback : ∀ (u : ValAddress) (n : ℕ) (e : ValidatorEvent),
      L₁.store.validatorEvents[(u, n)]? = some e → ∃ e₀ : ValidatorEvent,
        L.store.validatorEvents[(u, n)]? = some e₀ ∧ e.timestamp = e₀.timestamp := by
    intro u n e he
    rw [hevents] at he
    split_ifs at he
    · obtain ⟨e₀, he₀, _, _, htime⟩ := dropReference_eq_some he
      exact ⟨e₀, he₀, htime⟩
    · exact ⟨e, he, rfl⟩
  have hcases : ∀ (j : ℕ) (r : Position), L₁.store.positions[j]? = some r →
      (j = i ∧ r = q) ∨ (j ≠ i ∧ L.store.positions[j]? = some r) :=
    fun _ _ hr ↦ eq_or_getElem?_of_insert (hput ▸ hr)
  refine ⟨?_, ?_, ?_, ?_, ?_, ?_⟩
  · intro u n e he
    have hmove := pendingCount_put hacc hp hput hothers u n
    unfold pending at hmove
    rw [hstaked, hstaked', hqseq] at hmove
    rw [hevents] at he
    split_ifs at he with hcond
    · obtain ⟨rfl, hlt⟩ := hcond
      obtain ⟨e₀, he₀, hmany, hless, _⟩ := dropReference_eq_some he
      obtain ⟨hcount, _⟩ := hL.referenceCount u n e₀ he₀
      have hbound := hL.bound u n e₀ he₀
      simp only [decide_true, hlt, Bool.and_self, if_true, Bool.true_and,
        decide_eq_false (not_lt.mpr hbound), Bool.false_eq_true, if_false] at hmove
      constructor <;> omega
    · obtain ⟨hcount, hpos⟩ := hL.referenceCount u n e he
      have hbound := hL.bound u n e he
      refine ⟨?_, hpos⟩
      by_cases hu : u = v
      · subst hu
        have hlt : ¬ p.lastEventSeq < n := fun h ↦ hcond ⟨rfl, h⟩
        simp only [decide_true, hlt, decide_false, Bool.and_false, Bool.false_eq_true, if_false,
          decide_eq_false (not_lt.mpr hbound)] at hmove
        omega
      · simp only [hu, decide_false, Bool.false_and, Bool.false_eq_true, if_false] at hmove
        omega
  · intro u n e he
    obtain ⟨e₀, he₀, _⟩ := hback u n e he
    exact hL.bound u n e₀ he₀
  · intro j r u hr hst
    rcases hcases j r hr with ⟨rfl, rfl⟩ | ⟨hj, hold⟩
    · rw [hstaked', decide_eq_true_eq] at hst
      rw [hst]
      exact hqseq.le
    · exact hL.seq_le j r u hold hst
  · intro j r u n hr hpend hn
    rw [hevents]
    rcases hcases j r hr with ⟨rfl, rfl⟩ | ⟨hj, hold⟩
    · obtain ⟨hst, hlt⟩ := pending_iff.mp hpend
      rw [hstaked', decide_eq_true_eq] at hst
      subst hst
      change n ≤ L.store.getValidatorEventLatestSeq u at hn
      omega
    · obtain ⟨e, he⟩ := hL.complete j r u n hold hpend hn
      split_ifs with hcond
      · obtain ⟨rfl, hlt⟩ := hcond
        obtain ⟨hcount, _⟩ := hL.referenceCount u n e he
        have htwo : 1 < L.pendingCount codec u n :=
          pendingCount_gt_one hp.stored hold (Ne.symm hj)
            (pending_iff.mpr ⟨by rw [hstaked]; simp, hlt⟩) hpend
        rw [he, dropReference_some, if_neg (by omega)]
        exact ⟨_, rfl⟩
      · exact ⟨e, he⟩
  · intro u n e he
    obtain ⟨e₀, he₀, htime⟩ := hback u n e he
    rw [htime]
    exact hL.timestamp_le u n e₀ he₀
  · intro u n n' e e' he he' hle
    obtain ⟨e₀, he₀, htime⟩ := hback u n e he
    obtain ⟨e₀', he₀', htime'⟩ := hback u n' e' he'
    rw [htime, htime']
    exact hL.monotone u n n' e₀ e₀' he₀ he₀' hle

theorem Logged.settled (hL : L.Logged codec) {i : ℕ} {p : Position} {a : AccAddress}
    {v : ValAddress} {s : Dec} (hp : L.Holds codec i p a) (hstake : L.StakedOn a v s) (tier : Tier)
    (hbonded : (L.store.replay p s tier v).bonded = L.bonded v) :
    { L with
      store := (L.store.replayed p v).putPosition (L.store.settled p s tier v L.now) }.Settled
        (L.store.settled p s tier v L.now) v := by
  refine ⟨?_, hbonded, rfl⟩
  exact hL.replay_lastEventSeq hp.stored (by rw [hstake.staked hp.account]; simp) s tier

/-! ### The other steps -/

theorem Settled.not_pending {p : Position} {a : AccAddress} {v : ValAddress} {s : Dec}
    (h : L.Settled p v) (hp : codec.stringToBytes p.delegatorAddress = some a)
    (hstake : L.StakedOn a v s) (u : ValAddress) (n : ℕ)
    (hn : n ≤ L.store.getValidatorEventLatestSeq u) : L.pending codec u n p = false := by
  unfold pending
  rw [hstake.staked hp, h.seq]
  by_cases hu : u = v
  · subst hu
    rw [decide_eq_false (not_lt.mpr hn), Bool.and_false]
  · rw [decide_eq_false hu, Bool.false_and]

theorem Logged.of_create (hL : L.Logged codec) (hindex : L.store.Indexed codec)
    (hacc : L.Accounted codec) {p : Position} {a : AccAddress} {v : ValAddress} {s : Dec}
    {tier : Tier} {exiting : Bool} (hfresh : L.Fresh p v tier exiting)
    (hp : codec.stringToBytes p.delegatorAddress = some a) (hstake : L'.StakedOn a v s)
    (hframe : Frame codec none L L')
    (hpositions : L'.store.positions = L.store.positions.insert p.id p)
    (hevents : L'.store.validatorEvents = L.store.validatorEvents)
    (hseqs : L'.store.validatorEventSeq = L.store.validatorEventSeq) : L'.Logged codec := by
  have hlatest : ∀ u, L'.store.getValidatorEventLatestSeq u =
      L.store.getValidatorEventLatestSeq u := by
    intro u
    unfold Store.getValidatorEventLatestSeq
    rw [hseqs]
  have hnone : L.store.positions[p.id]? = none := by
    cases hq : L.store.positions[p.id]? with
    | none => rfl
    | some q =>
      have := hindex.id_lt _ q hq
      have := hfresh.id
      omega
  have hstaked : ∀ (j : ℕ) (r : Position) (u : ValAddress), L.store.positions[j]? = some r →
      L'.staked codec u r = L.staked codec u r := by
    intro j r u hr
    obtain ⟨b, hb, _, _⟩ := hacc.holds hr
    rw [staked_eq hb.account, staked_eq hb.account, hframe.stakes b hb.held (by simp)]
  have hnew : ∀ (u : ValAddress) (n : ℕ), n ≤ L.store.getValidatorEventLatestSeq u →
      L'.pending codec u n p = false := by
    intro u n hn
    unfold pending
    rw [hstake.staked hp, hfresh.seq]
    by_cases hu : u = v
    · subst hu
      rw [decide_eq_false (not_lt.mpr hn), Bool.and_false]
    · rw [decide_eq_false hu, Bool.false_and]
  have hcases : ∀ (j : ℕ) (r : Position), L'.store.positions[j]? = some r →
      (j = p.id ∧ r = p) ∨ L.store.positions[j]? = some r :=
    fun _ _ hr ↦ (eq_or_getElem?_of_insert (hpositions ▸ hr)).imp_right And.right
  refine ⟨?_, ?_, ?_, ?_, ?_, ?_⟩
  · intro u n e he
    rw [hevents] at he
    obtain ⟨hcount, hpos⟩ := hL.referenceCount u n e he
    refine ⟨hcount.trans ?_, hpos⟩
    unfold pendingCount
    rw [hpositions, count_insert_of_none _ hnone, hnew u n (hL.bound u n e he), if_neg (by simp),
      Nat.add_zero]
    refine count_congr fun j r hr ↦ ?_
    unfold pending
    rw [hstaked j r u hr]
  · intro u n e he
    rw [hevents] at he
    rw [hlatest]
    exact hL.bound u n e he
  · intro j r u hr hst
    rw [hlatest]
    rcases hcases j r hr with ⟨rfl, rfl⟩ | hold
    · rw [hstake.staked hp, decide_eq_true_eq] at hst
      rw [hst, hfresh.seq]
    · rw [hstaked j r u hold] at hst
      exact hL.seq_le j r u hold hst
  · intro j r u n hr hpend hn
    rw [hlatest] at hn
    rw [hevents]
    rcases hcases j r hr with ⟨rfl, rfl⟩ | hold
    · rw [hnew u n hn] at hpend
      cases hpend
    · unfold pending at hpend
      rw [hstaked j r u hold] at hpend
      exact hL.complete j r u n hold hpend hn
  · intro u n e he
    rw [hevents] at he
    rw [hframe.now]
    exact hL.timestamp_le u n e he
  · intro u n n' e e' he he' hle
    rw [hevents] at he he'
    exact hL.monotone u n n' e e' he he' hle

/-- A recorded event counts every position staked on the validator. -/
theorem Logged.of_record (hL : L.Logged codec) (hcoh : L.Coherent codec) (v : ValAddress)
    (eventType : ValidatorEventType) (rate : Dec) (height : ℤ)
    (hcount : L.store.getPositionCountForValidator v ≠ 0) (bonded : ValAddress → Bool) :
    { L with
      store := L.store.appendValidatorEvent v ⟨height, L.now, eventType, rate,
        L.store.getPositionCountForValidator v⟩
      bonded := bonded }.Logged codec := by
  set event : ValidatorEvent := ⟨height, L.now, eventType, rate,
    L.store.getPositionCountForValidator v⟩ with hevent
  set latest := L.store.getValidatorEventLatestSeq v with hlatest
  have hsize : L.store.getPositionCountForValidator v = L.validatorSize codec v :=
    hcoh.counted.getD_eq v
  have hevents : ∀ (u : ValAddress) (n : ℕ),
      (L.store.appendValidatorEvent v event).validatorEvents[(u, n)]? =
        if (v, latest + 1) = (u, n) then some event else L.store.validatorEvents[(u, n)]? :=
    fun u n ↦ getElem?_insert_eq _ _ _ _
  have hseqs : ∀ u, (L.store.appendValidatorEvent v event).getValidatorEventLatestSeq u =
      if v = u then latest + 1 else L.store.getValidatorEventLatestSeq u := by
    intro u
    change ((L.store.validatorEventSeq.insert v (latest + 1))[u]?).getD 0 = _
    rw [getElem?_insert_eq]
    split_ifs with hu
    · rfl
    · rfl
  have hcases : ∀ (u : ValAddress) (n : ℕ) (e : ValidatorEvent),
      (L.store.appendValidatorEvent v event).validatorEvents[(u, n)]? = some e →
        (u = v ∧ n = latest + 1 ∧ e = event) ∨ L.store.validatorEvents[(u, n)]? = some e := by
    intro u n e he
    rw [hevents] at he
    split_ifs at he with hkey
    · obtain ⟨rfl, rfl⟩ := Prod.mk.inj hkey
      exact Or.inl ⟨rfl, rfl, (Option.some.inj he).symm⟩
    · exact Or.inr he
  have hle : ∀ u, L.store.getValidatorEventLatestSeq u ≤
      (L.store.appendValidatorEvent v event).getValidatorEventLatestSeq u := by
    intro u
    rw [hseqs]
    split_ifs with hu
    · subst hu
      omega
    · exact le_rfl
  refine ⟨?_, ?_, ?_, ?_, ?_, ?_⟩
  · intro u n e he
    rcases hcases u n e he with ⟨rfl, rfl, rfl⟩ | hold
    · have hall : L.pendingCount codec u (latest + 1) = L.validatorSize codec u := by
        refine count_congr fun j r hr ↦ ?_
        cases hst : L.staked codec u r with
        | false => simp [pending, hst]
        | true =>
          have := hL.seq_le j r u hr hst
          exact pending_iff.mpr ⟨hst, by omega⟩
      have hrefs : L.store.getPositionCountForValidator u =
          L.pendingCount codec u (latest + 1) := by
        rw [hall, hsize]
      exact ⟨hrefs, Nat.one_le_iff_ne_zero.mpr hcount⟩
    · exact hL.referenceCount u n e hold
  · intro u n e he
    rcases hcases u n e he with ⟨rfl, rfl, rfl⟩ | hold
    · change latest + 1 ≤ (L.store.appendValidatorEvent u event).getValidatorEventLatestSeq u
      rw [hseqs, if_pos rfl]
    · exact le_trans (hL.bound u n e hold) (hle u)
  · intro j r u hr hst
    exact le_trans (hL.seq_le j r u hr hst) (hle u)
  · intro j r u n hr hpend hn
    change n ≤ (L.store.appendValidatorEvent v event).getValidatorEventLatestSeq u at hn
    change ∃ e, (L.store.appendValidatorEvent v event).validatorEvents[(u, n)]? = some e
    rw [hseqs] at hn
    rw [hevents]
    split_ifs with hkey
    · exact ⟨event, rfl⟩
    · have hn' : n ≤ L.store.getValidatorEventLatestSeq u := by
        split_ifs at hn with hu
        · subst hu
          have hne : n ≠ latest + 1 := fun h ↦ hkey (by rw [h])
          omega
        · exact hn
      exact hL.complete j r u n hr hpend hn'
  · intro u n e he
    rcases hcases u n e he with ⟨_, _, rfl⟩ | hold
    · exact le_rfl
    · exact hL.timestamp_le u n e hold
  · intro u n n' e e' he he' hnn
    rcases hcases u n e he with ⟨rfl, rfl, rfl⟩ | hold
    · rcases hcases u n' e' he' with ⟨_, _, rfl⟩ | hold'
      · exact le_rfl
      · have := hL.bound u n' e' hold'
        omega
    · rcases hcases u n' e' he' with ⟨_, _, rfl⟩ | hold'
      · exact hL.timestamp_le u n e hold
      · exact hL.monotone u n n' e e' hold hold' hnn

/-- The sequence of a removed validator goes only when none of its events is left. -/
theorem Logged.of_dropSeq (hL : L.Logged codec) (v : ValAddress)
    (hempty : ∀ a, L.Held codec a → L.stakes a v = none) :
    { L with store := L.store.afterValidatorRemoved v }.Logged codec := by
  have hkept : ∀ (u : ValAddress) (n : ℕ) (e : ValidatorEvent),
      L.store.validatorEvents[(u, n)]? = some e →
        (L.store.afterValidatorRemoved v).getValidatorEventLatestSeq u =
          L.store.getValidatorEventLatestSeq u := by
    intro u n e he
    change ((if L.store.hasValidatorEvents v then L.store.validatorEventSeq
      else L.store.validatorEventSeq.erase v)[u]?).getD 0 = _
    split_ifs with hhas
    · rfl
    · have hne : v ≠ u := by
        rintro rfl
        apply hhas
        unfold Store.hasValidatorEvents
        rw [List.any_eq_true]
        exact ⟨((v, n), e), mem_toList.mpr he, beq_self_eq_true v⟩
      rw [getElem?_erase_ne hne]
      rfl
  have hother : ∀ (j : ℕ) (r : Position) (u : ValAddress), L.store.positions[j]? = some r →
      L.staked codec u r → (L.store.afterValidatorRemoved v).getValidatorEventLatestSeq u =
        L.store.getValidatorEventLatestSeq u := by
    intro j r u hr hst
    have hne : v ≠ u := by
      rintro rfl
      unfold staked at hst
      rw [Option.any_eq_true] at hst
      obtain ⟨b, hb, hsome⟩ := hst
      rw [hempty b ⟨j, r, hr, hb⟩] at hsome
      cases hsome
    change ((if L.store.hasValidatorEvents v then L.store.validatorEventSeq
      else L.store.validatorEventSeq.erase v)[u]?).getD 0 = _
    split_ifs
    · rfl
    · rw [getElem?_erase_ne hne]
      rfl
  refine ⟨hL.referenceCount, ?_, ?_, ?_, hL.timestamp_le, hL.monotone⟩
  · intro u n e he
    change n ≤ (L.store.afterValidatorRemoved v).getValidatorEventLatestSeq u
    rw [hkept u n e he]
    exact hL.bound u n e he
  · intro j r u hr hst
    change r.lastEventSeq ≤ (L.store.afterValidatorRemoved v).getValidatorEventLatestSeq u
    rw [hother j r u hr hst]
    exact hL.seq_le j r u hr hst
  · intro j r u n hr hpend hn
    change n ≤ (L.store.afterValidatorRemoved v).getValidatorEventLatestSeq u at hn
    rw [hother j r u hr (pending_iff.mp hpend).1] at hn
    exact hL.complete j r u n hr hpend hn

theorem Logged.of_remove (hL : L.Logged codec) (hindex : L.store.Indexed codec) {i : ℕ}
    {p : Position} {a : AccAddress} (hp : L.Holds codec i p a) (hidle : L.Idle a)
    (owner : AccAddress) :
    { L with store := L.store.removePosition owner p }.Logged codec := by
  have hstored := hp.stored
  rw [← hindex.id_eq i p hp.stored] at hstored
  refine ⟨?_, hL.bound, fun j r u hr ↦ hL.seq_le j r u (getElem?_of_erase hr).2,
    fun j r u n hr ↦ hL.complete j r u n (getElem?_of_erase hr).2, hL.timestamp_le, hL.monotone⟩
  intro u n e he
  obtain ⟨hcount, hpos⟩ := hL.referenceCount u n e he
  refine ⟨hcount.trans ?_, hpos⟩
  have hsize := count_erase (fun _ r ↦ L.pending codec u n r) hstored
  have hnot : L.pending codec u n p = false := by
    unfold pending
    rw [hidle.staked hp.account, Bool.false_and]
  rw [hnot] at hsize
  exact hsize.symm

theorem Step.logged {op : Op} (h : Step codec L op L') (hindex : L.store.Indexed codec)
    (hacc : L.Accounted codec) (hcoh : L.Coherent codec) (hL : L.Logged codec) :
    L'.Logged codec := by
  cases h with
  | outside hstore hframe =>
    exact hL.of_same hframe.now.ge (congrArg Store.positions hstore)
      (congrArg Store.validatorEvents hstore) (congrArg Store.validatorEventSeq hstore)
      fun a ha ↦ hframe.stakes a ha (by simp)
  | tick now hnow => exact hL.of_same hnow rfl rfl rfl fun _ _ ↦ rfl
  | @create _ p a _ v s tier _ hfresh _ _ haddress _ _ _ _ hstake _ hframe hstore =>
    have hp : codec.stringToBytes p.delegatorAddress = some a := by
      rw [haddress]
      exact codec.stringToBytes_bytesToString a
    exact hL.of_create hindex hacc hfresh hp hstake hframe (congrArg Store.positions hstore)
      (by rw [hstore]; rfl) (by rw [hstore]; rfl)
  | @settle _ _ _ _ _ tier rate covered hp hstake _ =>
    exact (hL.of_settle hindex hacc hp hstake tier).of_same le_rfl rfl rfl rfl fun _ _ ↦ rfl
  | @reshare _ id p a v s s' hp hstake _ _ hstake' _ hframe hstore =>
    have hput : L'.store.positions = L.store.positions.insert id p := by
      rw [hstore, insert_self hp.stored]
    have hstaked : ∀ u, L'.staked codec u p = L.staked codec u p := by
      intro u
      rw [hstake.staked hp.account, hstake'.staked hp.account]
    refine hL.of_put hacc hp hput hframe.stakes_other hframe.now
      (congrArg Store.validatorEvents hstore) (congrArg Store.validatorEventSeq hstore) ?_ ?_
    · intro u n _
      unfold pending
      rw [hstaked]
    · intro u hst
      rw [hstaked] at hst
      exact hL.seq_le id p u hp.stored hst
  | @leave _ id p a v s hp hstake hsettled hidle _ hframe hstore =>
    have hput : L'.store.positions = L.store.positions.insert id p.clearBonusCheckpoints := by
      rw [hstore, ← hindex.insert_eq hp.stored (Position.sameIdentity_clearBonusCheckpoints p)]
      rfl
    have haccount : codec.stringToBytes p.clearBonusCheckpoints.delegatorAddress = some a :=
      hp.account
    refine hL.of_put hacc hp hput hframe.stakes_other hframe.now (by rw [hstore]; rfl)
      (by rw [hstore]; rfl) ?_ ?_
    · intro u n hn
      rw [hsettled.not_pending hp.account hstake u n hn]
      unfold pending
      rw [hidle.staked haccount, Bool.false_and]
    · intro u _
      exact Nat.zero_le _
  | @move _ id p a v v' s s' unbondingId hp hstake hsettled _ hne _ _ hstake' _ _ _ hframe hstore =>
    set q := p.updateBonusCheckpoints (L.store.getValidatorEventLatestSeq v') L.now true with hq
    have hput : L'.store.positions = L.store.positions.insert id q := by
      rw [hstore, ← hindex.insert_eq hp.stored
        (Position.sameIdentity_updateBonusCheckpoints p _ _ _)]
      rfl
    have haccount : codec.stringToBytes q.delegatorAddress = some a := hp.account
    refine hL.of_put hacc hp hput hframe.stakes_other hframe.now (by rw [hstore]; rfl)
      (by rw [hstore]; rfl) ?_ ?_
    · intro u n hn
      rw [hsettled.not_pending hp.account hstake u n hn]
      unfold pending
      rw [hstake'.staked haccount]
      by_cases hu : u = v'
      · subst hu
        have hlt : ¬ q.lastEventSeq < n := not_lt.mpr hn
        rw [decide_eq_false hlt, Bool.and_false]
      · rw [decide_eq_false hu, Bool.false_and]
    · intro u hst
      rw [hstake'.staked haccount, decide_eq_true_eq] at hst
      rw [hst]
      exact le_rfl
  | remove hp hidle _ => exact hL.of_remove hindex hp hidle _
  | @trigger id p a tier hp _ _ _ =>
    exact hL.of_put hacc hp
      (hindex.insert_eq hp.stored (Position.sameIdentity_triggerExit p L.now tier.exitDuration))
      (fun _ _ _ ↦ rfl) rfl rfl rfl (fun _ _ _ ↦ rfl) fun u hst ↦ hL.seq_le id p u hp.stored hst
  | @clear id p a accrual hp _ =>
    exact hL.of_put hacc hp
      (hindex.insert_eq hp.stored (Position.sameIdentity_clearExit p accrual))
      (fun _ _ _ ↦ rfl) rfl rfl rfl (fun _ _ _ ↦ rfl) fun u hst ↦ hL.seq_le id p u hp.stored hst
  | record v eventType rate height _ hcount =>
    exact hL.of_record hcoh v eventType rate height hcount _
  | dropSeq v hempty => exact hL.of_dropSeq v hempty
  | params | setTier | deleteTier | status | mature =>
    exact hL.of_same le_rfl rfl rfl rfl fun _ _ ↦ rfl

end Ledger

end ChainMain.TieredRewards
