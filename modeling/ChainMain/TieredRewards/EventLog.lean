import ChainMain.TieredRewards.RewardSpecs

/-!
# The validator event log

What the walk over a validator's pending events returns, and what the replay of these events does to
the log: the events come in ascending order, each once, and a replay drops one reference from
exactly the events above the position's sequence number.
-/

set_option autoImplicit false

namespace ChainMain.TieredRewards

open Foundations Decimal OrderedStore

/-! ### The pending events -/

theorem mem_getValidatorEventsSince {s : Store} {v : ValAddress} {startSeq : ℕ}
    {entry : EventEntry} :
    entry ∈ s.getValidatorEventsSince v startSeq ↔
      startSeq < entry.seq ∧ s.validatorEvents[(v, entry.seq)]? = some entry.event := by
  unfold Store.getValidatorEventsSince
  rw [List.mem_map, ← mem_toList]
  constructor
  · rintro ⟨⟨⟨u, q⟩, e⟩, hmem, rfl⟩
    obtain ⟨hin, hcond⟩ := List.mem_filter.mp hmem
    rw [Bool.and_eq_true, beq_iff_eq, decide_eq_true_eq] at hcond
    obtain ⟨rfl, hq⟩ := hcond
    exact ⟨hq, hin⟩
  · rintro ⟨hq, hin⟩
    refine ⟨((v, entry.seq), entry.event), List.mem_filter.mpr ⟨hin, ?_⟩, rfl⟩
    rw [Bool.and_eq_true, beq_iff_eq, decide_eq_true_eq]
    exact ⟨rfl, hq⟩

theorem pairwise_getValidatorEventsSince (s : Store) (v : ValAddress) (startSeq : ℕ) :
    (s.getValidatorEventsSince v startSeq).Pairwise fun e e' ↦ e.seq < e'.seq := by
  unfold Store.getValidatorEventsSince
  rw [List.pairwise_map]
  have hordered := Std.ExtTreeMap.ordered_keys_toList (t := s.validatorEvents)
  refine (hordered.filter _).imp_of_mem ?_
  rintro ⟨⟨u, q⟩, e⟩ ⟨⟨u', q'⟩, e'⟩ hmem hmem' hlt
  have hu := (List.mem_filter.mp hmem).2
  have hu' := (List.mem_filter.mp hmem').2
  rw [Bool.and_eq_true, beq_iff_eq] at hu hu'
  obtain ⟨rfl, _⟩ := hu
  obtain ⟨rfl, _⟩ := hu'
  exact lt_of_compare_pair hlt

theorem nodup_seqs_getValidatorEventsSince (s : Store) (v : ValAddress) (startSeq : ℕ) :
    ((s.getValidatorEventsSince v startSeq).map EventEntry.seq).Nodup := by
  have h : ((s.getValidatorEventsSince v startSeq).map EventEntry.seq).Pairwise (· < ·) := by
    rw [List.pairwise_map]
    exact pairwise_getValidatorEventsSince s v startSeq
  exact h.imp fun hlt ↦ ne_of_lt hlt

/-- The last of the pending events has the largest sequence number. -/
theorem seq_le_getLast {entries : List EventEntry} {last entry : EventEntry}
    (hsorted : entries.Pairwise fun e e' ↦ e.seq < e'.seq) (hlast : entries.getLast? = some last)
    (hmem : entry ∈ entries) : entry.seq ≤ last.seq := by
  rcases List.eq_nil_or_concat entries with rfl | ⟨rest, e, rfl⟩
  · cases hmem
  · rw [List.concat_eq_append] at hsorted hlast hmem
    rw [List.getLast?_concat] at hlast
    obtain rfl := Option.some.inj hlast
    rcases List.mem_append.mp hmem with hrest | hone
    · exact le_of_lt ((List.pairwise_append.mp hsorted).2.2 entry hrest e List.mem_cons_self)
    · rw [List.mem_singleton.mp hone]

/-! ### Dropping references -/

/-- An event with one reference less; the last reference takes the event with it. -/
def dropReference : Option ValidatorEvent → Option ValidatorEvent
  | none => none
  | some event =>
    if event.referenceCount ≤ 1 then none
    else some { event with referenceCount := event.referenceCount - 1 }

theorem dropReference_some (event : ValidatorEvent) :
    dropReference (some event) =
      if event.referenceCount ≤ 1 then none
      else some { event with referenceCount := event.referenceCount - 1 } := rfl

theorem getElem?_decrementRefCount (events : Map (ValAddress × ℕ) ValidatorEvent) (v : ValAddress)
    (seq : ℕ) (key : ValAddress × ℕ) :
    (decrementRefCount events v seq)[key]? =
      if key = (v, seq) then dropReference events[key]? else events[key]? := by
  unfold decrementRefCount
  by_cases hkey : key = (v, seq)
  · subst hkey
    rw [if_pos rfl]
    cases hevent : events[(v, seq)]? with
    | none => exact hevent
    | some event =>
      unfold dropReference
      by_cases hlast : event.referenceCount ≤ 1
      · simp only [hlast, if_true]
        rw [getElem?_erase_eq, if_pos rfl]
      · simp only [hlast, if_false]
        rw [getElem?_insert_eq, if_pos rfl]
  · rw [if_neg hkey]
    cases hevent : events[(v, seq)]? with
    | none => rfl
    | some event =>
      by_cases hlast : event.referenceCount ≤ 1
      · simp only [hlast, if_true]
        exact getElem?_erase_ne (Ne.symm hkey)
      · simp only [hlast, if_false]
        exact getElem?_insert_ne (Ne.symm hkey) _

/-- Replaying entries with different sequence numbers drops one reference from each. -/
theorem getElem?_foldl_decrementRefCount (entries : List EventEntry) (v : ValAddress)
    (hnodup : (entries.map EventEntry.seq).Nodup)
    (events : Map (ValAddress × ℕ) ValidatorEvent) (u : ValAddress) (q : ℕ) :
    (entries.foldl (fun events entry ↦ decrementRefCount events v entry.seq) events)[(u, q)]? =
      if u = v ∧ q ∈ entries.map EventEntry.seq then dropReference events[(u, q)]?
      else events[(u, q)]? := by
  induction entries generalizing events with
  | nil => simp
  | cons entry rest ih =>
    rw [List.map_cons, List.nodup_cons] at hnodup
    rw [List.foldl_cons, ih hnodup.2, getElem?_decrementRefCount]
    simp only [List.map_cons, List.mem_cons]
    by_cases hu : u = v
    · subst hu
      by_cases hq : q = entry.seq
      · subst hq
        simp [hnodup.1]
      · have hkey : (u, q) ≠ (u, entry.seq) := fun h ↦ hq (Prod.mk.inj h).2
        simp [hq]
    · have hkey : (u, q) ≠ (v, entry.seq) := fun h ↦ hu (Prod.mk.inj h).1
      simp [hu]

/-- A replay drops one reference from exactly the events the position had pending. -/
theorem getElem?_replayed (s : Store) (p : Position) (v u : ValAddress) (q : ℕ) :
    (s.replayed p v).validatorEvents[(u, q)]? =
      if u = v ∧ p.lastEventSeq < q then dropReference s.validatorEvents[(u, q)]?
      else s.validatorEvents[(u, q)]? := by
  have hfold := getElem?_foldl_decrementRefCount (s.getValidatorEventsSince v p.lastEventSeq) v
    (nodup_seqs_getValidatorEventsSince s v p.lastEventSeq) s.validatorEvents u q
  have hmem : q ∈ (s.getValidatorEventsSince v p.lastEventSeq).map EventEntry.seq ↔
      p.lastEventSeq < q ∧ ∃ e, s.validatorEvents[(v, q)]? = some e := by
    rw [List.mem_map]
    constructor
    · rintro ⟨entry, hentry, rfl⟩
      obtain ⟨hlt, hstored⟩ := mem_getValidatorEventsSince.mp hentry
      exact ⟨hlt, entry.event, hstored⟩
    · rintro ⟨hlt, e, he⟩
      exact ⟨⟨q, e⟩, mem_getValidatorEventsSince.mpr ⟨hlt, he⟩, rfl⟩
  refine hfold.trans ?_
  by_cases hu : u = v
  · subst hu
    by_cases hq : p.lastEventSeq < q
    · cases he : s.validatorEvents[(u, q)]? with
      | none => simp [hq, dropReference]
      | some e => simp [hmem, hq, he]
    · simp [hmem, hq]
  · simp [hu]

/-! ### The outcome of a replay -/

theorem replay_events_append (r : Replay) (p : Position) (shares : Dec) (tier : Tier)
    (entries : List EventEntry) (entry : EventEntry) :
    r.events p shares tier (entries ++ [entry]) =
      (r.events p shares tier entries).event p shares tier entry := by
  unfold Replay.events
  rw [List.foldl_append]
  rfl

theorem replay_lastEventSeq (r : Replay) (p : Position) (shares : Dec) (tier : Tier)
    (entries : List EventEntry) :
    (r.events p shares tier entries).lastEventSeq =
      (entries.getLast?.map EventEntry.seq).getD r.lastEventSeq := by
  rcases List.eq_nil_or_concat entries with rfl | ⟨rest, entry, rfl⟩
  · rfl
  · rw [List.concat_eq_append, replay_events_append, List.getLast?_concat]
    rfl

/-! ### Replays that read the same events -/

/-- The stored event with a sequence number, as an entry of the walk. -/
def Store.eventAt (s : Store) (v : ValAddress) (n : ℕ) : Option EventEntry :=
  (s.validatorEvents[(v, n)]?).map (EventEntry.mk n)

/-- The pending events are the stored ones from the next sequence number to the latest. -/
theorem getValidatorEventsSince_eq {s : Store} {v : ValAddress}
    (hbound : ∀ (n : ℕ) (e : ValidatorEvent), s.validatorEvents[(v, n)]? = some e →
      n ≤ s.getValidatorEventLatestSeq v) (startSeq : ℕ) :
    s.getValidatorEventsSince v startSeq =
      (List.range' (startSeq + 1) (s.getValidatorEventLatestSeq v - startSeq)).filterMap
        (s.eventAt v) := by
  have hsorted := pairwise_getValidatorEventsSince s v startSeq
  have hsorted' : ((List.range' (startSeq + 1)
      (s.getValidatorEventLatestSeq v - startSeq)).filterMap (s.eventAt v)).Pairwise
        fun e e' ↦ e.seq < e'.seq := by
    refine List.Pairwise.filterMap _ ?_ (List.pairwise_lt_range' 1)
    intro n n' hlt e he e' he'
    unfold Store.eventAt at he he'
    obtain ⟨_, _, rfl⟩ := Option.map_eq_some_iff.mp he
    obtain ⟨_, _, rfl⟩ := Option.map_eq_some_iff.mp he'
    exact hlt
  have hnodup : ∀ {l : List EventEntry}, (l.Pairwise fun e e' ↦ e.seq < e'.seq) → l.Nodup := by
    intro l hl
    refine hl.imp ?_
    rintro e e' hlt rfl
    exact lt_irrefl _ hlt
  refine List.Perm.eq_of_pairwise (fun e e' _ _ hlt hlt' ↦ absurd hlt' (lt_asymm hlt)) hsorted
    hsorted' ((List.perm_ext_iff_of_nodup (hnodup hsorted) (hnodup hsorted')).mpr ?_)
  intro entry
  rw [mem_getValidatorEventsSince, List.mem_filterMap]
  constructor
  · rintro ⟨hlt, hstored⟩
    have := hbound entry.seq entry.event hstored
    refine ⟨entry.seq, List.mem_range'_1.mpr ⟨by omega, by omega⟩, ?_⟩
    unfold Store.eventAt
    rw [hstored]
    rfl
  · rintro ⟨n, hn, he⟩
    unfold Store.eventAt at he
    obtain ⟨e, hstored, rfl⟩ := Option.map_eq_some_iff.mp he
    have := List.mem_range'_1.mp hn
    exact ⟨by change startSeq < n; omega, hstored⟩

def ValidatorEvent.content (e : ValidatorEvent) : ValidatorEvent := { e with referenceCount := 0 }

theorem Replay.event_congr (r : Replay) (p : Position) (shares : Dec) (tier : Tier) (n : ℕ)
    {e e' : ValidatorEvent} (h : e.content = e'.content) :
    r.event p shares tier ⟨n, e⟩ = r.event p shares tier ⟨n, e'⟩ := by
  obtain ⟨_, htime, htype, hrate, _⟩ := ValidatorEvent.mk.inj h
  unfold Replay.event
  simp only [htime, htype, hrate]

/-- A replay does not change when the pending events keep their content. -/
theorem Store.replay_congr {s s' : Store} {p : Position} {v : ValAddress}
    (hbound : ∀ (n : ℕ) (e : ValidatorEvent), s.validatorEvents[(v, n)]? = some e →
      n ≤ s.getValidatorEventLatestSeq v)
    (hbound' : ∀ (n : ℕ) (e : ValidatorEvent), s'.validatorEvents[(v, n)]? = some e →
      n ≤ s'.getValidatorEventLatestSeq v)
    (hlatest : s'.getValidatorEventLatestSeq v = s.getValidatorEventLatestSeq v)
    (hcontent : ∀ n, p.lastEventSeq < n → n ≤ s.getValidatorEventLatestSeq v →
      (s'.validatorEvents[(v, n)]?).map ValidatorEvent.content =
        (s.validatorEvents[(v, n)]?).map ValidatorEvent.content)
    (shares : Dec) (tier : Tier) : s'.replay p shares tier v = s.replay p shares tier v := by
  unfold Store.replay Replay.events
  rw [getValidatorEventsSince_eq hbound, getValidatorEventsSince_eq hbound', hlatest,
    List.foldl_filterMap, List.foldl_filterMap]
  refine List.foldl_ext _ _ _ ?_
  intro r n hn
  have hrange := List.mem_range'_1.mp hn
  have hsame := hcontent n (by omega) (by omega)
  unfold Store.eventAt
  cases he : s.validatorEvents[(v, n)]? with
  | none =>
    rw [he] at hsame
    rw [Option.map_eq_none_iff.mp hsame]
  | some e =>
    rw [he] at hsame
    obtain ⟨e', he', hcontent'⟩ := Option.map_eq_some_iff.mp hsame
    rw [he']
    exact Replay.event_congr r p shares tier n hcontent'

theorem Store.latestSeq_appendValidatorEvent (s : Store) (v : ValAddress) (event : ValidatorEvent) :
    (s.appendValidatorEvent v event).getValidatorEventLatestSeq v =
      s.getValidatorEventLatestSeq v + 1 := by
  change ((s.validatorEventSeq.insert v (s.getValidatorEventLatestSeq v + 1))[v]?).getD 0 = _
  rw [getElem?_insert_eq, if_pos rfl]
  rfl

theorem Store.getElem?_appendValidatorEvent (s : Store) (v : ValAddress) (event : ValidatorEvent)
    (key : ValAddress × ℕ) :
    (s.appendValidatorEvent v event).validatorEvents[key]? =
      if (v, s.getValidatorEventLatestSeq v + 1) = key then some event else
        s.validatorEvents[key]? :=
  getElem?_insert_eq _ _ _ _

theorem Store.bound_appendValidatorEvent {s : Store} {v : ValAddress} {event : ValidatorEvent}
    (hbound : ∀ (n : ℕ) (e : ValidatorEvent), s.validatorEvents[(v, n)]? = some e →
      n ≤ s.getValidatorEventLatestSeq v) (n : ℕ) (e : ValidatorEvent)
    (he : (s.appendValidatorEvent v event).validatorEvents[(v, n)]? = some e) :
    n ≤ (s.appendValidatorEvent v event).getValidatorEventLatestSeq v := by
  rw [s.latestSeq_appendValidatorEvent]
  rw [s.getElem?_appendValidatorEvent] at he
  split_ifs at he with hn
  · have := (Prod.mk.inj hn).2
    omega
  · have := hbound n e he
    omega

theorem Store.replay_append {s : Store} {p : Position} {v : ValAddress} {event : ValidatorEvent}
    (hbound : ∀ (n : ℕ) (e : ValidatorEvent), s.validatorEvents[(v, n)]? = some e →
      n ≤ s.getValidatorEventLatestSeq v)
    (hle : p.lastEventSeq ≤ s.getValidatorEventLatestSeq v) (shares : Dec) (tier : Tier) :
    (s.appendValidatorEvent v event).replay p shares tier v =
      (s.replay p shares tier v).event p shares tier
        ⟨s.getValidatorEventLatestSeq v + 1, event⟩ := by
  have hlatest' := s.latestSeq_appendValidatorEvent v event
  have hevents := s.getElem?_appendValidatorEvent v event
  have hbound' := @Store.bound_appendValidatorEvent s v event hbound
  set latest := s.getValidatorEventLatestSeq v with hlatest
  have hrange : latest + 1 - p.lastEventSeq = (latest - p.lastEventSeq) + 1 := by omega
  have hlast : p.lastEventSeq + 1 + 1 * (latest - p.lastEventSeq) = latest + 1 := by omega
  have hold : (List.range' (p.lastEventSeq + 1) (latest - p.lastEventSeq)).filterMap
      ((s.appendValidatorEvent v event).eventAt v) =
        (List.range' (p.lastEventSeq + 1) (latest - p.lastEventSeq)).filterMap (s.eventAt v) := by
    refine List.filterMap_congr fun n hn ↦ ?_
    have hmem := List.mem_range'_1.mp hn
    unfold Store.eventAt
    rw [hevents, if_neg]
    intro hkey
    have := (Prod.mk.inj hkey).2
    omega
  have hnew : (s.appendValidatorEvent v event).eventAt v (latest + 1) =
      some ⟨latest + 1, event⟩ := by
    unfold Store.eventAt
    rw [hevents, if_pos rfl]
    rfl
  unfold Store.replay Replay.events
  rw [getValidatorEventsSince_eq hbound', getValidatorEventsSince_eq hbound, hlatest', hrange,
    List.range'_concat, List.filterMap_append, hold, List.foldl_append, hlast]
  simp only [List.filterMap_cons, hnew, List.filterMap_nil, List.foldl_cons, List.foldl_nil]
  rw [← hlatest]

theorem replay_bonded (r : Replay) (p : Position) (shares : Dec) (tier : Tier)
    (entries : List EventEntry) :
    (r.events p shares tier entries).bonded =
      entries.foldl (fun bonded entry ↦ entry.event.eventType.bondedAfter bonded) r.bonded := by
  induction entries generalizing r with
  | nil => rfl
  | cons entry rest ih => exact ih (r.event p shares tier entry)

end ChainMain.TieredRewards
