import ChainMain.TieredRewards.SegmentBonus
import ChainMain.TieredRewards.ReferenceKeepers

/-!
# Claims in between

A position whose bonus is claimed now and then is compared with the same position whose bonus is
claimed once, at the end. `claimAlong` runs the claims of a position along the events of its
validator. Every claim cuts the open segment of the position in two, and a cut loses whole seconds
and whole tokens but never gains any (`Replay.finish_cut`). So the two runs stay abreast
(`Abreast`): they agree on the flag and on the sequence number their replays end with, and what was
paid on the way and is still pending in the one is at most what is pending in the other
(`Compared`). After the last claim position and store are the same.

The comparison needs the whole time to fit a `time.Duration`: a longer segment is cut off by the
subtraction of its ends, and a claim in between then gives back the seconds that were lost.
-/

set_option autoImplicit false

namespace ChainMain.TieredRewards

open Foundations Decimal OrderedStore StoreProgram

variable {σ : Type} {K : Keepers σ}

/-! ### The open segment -/

section Segments

variable {r : Replay} {p : Position} {shares rate : Dec} {tier : Tier}

/-- A claim in between pays the first part of the open segment, and what is left of the segment pays
at most the rest. The validator may count as bonded at the claim only if it does at the end. -/
theorem Replay.finish_cut (hshares : 0 ≤ shares) (hrate : 0 ≤ rate) (hapy : 0 ≤ tier.bonusApy)
    {middle last : Time} {bonded bonded' : Bool} (hbonded : bonded = true → bonded' = true)
    (hstart : r.segmentStart ≤ middle) (hlast : middle ≤ last)
    (hspan : p.completedExitLockDuration middle = false →
      last - r.segmentStart < 9223372036854775808) :
    r.finish p shares tier bonded rate middle +
        (Replay.start (p.afterReplay r middle)).finish (p.afterReplay r middle) shares tier
        bonded' rate
          last ≤
      r.finish p shares tier bonded' rate last := by
  have hcut := computeSegmentBonus_cut (p := p) hshares hrate hapy hstart hlast hspan
  have hfirst := computeSegmentBonus_nonneg (p := p) hshares hrate hapy r.segmentStart middle
  change (if r.bonded && bonded then _ else _) +
    (if r.bonded && bonded' then 0 + computeSegmentBonus p shares tier
      (p.applyBonusAccrualCheckpoint middle).lastBonusAccrual last rate else 0) ≤
    (if r.bonded && bonded' then _ else _)
  cases hr : r.bonded with
  | false => simp
  | true =>
    cases bonded' with
    | false =>
      have hunbonded : bonded = false :=
        Bool.eq_false_iff.mpr fun h ↦ absurd (hbonded h) (by decide)
      simp [hunbonded]
    | true =>
      cases bonded with
      | false =>
        simp only [Bool.and_true, if_true, Bool.and_false, Bool.false_eq_true, if_false]
        omega
      | true =>
        simp only [Bool.and_true, if_true]
        omega

theorem Replay.finish_start_afterReplay (bonded : Bool) (now : Time) :
    (Replay.start (p.afterReplay r now)).finish (p.afterReplay r now) shares tier bonded rate now =
      0 := by
  have hcap : p.capSegmentEnd now ≤ (p.applyBonusAccrualCheckpoint now).lastBonusAccrual := by
    unfold Position.capSegmentEnd Position.applyBonusAccrualCheckpoint
      Position.completedExitLockDuration
    dsimp only
    split_ifs with hcut hexit hexit
    · exact le_refl _
    · exact hcut.2.le
    · rw [Bool.and_eq_true, decide_eq_true_eq] at hexit
      exact not_lt.mp fun hlt ↦ hcut ⟨hexit.1, hlt⟩
    · exact le_refl _
  have hnothing : computeSegmentBonus p shares tier
      (p.applyBonusAccrualCheckpoint now).lastBonusAccrual now rate = 0 := by
    unfold computeSegmentBonus
    exact if_pos hcap
  change (if r.bonded && bonded then 0 + computeSegmentBonus p shares tier
    (p.applyBonusAccrualCheckpoint now).lastBonusAccrual now rate else 0) = 0
  rw [hnothing]
  split_ifs <;> rfl

end Segments

/-! ### The log -/

/-- The events of a validator are numbered up to its counter, and so is what a position has seen. -/
structure Store.Numbered (s : Store) (v : ValAddress) (p : Position) : Prop where
  bound : ∀ (n : ℕ) (e : ValidatorEvent), s.validatorEvents[(v, n)]? = some e →
    n ≤ s.getValidatorEventLatestSeq v
  seq : p.lastEventSeq ≤ s.getValidatorEventLatestSeq v

section Log

variable {s : Store} {v : ValAddress} {p : Position} (shares : Dec) (tier : Tier)

theorem Store.seq_le_replay (s : Store) (v : ValAddress) (p : Position) :
    p.lastEventSeq ≤ (s.replay p shares tier v).lastEventSeq := by
  unfold Store.replay
  rw [replay_lastEventSeq]
  cases hlast : (s.getValidatorEventsSince v p.lastEventSeq).getLast? with
  | none => exact le_refl _
  | some entry => exact (mem_getValidatorEventsSince.mp (List.mem_of_getLast? hlast)).1.le

/-- A replay sees every event above the position's sequence number. -/
theorem Store.getElem?_above_replay (s : Store) (v : ValAddress) (p : Position) {q : ℕ}
    (hq : (s.replay p shares tier v).lastEventSeq < q) : s.validatorEvents[(v, q)]? = none := by
  have habove := (s.seq_le_replay shares tier v p).trans_lt hq
  unfold Store.replay at hq
  rw [replay_lastEventSeq] at hq
  refine Option.eq_none_iff_forall_ne_some.mpr fun event hevent ↦ ?_
  have hmem : (⟨q, event⟩ : EventEntry) ∈ s.getValidatorEventsSince v p.lastEventSeq :=
    mem_getValidatorEventsSince.mpr ⟨habove, hevent⟩
  obtain ⟨last, hlast⟩ := Option.isSome_iff_exists.mp
    (List.getLast?_isSome.mpr (List.ne_nil_of_mem hmem))
  rw [hlast] at hq
  exact absurd hq (not_lt.mpr (seq_le_getLast (pairwise_getValidatorEventsSince s v _) hlast hmem))

theorem Store.Numbered.replay_le (h : s.Numbered v p) :
    (s.replay p shares tier v).lastEventSeq ≤ s.getValidatorEventLatestSeq v := by
  unfold Store.replay
  rw [replay_lastEventSeq]
  cases hlast : (s.getValidatorEventsSince v p.lastEventSeq).getLast? with
  | none => exact h.seq
  | some entry =>
    exact h.bound _ _ (mem_getValidatorEventsSince.mp (List.mem_of_getLast? hlast)).2

theorem isSome_of_dropReference {event : Option ValidatorEvent} {e : ValidatorEvent}
    (h : dropReference event = some e) : ∃ old, event = some old := by
  cases event with
  | none => cases h
  | some old => exact ⟨old, rfl⟩

theorem Store.exists_of_replayed {u : ValAddress} {q : ℕ} {e : ValidatorEvent}
    (h : (s.replayed p v).validatorEvents[(u, q)]? = some e) :
    ∃ old, s.validatorEvents[(u, q)]? = some old := by
  rw [getElem?_replayed] at h
  split_ifs at h
  · exact isSome_of_dropReference h
  · exact ⟨e, h⟩

theorem Store.getValidatorEventsSince_replayed (s : Store) (v : ValAddress) (p : Position)
    (now : Time) :
    (s.replayed p v).getValidatorEventsSince v (s.settled p shares tier v now).lastEventSeq =
      [] := by
  refine List.eq_nil_iff_forall_not_mem.mpr fun entry hentry ↦ ?_
  obtain ⟨hlt, hstored⟩ := mem_getValidatorEventsSince.mp hentry
  obtain ⟨old, hold⟩ := Store.exists_of_replayed hstored
  rw [s.getElem?_above_replay shares tier v p hlt] at hold
  cases hold

theorem Store.replay_replayed (s : Store) (v : ValAddress) (p : Position) (now : Time) :
    (s.replayed p v).replay (s.settled p shares tier v now) shares tier v =
      Replay.start (s.settled p shares tier v now) := by
  unfold Store.replay
  rw [s.getValidatorEventsSince_replayed shares tier]
  rfl

theorem Store.Numbered.append (h : s.Numbered v p) (event : ValidatorEvent) :
    (s.appendValidatorEvent v event).Numbered v p where
  bound := Store.bound_appendValidatorEvent h.bound
  seq := by
    rw [s.latestSeq_appendValidatorEvent]
    exact Nat.le_succ_of_le h.seq

theorem Store.Numbered.replayed (h : s.Numbered v p) (now : Time) :
    (s.replayed p v).Numbered v (s.settled p shares tier v now) where
  bound n e he := by
    obtain ⟨old, hold⟩ := Store.exists_of_replayed he
    exact h.bound n old hold
  seq := h.replay_le shares tier

end Log

/-! ### Two runs of one position -/

section Abreast

variable (v : ValAddress) (shares : Dec) (tier : Tier)

/-- A position `p` that was settled on the way, in the store `s`, beside the position `q` that was
not, in the store `t`: the events that only `p` has seen have one reference less, and the two
replays end with the same flag and number. -/
structure Abreast (s : Store) (p : Position) (t : Store) (q : Position) : Prop where
  position : p = { q with
    lastEventSeq := p.lastEventSeq
    lastBonusAccrual := p.lastBonusAccrual
    lastKnownBonded := p.lastKnownBonded }
  store : s = { t with validatorEvents := s.validatorEvents }
  events : ∀ (u : ValAddress) (n : ℕ), s.validatorEvents[(u, n)]? =
    if u = v ∧ q.lastEventSeq < n ∧ n ≤ p.lastEventSeq then dropReference t.validatorEvents[(u, n)]?
    else t.validatorEvents[(u, n)]?
  ahead : q.lastEventSeq ≤ p.lastEventSeq
  bonded : (s.replay p shares tier v).bonded = (t.replay q shares tier v).bonded
  seq : (s.replay p shares tier v).lastEventSeq = (t.replay q shares tier v).lastEventSeq

variable {v shares tier} {s t : Store} {p q : Position}

theorem Abreast.refl (s : Store) (p : Position) : Abreast v shares tier s p s p where
  position := rfl
  store := rfl
  events u n := by
    rw [if_neg]
    rintro ⟨_, hlt, hle⟩
    exact absurd hlt (not_lt.mpr hle)
  ahead := le_refl _
  bonded := rfl
  seq := rfl

theorem Abreast.latestSeq (h : Abreast v shares tier s p t q) :
    s.getValidatorEventLatestSeq v = t.getValidatorEventLatestSeq v := by
  rw [h.store]
  rfl

theorem Abreast.event (h : Abreast v shares tier s p t q) (hs : s.Numbered v p)
    (ht : t.Numbered v q) (event : ValidatorEvent) :
    Abreast v shares tier (s.appendValidatorEvent v event) p (t.appendValidatorEvent v event)
      q where
  position := h.position
  store := by
    change ({ s with
      validatorEventSeq := s.validatorEventSeq.insert v (s.getValidatorEventLatestSeq v + 1)
      validatorEvents := _ } : Store) = { t with
      validatorEventSeq := t.validatorEventSeq.insert v (t.getValidatorEventLatestSeq v + 1)
      validatorEvents := s.validatorEvents.insert _ event }
    rw [h.latestSeq]
    have hstore := h.store
    cases s
    cases t
    simp only [Store.mk.injEq] at hstore ⊢
    simp [hstore]
  events u n := by
    rw [s.getElem?_appendValidatorEvent, t.getElem?_appendValidatorEvent, h.latestSeq]
    by_cases hkey : (v, t.getValidatorEventLatestSeq v + 1) = (u, n)
    · -- the new event is above what either has seen
      obtain ⟨_, rfl⟩ := Prod.mk.inj hkey
      have hseq := hs.seq
      rw [h.latestSeq] at hseq
      rw [if_pos hkey, if_pos hkey, if_neg]
      rintro ⟨_, _, hle⟩
      omega
    · rw [if_neg hkey, if_neg hkey]
      exact h.events u n
  ahead := h.ahead
  bonded := by
    rw [Store.replay_append hs.bound hs.seq, Store.replay_append ht.bound ht.seq]
    exact congrArg event.eventType.bondedAfter h.bonded
  seq := by
    rw [Store.replay_append hs.bound hs.seq, Store.replay_append ht.bound ht.seq]
    exact congrArg (· + 1) h.latestSeq

theorem Abreast.getElem?_replayed (h : Abreast v shares tier s p t q) (u : ValAddress) (n : ℕ) :
    (s.replayed p v).validatorEvents[(u, n)]? = (t.replayed q v).validatorEvents[(u, n)]? := by
  rw [ChainMain.TieredRewards.getElem?_replayed, ChainMain.TieredRewards.getElem?_replayed,
    h.events]
  have hahead := h.ahead
  by_cases hu : u = v
  · by_cases hn : p.lastEventSeq < n
    · rw [if_pos ⟨hu, hn⟩, if_neg (fun hc ↦ absurd hc.2.2 (not_le.mpr hn)),
        if_pos ⟨hu, hahead.trans_lt hn⟩]
    · rw [if_neg (fun hc ↦ hn hc.2)]
      by_cases hq : q.lastEventSeq < n
      · rw [if_pos ⟨hu, hq, not_lt.mp hn⟩, if_pos ⟨hu, hq⟩]
      · rw [if_neg (fun hc ↦ hq hc.2.1), if_neg (fun hc ↦ hq hc.2)]
  · rw [if_neg (fun hc ↦ hu hc.1), if_neg (fun hc ↦ hu hc.1), if_neg (fun hc ↦ hu hc.1)]

theorem Abreast.claim (h : Abreast v shares tier s p t q) (now : Time) :
    Abreast v shares tier (s.replayed p v) (s.settled p shares tier v now) t q where
  position := by
    unfold Store.settled Position.afterReplay Position.applyBonusAccrualCheckpoint
    rw [h.position]
  store := by
    unfold Store.replayed Store.decrementEvents
    rw [h.store]
  events u n := by
    rw [h.getElem?_replayed, ChainMain.TieredRewards.getElem?_replayed]
    change _ =
      if u = v ∧ q.lastEventSeq < n ∧ n ≤ (s.replay p shares tier v).lastEventSeq then _ else _
    rw [h.seq]
    by_cases hbelow : n ≤ (t.replay q shares tier v).lastEventSeq
    · simp only [hbelow, and_true]
    · by_cases hu : u = v
      · subst hu
        rw [t.getElem?_above_replay shares tier u q (not_le.mp hbelow)]
        simp [dropReference]
      · simp [hu]
  ahead := h.ahead.trans (s.seq_le_replay shares tier v p)
  bonded := by
    rw [s.replay_replayed]
    exact h.bonded
  seq := by
    rw [s.replay_replayed]
    exact h.seq

theorem Abreast.replayed_eq (h : Abreast v shares tier s p t q) :
    s.replayed p v = t.replayed q v := by
  have hevents : (s.replayed p v).validatorEvents = (t.replayed q v).validatorEvents :=
    Std.ExtTreeMap.ext_getElem? fun k ↦ h.getElem?_replayed k.1 k.2
  unfold Store.replayed Store.decrementEvents at hevents ⊢
  dsimp only at hevents
  rw [hevents, h.store]

theorem Abreast.settled_eq (h : Abreast v shares tier s p t q) (now : Time) :
    s.settled p shares tier v now = t.settled q shares tier v now := by
  unfold Store.settled Position.afterReplay
  rw [h.bonded, h.seq, h.position]
  rfl

end Abreast

/-! ### Claims along a log -/

/-- What happens to a position over time: its validator records an event, or its bonus is claimed,
in a block and over a state of the other modules. -/
inductive Occurrence (σ : Type)
  | event (e : ValidatorEvent)
  | claim (ctx : Context) (ext : σ)

namespace Occurrence

def time : Occurrence σ → Time
  | .event e => e.timestamp
  | .claim ctx _ => ctx.blockTime

/-- Whether it is an event of the validator. -/
def isEvent : Occurrence σ → Bool
  | .event _ => true
  | .claim _ _ => false

/-- The rate of the validator when the gap ends that these occurrences are in: that of the next
event, or that of the claim at the end. -/
def nextRate (last : Validator) : List (Occurrence σ) → Dec
  | [] => last.tokensPerShare
  | .event e :: _ => e.tokensPerShare
  | .claim _ _ :: rest => nextRate last rest

/-- Between events the validator does not change: a claim finds the rate the next event is recorded
with, and after the last event the rate and the status of the claim at the end. -/
def Steady (K : Keepers σ) (v : ValAddress) (last : Validator) : List (Occurrence σ) → Prop
  | [] => True
  | .event _ :: rest => Steady K v last rest
  | .claim _ ext :: rest =>
    (∀ val, (K.staking ext).validators[v]? = some val →
      val.tokensPerShare = nextRate last rest ∧
        (rest.any isEvent = false → val.isBonded = last.isBonded)) ∧
      Steady K v last rest

/-- Whether the segment that is open now counts in full when it ends: it does when an event ends
it. -/
def nextCounts (last : Validator) : List (Occurrence σ) → Bool
  | [] => last.isBonded
  | .event _ :: _ => true
  | .claim _ _ :: rest => nextCounts last rest

theorem nextCounts_of_bonded {last val : Validator} {rest : List (Occurrence σ)}
    (h : rest.any isEvent = false → val.isBonded = last.isBonded) (hval : val.isBonded = true) :
    nextCounts last rest = true := by
  induction rest with
  | nil =>
    rw [nextCounts, ← h rfl]
    exact hval
  | cons o rest ih =>
    cases o with
    | event e => rfl
    | claim ctx ext => exact ih h

theorem nextRate_nonneg {last : Validator} {rest : List (Occurrence σ)}
    (hlast : 0 ≤ last.tokensPerShare)
    (hrates : ∀ e, Occurrence.event e ∈ rest → 0 ≤ e.tokensPerShare) : 0 ≤ nextRate last rest := by
  induction rest with
  | nil => exact hlast
  | cons o rest ih =>
    cases o with
    | event e => exact hrates e List.mem_cons_self
    | claim ctx ext => exact ih fun e he ↦ hrates e (List.mem_cons_of_mem _ he)

end Occurrence

/-- The events are recorded and the claims are made one after the other, and what the claims pay is
added up. -/
def claimAlong (K : Keepers σ) (v : ValAddress) :
    List (Occurrence σ) → PositionState → M σ (PositionState × ℤ)
  | [], pos => pure (pos, 0)
  | .event e :: rest, pos => do
    modifyStore fun s ↦ s.appendValidatorEvent v e
    claimAlong K v rest pos
  | .claim ctx ext :: rest, pos => do
    modify fun w ↦ { w with ctx := ctx, ext := ext }
    let (pos, bonus) ← claimBonus K pos
    let (pos, total) ← claimAlong K v rest pos
    return (pos, bonus.amountOf (K.bondDenom ext) + total)

section Claims

variable {v : ValAddress} {del : Delegation} {w w' : World σ} {pos pos' : PositionState}
  {rest : List (Occurrence σ)} {total : ℤ}

theorem succeeds_claimAlong_event {e : ValidatorEvent} :
    Succeeds (claimAlong K v (.event e :: rest) pos) w (pos', total) w' ↔
      Succeeds (claimAlong K v rest pos) { w with store := w.store.appendValidatorEvent v e }
        (pos', total) w' := by
  rw [claimAlong]
  simp only [succeeds_bind, succeeds_modifyStore]
  constructor
  · rintro ⟨_, _, rfl, hrest⟩
    exact hrest
  · intro hrest
    exact ⟨⟨⟩, _, rfl, hrest⟩

/-- What a claim does to the position and to the log, and what it pays. -/
theorem claimBonus_effect {bonus : Coins} (hdel : pos.delegation = some del)
    (hv : K.valCodec.stringToBytes del.validatorAddress = some v)
    (h : Succeeds (claimBonus K pos) w (pos', bonus) w') :
    ∃ tier val, w.store.tiers[pos.tierId]? = some tier ∧
      (K.staking w.ext).validators[v]? = some val ∧
      pos' = pos.withPosition (w.store.settled pos.toPosition del.shares tier v w.ctx.blockTime) ∧
      w'.store = w.store.replayed pos.toPosition v ∧ w'.ctx = w.ctx ∧
      bonus.amountOf (K.bondDenom w.ext) =
        w.store.bonus pos.toPosition del.shares tier v val.isBonded val.tokensPerShare
          w.ctx.blockTime := by
  obtain ⟨tier, val, htier, hval, hpos, hpay⟩ := succeeds_claimBonus hdel hv h
  refine ⟨tier, val, htier, hval, hpos, ?_⟩
  rcases succeeds_payBonus hpay with ⟨hzero, rfl, rfl⟩ | ⟨_, rfl, _, owner, ext, _, _, rfl⟩
  · refine ⟨rfl, rfl, ?_⟩
    rw [hzero]
    unfold Coins.amountOf
    rw [Std.ExtTreeMap.getElem?_empty]
    rfl
  · exact ⟨rfl, rfl, amountOf_single _⟩

theorem succeeds_claimAlong_claim {ctx : Context} {ext : σ}
    (h : Succeeds (claimAlong K v (.claim ctx ext :: rest) pos) w (pos', total) w') :
    ∃ pos₁ bonus w₁ total₁,
      Succeeds (claimBonus K pos) { w with ctx := ctx, ext := ext } (pos₁, bonus) w₁ ∧
      Succeeds (claimAlong K v rest pos₁) w₁ (pos', total₁) w' ∧
      total = bonus.amountOf (K.bondDenom ext) + total₁ := by
  rw [claimAlong] at h
  simp only [succeeds_bind, succeeds_modify, succeeds_pure] at h
  obtain ⟨_, _, rfl, ⟨pos₁, bonus⟩, w₁, hclaim, ⟨pos₂, total₁⟩, w₂, hrest, hresult, rfl⟩ := h
  obtain ⟨rfl, rfl⟩ := Prod.mk.inj hresult
  exact ⟨pos₁, bonus, w₁, total₁, hclaim, hrest, rfl⟩

/-- A second claim in the same block, whatever has happened to the other modules as long as the
validator is there, pays nothing and changes nothing. -/
theorem claimBonus_again {bonus : Coins} (hdel : pos.delegation = some del)
    (hv : K.valCodec.stringToBytes del.validatorAddress = some v)
    (h : Succeeds (claimBonus K pos) w (pos', bonus) w') {ext : σ} {val : Validator}
    (hval : (K.staking ext).validators[v]? = some val) :
    Succeeds (claimBonus K pos') { w' with ext := ext } (pos', ∅) { w' with ext := ext } := by
  obtain ⟨tier, _, htier, _, rfl, hstore, hctx, _⟩ := claimBonus_effect hdel hv h
  set p := w.store.settled pos.toPosition del.shares tier v w.ctx.blockTime with hp
  have hreplay : w'.store.replay p del.shares tier v = Replay.start p := by
    rw [hstore]
    exact w.store.replay_replayed del.shares tier v pos.toPosition w.ctx.blockTime
  have hsame : w'.store.settled p del.shares tier v w'.ctx.blockTime = p := by
    unfold Store.settled
    rw [hreplay, hctx]
    rfl
  have hnothing : w'.store.bonus p del.shares tier v val.isBonded val.tokensPerShare
      w'.ctx.blockTime = 0 := by
    unfold Store.bonus
    rw [hreplay, hctx]
    exact Replay.finish_start_afterReplay _ _
  have hlog : w'.store.replayed p v = w'.store := by
    unfold Store.replayed
    rw [hstore, w.store.getValidatorEventsSince_replayed del.shares tier v pos.toPosition]
    rfl
  have htier' : w'.store.tiers[(pos.withPosition p).tierId]? = some tier := by
    rw [hstore]
    exact htier
  have hpay : Succeeds (payBonus K p 0) { w' with ext := ext } ∅ { w' with ext := ext } := by
    unfold payBonus
    rw [if_pos rfl]
    exact .pure
  have hclaim := @claimBonus_of_payBonus σ K { w' with ext := ext } { w' with ext := ext }
    (pos.withPosition p) del v tier val ∅ hdel hv htier' hval
  change Succeeds (payBonus K (w'.store.settled p del.shares tier v w'.ctx.blockTime)
    (w'.store.bonus p del.shares tier v val.isBonded val.tokensPerShare w'.ctx.blockTime))
    { w' with ext := ext, store := w'.store.replayed p v } ∅ { w' with ext := ext } →
    Succeeds _ _ (pos.withPosition (w'.store.settled p del.shares tier v w'.ctx.blockTime), ∅)
      _ at hclaim
  rw [hsame, hnothing, hlog] at hclaim
  exact hclaim hpay

end Claims

/-! ### The comparison -/

theorem computeSegmentBonus_congr {p q : Position} (h : p.exitUnlockAt = q.exitUnlockAt)
    (shares : Dec) (tier : Tier) (start last : Time) (rate : Dec) :
    computeSegmentBonus p shares tier start last rate =
      computeSegmentBonus q shares tier start last rate := by
  unfold computeSegmentBonus Position.capSegmentEnd
  rw [h]

/-- An event closes the open segment at its own rate and opens the next one. -/
theorem Replay.finish_event (r : Replay) (p : Position) (shares : Dec) (tier : Tier)
    (entry : EventEntry) (counts : Bool) (rate : Dec) (last : Time) :
    (r.event p shares tier entry).finish p shares tier counts rate last =
      r.finish p shares tier true entry.event.tokensPerShare entry.event.timestamp +
        if entry.event.eventType.bondedAfter r.bonded && counts then
          computeSegmentBonus p shares tier entry.event.timestamp last rate
        else 0 := by
  unfold Replay.finish Replay.event
  dsimp only
  rw [Bool.and_true]
  split_ifs <;> simp

/-- The two positions of a comparison at a time `now`, when the segment that is open will end at the
rate `rate`, and counts or not: what the first one was paid on the way and has pending is at most
what the second one has pending. -/
structure Compared (v : ValAddress) (shares : Dec) (tier : Tier) (horizon now : Time)
    (counts : Bool) (rate : Dec) (paid : ℤ) (s : Store) (p : Position) (t : Store) (q : Position) :
    Prop where
  abreast : Abreast v shares tier s p t q
  numbered : s.Numbered v p
  numberedAlone : t.Numbered v q
  start : (s.replay p shares tier v).segmentStart ≤ now
  span : p.completedExitLockDuration now = false →
    horizon - (s.replay p shares tier v).segmentStart < 9223372036854775808
  left : horizon - now < 9223372036854775808
  worth : ∀ last, now ≤ last → last ≤ horizon →
    paid + (s.replay p shares tier v).finish p shares tier counts rate last ≤
      (t.replay q shares tier v).finish q shares tier counts rate last

section Compared

variable {v : ValAddress} {shares rate : Dec} {tier : Tier} {horizon now : Time} {counts : Bool}
  {paid : ℤ} {s t : Store} {p q : Position}

theorem Abreast.exitUnlockAt (h : Abreast v shares tier s p t q) :
    p.exitUnlockAt = q.exitUnlockAt := by
  rw [h.position]

theorem Compared.event {e : ValidatorEvent}
    (h : Compared v shares tier horizon now true e.tokensPerShare paid s p t q)
    (hnow : now ≤ e.timestamp) (hhorizon : e.timestamp ≤ horizon) (counts : Bool) (rate : Dec) :
    Compared v shares tier horizon e.timestamp counts rate paid (s.appendValidatorEvent v e) p
      (t.appendValidatorEvent v e) q where
  abreast := h.abreast.event h.numbered h.numberedAlone e
  numbered := h.numbered.append e
  numberedAlone := h.numberedAlone.append e
  start := by
    rw [Store.replay_append h.numbered.bound h.numbered.seq]
    exact le_refl _
  span _ := by
    rw [Store.replay_append h.numbered.bound h.numbered.seq]
    exact (Int.sub_le_sub_left hnow horizon).trans_lt h.left
  left := (Int.sub_le_sub_left hnow horizon).trans_lt h.left
  worth last _ _ := by
    rw [Store.replay_append h.numbered.bound h.numbered.seq,
      Store.replay_append h.numberedAlone.bound h.numberedAlone.seq, Replay.finish_event,
      Replay.finish_event, h.abreast.bonded,
      computeSegmentBonus_congr h.abreast.exitUnlockAt, ← add_assoc]
    exact Int.add_le_add_right (h.worth e.timestamp hnow hhorizon) _

theorem Position.completedExitLockDuration_mono {p : Position} {now later : Time}
    (hle : now ≤ later) (h : p.completedExitLockDuration later = false) :
    p.completedExitLockDuration now = false := by
  unfold Position.completedExitLockDuration at *
  rw [Bool.and_eq_false_iff, decide_eq_false_iff_not, decide_eq_false_iff_not] at *
  exact h.imp_right fun hlate hnow ↦ hlate (hnow.trans hle)

/-- A claim moves a part of what the first position has pending to what it was paid. -/
theorem Compared.claim (h : Compared v shares tier horizon now counts rate paid s p t q)
    (hshares : 0 ≤ shares) (hapy : 0 ≤ tier.bonusApy) (hrate : 0 ≤ rate) {moment : Time}
    {bonded : Bool} (hnow : now ≤ moment) (hbonded : bonded = true → counts = true) :
    Compared v shares tier horizon moment counts rate
      (paid + s.bonus p shares tier v bonded rate moment)
      (s.replayed p v) (s.settled p shares tier v moment) t q where
  abreast := h.abreast.claim moment
  numbered := h.numbered.replayed shares tier moment
  numberedAlone := h.numberedAlone
  start := by
    rw [s.replay_replayed]
    change (p.applyBonusAccrualCheckpoint moment).lastBonusAccrual ≤ moment
    unfold Position.applyBonusAccrualCheckpoint Position.completedExitLockDuration
    dsimp only
    split_ifs with hexit
    · rw [Bool.and_eq_true, decide_eq_true_eq, decide_eq_true_eq] at hexit
      exact hexit.2
    · exact le_refl _
  span hopen := by
    rw [s.replay_replayed]
    change horizon - (p.applyBonusAccrualCheckpoint moment).lastBonusAccrual < 9223372036854775808
    unfold Position.applyBonusAccrualCheckpoint
    dsimp only
    have hlocked : p.completedExitLockDuration moment = false := hopen
    rw [if_neg (Bool.eq_false_iff.mp hlocked)]
    exact (Int.sub_le_sub_left hnow horizon).trans_lt h.left
  left := (Int.sub_le_sub_left hnow horizon).trans_lt h.left
  worth last hlast hend := by
    have hspan : p.completedExitLockDuration moment = false →
        last - (s.replay p shares tier v).segmentStart < 9223372036854775808 := fun hopen ↦
      (Int.sub_le_sub_right hend _).trans_lt
        (h.span (Position.completedExitLockDuration_mono hnow hopen))
    have hcut := Replay.finish_cut hshares hrate hapy hbonded (h.start.trans hnow) hlast hspan
    rw [s.replay_replayed, add_assoc]
    exact (Int.add_le_add_left hcut paid).trans (h.worth last (hnow.trans hlast) hend)

end Compared

/-! ### Whole runs -/

section Runs

variable {v : ValAddress} {del : Delegation} {tier : Tier} {ctx : Context} {ext : σ}
  {last : Validator}
  {entries : List (Occurrence σ)}

/-- The assumptions on a position, its validator and what happens to them up to a claim in the block
`ctx`, which finds the validator `last`: times do not go back, the validator does not change between
events, and shares, rates and the yield of the tier are not negative. -/
structure Timeline (K : Keepers σ) (v : ValAddress) (del : Delegation) (tier : Tier) (w : World σ)
    (p : Position) (entries : List (Occurrence σ)) (ctx : Context) (last : Validator) : Prop where
  numbered : w.store.Numbered v p
  ordered : (p.lastBonusAccrual :: (w.store.getValidatorEventsSince v p.lastEventSeq).map
      (fun entry ↦ entry.event.timestamp) ++
        (entries.map Occurrence.time ++ [ctx.blockTime])).Pairwise
    (· ≤ ·)
  steady : Occurrence.Steady K v last entries
  shares : 0 ≤ del.shares
  bonusApy : 0 ≤ tier.bonusApy
  rates : ∀ e, Occurrence.event e ∈ entries → 0 ≤ e.tokensPerShare
  lastRate : 0 ≤ last.tokensPerShare

/-- The comparison is kept along a run, and decides it at the claim that both make. -/
theorem Compared.claimAlong (hv : K.valCodec.stringToBytes del.validatorAddress = some v)
    (hlast : (K.staking ext).validators[v]? = some last) (hshares : 0 ≤ del.shares)
    (hapy : 0 ≤ tier.bonusApy) (hlastRate : 0 ≤ last.tokensPerShare) :
    ∀ {entries : List (Occurrence σ)} {now : Time} {paid total single : ℤ} {w₁ w₂ w₁' w₂' : World σ}
      {pos₁ pos₂ pos₁' pos₂' : PositionState},
      Compared v del.shares tier ctx.blockTime now (Occurrence.nextCounts last entries)
        (Occurrence.nextRate last entries) paid w₁.store pos₁.toPosition w₂.store pos₂.toPosition →
      (now :: (entries.map Occurrence.time ++ [ctx.blockTime])).Pairwise (· ≤ ·) →
      Occurrence.Steady K v last entries →
      (∀ e, Occurrence.event e ∈ entries → 0 ≤ e.tokensPerShare) →
      w₁.store.tiers[pos₁.tierId]? = some tier → pos₁.delegation = some del →
      pos₂.delegation = some del →
      Succeeds (claimAlong K v (entries ++ [.claim ctx ext]) pos₁) w₁ (pos₁', total) w₁' →
      Succeeds (claimAlong K v (entries.filter Occurrence.isEvent ++ [.claim ctx ext]) pos₂) w₂
        (pos₂', single) w₂' →
      paid + total ≤ single ∧ pos₁' = pos₂' ∧ w₁'.store = w₂'.store := by
  intro entries
  induction entries with
  | nil =>
    intro now paid total single w₁ w₂ w₁' w₂' pos₁ pos₂ pos₁' pos₂' hC htimes _ _ htier
      hdel₁ hdel₂ h₁ h₂
    have hnow : now ≤ ctx.blockTime := (List.pairwise_cons.mp htimes).1 _ List.mem_cons_self
    obtain ⟨posA, bonus₁, wA, rest₁, hclaim₁, hend₁, rfl⟩ := succeeds_claimAlong_claim h₁
    obtain ⟨posB, bonus₂, wB, rest₂, hclaim₂, hend₂, rfl⟩ := succeeds_claimAlong_claim h₂
    obtain ⟨tier₁, val₁, htier₁, hval₁, rfl, hstore₁, _, hbonus₁⟩ :=
      claimBonus_effect hdel₁ hv hclaim₁
    obtain ⟨tier₂, val₂, htier₂, hval₂, rfl, hstore₂, _, hbonus₂⟩ :=
      claimBonus_effect hdel₂ hv hclaim₂
    obtain rfl := Option.mem_unique htier htier₁
    obtain rfl := Option.mem_unique hlast hval₁
    obtain rfl := Option.mem_unique hlast hval₂
    have hsame : w₂.store.tiers[pos₂.tierId]? = w₁.store.tiers[pos₁.tierId]? := by
      rw [hC.abreast.store, congrArg Position.tierId hC.abreast.position]
    obtain rfl := Option.mem_unique htier (hsame.symm.trans htier₂)
    obtain ⟨hpos₁, rfl⟩ := succeeds_pure.mp hend₁
    obtain ⟨hpos₂, rfl⟩ := succeeds_pure.mp hend₂
    obtain ⟨rfl, rfl⟩ := Prod.mk.inj hpos₁
    obtain ⟨rfl, rfl⟩ := Prod.mk.inj hpos₂
    refine ⟨?_, ?_, ?_⟩
    · have hworth := hC.worth ctx.blockTime hnow (le_refl _)
      have hpaid₁ : bonus₁.amountOf (K.bondDenom ext) = _ := hbonus₁
      have hpaid₂ : bonus₂.amountOf (K.bondDenom ext) = _ := hbonus₂
      rw [hpaid₁, hpaid₂, add_zero, add_zero]
      exact hworth
    · unfold PositionState.withPosition
      rw [hdel₁, hdel₂]
      exact congrArg (PositionState.mk · (some del)) (hC.abreast.settled_eq ctx.blockTime)
    · rw [hstore₁, hstore₂]
      exact hC.abreast.replayed_eq
  | cons o rest ih =>
    intro now paid total single w₁ w₂ w₁' w₂' pos₁ pos₂ pos₁' pos₂' hC htimes hsteady
      hrates htier hdel₁
      hdel₂ h₁ h₂
    rw [List.map_cons, List.cons_append, List.pairwise_cons] at htimes
    obtain ⟨hnow, hrest⟩ := htimes
    have hmoment : now ≤ o.time := hnow _ List.mem_cons_self
    have hhorizon : o.time ≤ ctx.blockTime :=
      (List.pairwise_cons.mp hrest).1 _ (List.mem_append_right _ List.mem_cons_self)
    have hrates' : ∀ e, Occurrence.event e ∈ rest → 0 ≤ e.tokensPerShare :=
      fun e he ↦ hrates e (List.mem_cons_of_mem _ he)
    cases o with
    | event e =>
      refine ih ?_ hrest hsteady hrates' ?_ hdel₁ hdel₂ (succeeds_claimAlong_event.mp h₁)
        (succeeds_claimAlong_event.mp h₂)
      · exact hC.event hmoment hhorizon _ _
      · exact htier
    | claim ctx' ext' =>
      obtain ⟨pos, bonus, w, total₁, hclaim, hrun, rfl⟩ := succeeds_claimAlong_claim h₁
      obtain ⟨tier', val, htier', hval, rfl, hstore, _, hbonus⟩ := claimBonus_effect hdel₁ hv hclaim
      obtain rfl := Option.mem_unique htier htier'
      obtain ⟨hrate, hstatus⟩ := hsteady.1 val hval
      have hclaimed := hC.claim hshares hapy (Occurrence.nextRate_nonneg hlastRate hrates) hmoment
        (Occurrence.nextCounts_of_bonded hstatus)
      have hpaid : bonus.amountOf (K.bondDenom ext') =
          w₁.store.bonus pos₁.toPosition del.shares tier v
          val.isBonded (Occurrence.nextRate last rest) ctx'.blockTime := hrate ▸ hbonus
      rw [hpaid, ← add_assoc]
      refine ih ?_ hrest hsteady.2 hrates' ?_ ?_ hdel₂ hrun h₂
      · rw [hstore]
        exact hclaimed
      · rw [hstore]
        exact htier
      · exact hdel₁

theorem replay_segmentStart (r : Replay) (p : Position) (shares : Dec) (tier : Tier)
    (entries : List EventEntry) :
    (r.events p shares tier entries).segmentStart ∈
      r.segmentStart :: entries.map fun entry ↦ entry.event.timestamp := by
  rcases List.eq_nil_or_concat entries with rfl | ⟨rest, entry, rfl⟩
  · exact List.mem_cons_self
  · rw [List.concat_eq_append, replay_events_append]
    refine List.mem_cons_of_mem _ (List.mem_map.mpr ⟨entry, ?_, rfl⟩)
    exact List.mem_append_right _ List.mem_cons_self

theorem Timeline.compared {w : World σ} {p : Position}
    (h : Timeline K v del tier w p entries ctx last)
    (hspan : ctx.blockTime - p.lastBonusAccrual < 9223372036854775808) (counts : Bool)
    (rate : Dec) :
    Compared v del.shares tier ctx.blockTime (w.store.replay p del.shares tier v).segmentStart
      counts rate
      0 w.store p w.store p := by
  have hstart := replay_segmentStart (Replay.start p) p del.shares tier
    (w.store.getValidatorEventsSince v p.lastEventSeq)
  have hfirst : p.lastBonusAccrual ≤ (w.store.replay p del.shares tier v).segmentStart := by
    rcases List.mem_cons.mp hstart with heq | hmem
    · exact heq.symm.le
    · exact (List.pairwise_cons.mp (List.pairwise_append.mp h.ordered).1).1 _ hmem
  have hleft : ctx.blockTime - (w.store.replay p del.shares tier v).segmentStart <
      9223372036854775808 :=
    (Int.sub_le_sub_left hfirst _).trans_lt hspan
  exact ⟨Abreast.refl _ _, h.numbered, h.numbered, le_refl _, fun _ ↦ hleft, hleft,
    fun _ _ _ ↦ (zero_add _).le⟩

/-- The claim at the end of a run can be repeated in the same block: that pays nothing and changes
nothing. -/
theorem claimAlong_again {w w' : World σ} {pos pos' : PositionState} {total : ℤ}
    (hdel : pos.delegation = some del) (hv : K.valCodec.stringToBytes del.validatorAddress = some v)
    (h : Succeeds (claimAlong K v (entries ++ [.claim ctx ext]) pos) w (pos', total) w') {ext' : σ}
    {val : Validator} (hval : (K.staking ext').validators[v]? = some val) :
    Succeeds (claimBonus K pos') { w' with ext := ext' } (pos', ∅) { w' with ext := ext' } := by
  induction entries generalizing w pos total with
  | nil =>
    obtain ⟨pos₁, bonus, w₁, total₁, hclaim, hend, _⟩ := succeeds_claimAlong_claim h
    obtain ⟨hpos, rfl⟩ := succeeds_pure.mp hend
    obtain ⟨rfl, rfl⟩ := Prod.mk.inj hpos
    exact claimBonus_again hdel hv hclaim hval
  | cons o rest ih =>
    cases o with
    | event e => exact ih hdel (succeeds_claimAlong_event.mp h)
    | claim ctx' ext' =>
      obtain ⟨pos₁, bonus, w₁, total₁, hclaim, hrun, _⟩ := succeeds_claimAlong_claim h
      obtain ⟨_, _, _, _, rfl, _⟩ := claimBonus_effect hdel hv hclaim
      exact ih (by exact hdel) hrun

/-- Extra claims never pay more. A delegated position is claimed at a time, with or without claims
in between, along any events of its validator; between events the validator does not change, and the
time since the position last accrued fits a `time.Duration`. Then the claims with those in between
pay at most what the one claim pays, and they leave the same position and the same store, with the
same references to events. The last claim can be repeated in its block: that pays nothing and
changes nothing. -/
theorem extra_claims_never_pay_more {w w₁ w₂ : World σ} {pos pos₁ pos₂ : PositionState}
    {total single : ℤ} (hdel : pos.delegation = some del)
    (hv : K.valCodec.stringToBytes del.validatorAddress = some v)
    (htier : w.store.tiers[pos.tierId]? = some tier)
    (hlast : (K.staking ext).validators[v]? = some last)
    (htimeline : Timeline K v del tier w pos.toPosition entries ctx last)
    (hspan : ctx.blockTime - pos.lastBonusAccrual < 9223372036854775808)
    (hextra : Succeeds (claimAlong K v (entries ++ [.claim ctx ext]) pos) w (pos₁, total) w₁)
    (halone :
      Succeeds (claimAlong K v (entries.filter Occurrence.isEvent ++ [.claim ctx ext]) pos) w
      (pos₂, single) w₂) :
    total ≤ single ∧ pos₁ = pos₂ ∧ w₁.store = w₂.store ∧
      ∀ (ext' : σ) (val : Validator), (K.staking ext').validators[v]? = some val →
        Succeeds (claimBonus K pos₁) { w₁ with ext := ext' } (pos₁, ∅) { w₁ with ext := ext' } := by
  have hnow : ((w.store.replay pos.toPosition del.shares tier v).segmentStart ::
      (entries.map Occurrence.time ++ [ctx.blockTime])).Pairwise (· ≤ ·) := by
    obtain ⟨_, hlater, hcross⟩ := List.pairwise_append.mp htimeline.ordered
    exact List.pairwise_cons.mpr ⟨hcross _ (replay_segmentStart _ _ _ _ _), hlater⟩
  obtain ⟨hle, hpos, hstore⟩ := (htimeline.compared hspan _ _).claimAlong hv hlast htimeline.shares
    htimeline.bonusApy htimeline.lastRate hnow htimeline.steady htimeline.rates htier hdel hdel
    hextra halone
  rw [zero_add] at hle
  exact ⟨hle, hpos, hstore, fun ext' val hval ↦ claimAlong_again hdel hv hextra hval⟩

end Runs

/-! ### The reference position -/

namespace Reference

/-- The delegation of the reference position. -/
def delegation : Delegation := ⟨codec.bytesToString 10, codec.bytesToString 1, Dec.ofInt 1000000⟩

/-- The reference position with its delegation. -/
def positionState : PositionState := { position with delegation := some delegation }

def tier : Tier := ⟨1, 30 * 24 * 60 * 60 * second, ⟨50000000000000000⟩, 1000, false⟩

/-- The validator of the reference position. -/
def validator : Validator := ⟨.bonded, 5000000, Dec.ofInt 5000000⟩

/-- The block some years after the position was locked. -/
def blockAfter (years : ℤ) : Context := ⟨second + years * (secondsPerYear * second), 2, []⟩

/-- A claim some years after the position was locked. -/
def claimAfter (years : ℤ) : Occurrence Outside := .claim (blockAfter years) world₂.ext

/-- A slash that is recorded some years after the position was locked. -/
def slashAfter (years : ℤ) : Occurrence Outside :=
  .event ⟨2, second + years * (secondsPerYear * second), .slash, Dec.ofInt 1, 1⟩

theorem numbered_world₂ : world₂.store.Numbered 1 position where
  bound n e he := by
    have hnone : world₂.store.validatorEvents.toList = [] := by decide +kernel
    have hmem := mem_toList.mpr he
    rw [hnone] at hmem
    cases hmem
  seq := Nat.zero_le _

/-- Claims and slashes of the reference position, in order, up to a claim at the end. -/
theorem timeline_world₂ {entries : List (Occurrence Outside)} {years : ℤ}
    (hordered : (second :: (entries.map Occurrence.time ++ [(blockAfter years).blockTime])).Pairwise
      (· ≤ ·))
    (hentries : ∀ o ∈ entries, ∃ n, o = claimAfter n ∨ o = slashAfter n) :
    Timeline keepers 1 delegation tier world₂ position entries (blockAfter years) validator where
  numbered := numbered_world₂
  ordered := by
    have hnone : world₂.store.getValidatorEventsSince 1 position.lastEventSeq =
        [] := by decide +kernel
    rw [hnone]
    exact hordered
  steady := by
    have hrate : ∀ rest : List (Occurrence Outside),
        (∀ o ∈ rest, ∃ n, o = claimAfter n ∨ o = slashAfter n) →
          Occurrence.nextRate validator rest = validator.tokensPerShare := by
      intro rest hrest
      induction rest with
      | nil => rfl
      | cons o rest ih =>
        obtain ⟨n, rfl | rfl⟩ := hrest _ List.mem_cons_self
        · exact ih fun o ho ↦ hrest o (List.mem_cons_of_mem _ ho)
        · exact (by decide : Dec.ofInt 1 = validator.tokensPerShare)
    clear hordered
    induction entries with
    | nil => trivial
    | cons o rest ih =>
      have hrest : ∀ o ∈ rest, ∃ n, o = claimAfter n ∨ o = slashAfter n :=
        fun o ho ↦ hentries o (List.mem_cons_of_mem _ ho)
      obtain ⟨n, rfl | rfl⟩ := hentries _ List.mem_cons_self
      · refine ⟨fun val hval ↦ ?_, ih hrest⟩
        have hfound : (keepers.staking world₂.ext).validators[(1 : ℕ)]? = some validator := by
          decide +kernel
        obtain rfl := Option.mem_unique hfound hval
        exact ⟨(hrate rest hrest).symm, fun _ ↦ rfl⟩
      · exact ih hrest
  shares := by decide
  bonusApy := by decide
  rates e he := by
    obtain ⟨n, h | h⟩ := hentries _ he
    · cases h
    · cases h
      exact (by decide : (0 : Dec) ≤ Dec.ofInt 1)
  lastRate := by decide

end Reference

open Reference

/-- The reference position with a slash after two years, claimed after one, three and four years or
after four years only. -/
theorem extra_claims_never_pay_more_slashed :
    ∃ (total single : ℤ) (pos₁ pos₂ : PositionState) (w₁ w₂ : World Outside),
      Succeeds (claimAlong keepers 1 [claimAfter 1, slashAfter 2,
        claimAfter 3, claimAfter 4] positionState) world₂
        (pos₁, total) w₁ ∧
      Succeeds (claimAlong keepers 1 [slashAfter 2, claimAfter 4]
        positionState) world₂ (pos₂, single) w₂ ∧
      0 < total ∧ total ≤ single ∧ pos₁ = pos₂ ∧ w₁.store = w₂.store := by
  obtain ⟨⟨pos₁, total⟩, hpaid, hextra⟩ := succeeds_exec_of_any
    (P := fun result ↦ decide (0 < result.2)) (x := claimAlong keepers 1
      [claimAfter 1, slashAfter 2, claimAfter 3, claimAfter 4]
      positionState) (w := world₂) (by decide +kernel)
  obtain ⟨⟨pos₂, single⟩, _, halone⟩ := succeeds_exec_of_any (P := fun _ ↦ true)
    (x := claimAlong keepers 1 [slashAfter 2, claimAfter 4]
      positionState) (w := world₂) (by decide +kernel)
  have htimeline : Timeline keepers 1 delegation tier world₂
      position [claimAfter 1, slashAfter 2, claimAfter 3]
      (blockAfter 4) validator := by
    refine timeline_world₂ (by decide +kernel) fun o ho ↦ ?_
    simp only [List.mem_cons, List.not_mem_nil, or_false] at ho
    rcases ho with rfl | rfl | rfl
    exacts [⟨1, Or.inl rfl⟩, ⟨2, Or.inr rfl⟩, ⟨3, Or.inl rfl⟩]
  have hdel : positionState.delegation = some delegation := rfl
  have hv : keepers.valCodec.stringToBytes delegation.validatorAddress = some 1 := by
    decide
  have htier : world₂.store.tiers[positionState.tierId]? = some tier := by
    decide +kernel
  have hlast : (keepers.staking world₂.ext).validators[(1 : ℕ)]? =
      some validator := by
    decide +kernel
  have hspan : (blockAfter 4).blockTime - positionState.lastBonusAccrual <
      9223372036854775808 := by
    decide
  obtain ⟨hle, hpos, hstore, _⟩ := extra_claims_never_pay_more hdel hv htier hlast htimeline hspan
    hextra halone
  exact ⟨total, single, pos₁, pos₂, _, _, hextra, halone, of_decide_eq_true hpaid, hle,
    hpos, hstore⟩

/-- Over five hundred years the reference position is paid more when it is claimed half-way. -/
theorem claim_half_way_pays_more :
    Timeline keepers 1 delegation tier world₂ position
        [claimAfter 250] (blockAfter 500) validator ∧
      ∃ (total single : ℤ) (pos₁ pos₂ : PositionState) (w₁ w₂ : World Outside),
        Succeeds (claimAlong keepers 1 [claimAfter 250, claimAfter 500]
          positionState) world₂ (pos₁, total) w₁ ∧
        Succeeds (claimAlong keepers 1 [claimAfter 500] positionState)
          world₂ (pos₂, single) w₂ ∧
        single < total := by
  refine ⟨timeline_world₂ (by decide +kernel) fun o ho ↦
    ⟨250, Or.inl (List.mem_singleton.mp ho)⟩, ?_⟩
  obtain ⟨⟨pos₁, total⟩, htotal, hextra⟩ := succeeds_exec_of_any
    (P := fun result ↦ result.2 == 25000000) (x := claimAlong keepers 1
      [claimAfter 250, claimAfter 500] positionState)
    (w := world₂) (by decide +kernel)
  obtain ⟨⟨pos₂, single⟩, hsingle, halone⟩ := succeeds_exec_of_any
    (P := fun result ↦ decide (result.2 < 25000000)) (x := claimAlong keepers 1
      [claimAfter 500] positionState) (w := world₂) (by decide +kernel)
  exact ⟨total, single, pos₁, pos₂, _, _, hextra, halone,
    (of_decide_eq_true hsingle).trans_eq (eq_of_beq htotal).symm⟩

end ChainMain.TieredRewards
