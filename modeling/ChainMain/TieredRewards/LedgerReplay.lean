import ChainMain.Foundations.Runs
import ChainMain.TieredRewards.LedgerFrames

/-!
# Replays along the steps of the ledger

A step leaves the replay of a position it does not touch as it is, unless it records an event of the
position's validator, which prolongs the replay by that event (`Step.replay_eq`, `replay_record`).
So the bonded flag at the end of a replay follows the validator (`Ledger.Tracked`).

`Ledger.Sound` collects the invariants of the ledger, and `Step.sound` says that every step keeps
them.
-/

set_option autoImplicit false

namespace ChainMain.TieredRewards

open Foundations Decimal OrderedStore Runs

theorem Store.replay_of_events {s s' : Store} (h : s'.validatorEvents = s.validatorEvents)
    (p : Position) (shares : Dec) (tier : Tier) (v : ValAddress) :
    s'.replay p shares tier v = s.replay p shares tier v := by
  unfold Store.replay Store.getValidatorEventsSince
  rw [h]

/-- A position that has seen the latest event has nothing to replay. -/
theorem Store.replay_of_latest {s : Store} {p : Position} {v : ValAddress}
    (hbound : ∀ (n : ℕ) (e : ValidatorEvent), s.validatorEvents[(v, n)]? = some e →
      n ≤ s.getValidatorEventLatestSeq v)
    (hseq : p.lastEventSeq = s.getValidatorEventLatestSeq v) (shares : Dec) (tier : Tier) :
    s.replay p shares tier v = Replay.start p := by
  unfold Store.replay
  rw [getValidatorEventsSince_eq hbound, hseq, Nat.sub_self]
  rfl

namespace Ledger

variable {codec : AddressCodec} {L L' : Ledger}

/-- The flag a replay ends with depends on the checkpoints of the position only. -/
theorem replay_bonded_congr {s s' : Store} {p q : Position} {shares shares' : Dec}
    {tier tier' : Tier} {v : ValAddress} (hevents : s'.validatorEvents = s.validatorEvents)
    (hseq : q.lastEventSeq = p.lastEventSeq) (hbonded : q.lastKnownBonded = p.lastKnownBonded) :
    (s'.replay q shares tier v).bonded = (s.replay p shares' tier' v).bonded := by
  unfold Store.replay Store.getValidatorEventsSince
  rw [replay_bonded, replay_bonded, hseq, hevents]
  unfold Replay.start
  rw [hbonded]

/-- The events a position has pending keep their content when another position settles. -/
theorem Logged.replay_settle_other (hL : L.Logged codec) {p : Position} {v : ValAddress}
    {q : Position} {paid : ℕ → ℤ}
    (hL' : { L with store := (L.store.replayed p v).putPosition q, paid }.Logged codec)
    {j : ℕ} {r : Position} {u : ValAddress}
    (hr : ((L.store.replayed p v).putPosition q).positions[j]? = some r)
    (hstaked : L.staked codec u r) (shares : Dec) (tier : Tier) :
    ((L.store.replayed p v).putPosition q).replay r shares tier u =
      L.store.replay r shares tier u := by
  refine Store.replay_congr (fun n e ↦ hL.bound u n e) (fun n e ↦ hL'.bound u n e) rfl
    ?_ shares tier
  intro n hlt hn
  obtain ⟨e, he⟩ := hL'.complete j r u n hr (pending_iff.mpr ⟨hstaked, hlt⟩) hn
  change (L.store.replayed p v).validatorEvents[(u, n)]? = some e at he
  change ((L.store.replayed p v).validatorEvents[(u, n)]?).map _ = _
  rw [he]
  rw [getElem?_replayed] at he
  split_ifs at he
  · cases hold : L.store.validatorEvents[(u, n)]? with
    | none =>
      rw [hold] at he
      cases he
    | some e₀ =>
      rw [hold, dropReference_some] at he
      split_ifs at he
      obtain rfl := Option.some.inj he
      rfl
  · rw [he]

/-- A step does not change the replay of a position it does not settle, unless it records an event
of the position's validator. -/
theorem Step.replay_eq {op : Op} (h : Step codec L op L') (hL : L.Logged codec)
    (hL' : L'.Logged codec) {j : ℕ} {r : Position} {v : ValAddress}
    (hr' : L'.store.positions[j]? = some r) (hstaked : L.staked codec v r)
    (hop : ∀ eventType rate, op ≠ .record v eventType rate) (shares : Dec) (tier : Tier) :
    L'.store.replay r shares tier v = L.store.replay r shares tier v := by
  cases h with
  | outside hstore _ => rw [hstore]
  | create _ _ _ _ _ _ _ _ _ _ _ _ hstore =>
    rw [hstore]
    exact Store.replay_of_events rfl r shares tier v
  | settle rate covered hp hstake _ => exact hL.replay_settle_other hL' hr' hstaked shares tier
  | reshare _ _ _ _ _ _ _ hstore => rw [hstore]
  | leave _ _ _ _ _ _ hstore =>
    rw [hstore]
    exact Store.replay_of_events rfl r shares tier v
  | move _ _ _ _ _ _ _ _ _ _ _ _ _ hstore =>
    rw [hstore]
    exact Store.replay_of_events rfl r shares tier v
  | record u eventType rate height _ _ =>
    have hne : u ≠ v := by
      rintro rfl
      exact hop eventType rate rfl
    have hlatest : (L.store.appendValidatorEvent u ⟨height, L.now, eventType, rate,
        L.store.getPositionCountForValidator u⟩).getValidatorEventLatestSeq v =
          L.store.getValidatorEventLatestSeq v := by
      change ((L.store.validatorEventSeq.insert u _)[v]?).getD 0 = _
      rw [getElem?_insert_ne hne]
      rfl
    refine Store.replay_congr (fun n e ↦ hL.bound v n e) (fun n e ↦ hL'.bound v n e) hlatest ?_
      shares tier
    intro n _ _
    change ((L.store.validatorEvents.insert (u, _) _)[(v, n)]?).map _ = _
    rw [getElem?_insert_ne fun hkey ↦ hne (Prod.mk.inj hkey).1]
  | tick | params | setTier | deleteTier | remove | trigger | clear | status | dropSeq | mature =>
    exact Store.replay_of_events rfl r shares tier v

/-! ### The bonded flag -/

/-- Replaying the pending events of a position ends with the status its validator has now. -/
def Tracked (codec : AddressCodec) (L : Ledger) : Prop :=
  ∀ (i : ℕ) (p : Position) (a : AccAddress) (v : ValAddress) (s : Dec) (tier : Tier),
    L.Holds codec i p a → L.StakedOn a v s → (L.store.replay p s tier v).bonded = L.bonded v

theorem StakedOn.isStaked {p : Position} {a : AccAddress} {v : ValAddress} {s : Dec}
    (h : L.StakedOn a v s) (hp : codec.stringToBytes p.delegatorAddress = some a) :
    L.staked codec v p := by
  rw [h.staked hp]
  exact decide_eq_true rfl

theorem Coherent.count_ne_zero (hcoh : L.Coherent codec) {i : ℕ} {p : Position} {a : AccAddress}
    {v : ValAddress} {s : Dec} (hp : L.Holds codec i p a) (hstake : L.StakedOn a v s) :
    L.store.getPositionCountForValidator v ≠ 0 := by
  intro hcount
  have hsize : L.validatorSize codec v = 0 := by
    rw [← hcoh.counted.getD_eq v]
    exact hcount
  have hzero := count_eq_zero.mp hsize i p hp.stored
  rw [hstake.isStaked hp.account] at hzero
  cases hzero

theorem Tracked.of_untouched (hT : L.Tracked codec) {op : Op} (h : Step codec L op L')
    (hL : L.Logged codec) (hL' : L'.Logged codec) {j : ℕ} {r : Position} {b : AccAddress}
    {v : ValAddress} {s s' : Dec} {tier : Tier} (hr : L.Holds codec j r b)
    (hr' : L'.Holds codec j r b) (hstake : L.StakedOn b v s) (hbonded : L'.bonded v = L.bonded v)
    (hop : ∀ eventType rate, op ≠ .record v eventType rate) :
    (L'.store.replay r s' tier v).bonded = L'.bonded v := by
  have hreplay := h.replay_eq hL hL' hr'.stored (hstake.isStaked hr.account) hop s tier
  rw [hbonded, ← hT j r b v s tier hr hstake, ← hreplay]
  exact replay_bonded_congr rfl rfl rfl

theorem Step.tracked {op : Op} (h : Step codec L op L') (hindex : L.store.Indexed codec)
    (hacc : L.Accounted codec) (hcoh : L.Coherent codec) (hlog : L.Logged codec)
    (hL : L.Tracked codec) : L'.Tracked codec := by
  have hlog' := h.logged hindex hacc hcoh hlog
  intro j r b v s tier hr hst
  have hstep := h
  cases h with
  | outside hstore hframe =>
    have hr₀ : L.Holds codec j r b := ⟨hstore ▸ hr.stored, hr.account⟩
    exact hL.of_untouched hstep hlog hlog' hr₀ hr
      (hst.congr (hframe.stakes b hr₀.held (by simp)).symm) (congrFun hframe.bonded v) (by simp)
  | @create _ p a owner u t tier' _ hfresh _ _ haddress _ _ hbonded _ hstake _ hframe hstore =>
    have hstored := hr.stored
    rw [congrArg Store.positions hstore] at hstored
    change (L.store.positions.insert p.id p)[j]? = some r at hstored
    rw [getElem?_insert_eq] at hstored
    split_ifs at hstored with hj
    · obtain rfl := Option.some.inj hstored
      have haccount := hr.account
      rw [haddress, codec.stringToBytes_bytesToString] at haccount
      obtain rfl := Option.some.inj haccount
      obtain ⟨rfl, _⟩ := hstake.unique hst
      have hseq : p.lastEventSeq = L'.store.getValidatorEventLatestSeq v := by
        rw [hfresh.seq, hstore]
        rfl
      rw [Store.replay_of_latest (fun n e ↦ hlog'.bound v n e) hseq, congrFun hframe.bonded v,
        hbonded]
      exact hfresh.bonded
    · have hr₀ : L.Holds codec j r b := ⟨hstored, hr.account⟩
      exact hL.of_untouched hstep hlog hlog' hr₀ hr
        (hst.congr (hframe.stakes b hr₀.held (by simp)).symm) (congrFun hframe.bonded v) (by simp)
  | @settle id p a u t tier' rate covered hp hstake _ =>
    have hsame := Position.sameIdentity_settled L.store p t tier' u L.now
    rcases hr.of_put hp hsame (hindex.insert_eq hp.stored hsame) with ⟨_, rfl, rfl⟩ | ⟨_, hr₀⟩
    · obtain ⟨rfl, rfl⟩ := hstake.unique hst
      have hseq := hlog.replay_lastEventSeq hp.stored (hstake.isStaked hp.account) s tier'
      rw [Store.replay_of_latest (fun n e ↦ hlog'.bound v n e) hseq]
      exact hL id p b v s tier' hp hstake
    · exact hL.of_untouched hstep hlog hlog' hr₀ hr hst rfl (by simp)
  | @reshare _ id p a u t t' hp hstake _ _ hstake' _ hframe hstore =>
    have hr₀ : L.Holds codec j r b := ⟨hstore ▸ hr.stored, hr.account⟩
    by_cases hba : b = a
    · subst hba
      obtain ⟨rfl, _⟩ := hstake'.unique hst
      exact hL.of_untouched hstep hlog hlog' hr₀ hr hstake (congrFun hframe.bonded v) (by simp)
    · exact hL.of_untouched hstep hlog hlog' hr₀ hr
        (hst.congr (hframe.stakes_other b hr₀.held hba).symm) (congrFun hframe.bonded v) (by simp)
  | @leave _ id p a u t hp hstake _ hidle _ hframe hstore =>
    have hsame := Position.sameIdentity_clearBonusCheckpoints p
    have hput := (congrArg Store.positions hstore).trans (hindex.insert_eq hp.stored hsame)
    rcases hr.of_put hp hsame hput with ⟨_, _, rfl⟩ | ⟨hj, hr₀⟩
    · exact absurd hidle hst.not_idle
    · have hba : b ≠ a := by
        rintro rfl
        exact hj (hacc.distinct j id r p b hr₀ hp)
      exact hL.of_untouched hstep hlog hlog' hr₀ hr
        (hst.congr (hframe.stakes_other b hr₀.held hba).symm) (congrFun hframe.bonded v) (by simp)
  | @move _ id p a u u' t t' unbondingId hp hstake _ _ _ hbonded _ hstake' _ _ _ hframe hstore =>
    have hsame := Position.sameIdentity_updateBonusCheckpoints p
      (L.store.getValidatorEventLatestSeq u') L.now true
    have hput := (congrArg Store.positions hstore).trans (hindex.insert_eq hp.stored hsame)
    rcases hr.of_put hp hsame hput with ⟨_, rfl, rfl⟩ | ⟨hj, hr₀⟩
    · obtain ⟨rfl, _⟩ := hstake'.unique hst
      have hseq : L.store.getValidatorEventLatestSeq v = L'.store.getValidatorEventLatestSeq v := by
        rw [hstore]
        rfl
      rw [Store.replay_of_latest (fun n e ↦ hlog'.bound v n e) hseq, congrFun hframe.bonded v,
        hbonded]
      rfl
    · have hba : b ≠ a := by
        rintro rfl
        exact hj (hacc.distinct j id r p b hr₀ hp)
      exact hL.of_untouched hstep hlog hlog' hr₀ hr
        (hst.congr (hframe.stakes_other b hr₀.held hba).symm) (congrFun hframe.bonded v) (by simp)
  | @remove id p a owner hp _ _ =>
    obtain ⟨_, hstored⟩ := getElem?_of_erase hr.stored
    exact hL.of_untouched hstep hlog hlog' ⟨hstored, hr.account⟩ hr hst rfl (by simp)
  | @trigger id p a tier' hp _ _ _ =>
    have hsame := Position.sameIdentity_triggerExit p L.now tier'.exitDuration
    rcases hr.of_put hp hsame (hindex.insert_eq hp.stored hsame) with ⟨_, rfl, rfl⟩ | ⟨_, hr₀⟩
    · refine Eq.trans ?_ (hL id p b v s tier hp hst)
      apply replay_bonded_congr <;> rfl
    · exact hL.of_untouched hstep hlog hlog' hr₀ hr hst rfl (by simp)
  | @clear id p a accrual hp _ =>
    have hsame := Position.sameIdentity_clearExit p accrual
    rcases hr.of_put hp hsame (hindex.insert_eq hp.stored hsame) with ⟨_, rfl, rfl⟩ | ⟨_, hr₀⟩
    · refine Eq.trans ?_ (hL id p b v s tier hp hst)
      apply replay_bonded_congr <;> rfl
    · exact hL.of_untouched hstep hlog hlog' hr₀ hr hst rfl (by simp)
  | record u eventType rate height _ hcount =>
    have hr₀ : L.Holds codec j r b := ⟨hr.stored, hr.account⟩
    have hst₀ : L.StakedOn b v s := hst
    by_cases huv : u = v
    · subst huv
      have hle := hlog.seq_le j r u hr₀.stored (hst₀.isStaked hr₀.account)
      change ((L.store.appendValidatorEvent u _).replay r s tier u).bonded = _
      rw [Store.replay_append (fun n e ↦ hlog.bound u n e) hle]
      change eventType.bondedAfter (L.store.replay r s tier u).bonded =
        Function.update L.bonded u (eventType.bondedAfter (L.bonded u)) u
      rw [hL j r b u s tier hr₀ hst₀, Function.update_self]
    · refine hL.of_untouched hstep hlog hlog' hr₀ hr hst₀
        (Function.update_of_ne (Ne.symm huv) _ _) ?_
      intro eventType' rate' heq
      exact huv (Op.record.inj heq).1
  | status u eventType hcount =>
    have hst₀ : L.StakedOn b v s := hst
    have hne : v ≠ u := by
      rintro rfl
      exact hcoh.count_ne_zero ⟨hr.stored, hr.account⟩ hst₀ hcount
    exact hL.of_untouched hstep hlog hlog' ⟨hr.stored, hr.account⟩ hr hst₀
      (Function.update_of_ne hne _ _) (by simp)
  | tick | params | setTier | deleteTier | dropSeq | mature =>
    exact hL.of_untouched hstep hlog hlog' ⟨hr.stored, hr.account⟩ hr hst rfl (by simp)

/-! ### All invariants -/

structure Sound (codec : AddressCodec) (L : Ledger) : Prop where
  configured : L.store.Configured
  indexed : L.store.Indexed codec
  accounted : L.Accounted codec
  tidy : L.Tidy
  coherent : L.Coherent codec
  logged : L.Logged codec
  mapped : L.Mapped codec
  tracked : L.Tracked codec
  released : L.Released codec
  owned : L.Owned codec

theorem Step.sound {op : Op} (h : Step codec L op L') (hL : L.Sound codec) : L'.Sound codec where
  configured := h.configured hL.configured
  indexed := h.indexed hL.indexed
  accounted := h.accounted hL.indexed hL.accounted
  tidy := h.tidy hL.tidy
  coherent := h.coherent hL.indexed hL.accounted hL.coherent
  logged := h.logged hL.indexed hL.accounted hL.coherent hL.logged
  mapped := h.mapped hL.indexed hL.accounted hL.mapped
  tracked := h.tracked hL.indexed hL.accounted hL.coherent hL.logged hL.tracked
  released := h.released hL.indexed hL.released
  owned := h.owned hL.indexed hL.owned

theorem Sound.run {τ : List (Transition Ledger Op)} (hL : L.Sound codec)
    (h : Run (Step codec) L τ L') : L'.Sound codec :=
  h.invariant hL fun _ _ _ hs hstep ↦ hstep.sound hs

end Ledger

end ChainMain.TieredRewards
