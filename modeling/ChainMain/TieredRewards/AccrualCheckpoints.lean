import ChainMain.TieredRewards.ChainRuns
import ChainMain.TieredRewards.ReferenceKeepers

/-!
# The replay of the bonded flag

A position stores the bonded flag of its validator as of its last settlement and replays the events
recorded since. In every reachable world the replay ends with the status the validator has now
(`Ledger.Tracked`), and the segment it starts with does not start after its first event
(`Ledger.Accrued`). So the status check at the end of `processEventsAndClaimBonus` decides nothing
(`bonded_flag_replayed`).
-/

set_option autoImplicit false

namespace ChainMain.TieredRewards

open Foundations Decimal OrderedStore StoreProgram Runs

namespace Ledger

variable {codec : AddressCodec} {L L' : Ledger} {op : Op}

/-- The bonus of a position was settled at a time that has passed. -/
structure AccruedBy (L : Ledger) (p : Position) (v : ValAddress) : Prop where
  now : p.lastBonusAccrual ≤ L.now
  pending : ∀ (n : ℕ) (e : ValidatorEvent), p.lastEventSeq < n →
    L.store.validatorEvents[(v, n)]? = some e → p.lastBonusAccrual ≤ e.timestamp

/-- The bonus of every staked position was settled before the events it has pending. -/
def Accrued (codec : AddressCodec) (L : Ledger) : Prop :=
  ∀ (i : ℕ) (p : Position) (a : AccAddress) (v : ValAddress) (s : Dec), L.Holds codec i p a →
    L.StakedOn a v s → L.AccruedBy p v

/-- A position that has replayed the whole log has nothing pending. -/
theorem AccruedBy.of_latest {p : Position} {v : ValAddress} (hlog : L.Logged codec)
    (hseq : p.lastEventSeq = L.store.getValidatorEventLatestSeq v)
    (hnow : p.lastBonusAccrual ≤ L.now) :
    L.AccruedBy p v := by
  refine ⟨hnow, fun n e hlt he ↦ ?_⟩
  have hle := hlog.bound v n e he
  omega

theorem Settled.accruedBy {p : Position} {v : ValAddress} (h : L.Settled p v)
    (hlog : L.Logged codec) : L.AccruedBy p v := by
  refine .of_latest hlog h.seq ?_
  rw [h.accrual]
  split_ifs with hexit
  · simp only [Position.completedExitLockDuration, Bool.and_eq_true, decide_eq_true_eq] at hexit
    exact hexit.2
  · exact le_refl _

/-- A step leaves the checkpoints of a position in order if it keeps them. -/
theorem AccruedBy.step {p q : Position} {v : ValAddress} (hp : L.AccruedBy p v)
    (h : Step codec L op L') (hseq : q.lastEventSeq = p.lastEventSeq)
    (haccrual : q.lastBonusAccrual = p.lastBonusAccrual) : L'.AccruedBy q v := by
  refine ⟨haccrual ▸ hp.now.trans h.now_le, fun n e hlt he ↦ ?_⟩
  rw [hseq] at hlt
  rw [haccrual]
  rcases h.event_of he with ⟨e₀, he₀, hcontent⟩ | ⟨_, _, htime⟩
  · obtain ⟨_, htime, _, _, _⟩ := ValidatorEvent.mk.inj hcontent
    rw [← htime]
    exact hp.pending n e₀ hlt he₀
  · rw [htime]
    exact hp.now

theorem Step.accrued (h : Step codec L op L') (hL : L.Sound codec) (hA : L.Accrued codec) :
    L'.Accrued codec := by
  have hlog' := (h.sound hL).logged
  intro j r b v s hr hst
  have hstep := h
  by_cases hj : op.target = some j
  · -- the position the step is about, as it was written
    have hwritten : ∀ {i : ℕ} {p q : Position} {a : AccAddress}, L.Holds codec i p a → i = j →
        p.SameIdentity q → L'.store.positions = L.store.positions.insert q.id q →
          r = q ∧ b = a := by
      intro i p q a hp hij hsame hpositions
      rcases hr.of_put hp hsame (hpositions.trans (hL.indexed.insert_eq hp.stored hsame)) with
        ⟨_, hwritten⟩ | ⟨hne, _⟩
      · exact hwritten
      · exact absurd hij.symm hne
    cases h with
    | outside | tick | params | setTier | deleteTier | record | status | dropSeq | mature =>
      cases hj
    | @create _ p a owner u t tier _ hfresh _ _ haddress _ _ _ _ hstake _ hframe hstore =>
      have hstored := hr.stored
      rw [congrArg Store.positions hstore] at hstored
      change (L.store.positions.insert p.id p)[j]? = some r at hstored
      rw [getElem?_insert_eq, if_pos (Option.some.inj hj)] at hstored
      obtain rfl := Option.some.inj hstored
      have haccount := hr.account
      rw [haddress, codec.stringToBytes_bytesToString] at haccount
      obtain rfl := Option.some.inj haccount
      obtain ⟨rfl, _⟩ := hstake.unique hst
      refine .of_latest hlog' ?_ ?_
      · rw [hfresh.seq, hstore]
        rfl
      · rw [hfresh.accrual]
        exact hstep.now_le
    | @settle _ p a u t tier rate covered hp hstake htier =>
      obtain ⟨rfl, rfl⟩ := hwritten hp (Option.some.inj hj)
        (Position.sameIdentity_settled L.store p t tier u L.now) rfl
      obtain ⟨rfl, rfl⟩ := hstake.unique hst
      obtain ⟨hseq, hbonded, haccrual⟩ := hL.logged.settled hp hstake tier
        (hL.tracked _ p _ _ _ tier hp hstake)
      exact Settled.accruedBy ⟨hseq, hbonded, haccrual⟩ hlog'
    | @reshare _ _ p a u t t' hp hstake _ _ hstake' _ _ hstore =>
      have hstored := hr.stored
      rw [hstore, ← Option.some.inj hj, hp.stored] at hstored
      obtain rfl := Option.some.inj hstored
      obtain rfl := Option.mem_unique hp.account hr.account
      obtain ⟨rfl, _⟩ := hstake'.unique hst
      exact (hA _ p _ _ _ hp hstake).step hstep rfl rfl
    | @leave _ _ p a u t hp hstake _ hidle _ _ hstore =>
      obtain ⟨_, rfl⟩ :=
        hwritten hp (Option.some.inj hj) (Position.sameIdentity_clearBonusCheckpoints p)
        (congrArg Store.positions hstore)
      exact absurd hidle hst.not_idle
    | @move _ _ p a u u' t t' unbondingId hp hstake _ _ _ _ _ hstake' _ _ _ hframe hstore =>
      obtain ⟨rfl, rfl⟩ := hwritten hp (Option.some.inj hj)
        (Position.sameIdentity_updateBonusCheckpoints p _ _ _) (congrArg Store.positions hstore)
      obtain ⟨rfl, _⟩ := hstake'.unique hst
      refine .of_latest hlog' ?_ hstep.now_le
      rw [hstore]
      rfl
    | @remove _ p a owner hp _ _ =>
      have hstored := hr.stored
      change (L.store.positions.erase p.id)[j]? = some r at hstored
      rw [hL.indexed.id_eq _ p hp.stored, getElem?_erase_eq, if_pos (Option.some.inj hj)] at hstored
      cases hstored
    | @trigger _ p a tier hp _ _ _ =>
      obtain ⟨rfl, rfl⟩ :=
        hwritten hp (Option.some.inj hj) (Position.sameIdentity_triggerExit p _ _) rfl
      exact (hA _ p _ _ _ hp hst).step hstep rfl rfl
    | @clear _ p a accrual hp hcase =>
      obtain ⟨rfl, rfl⟩ :=
        hwritten hp (Option.some.inj hj) (Position.sameIdentity_clearExit p _) rfl
      rcases hcase with ⟨⟨u, t, hstake, hsettled⟩, rfl⟩ | ⟨hidle, _⟩
      · obtain ⟨rfl, _⟩ := hstake.unique hst
        exact .of_latest hlog' hsettled.seq (le_refl L.now)
      · exact absurd hidle hst.not_idle
  · have hr₀ : L.Holds codec j r b := ⟨(h.positions_eq hL.indexed hj) ▸ hr.stored, hr.account⟩
    have hst₀ : L.StakedOn b v s := hst.congr (h.stakes_eq hL.accounted hj hr₀).symm
    exact (hA j r b v s hr₀ hst₀).step h rfl rfl

theorem Accrued.run {τ : List (Transition Ledger Op)} (hA : L.Accrued codec) (hL : L.Sound codec)
    (h : Run (Step codec) L τ L') : L'.Accrued codec :=
  (h.invariant (P := fun L ↦ L.Sound codec ∧ L.Accrued codec) ⟨hL, hA⟩
    fun _ _ _ hs hstep ↦ ⟨hstep.sound hs.1, hstep.accrued hs.1 hs.2⟩).2

end Ledger

variable {σ : Type} {K : Keepers σ} {w : World σ}

theorem Reachable.accrued (hK : K.Contract) (h : Reachable K w) :
    (K.view w).Accrued K.accCodec := by
  obtain ⟨τ, w₀, hfresh, hrun⟩ := h
  have hempty : (K.view w₀).Accrued K.accCodec := by
    obtain ⟨params, _, hstore⟩ := hfresh.store
    intro i p a v s hp
    have hstored := hp.stored
    rw [show (K.view w₀).store.positions = ∅ from congrArg Store.positions hstore,
      Std.ExtTreeMap.getElem?_empty] at hstored
    cases hstored
  refine (hrun.invariant (P := fun w ↦ K.Sound w ∧ (K.view w).Accrued K.accCodec)
    ⟨hfresh.sound, hempty⟩ ?_).2
  rintro w₁ label w₂ ⟨hsound, haccrued⟩ hstep
  have heffect := hstep.effect hK hsound
  obtain ⟨_, hledger⟩ := heffect.run hsound
  exact ⟨heffect.sound hsound, haccrued.run hsound hledger⟩

/-- Of a position delegated to `v`: replaying the pending events of `v` from the stored flag gives
the status `v` has now, no pending event is before the last settlement, and the bonus does not
depend on the status check made after the replay. -/
theorem bonded_flag_replayed (hK : K.Contract) (h : Reachable K w) {id : ℕ} {p : Position}
    {a : AccAddress} {v : ValAddress} {shares : Dec} (hp : w.store.positions[id]? = some p)
    (ha : K.accCodec.stringToBytes p.delegatorAddress = some a)
    (hdelegation : (K.staking w.ext).delegations[(a, v)]? = some shares) :
    (w.store.getValidatorEventsSince v p.lastEventSeq).foldl
        (fun bonded entry ↦ entry.event.eventType.bondedAfter bonded) p.lastKnownBonded =
      (K.staking w.ext).isBonded v ∧
    (∀ entry ∈ w.store.getValidatorEventsSince v p.lastEventSeq,
      p.lastBonusAccrual ≤ entry.event.timestamp) ∧
    ∀ tier val rate, (K.staking w.ext).validators[v]? = some val →
      w.store.bonus p shares tier v val.isBonded rate w.ctx.blockTime =
        w.store.bonus p shares tier v true rate w.ctx.blockTime := by
  have hw := h.sound hK
  have hholds : (K.view w).Holds K.accCodec id p a := ⟨hp, ha⟩
  obtain ⟨hstake, _⟩ := hw.coherent.stakedOn_of_stakes hholds hdelegation
  have hflag : ∀ tier, (w.store.replay p shares tier v).bonded = (K.staking w.ext).isBonded v :=
    fun tier ↦ hw.tracked id p a v shares tier hholds hstake
  refine ⟨?_, fun entry hentry ↦ ?_, fun tier val rate hval ↦ ?_⟩
  · obtain ⟨tier, _⟩ := hw.indexed.tierStored id p hp
    rw [← hflag tier]
    exact (replay_bonded (Replay.start p) p shares tier _).symm
  · obtain ⟨hlt, hstored⟩ := mem_getValidatorEventsSince.mp hentry
    exact (h.accrued hK id p a v shares hholds hstake).pending entry.seq entry.event hlt hstored
  · have hbonded : (w.store.replay p shares tier v).bonded = val.isBonded := by
      rw [hflag tier, isBonded_eq hval]
    unfold Store.bonus Replay.finish
    rw [hbonded, Bool.and_self, Bool.and_true]

open Reference

/-- The position of the reference history has the event of the slash still to replay. -/
theorem bonded_flag_replayed_history :
    (world₄.store.getValidatorEventsSince 1 0).length = 1 ∧
      (world₄.store.getValidatorEventsSince 1 0).foldl
          (fun bonded entry ↦ entry.event.eventType.bondedAfter bonded) true =
        (keepers.staking world₄.ext).isBonded 1 :=
  ⟨by decide +kernel, (bonded_flag_replayed keepers_contract ⟨_, reaches_history⟩
    (show world₄.store.positions[0]? = some position by decide +kernel)
    (show keepers.accCodec.stringToBytes position.delegatorAddress = some 10 by
      decide +kernel)
    (show (keepers.staking world₄.ext).delegations[(10, 1)]? =
      some (Dec.ofInt 1000000) by decide +kernel)).1⟩

end ChainMain.TieredRewards
