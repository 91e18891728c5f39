import ChainMain.TieredRewards.ChainRuns
import ChainMain.TieredRewards.ReferenceKeepers

/-!
# The exit lock

Principal leaves a position by three messages, and each is let through only when the position's exit
was triggered and its unlock time has come. The unlock time is written once, when the exit is
triggered, as the block time plus the exit duration the tier has then; nothing but a clearing of the
exit touches it afterwards. So the history of a world tells when each exiting position may leave
(`UnlocksAt`).
-/

set_option autoImplicit false

namespace ChainMain.TieredRewards

open Foundations Decimal OrderedStore StoreProgram Runs

open Ledger (QuietRun)

variable {σ : Type} {K : Keepers σ} {w w' : World σ} {id : ℕ} {label : Label}
  {τ : List (Transition (World σ) Label)}

/-! ### Triggers and clears in a history -/

/-- The position whose exit a message triggers. -/
def Msg.triggersExit (w : World σ) : Msg → Option ℕ
  | .triggerExitFromTier msg => some msg.positionId
  | .lockTier msg => if msg.triggerExitImmediately then some w.store.nextPositionId else none
  | .commitDelegationToTier msg =>
    if msg.triggerExitImmediately then some w.store.nextPositionId else none
  | _ => none

/-- The position whose principal a message takes. -/
def Msg.takesPrincipal : Msg → Option ℕ
  | .tierUndelegate msg => some msg.positionId
  | .exitTierWithDelegation msg => some msg.positionId
  | .withdrawFromTier msg => some msg.positionId
  | _ => none

/-- A transition is a message that succeeds. -/
structure Accepts (K : Keepers σ) (t : Transition (World σ) Label) (msg : Msg) : Prop where
  label : t.label = .deliver msg
  ok : (deliver K msg t.source).1 = .ok ⟨⟩

/-- A transition triggers the exit of a position, whose tier has the given exit duration at the
time. -/
def TriggersExit (K : Keepers σ) (id : ℕ) (duration : Duration) (t : Transition (World σ) Label) :
    Prop :=
  (∃ msg, Accepts K t msg ∧ msg.triggersExit t.source = some id) ∧
    ∃ p tier, t.target.store.positions[id]? = some p ∧
      t.source.store.tiers[p.tierId]? = some tier ∧ tier.exitDuration = duration

/-- A transition clears the exit of a position. -/
def ClearsExit (K : Keepers σ) (id : ℕ) (t : Transition (World σ) Label) : Prop :=
  ∃ msg, Accepts K t msg ∧ msg.clears t.source id

/-- The history has triggered the exit of a position, has not cleared it since, and the exit
duration of that time ends at `unlockAt`. -/
def UnlocksAt (K : Keepers σ) (τ : List (Transition (World σ) Label)) (id : ℕ) (unlockAt : Time) :
    Prop :=
  ∃ τ₁ t τ₂ duration, τ = τ₁ ++ t :: τ₂ ∧ TriggersExit K id duration t ∧
    (∀ t' ∈ τ₂, ¬ ClearsExit K id t') ∧ unlockAt = t.source.ctx.blockTime + duration

theorem UnlocksAt.snoc {unlockAt : Time} {t : Transition (World σ) Label}
    (h : UnlocksAt K τ id unlockAt) (ht : ¬ ClearsExit K id t) :
    UnlocksAt K (τ ++ [t]) id unlockAt := by
  obtain ⟨τ₁, t₀, τ₂, duration, rfl, htrigger, hkept, hunlock⟩ := h
  refine ⟨τ₁, t₀, τ₂ ++ [t], duration, by simp, htrigger, ?_, hunlock⟩
  intro t' ht'
  rcases List.mem_append.mp ht' with ht' | ht'
  · exact hkept t' ht'
  · rw [List.mem_singleton.mp ht']
    exact ht

/-! ### Exits along a step of the chain -/

theorem Ledger.QuietRun.sameExit {codec : AddressCodec} {L L' : Ledger} (h : QuietRun codec L L')
    (hL : L.Sound codec) {p' : Position} (hp' : L'.store.positions[id]? = some p') :
    ∃ p, L.store.positions[id]? = some p ∧ p.SameExit p' := by
  obtain ⟨τ, hrun, hquiet⟩ := h
  induction hrun generalizing p' with
  | nil => exact ⟨p', hp', rfl, rfl⟩
  | @snoc τ M M' op hrun hstep ih =>
    have hop : op.exit = none := by
      have hlabel : op.quiet := hquiet ⟨M, op, M'⟩ (by simp)
      cases op with
      | create | trigger | clear => cases hlabel
      | _ => rfl
    obtain ⟨q, hq, hsame⟩ := hstep.sameExit (hL.run hrun).indexed hp' (by simp [hop])
    obtain ⟨p, hp, hsame'⟩ := ih hq fun t ht ↦ hquiet t (List.mem_append_left _ ht)
    exact ⟨p, hp, hsame'.trans hsame⟩

theorem Settlement.sameExit {j : ℕ} {p : Position} {a : AccAddress} {v : ValAddress} {s : Dec}
    {tier : Tier} {val : Validator} {covered : Bool}
    (h : Settlement K w j p a v s tier val covered w') (hw : K.Sound w) {p' : Position}
    (hp' : w'.store.positions[id]? = some p') :
    ∃ q, w.store.positions[id]? = some q ∧ q.SameExit p' := by
  rw [h.store] at hp'
  exact (Ledger.Step.settle val.tokensPerShare covered h.holds h.stake h.tierStored).sameExit
    hw.indexed hp' (by simp [Ledger.Op.exit])

theorem SettleRun.sameExit {ids : List ℕ} (h : SettleRun K w ids w')
    (hw : K.Sound w) {p' : Position} (hp' : w'.store.positions[id]? = some p') :
    ∃ p, w.store.positions[id]? = some p ∧ p.SameExit p' := by
  induction h with
  | nil w => exact ⟨p', hp', rfl, rfl⟩
  | settle hfirst _ ih =>
    obtain ⟨q, hq, hsame⟩ := ih (hfirst.sound hw) hp'
    obtain ⟨p, hp, hsame'⟩ := hfirst.sameExit hw hq
    exact ⟨p, hp, hsame'.trans hsame⟩
  | skip _ _ _ ih => exact ih hw hp'

/-- An exit in the world after a step was there before and is not cleared by the step, or the step
triggers it. -/
inductive ExitOrigin (K : Keepers σ) (w : World σ) (label : Label) (w' : World σ) (id : ℕ)
    (p' : Position) : Prop
  | kept {p : Position} (hp : w.store.positions[id]? = some p) (hsame : p.SameExit p')
      (hclear : ¬ ClearsExit K id ⟨w, label, w'⟩)
  | triggered {duration : Duration} (htrigger : TriggersExit K id duration ⟨w, label, w'⟩)
      (hunlock : p'.exitUnlockAt = w.ctx.blockTime + duration)

theorem not_clearsExit_of_label (hlabel : ∀ msg, label ≠ .deliver msg) :
    ¬ ClearsExit K id ⟨w, label, w'⟩ := by
  rintro ⟨msg, haccepts, _⟩
  exact hlabel msg haccepts.label

theorem not_clearsExit_of_msg {msg : Msg} (h : msg.clears w id = false) :
    ¬ ClearsExit K id ⟨w, .deliver msg, w'⟩ := by
  rintro ⟨msg', haccepts, hclears⟩
  obtain rfl := Label.deliver.inj haccepts.label
  change msg.clears w id = true at hclears
  rw [h] at hclears
  cases hclears

theorem Creates.exitOrigin {exiting : Bool} {msg : Msg} (h : Creates K w exiting w')
    (hw : K.Sound w) (hok : (deliver K msg w).1 = .ok ⟨⟩)
    (htriggers : exiting → msg.triggersExit w = some w.store.nextPositionId)
    (hclears : msg.clears w id = false) {p' : Position} (hp' : w'.store.positions[id]? = some p')
    (hexit : p'.hasTriggeredExit) : ExitOrigin K w (.deliver msg) w' id p' := by
  obtain ⟨removed, hquiet, hstep⟩ := h
  by_cases hid : w.store.nextPositionId = id
  · subst hid
    obtain ⟨p, tier, hp, htier, htriggered, hunlock⟩ := hstep.exit_create
    obtain rfl : p = p' := Option.mem_unique hp hp'
    unfold Position.hasTriggeredExit at hexit
    rw [htriggered] at hexit
    cases exiting with
    | false => cases hexit
    | true =>
      have htier' : w.store.tiers[p.tierId]? = some tier := by
        change (w.store.dropRemoved removed).tiers[p.tierId]? = _ at htier
        rwa [Store.dropRemoved_eq] at htier
      exact .triggered ⟨⟨msg, ⟨rfl, hok⟩, htriggers rfl⟩, p, tier, hp', htier', rfl⟩ hunlock
  · obtain ⟨q, hq, hsame⟩ := hstep.sameExit (hquiet.sound hw).indexed hp'
      (by simpa [Ledger.Op.exit] using hid)
    obtain ⟨p, hp, hsame'⟩ := hquiet.sameExit hw hq
    exact .kept hp (hsame'.trans hsame) (not_clearsExit_of_msg hclears)

theorem Effect.exitOrigin {msg : Msg} {w₁ : World σ} (h : Effect K w w₁ w' msg)
    (hw : K.Sound w) (hsettles : SettleRun K w (msg.settled w) w₁)
    (hok : (deliver K msg w).1 = .ok ⟨⟩) {p' : Position} (hp' : w'.store.positions[id]? = some p')
    (hexit : p'.hasTriggeredExit) : ExitOrigin K w (.deliver msg) w' id p' := by
  have hw₁ := hsettles.sound hw
  cases h with
  | quiet hclear hquiet =>
    obtain ⟨q, hq, hsame⟩ := hquiet.sameExit hw₁ hp'
    obtain ⟨p, hp, hsame'⟩ := hsettles.sameExit hw hq
    exact .kept hp (hsame'.trans hsame) (not_clearsExit_of_msg (hclear id))
  | lock _ hcreate => exact hcreate.exitOrigin hw hok (fun hexiting ↦ if_pos hexiting) rfl hp' hexit
  | commit _ hcreate =>
    exact hcreate.exitOrigin hw hok (fun hexiting ↦ if_pos hexiting) rfl hp' hexit
  | @trigger msg _ hstep =>
    by_cases hid : msg.positionId = id
    · subst hid
      obtain ⟨p, tier, hp, htier, hunlock⟩ := hstep.exit_trigger hw.indexed
      obtain rfl : p = p' := Option.mem_unique hp hp'
      exact .triggered ⟨⟨_, ⟨rfl, hok⟩, rfl⟩, p, tier, hp', htier, rfl⟩ hunlock
    · obtain ⟨p, hp, hsame⟩ := hstep.sameExit hw.indexed hp' (by simpa [Ledger.Op.exit] using hid)
      exact .kept hp hsame (not_clearsExit_of_msg rfl)
  | @clear msg _ hstep =>
    by_cases hid : msg.positionId = id
    · subst hid
      obtain ⟨p, hp, hzero⟩ := hstep.exit_clear hw₁.indexed
      obtain rfl : p = p' := Option.mem_unique hp hp'
      unfold Position.hasTriggeredExit at hexit
      rw [hzero] at hexit
      cases hexit
    · obtain ⟨q, hq, hsame⟩ := hstep.sameExit hw₁.indexed hp' (by simpa [Ledger.Op.exit] using hid)
      obtain ⟨p, hp, hsame'⟩ := hsettles.sameExit hw hq
      refine .kept hp (hsame'.trans hsame) (not_clearsExit_of_msg ?_)
      dsimp only [Msg.clears]
      rw [beq_false_of_ne hid, Bool.false_and]

theorem ChainEffect.exitOrigin (h : ChainEffect K w label w') (hw : K.Sound w)
    {p' : Position} (hp' : w'.store.positions[id]? = some p') (hexit : p'.hasTriggeredExit) :
    ExitOrigin K w label w' id p' := by
  cases h with
  | silent hlabel hquiet =>
    obtain ⟨p, hp, hsame⟩ := hquiet.sameExit hw hp'
    refine .kept hp hsame (not_clearsExit_of_label ?_)
    rintro msg rfl
    cases hlabel
  | @failed msg e herror =>
    refine .kept hp' ⟨rfl, rfl⟩ ?_
    rintro ⟨msg', haccepts, _⟩
    obtain rfl := Label.deliver.inj haccepts.label
    have hok := haccepts.ok
    change (deliver K msg w).1 = _ at hok
    rw [herror] at hok
    cases hok
  | delivered hok _ _ hsettles heffect => exact heffect.exitOrigin hw hsettles hok hp' hexit
  | noticed hlabel hrecords =>
    have hclear : ¬ ClearsExit K id ⟨w, label, w'⟩ := by
      refine not_clearsExit_of_label ?_
      rintro msg rfl
      cases hlabel
    rcases hrecords with hstep | ⟨_, hquiet⟩
    · obtain ⟨p, hp, hsame⟩ := hstep.sameExit hw.indexed hp' (by simp [Ledger.Op.exit])
      exact .kept hp hsame hclear
    · obtain ⟨p, hp, hsame⟩ := hquiet.sameExit hw hp'
      exact .kept hp hsame hclear
  | @slashed u shares _ hslashes =>
    have hclear : ¬ ClearsExit K id ⟨w, .redelegationSlashed u shares, w'⟩ :=
      not_clearsExit_of_label (by rintro msg ⟨⟩)
    rcases hslashes with ⟨_, hquiet⟩ | ⟨_, hsettle, _, hquiet⟩
    · obtain ⟨p, hp, hsame⟩ := hquiet.sameExit hw hp'
      exact .kept hp hsame hclear
    · obtain ⟨q, hq, hsame⟩ := hquiet.sameExit (hsettle.sound hw) hp'
      obtain ⟨p, hp, hsame'⟩ := hsettle.sameExit hw hq
      exact .kept hp (hsame'.trans hsame) hclear

/-! ### Along a history -/

/-- The unlock time of an exiting position is the one its history gives it. -/
theorem Reaches.unlocksAt (hK : K.Contract) (h : Reaches K τ w) {p : Position}
    (hp : w.store.positions[id]? = some p) (hexit : p.hasTriggeredExit) :
    UnlocksAt K τ id p.exitUnlockAt ∧ 0 < p.exitUnlockAt := by
  obtain ⟨w₀, hfresh, hrun⟩ := h
  induction hrun generalizing p with
  | nil =>
    obtain ⟨params, _, hstore⟩ := hfresh.store
    rw [hstore] at hp
    simp [Store.empty] at hp
  | @snoc τ w w' label hrun hstep ih =>
    have hw := Reaches.sound hK ⟨w₀, hfresh, hrun⟩
    rcases (hstep.effect hK hw).exitOrigin hw hp hexit with ⟨hq, hsame, hclear⟩
        | ⟨htrigger, hunlock⟩
    · unfold Position.hasTriggeredExit at hexit
      rw [hsame.triggeredAt] at hexit
      obtain ⟨hbefore, hpositive⟩ := ih hq hexit
      rw [hsame.unlockAt]
      exact ⟨hbefore.snoc hclear, hpositive⟩
    · refine ⟨⟨τ, _, [], _, rfl, htrigger, (fun t ht ↦ absurd ht List.not_mem_nil), hunlock⟩, ?_⟩
      obtain ⟨_, q, tier, _, htier, hduration⟩ := htrigger
      have hnow : 0 < w.ctx.blockTime := hw.coherent.now
      have hwait := Tier.exitDuration_pos (hw.indexed.tierValid _ tier htier).2
      rw [hunlock, ← hduration]
      exact add_pos hnow hwait

theorem takesPrincipal_checked {msg : Msg} {u : PUnit} (hmsg : msg.takesPrincipal = some id)
    (h : Succeeds (handle K msg) w u w') :
    ∃ p, w.store.positions[id]? = some p ∧ p.isOwner msg.signer ∧ p.hasTriggeredExit ∧
      p.completedExitLockDuration w.ctx.blockTime := by
  cases msg with
  | tierUndelegate msg =>
    obtain rfl := Option.some.inj hmsg
    obtain ⟨_, _, hrun, _⟩ := succeeds_bind.mp h
    unfold tierUndelegate at hrun
    simp only [succeeds_bind, succeeds_fromOutcome] at hrun
    obtain ⟨_, _, ⟨_, rfl⟩, pos, w₀, hload, _, _, hcheck, _⟩ := hrun
    obtain ⟨hstored, _, rfl⟩ := succeeds_getPositionState.mp hload
    obtain ⟨_, howner, _, hexit, hlock⟩ := succeeds_validateUndelegatePosition hcheck
    exact ⟨pos.toPosition, hstored, howner, hexit, hlock⟩
  | withdrawFromTier msg =>
    obtain rfl := Option.some.inj hmsg
    obtain ⟨_, _, hrun, _⟩ := succeeds_bind.mp h
    unfold withdrawFromTier at hrun
    simp only [succeeds_bind, succeeds_fromOutcome] at hrun
    obtain ⟨_, _, ⟨_, rfl⟩, pos, w₀, hload, _, _, hcheck, _⟩ := hrun
    obtain ⟨hstored, _, rfl⟩ := succeeds_getPositionState.mp hload
    obtain ⟨_, howner, hexit, hlock, _, _⟩ := succeeds_validateWithdrawFromTier hcheck
    exact ⟨pos.toPosition, hstored, howner, hexit, hlock⟩
  | exitTierWithDelegation msg =>
    obtain rfl := Option.some.inj hmsg
    obtain ⟨_, _, hrun, _⟩ := succeeds_bind.mp h
    unfold exitTierWithDelegation at hrun
    simp only [succeeds_bind, succeeds_fromOutcome] at hrun
    obtain ⟨_, _, ⟨_, rfl⟩, pos, w₀, hload, _, _, hcheck, _⟩ := hrun
    obtain ⟨hstored, _, rfl⟩ := succeeds_getPositionState.mp hload
    obtain ⟨_, howner, _, hexit, hlock, _⟩ := succeeds_validateExitTierWithDelegation hcheck
    exact ⟨pos.toPosition, hstored, howner, hexit, hlock⟩
  | _ => cases hmsg

theorem completedExitLockDuration_iff {p : Position} {now : Time} (h : 0 < p.exitUnlockAt) :
    p.completedExitLockDuration now = true ↔ p.exitUnlockAt ≤ now := by
  unfold Position.completedExitLockDuration
  rw [Bool.and_eq_true, decide_eq_true_eq, decide_eq_true_eq]
  exact ⟨fun hboth ↦ hboth.2, fun hle ↦ ⟨h.ne', hle⟩⟩

/-- Principal leaves a position only by its owner's message and only after the wait of an exit that
was triggered before and has not been cleared since. That wait is the exit duration the tier had at
the time of the trigger: whatever happened to the tier since, the lock runs out exactly then. -/
theorem principal_leaves_after_exit_lock (hK : K.Contract) (h : Reaches K τ w) :
    (∀ (msg : Msg) (id : ℕ), msg.takesPrincipal = some id → (deliver K msg w).1 = .ok ⟨⟩ →
      ∃ p, w.store.positions[id]? = some p ∧ p.owner = msg.signer ∧
        ∃ unlockAt, UnlocksAt K τ id unlockAt ∧ unlockAt ≤ w.ctx.blockTime) ∧
      ∀ (id : ℕ) (p : Position), w.store.positions[id]? = some p → p.hasTriggeredExit →
        ∃ unlockAt, UnlocksAt K τ id unlockAt ∧
          ∀ now, p.completedExitLockDuration now = true ↔ unlockAt ≤ now := by
  constructor
  · intro msg id hmsg hok
    rcases atomically_cases (handle K msg) w with ⟨_, hsuccess, _⟩ | ⟨⟨e, herror⟩, _⟩
    · obtain ⟨p, hp, howner, hexit, hlock⟩ := takesPrincipal_checked hmsg hsuccess
      obtain ⟨hunlocks, hpositive⟩ := h.unlocksAt hK hp hexit
      exact ⟨p, hp, beq_iff_eq.mp howner, p.exitUnlockAt, hunlocks,
        (completedExitLockDuration_iff hpositive).mp hlock⟩
    · change (atomically (handle K msg) w).1 = .ok ⟨⟩ at hok
      rw [herror] at hok
      cases hok
  · intro id p hp hexit
    obtain ⟨hunlocks, hpositive⟩ := h.unlocksAt hK hp hexit
    exact ⟨p.exitUnlockAt, hunlocks, fun now ↦ completedExitLockDuration_iff hpositive⟩

open Reference

/-- At the end of the reference history the owner takes the stake of the position out. -/
theorem principal_leaves_after_exit_lock_history :
    (deliver keepers (.exitTierWithDelegation ⟨user, 0, 1000000⟩)
        world₆).1.isOk ∧
      ∃ unlockAt, UnlocksAt keepers exitHistory 0 unlockAt ∧
        unlockAt ≤ world₆.ctx.blockTime := by
  have hok : (deliver keepers (.exitTierWithDelegation ⟨user, 0, 1000000⟩)
      world₆).1.isOk := by
    decide +kernel
  refine ⟨hok, ?_⟩
  have hsafe := principal_leaves_after_exit_lock keepers_contract
    reaches_exitHistory
  obtain ⟨_, _, _, hunlocks⟩ := hsafe.1 (.exitTierWithDelegation ⟨user, 0, 1000000⟩) 0 rfl
    (eq_ok_of_isOk hok)
  exact hunlocks

end ChainMain.TieredRewards
