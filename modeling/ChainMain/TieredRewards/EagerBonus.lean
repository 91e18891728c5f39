import ChainMain.TieredRewards.ChainRuns
import ChainMain.TieredRewards.LedgerBonus
import ChainMain.TieredRewards.ReferenceKeepers

/-!
# The lazy bonus pays what an eager reference credits

`eager` reads a history and credits one position as the chain goes along, without any event log: at
each event of its validator and at each of its settlements it adds `computeSegmentBonus` for the
time since the last credit, if the validator was bonded during that time, with the shares, the tier,
the tokens per share and the exit of the world the transition starts in. `lazy_bonus_eq_eager` says
that the bonus paid up to a settlement is what the reference has credited by then.

The one place where an uncovered bonus goes unpaid without an error is the settlement before a
redelegation slash; `PoolCovers` excludes it.
-/

set_option autoImplicit false

namespace ChainMain.TieredRewards

open Foundations Decimal OrderedStore StoreProgram Runs

open Ledger (QuietRun)

variable {σ : Type} {K : Keepers σ} {w w' : World σ} {id : ℕ} {c : Credit} {p : Position}
  {a : AccAddress} {v : ValAddress} {s : Dec} {tier : Tier} {label : Label}

/-! ### The reference -/

/-- What a position earns with: the position, its validator, its shares and its tier. -/
def earning (K : Keepers σ) (w : World σ) (id : ℕ) :
    Option (Position × ValAddress × Dec × Tier) := do
  let p ← w.store.positions[id]?
  let a ← K.accCodec.stringToBytes p.delegatorAddress
  let (v, s) ← ((K.staking w.ext).delegationsOf a).head?
  let tier ← w.store.tiers[p.tierId]?
  return (p, v, s, tier)

/-- The positions a step settles, if they are delegated. -/
def Label.settles (K : Keepers σ) (w : World σ) : Label → List ℕ
  | .deliver msg =>
    match (TieredRewards.deliver K msg w).1 with
    | .ok _ => msg.settled w
    | .error _ => []
  | .redelegationSlashed unbondingId _ => (w.store.redelegationMappings[unbondingId]?).toList
  | _ => []

theorem Label.event_of_silent (h : label.silent) : label.event = none := by
  cases label <;> first | rfl | cases h

theorem Label.settles_of_silent (h : label.silent) : label.settles K w = [] := by
  cases label <;> first | rfl | cases h

theorem Label.settles_of_event {event : ValAddress × ValidatorEventType}
    (h : label.event = some event) : label.settles K w = [] := by
  cases label <;> first | rfl | cases h

/-- One transition of the reference. A position that earns nothing starts its first segment when it
begins to. -/
def eagerStep (K : Keepers σ) (id : ℕ) (c : Credit) (t : Transition (World σ) Label) : Credit :=
  match earning K t.source id with
  | some (p, v, s, tier) =>
    if t.label.event.map Prod.fst = some v ∨ id ∈ t.label.settles K t.source then
      c.segment p s tier ((K.staking t.source.ext).isBonded v) (K.rate t.source v)
        t.source.ctx.blockTime
    else c
  | none => ⟨c.total, t.source.ctx.blockTime⟩

/-- What the reference has credited to a position by the end of a history. -/
def eager (K : Keepers σ) (id : ℕ) (τ : List (Transition (World σ) Label)) : Credit :=
  τ.foldl (eagerStep K id) ⟨0, 0⟩

/-- The rewards pool covers the bonus that is settled before a redelegation slash. -/
def PoolCovers (K : Keepers σ) (w : World σ) (label : Label) : Prop :=
  ∀ unbondingId shares, label = .redelegationSlashed unbondingId shares →
    ∀ id, w.store.redelegationMappings[unbondingId]? = some id →
      ∀ pos, Succeeds (getPositionState K id) w pos w →
        ∀ e, ((processEventsAndClaimBonus K pos).run w).1.2 = .error e →
          e.is .insufficientBonusPool = false

/-- The steps of the chain in which the rewards pool covers the payouts. -/
def CoveredStep (K : Keepers σ) (w : World σ) (label : Label) (w' : World σ) : Prop :=
  ChainStep K w label w' ∧ PoolCovers K w label

theorem earning_eq_some (hw : K.Sound w) :
    earning K w id = some (p, v, s, tier) ↔ ∃ a, (K.view w).Earns K.accCodec id p a v s tier := by
  unfold earning
  simp only [Option.bind_eq_bind, Option.bind_eq_some_iff, Option.pure_def, Option.some.injEq,
    Prod.mk.injEq, Prod.exists]
  constructor
  · rintro ⟨q, hq, b, hb, u, t, hhead, tier', htier, rfl, rfl, rfl, rfl⟩
    have hholds : (K.view w).Holds K.accCodec id q b := ⟨hq, hb⟩
    rcases hw.coherent.backed id q b hholds with ⟨x, y, hstake, _, _⟩ | ⟨hidle, _⟩
    · rw [head?_delegationsOf hstake] at hhead
      obtain ⟨rfl, rfl⟩ := Prod.mk.inj (Option.some.inj hhead)
      exact ⟨b, hholds, hstake, htier⟩
    · have hfirst := firstDelegation_eq_none.mpr hidle
      unfold firstDelegation at hfirst
      rw [hhead] at hfirst
      cases hfirst
  · rintro ⟨b, hearns⟩
    exact ⟨p, hearns.holds.stored, b, hearns.holds.account, v, s, head?_delegationsOf hearns.stake,
      tier, hearns.tierStored, rfl, rfl, rfl, rfl⟩

theorem earning_eq_none (hw : K.Sound w) (h : earning K w id = none) (p : Position)
    (a : AccAddress) (v : ValAddress) (s : Dec) (tier : Tier) :
    ¬ (K.view w).Earns K.accCodec id p a v s tier := by
  intro hearns
  rw [(earning_eq_some hw).mpr ⟨a, hearns⟩] at h
  cases h

/-! ### Books along quiet runs and settlements -/

theorem Ledger.QuietRun.books {codec : AddressCodec} {L L' : Ledger} (h : QuietRun codec L L')
    (hL : L.Sound codec) (hB : L.Books codec id c) :
    L'.Books codec id c ∧ L'.paid id = L.paid id := by
  obtain ⟨τ, hrun, hquiet⟩ := h
  induction hrun with
  | nil => exact ⟨hB, rfl⟩
  | @snoc τ M M' op hrun hstep ih =>
    obtain ⟨hbooks, hpaid⟩ := ih fun t ht ↦ hquiet t (List.mem_append_left _ ht)
    have hop : op.quiet := hquiet ⟨M, op, M'⟩ (by simp)
    have hsettle : ∀ v rate covered, op ≠ .settle id v rate covered := by
      rintro v rate covered rfl
      cases hop
    refine ⟨hstep.books_kept (hL.run hrun) hbooks ?_ hsettle ?_ ?_,
      (hstep.paid_eq hsettle).trans hpaid⟩
    · rintro exiting rfl
      cases hop
    · rintro rfl
      cases hop
    · rintro p a v s tier _ eventType rate rfl
      cases hop

theorem rate_eq {val : Validator} (h : (K.staking w.ext).validators[v]? = some val) :
    K.rate w v = val.tokensPerShare := by
  unfold Keepers.rate
  rw [h]
  rfl

section Settlement

variable {j : ℕ} {q : Position} {b : AccAddress} {u : ValAddress} {t : Dec} {tier' : Tier}
  {val : Validator} {covered : Bool}

/-- The settlement of another position changes neither the books nor what the position earns
with. -/
theorem Settlement.books_other (h : Settlement K w j q b u t tier' val covered w')
    (hw : K.Sound w) (hj : j ≠ id) (hB : (K.view w).Books K.accCodec id c) :
    (K.view w').Books K.accCodec id c := by
  obtain ⟨L, hsettle, houtside⟩ := h.steps hw
  have hbooks := hsettle.books_kept hw hB (by simp) (by simp [hj]) (by simp) (by simp)
  exact houtside.books_kept (hsettle.sound hw) hbooks (by simp) (by simp) (by simp) (by simp)

theorem Settlement.earns_other (h : Settlement K w j q b u t tier' val covered w')
    (hw : K.Sound w) (hj : j ≠ id) :
    (K.view w').Earns K.accCodec id p a v s tier ↔ (K.view w).Earns K.accCodec id p a v s tier := by
  obtain ⟨L, hsettle, houtside⟩ := h.steps hw
  exact (houtside.earns_iff (hsettle.sound hw) (by simp [Ledger.Op.target]) (by simp)).trans
    (hsettle.earns_iff hw (by simpa [Ledger.Op.target] using hj) (by simp))

/-- A settlement that is paid brings the position to what the reference credits. -/
theorem Settlement.books (h : Settlement K w id p a v s tier val true w')
    (hw : K.Sound w) (hB : (K.view w).Books K.accCodec id c) :
    (K.view w').Books K.accCodec id
        (c.segment p s tier ((K.staking w.ext).isBonded v) (K.rate w v) w.ctx.blockTime) ∧
      (c.segment p s tier ((K.staking w.ext).isBonded v) (K.rate w v) w.ctx.blockTime).total =
        bonusPaid w'.emitted id := by
  obtain ⟨L, hsettle, houtside⟩ := h.steps hw
  obtain ⟨hbooks, hpaid⟩ := hsettle.books_settle hw hB ⟨h.holds, h.stake, h.tierStored⟩
  rw [rate_eq h.validator]
  refine ⟨houtside.books_kept (hsettle.sound hw) hbooks (by simp) (by simp) (by simp) (by simp), ?_⟩
  exact hpaid.trans (houtside.paid_eq (by simp)).symm

end Settlement

/-- The books of a position that is not among those settled, or earns nothing. -/
theorem SettleRun.books_other {ids : List ℕ} (h : SettleRun K w ids w') (hw : K.Sound w)
    (hid : id ∉ ids ∨ ∀ p a v s tier, ¬ (K.view w).Earns K.accCodec id p a v s tier)
    (hB : (K.view w).Books K.accCodec id c) : (K.view w').Books K.accCodec id c := by
  induction h with
  | nil w => exact hB
  | @settle w w₁ w' j ids q b u t tier' val hfirst _ ih =>
    have hj : j ≠ id := by
      rintro rfl
      rcases hid with hid | hid
      · exact hid List.mem_cons_self
      · exact hid q b u t tier' ⟨hfirst.holds, hfirst.stake, hfirst.tierStored⟩
    refine ih (hfirst.sound hw) (hid.imp (fun hne hmem ↦ hne (List.mem_cons_of_mem _ hmem)) ?_)
      (hfirst.books_other hw hj hB)
    intro hnone p a v s tier hearns
    exact hnone p a v s tier ((hfirst.earns_other hw hj).mp hearns)
  | skip _ _ _ ih =>
    exact ih hw (hid.imp_left fun hne hmem ↦ hne (List.mem_cons_of_mem _ hmem)) hB

theorem SettleRun.paid_other {ids : List ℕ} (h : SettleRun K w ids w') (hid : id ∉ ids) :
    bonusPaid w'.emitted id = bonusPaid w.emitted id := by
  induction h with
  | nil w => rfl
  | settle hfirst _ ih =>
    obtain ⟨hne, hrest⟩ := not_or.mp (fun hmem ↦ hid (List.mem_cons.mpr hmem))
    rw [ih hrest, hfirst.paid, if_pos rfl, Function.update_of_ne hne]
  | skip _ _ _ ih => exact ih fun hmem ↦ hid (List.mem_cons_of_mem _ hmem)

theorem SettleRun.books {ids : List ℕ} (h : SettleRun K w ids w') (hnodup : ids.Nodup)
    (hw : K.Sound w) (hid : id ∈ ids)
    (hearns : (K.view w).Earns K.accCodec id p a v s tier) (hB : (K.view w).Books K.accCodec id c) :
    (K.view w').Books K.accCodec id
        (c.segment p s tier ((K.staking w.ext).isBonded v) (K.rate w v) w.ctx.blockTime) ∧
      (c.segment p s tier ((K.staking w.ext).isBonded v) (K.rate w v) w.ctx.blockTime).total =
        bonusPaid w'.emitted id := by
  induction h with
  | nil w => cases hid
  | @settle w w₁ w' j ids q b u t tier' val hfirst hrest ih =>
    obtain ⟨hnew, hnodup'⟩ := List.nodup_cons.mp hnodup
    by_cases hj : j = id
    · subst hj
      obtain ⟨rfl, rfl, rfl, rfl, rfl⟩ :=
        Ledger.Earns.unique ⟨hfirst.holds, hfirst.stake, hfirst.tierStored⟩ hearns
      obtain ⟨hbooks, hpaid⟩ := hfirst.books hw hB
      exact ⟨hrest.books_other (hfirst.sound hw) (Or.inl hnew) hbooks,
        hpaid.trans (hrest.paid_other hnew).symm⟩
    · have hsame := ih hnodup' (hfirst.sound hw) (List.mem_of_ne_of_mem (Ne.symm hj) hid)
        ((hfirst.earns_other hw hj).mpr hearns) (hfirst.books_other hw hj hB)
      unfold Keepers.rate at hsame ⊢
      rw [hfirst.outside.staking, hfirst.ctx] at hsame
      exact hsame
  | @skip w w' j ids q b hp hidle _ ih =>
    have hj : id ≠ j := by
      rintro rfl
      exact hp.rests hidle _ _ _ _ _ hearns
    exact ih (List.nodup_cons.mp hnodup).2 hw (List.mem_of_ne_of_mem hj hid) hearns hB

/-! ### Books along a step of the chain -/

/-- The books of a position of which a message creates or clears nothing, or which has just been
credited. -/
theorem Creates.books {exiting : Bool} (h : Creates K w exiting w') (hw : K.Sound w)
    (hnew : w.store.nextPositionId = id → c.since = w.ctx.blockTime)
    (hB : (K.view w).Books K.accCodec id c) :
    (K.view w').Books K.accCodec id c ∧ bonusPaid w'.emitted id = bonusPaid w.emitted id := by
  obtain ⟨removed, hquiet, hstep⟩ := h
  obtain ⟨hbooks, hpaid⟩ := hquiet.books hw hB
  refine ⟨?_, (hstep.paid_eq (by simp)).trans hpaid⟩
  by_cases hid : w.store.nextPositionId = id
  · subst hid
    have hcreated := hstep.books_create (hquiet.sound hw) hbooks
    have hcredit : (⟨c.total, w.ctx.blockTime⟩ : Credit) = c := by rw [← hnew rfl]
    exact Eq.mp (congrArg _ hcredit) hcreated
  · exact hstep.books_kept (hquiet.sound hw) hbooks (by simp [hid]) (by simp) (by simp) (by simp)

theorem Effect.books {msg : Msg} {w₁ : World σ} (h : Effect K w w₁ w' msg)
    (hw₁ : K.Sound w₁)
    (hnew : w.store.nextPositionId = id → c.since = w.ctx.blockTime)
    (hcredited : id ∈ msg.settled w → ∀ p a v s tier, (K.view w₁).Earns K.accCodec id p a v s tier →
      c.since = w₁.ctx.blockTime)
    (hB : (K.view w₁).Books K.accCodec id c) :
    (K.view w').Books K.accCodec id c ∧ bonusPaid w'.emitted id = bonusPaid w₁.emitted id := by
  cases h with
  | quiet _ hquiet => exact hquiet.books hw₁ hB
  | lock hworld hcreate =>
    subst hworld
    exact hcreate.books hw₁ hnew hB
  | commit hworld hcreate =>
    subst hworld
    exact hcreate.books hw₁ hnew hB
  | trigger hworld hstep =>
    subst hworld
    exact ⟨hstep.books_kept hw₁ hB (by simp) (by simp) (by simp) (by simp),
      hstep.paid_eq (by simp)⟩
  | @clear msg hsettled hstep =>
    refine ⟨hstep.books_kept hw₁ hB (by simp) (by simp) ?_ (by simp), hstep.paid_eq (by simp)⟩
    intro hop
    obtain rfl := Ledger.Op.clear.inj hop
    refine hcredited ?_
    rw [hsettled]
    exact List.mem_singleton_self _

theorem nextPositionId_ne (hw : K.Sound w)
    (hearns : (K.view w).Earns K.accCodec id p a v s tier) : w.store.nextPositionId ≠ id := by
  rintro rfl
  exact lt_irrefl _ (hw.indexed.id_lt _ p hearns.holds.stored)

/-- The books of a position that earns nothing do not depend on when its segment starts. -/
theorem Ledger.Books.restart {codec : AddressCodec} {L : Ledger} (hB : L.Books codec id c)
    (hnone : ∀ p a v s tier, ¬ L.Earns codec id p a v s tier) (since : Time) :
    L.Books codec id ⟨c.total, since⟩ :=
  .of_rests hnone (hB.resting hnone)

/-- A step of the chain keeps the books of a position that earns nothing before it. -/
theorem ChainEffect.books_resting (h : ChainEffect K w label w') (hw : K.Sound w)
    (hnone : ∀ p a v s tier, ¬ (K.view w).Earns K.accCodec id p a v s tier)
    (hsince : c.since = w.ctx.blockTime) (hB : (K.view w).Books K.accCodec id c) :
    (K.view w').Books K.accCodec id c := by
  cases h with
  | silent _ hquiet => exact (hquiet.books hw hB).1
  | failed _ => exact hB
  | delivered _ _ _ hsettles heffect =>
    refine (heffect.books (hsettles.sound hw) (fun _ ↦ hsince) (fun _ _ _ _ _ _ _ ↦ ?_)
      (hsettles.books_other hw (Or.inr hnone) hB)).1
    rw [hsince, hsettles.ctx]
  | noticed _ hrecords =>
    rcases hrecords with hstep | ⟨_, hquiet⟩
    · exact hstep.books_kept hw hB (by simp) (by simp) (by simp)
        fun p a v s tier hearns ↦ absurd hearns (hnone p a v s tier)
    · exact (hquiet.books hw hB).1
  | slashed hslashes =>
    rcases hslashes with ⟨_, hquiet⟩ | @⟨j, q, b, u, t, tier', val, _, _, _, hsettle, _, hquiet⟩
    · exact (hquiet.books hw hB).1
    · have hj : j ≠ id := by
        rintro rfl
        exact hnone q b u t tier' ⟨hsettle.holds, hsettle.stake, hsettle.tierStored⟩
      exact (hquiet.books (hsettle.sound hw) (hsettle.books_other hw hj hB)).1

theorem ChainEffect.books_event (h : ChainEffect K w label w') (hw : K.Sound w)
    {eventType : ValidatorEventType} (hlabel : label.event = some (v, eventType))
    (hearns : (K.view w).Earns K.accCodec id p a v s tier) (hB : (K.view w).Books K.accCodec id c) :
    (K.view w').Books K.accCodec id
      (c.segment p s tier ((K.staking w.ext).isBonded v) (K.rate w v) w.ctx.blockTime) := by
  cases h with
  | noticed hlabel' hrecords =>
    obtain ⟨rfl, rfl⟩ := Prod.mk.inj (Option.mem_unique hlabel hlabel')
    rcases hrecords with hstep | ⟨hcount, _⟩
    · exact hstep.books_record hw hB hearns
    · exact absurd hcount (hw.coherent.count_ne_zero hearns.holds hearns.stake)
  | silent hsilent _ =>
    rw [Label.event_of_silent hsilent] at hlabel
    cases hlabel
  | failed _ => cases hlabel
  | delivered _ _ _ _ _ => cases hlabel
  | slashed _ => cases hlabel

theorem ChainEffect.books_settlement (h : ChainEffect K w label w') (hcovers : PoolCovers K w label)
    (hw : K.Sound w) (hid : id ∈ label.settles K w)
    (hearns : (K.view w).Earns K.accCodec id p a v s tier) (hB : (K.view w).Books K.accCodec id c) :
    (K.view w').Books K.accCodec id
        (c.segment p s tier ((K.staking w.ext).isBonded v) (K.rate w v) w.ctx.blockTime) ∧
      (c.segment p s tier ((K.staking w.ext).isBonded v) (K.rate w v) w.ctx.blockTime).total =
        bonusPaid w'.emitted id := by
  cases h with
  | silent hsilent _ =>
    rw [Label.settles_of_silent hsilent] at hid
    cases hid
  | @failed msg e herror =>
    unfold Label.settles at hid
    dsimp only at hid
    rw [herror] at hid
    cases hid
  | @delivered msg w₁ _ hok _ hnodup hsettles heffect =>
    unfold Label.settles at hid
    dsimp only at hid
    rw [hok] at hid
    obtain ⟨hbooks, hpaid⟩ := hsettles.books hnodup hw hid hearns hB
    obtain ⟨hbooks', hpaid'⟩ := heffect.books (hsettles.sound hw)
      (fun hnew ↦ absurd hnew (nextPositionId_ne hw hearns))
      (fun _ _ _ _ _ _ _ ↦ congrArg Context.blockTime hsettles.ctx.symm) hbooks
    exact ⟨hbooks', hpaid.trans hpaid'.symm⟩
  | noticed hlabel _ =>
    rw [Label.settles_of_event hlabel] at hid
    cases hid
  | @slashed u shares _ hslashes =>
    have hmapped : w.store.redelegationMappings[u]? = some id := Option.mem_toList.mp hid
    rcases hslashes with ⟨hidle, _⟩ |
      @⟨j, q, b, x, t, tier', val, covered, _, hmapping, hsettle, hcovered, hquiet⟩
    · obtain ⟨q, b, hq, hrest⟩ := hidle id hmapped
      exact absurd hearns (hq.rests hrest p a v s tier)
    · obtain rfl := Option.mem_unique hmapped hmapping
      cases covered with
      | false =>
        obtain ⟨pos, e, hload, herror, hpool⟩ := hcovered rfl
        rw [hcovers u shares rfl id hmapped pos hload e herror] at hpool
        cases hpool
      | true =>
        obtain ⟨rfl, rfl, rfl, rfl, rfl⟩ :=
          Ledger.Earns.unique ⟨hsettle.holds, hsettle.stake, hsettle.tierStored⟩ hearns
        obtain ⟨hbooks, hpaid⟩ := hsettle.books hw hB
        obtain ⟨hbooks', hpaid'⟩ := hquiet.books (hsettle.sound hw) hbooks
        exact ⟨hbooks', hpaid.trans hpaid'.symm⟩

/-- A step that neither settles an earning position nor is an event of its validator keeps its
books. -/
theorem ChainEffect.books_kept (h : ChainEffect K w label w') (hw : K.Sound w)
    (hevent : label.event.map Prod.fst ≠ some v) (hid : id ∉ label.settles K w)
    (hearns : (K.view w).Earns K.accCodec id p a v s tier) (hB : (K.view w).Books K.accCodec id c) :
    (K.view w').Books K.accCodec id c := by
  cases h with
  | silent _ hquiet => exact (hquiet.books hw hB).1
  | failed _ => exact hB
  | @delivered msg w₁ _ hok _ _ hsettles heffect =>
    unfold Label.settles at hid
    dsimp only at hid
    rw [hok] at hid
    exact (heffect.books (hsettles.sound hw)
      (fun hnew ↦ absurd hnew (nextPositionId_ne hw hearns)) (fun hmem ↦ absurd hmem hid)
      (hsettles.books_other hw (Or.inl hid) hB)).1
  | @noticed _ u eventType _ hlabel hrecords =>
    rcases hrecords with hstep | ⟨_, hquiet⟩
    · refine hstep.books_kept hw hB (by simp) (by simp) (by simp) ?_
      intro q b x t tier' hearns' eventType' rate heq
      obtain ⟨_, _, rfl, _, _⟩ := hearns.unique hearns'
      obtain ⟨rfl, _, _⟩ := Ledger.Op.record.inj heq
      exact hevent (congrArg (Option.map Prod.fst) hlabel)
    · exact (hquiet.books hw hB).1
  | @slashed u shares _ hslashes =>
    rcases hslashes with ⟨_, hquiet⟩ | @⟨j, q, b, x, t, tier', val, _, _, hmapping,
        hsettle, _, hquiet⟩
    · exact (hquiet.books hw hB).1
    · have hj : j ≠ id := by
        rintro rfl
        exact hid (Option.mem_toList.mpr hmapping)
      exact (hquiet.books (hsettle.sound hw) (hsettle.books_other hw hj hB)).1

/-- A step of the chain keeps the books with what the reference credits at it. -/
theorem ChainEffect.books (h : ChainEffect K w label w') (hcovers : PoolCovers K w label)
    (hw : K.Sound w) (hB : (K.view w).Books K.accCodec id c) :
    (K.view w').Books K.accCodec id (eagerStep K id c ⟨w, label, w'⟩) := by
  unfold eagerStep
  cases hearning : earning K w id with
  | none =>
    have hnone := earning_eq_none hw hearning
    exact h.books_resting hw hnone rfl (hB.restart hnone w.ctx.blockTime)
  | some data =>
    obtain ⟨p, v, s, tier⟩ := data
    obtain ⟨a, hearns⟩ := (earning_eq_some hw).mp hearning
    dsimp only
    split_ifs with hcredit
    · rcases hcredit with hevent | hid
      · obtain ⟨⟨_, eventType⟩, hlabel, rfl⟩ := Option.map_eq_some_iff.mp hevent
        exact h.books_event hw hlabel hearns hB
      · exact (h.books_settlement hcovers hw hid hearns hB).1
    · obtain ⟨hevent, hid⟩ := not_or.mp hcredit
      exact h.books_kept hw hevent hid hearns hB

/-! ### The whole history -/

theorem run_sound (hK : K.Contract) {w₀ : World σ} {τ : List (Transition (World σ) Label)}
    (hfresh : Fresh K w₀) (hrun : Run (CoveredStep K) w₀ τ w) : K.Sound w :=
  hrun.invariant (P := fun w ↦ K.Sound w) hfresh.sound
    fun _ _ _ hs hstep ↦ (hstep.1.effect hK hs).sound hs

/-- Along every history the reference and the module agree on every position. -/
theorem run_books (hK : K.Contract) {w₀ : World σ} {τ : List (Transition (World σ) Label)}
    (hfresh : Fresh K w₀) (hrun : Run (CoveredStep K) w₀ τ w) (id : ℕ) :
    (K.view w).Books K.accCodec id (eager K id τ) := by
  have hinitial : (K.view w₀).Books K.accCodec id ⟨0, 0⟩ := by
    refine .of_rests ?_ ?_
    · intro p a v s tier hearns
      obtain ⟨params, _, hstore⟩ := hfresh.store
      have hstored : w₀.store.positions[id]? = some p := hearns.holds.stored
      rw [hstore] at hstored
      simp [Store.empty] at hstored
    · change 0 = bonusPaid w₀.emitted id
      rw [hfresh.emitted]
      rfl
  have hboth := hrun.fold (Q := fun w c ↦ K.Sound w ∧
    (K.view w).Books K.accCodec id c) (f := eagerStep K id) ⟨hfresh.sound, hinitial⟩ ?_
  · exact hboth.2
  · rintro w label w' c ⟨hw, hB⟩ ⟨hstep, hcovers⟩
    have heffect := hstep.effect hK hw
    exact ⟨heffect.sound hw, heffect.books hcovers hw hB⟩

/-- The bonus paid to a position up to one of its settlements is what an eager reference has
credited to it by then. -/
theorem lazy_bonus_eq_eager (hK : K.Contract) {w₀ : World σ} {τ : List (Transition (World σ) Label)}
    (hfresh : Fresh K w₀) (hrun : Run (CoveredStep K) w₀ τ w) (hstep : CoveredStep K w label w')
    (hdelegated : (earning K w id).isSome) (hsettles : id ∈ label.settles K w) :
    bonusPaid w'.emitted id = (eager K id (τ ++ [⟨w, label, w'⟩])).total := by
  have hw := run_sound hK hfresh hrun
  have hB := run_books hK hfresh hrun id
  obtain ⟨⟨p, v, s, tier⟩, hearning⟩ := Option.isSome_iff_exists.mp hdelegated
  obtain ⟨a, hearns⟩ := (earning_eq_some hw).mp hearning
  obtain ⟨_, hpaid⟩ := (hstep.1.effect hK hw).books_settlement hstep.2 hw hsettles hearns hB
  have hlast : eager K id (τ ++ [⟨w, label, w'⟩]) =
      (eager K id τ).segment p s tier ((K.staking w.ext).isBonded v) (K.rate w v)
        w.ctx.blockTime := by
    unfold eager
    rw [List.foldl_append]
    change eagerStep K id _ ⟨w, label, w'⟩ = _
    unfold eagerStep
    rw [hearning]
    exact if_pos (Or.inr hsettles)
  rw [hlast]
  exact hpaid.symm

open Reference

/-- The owner of the position of the reference history claims: the bonus of two years is paid. -/
theorem lazy_bonus_eq_eager_history :
    bonusPaid (deliver keepers (.claimTierRewards ⟨user, [0]⟩)
        world₄).2.emitted 0 = 100000 ∧
      bonusPaid (deliver keepers (.claimTierRewards ⟨user, [0]⟩)
          world₄).2.emitted 0 =
        (eager keepers 0 (history ++
          [⟨world₄, .deliver (.claimTierRewards ⟨user, [0]⟩),
            (deliver keepers (.claimTierRewards ⟨user, [0]⟩)
              world₄).2⟩])).total := by
  have hcovers : ∀ (w : World Outside) (label : Label),
      (∀ unbondingId shares, label ≠ .redelegationSlashed unbondingId shares) →
      PoolCovers keepers w label :=
    fun w label hlabel unbondingId shares heq ↦ absurd heq (hlabel unbondingId shares)
  have hrun : Run (CoveredStep keepers) world₀ history
      world₄ := by
    refine run_history.restrict fun t ht ↦ hcovers _ _ ?_
    simp only [history, List.mem_cons, List.not_mem_nil, or_false] at ht
    rcases ht with rfl | rfl | rfl | rfl | rfl <;> simp
  exact ⟨by decide +kernel, lazy_bonus_eq_eager keepers_contract fresh_world₀ hrun
    ⟨chainStep_deliver (by decide +kernel), hcovers _ _ (by simp)⟩ (by decide +kernel)
    (by decide +kernel)⟩

end ChainMain.TieredRewards
