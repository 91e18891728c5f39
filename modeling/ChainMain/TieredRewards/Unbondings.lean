import ChainMain.TieredRewards.ReferenceKeepers
import ChainMain.TieredRewards.UnbondingFrames

/-!
# Unbonding delegations of positions

A position stops being delegated once, and all at once. `TierUndelegate` takes its whole stake, so
its delegator address gets one unbonding delegation with one entry, and none of the other messages
and hooks touches the unbonding delegations (`handle_unbondings`). A position without stake never
has stake again (`run_idle`).

`getPositionAmount` reads the first entry of the first unbonding delegation. Since there is no other
one, that is the whole of what the position is worth (`undelegated_position_value`).

What the other modules do to the unbonding delegations of a position's address on their own is to
let entries mature and to slash them (`Matures`): nobody can sign for it.
-/

set_option autoImplicit false

namespace ChainMain.TieredRewards

open Foundations Decimal OrderedStore StoreProgram Runs

variable {σ : Type} {K : Keepers σ} {w w' : World σ}

/-! ### Undelegating -/

/-- The unbonding delegations are the same, or an account of a position that had stake has one entry
more. -/
inductive UnbondingChange (K : Keepers σ) (w w' : World σ) : Prop
  | same (h : unbondings K w' = unbondings K w)
  | begun {a : AccAddress} {v : ValAddress} {entry : UnbondingEntry}
      (hheld : (K.view w).Held K.accCodec a) (hstake : ¬ (K.view w).Idle a)
      (h : unbondings K w' = (unbondings K w).insert (a, v)
        (((unbondings K w)[(a, v)]?).getD [] ++ [entry]))

theorem tierUndelegate_unbondings (hK : K.Contract) (hw : K.Sound w)
    {msg : MsgTierUndelegate} {response : CompletionResponse}
    (h : Succeeds (tierUndelegate K msg) w response w') : UnbondingChange K w w' := by
  unfold tierUndelegate at h
  simp only [succeeds_bind, succeeds_fromOutcome, succeeds_expect, succeeds_valAddressFromBech32,
    succeeds_accAddressFromBech32, succeeds_emit, succeeds_pure] at h
  obtain ⟨_, _, ⟨_, rfl⟩, pos, w₀, hload, _, w₀', hcheck, ⟨pos', base, bonus⟩, w₁,
    hclaim, delegation, _, ⟨hdel, rfl⟩, v', _, ⟨hv, rfl⟩, b, _, ⟨hb, rfl⟩, ⟨completion, amount⟩, w₂,
    hundelegate, _, w₃, hset, _, _, rfl, _, rfl⟩ := h
  obtain ⟨rfl, _, hdelegated, _, _⟩ := succeeds_validateUndelegatePosition hcheck
  obtain ⟨rfl, a, v, s, hpos⟩ := delegated_of_loaded hw hload hdelegated
  have hclaimed := claimed_of_claimRewards hK hw hpos (.refl _) hclaim
  obtain rfl := hclaimed.account_eq hb
  have hbefore := congrArg Staking.unbondingDelegations hclaimed.outside.staking
  have hafter : unbondings K w₃ = unbondings K w₂ :=
    leaves_setPosition readsOutside_unbondings _ _ _ _ _ hset
  obtain ⟨removed, ext, hext, rfl⟩ := succeeds_callRemoving hundelegate
  obtain ⟨_, _, _, _, hsame | ⟨entry, hadded⟩⟩ := hK.undelegate _ _ _ _ _ _ _ _ hext
  · exact .same (hafter.trans (Eq.trans hsame hbefore))
  · refine @UnbondingChange.begun _ _ _ _ b v' entry hpos.holds.held hpos.stake.not_idle ?_
    refine hafter.trans (Eq.trans hadded ?_)
    rw [hbefore]
    rfl

theorem handle_unbondings (hK : K.Contract) (hw : K.Sound w) {msg : Msg} {u : PUnit}
    (h : Succeeds (handle K msg) w u w') : UnbondingChange K w w' := by
  cases msg with
  | lockTier msg =>
    exact .same (leaves_bind (leaves_lockTier hK msg) (fun _ ↦ leaves_pure _) _ _ _ h)
  | commitDelegationToTier msg =>
    exact .same (leaves_bind (leaves_commitDelegationToTier hK msg) (fun _ ↦ leaves_pure _) _ _ _ h)
  | tierUndelegate msg =>
    obtain ⟨_, _, hrun, hpure⟩ := succeeds_bind.mp h
    obtain ⟨_, rfl⟩ := succeeds_pure.mp hpure
    exact tierUndelegate_unbondings hK hw hrun
  | tierRedelegate msg =>
    exact .same (leaves_bind (leaves_tierRedelegate hK msg) (fun _ ↦ leaves_pure _) _ _ _ h)
  | addToTierPosition msg =>
    exact .same (leaves_bind (leaves_addToTierPosition hK msg) (fun _ ↦ leaves_pure _) _ _ _ h)
  | triggerExitFromTier msg =>
    exact .same (leaves_bind (leaves_triggerExitFromTier msg) (fun _ ↦ leaves_pure _) _ _ _ h)
  | clearPosition msg =>
    exact .same (leaves_bind (leaves_clearPosition hK msg) (fun _ ↦ leaves_pure _) _ _ _ h)
  | claimTierRewards msg =>
    exact .same (leaves_bind (leaves_claimTierRewards hK msg) (fun _ ↦ leaves_pure _) _ _ _ h)
  | withdrawFromTier msg =>
    exact .same (leaves_bind (leaves_withdrawFromTier hK msg) (fun _ ↦ leaves_pure _) _ _ _ h)
  | exitTierWithDelegation msg =>
    exact .same (leaves_bind (leaves_exitTierWithDelegation hK msg) (fun _ ↦ leaves_pure _) _ _ _ h)
  | updateParams msg =>
    have hset : Leaves (unbondings K) (updateParams K msg) :=
      leaves_bind (leaves_ensure _ _) fun _ ↦ leaves_bind (leaves_fromOutcome _) fun _ ↦
        leaves_modifyStore readsOutside_unbondings _
    exact .same (hset _ _ _ h)
  | addTier msg =>
    have hset : Leaves (unbondings K) (setTier msg.tier : M σ PUnit) :=
      leaves_bind (leaves_fromOutcome _) fun _ ↦ leaves_modifyStore readsOutside_unbondings _
    have hadd : Leaves (unbondings K) (addTier K msg) :=
      leaves_bind (leaves_ensure _ _) fun _ ↦ leaves_bind leaves_get fun _ ↦
        leaves_bind (leaves_ensure _ _) fun _ ↦ leaves_bind hset fun _ ↦
          leaves_emit readsOutside_unbondings _
    exact .same (hadd _ _ _ h)
  | updateTier msg => exact .same (leaves_updateTier hK msg _ _ _ h)
  | deleteTier msg =>
    have hdelete : Leaves (unbondings K) (deleteTier msg.id : M σ PUnit) :=
      leaves_bind leaves_get fun _ ↦ leaves_bind (leaves_ensure _ _) fun _ ↦
        leaves_modifyStore readsOutside_unbondings _
    have hrun : Leaves (unbondings K) (deleteTierMsg K msg) :=
      leaves_bind (leaves_ensure _ _) fun _ ↦ leaves_bind (leaves_getTier _) fun _ ↦
        leaves_bind hdelete fun _ ↦ leaves_emit readsOutside_unbondings _
    exact .same (hrun _ _ _ h)

/-! ### Steps of the chain -/

/-- What the other modules do on their own to the unbonding delegations of the accounts of
positions: there are no new ones and no new entries. -/
def Matures (K : Keepers σ) (w w' : World σ) : Prop :=
  ∀ a, (K.view w).Held K.accCodec a → ∀ (v : ValAddress) (entries' : List UnbondingEntry),
    (unbondings K w')[(a, v)]? = some entries' →
      ∃ entries, (unbondings K w)[(a, v)]? = some entries ∧ entries'.length ≤ entries.length

theorem unbondings_recordValidatorEvent {eventType : ValidatorEventType} {v : ValAddress}
    {u : PUnit} (h : Succeeds (recordValidatorEvent K eventType v) w u w') :
    unbondings K w' = unbondings K w := by
  have hrecord : Leaves (unbondings K) (recordValidatorEvent K eventType v) := by
    refine leaves_bind leaves_get fun w ↦ leaves_ite ?_ (leaves_pure _)
    refine leaves_bind (leaves_of_reads fun _ _ _ h ↦ (succeeds_getTokensPerShare.mp h).2.symm)
      fun _ ↦ ?_
    exact leaves_modifyStore readsOutside_unbondings _
  exact hrecord _ _ _ h

theorem unbondings_slashRedelegationPosition (hK : K.Contract) {unbondingId : ℕ} {shares : Dec}
    {u : PUnit} (h : Succeeds (slashRedelegationPosition K unbondingId shares) w u w') :
    unbondings K w' = unbondings K w := by
  have hsettle : ∀ pos, Leaves (unbondings K) (settleBeforeSlash K pos) := by
    intro pos
    refine leaves_bind (leaves_always (run_processEvents_leaves hK.keeps_unbondings pos)) ?_
    rintro ⟨pos', outcome⟩
    cases outcome with
    | ok _ => exact leaves_pure _
    | error e => exact leaves_ite (leaves_pure _) (leaves_throw _)
  have hslash : Leaves (unbondings K) (slashRedelegationPosition K unbondingId shares) := by
    refine leaves_bind leaves_get fun w ↦ ?_
    cases w.store.redelegationMappings[unbondingId]? with
    | none => exact leaves_pure _
    | some positionId =>
      refine leaves_ite (leaves_pure _) (leaves_bind (leaves_getPositionState _) fun pos ↦ ?_)
      cases pos.delegation with
      | none => exact leaves_pure _
      | some del =>
        refine leaves_bind (hsettle pos) fun pos ↦ leaves_ite ?_ ?_
        · exact leaves_setPositionWithState readsOutside_unbondings _ _
        · exact leaves_setPositionWithState readsOutside_unbondings _ _
  exact hslash _ _ _ h

theorem unbondings_restakes {f : Staking → Staking} {ext : σ} (h : Restakes K f w.ext ext)
    (hf : ∀ st, (f st).unbondingDelegations = st.unbondingDelegations) :
    unbondings K { w with ext } = unbondings K w := by
  change (K.staking ext).unbondingDelegations = _
  rw [h.staking, hf]
  rfl

theorem ChainStep.unbondingChange (hK : K.Contract) (hw : K.Sound w) {label : Label}
    (h : ChainStep K w label w') :
    UnbondingChange K w w' ∨ label = .outside ∧ w'.store = w.store := by
  cases h with
  | beginBlock ctx htime => exact Or.inl (.same rfl)
  | deliver msg hsigner =>
    rcases atomically_cases (handle K msg) w with ⟨_, hsuccess, -⟩ | ⟨-, hworld⟩
    · exact Or.inl (handle_unbondings hK hw hsuccess)
    · have hsame : (TieredRewards.deliver K msg w).2 = w := hworld
      rw [hsame]
      exact Or.inl (.same rfl)
  | validatorBonded _ _ hstaking hhook | validatorBeginUnbonding _ _ hstaking hhook =>
    exact Or.inl (.same ((unbondings_recordValidatorEvent hhook).trans
      (unbondings_restakes hstaking fun _ ↦ rfl)))
  | validatorSlashed _ hhook => exact Or.inl (.same (unbondings_recordValidatorEvent hhook))
  | validatorRemoved _ _ hstaking hhook | redelegationsCompleted _ hstaking hhook =>
    exact Or.inl (.same ((leaves_modifyStore readsOutside_unbondings _ _ _ _ hhook).trans
      (unbondings_restakes hstaking fun _ ↦ rfl)))
  | redelegationSlashed _ hhook hunbond =>
    have hslash := unbondings_slashRedelegationPosition hK hhook
    refine Or.inl (.same ?_)
    rcases hunbond with ⟨_, rfl⟩ | hunbond
    · exact hslash
    · refine Eq.trans
        (leaves_callRemoving readsOutside_unbondings (fun _ _ _ _ h ↦ ?_) _ _ _ hunbond) hslash
      exact (hK.unbond _ _ _ _ _ _ _ _ h).2.2.2.2
  | outside ext hframe => exact Or.inr ⟨rfl, rfl⟩

/-! ### At most one entry -/

/-- The account of a position has at most one unbonding delegation, with at most one entry. -/
structure SingleEntry (K : Keepers σ) (w : World σ) (a : AccAddress) : Prop where
  one : ∀ v v' : ValAddress, ((unbondings K w)[(a, v)]?).isSome →
    ((unbondings K w)[(a, v')]?).isSome → v = v'
  short : ∀ (v : ValAddress) (entries : List UnbondingEntry),
    (unbondings K w)[(a, v)]? = some entries → entries.length ≤ 1

theorem SingleEntry.of_none {a : AccAddress}
    (h : ∀ v : ValAddress, (unbondings K w)[(a, v)]? = none) :
    SingleEntry K w a := by
  refine ⟨fun v v' hv ↦ ?_, fun v entries hv ↦ ?_⟩
  · rw [h v] at hv
    cases hv
  · rw [h v] at hv
    cases hv

theorem SingleEntry.of_same {a : AccAddress} (h : SingleEntry K w a)
    (hsame : ∀ v : ValAddress, (unbondings K w')[(a, v)]? = (unbondings K w)[(a, v)]?) :
    SingleEntry K w' a := by
  refine ⟨fun v v' hv hv' ↦ ?_, fun v entries hv ↦ ?_⟩
  · rw [hsame] at hv hv'
    exact h.one v v' hv hv'
  · rw [hsame] at hv
    exact h.short v entries hv

theorem unbondings_of_notUnbonding {a : AccAddress} (h : (K.view w).NotUnbonding a)
    (v : ValAddress) :
    (unbondings K w)[(a, v)]? = none :=
  Option.isSome_eq_false_iff.mp (h v) |> Option.isNone_iff_eq_none.mp

/-- After a run of the ledger, a held account was held before or did not exist. -/
theorem Ledger.run_held_of {codec : AddressCodec} {L L' : Ledger}
    {τ : List (Transition Ledger Ledger.Op)} (h : Run (Ledger.Step codec) L τ L')
    (hL : L.Sound codec) {a : AccAddress} (ha : L'.Held codec a) :
    L.Held codec a ∨ L.accounts a = false := by
  have hall : L'.Sound codec ∧ (∀ b, L.accounts b → L'.accounts b) ∧
      ∀ b, L'.Held codec b → L.Held codec b ∨ L.accounts b = false := by
    refine h.invariant (P := fun L' ↦ L'.Sound codec ∧ (∀ b, L.accounts b → L'.accounts b) ∧
      ∀ b, L'.Held codec b → L.Held codec b ∨ L.accounts b = false)
      ⟨hL, fun _ hb ↦ hb, fun _ hb ↦ Or.inl hb⟩ ?_
    rintro L₁ op L₂ ⟨hsound, haccounts, hheld⟩ hstep
    refine ⟨hstep.sound hsound, fun b hb ↦ hstep.accounts_kept (haccounts b hb), fun b hb ↦ ?_⟩
    rcases hstep.held_of hsound.indexed hb with hold | hunused
    · exact hheld b hold
    · refine Or.inr (Bool.eq_false_iff.mpr fun hused ↦ ?_)
      rw [haccounts b hused] at hunused
      cases hunused
  exact hall.2.2 a ha

/-- Every step of the chain keeps the entries single, as long as what happens outside does. -/
theorem ChainStep.singleEntry (hK : K.Contract) (hw : K.Sound w) {label : Label}
    (h : ChainStep K w label w') (hmatures : label = .outside → Matures K w w')
    (hsingle : ∀ a, (K.view w).Held K.accCodec a → SingleEntry K w a) (a : AccAddress)
    (ha : (K.view w').Held K.accCodec a) : SingleEntry K w' a := by
  obtain ⟨τ, hrun⟩ := (h.effect hK hw).run hw
  rcases h.unbondingChange hK hw with hchange | ⟨houtside, hstore⟩
  · -- an account that is held for the first time did not exist before and has nothing
    have hbefore : SingleEntry K w a := by
      rcases Ledger.run_held_of hrun hw ha with hheld | hunused
      · exact hsingle a hheld
      · exact .of_none (unbondings_of_notUnbonding (hw.tidy.notUnbonding a hunused))
    rcases hchange with hsame | @⟨b, v, entry, hheld, hstake, hadded⟩
    · exact hbefore.of_same fun u ↦ by rw [hsame]
    · by_cases hab : b = a
      · -- whoever begins to unbond had stake, so was not unbonding
        subst hab
        have hnone := unbondings_of_notUnbonding (hw.released b hheld hstake)
        have hafter : ∀ u : ValAddress, (unbondings K w')[(b, u)]? =
            if v = u then some [entry] else none := by
          intro u
          rw [hadded, getElem?_insert_eq, hnone, hnone]
          simp only [Prod.mk.injEq, true_and, Option.getD_none, List.nil_append]
        have hthere : ∀ (u : ValAddress) (entries : List UnbondingEntry),
            (unbondings K w')[(b, u)]? = some entries → v = u ∧ entries = [entry] := by
          intro u entries hu
          rw [hafter] at hu
          split_ifs at hu with heq
          exact ⟨heq, (Option.some.inj hu).symm⟩
        refine ⟨fun u u' hu hu' ↦ ?_, fun u entries hu ↦ ?_⟩
        · obtain ⟨_, hu⟩ := Option.isSome_iff_exists.mp hu
          obtain ⟨_, hu'⟩ := Option.isSome_iff_exists.mp hu'
          exact (hthere u _ hu).1.symm.trans (hthere u' _ hu').1
        · rw [(hthere u entries hu).2]
          exact le_rfl
      · refine hbefore.of_same fun u ↦ ?_
        rw [hadded, getElem?_insert_ne fun hkey ↦ hab (Prod.mk.inj hkey).1]
  · have hheld : (K.view w).Held K.accCodec a := by
      obtain ⟨id, p, hp, haccount⟩ := ha
      exact ⟨id, p, by rw [← hp]; exact congrArg (fun st : Store ↦ st.positions[id]?) hstore.symm,
        haccount⟩
    have hold := hsingle a hheld
    have hmature := hmatures houtside a hheld
    refine ⟨fun u u' hu hu' ↦ ?_, fun u entries' hu ↦ ?_⟩
    · obtain ⟨entries, hentries⟩ := Option.isSome_iff_exists.mp hu
      obtain ⟨entries', hentries'⟩ := Option.isSome_iff_exists.mp hu'
      obtain ⟨_, hbefore, _⟩ := hmature u entries hentries
      obtain ⟨_, hbefore', _⟩ := hmature u' entries' hentries'
      exact hold.one u u' (Option.isSome_iff_exists.mpr ⟨_, hbefore⟩)
        (Option.isSome_iff_exists.mpr ⟨_, hbefore'⟩)
    · obtain ⟨entries, hbefore, hle⟩ := hmature u entries' hu
      exact hle.trans (hold.short u entries hbefore)

theorem Reaches.singleEntry (hK : K.Contract) {τ : List (Transition (World σ) Label)}
    (h : Reaches K τ w) (hmatures : ∀ t ∈ τ, t.label = .outside → Matures K t.source t.target)
    (a : AccAddress) (ha : (K.view w).Held K.accCodec a) : SingleEntry K w a := by
  obtain ⟨w₀, hfresh, hrun⟩ := h
  have hall : K.Sound w ∧
      ∀ a, (K.view w).Held K.accCodec a → SingleEntry K w a := by
    refine (hrun.restrict (P := fun w label w' ↦ label = .outside → Matures K w w')
      hmatures).invariant (P := fun w ↦ K.Sound w ∧
        ∀ a, (K.view w).Held K.accCodec a → SingleEntry K w a) ⟨hfresh.sound, ?_⟩ ?_
    · rintro b ⟨id, p, hp, _⟩
      obtain ⟨params, _, hstore⟩ := hfresh.store
      have hnone : w₀.store.positions[id]? = none := by
        rw [hstore]
        exact Std.ExtTreeMap.getElem?_empty
      rw [show (K.view w₀).store.positions[id]? = none from hnone] at hp
      cases hp
    · rintro w₁ label w₂ ⟨hsound, hsingle⟩ ⟨hstep, hmature⟩
      exact ⟨(hstep.effect hK hsound).sound hsound, hstep.singleEntry hK hsound hmature hsingle⟩
  exact hall.2 a ha

/-! ### Undelegated for good -/

theorem Ledger.Step.nextPositionId_le {codec : AddressCodec} {L L' : Ledger} {op : Ledger.Op}
    (h : Ledger.Step codec L op L') : L.store.nextPositionId ≤ L'.store.nextPositionId := by
  cases h with
  | outside hstore | reshare _ _ _ _ _ _ _ hstore | leave _ _ _ _ _ _ hstore
  | move _ _ _ _ _ _ _ _ _ _ _ _ _ hstore => exact (congrArg Store.nextPositionId hstore).ge
  | create _ _ _ _ _ _ _ _ _ _ _ _ hstore =>
    exact (Nat.le_succ _).trans (congrArg Store.nextPositionId hstore).ge
  | tick | params | setTier | deleteTier | settle | remove | trigger | clear | record | status
  | dropSeq | mature => exact le_rfl

theorem Ledger.run_idle {codec : AddressCodec} {L L' : Ledger}
    {τ : List (Transition Ledger Ledger.Op)} (h : Run (Ledger.Step codec) L τ L')
    (hL : L.Sound codec) {id : ℕ} {p : Position} {a : AccAddress} (hp : L.Holds codec id p a)
    (hidle : L.Idle a) :
    id < L'.store.nextPositionId ∧
      ∀ p', L'.store.positions[id]? = some p' → L'.Holds codec id p' a ∧ L'.Idle a := by
  have hall : L'.Sound codec ∧ id < L'.store.nextPositionId ∧
      ∀ p', L'.store.positions[id]? = some p' → L'.Holds codec id p' a ∧ L'.Idle a := by
    refine h.invariant (P := fun L' ↦ L'.Sound codec ∧ id < L'.store.nextPositionId ∧
      ∀ p', L'.store.positions[id]? = some p' → L'.Holds codec id p' a ∧ L'.Idle a)
      ⟨hL, hL.indexed.id_lt id p hp.stored, fun p' hp' ↦ ?_⟩ ?_
    · obtain rfl := Option.mem_unique hp.stored hp'
      exact ⟨hp, hidle⟩
    · rintro L₁ op L₂ ⟨hsound, hlt, hkept⟩ hstep
      refine ⟨hstep.sound hsound, hlt.trans_le hstep.nextPositionId_le, fun p₂ hp₂ ↦ ?_⟩
      rcases hstep.kept_or_created hsound.indexed hp₂ with ⟨p₁, hp₁, hsame⟩ | ⟨exiting, rfl⟩
      · obtain ⟨hheld, hidle₁⟩ := hkept p₁ hp₁
        refine ⟨⟨hp₂, hsame.delegatorAddress ▸ hheld.account⟩, ?_⟩
        by_contra hstake
        exact hstep.not_idle_of hheld.held hstake hidle₁
      · -- a new position has an id that was never given out
        cases hstep with
        | create _ hnew =>
          rw [hnew.id] at hlt
          exact absurd hlt (lt_irrefl _)
  exact hall.2

/-! ### The value of an undelegated position -/

/-- All entries of the unbonding delegations of an account. -/
def pendingEntries (K : Keepers σ) (w : World σ) (a : AccAddress) : List UnbondingEntry :=
  ((K.staking w.ext).unbondingDelegationsOf a).flatten

/-- What an undelegated position is worth: the balances of all its entries while any is pending, and
what its account can spend of the bond denomination afterwards. -/
def undelegatedValue (K : Keepers σ) (w : World σ) (a : AccAddress) : ℤ :=
  if pendingEntries K w a = [] then (K.spendableCoins w.ext a).amountOf (K.bondDenom w.ext)
  else ((pendingEntries K w a).map UnbondingEntry.balance).sum

theorem mem_unbondingDelegationsOf {a : AccAddress} {entries : List UnbondingEntry} :
    entries ∈ (K.staking w.ext).unbondingDelegationsOf a ↔
      ∃ v : ValAddress, (unbondings K w)[(a, v)]? = some entries := by
  unfold Staking.unbondingDelegationsOf
  simp only [List.mem_map, List.mem_filter, beq_iff_eq]
  constructor
  · rintro ⟨⟨⟨b, v⟩, _⟩, ⟨hmem, rfl⟩, rfl⟩
    exact ⟨v, mem_toList.mp hmem⟩
  · rintro ⟨v, hv⟩
    exact ⟨((a, v), entries), ⟨mem_toList.mpr hv, rfl⟩, rfl⟩

theorem SingleEntry.length_le {a : AccAddress} (h : SingleEntry K w a) :
    ((K.staking w.ext).unbondingDelegationsOf a).length ≤ 1 := by
  unfold Staking.unbondingDelegationsOf
  rw [List.length_map]
  generalize hlist : ((K.staking w.ext).unbondingDelegations.toList.filter fun entry ↦
    entry.1.1 == a) = listed
  have hall : ∀ entry ∈ listed, entry.1.1 = a ∧ ((unbondings K w)[entry.1]?).isSome ∧
      (unbondings K w)[entry.1]? = some entry.2 := by
    intro entry hentry
    rw [← hlist, List.mem_filter] at hentry
    have hstored := mem_toList.mp hentry.1
    exact ⟨beq_iff_eq.mp hentry.2, Option.isSome_iff_exists.mpr ⟨_, hstored⟩, hstored⟩
  have hdistinct : listed.Nodup := hlist ▸ (nodup_toList _).filter _
  match listed, hall, hdistinct with
  | [], _, _ => exact Nat.zero_le 1
  | [_], _, _ => exact le_rfl
  | first :: second :: rest, hall, hdistinct =>
    refine absurd ?_ (List.nodup_cons.mp hdistinct).1
    obtain ⟨hfirst, hsome, hvalue⟩ := hall first List.mem_cons_self
    obtain ⟨hsecond, hsome', hvalue'⟩ := hall second (List.mem_cons_of_mem _ List.mem_cons_self)
    obtain ⟨⟨b, v⟩, entries⟩ := first
    obtain ⟨⟨b', v'⟩, entries'⟩ := second
    dsimp only at hfirst hsecond hsome hsome' hvalue hvalue'
    subst hfirst hsecond
    obtain rfl := h.one v v' hsome hsome'
    obtain rfl := Option.mem_unique hvalue hvalue'
    exact List.mem_cons_self

theorem getUndelegatedAmount_eq {a : AccAddress} {address : String} (h : SingleEntry K w a)
    (ha : K.accCodec.stringToBytes address = some a) :
    Succeeds (getUndelegatedAmount K address) w (undelegatedValue K w a) w := by
  refine succeeds_bind.mpr ⟨a, w, succeeds_accAddressFromBech32.mpr ⟨ha, rfl⟩, ?_⟩
  refine succeeds_read.mpr ?_
  have hlength := h.length_le
  have hshort : ∀ entries ∈ (K.staking w.ext).unbondingDelegationsOf a, entries.length ≤ 1 := by
    intro entries hentries
    obtain ⟨v, hv⟩ := mem_unbondingDelegationsOf.mp hentries
    exact h.short v entries hv
  unfold undelegatedValue pendingEntries
  match hlist : (K.staking w.ext).unbondingDelegationsOf a, hlength, hshort with
  | [], _, _ => exact .pure
  | [[]], _, _ => exact .pure
  | [[entry]], _, _ => exact succeeds_pure.mpr ⟨(add_zero entry.balance).symm, rfl⟩
  | [_ :: _ :: _], _, hshort => exact absurd (hshort _ List.mem_cons_self) (by simp)
  | _ :: _ :: _, hlength, _ => exact absurd hlength (by simp)

/-- What is known about a position that is not delegated. -/
structure FullValue (K : Keepers σ) (w : World σ) (pos : PositionState) (a : AccAddress) :
    Prop where
  oneUnbonding : ((K.staking w.ext).unbondingDelegationsOf a).length ≤ 1
  oneEntry : ∀ entries ∈ (K.staking w.ext).unbondingDelegationsOf a, entries.length ≤ 1
  amount : Succeeds (getPositionAmount K pos) w (undelegatedValue K w a) w

/-- A position that is not delegated is reported at its full value, and is never delegated again. -/
theorem undelegated_position_value (hK : K.Contract) {τ : List (Transition (World σ) Label)}
    (h : Reaches K τ w) (hmatures : ∀ t ∈ τ, t.label = .outside → Matures K t.source t.target)
    {id : ℕ} {pos : PositionState} (hload : Succeeds (getPositionState K id) w pos w)
    (hundelegated : pos.isDelegated = false) :
    (∃ a, K.accCodec.stringToBytes pos.delegatorAddress = some a ∧ FullValue K w pos a) ∧
      ∀ τ' w', Run (ChainStep K) w τ' w' → ∀ pos', Succeeds (getPositionState K id) w' pos' w' →
        pos'.isDelegated = false := by
  have hw := h.sound hK
  obtain ⟨-, a, ⟨v, s, hpos⟩ | hpos⟩ := loaded_cases hw hload
  · rw [hpos.isDelegated] at hundelegated
    cases hundelegated
  refine ⟨⟨a, hpos.holds.account, ?_⟩, fun τ' w' hrun pos' hload' ↦ ?_⟩
  · have hsingle := h.singleEntry hK hmatures a hpos.holds.held
    refine ⟨hsingle.length_le, fun entries hentries ↦ ?_, ?_⟩
    · obtain ⟨v, hv⟩ := mem_unbondingDelegationsOf.mp hentries
      exact hsingle.short v entries hv
    · unfold getPositionAmount
      rw [hpos.delegation]
      exact getUndelegatedAmount_eq hsingle hpos.holds.account
  · -- the run of the chain is one of the ledger, along which the account stays without stake
    have hledger : K.Sound w' ∧
        ∃ κ, Run (Ledger.Step K.accCodec) (K.view w) κ (K.view w') := by
      refine hrun.invariant (P := fun w' ↦ K.Sound w' ∧
        ∃ κ, Run (Ledger.Step K.accCodec) (K.view w) κ (K.view w')) ⟨hw, [], .nil⟩ ?_
      rintro w₁ label w₂ ⟨hsound, κ, hκ⟩ hstep
      obtain ⟨κ', hκ'⟩ := (hstep.effect hK hsound).run hsound
      exact ⟨hsound.run hκ', _, hκ.append hκ'⟩
    obtain ⟨hw', κ, hκ⟩ := hledger
    obtain ⟨-, hkept⟩ := Ledger.run_idle hκ hw hpos.holds hpos.idle
    obtain ⟨-, b, ⟨v, s, hpos'⟩ | hpos'⟩ := loaded_cases hw' hload'
    · obtain ⟨hheld, hidle⟩ := hkept _ hpos'.holds.stored
      obtain rfl := Option.mem_unique hpos'.holds.account hheld.account
      exact absurd hidle hpos'.stake.not_idle
    · exact hpos'.isDelegated

namespace Reference

/-- The owner of the position that has left its lock undelegates it. -/
def undelegate : Msg := .tierUndelegate ⟨user, 0⟩

/-- The world in which the position is unbonding. -/
def undelegated : World Outside := (deliver keepers undelegate world₆).2

theorem reaches_undelegated :
    Reaches keepers (exitHistory ++ [⟨world₆, .deliver undelegate, undelegated⟩]) undelegated :=
  ⟨world₀, fresh_world₀, (run_history.append (.cons (chainStep_deliver (by decide +kernel))
    (.cons (chainStep_yearLater _) .nil))).snoc (chainStep_deliver (by decide +kernel))⟩

end Reference

open Reference

theorem undelegated_position_value_history :
    ∃ pos a, Succeeds (getPositionState keepers 0) undelegated pos
        undelegated ∧
      (pendingEntries keepers undelegated a).map UnbondingEntry.balance =
        [1000000] ∧
      FullValue keepers undelegated pos a := by
  have hloads : (exec (getPositionState keepers 0)
      undelegated).1.toOption.any (fun pos ↦ !pos.isDelegated &&
        codec.stringToBytes pos.delegatorAddress == some 10) = true := by decide +kernel
  obtain ⟨pos, hpos, hload⟩ := succeeds_exec_of_any hloads
  simp only [Bool.and_eq_true, Bool.not_eq_true', beq_iff_eq] at hpos
  have hworld := (succeeds_getPositionState.mp hload).2.2
  rw [← hworld] at hload
  have hmatures : ∀ t ∈ exitHistory ++
      [⟨world₆, .deliver Reference.undelegate, undelegated⟩],
      t.label = .outside → Matures keepers t.source t.target := by
    intro t ht houtside
    simp only [exitHistory, history, List.cons_append, List.nil_append,
      List.mem_cons, List.not_mem_nil, or_false] at ht
    rcases ht with rfl | rfl | rfl | rfl | rfl | rfl | rfl | rfl <;> cases houtside
  obtain ⟨⟨a, ha, hvalue⟩, -⟩ := undelegated_position_value keepers_contract
    reaches_undelegated hmatures hload hpos.1
  obtain rfl := Option.mem_unique ha hpos.2
  exact ⟨pos, 10, hload, by decide +kernel, hvalue⟩

end ChainMain.TieredRewards
