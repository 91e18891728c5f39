import ChainMain.TieredRewards.Settlements

/-!
# Moving the stake of a settled position

What a message does after it has settled a position is a run of the ledger without settlements: the
stake of the position's account changes, leaves or moves to another validator, the position is
written back, and staking's hook is called for the validators that were removed on the way. Runs of
this kind are called quiet. The hook runs in the middle of the message, but it touches the event
sequences only, so in the ledger it comes last.
-/

set_option autoImplicit false

namespace ChainMain.TieredRewards

open Foundations Decimal OrderedStore StoreProgram Runs

namespace Ledger

/-- Steps that neither pay nor record anything about a bonus and leave the exits alone. -/
def Op.quiet : Op → Bool
  | .settle _ _ _ _ => false
  | .create _ _ => false
  | .trigger _ => false
  | .clear _ => false
  | .record _ _ _ => false
  | _ => true

variable {codec : AddressCodec} {L L' L'' : Ledger}

def QuietRun (codec : AddressCodec) (L L' : Ledger) : Prop :=
  ∃ τ, Run (Step codec) L τ L' ∧ ∀ t ∈ τ, t.label.quiet

namespace QuietRun

theorem refl (L : Ledger) : QuietRun codec L L := ⟨[], .nil, fun _ ht ↦ nomatch ht⟩

theorem single {op : Op} (h : Step codec L op L') (hop : op.quiet) : QuietRun codec L L' := by
  refine ⟨_, .single h, ?_⟩
  intro t ht
  rw [List.mem_singleton] at ht
  rw [ht]
  exact hop

theorem trans (h : QuietRun codec L L') (h' : QuietRun codec L' L'') : QuietRun codec L L'' := by
  obtain ⟨τ, hrun, hquiet⟩ := h
  obtain ⟨τ', hrun', hquiet'⟩ := h'
  refine ⟨τ ++ τ', hrun.append hrun', ?_⟩
  intro t ht
  rcases List.mem_append.mp ht with ht | ht
  · exact hquiet t ht
  · exact hquiet' t ht

theorem sound (h : QuietRun codec L L') (hL : L.Sound codec) : L'.Sound codec := by
  obtain ⟨_, hrun, _⟩ := h
  exact hL.run hrun

end QuietRun

end Ledger

open Ledger (QuietRun)

variable {σ : Type} {K : Keepers σ} {w w' : World σ} {id : ℕ} {a : AccAddress} {v : ValAddress}
  {s : Dec} {p : Position}

/-! ### Worlds that show the same ledger -/

theorem view_congr (hstore : w'.store = w.store) (hext : w'.ext = w.ext) (hctx : w'.ctx = w.ctx)
    (hpaid : bonusPaid w'.emitted = bonusPaid w.emitted) : K.view w' = K.view w := by
  unfold Keepers.view
  rw [hstore, hext, hctx, hpaid]

theorem view_emit {event : Event} (h : ∀ i, event.bonusFor i = 0) :
    K.view { w with emitted := w.emitted ++ [event] } = K.view w :=
  view_congr rfl rfl rfl (bonusPaid_append_of_zero h)

theorem Aside.quiet (h : Aside K w w') (hw : K.Sound w) :
    QuietRun K.accCodec (K.view w) (K.view w') := by
  refine .single (.outside h.store ?_) rfl
  exact frame_of_touches (P := fun _ ↦ False) (.of_leavesStaking h.outside) h.ctx h.paid
    (fun _ hfalse ↦ hfalse.elim) hw.tidy (fun _ _ _ hfalse ↦ hfalse) fun _ hnone ↦ nomatch hnone

/-! ### Removed validators -/

/-- The store after the hook has been called for removed validators. -/
def Store.dropRemoved (st : Store) (removed : List ValAddress) : Store :=
  removed.foldl Store.afterValidatorRemoved st

/-- The hook changes the event sequences only, and reads the event log only. -/
theorem Store.dropRemoved_eq (st : Store) (removed : List ValAddress) :
    st.dropRemoved removed =
      { st with
        validatorEventSeq := removed.foldl
          (fun seqs v ↦ if st.hasValidatorEvents v then seqs else seqs.erase v)
          st.validatorEventSeq } := by
  unfold Store.dropRemoved
  induction removed generalizing st with
  | nil => rfl
  | cons v removed ih =>
    rw [List.foldl_cons, List.foldl_cons, ih]
    rfl

theorem Store.dropRemoved_positions (st : Store) (removed : List ValAddress) :
    (st.dropRemoved removed).positions = st.positions := by
  rw [Store.dropRemoved_eq]

theorem Store.dropRemoved_putPosition (st : Store) (removed : List ValAddress) (p : Position) :
    (st.putPosition p).dropRemoved removed = (st.dropRemoved removed).putPosition p := by
  rw [Store.dropRemoved_eq, Store.dropRemoved_eq]
  rfl

theorem Store.dropRemoved_moveCount (st : Store) (removed : List ValAddress)
    (src dst : Option ValAddress) :
    (st.moveCount src dst).dropRemoved removed = (st.dropRemoved removed).moveCount src dst := by
  rw [Store.dropRemoved_eq, Store.dropRemoved_eq]
  rfl

theorem Store.dropRemoved_recordRedelegation (st : Store) (removed : List ValAddress)
    (unbondingId positionId : ℕ) :
    (Ledger.recordRedelegation st unbondingId positionId).dropRemoved removed =
      Ledger.recordRedelegation (st.dropRemoved removed) unbondingId positionId := by
  rw [Store.dropRemoved_eq, Store.dropRemoved_eq]
  rfl

theorem Store.getValidatorEventLatestSeq_dropRemoved (st : Store) {removed : List ValAddress}
    (h : v ∉ removed) :
    (st.dropRemoved removed).getValidatorEventLatestSeq v = st.getValidatorEventLatestSeq v := by
  unfold Store.dropRemoved
  induction removed generalizing st with
  | nil => rfl
  | cons u removed ih =>
    rw [List.foldl_cons, ih _ fun hmem ↦ h (List.mem_cons_of_mem _ hmem)]
    unfold Store.getValidatorEventLatestSeq Store.afterValidatorRemoved
    dsimp only
    split_ifs
    · rfl
    · rw [getElem?_erase_ne]
      rintro rfl
      exact h List.mem_cons_self

theorem quiet_dropRemoved (removed : List ValAddress)
    (hempty : ∀ v ∈ removed, ∀ a, (K.view w).Held K.accCodec a → (K.view w).stakes a v = none) :
    QuietRun K.accCodec (K.view w) (K.view { w with store := w.store.dropRemoved removed }) := by
  induction removed generalizing w with
  | nil => exact .refl _
  | cons v removed ih =>
    have hfirst : QuietRun K.accCodec (K.view w)
        (K.view { w with store := w.store.afterValidatorRemoved v }) :=
      .single (.dropSeq v (hempty v List.mem_cons_self)) rfl
    exact hfirst.trans (ih fun u hu b hb ↦ hempty u (List.mem_cons_of_mem _ hu) b hb)

theorem succeeds_callRemoving {α : Type} {x : α}
    {f : Context → σ → Except Err ((α × List ValAddress) × σ)}
    (h : Succeeds (callRemoving f) w x w') :
    ∃ removed ext, f w.ctx w.ext = .ok ((x, removed), ext) ∧
      w' = { w with ext := ext, store := w.store.dropRemoved removed } := by
  unfold callRemoving afterValidatorsRemoved at h
  simp only [succeeds_bind, succeeds_call, succeeds_modifyStore, succeeds_pure] at h
  obtain ⟨⟨y, removed⟩, _, ⟨ext, hext, rfl⟩, _, _, rfl, rfl, rfl⟩ := h
  exact ⟨removed, ext, hext, rfl⟩

/-! ### Stake after a staking operation -/

theorem stakes_takeShares (hstake : (K.view w).StakedOn a v s) {shares : Dec}
    (h : ∀ u : ValAddress, (K.view w').stakes a u =
      (takeShares (K.staking w.ext).delegations a v s shares)[(a, u)]?) (u : ValAddress) :
    (K.view w').stakes a u =
      if u = v then (if s - shares = 0 then none else some (s - shares)) else none := by
  rw [h, Keepers.getElem?_takeShares]
  by_cases hu : u = v
  · rw [if_pos ⟨rfl, hu⟩, if_pos hu]
  · rw [if_neg fun hkey ↦ hu hkey.2, if_neg hu]
    exact (hstake u).trans (if_neg hu)

theorem idle_takeShares (hstake : (K.view w).StakedOn a v s)
    (h : ∀ u : ValAddress, (K.view w').stakes a u =
      (takeShares (K.staking w.ext).delegations a v s s)[(a, u)]?) :
    (K.view w').Idle a := by
  intro u
  rw [stakes_takeShares hstake h, if_pos (sub_self s)]
  split_ifs <;> rfl

theorem stakedOn_takeShares (hstake : (K.view w).StakedOn a v s) {shares : Dec}
    (hne : s - shares ≠ 0)
    (h : ∀ u : ValAddress, (K.view w').stakes a u =
      (takeShares (K.staking w.ext).delegations a v s shares)[(a, u)]?) :
    (K.view w').StakedOn a v (s - shares) := by
  intro u
  rw [stakes_takeShares hstake h, if_neg hne]

theorem stakedOn_addShares (hstake : (K.view w).StakedOn a v s) {shares : Dec}
    (h : (K.staking w'.ext).delegations = addShares (K.staking w.ext).delegations a v shares) :
    (K.view w').StakedOn a v (s + shares) := by
  intro u
  change (K.staking w'.ext).delegations[(a, u)]? = _
  have hheld : (K.staking w.ext).delegations[(a, v)]? = some s := hstake.stakes_eq
  rw [h, Keepers.getElem?_addShares, hheld]
  by_cases hu : u = v
  · rw [if_pos ⟨rfl, hu⟩, if_pos hu]
    rfl
  · rw [if_neg fun hkey ↦ hu hkey.2, if_neg hu]
    exact (hstake u).trans (if_neg hu)

/-- The stake of an account without stake after shares were added to it. -/
theorem stakedOn_addShares_idle (hidle : (K.view w).Idle a) {shares : Dec}
    (h : (K.staking w'.ext).delegations = addShares (K.staking w.ext).delegations a v shares) :
    (K.view w').StakedOn a v shares := by
  intro u
  change (K.staking w'.ext).delegations[(a, u)]? = _
  have hheld : (K.staking w.ext).delegations[(a, v)]? = none := hidle v
  rw [h, Keepers.getElem?_addShares, hheld]
  by_cases hu : u = v
  · rw [if_pos ⟨rfl, hu⟩, if_pos hu]
    exact congrArg some (zero_add shares)
  · rw [if_neg fun hkey ↦ hu hkey.2, if_neg hu]
    exact hidle u

theorem unbonding_of_eq
    (h : (K.staking w'.ext).unbondingDelegations = (K.staking w.ext).unbondingDelegations)
    (a : AccAddress) : (K.view w').unbonding a = (K.view w).unbonding a := by
  funext v
  change ((K.staking w'.ext).unbondingDelegations[(a, v)]?).isSome = _
  rw [h]
  rfl

theorem sameRedelegations_of_eq
    (h : (K.staking w'.ext).redelegations = (K.staking w.ext).redelegations) (a : AccAddress) :
    Ledger.SameRedelegations (K.view w) (K.view w') a := by
  intro u red _
  change (K.staking w'.ext).redelegations[u]? = some red ↔ _
  rw [h]
  rfl

end ChainMain.TieredRewards
