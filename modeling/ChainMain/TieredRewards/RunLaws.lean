import ChainMain.TieredRewards.ReachableInvariants

/-!
# Laws of whole runs

Position ids are handed out once (`positions_keep_identity`): along every run the next id grows, and
a position that is found under an id handed out before the run was there when the run began, with
the same owner, tier and delegator address. An id whose position has been deleted stays empty.
-/

set_option autoImplicit false

namespace ChainMain.TieredRewards

open Foundations OrderedStore StoreProgram Runs

theorem Position.SameIdentity.trans {p q r : Position} (h : p.SameIdentity q)
    (h' : q.SameIdentity r) : p.SameIdentity r :=
  ⟨h'.id.trans h.id, h'.owner.trans h.owner, h'.tierId.trans h.tierId,
    h'.delegatorAddress.trans h.delegatorAddress⟩

namespace Ledger

variable {codec : AddressCodec} {L L' L'' : Ledger} {op : Op}

/-- The second ledger comes after the first: no id was handed out twice in between. -/
structure Continues (L L' : Ledger) : Prop where
  next : L.store.nextPositionId ≤ L'.store.nextPositionId
  kept : ∀ (j : ℕ) (p' : Position), L'.store.positions[j]? = some p' → j < L.store.nextPositionId →
    ∃ p : Position, L.store.positions[j]? = some p ∧ p.SameIdentity p'

theorem Continues.refl (L : Ledger) : Continues L L := ⟨le_rfl, fun _ p hp _ ↦ ⟨p, hp, .refl p⟩⟩

theorem Continues.trans (h : Continues L L') (h' : Continues L' L'') : Continues L L'' := by
  refine ⟨h.next.trans h'.next, fun j p'' hp'' hj ↦ ?_⟩
  obtain ⟨p', hp', hsame'⟩ := h'.kept j p'' hp'' (hj.trans_le h.next)
  obtain ⟨p, hp, hsame⟩ := h.kept j p' hp' hj
  exact ⟨p, hp, hsame.trans hsame'⟩

theorem Step.continues (h : Step codec L op L') (hindex : L.store.Indexed codec) :
    Continues L L' := by
  refine ⟨?_, fun j p' hp' hj ↦ ?_⟩
  · cases h with
    | outside hstore _ => rw [hstore]
    | reshare _ _ _ _ _ _ _ hstore => rw [hstore]
    | create _ _ _ _ _ _ _ _ _ _ _ _ hstore =>
      rw [congrArg Store.nextPositionId hstore]
      exact Nat.le_succ _
    | leave _ _ _ _ _ _ hstore => exact (congrArg Store.nextPositionId hstore).ge
    | move _ _ _ _ _ _ _ _ _ _ _ _ _ hstore => exact (congrArg Store.nextPositionId hstore).ge
    | tick | params | setTier | deleteTier | settle | remove | trigger | clear | record | status
    | dropSeq | mature => exact le_rfl
  · rcases h.kept_or_created hindex hp' with hkept | ⟨exiting, rfl⟩
    · exact hkept
    · -- a new position takes the next id, which is not below itself
      cases h with
      | create _ hfresh => exact absurd hfresh.id hj.ne

theorem Sound.continues {τ : List (Transition Ledger Op)} (hL : L.Sound codec)
    (h : Run (Step codec) L τ L') : Continues L L' := by
  refine (h.invariant (P := fun L' ↦ L'.Sound codec ∧ Continues L L') ⟨hL, .refl L⟩ ?_).2
  rintro s _ s' ⟨hs, hcontinues⟩ hstep
  exact ⟨hstep.sound hs, hcontinues.trans (hstep.continues hs.indexed)⟩

end Ledger

variable {σ : Type} {K : Keepers σ} {w w' : World σ}

/-- No id is used for two positions in a run, and a position keeps its owner, its tier and its
delegator address. -/
theorem positions_keep_identity (hK : K.Contract) (hw : Reachable K w)
    {τ : List (Transition (World σ) Label)} (h : Run (ChainStep K) w τ w') :
    w.store.nextPositionId ≤ w'.store.nextPositionId ∧
      ∀ (id : ℕ) (p' : Position), w'.store.positions[id]? = some p' → id < w.store.nextPositionId →
        ∃ p : Position, w.store.positions[id]? = some p ∧ p.SameIdentity p' := by
  have hruns := h.invariant
    (P := fun w' ↦ K.Sound w' ∧ (K.view w).Continues (K.view w'))
    ⟨hw.sound hK, .refl _⟩ (by
      rintro s label s' ⟨hs, hcontinues⟩ hstep
      have heffect := hstep.effect hK hs
      obtain ⟨_, hrun⟩ := heffect.run hs
      exact ⟨heffect.sound hs, hcontinues.trans (hs.continues hrun)⟩)
  exact ⟨hruns.2.next, hruns.2.kept⟩

open Reference

/-- A year after the reference history, its position is still the one that was locked. -/
theorem positions_keep_identity_history :
    ∃ p : Position, world₄.store.positions[0]? = some p ∧ p.SameIdentity position :=
  (positions_keep_identity keepers_contract ⟨_, reaches_history⟩
    (.single (chainStep_yearLater world₄))).2 0 position (by decide +kernel) (by decide +kernel)

end ChainMain.TieredRewards
