import ChainMain.TieredRewards.ReferenceKeepers
import ChainMain.TieredRewards.Respelling

/-!
# Who the owner of a position is

The bonus, the base rewards and the owner index follow the account an owner field decodes to, while
`IsOwner` compares the field itself. A run in which the owners are respelled throughout, each
spelling by one other spelling of the same account, is a run of the module again, with the same
messages accepted and the same balances, delegations and index entries (`respelled_run_agrees`).
It is enough that every message on a stored position spells the owner as it is stored in one run if
and only if it does in the other; a message that creates a position may spell it in any way
(`respelled_owners_agree`, `exists_respellings`). A message that spells the owner of a position
otherwise than the message that created it is turned away (`other_spelling_refused`,
`other_spelling_is_rejected`).
-/

set_option autoImplicit false

namespace ChainMain.TieredRewards

open Foundations Decimal OrderedStore StoreProgram Runs

variable {σ : Type} {K : Keepers σ}

/-- The message with its owner respelled; a message of the authority has none. -/
def Msg.respell (ρ : String → String) (msg : Msg) : Msg := msg.withOwner (ρ msg.signer)

/-- The world with every owner respelled in the same way. -/
def World.respell (ρ : String → String) (w : World σ) : World σ := w.respellEach fun _ ↦ ρ

/-- The label with the owner of its message respelled. -/
def Label.respell (ρ : String → String) : Label → Label
  | .deliver msg => .deliver (msg.respell ρ)
  | label => label

def respellTransition (ρ : String → String) (t : Transition (World σ) Label) :
    Transition (World σ) Label :=
  ⟨t.source.respell ρ, t.label.respell ρ, t.target.respell ρ⟩

section Respelled

variable {codec : AddressCodec}

/-- A label in the respelled run: a message may have another owner, and nothing else is changed. -/
inductive RespelledLabel (ρ : Respellings codec) (w : World σ) : Label → Label → Prop
  | deliver {msg : Msg} {owner : String} (h : Respelled ρ w msg owner) :
      RespelledLabel ρ w (.deliver msg) (.deliver (msg.withOwner owner))
  | other {label : Label} (h : ∀ msg, label ≠ .deliver msg) : RespelledLabel ρ w label label

def RespelledTransition (ρ : Respellings codec) (t t' : Transition (World σ) Label) : Prop :=
  t'.source = t.source.respellEach ρ ∧ RespelledLabel ρ t.source t.label t'.label ∧
    t'.target = t.target.respellEach ρ

/-- One change of spelling for all positions. -/
def Respelling.throughout (ρ : Respelling codec) : Respellings codec :=
  ⟨fun _ ↦ ρ.spell, fun _ ↦ ρ.injective, fun _ ↦ ρ.decodes⟩

theorem Respelling.respelled (ρ : Respelling codec) (w : World σ) (msg : Msg) :
    Respelled ρ.throughout w msg (ρ.spell msg.signer) where
  decodes := ρ.decodes _
  asStored := by
    intro _ _ p _
    rw [Bool.eq_iff_iff]
    exact beq_iff_eq.trans (ρ.injective.eq_iff.trans beq_iff_eq.symm)
  created := fun _ ↦ rfl

theorem respelledTransition_throughout (ρ : Respelling codec) (t : Transition (World σ) Label) :
    RespelledTransition ρ.throughout t (respellTransition ρ.spell t) := by
  refine ⟨rfl, ?_, rfl⟩
  rcases t with ⟨w, label, w'⟩
  cases label with
  | deliver msg => exact .deliver (ρ.respelled w msg)
  | _ => exact .other fun _ h ↦ Label.noConfusion h

/-- The positions can be given any spellings of their owners' accounts. -/
theorem exists_respellings {owner owner' : ℕ → String}
    (h : ∀ id, codec.stringToBytes (owner' id) = codec.stringToBytes (owner id)) :
    ∃ ρ : Respellings codec, ∀ id, ρ.spell id (owner id) = owner' id := by
  refine ⟨⟨fun id ↦ Equiv.swap (owner id) (owner' id), fun id ↦ (Equiv.swap _ _).injective, ?_⟩,
    fun id ↦ Equiv.swap_apply_left _ _⟩
  intro id address
  rw [Equiv.swap_apply_def]
  split_ifs with hold hnew
  · rw [hold, h id]
  · rw [hnew, h id]
  · rfl

end Respelled

/-! ### Steps of the chain -/

section Steps

variable {w w' : World σ}

theorem held_respell (ρ : ℕ → String → String) (a : AccAddress) :
    (K.view (w.respellEach ρ)).Held K.accCodec a ↔ (K.view w).Held K.accCodec a := by
  constructor
  · rintro ⟨id, p, hstored, haccount⟩
    have hmap : (w.store.positions[id]?).map (Position.respell ρ) = some p :=
      (w.store.getElem?_respell ρ id).symm.trans hstored
    obtain ⟨q, hq, rfl⟩ := Option.map_eq_some_iff.mp hmap
    exact ⟨id, q, hq, haccount⟩
  · rintro ⟨id, p, hstored, haccount⟩
    refine ⟨id, p.respell ρ, ?_, haccount⟩
    exact (w.store.getElem?_respell ρ id).trans (congrArg (Option.map _) hstored)

theorem signer_withOwner {codec : AddressCodec} {msg : Msg} {owner : String}
    (h : codec.stringToBytes owner = codec.stringToBytes msg.signer) :
    codec.stringToBytes (msg.withOwner owner).signer = codec.stringToBytes msg.signer := by
  cases msg with
  | updateParams msg => rfl
  | addTier msg => rfl
  | updateTier msg => rfl
  | deleteTier msg => rfl
  | _ => exact h

variable (ρ : Respellings K.accCodec)

theorem deliver_respell (hw : w.Keyed) {msg : Msg} {owner : String} (h : Respelled ρ w msg owner) :
    deliver K (msg.withOwner owner) (w.respellEach ρ) =
      ((deliver K msg w).1, (deliver K msg w).2.respellEach ρ) ∧ (deliver K msg w).2.Keyed := by
  have hdeliver := (respell_handle ρ hw h).atomically hw
  rwa [Except.map_id] at hdeliver

theorem outcome_respell (hw : w.Keyed) {msg : Msg} {owner : String} (h : Respelled ρ w msg owner) :
    (deliver K (msg.withOwner owner) (w.respellEach ρ)).1 = (deliver K msg w).1 := by
  rw [(deliver_respell ρ hw h).1]

theorem frame_respell (ρ : ℕ → String → String) {ext : σ}
    (h : (K.view w).Frame K.accCodec none (K.view { w with ext })) :
    (K.view (w.respellEach ρ)).Frame K.accCodec none (K.view { w.respellEach ρ with ext }) where
  now := rfl
  bonded := h.bonded
  accounts := h.accounts
  paid := rfl
  stakes := fun a ha hne ↦ h.stakes a ((held_respell ρ a).mp ha) hne
  redelegations := fun a ha hne ↦ h.redelegations a ((held_respell ρ a).mp ha) hne
  unbonding := fun a v ha hv ↦ h.unbonding a v ((held_respell ρ a).mp ha) hv
  tidy := ⟨h.tidy.idle, h.tidy.notRedelegating, h.tidy.zero, h.tidy.notUnbonding⟩

theorem ChainStep.respell {label label' : Label} (hw : w.Keyed) (h : ChainStep K w label w')
    (hlabel : RespelledLabel ρ w label label') :
    ChainStep K (w.respellEach ρ) label' (w'.respellEach ρ) ∧ w'.Keyed := by
  cases hlabel with
  | @deliver msg owner hmsg =>
    cases h with
    | deliver _ hsigner =>
      obtain ⟨hdeliver, hw'⟩ := deliver_respell ρ hw hmsg
      refine ⟨?_, hw'⟩
      have hfree : SignerIsFree K (w.respellEach ρ) (msg.withOwner owner).signer := by
        intro b hb
        obtain ⟨haccount, hheld⟩ := hsigner b ((signer_withOwner hmsg.decodes).symm.trans hb)
        exact ⟨haccount, fun hheld' ↦ hheld ((held_respell ρ b).mp hheld')⟩
      have hstep := ChainStep.deliver _ hfree
      rwa [hdeliver] at hstep
  | other hother =>
    cases h with
    | beginBlock ctx htime => exact ⟨.beginBlock ctx htime, hw⟩
    | deliver msg hsigner => exact absurd rfl (hother msg)
    | validatorBonded hval hbefore hstaking hhook =>
      obtain ⟨hhook', hw'⟩ := (respell_recordValidatorEvent ρ .bond _).succeeds hhook hw
      exact ⟨.validatorBonded hval hbefore hstaking hhook', hw'⟩
    | validatorBeginUnbonding hval hbefore hstaking hhook =>
      obtain ⟨hhook', hw'⟩ := (respell_recordValidatorEvent ρ .unbond _).succeeds hhook hw
      exact ⟨.validatorBeginUnbonding hval hbefore hstaking hhook', hw'⟩
    | validatorSlashed fraction hhook =>
      obtain ⟨hhook', hw'⟩ := (respell_recordValidatorEvent ρ .slash _).succeeds hhook hw
      exact ⟨.validatorSlashed fraction hhook', hw'⟩
    | validatorRemoved hbonded hempty hstaking hhook =>
      obtain ⟨hhook', hw'⟩ := (respell_afterValidatorRemoved ρ _).succeeds hhook hw
      exact ⟨.validatorRemoved hbonded hempty hstaking hhook', hw'⟩
    | redelegationSlashed hentry hhook hunbond =>
      obtain ⟨hhook', hw₁⟩ := (respell_slashRedelegationPosition ρ _ _).succeeds hhook hw
      cases hunbond with
      | gone hgone hworld =>
        subst hworld
        exact ⟨.redelegationSlashed hentry hhook' (.gone hgone rfl), hw₁⟩
      | unbonded hunbonded =>
        obtain ⟨hunbonded', hw'⟩ := (respell_callRemoving ρ _).succeeds hunbonded hw₁
        exact ⟨.redelegationSlashed hentry hhook' (.unbonded hunbonded'), hw'⟩
    | redelegationsCompleted ids hstaking hhook =>
      obtain ⟨hhook', hw'⟩ := (respell_afterRedelegationCompleted ρ ids).succeeds hhook hw
      exact ⟨.redelegationsCompleted ids hstaking hhook', hw'⟩
    | outside ext hframe => exact ⟨.outside ext (frame_respell ρ hframe), hw⟩

theorem Fresh.positions_none (h : Fresh K w) (id : ℕ) : w.store.positions[id]? = none := by
  obtain ⟨params, _, hstore⟩ := h.store
  rw [hstore]
  exact Std.ExtTreeMap.getElem?_empty

theorem Fresh.respell (h : Fresh K w) (ρ : ℕ → String → String) : w.respellEach ρ = w := by
  have hpositions : (w.store.positions.map fun _ p ↦ Position.respell ρ p) = w.store.positions := by
    ext1 id
    rw [Std.ExtTreeMap.getElem?_map, h.positions_none id, Option.map_none]
  unfold World.respellEach Store.respell
  rw [hpositions, h.emitted]
  exact congrArg (fun emitted ↦ { w with emitted }) h.emitted.symm

end Steps

/-! ### Runs -/

section Runs

variable {w₀ w : World σ} {τ τ' : List (Transition (World σ) Label)}

/-- The respelled transitions are a run, and every message goes as before. -/
theorem run_respell (ρ : Respellings K.accCodec) (hfresh : Fresh K w₀)
    (hrun : Run (ChainStep K) w₀ τ w) (hτ : List.Forall₂ (RespelledTransition ρ) τ τ') :
    Run (ChainStep K) w₀ τ' (w.respellEach ρ) ∧ ∀ t ∈ τ, t.source.Keyed := by
  have hkeyed : w₀.Keyed := by
    intro id p hp
    rw [hfresh.positions_none id] at hp
    cases hp
  obtain ⟨hrun', _, hall⟩ := hrun.mirrored hkeyed
    (fun _ _ _ _ hw hstep hlabel ↦ hstep.respell ρ hw hlabel) hτ
  rw [hfresh.respell] at hrun'
  exact ⟨hrun', hall⟩

/-- Respelling every owner of a run of the chain gives a run from the same start: each message is
accepted or rejected as it was, the other modules end in the same state, and so does the store, the
owner strings of the positions apart. -/
theorem respelled_run_agrees (ρ : Respelling K.accCodec) {w₀ w : World σ}
    {τ : List (Transition (World σ) Label)} (hfresh : Fresh K w₀)
    (hrun : Run (ChainStep K) w₀ τ w) :
    Run (ChainStep K) w₀ (τ.map (respellTransition ρ.spell)) (w.respell ρ.spell) ∧
      (∀ t ∈ τ, ∀ msg, t.label = .deliver msg →
        (respellTransition ρ.spell t).label = .deliver (msg.respell ρ.spell) ∧
        (deliver K (msg.respell ρ.spell) (respellTransition ρ.spell t).source).1 =
          (deliver K msg t.source).1) ∧
      (w.respell ρ.spell).ext = w.ext ∧
      (w.respell ρ.spell).store =
        { w.store with positions := (w.respell ρ.spell).store.positions } := by
  have hτ : List.Forall₂ (RespelledTransition ρ.throughout) τ
      (τ.map (respellTransition ρ.spell)) := by
    rw [List.forall₂_map_right_iff, List.forall₂_same]
    exact fun t _ ↦ respelledTransition_throughout ρ t
  obtain ⟨hrun', hkeyed⟩ := run_respell ρ.throughout hfresh hrun hτ
  refine ⟨hrun', fun t ht msg hlabel ↦ ⟨?_, ?_⟩, rfl, rfl⟩
  · unfold respellTransition
    rw [hlabel]
    rfl
  · exact outcome_respell ρ.throughout (hkeyed t ht) (ρ.respelled t.source msg)

/-- Each position of a run may be given its own spelling by the message that creates it. As long as
the messages on a position spell its owner as stored in one run if and only if they do in the other,
the messages are accepted or rejected as before, and all but the owner strings is the same. -/
theorem respelled_owners_agree (ρ : Respellings K.accCodec) (hfresh : Fresh K w₀)
    (hrun : Run (ChainStep K) w₀ τ w) (hτ : List.Forall₂ (RespelledTransition ρ) τ τ') :
    Run (ChainStep K) w₀ τ' (w.respellEach ρ) ∧
      List.Forall₂ (fun t t' ↦ ∀ msg msg', t.label = .deliver msg → t'.label = .deliver msg' →
        (deliver K msg' t'.source).1 = (deliver K msg t.source).1) τ τ' ∧
      (w.respellEach ρ).ext = w.ext ∧
      (w.respellEach ρ).store =
        { w.store with positions := (w.respellEach ρ).store.positions } := by
  obtain ⟨hrun', hkeyed⟩ := run_respell ρ hfresh hrun hτ
  refine ⟨hrun', ?_, rfl, rfl⟩
  refine ((List.forall₂_and_left _ _).mpr ⟨hkeyed, hτ⟩).imp ?_
  rintro ⟨source, label, target⟩ ⟨_, label', _⟩ ⟨hsource, rfl, hlabel, rfl⟩ msg msg' rfl rfl
  cases hlabel with
  | deliver hmsg => exact outcome_respell ρ hsource hmsg
  | other hother => exact absurd rfl (hother msg)

end Runs

/-! ### Other spellings -/

section Refusals

variable {w w' : World σ} {id : ℕ} {p : Position}

/-- A handler that loads a position and checks its owner goes on for the stored owner only. -/
theorem isOwner_of_loading {α : Type} {owner : String} {checked : Except Err Unit} {a : α}
    {check : PositionState → M σ PUnit} {rest : PositionState → M σ α}
    (hp : w.store.positions[id]? = some p)
    (hcheck : ∀ pos w u w', Succeeds (check pos) w u w' → pos.isOwner owner)
    (h : Succeeds (do fromOutcome checked; let pos ← getPositionState K id; check pos; rest pos)
      w a w') :
    p.isOwner owner := by
  simp only [succeeds_bind, succeeds_fromOutcome] at h
  obtain ⟨_, _, ⟨_, rfl⟩, pos, _, hload, _, _, hchecked, _⟩ := h
  obtain rfl := Option.some.inj (hp.symm.trans (succeeds_getPositionState.mp hload).1)
  exact hcheck pos _ _ _ hchecked

theorem isOwner_of_handle {msg : Msg} {u : PUnit} (hid : id ∈ msg.positionIds)
    (hp : w.store.positions[id]? = some p) (h : Succeeds (handle K msg) w u w') :
    p.isOwner msg.signer := by
  cases msg with
  | tierUndelegate msg =>
    obtain rfl := List.mem_singleton.mp hid
    obtain ⟨_, _, hrun, _⟩ := succeeds_bind.mp h
    exact isOwner_of_loading hp
      (fun _ _ _ _ hc ↦ (succeeds_validateUndelegatePosition hc).2.1) hrun
  | tierRedelegate msg =>
    obtain rfl := List.mem_singleton.mp hid
    obtain ⟨_, _, hrun, _⟩ := succeeds_bind.mp h
    exact isOwner_of_loading hp
      (fun _ _ _ _ hc ↦ (succeeds_validateRedelegatePosition hc).2.1) hrun
  | addToTierPosition msg =>
    obtain rfl := List.mem_singleton.mp hid
    obtain ⟨_, _, hrun, _⟩ := succeeds_bind.mp h
    exact isOwner_of_loading hp (fun _ _ _ _ hc ↦ (succeeds_validateAddToPosition hc).2.1) hrun
  | triggerExitFromTier msg =>
    obtain rfl := List.mem_singleton.mp hid
    obtain ⟨_, _, hrun, _⟩ := succeeds_bind.mp h
    exact isOwner_of_loading hp (fun _ _ _ _ hc ↦ (succeeds_validateTriggerExit hc).2.1) hrun
  | clearPosition msg =>
    obtain rfl := List.mem_singleton.mp hid
    obtain ⟨_, _, hrun, _⟩ := succeeds_bind.mp h
    exact isOwner_of_loading hp (fun _ _ _ _ hc ↦ (succeeds_validateClearPosition hc).2) hrun
  | withdrawFromTier msg =>
    obtain rfl := List.mem_singleton.mp hid
    obtain ⟨_, _, hrun, _⟩ := succeeds_bind.mp h
    exact isOwner_of_loading hp (fun _ _ _ _ hc ↦ (succeeds_validateWithdrawFromTier hc).2.1) hrun
  | exitTierWithDelegation msg =>
    obtain rfl := List.mem_singleton.mp hid
    obtain ⟨_, _, hrun, _⟩ := succeeds_bind.mp h
    exact isOwner_of_loading hp
      (fun _ _ _ _ hc ↦ (succeeds_validateExitTierWithDelegation hc).2.1) hrun
  | claimTierRewards msg =>
    obtain ⟨_, _, hrun, _⟩ := succeeds_bind.mp h
    unfold claimTierRewards at hrun
    simp only [succeeds_bind, succeeds_fromOutcome] at hrun
    obtain ⟨_, _, ⟨_, rfl⟩, positions, _, hload, _⟩ := hrun
    obtain ⟨_, rfl⟩ := succeeds_loadClaimedPositions_iff.mp hload
    obtain ⟨pos, hpos, hisOwner⟩ := loadable_iff.mpr ⟨positions, hload⟩ id hid
    obtain rfl := Option.some.inj (hp.symm.trans (succeeds_getPositionState.mp hpos).1)
    exact hisOwner
  | _ => exact absurd hid List.not_mem_nil

/-- A message that names a position with any other spelling than the stored one is refused. -/
theorem other_spelling_refused {msg : Msg} (hid : id ∈ msg.positionIds)
    (hp : w.store.positions[id]? = some p) (hne : p.owner ≠ msg.signer) :
    ∃ e, deliver K msg w = (.error e, w) := by
  rcases atomically_cases (handle K msg) w with ⟨_, h, _⟩ | ⟨⟨e, herror⟩, hworld⟩
  · exact absurd (beq_iff_eq.mp (isOwner_of_handle hid hp h)) hne
  · exact ⟨e, Prod.ext herror hworld⟩

end Refusals

/-! ### Two spellings of one account -/

namespace Reference

/-- Another spelling of the user's address. -/
def otherSpelling : String := "baa"

/-- The exchange of the two spellings of the user's address. -/
def exchanged : Respelling codec where
  spell address :=
    if address = user then otherSpelling else if address = otherSpelling then user else address
  injective := by
    intro a b h
    have hne : user ≠ otherSpelling := by decide +kernel
    dsimp only at h
    split_ifs at h with ha hb hb' ha' hb hb' hb hb'
    all_goals simp_all
  decodes := by
    intro address
    split_ifs with h h'
    · rw [h]
      decide +kernel
    · rw [h']
      decide +kernel
    · rfl

/-- The position of the history is respelled, and no other. -/
def apart : Respellings codec where
  spell id := if id = 0 then exchanged.spell else fun address ↦ address
  injective id := by
    split_ifs
    · exact exchanged.injective
    · exact Function.injective_id
  decodes id address := by
    split_ifs
    · exact exchanged.decodes address
    · rfl

/-- The world in which the user has locked a second position. -/
def twice : World Outside := (deliver keepers lockTier world₄).2

/-- The history in which the user locks two positions, spelled in two ways. -/
def spelledApart : List (Transition (World Outside) Label) :=
  List.zipWith (fun t label ↦ ⟨t.source.respellEach apart, label, t.target.respellEach apart⟩)
    (history ++ [⟨world₄, .deliver lockTier, twice⟩])
    [.deliver addTier, .deliver (lockTier.withOwner otherSpelling), .beginBlock,
      .validatorSlashed 1 ⟨100000000000000000⟩, .beginBlock, .deliver lockTier]

theorem run_twice :
    Run (ChainStep keepers) world₀ (history ++ [⟨world₄, .deliver lockTier, twice⟩]) twice :=
  run_history.snoc (chainStep_deliver (by decide +kernel))

theorem respelled_lockTier {w : World Outside} {owner : String}
    (hdecodes : codec.stringToBytes owner = codec.stringToBytes lockTier.signer)
    (howner : owner = apart.spell w.store.nextPositionId lockTier.signer) :
    Respelled apart w lockTier owner :=
  ⟨hdecodes, fun _ h ↦ absurd h List.not_mem_nil, fun _ ↦ howner⟩

theorem forall₂_spelledApart :
    List.Forall₂ (RespelledTransition apart)
      (history ++ [⟨world₄, .deliver lockTier, twice⟩]) spelledApart := by
  have haddTier : Respelled apart world₀ addTier addTier.signer :=
    ⟨rfl, fun _ h ↦ absurd h List.not_mem_nil, fun h ↦ Bool.noConfusion h⟩
  have hfirst : Respelled apart world₁ lockTier otherSpelling :=
    respelled_lockTier (by decide +kernel) (by decide +kernel)
  have hsecond : Respelled apart world₄ lockTier lockTier.signer :=
    respelled_lockTier rfl (by decide +kernel)
  exact .cons ⟨rfl, .deliver haddTier, rfl⟩ (.cons ⟨rfl, .deliver hfirst, rfl⟩
    (.cons ⟨rfl, .other fun _ h ↦ Label.noConfusion h, rfl⟩
      (.cons ⟨rfl, .other fun _ h ↦ Label.noConfusion h, rfl⟩
        (.cons ⟨rfl, .other fun _ h ↦ Label.noConfusion h, rfl⟩
          (.cons ⟨rfl, .deliver hsecond, rfl⟩ .nil)))))

end Reference

open Reference

/-- Two positions of the user, spelled in one way in the history and in two ways in the other. -/
theorem respelled_owners_agree_twice :
    (twice.respellEach apart).store.positions[0]?.map Position.owner =
      some otherSpelling ∧
    (twice.respellEach apart).store.positions[1]?.map Position.owner =
      some user ∧
    Run (ChainStep keepers) world₀ spelledApart
      (twice.respellEach apart) :=
  ⟨by decide +kernel, by decide +kernel, (respelled_owners_agree apart
    fresh_world₀ run_twice forall₂_spelledApart).1⟩

/-- The history with the user respelled. -/
theorem respelled_run_agrees_history :
    (world₄.respell exchanged.spell).store.positions[0]?.map Position.owner =
      some otherSpelling ∧
    Run (ChainStep keepers) world₀
      (history.map (respellTransition exchanged.spell))
      (world₄.respell exchanged.spell) :=
  ⟨by decide +kernel, (respelled_run_agrees exchanged fresh_world₀
    run_history).1⟩

/-- The owner index lists a position under the user's account, and the user may trigger its exit
with the spelling the position was locked with, but not with another spelling of the same
address. -/
theorem other_spelling_is_rejected :
    Reachable keepers world₄ ∧
    codec.stringToBytes otherSpelling =
      codec.stringToBytes user ∧
    world₄.store.getPositionsIdsByOwner 2 = [0] ∧
    (deliver keepers (.triggerExitFromTier ⟨user, 0⟩) world₄).1.isOk ∧
    (deliver keepers (.triggerExitFromTier ⟨otherSpelling, 0⟩)
      world₄).1.isOk = false :=
  ⟨⟨_, reaches_history⟩, by decide +kernel, by decide +kernel, by decide +kernel,
    by decide +kernel⟩

end ChainMain.TieredRewards
