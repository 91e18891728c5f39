import ChainMain.Foundations.RoundedShares
import ChainMain.TieredRewards.TallyLaws

/-!
# No stake is counted twice

The shares behind a position are part of the shares of its validator, and they count for the owner
of the position. `stake_counted_once` says that the two passes of the tally count them once: no
delegation is counted twice, the shares deducted from a validator are never more than it has, and
the power counted for its stake is its bonded tokens if it voted and at most those if it did not, up
to one unit in the last digit for each delegation that was counted by itself. The four results hold
that power and no other: each option is credited with its weight of it, and together they are within
a unit for each credited option.

The tally runs over the keepers of a world (`Keepers.tallyKeepers`). What staking makes sure of is
`TallyStaking`, what the positions are is `TierPositions`, and what the governance module stores is
`Ballots`. In a world that satisfies the first two, the accounts whose delegations a vote counts are
the voter and the delegators of the voter's positions (`holders`). No account is one of these for
two votes, so the delegations that are counted form a part of all delegations
(`backing_attribution_le`).
-/

set_option autoImplicit false

namespace ChainMain.TieredRewards

open Foundations Accumulation Decimal OrderedStore Outcomes
open Foundations.StoreProgram

/-! ### What an option is due -/

section Credits

variable {T : TallyKeepers} {options : List WeightedVoteOption} {power : Dec}

def weightOf (T : TallyKeepers) (option : WeightedVoteOption) : Dec :=
  value (T.legacyNewDecFromStr option.weight)

/-- What a power is to add to the results: to every option its weights of it. -/
def credit (T : TallyKeepers) (options : List WeightedVoteOption) (power : Dec) : TallyResults :=
  fun o ↦ ((options.filter fun option ↦ option.option = o).map fun option ↦
    power.mul (weightOf T option)).sum

/-- The power that the four results hold. -/
def resultPower : TallyResults →+ Dec :=
  Pi.evalAddMonoidHom _ .yes + Pi.evalAddMonoidHom _ .abstain + Pi.evalAddMonoidHom _ .no +
    Pi.evalAddMonoidHom _ .noWithVeto

theorem credit_cons (option : WeightedVoteOption) (rest : List WeightedVoteOption) :
    credit T (option :: rest) power =
      Pi.single option.option (power.mul (weightOf T option)) + credit T rest power := by
  funext o
  rw [Pi.add_apply, Pi.single_apply]
  unfold credit
  by_cases ho : option.option = o
  · rw [List.filter_cons_of_pos (by simpa using ho), List.map_cons, List.sum_cons, if_pos ho.symm]
  · rw [List.filter_cons_of_neg (by simpa using ho), if_neg (Ne.symm ho), zero_add]

theorem credit_zero (options : List WeightedVoteOption) : credit T options 0 = 0 := by
  induction options with
  | nil => rfl
  | cons option rest ih =>
    have hmul : (0 : Dec).mul (weightOf T option) = 0 := by
      rw [Dec.mul, Dec.units_zero, zero_mul]
      rfl
    rw [credit_cons, ih, hmul, Pi.single_zero, add_zero]

theorem resultShare_eq_credit {results : TallyResults}
    (h : resultShare T options power = .ok results) :
    results = credit T options power := by
  induction options generalizing results with
  | nil => exact (Except.ok.inj h).symm
  | cons option rest ih =>
    obtain ⟨first, hfirst, h⟩ := bind_eq_ok.mp h
    obtain ⟨others, hothers, h⟩ := bind_eq_ok.mp h
    obtain ⟨weight, hweight, hadd⟩ := bind_eq_ok.mp hfirst
    have hvalue : weightOf T option = weight := by
      rw [weightOf, mapError_eq_ok.mp hweight, value_ok]
    unfold addResult at hadd
    split_ifs at hadd
    rw [credit_cons, hvalue, ← ih hothers, ← pure_eq_ok.mp h, ← Except.ok.inj hadd, zero_add]

/-- With counted options, nothing of what they are due is outside of the four results. -/
theorem resultPower_credit (hcounted : ∀ option ∈ options, option.option.counted = true) :
    resultPower (credit T options power) = ((options.map (weightOf T)).map power.mul).sum := by
  have hsingle : ∀ (o : VoteOption) (x : Dec), o.counted = true →
      resultPower (Pi.single o x) = x := by
    intro o x ho
    cases o with
    | unspecified => cases ho
    | _ => simp [resultPower]
  induction options with
  | nil => exact map_zero resultPower
  | cons option rest ih =>
    obtain ⟨hoption, hrest⟩ := List.forall_mem_cons.mp hcounted
    rw [credit_cons, map_add, hsingle _ _ hoption, ih hrest, List.map_cons, List.map_cons,
      List.sum_cons]

end Credits

/-! ### What backs an attribution -/

namespace Attribution

/-- The delegations that have been counted. -/
def backing (t : Attribution) : Multiset Delegation := t.parts.map Part.delegation

theorem backing_add (a b : Attribution) : (a + b).backing = a.backing + b.backing := by
  rw [backing, backing, backing, parts_add, Multiset.map_add]

/-- The results that the counted delegations are due. -/
def dues (T : TallyKeepers) (parts : Multiset Part) : TallyResults :=
  (parts.map fun part ↦ credit T part.options part.power).sum

/-- Every counted delegation is one to a validator of the map, has its share of the tokens, and goes
to the options of one of the votes; the results are what the delegations are due. -/
structure Accounted (T : TallyKeepers) (validators : Map String ValidatorGovInfo)
    (votes : List Vote) (t : Attribution) : Prop where
  priced : ∀ part ∈ t.parts, ∃ val, validators[part.delegation.validatorAddress]? = some val ∧
    part.power = Dec.shareOf val.bondedTokens val.delegatorShares part.delegation.shares
  cast : ∀ part ∈ t.parts, ∃ vote ∈ votes, part.options = vote.options
  credited : t.results = dues T t.parts

section Accounted

variable {T : TallyKeepers} {validators : Map String ValidatorGovInfo} {votes : List Vote}

theorem accounted_of_parts_eq_zero {t : Attribution} (hparts : t.parts = 0)
    (hresults : t.results = 0) :
    t.Accounted T validators votes where
  priced part hpart := absurd (hparts ▸ hpart) (Multiset.notMem_zero part)
  cast part hpart := absurd (hparts ▸ hpart) (Multiset.notMem_zero part)
  credited := by rw [hparts, hresults, dues, Multiset.map_zero, Multiset.sum_zero]

theorem accounted_zero : (0 : Attribution).Accounted T validators votes :=
  accounted_of_parts_eq_zero rfl rfl

theorem Accounted.add {a b : Attribution} (ha : a.Accounted T validators votes)
    (hb : b.Accounted T validators votes) : (a + b).Accounted T validators votes where
  priced part hpart := (Multiset.mem_add.mp hpart).elim (ha.priced part) (hb.priced part)
  cast part hpart := (Multiset.mem_add.mp hpart).elim (ha.cast part) (hb.cast part)
  credited := by
    change a.results + b.results = _
    rw [ha.credited, hb.credited, parts_add, dues, dues, dues, Multiset.map_add, Multiset.sum_add]

/-- The shares counted for a validator, as a multiset of numbers. -/
def sharesOn (t : Attribution) (v : String) : Multiset Dec :=
  (t.on v).map fun part ↦ part.delegation.shares

theorem sharesOn_eq (t : Attribution) (v : String) :
    t.sharesOn v = (t.backing.filter fun d ↦ d.validatorAddress = v).map Delegation.shares := by
  rw [sharesOn, on, backing, Multiset.filter_map, Multiset.map_map]
  rfl

theorem Accounted.map_power_on {t : Attribution} {v : String} {val : ValidatorGovInfo}
    (ht : t.Accounted T validators votes) (hval : validators[v]? = some val) :
    (t.on v).map Part.power =
      (t.sharesOn v).map (Dec.shareOf val.bondedTokens val.delegatorShares) := by
  rw [sharesOn, Multiset.map_map]
  refine Multiset.map_congr rfl fun part hpart ↦ ?_
  obtain ⟨hmem, rfl⟩ := Multiset.mem_filter.mp hpart
  obtain ⟨val', hval', hpower⟩ := ht.priced part hmem
  obtain rfl := Option.mem_unique hval hval'
  exact hpower

/-- A sum over what has been counted is one over the validators of the map. -/
theorem Accounted.sum_parts {t : Attribution} (ht : t.Accounted T validators votes) {M : Type}
    [AddCommMonoid M] (f : Part → M) :
    (t.parts.map f).sum = (validators.keys.map fun v ↦ ((t.on v).map f).sum).sum := by
  have hkeys : ∀ part ∈ t.parts, part.delegation.validatorAddress ∈ validators.keys := by
    intro part hpart
    obtain ⟨val, hval, _⟩ := ht.priced part hpart
    exact mem_keys.mpr ⟨val, hval⟩
  have hnodup : validators.keys.Nodup := Std.ExtTreeMap.nodup_keys
  unfold on
  generalize t.parts = parts at hkeys ⊢
  induction parts using Multiset.induction_on with
  | empty => simp
  | cons part rest ih =>
    obtain ⟨hfirst, hrest⟩ := Multiset.forall_mem_cons.mp hkeys
    have hsplit : ∀ v, ((Multiset.filter (fun part : Part ↦ part.delegation.validatorAddress = v)
        (part ::ₘ rest)).map f).sum = (if part.delegation.validatorAddress = v then f part else 0) +
          ((rest.filter fun part ↦ part.delegation.validatorAddress = v).map f).sum := by
      intro v
      split_ifs with hv
      · rw [Multiset.filter_cons_of_pos rest hv, Multiset.map_cons, Multiset.sum_cons]
      · rw [Multiset.filter_cons_of_neg rest hv, zero_add]
    have hone : (validators.keys.map fun v ↦
        if part.delegation.validatorAddress = v then f part else 0).sum = f part := by
      rw [← List.sum_toFinset _ hnodup, Finset.sum_ite_eq, if_pos (List.mem_toFinset.mpr hfirst)]
    simp only [hsplit]
    rw [Multiset.map_cons, Multiset.sum_cons, ih hrest, List.sum_map_add, hone]

end Accounted

end Attribution

section Shares

variable {T : TallyKeepers} {validators : Map String ValidatorGovInfo} {votes : List Vote}
  {vote : Vote}

theorem accounted_countShare (hvote : vote ∈ votes) {d : Delegation} {val : ValidatorGovInfo}
    (hval : validators[d.validatorAddress]? = some val) {c : Attribution}
    (h : countShare T vote d (Dec.shareOf val.bondedTokens val.delegatorShares d.shares) = .ok c) :
    c.Accounted T validators votes ∧ c.backing ≤ {d} := by
  obtain ⟨results, hresults, hc⟩ := bind_eq_ok.mp h
  obtain rfl := Except.ok.inj hc
  refine ⟨⟨fun part hpart ↦ ?_, fun part hpart ↦ ?_, ?_⟩, (Multiset.map_singleton _ _).le⟩
  · obtain rfl := Multiset.mem_singleton.mp hpart
    exact ⟨val, hval, rfl⟩
  · obtain rfl := Multiset.mem_singleton.mp hpart
    exact ⟨vote, hvote, rfl⟩
  · refine (resultShare_eq_credit (mapError_eq_ok.mp hresults)).trans ?_
    rw [Attribution.dues, Attribution.ofPart, Multiset.map_singleton, Multiset.sum_singleton]

theorem accounted_delegationShare (hvote : vote ∈ votes) {d : Delegation} {c : Attribution}
    (h : delegationShare T validators vote d = .ok c) :
    c.Accounted T validators votes ∧ c.backing ≤ {d} := by
  unfold delegationShare at h
  split at h
  · obtain rfl := Except.ok.inj h
    exact ⟨Attribution.accounted_zero, Multiset.zero_le _⟩
  · rename_i val hval
    obtain ⟨power, hpower, hcount⟩ := bind_eq_ok.mp h
    unfold divide at hpower
    split_ifs at hpower
    obtain rfl := Except.ok.inj hpower
    exact accounted_countShare hvote hval hcount

theorem accounted_positionShare (hvote : vote ∈ votes) {pos : PositionState} {c : Attribution}
    (h : positionShare T validators vote pos = .ok c) :
    c.Accounted T validators votes ∧ c.backing ≤ pos.delegation.toList := by
  unfold positionShare at h
  split_ifs at h with hzero
  · obtain rfl := Except.ok.inj h
    exact ⟨Attribution.accounted_zero, Multiset.zero_le _⟩
  · obtain ⟨d, hd⟩ := delegation_of_power (Bool.not_eq_true _ ▸ hzero)
    rw [hd] at h ⊢
    unfold positionVotingPower at hzero h
    rw [hd] at hzero h
    dsimp only at hzero h
    cases hval : validators[d.validatorAddress]? with
    | none =>
      rw [hval] at hzero
      exact absurd rfl hzero
    | some val =>
      rw [hval] at hzero h
      dsimp only at hzero h
      split_ifs at hzero h with hshares
      · exact absurd rfl hzero
      · exact accounted_countShare hvote hval h

theorem backing_total_le {α : Type} {amount : α → Except Err Attribution} {g : α → List Delegation}
    {items : List α} (hitem : ∀ a ∈ items, ∀ c, amount a = .ok c → c.backing ≤ g a)
    {c : Attribution} (h : total amount items = .ok c) : c.backing ≤ items.flatMap g := by
  induction items generalizing c with
  | nil =>
    obtain rfl := Except.ok.inj h
    exact Multiset.zero_le _
  | cons a rest ih =>
    obtain ⟨d, hd, h⟩ := bind_eq_ok.mp h
    obtain ⟨d', hd', h⟩ := bind_eq_ok.mp h
    obtain rfl := pure_eq_ok.mp h
    obtain ⟨hfirst, hrest⟩ := List.forall_mem_cons.mp hitem
    rw [Attribution.backing_add, List.flatMap_cons, ← Multiset.coe_add]
    exact add_le_add (hfirst d hd) (ih hrest hd')

/-- What a vote counts is backed by the delegations and the positions of the voter. -/
theorem accounted_voteShare (hvote : vote ∈ votes) {c : Attribution}
    (h : voteShare T validators vote = .ok c) :
    c.Accounted T validators votes ∧ ∃ voter positions, T.stringToBytes vote.voter = .ok voter ∧
      T.getPositionStatesByOwner voter = .ok positions ∧
        c.backing ≤
          ((T.iterateDelegations voter).1 ++ positions.filterMap PositionState.delegation :
          List Delegation) := by
  obtain ⟨voter, hvoter, h⟩ := bind_eq_ok.mp h
  obtain ⟨valAddr, _, h⟩ := bind_eq_ok.mp h
  obtain ⟨delegated, hdelegated, h⟩ := bind_eq_ok.mp h
  obtain ⟨owned, howned, h⟩ := bind_eq_ok.mp h
  obtain rfl := Except.ok.inj h
  obtain ⟨d, hd, h⟩ := bind_eq_ok.mp hdelegated
  obtain ⟨_, _, h⟩ := bind_eq_ok.mp h
  obtain rfl := Except.ok.inj h
  obtain ⟨positions, hpositions, howned⟩ := bind_eq_ok.mp howned
  -- the vote of a validator by itself counts nothing
  have hnone : (Attribution.ofVote valAddr vote.options).Accounted T validators votes :=
    Attribution.accounted_of_parts_eq_zero rfl rfl
  have haccounted := total_induction Attribution.accounted_zero Attribution.Accounted.add
    (fun a _ c hc ↦ (accounted_delegationShare hvote hc).1) hd
  have haccounted' := total_induction Attribution.accounted_zero Attribution.Accounted.add
    (fun a _ c hc ↦ (accounted_positionShare hvote hc).1) howned
  refine ⟨hnone.add (haccounted.add haccounted'), voter, positions, hvoter,
    mapError_eq_ok.mp hpositions, ?_⟩
  have hbacking := backing_total_le (fun a _ c hc ↦ (accounted_delegationShare hvote hc).2) hd
  have hbacking' := backing_total_le (fun a _ c hc ↦ (accounted_positionShare hvote hc).2) howned
  have hempty : (Attribution.ofVote valAddr vote.options).backing = 0 := rfl
  rw [Attribution.backing_add, Attribution.backing_add, hempty, zero_add, ← Multiset.coe_add,
    ← List.flatMap_singleton' (T.iterateDelegations voter).1, List.filterMap_eq_flatMap_toList]
  exact add_le_add hbacking hbacking'

theorem accounted_total {t : Attribution} (ht : total (voteShare T validators) votes = .ok t) :
    t.Accounted T validators votes :=
  total_induction Attribution.accounted_zero Attribution.Accounted.add
    (fun _ hvote _ hc ↦ (accounted_voteShare hvote hc).1) ht

end Shares

/-! ### The tally of a world -/

section World

variable {σ : Type} {K : Keepers σ} {w : World σ}

/-- A delegation as staking hands it out. -/
def delegationRecord (K : Keepers σ) (entry : (AccAddress × ValAddress) × Dec) : Delegation :=
  ⟨K.accCodec.bytesToString entry.1.1, K.valCodec.bytesToString entry.1.2, entry.2⟩

def delegationRecords (K : Keepers σ) (w : World σ) (a : AccAddress) : List Delegation :=
  ((K.staking w.ext).delegations.toList.filter fun entry ↦ entry.1.1 == a).map (delegationRecord K)

/-- What the tally is handed in a world: the keepers of the chain, and the positions of the
module. -/
def Keepers.tallyKeepers (K : Keepers σ) (w : World σ)
    (legacyNewDecFromStr : String → Except Err Dec) :
    TallyKeepers where
  stringToBytes s := expect (K.accCodec.stringToBytes s) bech32Error
  bytesToString a := .ok (K.valCodec.bytesToString a)
  iterateDelegations a := (delegationRecords K w a, none)
  getPositionStatesByOwner owner := (exec (getPositionStatesByOwner K owner) w).1
  legacyNewDecFromStr := legacyNewDecFromStr

/-- The account of a position's delegator address. -/
def delegatorAt (K : Keepers σ) (w : World σ) (id : ℕ) : Option AccAddress :=
  (w.store.positions[id]?).bind fun p ↦ K.accCodec.stringToBytes p.delegatorAddress

/-- The accounts whose delegations the vote of an account is counted with. -/
def holders (K : Keepers σ) (w : World σ) (a : AccAddress) : List AccAddress :=
  a :: (w.store.getPositionsIdsByOwner a).filterMap (delegatorAt K w)

/-- The positions of a world: each is listed for its owner only, and no two have the same delegator
address. -/
structure TierPositions (K : Keepers σ) (w : World σ) : Prop where
  listed : ∀ (owner : AccAddress) (id : ℕ), w.store.positionsByOwner[(owner, id)]? = some () →
    ∃ p : Position, w.store.positions[id]? = some p ∧ K.accCodec.stringToBytes p.owner = some owner
  readable : Readable K w
  distinct : ∀ (id id' : ℕ) (a : AccAddress), delegatorAt K w id = some a →
    delegatorAt K w id' = some a → id = id'

/-- What staking makes sure of for the validators that the tally starts with: delegations have
shares, the shares of a validator are those of its delegations, and a validator without shares has
no tokens. -/
structure TallyStaking (K : Keepers σ) (w : World σ) (validators : Map String ValidatorGovInfo) :
    Prop where
  positive : ∀ entry ∈ (K.staking w.ext).delegations.toList, 0 < entry.2
  fresh : ∀ (v : String) (val : ValidatorGovInfo), validators[v]? = some val →
    val.delegatorDeductions = 0 ∧ val.vote = []
  tokens : ∀ (v : String) (val : ValidatorGovInfo), validators[v]? = some val →
    0 ≤ val.bondedTokens ∧ (val.delegatorShares = 0 → val.bondedTokens = 0)
  shares : ∀ (v : String) (val : ValidatorGovInfo), validators[v]? = some val →
    val.delegatorShares = (((K.staking w.ext).delegations.toList.filter fun entry ↦
      K.valCodec.bytesToString entry.1.2 == v).map Prod.snd).sum

/-- Votes as the governance module stores them, of accounts that are not the delegator of a
position: the voters are different accounts, the options are counted and the weights sum to one. -/
structure Ballots (K : Keepers σ) (w : World σ) (legacyNewDecFromStr : String → Except Err Dec)
    (votes : List Vote) : Prop where
  decodes : ∀ vote ∈ votes, ∃ a, K.accCodec.stringToBytes vote.voter = some a
  distinct : votes.Pairwise fun vote vote' ↦
    K.accCodec.stringToBytes vote.voter ≠ K.accCodec.stringToBytes vote'.voter
  notDelegator : ∀ vote ∈ votes, ∀ (id : ℕ) (a : AccAddress), delegatorAt K w id = some a →
    K.accCodec.stringToBytes vote.voter ≠ some a
  counted : ∀ vote ∈ votes, ∀ option ∈ vote.options, option.option.counted = true
  weighed : ∀ vote ∈ votes, ∃ weights, vote.options.mapM
    (fun option ↦ legacyNewDecFromStr option.weight) = .ok weights ∧ weights.sum = 1

theorem delegatorAt_eq_some {id : ℕ} {a : AccAddress} :
    delegatorAt K w id = some a ↔
      ∃ p, w.store.positions[id]? = some p ∧ K.accCodec.stringToBytes p.delegatorAddress = some a :=
  Option.bind_eq_some_iff

theorem tierPositions_of_sound (hw : K.Sound w) : TierPositions K w where
  listed owner id h := (hw.indexed.byOwner owner id).mp h
  readable := readable_of_sound hw
  distinct id id' a h h' := by
    obtain ⟨p, hp, ha⟩ := delegatorAt_eq_some.mp h
    obtain ⟨p', hp', ha'⟩ := delegatorAt_eq_some.mp h'
    exact hw.accounted.distinct id id' p p' a ⟨hp, ha⟩ ⟨hp', ha'⟩

theorem delegationsOf_map (a : AccAddress) :
    ((K.staking w.ext).delegationsOf a).map (fun entry ↦
      (⟨K.accCodec.bytesToString a, K.valCodec.bytesToString entry.1, entry.2⟩ : Delegation)) =
        delegationRecords K w a := by
  rw [delegationRecords, Staking.delegationsOf, List.map_map]
  refine List.map_congr_left fun entry hentry ↦ ?_
  rw [Function.comp_apply, ← beq_iff_eq.mp (List.mem_filter.mp hentry).2]
  rfl

theorem firstDelegation_eq (a : AccAddress) :
    firstDelegation K (K.staking w.ext) a = (delegationRecords K w a).head? := by
  rw [← delegationsOf_map, List.head?_map]
  rfl

/-- The delegations of positions are among those of their delegators. -/
theorem delegations_sublist (ids : List ℕ) :
    (((ids.filterMap fun id ↦ w.store.positions[id]?).map (loadedState K w)).filterMap
      PositionState.delegation).Sublist
        ((ids.filterMap (delegatorAt K w)).flatMap (delegationRecords K w)) := by
  induction ids with
  | nil => exact List.Sublist.refl _
  | cons id ids ih =>
    cases hp : w.store.positions[id]? with
    | none =>
      have hnone : delegatorAt K w id = none := by rw [delegatorAt, hp, Option.bind_none]
      rw [List.filterMap_cons_none hp, List.filterMap_cons_none hnone]
      exact ih
    | some p =>
      have hat : delegatorAt K w id = K.accCodec.stringToBytes p.delegatorAddress := by
        rw [delegatorAt, hp, Option.bind_some]
      have hstate : (loadedState K w p).delegation =
          (delegatorAt K w id).bind fun a ↦ (delegationRecords K w a).head? := by
        rw [hat, loadedState]
        exact Option.bind_congr fun a _ ↦ firstDelegation_eq a
      rw [List.filterMap_cons_some hp, List.map_cons]
      cases ha : delegatorAt K w id with
      | none =>
        rw [ha, Option.bind_none] at hstate
        rw [List.filterMap_cons_none ha, List.filterMap_cons_none hstate]
        exact ih
      | some a =>
        rw [ha, Option.bind_some] at hstate
        rw [List.filterMap_cons_some ha, List.flatMap_cons]
        cases hrecords : delegationRecords K w a with
        | nil =>
          rw [hrecords] at hstate
          rw [List.filterMap_cons_none hstate]
          exact ih
        | cons d rest =>
          rw [hrecords] at hstate
          rw [List.filterMap_cons_some hstate, List.cons_append]
          exact (ih.trans (List.sublist_append_right rest _)).cons_cons d

theorem nodup_holders (hpositions : TierPositions K w) {voters : List AccAddress}
    (hvoters : voters.Nodup) (hfree : ∀ a ∈ voters, ∀ id, delegatorAt K w id ≠ some a) :
    (voters.flatMap (holders K w)).Nodup := by
  have hdelegator : ∀ {owner b : AccAddress},
      b ∈ (w.store.getPositionsIdsByOwner owner).filterMap (delegatorAt K w) →
        ∃ id, w.store.positionsByOwner[(owner, id)]? = some () ∧ delegatorAt K w id = some b := by
    intro owner b hb
    obtain ⟨id, hid, hat⟩ := List.mem_filterMap.mp hb
    exact ⟨id, mem_group.mp hid, hat⟩
  refine List.nodup_flatMap.mpr ⟨fun a ha ↦ List.nodup_cons.mpr ⟨fun hmem ↦ ?_, ?_⟩, ?_⟩
  · obtain ⟨id, _, hat⟩ := hdelegator hmem
    exact hfree a ha id hat
  · exact List.Nodup.filterMap (fun id id' b hb hb' ↦ hpositions.distinct id id' b hb hb')
      (nodup_group _ _)
  · refine (List.Nodup.pairwise_of_forall_ne hvoters) fun a ha b hb hne c hc hc' ↦ ?_
    rcases List.mem_cons.mp hc with rfl | hc
    · rcases List.mem_cons.mp hc' with rfl | hc'
      · exact hne rfl
      · obtain ⟨id, _, hat⟩ := hdelegator hc'
        exact hfree c ha id hat
    · obtain ⟨id, hid, hat⟩ := hdelegator hc
      rcases List.mem_cons.mp hc' with rfl | hc'
      · exact hfree c hb id hat
      · obtain ⟨id', hid', hat'⟩ := hdelegator hc'
        obtain rfl := hpositions.distinct id id' c hat hat'
        obtain ⟨p, hp, howner⟩ := hpositions.listed a id hid
        obtain ⟨p', hp', howner'⟩ := hpositions.listed b id hid'
        obtain rfl := Option.mem_unique hp hp'
        exact hne (Option.mem_unique howner howner')

/-- The delegations of different accounts are part of all delegations. -/
theorem flatMap_delegationRecords_le {accounts : List AccAddress} (h : accounts.Nodup) :
    (accounts.flatMap (delegationRecords K w) : Multiset Delegation) ≤
      ((K.staking w.ext).delegations.toList.map (delegationRecord K) : List Delegation) := by
  have hinjective : Function.Injective fun key : AccAddress × ValAddress ↦
      (K.accCodec.bytesToString key.1, K.valCodec.bytesToString key.2) := by
    intro key key' heq
    exact Prod.ext (K.accCodec.bytesToString_injective (congrArg Prod.fst heq))
      (K.valCodec.bytesToString_injective (congrArg Prod.snd heq))
  rw [Multiset.le_iff_subset]
  · intro d hd
    obtain ⟨a, _, hd⟩ := List.mem_flatMap.mp hd
    obtain ⟨entry, hentry, rfl⟩ := List.mem_map.mp hd
    exact List.mem_map_of_mem (List.mem_filter.mp hentry).1
  · refine List.nodup_flatMap.mpr ⟨fun a _ ↦ ?_, h.imp fun hne d hd hd' ↦ ?_⟩
    · refine List.Nodup.map_on ?_ ((nodup_toList _).filter _)
      intro entry hentry entry' hentry' heq
      have hkey : entry.1 = entry'.1 :=
        hinjective (Prod.ext (congrArg Delegation.delegatorAddress heq)
        (congrArg Delegation.validatorAddress heq))
      exact Prod.ext hkey (congrArg Delegation.shares heq)
    · obtain ⟨entry, hentry, rfl⟩ := List.mem_map.mp hd
      obtain ⟨entry', hentry', heq⟩ := List.mem_map.mp hd'
      refine hne ?_
      have ha := beq_iff_eq.mp (List.mem_filter.mp hentry).2
      have hb := beq_iff_eq.mp (List.mem_filter.mp hentry').2
      rw [← ha, ← hb]
      exact (K.accCodec.bytesToString_injective (congrArg Delegation.delegatorAddress heq)).symm

/-! ### The tally returns -/

variable {legacyNewDecFromStr : String → Except Err Dec} {validators : Map String ValidatorGovInfo}
  {votes : List Vote} {vote : Vote}

theorem getPositionStatesByOwner_eq (hread : Readable K w) (owner : AccAddress) :
    (K.tallyKeepers w legacyNewDecFromStr).getPositionStatesByOwner owner =
      .ok (((w.store.getPositionsIdsByOwner owner).filterMap fun id ↦ w.store.positions[id]?).map
        (loadedState K w)) :=
  congrArg Prod.fst (succeeds_read.mpr (loadPositionStates_eq hread _))

theorem eq_map_value_of_mapM {α β ε : Type} [AddMonoid β] {f : α → Except ε β} {items : List α}
    {results : List β} (h : items.mapM f = .ok results) :
    (∀ a ∈ items, ∃ b, f a = .ok b) ∧ results = items.map fun a ↦ value (f a) := by
  induction items generalizing results with
  | nil => exact ⟨fun a ha ↦ absurd ha List.not_mem_nil, (Except.ok.inj h).symm⟩
  | cons a rest ih =>
    rw [List.mapM_cons] at h
    obtain ⟨b, hb, h⟩ := bind_eq_ok.mp h
    obtain ⟨bs, hbs, h⟩ := bind_eq_ok.mp h
    obtain rfl := pure_eq_ok.mp h
    obtain ⟨hall, rfl⟩ := ih hbs
    refine ⟨List.forall_mem_cons.mpr ⟨⟨b, hb⟩, hall⟩, ?_⟩
    rw [List.map_cons, hb, value_ok]

theorem Ballots.resultShare_ok (h : Ballots K w legacyNewDecFromStr votes) (hvote : vote ∈ votes)
    (power : Dec) :
    ∃ results, resultShare (K.tallyKeepers w legacyNewDecFromStr) vote.options power =
      .ok results := by
  refine ⟨_, total_eq_ok.mpr ⟨fun option hoption ↦ ?_, rfl⟩⟩
  obtain ⟨weights, hweights, _⟩ := h.weighed vote hvote
  obtain ⟨weight, hweight⟩ := (eq_map_value_of_mapM hweights).1 option hoption
  have hadd : addResult 0 option.option (power.mul weight) = .ok _ :=
    if_pos (h.counted vote hvote option hoption)
  exact ⟨_, bind_eq_ok.mpr ⟨weight, mapError_eq_ok.mpr hweight, hadd⟩⟩

/-- The options of such a vote are together due the power it is counted with. -/
theorem Ballots.abs_resultPower_sub_le (h : Ballots K w legacyNewDecFromStr votes)
    (hvote : vote ∈ votes) (power : Dec) :
    |resultPower (credit (K.tallyKeepers w legacyNewDecFromStr) vote.options power) - power| ≤
      ⟨vote.options.length⟩ := by
  obtain ⟨weights, hweights, hsum⟩ := h.weighed vote hvote
  have heq : vote.options.map (weightOf (K.tallyKeepers w legacyNewDecFromStr)) = weights :=
    (eq_map_value_of_mapM hweights).2.symm
  rw [resultPower_credit (h.counted vote hvote), heq,
    ← List.length_map (weightOf (K.tallyKeepers w legacyNewDecFromStr)), heq]
  exact Dec.abs_sum_map_mul_sub_le hsum

theorem Ballots.countShare_ok (h : Ballots K w legacyNewDecFromStr votes) (hvote : vote ∈ votes)
    (d : Delegation) (power : Dec) :
    ∃ c, countShare (K.tallyKeepers w legacyNewDecFromStr) vote d power = .ok c := by
  obtain ⟨results, hresults⟩ := h.resultShare_ok hvote power
  exact ⟨_, bind_eq_ok.mpr ⟨results, mapError_eq_ok.mpr hresults, rfl⟩⟩

theorem Ballots.options_ne_nil (h : Ballots K w legacyNewDecFromStr votes) (hvote : vote ∈ votes) :
    vote.options ≠ [] := by
  intro hnil
  obtain ⟨weights, hweights, hsum⟩ := h.weighed vote hvote
  rw [hnil] at hweights
  obtain rfl := Except.ok.inj hweights
  exact absurd hsum (by decide)

theorem TallyStaking.shares_eq (h : TallyStaking K w validators) {v : String}
    {val : ValidatorGovInfo} (hval : validators[v]? = some val) :
    val.delegatorShares =
      ((Multiset.filter (fun d : Delegation ↦ d.validatorAddress = v)
        ((K.staking w.ext).delegations.toList.map (delegationRecord K) : List Delegation)).map
          Delegation.shares).sum := by
  rw [h.shares v val hval, Multiset.filter_coe, List.filter_map, Multiset.map_coe, List.map_map,
    Multiset.sum_coe]
  refine congrArg List.sum (congrArg₂ List.map rfl (List.filter_congr fun entry _ ↦ ?_))
  rw [Function.comp_apply, beq_eq_decide]
  rfl

theorem TallyStaking.shares_pos (h : TallyStaking K w validators) {v : String}
    {val : ValidatorGovInfo} (hval : validators[v]? = some val) {a : AccAddress} {d : Delegation}
    (hd : d ∈ delegationRecords K w a) (hv : d.validatorAddress = v) : 0 < val.delegatorShares := by
  obtain ⟨entry, hentry, rfl⟩ := List.mem_map.mp hd
  have hmem : entry ∈ (K.staking w.ext).delegations.toList := (List.mem_filter.mp hentry).1
  have hlisted : entry.2 ∈ (((K.staking w.ext).delegations.toList.filter fun entry ↦
      K.valCodec.bytesToString entry.1.2 == v).map Prod.snd) :=
    List.mem_map_of_mem (List.mem_filter.mpr ⟨hmem, beq_iff_eq.mpr hv⟩)
  rw [h.shares v val hval]
  refine lt_of_lt_of_le (h.positive entry hmem) (List.single_le_sum (fun s hs ↦ ?_) _ hlisted)
  obtain ⟨other, hother, rfl⟩ := List.mem_map.mp hs
  exact (h.positive other (List.mem_filter.mp hother).1).le

theorem voteShare_ok (hstaking : TallyStaking K w validators) (hpositions : TierPositions K w)
    (hballots : Ballots K w legacyNewDecFromStr votes) (hvote : vote ∈ votes) :
    ∃ c, voteShare (K.tallyKeepers w legacyNewDecFromStr) validators vote = .ok c := by
  obtain ⟨voter, hvoter⟩ := hballots.decodes vote hvote
  have hdelegated : ∀ d ∈ delegationRecords K w voter, ∃ c,
      delegationShare (K.tallyKeepers w legacyNewDecFromStr) validators vote d = .ok c := by
    intro d hd
    unfold delegationShare
    split
    · exact ⟨0, rfl⟩
    · rename_i val hval
      have hpos := hstaking.shares_pos hval hd rfl
      have hshares : val.delegatorShares.isZero = false := by
        rw [Dec.isZero, beq_eq_false_iff_ne]
        exact (Dec.lt_iff.mp hpos).ne'
      rw [divide, hshares]
      exact hballots.countShare_ok hvote d _
  have howned : ∀ pos : PositionState, ∃ c,
      positionShare (K.tallyKeepers w legacyNewDecFromStr) validators vote pos = .ok c := by
    intro pos
    unfold positionShare
    split_ifs with hzero
    · exact ⟨0, rfl⟩
    · obtain ⟨d, hd⟩ := delegation_of_power (Bool.not_eq_true _ ▸ hzero)
      rw [hd]
      exact hballots.countShare_ok hvote d _
  have hlisted : ∃ c, delegatedShare (K.tallyKeepers w legacyNewDecFromStr) validators vote voter =
      .ok c :=
    ⟨_, bind_eq_ok.mpr ⟨_, total_eq_ok.mpr ⟨hdelegated, rfl⟩, rfl⟩⟩
  have hloaded : ∃ c, ownedShare (K.tallyKeepers w legacyNewDecFromStr) validators vote voter =
      .ok c :=
    ⟨_,
      bind_eq_ok.mpr ⟨_, mapError_eq_ok.mpr (getPositionStatesByOwner_eq hpositions.readable voter),
      total_eq_ok.mpr ⟨fun pos _ ↦ howned pos, rfl⟩⟩⟩
  obtain ⟨delegated, hdelegated⟩ := hlisted
  obtain ⟨owned, howned⟩ := hloaded
  exact ⟨_, bind_eq_ok.mpr ⟨voter, expect_eq_ok.mpr hvoter, bind_eq_ok.mpr ⟨_, rfl,
    bind_eq_ok.mpr ⟨delegated, hdelegated, bind_eq_ok.mpr ⟨owned, howned, rfl⟩⟩⟩⟩⟩

/-! ### The bounds -/

def voterOf (K : Keepers σ) (vote : Vote) : AccAddress :=
  (K.accCodec.stringToBytes vote.voter).getD 0

theorem Ballots.nodup_voters (h : Ballots K w legacyNewDecFromStr votes) :
    (votes.map (voterOf K)).Nodup := by
  refine List.pairwise_map.mpr
    (h.distinct.imp_of_mem fun {vote vote'} hvote hvote' hne heq ↦ hne ?_)
  obtain ⟨a, ha⟩ := h.decodes vote hvote
  obtain ⟨b, hb⟩ := h.decodes vote' hvote'
  rw [voterOf, voterOf, ha, hb, Option.getD_some, Option.getD_some] at heq
  rw [ha, hb, heq]

/-- The delegations that the votes count are part of all delegations. -/
theorem backing_attribution_le (hpositions : TierPositions K w)
    (hballots : Ballots K w legacyNewDecFromStr votes) {t : Attribution}
    (ht : total (voteShare (K.tallyKeepers w legacyNewDecFromStr) validators) votes = .ok t) :
    t.backing ≤
      ((K.staking w.ext).delegations.toList.map (delegationRecord K) : List Delegation) := by
  have hvote : ∀ vote ∈ votes, ∀ c,
      voteShare (K.tallyKeepers w legacyNewDecFromStr) validators vote = .ok c →
        c.backing ≤
          ((holders K w (voterOf K vote)).flatMap (delegationRecords K w) : List Delegation) := by
    intro vote hmem c hc
    obtain ⟨_, voter, positions, hvoter, hloaded, hbacking⟩ := accounted_voteShare hmem hc
    obtain rfl := Except.ok.inj
      ((getPositionStatesByOwner_eq hpositions.readable voter).symm.trans hloaded)
    have hvoterOf : voterOf K vote = voter := by
      rw [voterOf, expect_eq_ok.mp hvoter, Option.getD_some]
    rw [hvoterOf, holders, List.flatMap_cons]
    refine hbacking.trans ?_
    rw [← Multiset.coe_add, ← Multiset.coe_add]
    exact add_le_add_right (delegations_sublist _).subperm _
  refine (backing_total_le hvote ht).trans ?_
  have hflat :
      votes.flatMap (fun vote ↦ (holders K w (voterOf K vote)).flatMap (delegationRecords K w)) =
      ((votes.map (voterOf K)).flatMap (holders K w)).flatMap (delegationRecords K w) := by
    rw [List.flatMap_map, List.flatMap_assoc]
  rw [hflat]
  refine flatMap_delegationRecords_le
    (nodup_holders hpositions hballots.nodup_voters fun a ha id hat ↦ ?_)
  obtain ⟨vote, hmem, rfl⟩ := List.mem_map.mp ha
  obtain ⟨b, hb⟩ := hballots.decodes vote hmem
  refine hballots.notDelegator vote hmem id _ hat ?_
  rw [voterOf, hb, Option.getD_some]

/-- The shares that are deducted from a validator, one for each delegation, are parts of its
shares. -/
theorem sharesOn_bounds (hstaking : TallyStaking K w validators) (hpositions : TierPositions K w)
    (hballots : Ballots K w legacyNewDecFromStr votes) {t : Attribution}
    (ht : total (voteShare (K.tallyKeepers w legacyNewDecFromStr) validators) votes = .ok t)
    {v : String} {val : ValidatorGovInfo} (hval : validators[v]? = some val) :
    (∀ s ∈ t.sharesOn v, 0 ≤ s) ∧ t.deductions v ≤ val.delegatorShares := by
  have hle := Multiset.map_le_map (f := Delegation.shares) (Multiset.filter_le_filter
    (fun d : Delegation ↦ d.validatorAddress = v) (backing_attribution_le hpositions hballots ht))
  rw [← Attribution.sharesOn_eq] at hle
  obtain ⟨rest, hrest⟩ := Multiset.le_iff_exists_add.mp hle
  have hnonneg : ∀ s ∈ t.sharesOn v + rest, 0 ≤ s := by
    intro s hs
    rw [← hrest] at hs
    obtain ⟨d, hd, rfl⟩ := Multiset.mem_map.mp hs
    obtain ⟨entry, hentry, rfl⟩ := List.mem_map.mp (Multiset.mem_filter.mp hd).1
    exact (hstaking.positive entry hentry).le
  refine ⟨fun s hs ↦ hnonneg s (Multiset.mem_add.mpr (Or.inl hs)), ?_⟩
  rw [hstaking.shares_eq hval, hrest, Multiset.sum_add]
  exact le_add_of_nonneg_right
    (Multiset.sum_nonneg fun s hs ↦ hnonneg s (Multiset.mem_add.mpr (Or.inr hs)))

/-- The power that the second pass gives to a validator's vote. -/
def secondPassPower (val : ValidatorGovInfo) : Dec :=
  if val.vote.isEmpty || val.delegatorShares.isZero then 0 else residualPower val

/-- The power counted for the stake of a validator: in the first pass that of the delegations to it,
in the second that of the rest of its shares. -/
def attributedPower (t : Attribution) (v : String) (val : ValidatorGovInfo) : Dec :=
  ((t.on v).map Part.power).sum + secondPassPower (t.info v val)

/-- The delegations to a validator that were counted by themselves, in units of the last digit. -/
def attributedUnits (t : Attribution) (v : String) : Dec := ⟨(t.on v).card⟩

/-- What the stake of a validator adds to the results: to the options of the votes it is counted
with, and to those of the validator's own vote. -/
def attributedResults (T : TallyKeepers) (t : Attribution) (v : String) (val : ValidatorGovInfo) :
    TallyResults :=
  Attribution.dues T (t.on v) + credit T (t.info v val).vote (secondPassPower (t.info v val))

/-- The options that the stake of a validator is credited to, in units of the last digit. -/
def creditedUnits (t : Attribution) (v : String) (val : ValidatorGovInfo) : Dec :=
  ((t.on v).map fun part ↦ (⟨part.options.length⟩ : Dec)).sum + ⟨(t.info v val).vote.length⟩

theorem residualShare_eq {T : TallyKeepers} {entry : String × ValidatorGovInfo}
    {c : Dec × TallyResults} (h : residualShare T entry = .ok c) :
    c = (secondPassPower entry.2, credit T entry.2.vote (secondPassPower entry.2)) := by
  unfold residualShare at h
  unfold secondPassPower
  split_ifs at h with hvote hshares
  · obtain rfl := Except.ok.inj h
    rw [hvote, Bool.true_or, if_pos rfl, credit_zero]
    rfl
  · obtain rfl := Except.ok.inj h
    rw [hshares, Bool.or_true, if_pos rfl, credit_zero]
    rfl
  · obtain ⟨results, hresults, h⟩ := bind_eq_ok.mp h
    obtain rfl := Except.ok.inj h
    have hcounted : ¬(entry.2.vote.isEmpty || entry.2.delegatorShares.isZero) = true := by
      simp [hvote, hshares]
    rw [if_neg hcounted, resultShare_eq_credit (mapError_eq_ok.mp hresults)]

theorem vote_info (hstaking : TallyStaking K w validators) {t : Attribution}
    (ht : total (voteShare (K.tallyKeepers w legacyNewDecFromStr) validators) votes = .ok t)
    {v : String} {val : ValidatorGovInfo} (hval : validators[v]? = some val) :
    (t.info v val).vote = [] ∨ ∃ vote ∈ votes, (t.info v val).vote = vote.options := by
  have hinfo : (t.tallied validators).validators[v]? = some (t.info v val) := by
    rw [Attribution.getElem?_tallied, hval, Option.map_some]
  rcases vote_after_walk ht hinfo with hvote | ⟨val₀, hval₀, heq⟩
  · exact Or.inr hvote
  · exact Or.inl (heq.trans (hstaking.fresh v val₀ hval₀).2)

theorem sum_map_prodMk {α M N : Type} [AddMonoid M] [AddMonoid N] (f : α → M) (g : α → N)
    (items : List α) :
    (items.map fun a ↦ (f a, g a)).sum = ((items.map f).sum, (items.map g).sum) := by
  induction items with
  | nil => rfl
  | cons a rest ih => simp [ih]

/-- The second pass returns, and adds the power of the rest of every validator's shares. -/
theorem secondPass_ok (hstaking : TallyStaking K w validators)
    (hballots : Ballots K w legacyNewDecFromStr votes) {t : Attribution}
    (ht : total (voteShare (K.tallyKeepers w legacyNewDecFromStr) validators) votes = .ok t)
    {entries : List (String × ValidatorGovInfo)}
    (hentries : entries.Perm (t.tallied validators).validators.toList) :
    total (residualShare (K.tallyKeepers w legacyNewDecFromStr)) entries =
      .ok (validators.toList.map fun entry ↦ (secondPassPower (t.info entry.1 entry.2),
        credit (K.tallyKeepers w legacyNewDecFromStr) (t.info entry.1 entry.2).vote
          (secondPassPower (t.info entry.1 entry.2)))).sum := by
  have htoList : (t.tallied validators).validators.toList =
      validators.toList.map fun entry ↦ (entry.1, t.info entry.1 entry.2) :=
    Std.ExtTreeMap.toList_map
  have hok : ∀ entry ∈ entries, ∃ c,
      residualShare (K.tallyKeepers w legacyNewDecFromStr) entry = .ok c := by
    intro entry hentry
    have hmem := hentries.mem_iff.mp hentry
    rw [htoList] at hmem
    obtain ⟨⟨v, val⟩, hval, rfl⟩ := List.mem_map.mp hmem
    unfold residualShare
    split_ifs with hempty
    · exact ⟨_, rfl⟩
    · exact ⟨_, rfl⟩
    · rcases vote_info hstaking ht (mem_toList.mp hval) with hnone | ⟨vote, hvote, heq⟩
      · exact absurd (List.isEmpty_iff.mpr hnone) hempty
      · obtain ⟨results, hresults⟩ := hballots.resultShare_ok hvote (residualPower (t.info v val))
        exact ⟨_, bind_eq_ok.mpr ⟨results, mapError_eq_ok.mpr (heq ▸ hresults), rfl⟩⟩
  refine total_eq_ok.mpr ⟨hok, ?_⟩
  have hvalues : (entries.map fun entry ↦
      value (residualShare (K.tallyKeepers w legacyNewDecFromStr) entry)) =
        entries.map fun entry ↦ (secondPassPower entry.2,
          credit (K.tallyKeepers w legacyNewDecFromStr) entry.2.vote
            (secondPassPower entry.2)) := by
    refine List.map_congr_left fun entry hentry ↦ ?_
    obtain ⟨c, hc⟩ := hok entry hentry
    rw [hc, value_ok]
    exact residualShare_eq hc
  rw [hvalues, (hentries.map _).sum_eq, htoList, List.map_map]
  rfl

/-- The four results hold the power that is counted for the stake of a validator. -/
theorem attributedResults_bounds (hstaking : TallyStaking K w validators)
    (hballots : Ballots K w legacyNewDecFromStr votes) {t : Attribution}
    (ht : total (voteShare (K.tallyKeepers w legacyNewDecFromStr) validators) votes = .ok t)
    {v : String} {val : ValidatorGovInfo} (hval : validators[v]? = some val) :
    |resultPower (attributedResults (K.tallyKeepers w legacyNewDecFromStr) t v val) -
      attributedPower t v val| ≤ creditedUnits t v val := by
  have hfirst : |((t.on v).map fun part ↦
      resultPower (credit (K.tallyKeepers w legacyNewDecFromStr) part.options part.power) -
        part.power).sum| ≤ ((t.on v).map fun part ↦ (⟨part.options.length⟩ : Dec)).sum := by
    refine Multiset.abs_sum_le_sum_abs.trans ?_
    rw [Multiset.map_map]
    refine Multiset.sum_map_le_sum_map _ _ fun part hpart ↦ ?_
    obtain ⟨vote, hvote, hoptions⟩ :=
      (accounted_total ht).cast part (Multiset.mem_of_mem_filter hpart)
    rw [Function.comp_apply, hoptions]
    exact hballots.abs_resultPower_sub_le hvote part.power
  have hsecond : |resultPower (credit (K.tallyKeepers w legacyNewDecFromStr) (t.info v val).vote
      (secondPassPower (t.info v val))) - secondPassPower (t.info v val)| ≤
        ⟨(t.info v val).vote.length⟩ := by
    rcases vote_info hstaking ht hval with hnone | ⟨vote, hvote, heq⟩
    · have hzero : secondPassPower (t.info v val) = 0 := by
        rw [secondPassPower, hnone, List.isEmpty_nil, Bool.true_or, if_pos rfl]
      rw [hzero, credit_zero, map_zero, sub_zero, abs_zero, hnone]
      exact le_refl _
    · rw [heq]
      exact hballots.abs_resultPower_sub_le hvote _
  rw [attributedResults, attributedPower, creditedUnits, map_add, Attribution.dues,
    map_multiset_sum, Multiset.map_map, add_sub_add_comm, ← Multiset.sum_map_sub]
  exact (abs_add_le _ _).trans (add_le_add hfirst hsecond)

theorem sharesAfterDeductions_info (hstaking : TallyStaking K w validators) {t : Attribution}
    {v : String} {val : ValidatorGovInfo} (hval : validators[v]? = some val)
    (hdeductions : t.deductions v ≤ val.delegatorShares) :
    (t.info v val).delegatorDeductions = t.deductions v ∧
      sharesAfterDeductions (t.info v val) = val.delegatorShares - t.deductions v := by
  have hinfo : (t.info v val).delegatorDeductions = t.deductions v := by
    rw [Attribution.info, (hstaking.fresh v val hval).1, zero_add]
  have hnot : (val.delegatorShares - t.deductions v).isNegative = false :=
    decide_eq_false (not_lt.mpr (sub_nonneg.mpr hdeductions))
  refine ⟨hinfo, ?_⟩
  rw [sharesAfterDeductions, hinfo]
  change (if (val.delegatorShares - t.deductions v).isNegative then 0
    else val.delegatorShares - t.deductions v) = _
  rw [hnot, if_neg Bool.false_ne_true]

theorem attributedPower_bounds (hstaking : TallyStaking K w validators)
    (hpositions : TierPositions K w) (hballots : Ballots K w legacyNewDecFromStr votes)
    {t : Attribution}
    (ht : total (voteShare (K.tallyKeepers w legacyNewDecFromStr) validators) votes = .ok t)
    {v : String} {val : ValidatorGovInfo} (hval : validators[v]? = some val) :
    attributedPower t v val ≤ Dec.ofInt val.bondedTokens + attributedUnits t v ∧
      ((t.info v val).vote ≠ [] →
        Dec.ofInt val.bondedTokens ≤ attributedPower t v val + attributedUnits t v) := by
  obtain ⟨hnonneg, hdeductions⟩ := sharesOn_bounds hstaking hpositions hballots ht hval
  obtain ⟨htokens, hempty⟩ := hstaking.tokens v val hval
  have hcard : attributedUnits t v = ⟨(t.sharesOn v).card⟩ := by
    rw [attributedUnits, Attribution.sharesOn, Multiset.card_map]
  have hsum : (t.sharesOn v).sum = t.deductions v := rfl
  have hunits : (0 : Dec) ≤ ⟨(t.sharesOn v).card⟩ := Int.natCast_nonneg _
  have hrest : 0 ≤ val.delegatorShares - t.deductions v := sub_nonneg.mpr hdeductions
  have hsecond : secondPassPower (t.info v val) =
      if (t.info v val).vote.isEmpty || val.delegatorShares.isZero then 0
      else Dec.shareOf val.bondedTokens val.delegatorShares
      (val.delegatorShares - t.deductions v) := by
    rw [secondPassPower, residualPower, (sharesAfterDeductions_info hstaking hval hdeductions).2]
    rfl
  rw [attributedPower, (accounted_total ht).map_power_on hval, hcard, hsecond]
  rcases (hdeductions.trans' (hsum ▸ Multiset.sum_nonneg hnonneg)).eq_or_lt with hzero | hpos
  · -- A validator without shares has no tokens, and nothing is counted for it.
    have hnone : ∀ s, Dec.shareOf val.bondedTokens val.delegatorShares s = 0 := by
      intro s
      rw [← hzero, hempty hzero.symm, Dec.shareOf, Dec.quo, Dec.units_zero, Int.tdiv_zero]
      rfl
    have hpowers : ((t.sharesOn v).map (Dec.shareOf val.bondedTokens val.delegatorShares)).sum =
        0 := by
      rw [Multiset.map_congr rfl fun s _ ↦ hnone s, Multiset.map_const',
        Multiset.sum_replicate, smul_zero]
    have hofInt : Dec.ofInt val.bondedTokens = 0 := by
      rw [hempty hzero.symm]
      rfl
    rw [hpowers, hnone, ite_self, hofInt, add_zero, zero_add]
    exact ⟨hunits, fun _ ↦ hunits⟩
  · have hisZero : val.delegatorShares.isZero = false := by
      rw [Dec.isZero, beq_eq_false_iff_ne]
      exact (Dec.lt_iff.mp hpos).ne'
    have hwhole : (t.sharesOn v).sum + (val.delegatorShares - t.deductions v) =
        val.delegatorShares := by
      rw [hsum, add_sub_cancel]
    obtain ⟨hupper, hlower⟩ := Dec.sum_shareOf_add_rest hpos htokens hnonneg hrest hwhole
    have hfirst := Dec.sum_shareOf_le hpos htokens hnonneg (hsum ▸ hdeductions)
    rw [hisZero, Bool.or_false]
    constructor
    · split_ifs
      · rw [add_zero]
        exact hfirst
      · exact hupper
    · intro hvoted
      rw [if_neg (fun h ↦ hvoted (List.isEmpty_iff.mp h))]
      exact hlower

def attribution (T : TallyKeepers) (validators : Map String ValidatorGovInfo) (votes : List Vote) :
    Attribution :=
  (votes.map fun vote ↦ value (voteShare T validators vote)).sum

variable {range : List (String × ValidatorGovInfo) → List (String × ValidatorGovInfo)}
  {proposalId : ℕ}
  {entries : List (VoteKey × Vote)}

/-- The tally returns. It counts no delegation twice, the shares it deducts are never more than a
validator has, and what it counts for the stake of a validator is its bonded tokens if it voted, and
at most those if it did not, up to a unit for each delegation that was counted by itself. The
results are what the options are due of this power, and the four of them hold it up to a unit for
each option that it is credited to. -/
theorem stake_counted_once (hrange : ∀ entries, (range entries).Perm entries)
    (hstaking : TallyStaking K w validators) (hpositions : TierPositions K w)
    (hvotes : (votesOf proposalId entries).map Prod.snd = votes)
    (hballots : Ballots K w legacyNewDecFromStr votes) :
    ∃ (s : TallyState) (total : Dec) (results : TallyResults),
      votes.foldlM (tallyVote (K.tallyKeepers w legacyNewDecFromStr)) ⟨0, 0, validators⟩ = .ok s ∧
      customTallyTierVotes (K.tallyKeepers w legacyNewDecFromStr) range proposalId entries
        validators = .ok ((total, results), entries.filter fun entry ↦ entry.1.1 != proposalId) ∧
      (attribution (K.tallyKeepers w legacyNewDecFromStr) validators votes).backing ≤
        ((K.staking w.ext).delegations.toList.map (delegationRecord K) : List Delegation) ∧
      total = (validators.toList.map fun entry ↦ attributedPower
        (attribution (K.tallyKeepers w legacyNewDecFromStr) validators votes) entry.1 entry.2).sum ∧
      results = (validators.toList.map fun entry ↦
        attributedResults (K.tallyKeepers w legacyNewDecFromStr)
          (attribution (K.tallyKeepers w legacyNewDecFromStr) validators votes)
            entry.1 entry.2).sum ∧
      ∀ (v : String) (val : ValidatorGovInfo), validators[v]? = some val →
        (∃ val', s.validators[v]? = some val' ∧ val'.delegatorShares = val.delegatorShares ∧
          val'.delegatorDeductions ≤ val'.delegatorShares ∧
          sharesAfterDeductions val' = val'.delegatorShares - val'.delegatorDeductions) ∧
        attributedPower (attribution (K.tallyKeepers w legacyNewDecFromStr) validators votes)
          v val ≤ Dec.ofInt val.bondedTokens +
            attributedUnits
            (attribution (K.tallyKeepers w legacyNewDecFromStr) validators votes) v ∧
        ((∃ vote ∈ votes, K.valCodec.bytesToString (voterOf K vote) = v) →
          Dec.ofInt val.bondedTokens ≤
            attributedPower
              (attribution (K.tallyKeepers w legacyNewDecFromStr) validators votes) v val +
              attributedUnits
                (attribution (K.tallyKeepers w legacyNewDecFromStr) validators votes) v) ∧
        |resultPower (attributedResults (K.tallyKeepers w legacyNewDecFromStr)
            (attribution (K.tallyKeepers w legacyNewDecFromStr) validators votes) v val) -
          attributedPower
            (attribution (K.tallyKeepers w legacyNewDecFromStr) validators votes) v val| ≤
          creditedUnits
            (attribution (K.tallyKeepers w legacyNewDecFromStr) validators votes) v val := by
  have ht : total (voteShare (K.tallyKeepers w legacyNewDecFromStr) validators) votes =
      .ok (attribution (K.tallyKeepers w legacyNewDecFromStr) validators votes) :=
    total_eq_ok.mpr ⟨fun vote hvote ↦ voteShare_ok hstaking hpositions hballots hvote, rfl⟩
  generalize attribution (K.tallyKeepers w legacyNewDecFromStr) validators votes = t at ht ⊢
  have hsecond := secondPass_ok hstaking hballots ht (hrange _)
  have haccounted := accounted_total ht
  have hwalk : votes.foldlM (tallyVote (K.tallyKeepers w legacyNewDecFromStr)) ⟨0, 0, validators⟩ =
      .ok (t.tallied validators) := by
    rw [← Attribution.tallied_zero]
    refine (Accumulates.foldlM (fun vote _ ↦ tallyVote_accumulates vote) 0).trans ?_
    rw [ht]
    simp only [Except.map, zero_add]
  -- both passes of the tally, as one sum over the validators
  have hboth : ∀ {M : Type} [AddCommMonoid M] (f : Part → M) (g : String × ValidatorGovInfo → M),
      (t.parts.map f).sum + (validators.toList.map g).sum =
        (validators.toList.map fun entry ↦ ((t.on entry.1).map f).sum + g entry).sum := by
    intro M _ f g
    rw [haccounted.sum_parts f, ← Std.ExtTreeMap.map_fst_toList_eq_keys, List.map_map,
      List.sum_map_add]
    rfl
  refine ⟨t.tallied validators, _, _, hwalk, ?_, backing_attribution_le hpositions hballots ht,
    hboth Part.power _, hboth (fun part ↦ credit _ part.options part.power) _, fun v val hval ↦ ?_⟩
  · rw [customTallyTierVotes_eq, hvotes, ht]
    refine bind_eq_ok.mpr ⟨t, rfl, bind_eq_ok.mpr ⟨_, hsecond, ?_⟩⟩
    rw [haccounted.credited, sum_map_prodMk]
    rfl
  · obtain ⟨hupper, hlower⟩ := attributedPower_bounds hstaking hpositions hballots ht hval
    obtain ⟨_, hdeductions⟩ := sharesOn_bounds hstaking hpositions hballots ht hval
    obtain ⟨hinfo, hafter⟩ := sharesAfterDeductions_info hstaking hval hdeductions
    refine ⟨⟨t.info v val, ?_, rfl, hinfo ▸ hdeductions, hinfo ▸ hafter⟩, hupper, ?_,
      attributedResults_bounds hstaking hballots ht hval⟩
    · rw [Attribution.getElem?_tallied, hval, Option.map_some]
    · rintro ⟨vote, hvote, hoperator⟩
      refine hlower ?_
      rcases votes_total ht v with ⟨_, hother⟩ | ⟨vote', hvote', hsome⟩
      · obtain ⟨a, ha⟩ := hballots.decodes vote hvote
        rw [voterOf, ha, Option.getD_some] at hoperator
        exact absurd (congrArg Except.ok hoperator) (hother vote hvote a (expect_eq_ok.mpr ha))
      · rw [Attribution.info, hsome, Option.getD_some]
        exact hballots.options_ne_nil hvote'

end World

/-! ### A tally of the reference history -/

namespace Reference

/-- The validator of the position, with the stake of the position only. -/
def tallyValidators : Map String ValidatorGovInfo :=
  (∅ : Map String ValidatorGovInfo).insert (codec.bytesToString 1)
    ⟨1, 1000000, Dec.ofInt 1000000, 0, []⟩

/-- The owner of the position and the operator of its validator vote. -/
def tallyVotes : List (VoteKey × Vote) := [castVote 2 "1.0", castVote 1 "1.0"]

theorem getElem?_tallyValidators {v : String} {val : ValidatorGovInfo}
    (h : tallyValidators[v]? = some val) :
    v = codec.bytesToString 1 ∧ val = ⟨1, 1000000, Dec.ofInt 1000000, 0, []⟩ := by
  rw [tallyValidators, getElem?_insert_eq] at h
  split_ifs at h with hv
  · exact ⟨hv.symm, (Option.some.inj h).symm⟩
  · rw [Std.ExtTreeMap.getElem?_empty] at h
    cases h

theorem tallyStaking_world₄ : TallyStaking keepers world₄ tallyValidators where
  positive := by decide +kernel
  fresh v val hval := by
    obtain ⟨_, rfl⟩ := getElem?_tallyValidators hval
    exact ⟨rfl, rfl⟩
  tokens v val hval := by
    obtain ⟨_, rfl⟩ := getElem?_tallyValidators hval
    exact ⟨by decide, by decide⟩
  shares v val hval := by
    obtain ⟨rfl, rfl⟩ := getElem?_tallyValidators hval
    decide +kernel

theorem ballots_world₄ :
    Ballots keepers world₄ tally.legacyNewDecFromStr ((votesOf 1 tallyVotes).map Prod.snd) where
  decodes vote hvote := by
    have hdecoded : ∀ vote ∈ (votesOf 1 tallyVotes).map Prod.snd,
        (keepers.accCodec.stringToBytes vote.voter).isSome = true := by decide +kernel
    exact Option.isSome_iff_exists.mp (hdecoded vote hvote)
  distinct := by decide +kernel
  notDelegator vote hvote id a hat := by
    obtain ⟨p, hp, ha⟩ := delegatorAt_eq_some.mp hat
    have hfree : ∀ vote ∈ (votesOf 1 tallyVotes).map Prod.snd,
        ∀ entry ∈ world₄.store.positions.toList, keepers.accCodec.stringToBytes vote.voter ≠
          keepers.accCodec.stringToBytes entry.2.delegatorAddress := by decide +kernel
    exact fun h ↦ hfree vote hvote (id, p) (mem_toList.mpr hp) (h.trans ha.symm)
  counted := by decide +kernel
  weighed vote hvote := by
    have hmem : vote = (castVote 2 "1.0").2 ∨ vote = (castVote 1 "1.0").2 := by
      have hlist : (votesOf 1 tallyVotes).map Prod.snd =
          [(castVote 2 "1.0").2, (castVote 1 "1.0").2] := rfl
      rw [hlist] at hvote
      simpa using hvote
    rcases hmem with rfl | rfl
    · exact ⟨[1], rfl, by decide⟩
    · exact ⟨[1], rfl, by decide⟩

end Reference

open Reference

/-- The owner of the reference position and the operator of its validator vote: the stake of the
position counts once. -/
theorem stake_counted_once_history :
    ∃ (T : TallyKeepers) (t : Attribution) (s : TallyState) (total : Dec) (results : TallyResults),
      T = keepers.tallyKeepers world₄ tally.legacyNewDecFromStr ∧
      t = attribution T tallyValidators ((votesOf 1 tallyVotes).map Prod.snd) ∧
      ((votesOf 1 tallyVotes).map Prod.snd).foldlM (tallyVote T)
        ⟨0, 0, tallyValidators⟩ = .ok s ∧
      customTallyTierVotes T id 1 tallyVotes tallyValidators =
        .ok ((total, results), tallyVotes.filter fun entry ↦ entry.1.1 != 1) ∧
      total = (tallyValidators.toList.map fun entry ↦
        attributedPower t entry.1 entry.2).sum ∧
      results = (tallyValidators.toList.map fun entry ↦
        attributedResults T t entry.1 entry.2).sum ∧
      attributedPower t (codec.bytesToString 1) ⟨1, 1000000, Dec.ofInt 1000000, 0, []⟩ ≤
        Dec.ofInt 1000000 + attributedUnits t (codec.bytesToString 1) ∧
      Dec.ofInt 1000000 ≤
        attributedPower t (codec.bytesToString 1) ⟨1, 1000000, Dec.ofInt 1000000, 0, []⟩ +
          attributedUnits t (codec.bytesToString 1) ∧
      |resultPower (attributedResults T t (codec.bytesToString 1)
          ⟨1, 1000000, Dec.ofInt 1000000, 0, []⟩) -
        attributedPower t (codec.bytesToString 1)
          ⟨1, 1000000, Dec.ofInt 1000000, 0, []⟩| ≤
        creditedUnits t (codec.bytesToString 1)
          ⟨1, 1000000, Dec.ofInt 1000000, 0, []⟩ := by
  have hrange : ∀ entries : List (String × ValidatorGovInfo), (id entries).Perm entries :=
    fun entries ↦ List.Perm.refl entries
  have hpositions : TierPositions keepers world₄ :=
    tierPositions_of_sound (Reachable.sound keepers_contract ⟨_, reaches_history⟩)
  have hval : tallyValidators[codec.bytesToString 1]? =
      some ⟨1, 1000000, Dec.ofInt 1000000, 0, []⟩ := by
    rw [tallyValidators, getElem?_insert_eq, if_pos rfl]
  obtain ⟨s, total, results, hwalk, htally, _, hsum, hresults, hvalidators⟩ :=
    stake_counted_once hrange tallyStaking_world₄ hpositions rfl ballots_world₄
  obtain ⟨_, hupper, hlower, hcredited⟩ := hvalidators _ _ hval
  exact ⟨_, _, s, total, results, rfl, rfl, hwalk, htally, hsum, hresults, hupper,
    hlower ⟨(castVote 1 "1.0").2, by decide +kernel, by decide +kernel⟩, hcredited⟩

end ChainMain.TieredRewards
