import ChainMain.TieredRewards.GovTally

/-!
# Laws of the governance tally

The second pass of the tally ranges over a Go map, in an order that differs between the nodes of the
chain. `tally_order_free` says that this order does not matter, and neither does that of the votes,
of a voter's delegations or of a voter's positions: two runs return the same total and the same
results, or both fail. Which of several failures comes first does depend on the order, and one of
them may be a panic (`panic_or_error_by_order`); `PanicFree` says when none is.

`tier_tally_is_plain_tally` compares the tally with the one of a chain without positions, on which
the owners hold the delegations of their positions themselves. The two agree in everything, failures
included, when no position's delegator address votes. One that does is counted once for itself and
once for the owner (`delegator_vote_counts_twice`).
-/

set_option autoImplicit false

namespace ChainMain.TieredRewards

open Foundations Accumulation Decimal OrderedStore Outcomes

/-! ### Electorates -/

/-- The delegations that staking lists for every account, and the tier positions with the accounts
that own them. -/
structure Electorate where
  delegations : AccAddress → List Delegation
  positions : List (AccAddress × PositionState)

namespace Electorate

variable (e : Electorate) (T : TallyKeepers)

def positionsOf (owner : AccAddress) : List PositionState :=
  (e.positions.filter fun entry ↦ entry.1 == owner).map Prod.snd

/-- What the tally is handed for an electorate. -/
def keepers : TallyKeepers :=
  { T with
    iterateDelegations := fun a ↦ (e.delegations a, none)
    getPositionStatesByOwner := fun owner ↦ .ok (e.positionsOf owner) }

end Electorate

namespace Reference

/-- The only weight is one. -/
def tally : TallyKeepers where
  stringToBytes s := expect (codec.stringToBytes s) bech32Error
  bytesToString a := .ok (codec.bytesToString a)
  iterateDelegations _ := ([], none)
  getPositionStatesByOwner _ := .ok []
  legacyNewDecFromStr s :=
    if s = "1.0" then .ok 1 else .error (.keeper "failed to set decimal string")

/-- A validator with a hundred tokens and as many shares, and one with neither. -/
def govValidators : Map String ValidatorGovInfo :=
  ((∅ : Map String ValidatorGovInfo).insert (codec.bytesToString 5)
    ⟨5, 100, Dec.ofInt 100, 0, []⟩).insert (codec.bytesToString 6) ⟨6, 0, 0, 0, []⟩

def tenShares (a : AccAddress) (v : ValAddress) : Delegation :=
  ⟨codec.bytesToString a, codec.bytesToString v, Dec.ofInt 10⟩

/-- A vote of an account for one option, with the text of its weight. -/
def castVote (a : AccAddress) (weight : String) : VoteKey × Vote :=
  ((1, a), ⟨codec.bytesToString a, [⟨.yes, weight⟩]⟩)

/-- Whether a run failed, and if so with a panic. -/
def failure {α : Type} : Except Err α → Option Bool
  | .ok _ => none
  | .error e => some e.isPanic

/-- The voters `2` and `3` delegate to the first and to the second validator. -/
def halting : Electorate where
  delegations a := if a = 2 then [tenShares 2 5] else if a = 3 then [tenShares 3 6] else []
  positions := []

/-- The voter `2` delegates twice, and the voter `3` has two positions. -/
def crowd : Electorate where
  delegations a := if a = 2 then [tenShares 2 5, tenShares 2 7] else []
  positions := [(3, ⟨⟨1, codec.bytesToString 3, 1, 0, 0, true, 0, 0, 0, 0, codec.bytesToString 8⟩,
      some (tenShares 8 5)⟩),
    (3, ⟨⟨2, codec.bytesToString 3, 1, 0, 0, true, 0, 0, 0, 0, codec.bytesToString 9⟩,
      some (tenShares 9 7)⟩)]

/-- The voter `2` has the position of the delegator `9`. -/
def lending : Electorate where
  delegations a := if a = 9 then [tenShares 9 5] else []
  positions := [(2, ⟨⟨1, codec.bytesToString 2, 1, 0, 0, true, 0, 0, 0, 0, codec.bytesToString 9⟩,
    some (tenShares 9 5)⟩)]

theorem stringToBytes_tally (a : AccAddress) :
    tally.stringToBytes (codec.bytesToString a) = .ok a := by
  change expect (codec.stringToBytes (codec.bytesToString a)) bech32Error = .ok a
  rw [codec.stringToBytes_bytesToString]
  rfl

theorem vote_govValidators {v : String} {val : ValidatorGovInfo}
    (h : govValidators[v]? = some val) :
    val.vote = [] := by
  unfold govValidators at h
  rw [getElem?_insert_eq, getElem?_insert_eq] at h
  split_ifs at h
  · exact Option.some.inj h ▸ rfl
  · exact Option.some.inj h ▸ rfl
  · rw [Std.ExtTreeMap.getElem?_empty] at h
    cases h

end Reference

/-! ### Votes of different validators commute -/

namespace Attribution

/-- An attribution without a vote of a validator. -/
def Silent (t : Attribution) : Prop := ∀ v, t.votes v = none

theorem silent_zero : Silent 0 := fun _ ↦ rfl

theorem Silent.add {a b : Attribution} (ha : Silent a) (hb : Silent b) : Silent (a + b) := by
  intro v
  rw [votes_add, ha v, hb v, Option.none_or]

theorem addCommute_of_votes {a b : Attribution} (h : ∀ v, a.votes v = none ∨ b.votes v = none) :
    AddCommute a b := by
  refine Attribution.ext (add_comm a.parts b.parts) (add_comm a.results b.results)
    (funext fun v ↦ ?_)
  rw [votes_add, votes_add]
  rcases h v with hnone | hnone <;> rw [hnone, Option.none_or, Option.or_none]

theorem Silent.addCommute {a : Attribution} (ha : Silent a) (b : Attribution) : AddCommute a b :=
  addCommute_of_votes fun v ↦ Or.inl (ha v)

/-- Attributions without votes of validators can be added in any order. -/
theorem pairwise_addCommute_of_silent {ts : List Attribution} (h : ∀ t ∈ ts, Silent t) :
    ts.Pairwise AddCommute :=
  List.pairwise_of_forall_mem_list fun a ha b _ ↦ (h a ha).addCommute b

end Attribution

section Order

variable {T : TallyKeepers} {validators : Map String ValidatorGovInfo} {vote : Vote}

theorem silent_countShare {d : Delegation} {power : Dec} {c : Attribution}
    (h : countShare T vote d power = .ok c) : c.Silent := by
  obtain ⟨results, _, hc⟩ := bind_eq_ok.mp h
  obtain rfl := Except.ok.inj hc
  exact fun _ ↦ rfl

theorem silent_delegationShare {d : Delegation} {c : Attribution}
    (h : delegationShare T validators vote d = .ok c) : c.Silent := by
  unfold delegationShare at h
  split at h
  · obtain rfl := Except.ok.inj h
    exact Attribution.silent_zero
  · obtain ⟨power, _, hcount⟩ := bind_eq_ok.mp h
    exact silent_countShare hcount

theorem silent_positionShare {pos : PositionState} {c : Attribution}
    (h : positionShare T validators vote pos = .ok c) : c.Silent := by
  unfold positionShare at h
  split_ifs at h
  · obtain rfl := Except.ok.inj h
    exact Attribution.silent_zero
  · split at h
    · cases h
    · exact silent_countShare h

theorem silent_value {x : Except Err Attribution} (h : ∀ c, x = .ok c → c.Silent) :
    (value x).Silent := by
  cases hx : x with
  | error e => exact Attribution.silent_zero
  | ok c => exact h c hx

theorem silent_total {α : Type} {amount : α → Except Err Attribution} {items : List α}
    {c : Attribution} (hsilent : ∀ a d, amount a = .ok d → d.Silent)
    (h : total amount items = .ok c) : c.Silent :=
  total_induction Attribution.silent_zero Attribution.Silent.add (fun a _ ↦ hsilent a) h

theorem toOption_total_perm_of_silent {α : Type} {amount : α → Except Err Attribution}
    (hsilent : ∀ a d, amount a = .ok d → d.Silent) {items items' : List α}
    (hperm : items.Perm items') :
    (total amount items).toOption = (total amount items').toOption := by
  refine toOption_total_perm hperm (Attribution.pairwise_addCommute_of_silent fun t ht ↦ ?_)
  obtain ⟨a, _, rfl⟩ := List.mem_map.mp ht
  exact silent_value (hsilent a)

/-- A vote of the tally is one of the validator that the voter operates, and of no other. -/
theorem votes_voteShare {c : Attribution} (h : voteShare T validators vote = .ok c) :
    ∃ voter valAddr, T.stringToBytes vote.voter = .ok voter ∧ T.bytesToString voter = .ok valAddr ∧
      ∀ v, c.votes v = if v = valAddr then some vote.options else none := by
  obtain ⟨voter, hvoter, h⟩ := bind_eq_ok.mp h
  obtain ⟨valAddr, hvalAddr, h⟩ := bind_eq_ok.mp h
  obtain ⟨delegated, hdelegated, h⟩ := bind_eq_ok.mp h
  obtain ⟨owned, howned, h⟩ := bind_eq_ok.mp h
  obtain rfl := Except.ok.inj h
  refine ⟨voter, valAddr, hvoter, hvalAddr, fun v ↦ ?_⟩
  have hsilent : (delegated + owned).Silent := by
    obtain ⟨d, hd, h⟩ := bind_eq_ok.mp hdelegated
    obtain ⟨_, _, h⟩ := bind_eq_ok.mp h
    obtain rfl := Except.ok.inj h
    obtain ⟨positions, _, hpositions⟩ := bind_eq_ok.mp howned
    exact (silent_total (fun _ _ ↦ silent_delegationShare) hd).add
      (silent_total (fun _ _ ↦ silent_positionShare) hpositions)
  rw [Attribution.votes_add, hsilent v, Option.none_or, Attribution.votes_ofVote]

/-! ### Order -/

/-- Two orders of the same positions, or the same error. -/
def Rearranged (x y : Except Err (List PositionState)) : Prop :=
  match x, y with
  | .ok positions, .ok positions' => positions.Perm positions'
  | .error e, .error e' => e = e'
  | _, _ => False

/-- The voters of the votes are different accounts. -/
def DistinctVoters (T : TallyKeepers) (votes : List Vote) : Prop :=
  votes.Pairwise fun vote vote' ↦
    ∀ voter, T.stringToBytes vote.voter = .ok voter → T.stringToBytes vote'.voter ≠ .ok voter

/-- No two accounts have the same operator address. -/
def InjectiveOperators (T : TallyKeepers) : Prop :=
  ∀ a b valAddr, T.bytesToString a = .ok valAddr → T.bytesToString b = .ok valAddr → a = b

variable {delegations : AccAddress → List Delegation × Option Err}
  {positions : AccAddress → Except Err (List PositionState)}

/-- The same keepers with other orders of delegations and positions. -/
def TallyKeepers.reorder (T : TallyKeepers)
    (delegations : AccAddress → List Delegation × Option Err)
    (positions : AccAddress → Except Err (List PositionState)) : TallyKeepers :=
  { T with iterateDelegations := delegations, getPositionStatesByOwner := positions }

theorem toOption_delegatedShare (voter : AccAddress)
    (hitems : (T.iterateDelegations voter).1.Perm (delegations voter).1)
    (herror : (T.iterateDelegations voter).2 = (delegations voter).2) :
    (delegatedShare T validators vote voter).toOption =
      (delegatedShare (T.reorder delegations positions) validators vote voter).toOption := by
  have hsame : (total (delegationShare T validators vote) (T.iterateDelegations voter).1).toOption =
      (total (delegationShare T validators vote) (delegations voter).1).toOption :=
    toOption_total_perm_of_silent (fun _ _ ↦ silent_delegationShare) hitems
  unfold delegatedShare
  rw [toOption_bind, toOption_bind, hsame, herror]
  rfl

theorem toOption_ownedShare (voter : AccAddress)
    (hitems : Rearranged (T.getPositionStatesByOwner voter) (positions voter)) :
    (ownedShare T validators vote voter).toOption =
      (ownedShare (T.reorder delegations positions) validators vote voter).toOption := by
  have hreorder : (T.reorder delegations positions).getPositionStatesByOwner voter =
      positions voter := rfl
  unfold ownedShare
  rw [toOption_bind, toOption_bind, toOption_mapError, toOption_mapError, hreorder]
  cases hx : T.getPositionStatesByOwner voter with
  | error e =>
    cases hy : positions voter with
    | error e' => rfl
    | ok states' =>
      rw [hx, hy] at hitems
      exact hitems.elim
  | ok states =>
    cases hy : positions voter with
    | error e' =>
      rw [hx, hy] at hitems
      exact hitems.elim
    | ok states' =>
      rw [hx, hy] at hitems
      exact toOption_total_perm_of_silent (fun _ _ ↦ silent_positionShare) hitems

/-- What a vote adds does not depend on the order of the voter's delegations and positions. -/
theorem toOption_voteShare
    (hdelegations : ∀ a, (T.iterateDelegations a).1.Perm (delegations a).1 ∧
      (T.iterateDelegations a).2 = (delegations a).2)
    (hpositions : ∀ a, Rearranged (T.getPositionStatesByOwner a) (positions a)) (vote : Vote) :
    (voteShare T validators vote).toOption =
      (voteShare (T.reorder delegations positions) validators vote).toOption := by
  unfold voteShare
  simp only [toOption_bind]
  refine Option.bind_congr fun voter _ ↦ Option.bind_congr fun valAddr _ ↦ ?_
  rw [toOption_delegatedShare voter (hdelegations voter).1 (hdelegations voter).2,
    toOption_ownedShare voter (hpositions voter)]

theorem toOption_total_voteShare_perm (hoperators : InjectiveOperators T) {votes votes' : List Vote}
    (hdistinct : DistinctVoters T votes) (hperm : votes.Perm votes') :
    (total (voteShare T validators) votes).toOption =
      (total (voteShare T validators) votes').toOption := by
  refine toOption_total_perm hperm (List.pairwise_map.mpr (hdistinct.imp ?_))
  intro vote vote' hvoters
  refine Attribution.addCommute_of_votes fun v ↦ ?_
  cases hx : voteShare T validators vote with
  | error e => exact Or.inl rfl
  | ok c =>
    cases hy : voteShare T validators vote' with
    | error e => exact Or.inr rfl
    | ok c' =>
      obtain ⟨voter, valAddr, hvoter, hvalAddr, hvotes⟩ := votes_voteShare hx
      obtain ⟨voter', valAddr', hvoter', hvalAddr', hvotes'⟩ := votes_voteShare hy
      rw [value_ok, value_ok, hvotes, hvotes']
      by_cases hv : v = valAddr
      · refine Or.inr (if_neg ?_)
        rintro rfl
        obtain rfl := hoperators voter voter' v (hv ▸ hvalAddr) hvalAddr'
        exact hvoters voter hvoter hvoter'
      · exact Or.inl (if_neg hv)

/-! ### Panics -/

/-- What makes sure that the tally does not panic: the options of every vote are counted, no voter
has a delegation to a validator of the map without shares, and what the tally calls does not
panic. -/
structure PanicFree (T : TallyKeepers) (votes : List Vote)
    (validators : Map String ValidatorGovInfo) :
    Prop where
  votesCounted : ∀ vote ∈ votes, ∀ option ∈ vote.options, option.option.counted = true
  validatorsCounted : ∀ (v : String) (val : ValidatorGovInfo), validators[v]? = some val →
    ∀ option ∈ val.vote, option.option.counted = true
  shared : ∀ vote ∈ votes, ∀ voter, T.stringToBytes vote.voter = .ok voter →
    ∀ d ∈ (T.iterateDelegations voter).1, ∀ val, validators[d.validatorAddress]? = some val →
      val.delegatorShares.isZero = false
  decoding : ∀ s e, T.stringToBytes s = .error e → e.isPanic = false
  encoding : ∀ a e, T.bytesToString a = .error e → e.isPanic = false
  iterating : ∀ a e, (T.iterateDelegations a).2 = some e → e.isPanic = false

theorem isPanic_returned (text : String) (args : List Arg) (e : Err) :
    (e.returned text args).isPanic = e.isPanic := by
  cases e <;> rfl

theorem resultShare_isPanic {options : List WeightedVoteOption} {power : Dec} {e : Err}
    (hcounted : ∀ option ∈ options, option.option.counted = true)
    (h : resultShare T options power = .error e) : e.isPanic = false := by
  obtain ⟨option, hoption, hfails⟩ := exists_of_total_eq_error h
  rcases bind_eq_error hfails with hparse | ⟨weight, _, hadd⟩
  · obtain ⟨_, _, rfl⟩ := mapError_eq_error hparse
    rfl
  · rw [addResult, if_pos (hcounted option hoption)] at hadd
    cases hadd

theorem countShare_isPanic {d : Delegation} {power : Dec} {e : Err}
    (hcounted : ∀ option ∈ vote.options, option.option.counted = true)
    (h : countShare T vote d power = .error e) : e.isPanic = false := by
  rcases bind_eq_error h with hresults | ⟨_, _, hok⟩
  · obtain ⟨e₀, hfails, rfl⟩ := mapError_eq_error hresults
    rw [isPanic_returned]
    exact resultShare_isPanic hcounted hfails
  · cases hok

theorem delegation_of_power {pos : PositionState}
    (h : (positionVotingPower pos validators).isZero = false) : ∃ d, pos.delegation = some d := by
  cases hd : pos.delegation with
  | none =>
    rw [positionVotingPower, hd] at h
    cases h
  | some d => exact ⟨d, rfl⟩

theorem positionShare_isPanic {pos : PositionState} {e : Err}
    (hcounted : ∀ option ∈ vote.options, option.option.counted = true)
    (h : positionShare T validators vote pos = .error e) : e.isPanic = false := by
  unfold positionShare at h
  split_ifs at h with hzero
  obtain ⟨d, hd⟩ := delegation_of_power (Bool.not_eq_true _ ▸ hzero)
  rw [hd] at h
  exact countShare_isPanic hcounted h

theorem voteShare_isPanic {votes : List Vote} (hfree : PanicFree T votes validators)
    (hvote : vote ∈ votes) {e : Err} (h : voteShare T validators vote = .error e) :
    e.isPanic = false := by
  have hcounted := hfree.votesCounted vote hvote
  rcases bind_eq_error h with hdecode | ⟨voter, hvoter, h⟩
  · exact hfree.decoding _ _ hdecode
  rcases bind_eq_error h with hencode | ⟨valAddr, _, h⟩
  · exact hfree.encoding _ _ hencode
  rcases bind_eq_error h with hdelegated | ⟨delegated, _, h⟩
  · rcases bind_eq_error hdelegated with hloop | ⟨_, _, h⟩
    · obtain ⟨d, hd, hfails⟩ := exists_of_total_eq_error hloop
      unfold delegationShare at hfails
      split at hfails
      · cases hfails
      · rename_i val hval
        rw [divide, hfree.shared vote hvote voter hvoter d hd val hval] at hfails
        exact countShare_isPanic hcounted hfails
    · rcases bind_eq_error h with hfailing | ⟨_, _, hok⟩
      · cases herror : (T.iterateDelegations voter).2 with
        | none =>
          rw [herror] at hfailing
          cases hfailing
        | some e₀ =>
          rw [herror] at hfailing
          exact Except.error.inj hfailing ▸ hfree.iterating voter e₀ herror
      · cases hok
  rcases bind_eq_error h with howned | ⟨_, _, hok⟩
  · rcases bind_eq_error howned with hload | ⟨positions, _, hloop⟩
    · obtain ⟨_, _, rfl⟩ := mapError_eq_error hload
      rfl
    · obtain ⟨pos, _, hfails⟩ := exists_of_total_eq_error hloop
      exact positionShare_isPanic hcounted hfails
  · cases hok

/-- The walk records a vote for every validator that an account among the voters operates, and for
no other. -/
theorem votes_total {votes : List Vote} {t : Attribution}
    (ht : total (voteShare T validators) votes = .ok t) (v : String) :
    (t.votes v = none ∧ ∀ vote ∈ votes, ∀ voter, T.stringToBytes vote.voter = .ok voter →
        T.bytesToString voter ≠ .ok v) ∨
      ∃ vote ∈ votes, t.votes v = some vote.options := by
  induction votes generalizing t with
  | nil =>
    obtain rfl := Except.ok.inj ht
    exact Or.inl ⟨rfl, fun vote hvote ↦ absurd hvote List.not_mem_nil⟩
  | cons vote rest ih =>
    obtain ⟨c, hc, h⟩ := bind_eq_ok.mp ht
    obtain ⟨c', hc', h⟩ := bind_eq_ok.mp h
    obtain rfl := pure_eq_ok.mp h
    obtain ⟨voter, valAddr, hvoter, hvalAddr, hvotes⟩ := votes_voteShare hc
    rw [Attribution.votes_add, hvotes]
    rcases ih hc' with ⟨hnone, hother⟩ | ⟨vote', hmem, hsome⟩
    · rw [hnone, Option.none_or]
      split_ifs with hv
      · exact Or.inr ⟨vote, List.mem_cons_self, rfl⟩
      · refine Or.inl ⟨rfl, List.forall_mem_cons.mpr ⟨fun voter' hvoter' hv' ↦ hv ?_, hother⟩⟩
        obtain rfl := Except.ok.inj (hvoter.symm.trans hvoter')
        exact Except.ok.inj (hv'.symm.trans hvalAddr)
    · exact Or.inr ⟨vote', List.mem_cons_of_mem _ hmem, by rw [hsome, Option.some_or]⟩

/-- The vote of a validator after the walk is one of the votes, or the one it had. -/
theorem vote_after_walk {votes : List Vote} {t : Attribution} {v : String} {val : ValidatorGovInfo}
    (ht : total (voteShare T validators) votes = .ok t)
    (hval : (t.tallied validators).validators[v]? = some val) :
    (∃ vote ∈ votes, val.vote = vote.options) ∨ ∃ val₀, validators[v]? = some val₀ ∧
      val.vote = val₀.vote := by
  rw [Attribution.getElem?_tallied] at hval
  obtain ⟨val₀, hval₀, rfl⟩ := Option.map_eq_some_iff.mp hval
  rcases votes_total ht v with ⟨hnone, _⟩ | ⟨vote, hmem, hsome⟩
  · exact Or.inr ⟨val₀, hval₀, by rw [Attribution.info, hnone, Option.getD_none]⟩
  · exact Or.inl ⟨vote, hmem, by rw [Attribution.info, hsome, Option.getD_some]⟩

variable {range : List (String × ValidatorGovInfo) → List (String × ValidatorGovInfo)}
  {proposalId : ℕ}

theorem customTallyTierVotes_isPanic (hrange : ∀ entries, (range entries).Perm entries)
    {votes : List (VoteKey × Vote)}
    (hfree : PanicFree T ((votesOf proposalId votes).map Prod.snd) validators) {e : Err}
    (h : customTallyTierVotes T range proposalId votes validators = .error e) :
    e.isPanic = false := by
  rw [customTallyTierVotes_eq] at h
  rcases bind_eq_error h with hwalk | ⟨t, ht, h⟩
  · obtain ⟨e₀, hfails, rfl⟩ := mapError_eq_error hwalk
    obtain ⟨vote, hvote, hfails⟩ := exists_of_total_eq_error hfails
    rw [isPanic_returned]
    exact voteShare_isPanic hfree hvote hfails
  rcases bind_eq_error h with hsecond | ⟨_, _, hok⟩
  · obtain ⟨⟨v, val⟩, hentry, hfails⟩ := exists_of_total_eq_error hsecond
    have hval := mem_toList.mp ((hrange _).mem_iff.mp hentry)
    have hcounted : ∀ option ∈ val.vote, option.option.counted = true := by
      rcases vote_after_walk (mapError_eq_ok.mp ht) hval with ⟨vote, hvote, heq⟩
          | ⟨val₀, hval₀, heq⟩
      · exact heq ▸ hfree.votesCounted vote hvote
      · exact heq ▸ hfree.validatorsCounted v val₀ hval₀
    unfold residualShare at hfails
    split_ifs at hfails
    rcases bind_eq_error hfails with hresults | ⟨_, _, hok⟩
    · obtain ⟨e₀, hshare, rfl⟩ := mapError_eq_error hresults
      rw [isPanic_returned]
      exact resultShare_isPanic hcounted hshare
    · cases hok
  · cases hok

theorem PanicFree.reorder {votes votes' : List Vote} (hfree : PanicFree T votes validators)
    (hdelegations : ∀ a, (T.iterateDelegations a).1.Perm (delegations a).1 ∧
      (T.iterateDelegations a).2 = (delegations a).2) (hperm : votes.Perm votes') :
    PanicFree (T.reorder delegations positions) votes' validators where
  votesCounted vote hvote := hfree.votesCounted vote (hperm.mem_iff.mpr hvote)
  validatorsCounted := hfree.validatorsCounted
  shared vote hvote voter hvoter d hd :=
    hfree.shared vote (hperm.mem_iff.mpr hvote) voter hvoter d
      ((hdelegations voter).1.mem_iff.mpr hd)
  decoding := hfree.decoding
  encoding := hfree.encoding
  iterating a e he := hfree.iterating a e ((hdelegations a).2.trans he)

/-- Once the votes add up to the same, the order of the second pass does not matter. -/
theorem toOption_customTallyTierVotes {T' : TallyKeepers}
    (hresidual : residualShare T = residualShare T')
    {range' : List (String × ValidatorGovInfo) → List (String × ValidatorGovInfo)}
    (hrange : ∀ entries, (range entries).Perm entries)
    (hrange' : ∀ entries, (range' entries).Perm entries) {votes votes' : List (VoteKey × Vote)}
    (hwalk : (total (voteShare T validators) ((votesOf proposalId votes).map Prod.snd)).toOption =
      (total (voteShare T' validators) ((votesOf proposalId votes').map Prod.snd)).toOption) :
    (customTallyTierVotes T range proposalId votes validators).toOption.map Prod.fst =
      (customTallyTierVotes T' range' proposalId votes' validators).toOption.map Prod.fst := by
  rw [customTallyTierVotes_eq, customTallyTierVotes_eq, toOption_bind, toOption_bind,
    toOption_mapError, toOption_mapError, hwalk, Option.map_bind, Option.map_bind]
  refine Option.bind_congr fun t _ ↦ ?_
  have hsecond :
      (total (residualShare T) (range (t.tallied validators).validators.toList)).toOption =
      (total (residualShare T') (range' (t.tallied validators).validators.toList)).toOption := by
    rw [← hresidual]
    exact toOption_total_perm ((hrange _).trans (hrange' _).symm)
      (List.pairwise_of_forall fun a b ↦ add_comm a b)
  rw [Function.comp_apply, Function.comp_apply, toOption_bind, toOption_bind, hsecond,
    Option.map_bind, Option.map_bind]
  rfl

/-- The tally does not depend on the order of the votes, of a voter's delegations, of a voter's
positions, or of the validators in the second pass. -/
theorem tally_order_free (validators : Map String ValidatorGovInfo)
    (hoperators : InjectiveOperators T)
    (hdelegations : ∀ a, (T.iterateDelegations a).1.Perm (delegations a).1 ∧
      (T.iterateDelegations a).2 = (delegations a).2)
    (hpositions : ∀ a, Rearranged (T.getPositionStatesByOwner a) (positions a))
    {range' : List (String × ValidatorGovInfo) → List (String × ValidatorGovInfo)}
    (hrange : ∀ entries, (range entries).Perm entries)
    (hrange' : ∀ entries, (range' entries).Perm entries) {votes votes' : List (VoteKey × Vote)}
    (hdistinct : DistinctVoters T ((votesOf proposalId votes).map Prod.snd))
    (hperm : votes.Perm votes') :
    (customTallyTierVotes T range proposalId votes validators).toOption.map Prod.fst =
        (customTallyTierVotes (T.reorder delegations positions) range' proposalId votes'
          validators).toOption.map Prod.fst ∧
      (PanicFree T ((votesOf proposalId votes).map Prod.snd) validators →
        (∀ e, customTallyTierVotes T range proposalId votes validators = .error e →
          e.isPanic = false) ∧
        ∀ e, customTallyTierVotes (T.reorder delegations positions) range' proposalId votes'
          validators = .error e → e.isPanic = false) := by
  have hvisited : ((votesOf proposalId votes).map Prod.snd).Perm
      ((votesOf proposalId votes').map Prod.snd) :=
    (hperm.filter _).map _
  have hwalk : (total (voteShare T validators) ((votesOf proposalId votes).map Prod.snd)).toOption =
      (total (voteShare (T.reorder delegations positions) validators)
        ((votesOf proposalId votes').map Prod.snd)).toOption :=
    (toOption_total_voteShare_perm hoperators hdistinct hvisited).trans
      (toOption_total_congr fun vote _ ↦ toOption_voteShare hdelegations hpositions vote)
  have hresidual : residualShare T = residualShare (T.reorder delegations positions) := rfl
  constructor
  · exact toOption_customTallyTierVotes hresidual hrange hrange' hwalk
  · intro hfree
    exact ⟨fun e ↦ customTallyTierVotes_isPanic hrange hfree,
      fun e ↦ customTallyTierVotes_isPanic hrange' (hfree.reorder hdelegations hvisited)⟩

end Order

namespace Reference

def ballots : List (VoteKey × Vote) := [castVote 2 "1.0", castVote 3 "1.0"]

theorem distinctVoters_ballots (e : Electorate) :
    DistinctVoters (e.keepers tally) ((votesOf 1 ballots).map Prod.snd) := by
  refine List.pairwise_pair.mpr fun voter h h' ↦ ?_
  have hsecond := Except.ok.inj (h.symm.trans (stringToBytes_tally 2))
  have hthird := Except.ok.inj (h'.symm.trans (stringToBytes_tally 3))
  exact absurd (hsecond.symm.trans hthird) (by decide)

theorem isPanic_stringToBytes_tally {s : String} {e : Err} (h : tally.stringToBytes s = .error e) :
    e.isPanic = false := by
  change expect (codec.stringToBytes s) bech32Error = .error e at h
  cases hdecoded : codec.stringToBytes s with
  | none =>
    rw [hdecoded] at h
    exact Except.error.inj h ▸ rfl
  | some a =>
    rw [hdecoded] at h
    cases h

theorem panicFree_crowd :
    PanicFree (crowd.keepers tally) ((votesOf 1 ballots).map Prod.snd) govValidators where
  votesCounted := by decide
  validatorsCounted v val hval option hoption := by
    rw [vote_govValidators hval] at hoption
    cases hoption
  shared vote hvote voter hvoter d hd val hval := by
    have hshares : ∀ d ∈ [tenShares 2 5, tenShares 2 7],
        ((govValidators[d.validatorAddress]?).all fun val ↦ !val.delegatorShares.isZero) =
          true := by
      decide +kernel
    have hlisted : d ∈ [tenShares 2 5, tenShares 2 7] := by
      change d ∈ (if voter = 2 then _ else _) at hd
      split_ifs at hd
      · exact hd
      · cases hd
    have hshared := hshares d hlisted
    rw [hval] at hshared
    exact (Bool.not_eq_true' _).mp hshared
  decoding _ _ := isPanic_stringToBytes_tally
  encoding _ _ h := by cases h
  iterating _ _ h := by cases h

end Reference

open Reference

/-- The two voters of the reference electorate, with every order reversed. -/
theorem tally_order_free_crowd :
    (customTallyTierVotes (crowd.keepers tally) id 1 ballots
        govValidators).toOption.map (fun outcome ↦ outcome.1.1) = some (Dec.ofInt 20) ∧
      (customTallyTierVotes (crowd.keepers tally) id 1 ballots
          govValidators).toOption.map Prod.fst =
        (customTallyTierVotes ((crowd.keepers tally).reorder
            (fun a ↦ ((crowd.delegations a).reverse, none))
            (fun a ↦ .ok (crowd.positionsOf a).reverse)) List.reverse 1
          ballots.reverse govValidators).toOption.map Prod.fst ∧
      ∀ e, customTallyTierVotes (crowd.keepers tally) id 1 ballots
        govValidators = .error e → e.isPanic = false := by
  have hcodec : InjectiveOperators (crowd.keepers tally) := fun a b valAddr ha hb ↦
    codec.bytesToString_injective ((Except.ok.inj ha).trans (Except.ok.inj hb).symm)
  have hdelegations : ∀ a, ((crowd.keepers tally).iterateDelegations a).1.Perm
      ((crowd.delegations a).reverse, (none : Option Err)).1 ∧
        ((crowd.keepers tally).iterateDelegations a).2 = none :=
    fun a ↦ ⟨(List.reverse_perm (crowd.delegations a)).symm, rfl⟩
  have hpositions : ∀ a, Rearranged
      ((crowd.keepers tally).getPositionStatesByOwner a)
      (.ok (crowd.positionsOf a).reverse) :=
    fun a ↦ (List.reverse_perm (crowd.positionsOf a)).symm
  have horder := tally_order_free govValidators hcodec hdelegations hpositions
    (fun entries ↦ List.Perm.refl (id entries)) List.reverse_perm
    (distinctVoters_ballots crowd) (List.reverse_perm ballots).symm
  exact ⟨by decide +kernel, horder.1, (horder.2 panicFree_crowd).1⟩

/-- Of a vote with a bad weight and one of a delegator to a validator without shares, the first to
be visited decides whether the tally returns an error or panics. -/
theorem panic_or_error_by_order :
    failure (customTallyTierVotes (halting.keepers tally) id 1
        [castVote 2 "one", castVote 3 "1.0"] govValidators) = some false ∧
      failure (customTallyTierVotes (halting.keepers tally) id 1
        [castVote 3 "1.0", castVote 2 "one"] govValidators) = some true := by
  decide +kernel

/-! ### Positions as delegations of their owners -/

namespace Electorate

variable (e : Electorate) (T : TallyKeepers)

/-- Whether a delegation of an account is that of a position which has the account as its
delegator. -/
def isHeld (a : AccAddress) (d : Delegation) : Bool :=
  e.positions.any fun entry ↦ entry.2.delegation == some d &&
    (T.stringToBytes entry.2.delegatorAddress).toOption == some a

/-- The electorate without positions: their delegations are taken from the delegator addresses and
listed with those of the owners. -/
def reattributed : Electorate where
  delegations a := (e.delegations a).filter (fun d ↦ !e.isHeld T a d) ++
    (e.positionsOf a).filterMap PositionState.delegation
  positions := []

variable {e T} {validators : Map String ValidatorGovInfo} {vote : Vote}

/-- A position that is not skipped for lack of power counts as its delegation. -/
theorem positionShare_eq_delegationShare {pos : PositionState}
    (hpower : ∀ (d : Delegation) (val : ValidatorGovInfo), pos.delegation = some d →
      validators[d.validatorAddress]? = some val →
        (positionVotingPower pos validators).isZero = false) :
    positionShare T validators vote pos =
      match pos.delegation with
      | none => .ok 0
      | some d => delegationShare T validators vote d := by
  cases hd : pos.delegation with
  | none =>
    have hzero : positionVotingPower pos validators = 0 := by rw [positionVotingPower, hd]
    rw [positionShare, hzero]
    rfl
  | some d =>
    dsimp only
    rw [delegationShare]
    cases hval : validators[d.validatorAddress]? with
    | none =>
      have hzero : positionVotingPower pos validators = 0 := by
        rw [positionVotingPower, hd]
        dsimp only
        rw [hval]
      rw [positionShare, hzero]
      rfl
    | some val =>
      have hpositive := hpower d val hd hval
      have hvalue : positionVotingPower pos validators =
          if val.delegatorShares.isZero then 0
          else (d.shares.mulInt val.bondedTokens).quo val.delegatorShares := by
        rw [positionVotingPower, hd]
        dsimp only
        rw [hval]
      cases hshares : val.delegatorShares.isZero with
      | true =>
        rw [hvalue, hshares, if_pos rfl] at hpositive
        cases hpositive
      | false =>
        rw [positionShare, hpositive, if_neg Bool.false_ne_true, hd, hvalue, hshares,
          if_neg Bool.false_ne_true]
        dsimp only
        rw [divide, hshares, if_neg Bool.false_ne_true]
        rfl

theorem total_positionShare {positions : List PositionState}
    (hpower : ∀ pos ∈ positions, ∀ (d : Delegation) (val : ValidatorGovInfo),
      pos.delegation = some d → validators[d.validatorAddress]? = some val →
        (positionVotingPower pos validators).isZero = false) :
    total (positionShare T validators vote) positions =
      total (delegationShare T validators vote) (positions.filterMap PositionState.delegation) := by
  induction positions with
  | nil => rfl
  | cons pos rest ih =>
    obtain ⟨hfirst, hrest⟩ := List.forall_mem_cons.mp hpower
    rw [total, positionShare_eq_delegationShare hfirst, ih hrest]
    cases hd : pos.delegation with
    | none =>
      rw [List.filterMap_cons_none hd]
      dsimp only
      rw [ok_bind]
      cases total (delegationShare T validators vote) (rest.filterMap PositionState.delegation) with
      | error err => rfl
      | ok c => exact congrArg Except.ok (zero_add c)
    | some d =>
      rw [List.filterMap_cons_some hd]
      rfl

/-- Nothing is taken from an account that is no position's delegator. -/
theorem filter_isHeld {a : AccAddress}
    (hfree : ∀ entry ∈ e.positions, T.stringToBytes entry.2.delegatorAddress ≠ .ok a)
    (ds : List Delegation) : ds.filter (fun d ↦ !e.isHeld T a d) = ds := by
  refine List.filter_eq_self.mpr fun d _ ↦ ?_
  rw [Bool.not_eq_true', isHeld, List.any_eq_false]
  intro entry hentry hheld
  obtain ⟨_, haccount⟩ := Bool.and_eq_true_iff.mp hheld
  refine hfree entry hentry ?_
  cases hdecoded : T.stringToBytes entry.2.delegatorAddress with
  | error err =>
    rw [hdecoded] at haccount
    cases haccount
  | ok b =>
    rw [hdecoded] at haccount
    exact congrArg Except.ok (Option.some.inj (beq_iff_eq.mp haccount))

theorem voteShare_reattributed
    (hpower : ∀ entry ∈ e.positions, ∀ (d : Delegation) (val : ValidatorGovInfo),
      entry.2.delegation = some d → validators[d.validatorAddress]? = some val →
        (positionVotingPower entry.2 validators).isZero = false)
    (hvoter : ∀ entry ∈ e.positions, ∀ a, T.stringToBytes entry.2.delegatorAddress = .ok a →
      T.stringToBytes vote.voter ≠ .ok a) :
    voteShare (e.keepers T) validators vote =
      voteShare ((e.reattributed T).keepers T) validators vote := by
  unfold voteShare
  change T.stringToBytes vote.voter >>= _ = T.stringToBytes vote.voter >>= _
  cases hdecoded : T.stringToBytes vote.voter with
  | error err => rfl
  | ok voter =>
    change T.bytesToString voter >>= _ = T.bytesToString voter >>= _
    cases T.bytesToString voter with
    | error err => rfl
    | ok valAddr =>
      have hkept := filter_isHeld (e := e) (T := T) (a := voter)
        (fun entry hentry h ↦ hvoter entry hentry voter h hdecoded) (e.delegations voter)
      have howned : total (positionShare T validators vote) (e.positionsOf voter) =
          total (delegationShare T validators vote)
            ((e.positionsOf voter).filterMap PositionState.delegation) := by
        refine total_positionShare fun pos hpos ↦ ?_
        obtain ⟨entry, hentry, rfl⟩ := List.mem_map.mp hpos
        exact hpower entry (List.mem_filter.mp hentry).1
      have hlisted :
          total (delegationShare T validators vote) ((e.reattributed T).delegations voter) =
          total (delegationShare T validators vote) (e.delegations voter) >>= fun c ↦
            total (delegationShare T validators vote)
              ((e.positionsOf voter).filterMap PositionState.delegation) >>=
              fun d ↦ .ok (c + d) := by
        rw [← total_append]
        exact congrArg (fun ds ↦ total _ (ds ++ _)) hkept
      have hbefore : ownedShare (e.keepers T) validators vote voter =
          total (delegationShare T validators vote)
            ((e.positionsOf voter).filterMap PositionState.delegation) := howned
      have hafter : delegatedShare ((e.reattributed T).keepers T) validators vote voter =
          total (delegationShare T validators vote) ((e.reattributed T).delegations voter)
            >>= .ok := rfl
      have hdelegated : delegatedShare (e.keepers T) validators vote voter =
          total (delegationShare T validators vote) (e.delegations voter) >>= .ok := rfl
      have hnone : ownedShare ((e.reattributed T).keepers T) validators vote voter = .ok 0 := rfl
      simp only [ok_bind]
      rw [hbefore, hafter, hdelegated, hnone, hlisted]
      cases total (delegationShare T validators vote) (e.delegations voter) with
      | error err => rfl
      | ok c =>
        cases total (delegationShare T validators vote)
          ((e.positionsOf voter).filterMap PositionState.delegation) with
        | error err => rfl
        | ok d => exact congrArg (fun u ↦ Except.ok (_ + u)) (add_zero (c + d)).symm

/-- The tally with positions is the plain tally of the electorate whose owners hold the delegations
of their positions. -/
theorem tier_tally_is_plain_tally
    (range : List (String × ValidatorGovInfo) → List (String × ValidatorGovInfo)) (proposalId : ℕ)
    {votes : List (VoteKey × Vote)}
    (hpower : ∀ entry ∈ e.positions, ∀ (d : Delegation) (val : ValidatorGovInfo),
      entry.2.delegation = some d → validators[d.validatorAddress]? = some val →
        (positionVotingPower entry.2 validators).isZero = false)
    (hvoters : ∀ entry ∈ e.positions, ∀ a, T.stringToBytes entry.2.delegatorAddress = .ok a →
      ∀ vote ∈ votesOf proposalId votes, T.stringToBytes vote.2.voter ≠ .ok a) :
    customTallyTierVotes (e.keepers T) range proposalId votes validators =
      customTallyTierVotes ((e.reattributed T).keepers T) range proposalId votes validators := by
  have hwalk :
      total (voteShare (e.keepers T) validators) ((votesOf proposalId votes).map Prod.snd) =
      total (voteShare ((e.reattributed T).keepers T) validators)
        ((votesOf proposalId votes).map Prod.snd) := by
    refine total_congr fun vote hvote ↦ voteShare_reattributed hpower fun entry hentry a ha ↦ ?_
    obtain ⟨visited, hvisited, rfl⟩ := List.mem_map.mp hvote
    exact hvoters entry hentry a ha visited hvisited
  rw [customTallyTierVotes_eq, customTallyTierVotes_eq, hwalk]
  rfl

end Electorate

theorem tier_tally_is_plain_tally_lending :
    (customTallyTierVotes (lending.keepers tally) id 1
        ballots govValidators).toOption.map (fun outcome ↦ outcome.1.1) =
          some (Dec.ofInt 10) ∧
      customTallyTierVotes (lending.keepers tally) id 1 ballots
          govValidators =
        customTallyTierVotes ((lending.reattributed tally).keepers tally) id 1
          ballots govValidators := by
  refine ⟨by decide +kernel, Electorate.tier_tally_is_plain_tally id 1 ?_ ?_⟩
  · intro entry hentry d val _ _
    obtain rfl := List.mem_singleton.mp hentry
    decide +kernel
  · intro entry hentry a ha vote hvote hvoter
    obtain rfl := List.mem_singleton.mp hentry
    have hnine : a = 9 := Except.ok.inj (ha.symm.trans (stringToBytes_tally 9))
    have hmem : vote = castVote 2 "1.0" ∨ vote = castVote 3 "1.0" := by
      simpa [ballots] using (List.mem_filter.mp hvote).1
    rcases hmem with rfl | rfl
    · have htwo := Except.ok.inj (hvoter.symm.trans (stringToBytes_tally 2))
      exact absurd (hnine.symm.trans htwo) (by decide)
    · have hthree := Except.ok.inj (hvoter.symm.trans (stringToBytes_tally 3))
      exact absurd (hnine.symm.trans hthree) (by decide)

/-- A delegator address that votes is counted once for itself and once for the owner. -/
theorem delegator_vote_counts_twice :
    (customTallyTierVotes (lending.keepers tally) id 1
        [castVote 2 "1.0", castVote 9 "1.0"] govValidators).toOption.map
          (fun outcome ↦ outcome.1.1) = some (Dec.ofInt 20) ∧
      (customTallyTierVotes ((lending.reattributed tally).keepers tally) id 1
        [castVote 2 "1.0", castVote 9 "1.0"] govValidators).toOption.map
          (fun outcome ↦ outcome.1.1) = some (Dec.ofInt 10) := by
  decide +kernel

end ChainMain.TieredRewards
