import ChainMain.Foundations.Accumulation
import ChainMain.TieredRewards.VotingPower

/-!
# The governance tally

The tally function that `NewCustomTallyTierVotesFn` of `gov_tally.go` returns. It walks over the
votes of a proposal. The power of a voter is that of the voter's delegations and of the positions
the voter owns; the shares behind it are deducted from the validator, in the same map the tally
reads the validators from. A second pass over that map gives what is left of a validator's shares to
the validator's own vote, and at the end the votes are removed.

The codecs, `IterateDelegations`, `GetPositionStatesByOwner` and the parsing of weights are what the
tally is handed (`TallyKeepers`). The second pass ranges over a Go map: `range` is the order in
which it does. A division by zero and a vote for an option that the result map does not hold are
panics.

What a vote does to the state depends on the shares and tokens of the validators, which the tally
never writes, and not on what was tallied before. `voteShare` is what a vote adds, `residualShare`
what the second pass adds for a validator, and `customTallyTierVotes_eq` puts the two together.
-/

set_option autoImplicit false

namespace ChainMain.TieredRewards

open Foundations Accumulation Decimal OrderedStore Outcomes

/-! ### Votes and results -/

def VoteOption.string : VoteOption → String
  | .unspecified => "VOTE_OPTION_UNSPECIFIED"
  | .yes => "VOTE_OPTION_YES"
  | .abstain => "VOTE_OPTION_ABSTAIN"
  | .no => "VOTE_OPTION_NO"
  | .noWithVeto => "VOTE_OPTION_NO_WITH_VETO"

/-- The options that the result map is made with. -/
def VoteOption.counted : VoteOption → Bool
  | .unspecified => false
  | _ => true

/-- The part of `v1.Vote` the tally reads. -/
structure Vote where
  voter : String
  options : List WeightedVoteOption
deriving DecidableEq

/-- The key of a vote: the proposal and the voter. -/
abbrev VoteKey := ℕ × AccAddress

/-- The result map. It holds the counted options and reads as zero for the other one. -/
abbrev TallyResults := VoteOption → Dec

/-- What the tally is handed: the address codecs, `IterateDelegations` with the delegations it
visits and the error it ends with, `GetPositionStatesByOwner`, and `LegacyNewDecFromStr`. -/
structure TallyKeepers where
  stringToBytes : String → Except Err AccAddress
  bytesToString : AccAddress → Except Err String
  iterateDelegations : AccAddress → List Delegation × Option Err
  getPositionStatesByOwner : AccAddress → Except Err (List PositionState)
  legacyNewDecFromStr : String → Except Err Dec

/-- A text around an error that is returned. A panic goes through. -/
def Err.returned (text : String) (args : List Arg) : Err → Err
  | .panic reason => .panic reason
  | e => .wrap text args e

/-- Whether a failure is a panic. -/
def Err.isPanic : Err → Bool
  | .panic _ => true
  | _ => false

def failing : Option Err → Except Err Unit
  | none => .ok ()
  | some e => .error e

/-- `LegacyDec.Quo`, which panics on a zero divisor. -/
def divide (a b : Dec) : Except Err Dec :=
  if b.isZero then .error (.panic "division by zero") else .ok (a.quo b)

/-- `results[option] = results[option].Add(power)`. The addition to a missing entry reads a nil
number. -/
def addResult (results : TallyResults) (option : VoteOption) (power : Dec) :
    Except Err TallyResults :=
  if option.counted then .ok (results + Pi.single option power)
  else .error (.panic "invalid memory address or nil pointer dereference")

/-! ### The tally -/

section Tally

variable (T : TallyKeepers)

def parseWeight (option : WeightedVoteOption) : Except Err Dec :=
  (T.legacyNewDecFromStr option.weight).mapError
    (.wrap "option %s has invalid weight %q: %w" [.str option.option.string, .str option.weight])

def distributeVotingPower (options : List WeightedVoteOption) (power : Dec)
    (results : TallyResults) :
    Except Err TallyResults :=
  options.foldlM (fun results option ↦ do
    let weight ← parseWeight T option
    addResult results option.option (power.mul weight)) results

/-- The variables of the walk over the votes. -/
structure TallyState where
  totalVotingPower : Dec
  results : TallyResults
  validators : Map String ValidatorGovInfo

/-- Deduct shares from a validator, if it is in the map. -/
def deductShares (validators : Map String ValidatorGovInfo) (delegation : Delegation) :
    Map String ValidatorGovInfo :=
  match validators[delegation.validatorAddress]? with
  | none => validators
  | some val =>
    validators.insert delegation.validatorAddress
      { val with delegatorDeductions := val.delegatorDeductions + delegation.shares }

/-- Record the vote of a validator, if the voter is one in the map. -/
def setVote (validators : Map String ValidatorGovInfo) (valAddr : String)
    (options : List WeightedVoteOption) : Map String ValidatorGovInfo :=
  match validators[valAddr]? with
  | none => validators
  | some val => validators.insert valAddr { val with vote := options }

/-- Give the power of a delegation to the options of a vote. -/
def countPower (vote : Vote) (delegation : Delegation) (power : Dec) (s : TallyState) :
    Except Err TallyState := do
  let results ← (distributeVotingPower T vote.options power s.results).mapError
    (.returned "invalid vote weight for voter %s: %w" [.str vote.voter])
  return ⟨s.totalVotingPower + power, results, deductShares s.validators delegation⟩

/-- The callback of `IterateDelegations`. -/
def tallyDelegation (vote : Vote) (s : TallyState) (delegation : Delegation) :
    Except Err TallyState :=
  match s.validators[delegation.validatorAddress]? with
  | none => .ok s
  | some val => do
    let votingPower ← divide (delegation.shares.mulInt val.bondedTokens) val.delegatorShares
    countPower T vote delegation votingPower s

/-- The body of the loop over the positions of a voter. -/
def tallyPosition (vote : Vote) (s : TallyState) (pos : PositionState) : Except Err TallyState :=
  let posPower := positionVotingPower pos s.validators
  if posPower.isZero then .ok s
  else
    match pos.delegation with
    | none => .error (.panic "invalid memory address or nil pointer dereference")
    | some delegation => countPower T vote delegation posPower s

/-- The callback of the walk over the votes, for the variables the second pass reads. -/
def tallyVote (s : TallyState) (vote : Vote) : Except Err TallyState := do
  let voter ← T.stringToBytes vote.voter
  let valAddr ← T.bytesToString voter
  let s := { s with validators := setVote s.validators valAddr vote.options }
  let s ← (T.iterateDelegations voter).1.foldlM (tallyDelegation T vote) s
  failing (T.iterateDelegations voter).2
  let positions ← (T.getPositionStatesByOwner voter).mapError
    (.wrap "error getting tier positions for %s: %w" [.str vote.voter])
  positions.foldlM (tallyPosition T vote) s

/-- The callback of the walk over the votes. It also collects the keys of the votes to remove. -/
def walkVote (s : TallyState × List VoteKey) (entry : VoteKey × Vote) :
    Except Err (TallyState × List VoteKey) := do
  let next ← tallyVote T s.1 entry.2
  return (next, s.2 ++ [entry.1])

/-- The shares of a validator that no voter has voted with. -/
def sharesAfterDeductions (val : ValidatorGovInfo) : Dec :=
  let shares := val.delegatorShares - val.delegatorDeductions
  if shares.isNegative then 0 else shares

/-- The power that the second pass gives to a validator's own vote. -/
def residualPower (val : ValidatorGovInfo) : Dec :=
  ((sharesAfterDeductions val).mulInt val.bondedTokens).quo val.delegatorShares

/-- The body of the second pass. -/
def tallyValidator (s : Dec × TallyResults) (entry : String × ValidatorGovInfo) :
    Except Err (Dec × TallyResults) :=
  let val := entry.2
  if val.vote.isEmpty then .ok s
  else if val.delegatorShares.isZero then .ok s
  else do
    let results ← (distributeVotingPower T val.vote (residualPower val) s.2).mapError
      (.returned "invalid vote weight for validator %s: %w" [.str entry.1])
    return (s.1 + residualPower val, results)

/-- The votes that the walk visits: those of the proposal. -/
def votesOf (proposalId : ℕ) (votes : List (VoteKey × Vote)) : List (VoteKey × Vote) :=
  votes.filter fun entry ↦ entry.1.1 == proposalId

/-- The function that `NewCustomTallyTierVotesFn` returns, with the votes in the order of the walk
and `range` for the order in which the second pass visits the map. It returns the total power, the
results and the votes that are left. -/
def customTallyTierVotes
    (range : List (String × ValidatorGovInfo) → List (String × ValidatorGovInfo)) (proposalId : ℕ)
    (votes : List (VoteKey × Vote)) (validators : Map String ValidatorGovInfo) :
    Except Err ((Dec × TallyResults) × List (VoteKey × Vote)) := do
  let (s, votesToRemove) ← ((votesOf proposalId votes).foldlM (walkVote T)
      (⟨0, 0, validators⟩, [])).mapError
    (.returned "error while iterating votes: %w" [])
  let tallied ← (range s.validators.toList).foldlM (tallyValidator T)
      (s.totalVotingPower, s.results)
  return (tallied, votes.filter fun entry ↦ !votesToRemove.contains entry.1)

end Tally

/-! ### What is attributed -/

/-- A delegation, the power it is counted with, and the options that power goes to. -/
structure Part where
  delegation : Delegation
  power : Dec
  options : List WeightedVoteOption

/-- What votes add to the tally: the delegations they are counted with, the results, and the votes
of validators. -/
@[ext] structure Attribution where
  parts : Multiset Part
  results : TallyResults
  votes : String → Option (List WeightedVoteOption)

namespace Attribution

instance : Zero Attribution := ⟨⟨0, 0, fun _ ↦ none⟩⟩

-- Of two votes of one validator the later one stands, so the sum is not commutative.
instance : Add Attribution :=
  ⟨fun a b ↦ ⟨a.parts + b.parts, a.results + b.results, fun v ↦ (b.votes v).or (a.votes v)⟩⟩

instance : AddMonoid Attribution where
  add_assoc a b c := Attribution.ext (add_assoc a.parts b.parts c.parts)
    (add_assoc a.results b.results c.results) (funext fun _ ↦ Option.or_assoc.symm)
  zero_add a :=
    Attribution.ext (zero_add a.parts) (zero_add a.results) (funext fun _ ↦ Option.or_none)
  add_zero a :=
    Attribution.ext (add_zero a.parts) (add_zero a.results) (funext fun _ ↦ Option.none_or)
  nsmul := nsmulRec

theorem parts_add (a b : Attribution) : (a + b).parts = a.parts + b.parts := rfl
theorem votes_add (a b : Attribution) (v : String) :
    (a + b).votes v = (b.votes v).or (a.votes v) := rfl

def power (t : Attribution) : Dec := (t.parts.map Part.power).sum

/-- The delegations to a validator that have been counted. -/
def on (t : Attribution) (v : String) : Multiset Part :=
  t.parts.filter fun part ↦ part.delegation.validatorAddress = v

/-- The shares that are deducted from a validator. -/
def deductions (t : Attribution) (v : String) : Dec :=
  ((t.on v).map fun part ↦ part.delegation.shares).sum

/-- A delegation that a vote is counted with. -/
def ofPart (part : Part) (results : TallyResults) : Attribution := ⟨{part}, results, fun _ ↦ none⟩

def ofVote (valAddr : String) (options : List WeightedVoteOption) : Attribution :=
  ⟨0, 0, fun v ↦ if v = valAddr then some options else none⟩

theorem power_add (a b : Attribution) : (a + b).power = a.power + b.power := by
  rw [power, power, power, parts_add, Multiset.map_add, Multiset.sum_add]

theorem on_add (a b : Attribution) (v : String) : (a + b).on v = a.on v + b.on v := by
  rw [on, on, on, parts_add, Multiset.filter_add]

theorem deductions_add (a b : Attribution) (v : String) :
    (a + b).deductions v = a.deductions v + b.deductions v := by
  rw [deductions, deductions, deductions, on_add, Multiset.map_add, Multiset.sum_add]

theorem power_ofPart (part : Part) (results : TallyResults) :
    (ofPart part results).power = part.power := by
  rw [Attribution.power, ofPart, Multiset.map_singleton, Multiset.sum_singleton]

theorem deductions_ofPart (part : Part) (results : TallyResults) (v : String) :
    (ofPart part results).deductions v =
      if part.delegation.validatorAddress = v then part.delegation.shares else 0 := by
  rw [deductions, on, ofPart, Multiset.filter_singleton]
  split_ifs with h
  · rw [Multiset.map_singleton, Multiset.sum_singleton]
  · rfl

theorem votes_ofVote (valAddr v : String) (options : List WeightedVoteOption) :
    (ofVote valAddr options).votes v = if v = valAddr then some options else none := rfl

/-- The information on a validator with what has been attributed. -/
def info (t : Attribution) (v : String) (val : ValidatorGovInfo) : ValidatorGovInfo :=
  { val with
    delegatorDeductions := val.delegatorDeductions + t.deductions v
    vote := (t.votes v).getD val.vote }

/-- The variables of the walk after `t` has been attributed. -/
def tallied (validators : Map String ValidatorGovInfo) (t : Attribution) : TallyState where
  totalVotingPower := t.power
  results := t.results
  validators := validators.map t.info

variable {validators : Map String ValidatorGovInfo}

theorem getElem?_tallied (t : Attribution) (v : String) :
    (t.tallied validators).validators[v]? = (validators[v]?).map (t.info v) :=
  Std.ExtTreeMap.getElem?_map

theorem tallied_zero : (0 : Attribution).tallied validators = ⟨0, 0, validators⟩ := by
  have hvalidators : validators.map (0 : Attribution).info = validators := by
    ext1 v
    rw [Std.ExtTreeMap.getElem?_map]
    cases validators[v]? with
    | none => rfl
    | some val => exact congrArg (fun d ↦ some { val with delegatorDeductions := d }) (add_zero _)
  exact congrArg (TallyState.mk 0 0) hvalidators

theorem deductShares_tallied (t : Attribution) (part : Part) (results : TallyResults) :
    deductShares (validators.map t.info) part.delegation =
      validators.map (t + ofPart part results).info := by
  have hvotes : ∀ v, (t + ofPart part results).votes v = t.votes v := fun v ↦ Option.none_or
  ext1 v
  rw [deductShares, Std.ExtTreeMap.getElem?_map, Std.ExtTreeMap.getElem?_map]
  by_cases hv : part.delegation.validatorAddress = v
  · subst hv
    cases hval : validators[part.delegation.validatorAddress]? with
    | none =>
      rw [Option.map_none]
      dsimp only
      rw [Std.ExtTreeMap.getElem?_map, hval, Option.map_none, Option.map_none]
    | some val =>
      rw [Option.map_some]
      dsimp only
      rw [getElem?_insert_eq, if_pos rfl, Option.map_some, info, info, hvotes, deductions_add,
        deductions_ofPart, if_pos rfl, add_assoc]
  · have hinfo : (t + ofPart part results).info v = t.info v := by
      funext val
      rw [info, info, hvotes, deductions_add, deductions_ofPart, if_neg hv, add_zero]
    rw [hinfo]
    cases validators[part.delegation.validatorAddress]? with
    | none => exact Std.ExtTreeMap.getElem?_map
    | some val => exact (getElem?_insert_ne hv _).trans Std.ExtTreeMap.getElem?_map

theorem setVote_tallied (t : Attribution) (valAddr : String) (options : List WeightedVoteOption) :
    setVote (validators.map t.info) valAddr options =
      validators.map (t + ofVote valAddr options).info := by
  have hdeductions : ∀ v, (t + ofVote valAddr options).deductions v = t.deductions v :=
    fun v ↦ (deductions_add t _ v).trans (add_zero _)
  ext1 v
  rw [setVote, Std.ExtTreeMap.getElem?_map, Std.ExtTreeMap.getElem?_map]
  by_cases hv : valAddr = v
  · subst hv
    cases hval : validators[valAddr]? with
    | none =>
      rw [Option.map_none]
      dsimp only
      rw [Std.ExtTreeMap.getElem?_map, hval, Option.map_none, Option.map_none]
    | some val =>
      have hvote : (t + ofVote valAddr options).votes valAddr = some options := by
        rw [votes_add, votes_ofVote, if_pos rfl, Option.some_or]
      rw [Option.map_some]
      dsimp only
      rw [getElem?_insert_eq, if_pos rfl, Option.map_some, info, info, hdeductions, hvote,
        Option.getD_some]
  · have hinfo : (t + ofVote valAddr options).info v = t.info v := by
      funext val
      rw [info, info, hdeductions, votes_add, votes_ofVote, if_neg (Ne.symm hv), Option.none_or]
    rw [hinfo]
    cases validators[valAddr]? with
    | none => exact Std.ExtTreeMap.getElem?_map
    | some val => exact (getElem?_insert_ne hv _).trans Std.ExtTreeMap.getElem?_map

/-- The power of a position does not depend on what has been attributed. -/
theorem positionVotingPower_tallied (t : Attribution) (pos : PositionState) :
    positionVotingPower pos (validators.map t.info) = positionVotingPower pos validators := by
  unfold positionVotingPower
  cases pos.delegation with
  | none => rfl
  | some del =>
    dsimp only
    rw [Std.ExtTreeMap.getElem?_map]
    cases validators[del.validatorAddress]? with
    | none => rfl
    | some val => rfl

end Attribution

/-! ### What a vote adds -/

section Amounts

variable (T : TallyKeepers) (validators : Map String ValidatorGovInfo)

def optionShare (power : Dec) (option : WeightedVoteOption) : Except Err TallyResults := do
  let weight ← parseWeight T option
  addResult 0 option.option (power.mul weight)

/-- What the options of a vote add to the results. -/
def resultShare (options : List WeightedVoteOption) (power : Dec) : Except Err TallyResults :=
  total (optionShare T power) options

/-- What a vote adds for a delegation with the given power. -/
def countShare (vote : Vote) (delegation : Delegation) (power : Dec) : Except Err Attribution := do
  let results ← (resultShare T vote.options power).mapError
    (.returned "invalid vote weight for voter %s: %w" [.str vote.voter])
  .ok (.ofPart ⟨delegation, power, vote.options⟩ results)

/-- What a vote adds for a delegation of the voter. -/
def delegationShare (vote : Vote) (delegation : Delegation) : Except Err Attribution :=
  match validators[delegation.validatorAddress]? with
  | none => .ok 0
  | some val => do
    let power ← divide (delegation.shares.mulInt val.bondedTokens) val.delegatorShares
    countShare T vote delegation power

/-- What a vote adds for a position of the voter. -/
def positionShare (vote : Vote) (pos : PositionState) : Except Err Attribution :=
  if (positionVotingPower pos validators).isZero then .ok 0
  else
    match pos.delegation with
    | none => .error (.panic "invalid memory address or nil pointer dereference")
    | some delegation => countShare T vote delegation (positionVotingPower pos validators)

/-- What a vote adds for the positions of the voter. -/
def ownedShare (vote : Vote) (voter : AccAddress) : Except Err Attribution := do
  let positions ← (T.getPositionStatesByOwner voter).mapError
    (.wrap "error getting tier positions for %s: %w" [.str vote.voter])
  total (positionShare T validators vote) positions

/-- What a vote adds for the delegations of the voter. -/
def delegatedShare (vote : Vote) (voter : AccAddress) : Except Err Attribution := do
  let delegated ← total (delegationShare T validators vote) (T.iterateDelegations voter).1
  failing (T.iterateDelegations voter).2
  .ok delegated

def voteShare (vote : Vote) : Except Err Attribution := do
  let voter ← T.stringToBytes vote.voter
  let valAddr ← T.bytesToString voter
  let delegated ← delegatedShare T validators vote voter
  let owned ← ownedShare T validators vote voter
  .ok (.ofVote valAddr vote.options + (delegated + owned))

/-- What the second pass adds for a validator. -/
def residualShare (entry : String × ValidatorGovInfo) : Except Err (Dec × TallyResults) :=
  if entry.2.vote.isEmpty then .ok 0
  else if entry.2.delegatorShares.isZero then .ok 0
  else do
    let results ← (resultShare T entry.2.vote (residualPower entry.2)).mapError
      (.returned "invalid vote weight for validator %s: %w" [.str entry.1])
    .ok (residualPower entry.2, results)

variable {T validators}

theorem addResult_eq (results : TallyResults) (option : VoteOption) (power : Dec) :
    addResult results option power = (addResult 0 option power).map (results + ·) := by
  unfold addResult
  split_ifs
  · change _ = Except.ok (results + (0 + Pi.single option power))
    rw [zero_add]
  · rfl

theorem distributeVotingPower_accumulates (options : List WeightedVoteOption) (power : Dec) :
    Accumulates id (distributeVotingPower T options power) (resultShare T options power) :=
  Accumulates.foldlM fun option _ ↦ Accumulates.afterReading fun weight _ results ↦
    addResult_eq results option.option (power.mul weight)

theorem countPower_accumulates (vote : Vote) (d : Delegation) (power : Dec) :
    Accumulates (Attribution.tallied validators) (countPower T vote d power)
      (countShare T vote d power) := by
  intro t
  have hresults : distributeVotingPower T vote.options power t.results = _ :=
    distributeVotingPower_accumulates vote.options power t.results
  rw [countPower, countShare, Attribution.tallied]
  dsimp only
  rw [hresults]
  cases resultShare T vote.options power with
  | error e => rfl
  | ok results =>
    have hpower : t.power + power = (t + .ofPart ⟨d, power, vote.options⟩ results).power := by
      rw [Attribution.power_add, Attribution.power_ofPart]
    exact congrArg Except.ok (congrArg₂ (TallyState.mk · (t.results + results) ·) hpower
      (t.deductShares_tallied ⟨d, power, vote.options⟩ results))

theorem tallyDelegation_accumulates (vote : Vote) (d : Delegation) :
    Accumulates (Attribution.tallied validators) (tallyDelegation T vote · d)
      (delegationShare T validators vote d) := by
  intro t
  have hcount : ∀ power, countPower T vote d power (t.tallied validators) =
      (countShare T vote d power).map fun c ↦ (t + c).tallied validators :=
    fun power ↦ countPower_accumulates vote d power t
  dsimp only
  rw [tallyDelegation, delegationShare, Attribution.getElem?_tallied]
  cases validators[d.validatorAddress]? with
  | none => exact Accumulates.unchanged t
  | some val =>
    change divide (d.shares.mulInt val.bondedTokens) val.delegatorShares >>= _ =
      Except.map _ (divide (d.shares.mulInt val.bondedTokens) val.delegatorShares >>= _)
    cases divide (d.shares.mulInt val.bondedTokens) val.delegatorShares with
    | error e => rfl
    | ok power => exact hcount power

theorem tallyPosition_accumulates (vote : Vote) (pos : PositionState) :
    Accumulates (Attribution.tallied validators) (tallyPosition T vote · pos)
      (positionShare T validators vote pos) := by
  intro t
  have hpower : positionVotingPower pos (t.tallied validators).validators =
      positionVotingPower pos validators := t.positionVotingPower_tallied pos
  dsimp only
  rw [tallyPosition, positionShare, hpower]
  split_ifs
  · exact Accumulates.unchanged t
  · cases pos.delegation with
    | none => rfl
    | some d => exact countPower_accumulates vote d _ t

theorem tallyVote_accumulates (vote : Vote) :
    Accumulates (Attribution.tallied validators) (tallyVote T · vote)
      (voteShare T validators vote) := by
  refine Accumulates.afterReading fun voter _ ↦ Accumulates.afterReading fun valAddr _ t ↦ ?_
  have hset : ({ t.tallied validators with
      validators := setVote (t.tallied validators).validators valAddr vote.options } : TallyState) =
      (t + .ofVote valAddr vote.options).tallied validators := by
    have hpower : t.power = (t + .ofVote valAddr vote.options).power :=
      ((Attribution.power_add t _).trans (add_zero _)).symm
    exact congr (congrArg₂ TallyState.mk hpower (add_zero _).symm)
      (Attribution.setVote_tallied t valAddr vote.options)
  have hdelegations : ∀ u : Attribution,
      (T.iterateDelegations voter).1.foldlM (tallyDelegation T vote) (u.tallied validators) = _ :=
    Accumulates.foldlM fun d _ ↦ tallyDelegation_accumulates vote d
  have hpositions : ∀ (positions : List PositionState) (u : Attribution),
      positions.foldlM (tallyPosition T vote) (u.tallied validators) = _ :=
    fun positions ↦ Accumulates.foldlM fun pos _ ↦ tallyPosition_accumulates vote pos
  dsimp only
  rw [hset, hdelegations, delegatedShare, ownedShare]
  cases total (delegationShare T validators vote) (T.iterateDelegations voter).1 with
  | error e => rfl
  | ok delegated =>
    cases failing (T.iterateDelegations voter).2 with
    | error e => rfl
    | ok _ =>
      cases T.getPositionStatesByOwner voter with
      | error e => rfl
      | ok positions =>
        refine (hpositions positions _).trans ?_
        change _ = Except.map _ (total (positionShare T validators vote) positions >>= _)
        cases total (positionShare T validators vote) positions with
        | error e => rfl
        | ok owned =>
          refine congrArg (fun u ↦ Except.ok (Attribution.tallied validators u)) ?_
          rw [add_assoc, add_assoc]

theorem tallyValidator_accumulates (entry : String × ValidatorGovInfo) :
    Accumulates id (tallyValidator T · entry) (residualShare T entry) := by
  intro s
  have hresults : distributeVotingPower T entry.2.vote (residualPower entry.2) s.2 = _ :=
    distributeVotingPower_accumulates entry.2.vote (residualPower entry.2) s.2
  dsimp only [id]
  rw [tallyValidator, residualShare]
  split_ifs
  · exact congrArg Except.ok (add_zero s).symm
  · exact congrArg Except.ok (add_zero s).symm
  · rw [hresults]
    cases resultShare T entry.2.vote (residualPower entry.2) with
    | error e => rfl
    | ok results => rfl

theorem walkVote_foldlM (votes : List (VoteKey × Vote)) (s : TallyState) (keys : List VoteKey) :
    votes.foldlM (walkVote T) (s, keys) =
      ((votes.map Prod.snd).foldlM (tallyVote T) s).map fun s' ↦
        (s', keys ++ votes.map Prod.fst) := by
  induction votes generalizing s keys with
  | nil =>
    rw [List.map_nil, List.append_nil]
    rfl
  | cons entry rest ih =>
    rw [List.foldlM_cons, List.map_cons, List.map_cons, List.foldlM_cons, walkVote]
    cases tallyVote T s entry.2 with
    | error e => rfl
    | ok s₁ =>
      refine (ih s₁ (keys ++ [entry.1])).trans ?_
      rw [List.append_assoc]
      rfl

theorem filter_votesOf (proposalId : ℕ) (votes : List (VoteKey × Vote)) :
    (votes.filter fun entry ↦ !((votesOf proposalId votes).map Prod.fst).contains entry.1) =
      votes.filter fun entry ↦ entry.1.1 != proposalId := by
  refine List.filter_congr fun entry hentry ↦ ?_
  refine congrArg not ?_
  rw [List.contains_eq_mem, Bool.eq_iff_iff, decide_eq_true_iff]
  constructor
  · intro hmem
    obtain ⟨other, hother, hkey⟩ := List.mem_map.mp hmem
    exact hkey ▸ (List.mem_filter.mp hother).2
  · exact fun hid ↦ List.mem_map_of_mem (List.mem_filter.mpr ⟨hentry, hid⟩)

/-- The tally is what the votes add, and what the second pass adds for the validators they leave. -/
theorem customTallyTierVotes_eq
    (range : List (String × ValidatorGovInfo) → List (String × ValidatorGovInfo)) (proposalId : ℕ)
    (votes : List (VoteKey × Vote)) :
    customTallyTierVotes T range proposalId votes validators =
      (do
        let t ← (total (voteShare T validators) ((votesOf proposalId votes).map Prod.snd)).mapError
          (.returned "error while iterating votes: %w" [])
        let residual ← total (residualShare T) (range (t.tallied validators).validators.toList)
        .ok ((t.power, t.results) + residual,
          votes.filter fun entry ↦ entry.1.1 != proposalId)) := by
  have hwalk : ((votesOf proposalId votes).map Prod.snd).foldlM (tallyVote T)
      ((0 : Attribution).tallied validators) = _ :=
    Accumulates.foldlM (fun vote _ ↦ tallyVote_accumulates vote) 0
  rw [customTallyTierVotes, walkVote_foldlM, ← Attribution.tallied_zero, hwalk]
  cases total (voteShare T validators) ((votesOf proposalId votes).map Prod.snd) with
  | error e => rfl
  | ok t =>
    have hsecond : (range (t.tallied validators).validators.toList).foldlM (tallyValidator T)
        (t.power, t.results) = _ :=
      Accumulates.foldlM (fun entry _ ↦ tallyValidator_accumulates entry) (t.power, t.results)
    simp only [Except.map, Except.mapError, ok_bind, zero_add, List.nil_append]
    rw [filter_votesOf]
    refine (congrArg (· >>= _) hsecond).trans ?_
    cases total (residualShare T) (range (t.tallied validators).validators.toList) with
    | error e => rfl
    | ok residual => rfl

end Amounts

end ChainMain.TieredRewards
