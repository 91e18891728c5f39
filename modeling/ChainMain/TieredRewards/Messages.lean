import ChainMain.TieredRewards.Types

/-!
# Messages, responses and typed events of `x/tieredrewards`

The messages of `tx.proto` with the stateless checks of `types/msgs.go`, the responses the handlers
return, and the typed events of `event.proto` they emit.
-/

set_option autoImplicit false

namespace ChainMain.TieredRewards

open Foundations Decimal OrderedStore

def maxClaimPositionIds : ℕ := 300

structure MsgLockTier where
  owner : String
  id : ℕ
  amount : ℤ
  validatorAddress : String
  triggerExitImmediately : Bool

structure MsgCommitDelegationToTier where
  delegatorAddress : String
  id : ℕ
  validatorAddress : String
  amount : ℤ
  triggerExitImmediately : Bool

structure MsgTierUndelegate where
  owner : String
  positionId : ℕ

structure MsgTierRedelegate where
  owner : String
  positionId : ℕ
  dstValidator : String

structure MsgAddToTierPosition where
  owner : String
  positionId : ℕ
  amount : ℤ

structure MsgTriggerExitFromTier where
  owner : String
  positionId : ℕ

structure MsgClearPosition where
  owner : String
  positionId : ℕ

structure MsgClaimTierRewards where
  owner : String
  positionIds : List ℕ

structure MsgWithdrawFromTier where
  owner : String
  positionId : ℕ

structure MsgExitTierWithDelegation where
  owner : String
  positionId : ℕ
  amount : ℤ

structure MsgUpdateParams where
  authority : String
  params : Params

structure MsgAddTier where
  authority : String
  tier : Tier

structure MsgUpdateTier where
  authority : String
  tier : Tier

structure MsgDeleteTier where
  authority : String
  id : ℕ

/-! ### Stateless checks -/

/-- An address codec of the SDK, for one human-readable prefix: `stringToBytes` is the bech32
decoding, which may accept several spellings of an address and rejects the empty string, and
`bytesToString` the spelling the SDK writes. -/
structure AddressCodec where
  stringToBytes : String → Option ℕ
  bytesToString : ℕ → String
  stringToBytes_bytesToString : ∀ address, stringToBytes (bytesToString address) = some address
  stringToBytes_empty : stringToBytes "" = none

namespace AddressCodec

variable (codec : AddressCodec)

theorem bytesToString_injective : Function.Injective codec.bytesToString := by
  intro a b h
  have hdecoded := congrArg codec.stringToBytes h
  rw [codec.stringToBytes_bytesToString, codec.stringToBytes_bytesToString] at hdecoded
  exact Option.some.inj hdecoded

theorem bytesToString_ne_empty (address : ℕ) : codec.bytesToString address ≠ "" := by
  intro h
  have hdecoded := codec.stringToBytes_bytesToString address
  rw [h, codec.stringToBytes_empty] at hdecoded
  cases hdecoded

end AddressCodec

/-- The checks of an owner field shared by the messages. -/
def validateAddress (codec : AddressCodec) (address text : String) : Except Err Unit :=
  if (codec.stringToBytes address).isNone then .error (.registered .invalidAddress text)
  else .ok ()

/-- The check of an amount field shared by the messages. -/
def validateAmount (amount : ℤ) : Except Err Unit :=
  if 0 < amount then .ok () else .error (.registered .invalidRequest "amount must be positive")

section Validate

variable (acc val : AddressCodec)

def MsgLockTier.validate (msg : MsgLockTier) : Except Err Unit := do
  validateAddress acc msg.owner "invalid owner address"
  if msg.id = 0 then .error (.registered .invalidTierID) else .ok ()
  validateAmount msg.amount
  validateAddress val msg.validatorAddress "invalid validator address"

def MsgCommitDelegationToTier.validate (msg : MsgCommitDelegationToTier) : Except Err Unit := do
  validateAddress acc msg.delegatorAddress "invalid delegator address"
  if msg.id = 0 then .error (.registered .invalidTierID) else .ok ()
  validateAmount msg.amount
  validateAddress val msg.validatorAddress "invalid validator address"

def MsgTierUndelegate.validate (msg : MsgTierUndelegate) : Except Err Unit :=
  validateAddress acc msg.owner "invalid owner address"

def MsgTierRedelegate.validate (msg : MsgTierRedelegate) : Except Err Unit := do
  validateAddress acc msg.owner "invalid owner address"
  validateAddress val msg.dstValidator "invalid destination validator address"

def MsgAddToTierPosition.validate (msg : MsgAddToTierPosition) : Except Err Unit := do
  validateAddress acc msg.owner "invalid owner address"
  validateAmount msg.amount

def MsgTriggerExitFromTier.validate (msg : MsgTriggerExitFromTier) : Except Err Unit :=
  validateAddress acc msg.owner "invalid owner address"

def MsgClearPosition.validate (msg : MsgClearPosition) : Except Err Unit :=
  validateAddress acc msg.owner "invalid owner address"

/-- The duplicate check of `MsgClaimTierRewards.Validate`, with the ids seen so far. -/
def checkDuplicateIds (seen : List ℕ) : List ℕ → Except Err Unit
  | [] => .ok ()
  | id :: rest =>
    if id ∈ seen then
      .error (.registered .invalidRequest "duplicate position_id %d" [.nat id])
    else checkDuplicateIds (id :: seen) rest

def MsgClaimTierRewards.validate (msg : MsgClaimTierRewards) : Except Err Unit := do
  validateAddress acc msg.owner "invalid owner address"
  if msg.positionIds = [] then
    .error (.registered .invalidRequest "position_ids must not be empty")
  else .ok ()
  if maxClaimPositionIds < msg.positionIds.length then
    .error (.registered .invalidRequest "too many position_ids: %d, max: %d"
      [.nat msg.positionIds.length, .nat maxClaimPositionIds])
  else .ok ()
  checkDuplicateIds [] msg.positionIds

def MsgWithdrawFromTier.validate (msg : MsgWithdrawFromTier) : Except Err Unit :=
  validateAddress acc msg.owner "invalid owner address"

def MsgExitTierWithDelegation.validate (msg : MsgExitTierWithDelegation) : Except Err Unit := do
  validateAddress acc msg.owner "invalid owner address"
  validateAmount msg.amount

theorem checkDuplicateIds_iff (seen ids : List ℕ) :
    checkDuplicateIds seen ids = .ok () ↔ ids.Nodup ∧ ∀ i ∈ ids, i ∉ seen := by
  induction ids generalizing seen with
  | nil => simp [checkDuplicateIds]
  | cons id ids ih =>
    unfold checkDuplicateIds
    split_ifs with hseen
    · simp [hseen]
    · rw [ih, List.nodup_cons, List.forall_mem_cons]
      constructor
      · rintro ⟨hnodup, hnew⟩
        exact ⟨⟨fun hmem ↦ hnew id hmem List.mem_cons_self, hnodup⟩, hseen,
          fun i hi hmem ↦ hnew i hi (List.mem_cons_of_mem _ hmem)⟩
      · rintro ⟨⟨hid, hnodup⟩, _, hnew⟩
        refine ⟨hnodup, fun i hi hmem ↦ ?_⟩
        rcases List.mem_cons.mp hmem with rfl | hmem
        · exact hid hi
        · exact hnew i hi hmem

/-- What `Validate` asks of the list. -/
theorem validate_claimTierRewards_iff (acc : AddressCodec) (owner : String) (ids : List ℕ) :
    MsgClaimTierRewards.validate acc ⟨owner, ids⟩ = .ok () ↔
      (acc.stringToBytes owner).isSome ∧ ids ≠ [] ∧ ids.length ≤ maxClaimPositionIds ∧
      ids.Nodup := by
  unfold MsgClaimTierRewards.validate validateAddress
  dsimp only
  cases howner : acc.stringToBytes owner with
  | none => simp [bind, Except.bind]
  | some o =>
    by_cases hnil : ids = []
    · simp [hnil, bind, Except.bind]
    · by_cases hmax : maxClaimPositionIds < ids.length
      · simp [hnil, hmax, bind, Except.bind]
      · have hle := not_lt.mp hmax
        have hiff := checkDuplicateIds_iff [] ids
        simp only [List.not_mem_nil, not_false_iff, implies_true, and_true] at hiff
        simp [hnil, hmax, hle, bind, Except.bind, hiff]

theorem MsgClaimTierRewards.nodup_of_validate {acc : AddressCodec} {msg : MsgClaimTierRewards}
    (h : msg.validate acc = .ok ()) : msg.positionIds.Nodup :=
  ((validate_claimTierRewards_iff _ _ _).mp h).2.2.2

theorem amount_pos_of_validate {acc : AddressCodec} {msg : MsgExitTierWithDelegation}
    (h : msg.validate acc = .ok ()) : 0 < msg.amount := by
  unfold MsgExitTierWithDelegation.validate validateAddress validateAmount at h
  by_cases howner : (acc.stringToBytes msg.owner).isNone
  · rw [if_pos howner] at h
    cases h
  · rw [if_neg howner] at h
    by_contra hnot
    rw [if_neg hnot] at h
    cases h

end Validate

/-! ### Responses -/

/-- `MsgLockTierResponse` and `MsgCommitDelegationToTierResponse`. -/
structure PositionCreatedResponse where
  positionId : ℕ

/-- `MsgTierUndelegateResponse` and `MsgTierRedelegateResponse`. -/
structure CompletionResponse where
  completionTime : Time
  positionId : ℕ

/-- `MsgAddToTierPositionResponse` and `MsgClearPositionResponse`. -/
structure PositionResponse where
  positionId : ℕ

/-- `MsgTriggerExitFromTierResponse`. -/
structure TriggerExitResponse where
  exitUnlockAt : Time
  positionId : ℕ

/-- `MsgClaimTierRewardsResponse`. -/
structure ClaimTierRewardsResponse where
  baseRewards : Coins
  bonusRewards : Coins
  positionIds : List ℕ

/-- `MsgWithdrawFromTierResponse`. -/
structure WithdrawFromTierResponse where
  amount : Coins

/-- `MsgExitTierWithDelegationResponse`. -/
structure ExitTierWithDelegationResponse where
  positionId : ℕ
  transferredAmount : ℤ
  transferredShares : Dec
  fullExit : Bool

/-! ### Typed events -/

inductive TierChangeAction
  | unspecified
  | new
  | update
  | delete
deriving DecidableEq

inductive Event
  | tierChanged (action : TierChangeAction) (tier : Tier)
  | positionCreated (position : Position)
  | delegationCommitted (position : Position)
  | baseRewardsClaimed (positionId : ℕ) (owner : String) (rewards : Coins)
  | bonusRewardsClaimed (positionId : ℕ) (owner : String) (rewards : Coins)
  | positionUndelegated (positionId tierId : ℕ) (owner validator : String) (completionTime : Time)
  | positionRedelegated (positionId tierId : ℕ) (owner srcValidator dstValidator : String)
      (completionTime : Time)
  | positionAmountAdded (positionId tierId : ℕ) (owner : String) (sharesAdded : Dec)
      (amountAdded : ℤ)
  | exitTriggered (positionId tierId : ℕ) (owner : String) (exitUnlockAt : Time)
  | exitCleared (positionId tierId : ℕ) (owner : String)
  | tierRewardsClaimed (owner : String) (positionIds : List ℕ) (baseRewards bonusRewards : Coins)
  | positionWithdrawn (position : Position) (amount : Coins)
  | exitTierWithDelegation (positionId tierId : ℕ) (owner validator : String)
      (transferredAmount : ℤ) (transferredShares : Dec) (fullExit : Bool)

end ChainMain.TieredRewards
