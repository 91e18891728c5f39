import ChainMain.TieredRewards.Chain

/-!
# Keepers that keep the contract

`Keepers.Contract` is assumed of the staking, bank, account and distribution keepers. `keepers` is a
small implementation of them that keeps it (`keepers_contract`), so that the assumption can be met,
and on which the module runs.

The bank knows one denomination. A delegation holds one share for each token, the tokens of a
validator do not move, delegators earn no base rewards, and entries mature only when the chain says
so. An address is spelled in unary, with one letter more than its number; the first letter does not
matter, as the case does not in bech32.

`history` is a short life of the module over these keepers: a tier is added, a position is locked, a
year goes by, the hook before a slash of its validator is called, and another year goes by. In
`exitHistory` its owner then triggers the exit and waits for a year.
-/

set_option autoImplicit false

namespace ChainMain.TieredRewards.Reference

open Foundations Decimal OrderedStore StoreProgram Runs

/-! ### Addresses -/

/-- Addresses in unary. -/
def codec : AddressCodec where
  stringToBytes s :=
    match s.toList with
    | [] => none
    | _ :: letters => if letters.all (· == 'a') then some letters.length else none
  bytesToString n := String.ofList (List.replicate (n + 1) 'a')
  stringToBytes_bytesToString := by
    intro n
    simp [List.replicate_succ]
  stringToBytes_empty := rfl

/-! ### The keepers -/

/-- The state of the other modules. Of a vesting account it keeps the vesting and the free amount
tracked as delegated. -/
structure Outside where
  staking : Staking
  accounts : Map AccAddress AccountKind
  balances : Map AccAddress ℤ
  lastUnbondingId : ℕ
  tracked : Map AccAddress (ℤ × ℤ)

def denom : String := "basecro"

namespace Outside

def balance (o : Outside) (a : AccAddress) : ℤ := (o.balances[a]?).getD 0

def credit (o : Outside) (a : AccAddress) (amount : ℤ) : Outside :=
  { o with balances := o.balances.insert a (o.balance a + amount) }

def debit (o : Outside) (a : AccAddress) (amount : ℤ) : Except Err Outside :=
  if amount ≤ o.balance a then .ok (o.credit a (-amount)) else .error (.keeper "insufficient funds")

/-- Send an amount from one account to another. -/
def send (o : Outside) (src dst : AccAddress) (amount : ℤ) : Except Err Outside :=
  (o.debit src amount).map fun o' ↦ o'.credit dst amount

def setDelegations (o : Outside) (delegations : Map (AccAddress × ValAddress) Dec) : Outside :=
  { o with staking := { o.staking with delegations } }

/-- Delegate, with the tokens taken from the balance or not. -/
def delegate (o : Outside) (del : AccAddress) (amount : ℤ) (v : ValAddress) (subtract : Bool) :
    Except Err (Dec × Outside) :=
  (if subtract then o.debit del amount else .ok o).map fun o' ↦
    (Dec.ofInt amount,
      o'.setDelegations (addShares o.staking.delegations del v (Dec.ofInt amount)))

def takeStake (o : Outside) (del : AccAddress) (v : ValAddress) (shares : Dec) :
    Except Err Outside :=
  match o.staking.delegations[(del, v)]? with
  | none => .error (.registered .noValidatorFound)
  | some held =>
    if shares ≤ held then .ok
      (o.setDelegations (takeShares o.staking.delegations del v held shares))
    else .error (.keeper "not enough delegation shares")

/-- The state with one more unbonding entry. -/
def addUnbonding (o : Outside) (del : AccAddress) (v : ValAddress) (amount : ℤ) : Outside :=
  { o with
    lastUnbondingId := o.lastUnbondingId + 1
    staking :=
      { o.staking with
        unbondingDelegations := o.staking.unbondingDelegations.insert (del, v)
          (((o.staking.unbondingDelegations[(del, v)]?).getD []) ++
            [⟨o.lastUnbondingId + 1, amount⟩]) } }

/-- Move shares to another validator and record the entry, under an id that is not in use. -/
def redelegate (o : Outside) (del : AccAddress) (src dst : ValAddress) (shares : Dec) :
    Except Err (ℕ × Outside) :=
  let id := o.lastUnbondingId + 1
  if src = dst ∨ (o.staking.redelegations[id]?).isSome then
    .error (.keeper "invalid redelegation")
  else
    (o.takeStake del src shares).map fun o' ↦
      (id,
        { o with
          lastUnbondingId := id
          staking :=
            { o.staking with
              delegations := addShares o'.staking.delegations del dst shares
              redelegations := o.staking.redelegations.insert id ⟨del, src, dst⟩ } })

end Outside

def unbondingTime : Duration := 28 * 24 * 60 * 60 * second

def keepers : Keepers Outside where
  accCodec := codec
  valCodec := codec
  authority := codec.bytesToString 1
  moduleAddress _ := 0
  addressModule _ _ _ id nonce := 10 + 10 * id + nonce
  staking := Outside.staking
  account o a := o.accounts[a]?
  hasModuleAccount _ _ := true
  balances o a := Coins.single denom (o.balance a)
  spendableCoins o a := Coins.single denom (o.balance a)
  bondDenom _ := denom
  newAccount o a := { o with accounts := o.accounts.insert a .plain }
  sendCoins _ o src dst coins := o.send src dst (coins.amountOf denom)
  sendCoinsFromModuleToAccount _ o _ dst coins := o.send 0 dst (coins.amountOf denom)
  withdrawDelegationRewards _ o _ _ := .ok (∅, o)
  setWithdrawAddr _ o _ _ := .ok o
  deleteDelegatorWithdrawAddr _ o _ _ := .ok o
  validateUnbondAmount _ _ _ amount := .ok (Dec.ofInt amount)
  delegate _ o del amount _ v subtract := o.delegate del amount v subtract
  unbond _ o del v shares :=
    (o.takeStake del v shares).map fun o' ↦ ((shares.truncateInt, []), o')
  undelegate ctx o del v shares :=
    (o.takeStake del v shares).map fun o' ↦
      (((ctx.blockTime + unbondingTime, shares.truncateInt), []),
        o'.addUnbonding del v shares.truncateInt)
  beginRedelegation ctx o del src dst shares :=
    (o.redelegate del src dst shares).map fun moved ↦
      (((ctx.blockTime + unbondingTime, moved.1), []), moved.2)

/-! ### The contract -/

theorem map_eq_ok {α β : Type} {x : Except Err α} {f : α → β} {b : β} (h : x.map f = .ok b) :
    ∃ a, x = .ok a ∧ f a = b := by
  cases x with
  | error e => cases h
  | ok a => exact ⟨a, rfl, Except.ok.inj h⟩

namespace Outside

variable {o o' : Outside} {del : AccAddress} {v : ValAddress} {shares : Dec}

structure MovesCoins (o o' : Outside) : Prop where
  staking : o'.staking = o.staking
  accounts : o'.accounts = o.accounts

theorem MovesCoins.leavesStaking (h : o.MovesCoins o') : keepers.LeavesStaking o o' := by
  refine ⟨h.staking, fun a ha ↦ ?_⟩
  change (o'.accounts[a]?).isSome
  rw [h.accounts]
  exact ha

theorem movesCoins_debit {a : AccAddress} {amount : ℤ} (h : o.debit a amount = .ok o') :
    o.MovesCoins o' := by
  unfold debit at h
  split_ifs at h
  obtain rfl := Except.ok.inj h
  exact ⟨rfl, rfl⟩

theorem movesCoins_send {src dst : AccAddress} {amount : ℤ} (h : o.send src dst amount = .ok o') :
    o.MovesCoins o' := by
  obtain ⟨o₁, hdebit, rfl⟩ := map_eq_ok h
  exact ⟨(movesCoins_debit hdebit).staking, (movesCoins_debit hdebit).accounts⟩

theorem takeStake_ok (h : o.takeStake del v shares = .ok o') :
    ∃ held, o.staking.delegations[(del, v)]? = some held ∧ shares ≤ held ∧
      o' = o.setDelegations (takeShares o.staking.delegations del v held shares) := by
  unfold takeStake at h
  cases hheld : o.staking.delegations[(del, v)]? with
  | none =>
    rw [hheld] at h
    cases h
  | some held =>
    rw [hheld] at h
    dsimp only at h
    split_ifs at h with hle
    exact ⟨held, rfl, hle, (Except.ok.inj h).symm⟩

theorem persists_of_eq (haccounts : o'.accounts = o.accounts)
    (hvalidators : o'.staking.validators = o.staking.validators) : keepers.Persists o o' := by
  constructor
  · intro a ha
    change (o'.accounts[a]?).isSome
    rw [haccounts]
    exact ha
  · intro u
    change o'.staking.isBonded u = o.staking.isBonded u
    unfold Staking.isBonded
    rw [hvalidators]

theorem removesEmpty_nil (o o' : Outside) : keepers.RemovesEmpty [] o o' := by
  intro u hu
  cases hu

end Outside

theorem keepers_contract : keepers.Contract where
  newAccount_staking _ _ := rfl
  newAccount_self o a := by
    change ((o.accounts.insert a .plain)[a]?).isSome
    rw [getElem?_insert_eq, if_pos rfl]
    rfl
  newAccount_other o a b hb := by
    change ((o.accounts.insert a .plain)[b]?).isSome
    rw [getElem?_insert_eq]
    split_ifs
    · rfl
    · exact hb
  sendCoins _ _ _ _ _ _ h := (Outside.movesCoins_send h).leavesStaking
  sendCoinsFromModuleToAccount _ _ _ _ _ _ h := (Outside.movesCoins_send h).leavesStaking
  withdrawDelegationRewards _ o _ _ _ _ h := by
    obtain ⟨_, rfl⟩ := Prod.mk.inj (Except.ok.inj h)
    exact ⟨rfl, fun _ ha ↦ ha⟩
  setWithdrawAddr _ _ _ _ _ h := by
    obtain rfl := Except.ok.inj h
    exact ⟨rfl, fun _ ha ↦ ha⟩
  deleteDelegatorWithdrawAddr _ _ _ _ _ h := by
    obtain rfl := Except.ok.inj h
    exact ⟨rfl, fun _ ha ↦ ha⟩
  delegate _ o del amount _ v subtract shares o' h := by
    obtain ⟨o₁, hpaid, heq⟩ := map_eq_ok h
    obtain ⟨rfl, rfl⟩ := Prod.mk.inj heq
    have hmoves : o.MovesCoins o₁ := by
      cases subtract with
      | true => exact Outside.movesCoins_debit hpaid
      | false =>
        obtain rfl := Except.ok.inj hpaid
        exact ⟨rfl, rfl⟩
    have hvalidators := congrArg Staking.validators hmoves.staking
    have hredelegations := congrArg Staking.redelegations hmoves.staking
    have hunbonding := congrArg Staking.unbondingDelegations hmoves.staking
    exact ⟨Outside.persists_of_eq hmoves.accounts hvalidators, rfl, hredelegations, hunbonding⟩
  unbond _ o del v shares amount removed o' h := by
    obtain ⟨o₁, htake, heq⟩ := map_eq_ok h
    obtain ⟨hresult, rfl⟩ := Prod.mk.inj heq
    obtain ⟨_, rfl⟩ := Prod.mk.inj hresult
    obtain ⟨held, hheld, hle, rfl⟩ := Outside.takeStake_ok htake
    exact ⟨Outside.persists_of_eq rfl rfl, Outside.removesEmpty_nil o _,
      ⟨held, hheld, hle, rfl⟩, rfl, rfl⟩
  undelegate ctx o del v shares completion removed o' h := by
    obtain ⟨o₁, htake, heq⟩ := map_eq_ok h
    obtain ⟨hresult, rfl⟩ := Prod.mk.inj heq
    obtain ⟨_, rfl⟩ := Prod.mk.inj hresult
    obtain ⟨held, hheld, hle, rfl⟩ := Outside.takeStake_ok htake
    exact ⟨Outside.persists_of_eq rfl rfl, Outside.removesEmpty_nil o _,
      ⟨held, hheld, hle, rfl⟩, rfl, Or.inr ⟨_, rfl⟩⟩
  beginRedelegation ctx o del src dst shares completion unbondingId removed o' h := by
    obtain ⟨moved, hmoved, heq⟩ := map_eq_ok h
    obtain ⟨hresult, rfl⟩ := Prod.mk.inj heq
    obtain ⟨hcompletion, rfl⟩ := Prod.mk.inj hresult
    obtain ⟨_, rfl⟩ := Prod.mk.inj hcompletion
    unfold Outside.redelegate at hmoved
    dsimp only at hmoved
    split_ifs at hmoved with hbad
    obtain ⟨hne, hfresh⟩ := not_or.mp hbad
    obtain ⟨o₁, htake, rfl⟩ := map_eq_ok hmoved
    obtain ⟨held, hheld, hle, rfl⟩ := Outside.takeStake_ok htake
    refine ⟨hne, Outside.persists_of_eq rfl rfl, Outside.removesEmpty_nil o _,
      ⟨held, shares, hheld, hle, rfl⟩, ?_, ?_, rfl⟩
    · intro _
      exact Option.not_isSome_iff_eq_none.mp hfresh
    · exact (if_neg (Nat.succ_ne_zero _)).symm

/-! ### A history -/

/-- A check that whoever signs has an account and that no position holds it. -/
def signerIsFree (w : World Outside) (signer : String) : Bool :=
  match codec.stringToBytes signer with
  | none => true
  | some b => (w.ext.accounts[b]?).isSome &&
      w.store.positions.toList.all fun entry ↦
      codec.stringToBytes entry.2.delegatorAddress != some b

theorem signerIsFree_sound {w : World Outside} {signer : String} (h : signerIsFree w signer) :
    SignerIsFree keepers w signer := by
  intro b hb
  unfold signerIsFree at h
  rw [show codec.stringToBytes signer = some b from hb] at h
  simp only [Bool.and_eq_true, List.all_eq_true, bne_iff_ne] at h
  refine ⟨h.1, ?_⟩
  rintro ⟨id, p, hp, haccount⟩
  exact h.2 (id, p) (mem_toList.mpr hp) haccount

theorem eq_ok_of_isOk {outcome : Except Err PUnit} (h : outcome.isOk) : outcome = .ok ⟨⟩ := by
  cases outcome with
  | ok u => rfl
  | error e => cases h

theorem succeeds_exec {x : M Outside PUnit} {w : World Outside} (h : (exec x w).1.isOk) :
    Succeeds x w ⟨⟩ (exec x w).2 :=
  Prod.ext (eq_ok_of_isOk h) rfl

theorem succeeds_exec_of_any {α : Type} {x : M Outside α} {w : World Outside} {P : α → Bool}
    (h : (exec x w).1.toOption.any P) : ∃ a, P a ∧ Succeeds x w a (exec x w).2 := by
  cases hx : (exec x w).1 with
  | ok a =>
    rw [hx] at h
    exact ⟨a, h, Prod.ext hx rfl⟩
  | error e =>
    rw [hx] at h
    cases h

/-- Two bonded validators, a user with funds, the authority, and a rewards pool with funds. -/
def outside₀ : Outside where
  staking :=
    { validators := ((∅ : Map ValAddress Validator).insert 1
        ⟨.bonded, 5000000, Dec.ofInt 5000000⟩).insert 2 ⟨.bonded, 5000000, Dec.ofInt 5000000⟩
      delegations := ∅
      unbondingDelegations := ∅
      redelegations := ∅ }
  accounts := (((∅ : Map AccAddress AccountKind).insert 0 .plain).insert 1 .plain).insert 2 .plain
  balances := ((∅ : Map AccAddress ℤ).insert 0 1000000000).insert 2 2000000
  lastUnbondingId := 0
  tracked := ∅

def world₀ : World Outside where
  store := { Store.empty with params := some Params.default }
  ext := outside₀
  ctx := ⟨second, 1, []⟩
  emitted := []

def yearLater (w : World Outside) : World Outside :=
  { w with
    ctx := ⟨w.ctx.blockTime + secondsPerYear * second, w.ctx.blockHeight + 1, w.ctx.headerHash⟩ }

def user : String := codec.bytesToString 2

/-- A tier with a bonus of five percent a year and a lock of thirty days is added. -/
def addTier : Msg :=
  .addTier ⟨keepers.authority, ⟨1, 30 * 24 * 60 * 60 * second, ⟨50000000000000000⟩, 1000, false⟩⟩

/-- The user locks tokens with the first validator. -/
def lockTier : Msg := .lockTier ⟨user, 1, 1000000, codec.bytesToString 1, false⟩

/-- The hook before the first validator is slashed by a tenth. -/
def slash : M Outside PUnit := beforeValidatorSlashed keepers 1 ⟨100000000000000000⟩

def world₁ : World Outside := (deliver keepers addTier world₀).2

def world₂ : World Outside := (deliver keepers lockTier world₁).2

def world₃ : World Outside := (exec slash (yearLater world₂)).2

def world₄ : World Outside := yearLater world₃

def history : List (Transition (World Outside) Label) :=
  [⟨world₀, .deliver addTier, world₁⟩, ⟨world₁, .deliver lockTier, world₂⟩,
    ⟨world₂, .beginBlock, yearLater world₂⟩,
    ⟨yearLater world₂, .validatorSlashed 1 ⟨100000000000000000⟩, world₃⟩,
    ⟨world₃, .beginBlock, world₄⟩]

theorem fresh_world₀ : Fresh keepers world₀ where
  store := ⟨Params.default, rfl, rfl⟩
  emitted := rfl
  time := by decide
  tidy := by
    refine ⟨fun a _ u ↦ ?_, fun a _ u red hu ↦ ?_, ?_, fun a _ u ↦ ?_⟩
    · exact Std.ExtTreeMap.getElem?_empty
    · cases (Std.ExtTreeMap.getElem?_empty.symm.trans hu)
    · exact Std.ExtTreeMap.getElem?_empty
    · change (((∅ : Map (AccAddress × ValAddress) (List UnbondingEntry))[(a, u)]?).isSome) = false
      rw [Std.ExtTreeMap.getElem?_empty]
      rfl

theorem chainStep_yearLater (w : World Outside) :
    ChainStep keepers w .beginBlock (yearLater w) := by
  refine .beginBlock _ ?_
  change w.ctx.blockTime ≤ w.ctx.blockTime + secondsPerYear * second
  exact le_add_of_nonneg_right (by decide)

theorem chainStep_deliver {w : World Outside} {msg : Msg} (h : signerIsFree w msg.signer) :
    ChainStep keepers w (.deliver msg) (deliver keepers msg w).2 :=
  .deliver msg (signerIsFree_sound h)

theorem run_history : Run (ChainStep keepers) world₀ history world₄ :=
  .cons (chainStep_deliver (by decide +kernel)) (.cons (chainStep_deliver (by decide +kernel))
    (.cons (chainStep_yearLater _) (.cons (.validatorSlashed _ (succeeds_exec (by decide +kernel)))
      (.cons (chainStep_yearLater _) .nil))))

theorem reaches_history : Reaches keepers history world₄ := ⟨world₀, fresh_world₀, run_history⟩

/-- The position at the end of the history. -/
def position : Position where
  id := 0
  owner := user
  tierId := 1
  lastBonusAccrual := second
  lastEventSeq := 0
  lastKnownBonded := true
  exitTriggeredAt := 0
  exitUnlockAt := 0
  createdAtHeight := 1
  createdAtTime := second
  delegatorAddress := codec.bytesToString 10

/-- The owner moves the position to the second validator. -/
def redelegate : Msg := .tierRedelegate ⟨user, 0, codec.bytesToString 2⟩

/-- The world in which the position has moved. -/
def redelegated : World Outside := (deliver keepers redelegate world₄).2

theorem reachable_redelegated : Reachable keepers redelegated :=
  ⟨_, world₀, fresh_world₀, run_history.snoc (chainStep_deliver (by decide +kernel))⟩

/-- The owner triggers the exit of the position. -/
def triggerExit : Msg := .triggerExitFromTier ⟨user, 0⟩

/-- The world in which the exit is triggered. -/
def world₅ : World Outside := (deliver keepers triggerExit world₄).2

def world₆ : World Outside := yearLater world₅

/-- The history in which the position is exiting and its lock has run out. -/
def exitHistory : List (Transition (World Outside) Label) :=
  history ++ [⟨world₄, .deliver triggerExit, world₅⟩, ⟨world₅, .beginBlock, world₆⟩]

theorem reaches_exitHistory : Reaches keepers exitHistory world₆ :=
  ⟨world₀, fresh_world₀, run_history.append
    (.cons (chainStep_deliver (by decide +kernel)) (.cons (chainStep_yearLater _) .nil))⟩

end ChainMain.TieredRewards.Reference
