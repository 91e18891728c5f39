import ChainMain.TieredRewards.ForcedExitSteps

/-!
# Claims of several positions

`ClaimTierRewards` loads the positions of its list first and then settles one after the other, while
every settlement takes references from the events the next ones read and coins from the pool the
next ones are paid from. The books (`ClaimBooks`) keep what a claim changes: the store, the balances
and the totals. What a position is due is a bill (`Bill`), and it does not depend on which other
positions were claimed before (`due_of_claimed`). So a claim of the keeper is one entry in the books
(`claim_books`, `claim_of_books`), entries for different positions of one owner can be swapped
(`ClaimBooks.settle_comm`), and a batch comes to the same in every order and in separate messages.

Of the distribution module it is assumed that the rewards of a delegation do not depend on the
claims of others (`Keepers.ClaimContract`).
-/

set_option autoImplicit false

namespace ChainMain.TieredRewards

open Foundations Decimal OrderedStore StoreProgram

variable {σ : Type}
variable {base : Coins} {ids ids' : List ℕ} {p : Position} {pos : PositionState} {w : World σ}
  {id : ℕ}

/-! ### Coins -/

theorem amountOf_insert (coins : Coins) (denom denom' : String) (amount : ℤ) :
    Coins.amountOf (coins.insert denom amount) denom' =
      if denom = denom' then amount else coins.amountOf denom' := by
  unfold Coins.amountOf
  rw [getElem?_insert_eq]
  split_ifs <;> rfl

theorem amountOf_empty (denom : String) : Coins.amountOf ∅ denom = 0 := by
  unfold Coins.amountOf
  rw [Std.ExtTreeMap.getElem?_empty]
  rfl

theorem amountOf_single_eq (denom denom' : String) (amount : ℤ) :
    (Coins.single denom amount).amountOf denom' = if denom' = denom then amount else 0 := by
  unfold Coins.single
  split_ifs with hzero hdenom hdenom
  · rw [amountOf_empty, hzero]
  · exact amountOf_empty _
  · rw [amountOf_insert, if_pos hdenom.symm]
  · rw [amountOf_insert, if_neg (Ne.symm hdenom), amountOf_empty]

theorem amountOf_foldl (entries : List (String × ℤ)) (acc : Coins) (denom : String) :
    Coins.amountOf
      (entries.foldl (fun acc coin ↦ acc.insert coin.1 (acc.amountOf coin.1 + coin.2)) acc)
        denom =
      acc.amountOf denom + (entries.map fun coin ↦ if coin.1 = denom then coin.2 else 0).sum := by
  induction entries generalizing acc with
  | nil => simp
  | cons coin entries ih =>
    rw [List.foldl_cons, ih, amountOf_insert, List.map_cons, List.sum_cons, ← add_assoc]
    split_ifs with hdenom
    · rw [hdenom]
    · rw [add_zero]

theorem amountOf_add (coins others : Coins) (denom : String) :
    (coins.add others).amountOf denom = coins.amountOf denom + others.amountOf denom := by
  unfold Coins.add
  rw [amountOf_foldl, ← List.sum_toFinset _ (nodup_toList others)]
  congr 1
  unfold Coins.amountOf
  cases hamount : others[denom]? with
  | none =>
    refine Finset.sum_eq_zero fun coin hcoin ↦ if_neg ?_
    rintro rfl
    rw [mem_toList.mp (List.mem_toFinset.mp hcoin)] at hamount
    cases hamount
  | some amount =>
    rw [Finset.sum_eq_single (denom, amount)]
    · exact if_pos rfl
    · refine fun coin hcoin hne ↦ if_neg ?_
      rintro rfl
      rw [mem_toList.mp (List.mem_toFinset.mp hcoin)] at hamount
      exact hne (congrArg (Prod.mk coin.1) (Option.some.inj hamount))
    · exact fun habsent ↦ absurd (List.mem_toFinset.mpr (mem_toList.mpr hamount)) habsent

/-- The pool covers a bonus when it has as many coins of the denomination. -/
theorem poolCovers_iff {K : Keepers σ} {ext : σ} {bonus : ℤ} (hbonus : bonus ≠ 0) :
    K.poolCovers ext bonus ↔
      bonus ≤ (K.balances ext (K.moduleAddress rewardsPoolName)).amountOf (K.bondDenom ext) := by
  unfold Keepers.poolCovers Coins.isAllGTE
  simp only [List.all_eq_true, mem_single, decide_eq_true_eq]
  constructor
  · intro h
    exact h (K.bondDenom ext, bonus) ⟨hbonus, rfl⟩
  · rintro h coin ⟨_, rfl⟩
    exact h

/-! ### What the other modules do -/

/-- The rewards of a delegation: the coins a withdrawal returns, and what it adds to the balances of
accounts. None of it concerns the account `pool`. -/
structure Rewards (pool : AccAddress) where
  coins : Coins
  moved : AccAddress → String → ℤ
  moved_pool : ∀ denom, moved pool denom = 0

def Keepers.pool (K : Keepers σ) : AccAddress := K.moduleAddress rewardsPoolName

/-- The balance of an account in a denomination. -/
def Keepers.balance (K : Keepers σ) (ext : σ) (a : AccAddress) (denom : String) : ℤ :=
  (K.balances ext a).amountOf denom

/-- What is assumed of bank and distribution. The rewards of a delegation are a function of their
own, which a withdrawal of the rewards of another delegation and a payment of the pool do not
change; the pool can pay what it has to whoever receives coins, and a payment moves that amount. -/
structure Keepers.ClaimContract (K : Keepers σ)
    (rewards : σ → AccAddress → ValAddress → Option (Rewards K.pool))
    (receives : σ → AccAddress → Bool) : Prop where
  withdraws : ∀ ctx ext d v r, rewards ext d v = some r →
    ∃ ext', K.withdrawDelegationRewards ctx ext d v = .ok (r.coins, ext')
  withdrawn : ∀ ctx ext d v coins ext', K.withdrawDelegationRewards ctx ext d v =
    .ok (coins, ext') → ∃ r, rewards ext d v = some r ∧ r.coins = coins ∧
      (∀ a denom, K.balance ext' a denom = K.balance ext a denom + r.moved a denom) ∧
      K.bondDenom ext' = K.bondDenom ext ∧ receives ext' = receives ext ∧
      ∀ d' v', (d', v') ≠ (d, v) → rewards ext' d' v' = rewards ext d' v'
  pays : ∀ ctx ext owner amount, 0 < amount → K.poolCovers ext amount → receives ext owner = true →
    ∃ ext', K.sendCoinsFromModuleToAccount ctx ext rewardsPoolName owner
      (Coins.single (K.bondDenom ext) amount) = .ok ext'
  paid : ∀ ctx ext owner amount ext',
    K.sendCoinsFromModuleToAccount ctx ext rewardsPoolName owner
      (Coins.single (K.bondDenom ext) amount) = .ok ext' →
    receives ext owner = true ∧
      (∀ a denom, K.balance ext' a denom = K.balance ext a denom +
        ((if a = owner ∧ denom = K.bondDenom ext then amount else 0) -
          if a = K.pool ∧ denom = K.bondDenom ext then amount else 0)) ∧
      K.bondDenom ext' = K.bondDenom ext ∧ receives ext' = receives ext ∧
      ∀ d v, rewards ext' d v = rewards ext d v

/-! ### The books -/

structure Bill (pool : AccAddress) where
  position : Position
  validator : ValAddress
  settled : Position
  owner : AccAddress
  rewards : Rewards pool
  bonus : ℤ
  bonus_nonneg : 0 ≤ bonus

/-- The store, the balances, and the rewards claimed so far. -/
@[ext]
structure ClaimBooks where
  store : Store
  balance : AccAddress → String → ℤ
  base : String → ℤ
  bonus : String → ℤ

section Books

variable {pool : AccAddress} (denom : String)

/-- The books after a bill whose bonus is in the given denomination. -/
def ClaimBooks.enter (B : ClaimBooks) (b : Bill pool) : ClaimBooks where
  store := (B.store.replayed b.position b.validator).putPosition b.settled
  balance := fun a d ↦ B.balance a d + b.rewards.moved a d +
    ((if a = b.owner ∧ d = denom then b.bonus else 0) - if a = pool ∧ d = denom then b.bonus else 0)
  base := fun d ↦ B.base d + b.rewards.coins.amountOf d
  bonus := fun d ↦ B.bonus d + if d = denom then b.bonus else 0

/-- A bill is entered if the pool can pay the bonus. -/
def ClaimBooks.settle (B : ClaimBooks) (b : Bill pool) : Option ClaimBooks :=
  if b.bonus = 0 ∨ b.bonus ≤ B.balance pool denom then some (B.enter denom b) else none

/-- The entry of a position, if it can be claimed; a position without stake is passed over. -/
def ClaimBooks.claim (due : ℕ → Option (Option (Bill pool))) (B : ClaimBooks) (id : ℕ) :
    Option ClaimBooks :=
  match due id with
  | none => none
  | some none => some B
  | some (some b) => B.settle denom b

def ClaimBooks.claims (due : ℕ → Option (Option (Bill pool))) (B : ClaimBooks) (ids : List ℕ) :
    Option ClaimBooks :=
  ids.foldl (fun books id ↦ books.bind fun B ↦ B.claim denom due id) (some B)

/-- Two settlements of different positions do not see each other in the store. -/
theorem Store.replayed_putPosition_comm (s : Store) (p p' q q' : Position) (v u : ValAddress)
    (h : p'.id ≠ q'.id) :
    (((s.replayed p v).putPosition p').replayed q u).putPosition q' =
      (((s.replayed q u).putPosition q').replayed p v).putPosition p' := by
  have hevents : (((s.replayed p v).putPosition p').replayed q u).validatorEvents =
      (((s.replayed q u).putPosition q').replayed p v).validatorEvents := by
    refine Std.ExtTreeMap.ext_getElem? fun k ↦ ?_
    obtain ⟨x, n⟩ := k
    have hread : ∀ (r r' t : Position) (y z : ValAddress),
        (((s.replayed r y).putPosition r').replayed t z).validatorEvents[(x, n)]? =
          if x = z ∧ t.lastEventSeq < n then dropReference (s.replayed r y).validatorEvents[(x, n)]?
          else (s.replayed r y).validatorEvents[(x, n)]? :=
            fun r r' t y z ↦ getElem?_replayed _ _ _ _ _
    rw [hread, hread, getElem?_replayed, getElem?_replayed]
    split_ifs <;> rfl
  have hpositions : (s.positions.insert p'.id p').insert q'.id q' =
      (s.positions.insert q'.id q').insert p'.id p' := by
    refine Std.ExtTreeMap.ext_getElem? fun k ↦ ?_
    rw [getElem?_insert_eq, getElem?_insert_eq, getElem?_insert_eq, getElem?_insert_eq]
    split_ifs with hq hp
    · exact absurd (hp.trans hq.symm) h
    all_goals rfl
  unfold Store.putPosition Store.replayed Store.decrementEvents at *
  dsimp only at hevents ⊢
  rw [hevents, hpositions]

theorem ClaimBooks.enter_comm (B : ClaimBooks) {b c : Bill pool}
    (hid : b.settled.id ≠ c.settled.id) :
    (B.enter denom b).enter denom c = (B.enter denom c).enter denom b := by
  unfold ClaimBooks.enter
  ext1
  · exact Store.replayed_putPosition_comm _ _ _ _ _ _ _ hid
  · funext a d
    dsimp only
    ring
  · funext d
    dsimp only
    ring
  · funext d
    dsimp only
    ring

theorem ClaimBooks.balance_pool_enter (B : ClaimBooks) (b : Bill pool) :
    (B.enter denom b).balance pool denom =
      B.balance pool denom + ((if pool = b.owner then b.bonus else 0) - b.bonus) := by
  unfold ClaimBooks.enter
  dsimp only
  rw [b.rewards.moved_pool]
  simp

/-- Two bills of different positions with the same owner can be entered in either order. -/
theorem ClaimBooks.settle_comm (B : ClaimBooks) {b c : Bill pool}
    (hid : b.settled.id ≠ c.settled.id) (howner : b.owner = c.owner) :
    ((B.settle denom b).bind fun B ↦ B.settle denom c) =
      (B.settle denom c).bind fun B ↦ B.settle denom b := by
  have hboth : ∀ x y : Bill pool, ((B.settle denom x).bind fun B ↦ B.settle denom y) =
      if (x.bonus = 0 ∨ x.bonus ≤ B.balance pool denom) ∧
        (y.bonus = 0 ∨ y.bonus ≤ (B.enter denom x).balance pool denom) then
        some ((B.enter denom x).enter denom y)
      else none := by
    intro x y
    unfold ClaimBooks.settle
    rw [ite_and]
    by_cases hx : x.bonus = 0 ∨ x.bonus ≤ B.balance pool denom
    · rw [if_pos hx, if_pos hx]
      rfl
    · rw [if_neg hx, if_neg hx]
      rfl
  have hb := b.bonus_nonneg
  have hc := c.bonus_nonneg
  rw [hboth, hboth, B.enter_comm denom hid]
  -- whether the pool covers both does not depend on which one is paid first
  refine if_congr ?_ rfl rfl
  rw [B.balance_pool_enter, B.balance_pool_enter, howner]
  split_ifs <;> omega

/-- Claims of different positions with the same owner come to the same in every order. -/
theorem ClaimBooks.claims_perm {due : ℕ → Option (Option (Bill pool))}
    (hperm : ids.Perm ids')
    (hid : ∀ i ∈ ids, ∀ b, due i = some (some b) → b.settled.id = i)
    (howner : ∀ i ∈ ids, ∀ j ∈ ids, ∀ b c, due i = some (some b) → due j = some (some c) →
      b.owner = c.owner) (B : ClaimBooks) :
    B.claims denom due ids = B.claims denom due ids' := by
  refine hperm.foldl_eq' ?_ (some B)
  intro i hi j hj books
  cases books with
  | none => rfl
  | some B =>
    rw [Option.bind_some, Option.bind_some]
    unfold ClaimBooks.claim
    cases hdue : due i with
    | none => cases due j with
      | none => rfl
      | some c => cases c <;> simp
    | some b =>
      cases hdue' : due j with
      | none => cases b <;> simp
      | some c =>
        cases b with
        | none => simp
        | some b =>
          cases c with
          | none => simp
          | some c =>
            by_cases hij : i = j
            · subst hij
              obtain rfl := Option.some.inj (Option.mem_unique hdue hdue')
              rfl
            · have hne : b.settled.id ≠ c.settled.id := by
                rw [hid i hi b hdue, hid j hj c hdue']
                exact hij
              exact B.settle_comm denom hne (howner i hi j hj b c hdue hdue')

end Books

/-! ### What a position is due -/

section Due

variable (K : Keepers σ) (rewards : σ → AccAddress → ValAddress → Option (Rewards K.pool))
  (receives : σ → AccAddress → Bool)

/-- The bill of a position with a stake, unless the claim is refused whatever the pool holds. -/
def Keepers.bill (w : World σ) (p : Position) (a : AccAddress) (v : ValAddress) (s : Dec) :
    Option (Bill K.pool) :=
  match rewards w.ext a v, w.store.tiers[p.tierId]?, (K.staking w.ext).validators[v]?,
    K.accCodec.stringToBytes p.owner with
  | some r, some tier, some val, some owner =>
    if h : 0 ≤ w.store.bonus p s tier v val.isBonded val.tokensPerShare w.ctx.blockTime ∧
        (w.store.bonus p s tier v val.isBonded val.tokensPerShare w.ctx.blockTime = 0 ∨
          receives w.ext owner = true) then
      some
        { position := p
          validator := v
          settled := w.store.settled p s tier v w.ctx.blockTime
          owner := owner
          rewards := r
          bonus := w.store.bonus p s tier v val.isBonded val.tokensPerShare w.ctx.blockTime
          bonus_nonneg := h.1 }
    else none
  | _, _, _, _ => none

/-- What the position with an id is due: nothing if it has no stake. -/
def Keepers.due (w : World σ) (id : ℕ) : Option (Option (Bill K.pool)) :=
  match w.store.positions[id]? with
  | none => none
  | some p =>
    match K.accCodec.stringToBytes p.delegatorAddress with
    | none => none
    | some a =>
      match ((K.staking w.ext).delegationsOf a).head? with
      | none => some none
      | some (v, s) => (K.bill rewards receives w p a v s).map some

variable {K rewards receives} {w w' : World σ} {id : ℕ} {pos : PositionState} {a : AccAddress}
  {v : ValAddress} {s : Dec}

theorem bill_of {r : Rewards K.pool} {tier : Tier} {val : Validator} {owner : AccAddress}
    (hrewards : rewards w.ext a v = some r) (htier : w.store.tiers[p.tierId]? = some tier)
    (hval : (K.staking w.ext).validators[v]? = some val)
    (howner : K.accCodec.stringToBytes p.owner = some owner)
    (hbonus : 0 ≤ w.store.bonus p s tier v val.isBonded val.tokensPerShare w.ctx.blockTime)
    (hreceives : w.store.bonus p s tier v val.isBonded val.tokensPerShare w.ctx.blockTime = 0 ∨
      receives w.ext owner = true) :
    K.bill rewards receives w p a v s = some
      { position := p
        validator := v
        settled := w.store.settled p s tier v w.ctx.blockTime
        owner := owner
        rewards := r
        bonus := w.store.bonus p s tier v val.isBonded val.tokensPerShare w.ctx.blockTime
        bonus_nonneg := hbonus } := by
  unfold Keepers.bill
  simp only [hrewards, htier, hval, howner]
  exact dif_pos ⟨hbonus, hreceives⟩

theorem bill_cases {b : Bill K.pool} (h : K.bill rewards receives w p a v s = some b) :
    ∃ tier val, rewards w.ext a v = some b.rewards ∧ w.store.tiers[p.tierId]? = some tier ∧
      (K.staking w.ext).validators[v]? = some val ∧
      K.accCodec.stringToBytes p.owner = some b.owner ∧
      b.position = p ∧ b.validator = v ∧ b.settled = w.store.settled p s tier v w.ctx.blockTime ∧
      b.bonus = w.store.bonus p s tier v val.isBonded val.tokensPerShare w.ctx.blockTime ∧
      (b.bonus = 0 ∨ receives w.ext b.owner = true) := by
  unfold Keepers.bill at h
  split at h
  · rename_i r tier val owner hrewards htier hval howner
    split_ifs at h with hdue
    obtain rfl := Option.some.inj h
    exact ⟨tier, val, hrewards, htier, hval, howner, rfl, rfl, rfl, rfl, hdue.2⟩
  · cases h

theorem bill_id {b : Bill K.pool} (h : K.bill rewards receives w p a v s = some b) :
    b.settled.id = p.id := by
  obtain ⟨tier, val, _, _, _, _, _, _, hsettled, _, _⟩ := bill_cases h
  rw [hsettled]
  rfl

/-- A bill depends on the events the position has pending, on staking and on the rewards of its own
delegation. -/
theorem bill_congr (hrewards : rewards w'.ext a v = rewards w.ext a v)
    (htiers : w'.store.tiers = w.store.tiers) (hstaking : K.staking w'.ext = K.staking w.ext)
    (hreceives : receives w'.ext = receives w.ext) (hctx : w'.ctx = w.ctx)
    (hreplay : ∀ tier, w'.store.replay p s tier v = w.store.replay p s tier v) :
    K.bill rewards receives w' p a v s = K.bill rewards receives w p a v s := by
  unfold Keepers.bill Store.bonus Store.settled
  simp only [hrewards, htiers, hstaking, hreceives, hctx, hreplay]

theorem due_delegated (hpos : Delegated K w id pos a v s) :
    K.due rewards receives w id = (K.bill rewards receives w pos.toPosition a v s).map some := by
  unfold Keepers.due
  simp only [show w.store.positions[id]? = _ from hpos.holds.stored, hpos.holds.account,
    head?_delegationsOf hpos.stake]

theorem due_undelegated (hpos : Undelegated K w id pos a) :
    K.due rewards receives w id = some none := by
  have hfirst := firstDelegation_eq_none.mpr hpos.idle
  unfold firstDelegation at hfirst
  unfold Keepers.due
  simp only [show w.store.positions[id]? = _ from hpos.holds.stored, hpos.holds.account,
    Option.map_eq_none_iff.mp hfirst]

/-! ### One claim -/

theorem succeeds_claimBaseRewards (hpos : Delegated K w id pos a v s) :
    Succeeds (claimBaseRewards K pos) w base w' ↔
      ∃ ext, K.withdrawDelegationRewards w.ctx w.ext a v = .ok (base, ext) ∧
        w' = { w with
          ext := ext
          emitted := if base.isZero then w.emitted
            else w.emitted ++ [.baseRewardsClaimed pos.id pos.owner base] } := by
  have hv : K.valCodec.stringToBytes (K.valCodec.bytesToString v) = some v :=
    K.valCodec.stringToBytes_bytesToString v
  have hreport : ∀ {coins : Coins} {w₁ : World σ},
      Succeeds (do
        if ¬ coins.isZero then emit (.baseRewardsClaimed pos.id pos.owner coins)
        return coins) w₁ base w' ↔
      coins = base ∧ w' = { w₁ with
        emitted := if base.isZero then w₁.emitted
          else w₁.emitted ++ [.baseRewardsClaimed pos.id pos.owner base] } := by
    intro coins w₁
    by_cases hzero : coins.isZero
    · rw [if_neg (not_not.mpr hzero)]
      refine succeeds_pure.trans (and_congr_right ?_)
      rintro rfl
      rw [if_pos hzero]
      exact eq_comm
    · rw [if_pos hzero]
      simp only [succeeds_bind, succeeds_emit, succeeds_pure]
      constructor
      · rintro ⟨_, _, rfl, rfl, rfl⟩
        rw [if_neg hzero]
        exact ⟨rfl, rfl⟩
      · rintro ⟨rfl, rfl⟩
        rw [if_neg hzero]
        exact ⟨⟨⟩, _, rfl, rfl, rfl⟩
  unfold claimBaseRewards
  simp only [hpos.delegation, succeeds_bind, succeeds_valAddressFromBech32,
    succeeds_accAddressFromBech32, succeeds_call]
  constructor
  · rintro ⟨u, _, ⟨hu, rfl⟩, b, _, ⟨hb, rfl⟩, coins, _, ⟨ext, hext, rfl⟩, hrest⟩
    obtain rfl := Option.mem_unique hv hu
    obtain rfl := Option.mem_unique hpos.holds.account hb
    obtain ⟨rfl, rfl⟩ := hreport.mp hrest
    exact ⟨ext, hext, rfl⟩
  · rintro ⟨ext, hext, rfl⟩
    exact ⟨v, w, ⟨hv, rfl⟩, a, w, ⟨hpos.holds.account, rfl⟩, base, _, ⟨ext, hext, rfl⟩,
      hreport.mpr ⟨rfl, rfl⟩⟩

/-- The books of a world, with the rewards claimed so far. -/
def Keepers.books (K : Keepers σ) (w : World σ) (base bonus : String → ℤ) : ClaimBooks :=
  ⟨w.store, K.balance w.ext, base, bonus⟩

/-- What a claim of a position with a bill has done. -/
structure BillPaid (K : Keepers σ) (rewards : σ → AccAddress → ValAddress → Option (Rewards K.pool))
    (receives : σ → AccAddress → Bool) (w : World σ) (a : AccAddress) (v : ValAddress)
    (b : Bill K.pool) (base bonus : Coins) (w' : World σ) : Prop where
  covered : b.bonus = 0 ∨ b.bonus ≤ K.balance w.ext K.pool (K.bondDenom w.ext)
  store : w'.store = (w.store.replayed b.position b.validator).putPosition b.settled
  balance : ∀ c d, K.balance w'.ext c d = K.balance w.ext c d + b.rewards.moved c d +
    ((if c = b.owner ∧ d = K.bondDenom w.ext then b.bonus else 0) -
      if c = K.pool ∧ d = K.bondDenom w.ext then b.bonus else 0)
  base : base = b.rewards.coins
  bonus : ∀ d, bonus.amountOf d = if d = K.bondDenom w.ext then b.bonus else 0
  bondDenom : K.bondDenom w'.ext = K.bondDenom w.ext
  receives_eq : receives w'.ext = receives w.ext
  others : ∀ d u, (d, u) ≠ (a, v) → rewards w'.ext d u = rewards w.ext d u
  staking : K.staking w'.ext = K.staking w.ext
  ctx : w'.ctx = w.ctx

theorem books_add_empty (w : World σ) (base bonus : String → ℤ) :
    K.books w (fun d ↦ base d + Coins.amountOf ∅ d) (fun d ↦ bonus d + Coins.amountOf ∅ d) =
      K.books w base bonus := by
  simp only [amountOf_empty, add_zero]

theorem succeeds_claim_undelegated (hpos : Undelegated K w id pos a) {result : Coins × Coins} :
    Succeeds (claimRewardsAndUpdatePosition K pos) w result w' ↔ (∅, ∅) = result ∧ w = w' := by
  unfold claimRewardsAndUpdatePosition
  rw [if_neg (by rw [hpos.isDelegated]; exact Bool.false_ne_true)]
  exact succeeds_pure

variable (hK : K.Contract) (hC : K.ClaimContract rewards receives) (hw : K.Sound w)
include hK hC hw

/-- A claim of a delegated position that goes through pays the bill of the position. -/
theorem billPaid_of_succeeds (hpos : Delegated K w id pos a v s) {base bonus : Coins}
    (h : Succeeds (claimRewardsAndUpdatePosition K pos) w (base, bonus) w') :
    ∃ b, K.bill rewards receives w pos.toPosition a v s = some b ∧
      BillPaid K rewards receives w a v b base bonus w' := by
  unfold claimRewardsAndUpdatePosition at h
  rw [if_pos hpos.isDelegated] at h
  simp only [succeeds_bind, succeeds_pure] at h
  obtain ⟨base₁, w₁, hbase, ⟨pos₁, bonus₁⟩, w₂, hbonus, _, w₃, hset, hresult, rfl⟩ := h
  obtain ⟨rfl, rfl⟩ := Prod.mk.inj hresult
  obtain ⟨ext, hwithdraw, rfl⟩ := (succeeds_claimBaseRewards hpos).mp hbase
  obtain ⟨r, hrewards, rfl, hmoved, hdenom, hreceives, hothers⟩ :=
    hC.withdrawn _ _ _ _ _ _ hwithdraw
  have hstaking : K.staking ext = K.staking w.ext :=
    (hK.withdrawDelegationRewards _ _ _ _ _ _ hwithdraw).staking
  obtain ⟨tier, val, htier, hval, rfl, hpay⟩ := succeeds_claimBonus hpos.delegation
    (K.valCodec.stringToBytes_bytesToString v) hbonus
  change (K.staking ext).validators[v]? = some val at hval
  rw [hstaking] at hval
  have hstored : w.store.positions[id]? = some pos.toPosition := hpos.holds.stored
  have hid : pos.toPosition.id = id := hw.indexed.id_eq id _ hstored
  have hsame := Position.sameIdentity_settled w.store pos.toPosition s tier v w.ctx.blockTime
  set bonus := w.store.bonus pos.toPosition s tier v val.isBonded val.tokensPerShare w.ctx.blockTime
    with hbonus_eq
  have hpool : K.balance ext K.pool (K.bondDenom w.ext) =
      K.balance w.ext K.pool (K.bondDenom w.ext) := by
    rw [hmoved, r.moved_pool, add_zero]
  have hwrite : ∀ {w₂ w' : World σ} {u : PUnit}, w₂.store = w.store.replayed pos.toPosition v →
      Succeeds (setPosition K (w.store.settled pos.toPosition s tier v w.ctx.blockTime) none) w₂
        u w' →
      w' = w₂.putPosition (w.store.settled pos.toPosition s tier v w.ctx.blockTime) := by
    intro w₂ w' u hstore hset
    have hold : w₂.store.positions[pos.toPosition.id]? = some pos.toPosition := by
      rw [hstore, hid]
      exact hstored
    exact (setPosition_update _ none hset hold hsame hpos.holds.account).2
  rcases succeeds_payBonus hpay with ⟨hzero, rfl, rfl⟩ |
    ⟨hpositive, rfl, hcovers, owner, ext', howner, hsend, rfl⟩
  · -- nothing is due from the pool
    obtain ⟨owner, howner⟩ := hw.indexed.owner id _ hstored
    have hnone : bonus = 0 := hzero
    have hdue : bonus = 0 ∨ receives w.ext owner = true := Or.inl hnone
    have hbill := bill_of hrewards htier hval howner hnone.ge hdue
    obtain rfl := hwrite rfl hset
    refine ⟨_, hbill, Or.inl hnone, rfl,
      fun c d ↦ ?_, rfl, fun d ↦ ?_, hdenom, hreceives, hothers, hstaking, rfl⟩
    · change K.balance ext c d = _
      rw [hmoved]
      simp [← hbonus_eq, hnone]
    · rw [amountOf_empty]
      simp [← hbonus_eq, hnone]
  · obtain ⟨haccepts, hpaid, hdenom', hreceives', hothers'⟩ := hC.paid _ _ _ _ _ hsend
    have hdue : bonus = 0 ∨ receives w.ext owner = true := Or.inr (hreceives ▸ haccepts)
    have hbill := bill_of hrewards htier hval howner hpositive.le hdue
    obtain rfl := hwrite rfl hset
    refine ⟨_, hbill, Or.inr ?_, rfl, fun c d ↦ ?_, rfl, fun d ↦ ?_, hdenom'.trans hdenom,
      hreceives'.trans hreceives, fun d u hne ↦ (hothers' d u).trans (hothers d u hne), ?_, rfl⟩
    · have hle := (poolCovers_iff hpositive.ne').mp hcovers
      change _ ≤ K.balance ext K.pool (K.bondDenom ext) at hle
      rw [hdenom, hpool] at hle
      exact hle
    · have hmove := hpaid c d
      change K.balance ext' c d = K.balance ext c d + _ at hmove
      rw [hmoved] at hmove
      change K.balance ext' c d = _
      rw [hmove]
      change K.balance w.ext c d + r.moved c d +
        ((if c = owner ∧ d = K.bondDenom ext then bonus else 0) -
        if c = K.pool ∧ d = K.bondDenom ext then bonus else 0) = _
      rw [hdenom]
    · change (Coins.single (K.bondDenom ext) bonus).amountOf d = _
      rw [hdenom]
      exact amountOf_single_eq _ _ _
    · exact (hK.sendCoinsFromModuleToAccount _ _ _ _ _ _ hsend).staking.trans hstaking

omit hK hC in
theorem setPosition_settled_succeeds (hpos : Delegated K w id pos a v s) (tier : Tier)
    {w₂ : World σ} (hpositions : w₂.store.positions = w.store.positions)
    (hstaking : K.staking w₂.ext = K.staking w.ext) :
    ∃ w',
      Succeeds (setPosition K (w.store.settled pos.toPosition s tier v w.ctx.blockTime) none) w₂ ⟨⟩
      w' := by
  have hstored : w.store.positions[id]? = some pos.toPosition := hpos.holds.stored
  have hid : pos.toPosition.id = id := hw.indexed.id_eq id _ hstored
  have hsame := Position.sameIdentity_settled w.store pos.toPosition s tier v w.ctx.blockTime
  have haccrual : (w.store.settled pos.toPosition s tier v w.ctx.blockTime).lastBonusAccrual ≠ 0 :=
    Store.lastBonusAccrual_settled _ _ _ hw.coherent.now
  have hposition : (w.store.settled pos.toPosition s tier v w.ctx.blockTime).validate K.accCodec =
      .ok () :=
    hw.coherent.valid id pos.toPosition hstored
  have hshares : 0 < s := (hw.coherent.stakedOn_of_stakes hpos.holds hpos.stake.stakes_eq).2
  generalize w.store.settled pos.toPosition s tier v w.ctx.blockTime =
      q at hsame haccrual hposition ⊢
  have hold : w₂.store.positions[q.id]? = some pos.toPosition := by
    rw [hpositions, hsame.id, hid]
    exact hstored
  have haddress : K.accCodec.bytesToString a = q.delegatorAddress := by
    rw [hsame.delegatorAddress]
    exact hpos.address.symm
  have haccount : K.accCodec.stringToBytes q.delegatorAddress = some a := by
    rw [hsame.delegatorAddress]
    exact hpos.holds.account
  have hfirst : firstDelegation K (K.staking w₂.ext) a =
      some ⟨K.accCodec.bytesToString a, K.valCodec.bytesToString v, s⟩ := by
    rw [hstaking]
    exact firstDelegation_of_stakedOn hpos.stake
  have hvalid : PositionState.validate K.accCodec K.valCodec
      ⟨q, firstDelegation K (K.staking w₂.ext) a⟩ = .ok () := by
    rw [hfirst]
    exact validate_delegated hposition haccrual hshares (K.valCodec.stringToBytes_bytesToString v)
      haddress
  have hset : Succeeds (setPositionWithState K ⟨q, firstDelegation K (K.staking w₂.ext) a⟩
      (transition K none)) w₂ ⟨⟩ _ :=
    (succeeds_setPositionWithState hold hsame.owner.symm hsame.tierId.symm
      (firstDelegation_validatorAddress _ _)).mpr ⟨hvalid, rfl⟩
  exact ⟨_, succeeds_setPosition.mpr ⟨a, haccount, hset⟩⟩

omit hw in
/-- The bonus of a bill is paid, after the base rewards were withdrawn. -/
theorem payBonus_of_bill {b : Bill K.pool} {ext : σ} {coins : Coins}
    (howner : K.accCodec.stringToBytes p.owner = some b.owner)
    (haccepts : b.bonus = 0 ∨ receives w.ext b.owner = true)
    (hcovered : b.bonus = 0 ∨ b.bonus ≤ K.balance w.ext K.pool (K.bondDenom w.ext))
    (hwithdraw : K.withdrawDelegationRewards w.ctx w.ext a v = .ok (coins, ext)) {w₁ : World σ}
    (hext : w₁.ext = ext) :
    ∃ coins w₂, Succeeds (payBonus K p b.bonus) w₁ coins w₂ ∧ w₂.store = w₁.store ∧
      K.staking w₂.ext = K.staking w.ext := by
  subst hext
  have hstaking : K.staking w₁.ext = K.staking w.ext :=
    (hK.withdrawDelegationRewards _ _ _ _ _ _ hwithdraw).staking
  obtain ⟨r, _, _, hmoved, hdenom, hreceives, _⟩ := hC.withdrawn _ _ _ _ _ _ hwithdraw
  rcases b.bonus_nonneg.eq_or_lt with hzero | hpositive
  · refine ⟨∅, w₁, ?_, rfl, hstaking⟩
    unfold payBonus
    rw [if_pos hzero.symm]
    exact .pure
  · have hcovers : K.poolCovers w₁.ext b.bonus := by
      rw [poolCovers_iff hpositive.ne', hdenom]
      change b.bonus ≤ K.balance w₁.ext K.pool (K.bondDenom w.ext)
      rw [hmoved, r.moved_pool, add_zero]
      exact hcovered.resolve_left hpositive.ne'
    have howns : receives w₁.ext b.owner = true := by
      rw [hreceives]
      exact haccepts.resolve_left hpositive.ne'
    obtain ⟨ext', hsend⟩ := hC.pays w₁.ctx w₁.ext b.owner b.bonus hpositive hcovers howns
    exact ⟨_, _, payBonus_covered hpositive hcovers howner hsend, rfl,
      (hK.sendCoinsFromModuleToAccount _ _ _ _ _ _ hsend).staking.trans hstaking⟩

/-- A claim goes through when the position has a bill and the pool can pay the bonus. -/
theorem succeeds_of_bill (hpos : Delegated K w id pos a v s) {b : Bill K.pool}
    (hbill : K.bill rewards receives w pos.toPosition a v s = some b)
    (hcovered : b.bonus = 0 ∨ b.bonus ≤ K.balance w.ext K.pool (K.bondDenom w.ext)) :
    ∃ base bonus w', Succeeds (claimRewardsAndUpdatePosition K pos) w (base, bonus) w' := by
  obtain ⟨tier, val, hrewards, htier, hval, howner, _, _, _, hbonus, haccepts⟩ := bill_cases hbill
  obtain ⟨ext, hwithdraw⟩ := hC.withdraws w.ctx _ _ _ _ hrewards
  obtain ⟨emitted, hbase⟩ : ∃ emitted, Succeeds (claimBaseRewards K pos) w b.rewards.coins
      { w with ext := ext, emitted := emitted } :=
    ⟨_, (succeeds_claimBaseRewards hpos).mpr ⟨ext, hwithdraw, rfl⟩⟩
  set w₁ : World σ := { w with ext := ext, emitted := emitted } with hw₁
  have hval₁ : (K.staking w₁.ext).validators[v]? = some val := by
    change (K.staking ext).validators[v]? = some val
    rw [(hK.withdrawDelegationRewards _ _ _ _ _ _ hwithdraw).staking]
    exact hval
  have hext : ({ w₁ with store := w.store.replayed pos.toPosition v } : World σ).ext = ext := rfl
  obtain ⟨coins, w₂, hpay, hstore, hstaking⟩ := payBonus_of_bill hK hC
    (p := w.store.settled pos.toPosition s tier v w.ctx.blockTime) howner haccepts hcovered
    hwithdraw hext
  rw [hbonus] at hpay
  have hclaim := claimBonus_of_payBonus (w := w₁) hpos.delegation
    (K.valCodec.stringToBytes_bytesToString v) htier hval₁ hpay
  have hpositions : w₂.store.positions = w.store.positions := by
    rw [hstore]
    rfl
  obtain ⟨w', hset⟩ := setPosition_settled_succeeds hw hpos tier hpositions hstaking
  refine ⟨b.rewards.coins, coins, w', ?_⟩
  unfold claimRewardsAndUpdatePosition
  rw [if_pos hpos.isDelegated]
  exact succeeds_bind.mpr
    ⟨_, w₁, hbase, succeeds_bind.mpr ⟨_, w₂, hclaim, succeeds_bind.mpr ⟨⟨⟩, _, hset, .pure⟩⟩⟩

theorem claim_books (hpos : (∃ v s, Delegated K w id pos a v s) ∨ Undelegated K w id pos a)
    {base bonus : Coins} (h : Succeeds (claimRewardsAndUpdatePosition K pos) w (base, bonus) w')
    (totalBase totalBonus : String → ℤ) :
    (K.books w totalBase totalBonus).claim (K.bondDenom w.ext) (K.due rewards receives w) id =
      some (K.books w' (fun d ↦ totalBase d + base.amountOf d) fun d ↦ totalBonus d +
        bonus.amountOf d) ∧
    K.bondDenom w'.ext = K.bondDenom w.ext := by
  unfold ClaimBooks.claim
  rcases hpos with ⟨v, s, hpos⟩ | hpos
  · obtain ⟨b, hbill, hpaid⟩ := billPaid_of_succeeds hK hC hw hpos h
    rw [due_delegated hpos, hbill]
    refine ⟨?_, hpaid.bondDenom⟩
    change ClaimBooks.settle _ _ b = _
    unfold ClaimBooks.settle
    refine (if_pos hpaid.covered).trans (congrArg some (ClaimBooks.ext hpaid.store.symm ?_ ?_ ?_))
    · funext c d
      exact (hpaid.balance c d).symm
    · funext d
      rw [hpaid.base]
      rfl
    · funext d
      exact congrArg (totalBonus d + ·) (hpaid.bonus d).symm
  · obtain ⟨hresult, rfl⟩ := (succeeds_claim_undelegated hpos).mp h
    obtain ⟨rfl, rfl⟩ := Prod.mk.inj hresult
    rw [due_undelegated hpos, books_add_empty]
    exact ⟨rfl, rfl⟩

theorem claim_of_books (hpos : (∃ v s, Delegated K w id pos a v s) ∨ Undelegated K w id pos a)
    {totalBase totalBonus : String → ℤ} {B : ClaimBooks}
    (h : (K.books w totalBase totalBonus).claim (K.bondDenom w.ext) (K.due rewards receives w) id =
      some B) :
    ∃ base bonus w', Succeeds (claimRewardsAndUpdatePosition K pos) w (base, bonus) w' ∧
      B = K.books w' (fun d ↦ totalBase d + base.amountOf d) fun d ↦ totalBonus d +
        bonus.amountOf d := by
  obtain ⟨base, bonus, w', hclaim⟩ : ∃ base bonus w',
      Succeeds (claimRewardsAndUpdatePosition K pos) w (base, bonus) w' := by
    rcases hpos with ⟨v, s, hpos⟩ | hpos
    · unfold ClaimBooks.claim at h
      rw [due_delegated hpos] at h
      cases hbill : K.bill rewards receives w pos.toPosition a v s with
      | none =>
        rw [hbill] at h
        cases h
      | some b =>
        rw [hbill] at h
        change ClaimBooks.settle _ _ b = _ at h
        unfold ClaimBooks.settle at h
        split_ifs at h with hcovered
        exact succeeds_of_bill hK hC hw hpos hbill hcovered
    · exact ⟨∅, ∅, w, (succeeds_claim_undelegated hpos).mpr ⟨rfl, rfl⟩⟩
  obtain ⟨hentry, _⟩ := claim_books hK hC hw hpos hclaim totalBase totalBonus
  exact ⟨base, bonus, w', hclaim, Option.mem_unique h hentry⟩

omit hK hC in
theorem Settlement.replay_other {p q : Position} {tier : Tier} {val : Validator} {covered : Bool}
    {j : ℕ} {c : AccAddress} {u : ValAddress} {t : Dec}
    (h : Settlement K w id p a v s tier val covered w') (hj : j ≠ id)
    (hq : (K.view w).Holds K.accCodec j q c) (hstake : (K.view w).StakedOn c u t) (shares : Dec)
    (tier' : Tier) :
    w'.store.replay q shares tier' u = w.store.replay q shares tier' u := by
  obtain ⟨L, hsettle, houtside⟩ := h.steps hw
  have hL := hsettle.sound hw
  have hstore : w'.store.positions[j]? = some q := by
    rw [h.store]
    change (w.store.positions.insert p.id _)[j]? = _
    rw [hw.indexed.id_eq id p h.holds.stored, getElem?_insert_ne (Ne.symm hj)]
    exact hq.stored
  have hstore' : L.store = w'.store := by
    cases houtside with
    | outside hsame _ => exact hsame.symm
  have hreplay := hsettle.replay_eq hw.logged hL.logged (hstore' ▸ hstore)
    (hstake.isStaked hq.account) (fun _ _ hop ↦ nomatch hop) shares tier'
  rw [hstore'] at hreplay
  exact hreplay

theorem due_of_claimed (hpos : (∃ v s, Delegated K w id pos a v s) ∨ Undelegated K w id pos a)
    {result : Coins × Coins} (h : Succeeds (claimRewardsAndUpdatePosition K pos) w result w')
    {j : ℕ} (hj : j ≠ id) : K.due rewards receives w' j = K.due rewards receives w j := by
  have hsettles := claimRewardsAndUpdatePosition_settles hK hw hpos h
  rcases hpos with ⟨v, s, hpos⟩ | hpos
  · obtain ⟨b, hbill, hpaid⟩ := billPaid_of_succeeds hK hC hw hpos h
    cases hp : w.store.positions[j]? with
    | none =>
      have hp' : w'.store.positions[j]? = none := by
        have hid : b.settled.id = id :=
          (bill_id hbill).trans (hw.indexed.id_eq id _ hpos.holds.stored)
        rw [hpaid.store]
        change (w.store.positions.insert b.settled.id _)[j]? = none
        rw [hid, getElem?_insert_ne (Ne.symm hj), hp]
      unfold Keepers.due
      rw [hp, hp']
    | some p =>
      obtain ⟨c, hholds, haddress, _⟩ := hw.accounted.holds hp
      have hother : c ≠ a := by
        rintro rfl
        exact hj (hw.accounted.distinct j id p _ c hholds hpos.holds)
      have hmem : j ∉ [id] := by
        rw [List.mem_singleton]
        exact hj
      rcases hw.coherent.backed j p c hholds with ⟨u, t, hstake, _, _⟩ | ⟨hidle, _⟩
      · have hload :
            Delegated K w j ⟨p, some ⟨K.accCodec.bytesToString c, K.valCodec.bytesToString u, t⟩⟩
            c u t := ⟨hholds, haddress, hstake, rfl⟩
        have hload' :
            Delegated K w' j ⟨p, some ⟨K.accCodec.bytesToString c, K.valCodec.bytesToString u, t⟩⟩
            c u t := by
          refine ⟨hsettles.other hw hmem hholds, haddress, fun x ↦ ?_, rfl⟩
          change (K.staking w'.ext).delegations[(c, x)]? = _
          rw [hsettles.staking]
          exact hstake x
        have hreplay : ∀ tier, w'.store.replay p t tier u = w.store.replay p t tier u := by
          intro tier
          cases hsettles with
          | settle hfirst hrest =>
            cases hrest
            exact hfirst.replay_other hw hj hholds hstake t tier
          | skip _ _ hrest =>
            cases hrest
            rfl
        have hrewards : rewards w'.ext c u = rewards w.ext c u :=
          hpaid.others c u fun heq ↦ hother (Prod.mk.inj heq).1
        rw [due_delegated hload, due_delegated hload',
          bill_congr hrewards hsettles.tiers.1 hsettles.staking
          hpaid.receives_eq hsettles.ctx hreplay]
      · have hload : Undelegated K w j ⟨p, none⟩ c := ⟨hholds, haddress, hidle, rfl⟩
        rcases hsettles.loaded hw hmem (Or.inr hload) with ⟨_, _, hload'⟩ | hload'
        · cases hload'.delegation
        · rw [due_undelegated hload, due_undelegated hload']
  · obtain ⟨_, rfl⟩ := (succeeds_claim_undelegated hpos).mp h
    rfl

end Due

/-! ### Batches -/

section Batches

variable {K : Keepers σ} {rewards : σ → AccAddress → ValAddress → Option (Rewards K.pool)}
  {receives : σ → AccAddress → Bool}

/-- A position that was loaded from a world. -/
def Loaded (K : Keepers σ) (w : World σ) (pos : PositionState) : Prop :=
  ∃ a, (∃ v s, Delegated K w pos.id pos a v s) ∨ Undelegated K w pos.id pos a

/-- The books of a batch, entry by entry, as long as nothing else happens to what the positions are
due. -/
structure Tracks (K : Keepers σ) (rewards : σ → AccAddress → ValAddress → Option (Rewards K.pool))
    (receives : σ → AccAddress → Bool) (denom : String) (due : ℕ → Option (Option (Bill K.pool)))
    (w : World σ) (ids : List ℕ) : Prop where
  sound : K.Sound w
  denom_eq : K.bondDenom w.ext = denom
  due_eq : ∀ i ∈ ids, K.due rewards receives w i = due i

theorem Tracks.claim_eq {denom : String} {due : ℕ → Option (Option (Bill K.pool))}
    (hT : Tracks K rewards receives denom due w (id :: ids)) (B : ClaimBooks) :
    B.claim denom due id = B.claim (K.bondDenom w.ext) (K.due rewards receives w) id := by
  unfold ClaimBooks.claim
  rw [hT.due_eq id List.mem_cons_self, hT.denom_eq]

variable (hK : K.Contract) (hC : K.ClaimContract rewards receives) {denom : String}
  {due : ℕ → Option (Option (Bill K.pool))}
include hK hC

/-- After a claim the rest of the batch is due what it was due before. -/
theorem Tracks.claimed {w w' : World σ} (hT : Tracks K rewards receives denom due w (pos.id :: ids))
    (hnew : pos.id ∉ ids) (hpos : Loaded K w pos) {result : Coins × Coins}
    (h : Succeeds (claimRewardsAndUpdatePosition K pos) w result w') :
    Tracks K rewards receives denom due w' ids := by
  obtain ⟨a, hpos⟩ := hpos
  have hsettles := claimRewardsAndUpdatePosition_settles hK hT.sound hpos h
  refine ⟨hsettles.sound hT.sound, ?_, fun i hi ↦ ?_⟩
  · exact ((claim_books hK hC hT.sound hpos h 0 0).2).trans hT.denom_eq
  · have hne : i ≠ pos.id := fun heq ↦ hnew (heq ▸ hi)
    rw [due_of_claimed hK hC hT.sound hpos h hne]
    exact hT.due_eq i (List.mem_cons_of_mem _ hi)

omit hC in
theorem loaded_rest {w w' : World σ} {positions : List PositionState}
    (hw : K.Sound w) (hloaded : ∀ other ∈ pos :: positions, Loaded K w other)
    (hnew : pos.id ∉ positions.map fun pos ↦ pos.id) {result : Coins × Coins}
    (h : Succeeds (claimRewardsAndUpdatePosition K pos) w result w') :
    ∀ other ∈ positions, Loaded K w' other := by
  intro other hmem
  obtain ⟨a, hpos⟩ := hloaded pos List.mem_cons_self
  obtain ⟨b, hother⟩ := hloaded other (List.mem_cons_of_mem _ hmem)
  refine ⟨b, (claimRewardsAndUpdatePosition_settles hK hw hpos h).loaded hw ?_ hother⟩
  rw [List.mem_singleton]
  exact fun heq ↦ hnew (List.mem_map.mpr ⟨other, hmem, heq⟩)

omit hK hC in
theorem ClaimBooks.claims_cons (denom : String) (due : ℕ → Option (Option (Bill K.pool)))
    (B : ClaimBooks) (id : ℕ) (ids : List ℕ) :
    B.claims denom due (id :: ids) =
      (B.claim denom due id).bind fun B ↦ B.claims denom due ids := by
  have hnone : ∀ ids : List ℕ, ids.foldl (fun books id ↦ Option.bind books fun B : ClaimBooks ↦
      B.claim denom due id) none = none := by
    intro ids
    induction ids with
    | nil => rfl
    | cons id ids ih => exact ih
  unfold ClaimBooks.claims
  rw [List.foldl_cons, Option.bind_some]
  cases B.claim denom due id with
  | none => exact hnone ids
  | some B => rfl

theorem batch_books {positions : List PositionState} :
    ∀ {w w' : World σ} {totalBase totalBonus : Coins} {totals : Coins × Coins},
      Tracks K rewards receives denom due w (positions.map fun pos ↦ pos.id) →
      (positions.map fun pos ↦ pos.id).Nodup → (∀ pos ∈ positions, Loaded K w pos) →
      Succeeds (claimRewardsAndUpdatesPositions K positions totalBase totalBonus) w totals w' →
      (K.books w totalBase.amountOf totalBonus.amountOf).claims denom due
          (positions.map fun pos ↦ pos.id) =
        some (K.books w' totals.1.amountOf totals.2.amountOf) := by
  induction positions with
  | nil =>
    intro w w' totalBase totalBonus totals _ _ _ h
    obtain ⟨rfl, rfl⟩ := succeeds_pure.mp h
    rfl
  | cons pos positions ih =>
    intro w w' totalBase totalBonus totals hT hnodup hloaded h
    unfold claimRewardsAndUpdatesPositions at h
    obtain ⟨⟨base, bonus⟩, w₁, hclaim, hrest⟩ := succeeds_bind.mp h
    obtain ⟨hnew, hnodup'⟩ := List.nodup_cons.mp hnodup
    obtain ⟨a, hpos⟩ := hloaded pos List.mem_cons_self
    have htail := ih (hT.claimed hK hC hnew ⟨a, hpos⟩ hclaim) hnodup'
      (loaded_rest hK hT.sound hloaded hnew hclaim) hrest
    obtain ⟨hentry, _⟩ :=
      claim_books hK hC hT.sound hpos hclaim totalBase.amountOf totalBonus.amountOf
    rw [List.map_cons, ClaimBooks.claims_cons, hT.claim_eq, hentry, Option.bind_some]
    have hbase : (fun d ↦ totalBase.amountOf d + base.amountOf d) = (totalBase.add base).amountOf :=
      funext fun d ↦ (amountOf_add _ _ _).symm
    have hbonus : (fun d ↦ totalBonus.amountOf d + bonus.amountOf d) =
        (totalBonus.add bonus).amountOf :=
      funext fun d ↦ (amountOf_add _ _ _).symm
    rw [hbase, hbonus]
    exact htail

theorem batch_of_books {positions : List PositionState} :
    ∀ {w : World σ} (totalBase totalBonus : Coins) {base bonus : String → ℤ} {B : ClaimBooks},
      Tracks K rewards receives denom due w (positions.map fun pos ↦ pos.id) →
      (positions.map fun pos ↦ pos.id).Nodup → (∀ pos ∈ positions, Loaded K w pos) →
      (K.books w base bonus).claims denom due (positions.map fun pos ↦ pos.id) = some B →
      ∃ totals w', Succeeds (claimRewardsAndUpdatesPositions K positions totalBase totalBonus) w
        totals
        w' := by
  induction positions with
  | nil =>
    intro w totalBase totalBonus base bonus B _ _ _ _
    exact ⟨_, w, .pure⟩
  | cons pos positions ih =>
    intro w totalBase totalBonus base bonus B hT hnodup hloaded h
    rw [List.map_cons, ClaimBooks.claims_cons, hT.claim_eq] at h
    obtain ⟨B₁, hfirst, hrest⟩ := Option.bind_eq_some_iff.mp h
    obtain ⟨hnew, hnodup'⟩ := List.nodup_cons.mp hnodup
    obtain ⟨a, hpos⟩ := hloaded pos List.mem_cons_self
    obtain ⟨base₁, bonus₁, w₁, hclaim, rfl⟩ := claim_of_books hK hC hT.sound hpos hfirst
    obtain ⟨totals, w', hsucceeds⟩ := ih (totalBase.add base₁) (totalBonus.add bonus₁)
      (hT.claimed hK hC hnew ⟨a, hpos⟩ hclaim) hnodup'
      (loaded_rest hK hT.sound hloaded hnew hclaim) hrest
    exact ⟨totals, w', succeeds_bind.mpr ⟨(base₁, bonus₁), w₁, hclaim, hsucceeds⟩⟩

end Batches

/-! ### The message -/

section Messages

variable {K : Keepers σ} {w w' : World σ} {owner : String}

theorem validate_claimTierRewards_perm {acc : AddressCodec} (hperm : ids.Perm ids')
    (h : MsgClaimTierRewards.validate acc ⟨owner, ids⟩ = .ok ()) :
    MsgClaimTierRewards.validate acc ⟨owner, ids'⟩ = .ok () := by
  rw [validate_claimTierRewards_iff] at h ⊢
  obtain ⟨howner, hne, hlength, hnodup⟩ := h
  refine ⟨howner, ?_, hperm.length_eq ▸ hlength, hperm.nodup_iff.mp hnodup⟩
  rintro rfl
  exact hne hperm.eq_nil

/-- Claim several positions one by one, each in a message of its own. -/
def claimEach (K : Keepers σ) (owner : String) : List ℕ → M σ (Coins × Coins)
  | [] => pure (∅, ∅)
  | id :: ids => do
    let response ← claimTierRewards K ⟨owner, [id]⟩
    let (base, bonus) ← claimEach K owner ids
    return (response.baseRewards.add base, response.bonusRewards.add bonus)

theorem succeeds_claimTierRewards_single {response : ClaimTierRewardsResponse} :
    Succeeds (claimTierRewards K ⟨owner, [id]⟩) w response w' ↔
      (K.accCodec.stringToBytes owner).isSome ∧ ∃ pos base bonus w₁,
        Succeeds (getPositionState K id) w pos w ∧ pos.isOwner owner = true ∧
        Succeeds (claimRewardsAndUpdatePosition K pos) w (base, bonus) w₁ ∧
        response = ⟨Coins.add ∅ base, Coins.add ∅ bonus, [id]⟩ ∧
        w' = { w₁ with emitted := w₁.emitted ++
          [.tierRewardsClaimed owner [id] (Coins.add ∅ base) (Coins.add ∅ bonus)] } := by
  have hvalid : MsgClaimTierRewards.validate K.accCodec ⟨owner, [id]⟩ = .ok () ↔
      (K.accCodec.stringToBytes owner).isSome := by
    rw [validate_claimTierRewards_iff]
    simp [maxClaimPositionIds]
  unfold claimTierRewards
  simp only [succeeds_bind, succeeds_fromOutcome, succeeds_loadClaimedPositions_iff, succeeds_emit,
    succeeds_pure, hvalid]
  constructor
  · rintro ⟨_, _, ⟨howner, rfl⟩, positions, _, ⟨hload, rfl⟩, totals, w₁, hclaim, _, _,
      rfl, rfl, rfl⟩
    cases hload with
    | @cons _ pos _ _ hfirst hnil =>
      cases hnil
      obtain ⟨⟨base, bonus⟩, w₂, hone, hend⟩ := succeeds_bind.mp hclaim
      obtain ⟨rfl, rfl⟩ := succeeds_pure.mp hend
      exact ⟨howner, pos, base, bonus, w₂, hfirst.1, hfirst.2, hone, rfl, rfl⟩
  · rintro ⟨howner, pos, base, bonus, w₁, hload, hmine, hclaim, rfl, rfl⟩
    exact ⟨⟨⟩, w, ⟨howner, rfl⟩, [pos], w, ⟨.cons ⟨hload, hmine⟩ .nil, rfl⟩,
      (Coins.add ∅ base, Coins.add ∅ bonus), w₁,
      succeeds_bind.mpr ⟨(base, bonus), w₁, hclaim, .pure⟩, ⟨⟩, _, rfl, rfl, rfl⟩

variable {rewards : σ → AccAddress → ValAddress → Option (Rewards K.pool)}
  {receives : σ → AccAddress → Bool} (hK : K.Contract) (hC : K.ClaimContract rewards receives)

/-- Loading is the same as long as the position and its stake are there. -/
theorem loaded_of_getPositionState (hw : K.Sound w)
    (h : Succeeds (getPositionState K id) w pos w) : pos.id = id ∧ Loaded K w pos := by
  obtain ⟨_, a, hpos⟩ := loaded_cases hw h
  obtain ⟨_, rfl⟩ := stored_of_loaded hw h
  exact ⟨rfl, a, hpos⟩

theorem due_owner (hw : K.Sound w) {b : Bill K.pool}
    (hdue : K.due rewards receives w id = some (some b))
    (hload : Succeeds (getPositionState K id) w pos w) :
    b.settled.id = id ∧ K.accCodec.stringToBytes pos.owner = some b.owner := by
  obtain ⟨rfl, a, ⟨v, s, hpos⟩ | hpos⟩ := loaded_of_getPositionState hw hload
  · rw [due_delegated hpos] at hdue
    obtain ⟨c, hbill, hc⟩ := Option.map_eq_some_iff.mp hdue
    obtain rfl := Option.some.inj hc
    obtain ⟨_, _, _, _, _, howner, _⟩ := bill_cases hbill
    exact ⟨bill_id hbill, howner⟩
  · rw [due_undelegated hpos] at hdue
    cases Option.some.inj hdue

theorem claims_perm (hw : K.Sound w) (hperm : ids.Perm ids')
    (hload : Loadable K w owner ids) (B : ClaimBooks) :
    B.claims (K.bondDenom w.ext) (K.due rewards receives w) ids =
      B.claims (K.bondDenom w.ext) (K.due rewards receives w) ids' := by
  refine ClaimBooks.claims_perm _ hperm ?_ ?_ B
  · intro i hi b hb
    obtain ⟨pos, hpos, _⟩ := hload i hi
    exact (due_owner hw hb hpos).1
  · intro i hi j hj b c hb hc
    obtain ⟨pos, hpos, hmine⟩ := hload i hi
    obtain ⟨other, hother, hmine'⟩ := hload j hj
    have hsame : pos.owner = other.owner := (beq_iff_eq.mp hmine).trans (beq_iff_eq.mp hmine').symm
    have hb' := (due_owner hw hb hpos).2
    rw [hsame] at hb'
    exact Option.some.inj (hb'.symm.trans (due_owner hw hc hother).2)

include hK hC

/-- A message goes through exactly when its list is accepted and loaded and can be entered in the
books. -/
theorem claimTierRewards_books (hw : K.Sound w) {response : ClaimTierRewardsResponse}
    (h : Succeeds (claimTierRewards K ⟨owner, ids⟩) w response w') :
    MsgClaimTierRewards.validate K.accCodec ⟨owner, ids⟩ = .ok () ∧ Loadable K w owner ids ∧
      (K.books w 0 0).claims (K.bondDenom w.ext) (K.due rewards receives w) ids =
        some (K.books w' response.baseRewards.amountOf response.bonusRewards.amountOf) := by
  unfold claimTierRewards at h
  simp only [succeeds_bind, succeeds_fromOutcome, succeeds_emit, succeeds_pure] at h
  obtain ⟨_, _, ⟨hvalid, rfl⟩, positions, w₀, hload, totals, w₁, hclaim, _, _, rfl, rfl, rfl⟩ := h
  obtain ⟨rfl, hids, hloaded⟩ := succeeds_loadClaimedPositions hw hload
  have hnodup : ids.Nodup := MsgClaimTierRewards.nodup_of_validate hvalid
  have hT : Tracks K rewards receives (K.bondDenom w₀.ext) (K.due rewards receives w₀) w₀
      (positions.map fun pos ↦ pos.id) := ⟨hw, rfl, fun _ _ ↦ rfl⟩
  have hbooks := batch_books hK hC hT (hids ▸ hnodup) hloaded hclaim
  rw [hids] at hbooks
  have hzero : Coins.amountOf ∅ = 0 := funext amountOf_empty
  rw [hzero] at hbooks
  exact ⟨hvalid, loadable_iff.mpr ⟨positions, hload⟩, hbooks⟩

theorem claimTierRewards_of_books (hw : K.Sound w) {base bonus : String → ℤ} {B : ClaimBooks}
    (hvalid : MsgClaimTierRewards.validate K.accCodec ⟨owner, ids⟩ = .ok ())
    (hload : Loadable K w owner ids)
    (hbooks : (K.books w base bonus).claims (K.bondDenom w.ext) (K.due rewards receives w) ids =
      some B) :
    ∃ response w', Succeeds (claimTierRewards K ⟨owner, ids⟩) w response w' := by
  obtain ⟨positions, hload⟩ := loadable_iff.mp hload
  obtain ⟨_, hids, hloaded⟩ := succeeds_loadClaimedPositions hw hload
  have hnodup : ids.Nodup := MsgClaimTierRewards.nodup_of_validate hvalid
  rw [← hids] at hbooks
  obtain ⟨totals, w', hclaim⟩ :=
    batch_of_books hK hC ∅ ∅ ⟨hw, rfl, fun _ _ ↦ rfl⟩ (hids ▸ hnodup) hloaded
    hbooks
  refine ⟨⟨totals.1, totals.2, ids⟩,
    { w' with emitted := w'.emitted ++ [.tierRewardsClaimed owner ids totals.1 totals.2] }, ?_⟩
  unfold claimTierRewards
  simp only [succeeds_bind, succeeds_fromOutcome, succeeds_emit, succeeds_pure]
  exact ⟨⟨⟩, w, ⟨hvalid, rfl⟩, positions, w, hload, totals, w', hclaim, ⟨⟩, _, rfl, rfl, rfl⟩

omit hK hC in
theorem Tracks.report {denom : String} {due : ℕ → Option (Option (Bill K.pool))}
    {base bonus : Coins} (hT : Tracks K rewards receives denom due w ids) :
    Tracks K rewards receives denom due
      { w with emitted := w.emitted ++ [.tierRewardsClaimed owner ids' base bonus] } ids := by
  refine ⟨?_, hT.denom_eq, hT.due_eq⟩
  rw [Keepers.Sound, view_emit]
  · exact hT.sound
  · exact fun _ ↦ rfl

theorem claimEach_books {denom : String} {due : ℕ → Option (Option (Bill K.pool))} :
    ∀ {w : World σ} {totals : Coins × Coins} (base bonus : String → ℤ),
      Tracks K rewards receives denom due w ids → ids.Nodup →
      Succeeds (claimEach K owner ids) w totals w' →
      (K.books w base bonus).claims denom due ids =
        some (K.books w' (fun d ↦ base d + totals.1.amountOf d) fun d ↦ bonus d +
          totals.2.amountOf d) := by
  induction ids with
  | nil =>
    intro w totals base bonus _ _ h
    obtain ⟨rfl, rfl⟩ := succeeds_pure.mp h
    exact congrArg some (books_add_empty w base bonus).symm
  | cons id ids ih =>
    intro w totals base bonus hT hnodup h
    obtain ⟨hnew, hnodup'⟩ := List.nodup_cons.mp hnodup
    unfold claimEach at h
    simp only [succeeds_bind, succeeds_pure] at h
    obtain ⟨response, w₁, hmessage, ⟨base₂, bonus₂⟩, w₂, hrest, rfl, rfl⟩ := h
    obtain ⟨_, pos, base₁, bonus₁, w₀, hload, _, hclaim, rfl, rfl⟩ :=
      succeeds_claimTierRewards_single.mp hmessage
    obtain ⟨rfl, a, hpos⟩ := loaded_of_getPositionState hT.sound hload
    obtain ⟨hentry, _⟩ := claim_books hK hC hT.sound hpos hclaim base bonus
    have htail := ih (fun d ↦ base d + base₁.amountOf d) (fun d ↦ bonus d + bonus₁.amountOf d)
      (hT.claimed hK hC hnew ⟨a, hpos⟩ hclaim).report hnodup' hrest
    rw [ClaimBooks.claims_cons, hT.claim_eq, hentry, Option.bind_some]
    refine htail.trans (congrArg some (ClaimBooks.ext rfl rfl ?_ ?_))
    · funext d
      change base d + base₁.amountOf d + base₂.amountOf d =
        base d + ((Coins.add ∅ base₁).add base₂).amountOf d
      rw [amountOf_add, amountOf_add, amountOf_empty, zero_add, add_assoc]
    · funext d
      change bonus d + bonus₁.amountOf d + bonus₂.amountOf d =
        bonus d + ((Coins.add ∅ bonus₁).add bonus₂).amountOf d
      rw [amountOf_add, amountOf_add, amountOf_empty, zero_add, add_assoc]

omit hC in
/-- A claim of another position, and its report, do not change what is loaded. -/
theorem getPositionState_of_claimed (hw : K.Sound w) {pos other : PositionState}
    (hpos : Loaded K w pos) {result : Coins × Coins}
    (h : Succeeds (claimRewardsAndUpdatePosition K pos) w result w') (hne : id ≠ pos.id)
    (emitted : List Event) :
    Succeeds (getPositionState K id) { w' with emitted := emitted } other
      { w' with emitted := emitted } ↔ Succeeds (getPositionState K id) w other w := by
  obtain ⟨a, hpos⟩ := hpos
  have hsettles := claimRewardsAndUpdatePosition_settles hK hw hpos h
  have hmem : id ∉ [pos.id] := by
    rw [List.mem_singleton]
    exact hne
  rw [succeeds_getPositionState, succeeds_getPositionState, hsettles.positions_of_not_mem hw hmem,
    hsettles.staking]
  simp only [and_true]

/-- Claims in separate messages go through when they can be entered in the books. -/
theorem claimEach_of_books (howner : (K.accCodec.stringToBytes owner).isSome) {denom : String}
    {due : ℕ → Option (Option (Bill K.pool))} :
    ∀ {w : World σ} {base bonus : String → ℤ} {B : ClaimBooks},
      Tracks K rewards receives denom due w ids → ids.Nodup → Loadable K w owner ids →
      (K.books w base bonus).claims denom due ids = some B →
      ∃ totals w', Succeeds (claimEach K owner ids) w totals w' := by
  induction ids with
  | nil =>
    intro w base bonus B _ _ _ _
    exact ⟨(∅, ∅), w, .pure⟩
  | cons id ids ih =>
    intro w base bonus B hT hnodup hload h
    obtain ⟨hnew, hnodup'⟩ := List.nodup_cons.mp hnodup
    obtain ⟨pos, hfirst, hmine⟩ := hload id List.mem_cons_self
    obtain ⟨rfl, a, hpos⟩ := loaded_of_getPositionState hT.sound hfirst
    rw [ClaimBooks.claims_cons, hT.claim_eq] at h
    obtain ⟨B₁, hentry, hrest⟩ := Option.bind_eq_some_iff.mp h
    obtain ⟨base₁, bonus₁, w₁, hclaim, rfl⟩ := claim_of_books hK hC hT.sound hpos hentry
    have hmessage := succeeds_claimTierRewards_single.mpr
      ⟨howner, pos, base₁, bonus₁, w₁, hfirst, hmine, hclaim, rfl, rfl⟩
    have hreported : Loadable K { w₁ with emitted := w₁.emitted ++
        [.tierRewardsClaimed owner [pos.id] (Coins.add ∅ base₁) (Coins.add ∅ bonus₁)] }
        owner ids := by
      intro i hi
      obtain ⟨other, hother, hmine'⟩ := hload i (List.mem_cons_of_mem _ hi)
      have hne : i ≠ pos.id := fun heq ↦ hnew (heq ▸ hi)
      exact ⟨other, (getPositionState_of_claimed hK hT.sound ⟨a, hpos⟩ hclaim hne _).mpr hother,
        hmine'⟩
    obtain ⟨totals, w', heach⟩ :=
      ih (hT.claimed hK hC hnew ⟨a, hpos⟩ hclaim).report hnodup' hreported hrest
    refine ⟨((Coins.add ∅ base₁).add totals.1, (Coins.add ∅ bonus₁).add totals.2), w', ?_⟩
    unfold claimEach
    exact succeeds_bind.mpr ⟨_, _, hmessage, succeeds_bind.mpr ⟨totals, w', heach,
      .pure⟩⟩

omit hC in
/-- Positions that are claimed in separate messages can be loaded before the first one. -/
theorem loadable_of_claimEach :
    ∀ {w : World σ} {totals : Coins × Coins}, K.Sound w → ids.Nodup →
      Succeeds (claimEach K owner ids) w totals w' → Loadable K w owner ids := by
  induction ids with
  | nil =>
    intro w totals _ _ _ i hi
    cases hi
  | cons id ids ih =>
    intro w totals hw hnodup h
    obtain ⟨hnew, hnodup'⟩ := List.nodup_cons.mp hnodup
    unfold claimEach at h
    simp only [succeeds_bind, succeeds_pure] at h
    obtain ⟨response, w₁, hmessage, totals₂, w₂, hrest, rfl, rfl⟩ := h
    obtain ⟨_, pos, base, bonus, w₀, hload, hmine, hclaim, rfl, rfl⟩ :=
      succeeds_claimTierRewards_single.mp hmessage
    obtain ⟨rfl, a, hpos⟩ := loaded_of_getPositionState hw hload
    have hsound := (claimRewardsAndUpdatePosition_settles hK hw hpos hclaim).sound hw
    have hreported : (K.view { w₀ with emitted := w₀.emitted ++
        [.tierRewardsClaimed owner [pos.id] (Coins.add ∅ base) (Coins.add ∅ bonus)] }).Sound
        K.accCodec := by
      rw [view_emit]
      · exact hsound
      · exact fun _ ↦ rfl
    intro i hi
    rcases List.mem_cons.mp hi with rfl | hi
    · exact ⟨pos, hload, hmine⟩
    · obtain ⟨other, hother, hmine'⟩ := ih hreported hnodup' hrest i hi
      have hne : i ≠ pos.id := fun heq ↦ hnew (heq ▸ hi)
      exact ⟨other, (getPositionState_of_claimed hK hw ⟨a, hpos⟩ hclaim hne _).mp hother, hmine'⟩

/-- A list of claims that the message accepts, that can be loaded and that can be entered in the
books. -/
def Payable (K : Keepers σ) (rewards : σ → AccAddress → ValAddress → Option (Rewards K.pool))
    (receives : σ → AccAddress → Bool) (w : World σ) (owner : String) (ids : List ℕ)
    (B : ClaimBooks) :
    Prop :=
  MsgClaimTierRewards.validate K.accCodec ⟨owner, ids⟩ = .ok () ∧ Loadable K w owner ids ∧
    (K.books w 0 0).claims (K.bondDenom w.ext) (K.due rewards receives w) ids = some B

omit hK hC in
theorem Payable.perm (hw : K.Sound w) (hperm : ids.Perm ids')
    {B : ClaimBooks} (h : Payable K rewards receives w owner ids B) :
    Payable K rewards receives w owner ids' B := by
  obtain ⟨hvalid, hload, hbooks⟩ := h
  refine ⟨validate_claimTierRewards_perm hperm hvalid,
    fun i hi ↦ hload i (hperm.mem_iff.mpr hi), ?_⟩
  rw [← claims_perm hw hperm hload]
  exact hbooks

theorem claimEach_payable (hw : K.Sound w) {totals : Coins × Coins}
    (hvalid : MsgClaimTierRewards.validate K.accCodec ⟨owner, ids⟩ = .ok ())
    (h : Succeeds (claimEach K owner ids) w totals w') :
    Payable K rewards receives w owner ids (K.books w' totals.1.amountOf totals.2.amountOf) := by
  have hnodup : ids.Nodup := MsgClaimTierRewards.nodup_of_validate hvalid
  have hT : Tracks K rewards receives (K.bondDenom w.ext) (K.due rewards receives w) w ids :=
    ⟨hw, rfl, fun _ _ ↦ rfl⟩
  have hbooks := claimEach_books hK hC 0 0 hT hnodup h
  simp only [Pi.zero_apply, zero_add] at hbooks
  exact ⟨hvalid, loadable_of_claimEach hK hw hnodup h, hbooks⟩

/-- A batch comes to the same in every order and in separate messages. For a list of positions,
either the message fails for every permutation, or it goes through for every permutation and leaves
the same books: the same store, the same balances and the same totals. Then the separate messages go
through as well, in every order, and leave these books; and when a list that the message accepts
fails, the separate messages do not all go through either. -/
theorem batch_claims_order_free (hw : Reachable K w) (owner : String) (ids : List ℕ) :
    ((∀ ids', ids.Perm ids' → ∀ response w',
      ¬ Succeeds (claimTierRewards K ⟨owner, ids'⟩) w response w') ∧
      (MsgClaimTierRewards.validate K.accCodec ⟨owner, ids⟩ = .ok () →
        ∀ ids', ids.Perm ids' → ∀ totals w', ¬ Succeeds (claimEach K owner ids') w totals w')) ∨
    ∃ books : ClaimBooks, ∀ ids', ids.Perm ids' →
      (∃ response w', Succeeds (claimTierRewards K ⟨owner, ids'⟩) w response w' ∧
        K.books w' response.baseRewards.amountOf response.bonusRewards.amountOf = books) ∧
      ∃ totals w', Succeeds (claimEach K owner ids') w totals w' ∧
        K.books w' totals.1.amountOf totals.2.amountOf = books := by
  have hsound := hw.sound hK
  by_cases hpayable : ∃ B, Payable K rewards receives w owner ids B
  · obtain ⟨B, hpayable⟩ := hpayable
    refine Or.inr ⟨B, fun ids' hperm ↦ ?_⟩
    have hpayable' := hpayable.perm hsound hperm
    obtain ⟨hvalid, hload, hbooks⟩ := hpayable'
    have hnodup : ids'.Nodup := MsgClaimTierRewards.nodup_of_validate hvalid
    have howner := ((validate_claimTierRewards_iff _ _ _).mp hvalid).1
    constructor
    · obtain ⟨response, w', hrun⟩ := claimTierRewards_of_books hK hC hsound hvalid hload hbooks
      obtain ⟨_, _, hsame⟩ := claimTierRewards_books hK hC hsound hrun
      exact ⟨response, w', hrun, Option.mem_unique hsame hbooks⟩
    · obtain ⟨totals, w', hrun⟩ :=
        claimEach_of_books hK hC howner ⟨hsound, rfl, fun _ _ ↦ rfl⟩ hnodup hload
        hbooks
      obtain ⟨_, _, hsame⟩ := claimEach_payable hK hC hsound hvalid hrun
      exact ⟨totals, w', hrun, Option.mem_unique hsame hbooks⟩
  · refine Or.inl ⟨fun ids' hperm response w' hrun ↦ hpayable ?_,
      fun hvalid ids' hperm totals w' hrun ↦ hpayable ?_⟩
    · exact ⟨_, (show Payable _ _ _ _ _ _ _ from claimTierRewards_books hK hC hsound hrun).perm
        hsound hperm.symm⟩
    · have hvalid' := validate_claimTierRewards_perm hperm hvalid
      exact ⟨_, (claimEach_payable hK hC hsound hvalid' hrun).perm hsound hperm.symm⟩

end Messages

/-! ### Two reference positions -/

namespace Reference

/-- Delegators of the reference keepers earn no base rewards. -/
def noRewards (_ : Outside) (_ : AccAddress) (_ : ValAddress) : Option (Rewards keepers.pool) :=
  some ⟨∅, fun _ _ ↦ 0, fun _ ↦ rfl⟩

theorem balance_eq (o : Outside) (a : AccAddress) (d : String) :
    keepers.balance o a d = if d = denom then o.balance a else 0 :=
  amountOf_single_eq denom d (o.balance a)

theorem balance_credit (o : Outside) (a b : AccAddress) (amount : ℤ) :
    (o.credit a amount).balance b = o.balance b + if b = a then amount else 0 := by
  unfold Outside.credit Outside.balance
  rw [getElem?_insert_eq]
  by_cases hab : a = b
  · subst hab
    simp
  · simp [hab, Ne.symm hab]

theorem claimContract : keepers.ClaimContract noRewards fun _ _ ↦ true where
  withdraws _ o _ _ r h := by
    obtain rfl := Option.some.inj h
    exact ⟨o, rfl⟩
  withdrawn _ o d v coins o' h := by
    obtain ⟨rfl, rfl⟩ := Prod.mk.inj (Except.ok.inj h)
    exact ⟨_, rfl, rfl, fun _ _ ↦ (add_zero _).symm, rfl, rfl, fun _ _ _ ↦ rfl⟩
  pays ctx o owner amount hpos hcovers _ := paysOut o owner ctx amount hpos hcovers
  paid _ o owner amount o' h := by
    change o.send 0 owner ((Coins.single denom amount).amountOf denom) = .ok o' at h
    rw [amountOf_single] at h
    obtain ⟨o₁, hdebit, rfl⟩ := map_eq_ok h
    unfold Outside.debit at hdebit
    split_ifs at hdebit
    obtain rfl := Except.ok.inj hdebit
    refine ⟨rfl, fun a d ↦ ?_, rfl, rfl, fun _ _ ↦ rfl⟩
    rw [balance_eq, balance_eq, balance_credit, balance_credit]
    change _ =
      _ + ((if a = owner ∧ d = denom then amount else 0) - if a = 0 ∧ d = denom then amount else 0)
    by_cases hd : d = denom
    · simp only [hd, and_true, if_true]
      split_ifs <;> ring
    · simp [hd]

/-- The user locks tokens with the second validator as well. -/
def lockSecond : Msg := .lockTier ⟨user, 1, 1000000, codec.bytesToString 2, false⟩

/-- The world with two positions, a year later. -/
def worldPair : World Outside := yearLater (deliver keepers lockSecond world₂).2

theorem reachable_worldPair : Reachable keepers worldPair :=
  ⟨_, world₀, fresh_world₀, .cons (chainStep_deliver (by decide +kernel))
    (.cons (chainStep_deliver (by decide +kernel)) (.cons (chainStep_deliver (by decide +kernel))
      (.cons (chainStep_yearLater _) .nil)))⟩

end Reference

open Reference

/-- The two positions of the user are claimed together, in either order, or one by one. -/
theorem batch_claims_order_free_pair :
    ∃ books : ClaimBooks, ∀ ids', [0, 1].Perm ids' →
      (∃ response w', Succeeds (claimTierRewards keepers ⟨user, ids'⟩)
          worldPair response w' ∧
        keepers.books w' response.baseRewards.amountOf response.bonusRewards.amountOf = books) ∧
      ∃ totals w', Succeeds (claimEach keepers user ids') worldPair totals w' ∧
        keepers.books w' totals.1.amountOf totals.2.amountOf = books := by
  obtain ⟨response, hpaid, hrun⟩ := succeeds_exec_of_any
    (P := fun response : ClaimTierRewardsResponse ↦ response.bonusRewards.amountOf denom == 100000)
    (x := claimTierRewards keepers ⟨user, [0, 1]⟩) (w := worldPair)
    (by decide +kernel)
  rcases batch_claims_order_free keepers_contract claimContract
    reachable_worldPair user [0, 1] with ⟨hfails, _⟩ | hsame
  · exact absurd hrun (hfails [0, 1] (List.Perm.refl _) response _)
  · exact hsame

end ChainMain.TieredRewards
