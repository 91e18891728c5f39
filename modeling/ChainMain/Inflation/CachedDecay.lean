import ChainMain.Inflation.ReferenceSdk

/-!
# The cache of the decay factor

The keeper keeps the factor per block of the last call in memory, outside of the store. A node is a
store with such a cache. Whatever happens to the node, the cached factor is the one that would be
computed for the rate and the number of blocks it is filed under (`Coherent`), so every call answers
what it would answer with an empty cache, and nodes that were restarted at different times give the
same answers (`decay_cache_invisible`).
-/

set_option autoImplicit false

namespace ChainMain.Inflation

open Foundations Decimal Outcomes Texts

/-- A node: the store, and the cache in its memory. -/
structure Node where
  store : Store
  cache : Option DecayCache
deriving DecidableEq, Repr

def Node.started (s : Store) : Node := ⟨s, none⟩

/-- What happens to a node. The number of blocks per year is a parameter of each call. -/
inductive Op (Minter MintParams : Type)
  | inflation (height : ℤ) (minter : Minter) (params : MintParams) (bondedRatio : Dec)
  | updateParams (msgAuthority : Text) (params : Params)
  | setDecayEpochStart (height : UInt64)
  | restart

namespace Op

variable {Minter MintParams : Type}

/-- A restart, which does not change the store. -/
def isRestart : Op Minter MintParams → Bool
  | restart => true
  | _ => false

end Op

section Node

variable {Minter MintParams : Type} (S : Sdk Minter MintParams) (authority : Text)

def Store.after (s : Store) : Op Minter MintParams → Store
  | .inflation .. => s
  | .updateParams msgAuthority params => commit s (updateParams S authority s msgAuthority params)
  | .setDecayEpochStart height => setDecayEpochStart s height
  | .restart => s

def Node.cacheAfter (node : Node) : Op Minter MintParams → Option DecayCache
  | .inflation height minter params bondedRatio =>
    match deflationCalculationFn S node.store node.cache height minter params bondedRatio with
    | .ok (_, cache) => cache
    | .error _ => node.cache
  | .restart => none
  | _ => node.cache

def Node.after (node : Node) (op : Op Minter MintParams) : Node :=
  ⟨node.store.after S authority op, node.cacheAfter S op⟩

/-- What a call answers with a cache: the inflation, or the panic. -/
def answer (s : Store) (cache : Option DecayCache) : Op Minter MintParams → List (Except Err Dec)
  | .inflation height minter params bondedRatio =>
    [(deflationCalculationFn S s cache height minter params bondedRatio).map Prod.fst]
  | _ => []

/-- The answers of a node to the calls among the operations. -/
def Node.answers (node : Node) : List (Op Minter MintParams) → List (Except Err Dec)
  | [] => []
  | op :: rest => answer S node.store node.cache op ++ (node.after S authority op).answers rest

/-- The answers when the factor is computed anew in every call. -/
def recomputed (s : Store) : List (Op Minter MintParams) → List (Except Err Dec)
  | [] => []
  | op :: rest => answer S s none op ++ recomputed (s.after S authority op) rest

end Node

variable {Minter MintParams : Type} {S : Sdk Minter MintParams} {authority : Text}
  {cache : Option DecayCache} {s : Store}

/-- The cached factor is the one computed for what it is filed under. -/
def Coherent (S : Sdk Minter MintParams) (cache : Option DecayCache) : Prop :=
  ∀ c ∈ cache, S.approxRoot (1 - c.decayRate) (c.blocksPerYear / monthsInYear) = .ok c.blockFactor

theorem coherent_none : Coherent S none := fun _ h ↦ nomatch h

/-! ### One call -/

/-- Two outcomes with the same value, or the same error, the first of which leaves a coherent
cache. -/
structure Agrees (S : Sdk Minter MintParams)
    (cached computed : Except Err (Dec × Option DecayCache)) :
    Prop where
  value : cached.map Prod.fst = computed.map Prod.fst
  coherent : ∀ value cache, cached = .ok (value, cache) → Coherent S cache

theorem Agrees.pure (h : Coherent S cache) (value : Dec) (cache' : Option DecayCache) :
    Agrees S (pure (value, cache)) (pure (value, cache')) where
  value := rfl
  coherent := fun _ _ hok ↦ (Prod.mk.inj (Except.ok.inj hok)).2 ▸ h

theorem Agrees.error (e : Err) : Agrees S (.error e) (.error e) where
  value := rfl
  coherent := fun _ _ hok ↦ nomatch hok

theorem Agrees.bind {cached computed : Except Err (Dec × Option DecayCache)}
    {f : Dec × Option DecayCache → Except Err (Dec × Option DecayCache)}
    (h : Agrees S cached computed)
    (hf : ∀ value cache cache', Coherent S cache →
      Agrees S (f (value, cache)) (f (value, cache'))) :
    Agrees S (cached >>= f) (computed >>= f) := by
  have hvalue := h.value
  cases cached with
  | error e =>
    cases computed with
    | error e' =>
      obtain rfl := Except.error.inj hvalue
      exact Agrees.error e
    | ok result => cases hvalue
  | ok result =>
    cases computed with
    | error e' => cases hvalue
    | ok result' =>
      obtain ⟨value, cache⟩ := result
      obtain ⟨value', cache'⟩ := result'
      obtain rfl : value = value' := Except.ok.inj hvalue
      exact hf value cache cache' (h.coherent _ _ rfl)

theorem getPerBlockFactor_agrees (h : Coherent S cache) (decayRate : Dec) (blocksPerYear : UInt64) :
    Agrees S (getPerBlockFactor S cache decayRate blocksPerYear (blocksPerYear / monthsInYear))
      (getPerBlockFactor S none decayRate blocksPerYear (blocksPerYear / monthsInYear)) := by
  cases hhit : cache.filter fun c ↦
      c.decayRate == decayRate && c.blocksPerYear == blocksPerYear with
  | none =>
    have hmiss : getPerBlockFactor S cache decayRate blocksPerYear (blocksPerYear / monthsInYear) =
        getPerBlockFactor S none decayRate blocksPerYear (blocksPerYear / monthsInYear) := by
      rw [getPerBlockFactor, hhit]
      rfl
    refine ⟨by rw [hmiss], fun factor cache' hok ↦ ?_⟩
    -- the cache is filled with the factor just computed
    rw [hmiss] at hok
    obtain ⟨root, hroot, heq⟩ := bind_eq_ok.mp hok
    obtain ⟨rfl, rfl⟩ := Prod.mk.inj (pure_eq_ok.mp heq)
    rintro c hc
    obtain rfl := Option.some.inj hc
    exact mapError_eq_ok.mp hroot
  | some c =>
    -- a hit is filed under the same rate and number of blocks
    obtain ⟨rfl, hfiled⟩ := Option.filter_eq_some_iff.mp hhit
    obtain ⟨hrate, hyear⟩ := Bool.and_eq_true_iff.mp hfiled
    obtain rfl := eq_of_beq hrate
    obtain rfl := eq_of_beq hyear
    have hmatch : getPerBlockFactor S (some c) c.decayRate c.blocksPerYear
        (c.blocksPerYear / monthsInYear) = .ok (c.blockFactor, some c) := by
      rw [getPerBlockFactor, hhit]
      rfl
    have hcomputed : getPerBlockFactor S none c.decayRate c.blocksPerYear
        (c.blocksPerYear / monthsInYear) = .ok (c.blockFactor, some c) := by
      dsimp only [getPerBlockFactor, Option.filter_none]
      rw [h c rfl]
      rfl
    rw [hmatch, hcomputed]
    exact Agrees.pure h c.blockFactor (some c)

theorem decayedRate_agrees (h : Coherent S cache) (decayRate baseRate : Dec)
    (blocksPerYear blocksElapsed : UInt64) :
    Agrees S (decayedRate S cache decayRate baseRate blocksPerYear blocksElapsed)
      (decayedRate S none decayRate baseRate blocksPerYear blocksElapsed) := by
  unfold decayedRate
  dsimp only
  split_ifs with hmonth
  · cases wholeMonths blocksElapsed (blocksPerYear / monthsInYear) with
    | error e => exact Agrees.error e
    | ok n =>
      refine Agrees.bind (getPerBlockFactor_agrees h decayRate blocksPerYear) ?_
      exact fun factor cache cache' hcache ↦ Agrees.pure hcache _ cache'
  · exact Agrees.pure h baseRate none

/-- A call with a coherent cache answers what it answers without one, and leaves a coherent
cache. -/
theorem deflationCalculationFn_agrees (h : Coherent S cache) (s : Store) (height : ℤ)
    (minter : Minter) (params : MintParams) (bondedRatio : Dec) :
    Agrees S (deflationCalculationFn S s cache height minter params bondedRatio)
      (deflationCalculationFn S s none height minter params bondedRatio) := by
  unfold deflationCalculationFn
  cases (getParams s).mapError fun e ↦
      Err.panic (.wrapped "failed to get inflation params: %s" [] e) with
  | error e => exact Agrees.error e
  | ok inflationParams =>
    rw [ok_bind, ok_bind]
    dsimp only
    by_cases hdisabled : (!inflationParams.decayRate.isPositive) = true
    · rw [if_pos hdisabled, if_pos hdisabled]
      exact Agrees.pure h _ none
    · rw [if_neg hdisabled, if_neg hdisabled]
      cases s.decayEpochStart with
      | none => exact Agrees.pure h _ none
      | some decayEpoch =>
        dsimp only
        split_ifs with hbefore
        · exact Agrees.pure h _ none
        · exact decayedRate_agrees h _ _ _ _

/-! ### Whole histories -/

theorem Coherent.after {node : Node} (h : Coherent S node.cache) (op : Op Minter MintParams) :
    Coherent S (node.after S authority op).cache := by
  cases op with
  | inflation height minter params bondedRatio =>
    have hagrees := deflationCalculationFn_agrees h node.store height minter params bondedRatio
    rw [Node.after, Node.cacheAfter]
    split
    · rename_i rate cache hok
      exact hagrees.coherent rate cache hok
    · exact h
  | updateParams msgAuthority params => exact h
  | setDecayEpochStart height => exact h
  | restart => exact coherent_none

theorem Coherent.run {node : Node} (h : Coherent S node.cache) (ops : List (Op Minter MintParams)) :
    Coherent S (ops.foldl (Node.after S authority) node).cache := by
  induction ops generalizing node with
  | nil => exact h
  | cons op rest ih => exact ih (h.after op)

/-- What is answered to an operation does not depend on a coherent cache. -/
theorem answer_eq {node : Node} (h : Coherent S node.cache) (op : Op Minter MintParams) :
    answer S node.store node.cache op = answer S node.store none op := by
  cases op with
  | inflation height minter params bondedRatio =>
    exact congrArg (fun value ↦ [value])
      (deflationCalculationFn_agrees h node.store height minter params bondedRatio).value
  | updateParams msgAuthority params => rfl
  | setDecayEpochStart height => rfl
  | restart => rfl

theorem answers_eq_recomputed {node : Node} (h : Coherent S node.cache)
    (ops : List (Op Minter MintParams)) :
    node.answers S authority ops = recomputed S authority node.store ops := by
  induction ops generalizing node with
  | nil => rfl
  | cons op rest ih => rw [Node.answers, recomputed, answer_eq h, ih (h.after op), Node.after]

theorem recomputed_filter (s : Store) (ops : List (Op Minter MintParams)) :
    recomputed S authority s ops =
      recomputed S authority s (ops.filter fun op ↦ !op.isRestart) := by
  induction ops generalizing s with
  | nil => rfl
  | cons op rest ih =>
    cases op with
    | restart => exact ih s
    | inflation height minter params bondedRatio =>
      exact congrArg (answer S s none (.inflation height minter params bondedRatio) ++ ·) (ih s)
    | updateParams msgAuthority params => exact ih _
    | setDecayEpochStart height => exact ih _

/-- A node answers every call as if it computed the factor anew, whatever happens to it, and two
nodes that go through the same operations with different restarts give the same answers. -/
theorem decay_cache_invisible (S : Sdk Minter MintParams) (authority : Text) (s : Store) :
    (∀ ops, (Node.started s).answers S authority ops = recomputed S authority s ops) ∧
    ∀ ops ops' : List (Op Minter MintParams),
      (ops.filter fun op ↦ !op.isRestart) = (ops'.filter fun op ↦ !op.isRestart) →
        (Node.started s).answers S authority ops = (Node.started s).answers S authority ops' := by
  have hanswers : ∀ ops, (Node.started s).answers S authority ops = recomputed S authority s ops :=
    answers_eq_recomputed coherent_none
  refine ⟨hanswers, fun ops ops' hsame ↦ ?_⟩
  rw [hanswers, hanswers, recomputed_filter, hsame, ← recomputed_filter]

section Histories

open Reference

/-- A node that is restarted between two calls and one that is not. -/
theorem decay_cache_invisible_restart :
    (Node.started ⟨some decaying, some 1⟩).answers sdk Reference.authority
        [.inflation 100 1 120 1, .restart, .inflation 101 1 120 1] =
      (Node.started ⟨some decaying, some 1⟩).answers sdk Reference.authority
        [.inflation 100 1 120 1, .inflation 101 1 120 1] :=
  (decay_cache_invisible sdk Reference.authority ⟨some decaying, some 1⟩).2
    [.inflation 100 1 120 1, .restart, .inflation 101 1 120 1]
    [.inflation 100 1 120 1, .inflation 101 1 120 1] rfl

end Histories

end ChainMain.Inflation
