import Mathlib

/-!
# Programs over a store, with errors

A program reads and writes a state and ends in a value or an error. Writes made before an error stay
in the state, as they do for a function that returns an error after it has written to its store;
`atomically` is the runner that throws them away. `Succeeds x s a s'` says that the program ends in
the value `a` and the state `s'`, and `Fails x s e s'` that it ends in the error `e`. The
`succeeds_` and `fails_` lemmas take a run apart, one statement at a time, so that what a program
has done is read off its text without unfolding the monad.
-/

set_option autoImplicit false

namespace ChainMain.Foundations.StoreProgram

/-- A program over states `σ` with errors `ε`. -/
abbrev Program (σ ε : Type) := ExceptT ε (StateM σ)

variable {σ ε α β : Type}

/-- The outcome and the final state of a program. -/
def exec (x : Program σ ε α) (s : σ) : Except ε α × σ := x.run.run s

/-- The program ends in the value `a` and the state `s'`. -/
def Succeeds (x : Program σ ε α) (s : σ) (a : α) (s' : σ) : Prop := exec x s = (.ok a, s')

/-- The program ends in the error `e` and leaves the state `s'`. -/
def Fails (x : Program σ ε α) (s : σ) (e : ε) (s' : σ) : Prop := exec x s = (.error e, s')

/-- Continue only when the condition holds. -/
def ensure (condition : Bool) (e : ε) : Program σ ε Unit :=
  if condition then pure () else throw e

/-- The value of an option, or an error. -/
def expect (value : Option α) (e : ε) : Program σ ε α :=
  match value with
  | some a => pure a
  | none => throw e

/-- The outcome of a computation that touches no state. -/
def fromOutcome (value : Except ε α) : Program σ ε α :=
  match value with
  | .ok a => pure a
  | .error e => throw e

/-- A program that cannot fail. -/
def always (x : StateM σ α) : Program σ ε α := ExceptT.lift x

/-- Run a program and keep its writes only when it succeeds. -/
def atomically (x : Program σ ε α) (s : σ) : Except ε α × σ :=
  match exec x s with
  | (.ok a, s') => (.ok a, s')
  | (.error e, _) => (.error e, s)

/-! ### Execution -/

@[simp] theorem exec_pure (a : α) (s : σ) : exec (pure a : Program σ ε α) s = (.ok a, s) := rfl

@[simp] theorem exec_throw (e : ε) (s : σ) :
    exec (throw e : Program σ ε α) s = (.error e, s) := rfl

theorem exec_bind (x : Program σ ε α) (f : α → Program σ ε β) (s : σ) :
    exec (x >>= f) s =
      match exec x s with
      | (.ok a, s') => exec (f a) s'
      | (.error e, s') => (.error e, s') := by
  change (StateT.run (ExceptT.bindCont f =<< ExceptT.run x) s : Except ε β × σ) = _
  simp only [exec]
  rcases hx : StateT.run (ExceptT.run x) s with ⟨outcome, s'⟩
  cases outcome with
  | ok a => simp only [Bind.bindLeft, StateT.run_bind, hx]; rfl
  | error e => simp only [Bind.bindLeft, StateT.run_bind, hx]; rfl

@[simp] theorem exec_get (s : σ) : exec (get : Program σ ε σ) s = (.ok s, s) := rfl

@[simp] theorem exec_modify (f : σ → σ) (s : σ) :
    exec (modify f : Program σ ε PUnit) s = (.ok ⟨⟩, f s) := rfl

@[simp] theorem exec_always (x : StateM σ α) (s : σ) :
    exec (always x : Program σ ε α) s = (.ok (x.run s).1, (x.run s).2) := rfl

/-! ### Taking a successful program apart -/

/-- A program ends in one way only. -/
theorem Succeeds.unique {x : Program σ ε α} {s s₁ s₂ : σ} {a b : α} (h : Succeeds x s a s₁)
    (h' : Succeeds x s b s₂) : a = b ∧ s₁ = s₂ := by
  obtain ⟨hval, hstate⟩ := Prod.mk.inj (h.symm.trans h')
  exact ⟨Except.ok.inj hval, hstate⟩

theorem succeeds_bind {x : Program σ ε α} {f : α → Program σ ε β} {s s' : σ} {b : β} :
    Succeeds (x >>= f) s b s' ↔ ∃ a s₁, Succeeds x s a s₁ ∧ Succeeds (f a) s₁ b s' := by
  unfold Succeeds
  rw [exec_bind]
  rcases hx : exec x s with ⟨outcome, s₁⟩
  cases outcome with
  | ok a =>
    constructor
    · intro h
      exact ⟨a, s₁, rfl, h⟩
    · rintro ⟨a', s₁', heq, h⟩
      obtain ⟨hval, rfl⟩ := Prod.mk.inj heq
      obtain rfl := Except.ok.inj hval
      exact h
  | error e =>
    constructor
    · intro h
      cases (Prod.mk.inj h).1
    · rintro ⟨a', s₁', heq, _⟩
      cases (Prod.mk.inj heq).1

theorem succeeds_pure {a b : α} {s s' : σ} :
    Succeeds (pure a : Program σ ε α) s b s' ↔ a = b ∧ s = s' := by
  simp [Succeeds]

protected theorem Succeeds.pure {a : α} {s : σ} : Succeeds (pure a : Program σ ε α) s a s :=
  succeeds_pure.mpr ⟨rfl, rfl⟩

theorem succeeds_throw {e : ε} {a : α} {s s' : σ} :
    ¬ Succeeds (throw e : Program σ ε α) s a s' := by
  simp [Succeeds]

theorem succeeds_get {s s' t : σ} :
    Succeeds (get : Program σ ε σ) s t s' ↔ s = t ∧ s = s' := by
  simp [Succeeds]

theorem succeeds_modify {f : σ → σ} {s s' : σ} {u : PUnit} :
    Succeeds (modify f : Program σ ε PUnit) s u s' ↔ f s = s' := by
  simp [Succeeds]

theorem succeeds_ensure {condition : Bool} {e : ε} {s s' : σ} {u : Unit} :
    Succeeds (ensure condition e) s u s' ↔ condition = true ∧ s = s' := by
  cases condition <;> simp [Succeeds, ensure]

theorem succeeds_expect {value : Option α} {e : ε} {a : α} {s s' : σ} :
    Succeeds (expect value e) s a s' ↔ value = some a ∧ s = s' := by
  cases value <;> simp [Succeeds, expect]

theorem succeeds_fromOutcome {value : Except ε α} {a : α} {s s' : σ} :
    Succeeds (fromOutcome value) s a s' ↔ value = .ok a ∧ s = s' := by
  cases value <;> simp [Succeeds, fromOutcome]

theorem succeeds_always {x : StateM σ α} {a : α} {s s' : σ} :
    Succeeds (always x : Program σ ε α) s a s' ↔ x.run s = (a, s') := by
  rw [Succeeds, exec_always]
  constructor
  · intro h
    obtain ⟨hval, hstate⟩ := Prod.mk.inj h
    exact Prod.ext (Except.ok.inj hval) hstate
  · intro h
    rw [h]

/-- A conditional program has taken one of its branches. -/
theorem succeeds_ite {condition : Prop} [Decidable condition] {x y : Program σ ε α} {a : α}
    {s s' : σ} :
    Succeeds (if condition then x else y) s a s' ↔
      condition ∧ Succeeds x s a s' ∨ ¬ condition ∧ Succeeds y s a s' := by
  split_ifs with h <;> simp [h]

/-! ### Taking a failed program apart -/

/-- A sequence fails in its first part, or in its second part after the first has succeeded. -/
theorem fails_bind {x : Program σ ε α} {f : α → Program σ ε β} {s s' : σ} {e : ε} :
    Fails (x >>= f) s e s' ↔
      Fails x s e s' ∨ ∃ a s₁, Succeeds x s a s₁ ∧ Fails (f a) s₁ e s' := by
  unfold Fails Succeeds
  rw [exec_bind]
  rcases hx : exec x s with ⟨outcome, s₁⟩
  cases outcome with
  | ok a =>
    constructor
    · intro h
      exact Or.inr ⟨a, s₁, rfl, h⟩
    · rintro (h | ⟨a', s₁', heq, h⟩)
      · cases (Prod.mk.inj h).1
      · obtain ⟨hval, rfl⟩ := Prod.mk.inj heq
        obtain rfl := Except.ok.inj hval
        exact h
  | error e' =>
    constructor
    · intro h
      obtain ⟨herror, rfl⟩ := Prod.mk.inj h
      obtain rfl := Except.error.inj herror
      exact Or.inl rfl
    · rintro (h | ⟨a', s₁', heq, _⟩)
      · obtain ⟨herror, rfl⟩ := Prod.mk.inj h
        obtain rfl := Except.error.inj herror
        rfl
      · cases (Prod.mk.inj heq).1

theorem fails_pure {a : α} {e : ε} {s s' : σ} : ¬ Fails (pure a : Program σ ε α) s e s' := by
  simp [Fails]

theorem fails_get {e : ε} {s s' : σ} : ¬ Fails (get : Program σ ε σ) s e s' := by
  simp [Fails]

theorem fails_modify {f : σ → σ} {e : ε} {s s' : σ} :
    ¬ Fails (modify f : Program σ ε PUnit) s e s' := by
  simp [Fails]

theorem fails_ensure {condition : Bool} {e e' : ε} {s s' : σ} :
    Fails (ensure condition e) s e' s' ↔ condition = false ∧ e = e' ∧ s = s' := by
  cases condition <;> simp [Fails, ensure]

theorem fails_expect {value : Option α} {e e' : ε} {s s' : σ} :
    Fails (expect value e) s e' s' ↔ value = none ∧ e = e' ∧ s = s' := by
  cases value <;> simp [Fails, expect]

theorem fails_fromOutcome {value : Except ε α} {e : ε} {s s' : σ} :
    Fails (fromOutcome value) s e s' ↔ value = .error e ∧ s = s' := by
  cases value <;> simp [Fails, fromOutcome]

/-! ### What a program leaves alone -/

/-- Whenever the program succeeds, what `f` reads of the state is as it was. -/
def Leaves {γ : Type} (f : σ → γ) (x : Program σ ε α) : Prop :=
  ∀ s a s', Succeeds x s a s' → f s' = f s

section Leaves

variable {γ : Type} {f : σ → γ}

theorem leaves_bind {x : Program σ ε α} {g : α → Program σ ε β} (hx : Leaves f x)
    (hg : ∀ a, Leaves f (g a)) : Leaves f (x >>= g) := by
  intro s b s' h
  obtain ⟨a, s₁, hfirst, hrest⟩ := succeeds_bind.mp h
  exact (hg a s₁ b s' hrest).trans (hx s a s₁ hfirst)

theorem leaves_ite {condition : Prop} [Decidable condition] {x y : Program σ ε α}
    (hx : Leaves f x) (hy : Leaves f y) : Leaves f (if condition then x else y) := by
  split_ifs
  · exact hx
  · exact hy

/-- A program that only reads. -/
theorem leaves_of_reads {x : Program σ ε α} (h : ∀ s a s', Succeeds x s a s' → s' = s) :
    Leaves f x :=
  fun s a s' hx ↦ congrArg f (h s a s' hx)

theorem leaves_pure (a : α) : Leaves f (pure a : Program σ ε α) := by
  intro s b s' h
  rw [(succeeds_pure.mp h).2]

theorem leaves_throw (e : ε) : Leaves f (throw e : Program σ ε α) :=
  fun _ _ _ h ↦ absurd h succeeds_throw

theorem leaves_get : Leaves f (get : Program σ ε σ) := by
  intro s b s' h
  rw [(succeeds_get.mp h).2]

theorem leaves_modify {g : σ → σ} (hg : ∀ s, f (g s) = f s) :
    Leaves f (modify g : Program σ ε PUnit) := by
  intro s b s' h
  rw [← succeeds_modify.mp h, hg]

theorem leaves_ensure (condition : Bool) (e : ε) :
    Leaves f (ensure condition e : Program σ ε Unit) := by
  intro s b s' h
  rw [(succeeds_ensure.mp h).2]

theorem leaves_expect (value : Option α) (e : ε) :
    Leaves f (expect value e : Program σ ε α) := by
  intro s b s' h
  rw [(succeeds_expect.mp h).2]

theorem leaves_fromOutcome (value : Except ε α) :
    Leaves f (fromOutcome value : Program σ ε α) := by
  intro s b s' h
  rw [(succeeds_fromOutcome.mp h).2]

theorem leaves_always {x : StateM σ α} (hx : ∀ s, f (x.run s).2 = f s) :
    Leaves f (always x : Program σ ε α) := by
  intro s b s' h
  have hrun := hx s
  rwa [succeeds_always.mp h] at hrun

end Leaves

/-! ### Two programs in step -/

/-- Run from the image of the state `s`, the program `y` ends as `x` does from `s`, in the image of
its state and with the image of its value; and `x` ends in a state with the property `I`. -/
def MirrorsAt {τ : Type} (I : σ → Prop) (f : σ → τ) (g : α → β) (x : Program σ ε α)
    (y : Program τ ε β) (s : σ) : Prop :=
  exec y (f s) = ((exec x s).1.map g, f (exec x s).2) ∧ I (exec x s).2

/-- One program keeps the invariant `I`, and under it another mirrors the program. -/
def Mirrors {τ : Type} (I : σ → Prop) (f : σ → τ) (g : α → β) (x : Program σ ε α)
    (y : Program τ ε β) : Prop :=
  ∀ s, I s → MirrorsAt I f g x y s

section Mirrors

variable {τ γ δ : Type} {I : σ → Prop} {f : σ → τ} {g : α → β} {j : γ → δ} {x : Program σ ε α}
  {y : Program τ ε β} {k : α → Program σ ε γ} {k' : β → Program τ ε δ} {s s' : σ}

theorem Mirrors.succeeds (h : Mirrors I f g x y) {a : α} (hx : Succeeds x s a s') (hs : I s) :
    Succeeds y (f s) (g a) (f s') ∧ I s' := by
  obtain ⟨hy, hI⟩ := h s hs
  rw [show exec x s = (.ok a, s') from hx] at hy hI
  exact ⟨hy, hI⟩

theorem MirrorsAt.atomically (h : MirrorsAt I f g x y s) (hs : I s) :
    atomically y (f s) = ((atomically x s).1.map g, f (atomically x s).2) ∧
      I (atomically x s).2 := by
  obtain ⟨hy, hI⟩ := h
  unfold StoreProgram.atomically
  rcases hx : exec x s with ⟨outcome, s'⟩
  rw [hx] at hy hI
  rw [hy]
  cases outcome with
  | ok a => exact ⟨rfl, hI⟩
  | error e => exact ⟨rfl, hs⟩

theorem mirrorsAt_bind (h : MirrorsAt I f g x y s)
    (hk : ∀ a s', Succeeds x s a s' → I s' → MirrorsAt I f j (k a) (k' (g a)) s') :
    MirrorsAt I f j (x >>= k) (y >>= k') s := by
  obtain ⟨hy, hI⟩ := h
  unfold MirrorsAt
  rw [exec_bind, exec_bind, hy]
  rcases hx : exec x s with ⟨outcome, s'⟩
  rw [hx] at hI
  cases outcome with
  | ok a => exact hk a s' hx hI
  | error e => exact ⟨rfl, hI⟩

/-- After a program that only reads, the state is the same and the value is the one read there. -/
theorem mirrorsAt_read (h : MirrorsAt I f g x y s) (hx : ∀ a s', Succeeds x s a s' → s' = s)
    (hk : ∀ a, Succeeds x s a s → MirrorsAt I f j (k a) (k' (g a)) s) :
    MirrorsAt I f j (x >>= k) (y >>= k') s := by
  refine mirrorsAt_bind h fun a s' hread _ ↦ ?_
  obtain rfl := hx a s' hread
  exact hk a hread

theorem mirrors_bind (h : Mirrors I f g x y) (hk : ∀ a, Mirrors I f j (k a) (k' (g a))) :
    Mirrors I f j (x >>= k) (y >>= k') :=
  fun s hs ↦ mirrorsAt_bind (h s hs) fun a s' _ ↦ hk a s'

theorem mirrors_ite {p q : Prop} [Decidable p] [Decidable q] {x' : Program σ ε α}
    {y' : Program τ ε β} (hpq : p ↔ q) (h : Mirrors I f g x y) (h' : Mirrors I f g x' y') :
    Mirrors I f g (if p then x else x') (if q then y else y') := by
  by_cases hp : p
  · rw [if_pos hp, if_pos (hpq.mp hp)]
    exact h
  · rw [if_neg hp, if_neg fun hq ↦ hp (hpq.mpr hq)]
    exact h'

theorem mirrors_pure {a : α} {b : β} (h : b = g a) :
    Mirrors I f g (pure a : Program σ ε α) (pure b) :=
  fun _ hs ↦ ⟨h ▸ rfl, hs⟩

theorem mirrors_throw (e : ε) :
    Mirrors I f g (throw e : Program σ ε α) (throw e : Program τ ε β) :=
  fun _ hs ↦ ⟨rfl, hs⟩

/-- A state that is read has the invariant. -/
theorem mirrors_get_bind {k : σ → Program σ ε γ} {k' : τ → Program τ ε δ}
    (hk : ∀ s, I s → Mirrors I f j (k s) (k' (f s))) : Mirrors I f j (get >>= k) (get >>= k') :=
  fun s hs ↦ hk s hs s hs

theorem mirrors_modify {u : σ → σ} {u' : τ → τ} (h : ∀ s, u' (f s) = f (u s))
    (hI : ∀ s, I s → I (u s)) : Mirrors I f id (modify u : Program σ ε PUnit) (modify u') := by
  intro s hs
  unfold MirrorsAt
  rw [exec_modify, exec_modify, h s]
  exact ⟨rfl, hI s hs⟩

theorem mirrors_set (hs : I s) : Mirrors I f id (set s : Program σ ε PUnit) (set (f s)) :=
  fun _ _ ↦ ⟨rfl, hs⟩

theorem mirrors_ensure {condition condition' : Bool} (e : ε) (h : condition' = condition) :
    Mirrors I f id (ensure condition e) (ensure condition' e) := by
  subst h
  cases condition' <;> exact fun _ hs ↦ ⟨rfl, hs⟩

theorem mirrors_expect {value : Option α} {value' : Option β} (e : ε) (h : value' = value.map g) :
    Mirrors I f g (expect value e) (expect value' e) := by
  subst h
  cases value <;> exact fun _ hs ↦ ⟨rfl, hs⟩

theorem mirrors_expect_self (value : Option α) (e : ε) :
    Mirrors I f id (expect value e) (expect value e) :=
  mirrors_expect e (Option.map_id_apply).symm

theorem mirrors_fromOutcome_self (value : Except ε α) :
    Mirrors I f id (fromOutcome value) (fromOutcome value) := by
  cases value <;> exact fun _ hs ↦ ⟨rfl, hs⟩

theorem mirrors_always {z : StateM σ α} {z' : StateM τ β}
    (h : ∀ s, I s → z'.run (f s) = (g (z.run s).1, f (z.run s).2) ∧ I (z.run s).2) :
    Mirrors I f g (always z : Program σ ε α) (always z') := by
  intro s hs
  unfold MirrorsAt
  rw [exec_always, exec_always, (h s hs).1]
  exact ⟨rfl, (h s hs).2⟩

end Mirrors

/-! ### Atomic execution -/

/-- An atomic run either is the successful program or leaves the state alone. -/
theorem atomically_cases (x : Program σ ε α) (s : σ) :
    (∃ a, Succeeds x s a (atomically x s).2 ∧ (atomically x s).1 = .ok a) ∨
      ((∃ e, (atomically x s).1 = .error e) ∧ (atomically x s).2 = s) := by
  unfold atomically Succeeds
  rcases hx : exec x s with ⟨outcome, s'⟩
  cases outcome with
  | ok a => exact Or.inl ⟨a, rfl, rfl⟩
  | error e => exact Or.inr ⟨⟨e, rfl⟩, rfl⟩

end ChainMain.Foundations.StoreProgram
