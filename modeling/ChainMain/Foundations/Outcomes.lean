import Mathlib

/-!
# Computations that end in a value or an error

A function that changes a state and may fail is written here as one that returns the new state or an
error: what was written before an error is never seen. The lemmas take such a computation apart when
it has ended in a value, one statement and one turn of a loop at a time.
-/

set_option autoImplicit false

namespace ChainMain.Foundations.Outcomes

variable {ε α β σ : Type}

/-- Continue only when the condition holds. -/
def ensure (condition : Bool) (e : ε) : Except ε Unit := if condition then .ok () else .error e

/-- The value of an option, or an error. -/
def expect (value : Option α) (e : ε) : Except ε α :=
  match value with
  | some a => .ok a
  | none => .error e

theorem bind_eq_ok {x : Except ε α} {f : α → Except ε β} {b : β} :
    x >>= f = .ok b ↔ ∃ a, x = .ok a ∧ f a = .ok b := by
  cases x with
  | ok a => simp [bind, Except.bind]
  | error e => simp [bind, Except.bind]

/-- A check and what follows it. -/
theorem check_eq_ok {x : Except ε Unit} {f : Unit → Except ε β} {b : β} :
    x >>= f = .ok b ↔ x = .ok () ∧ f () = .ok b := by
  rw [bind_eq_ok]
  exact ⟨fun ⟨(), hx, hf⟩ ↦ ⟨hx, hf⟩, fun ⟨hx, hf⟩ ↦ ⟨(), hx, hf⟩⟩

@[simp] theorem ok_bind (a : α) (f : α → Except ε β) : Except.ok a >>= f = f a := rfl

@[simp] theorem error_bind (e : ε) (f : α → Except ε β) : Except.error e >>= f = .error e := rfl

theorem pure_eq_ok {a b : α} : (pure a : Except ε α) = .ok b ↔ a = b :=
  ⟨Except.ok.inj, congrArg _⟩

theorem ensure_eq_ok {condition : Bool} {e : ε} {u : Unit} :
    ensure condition e = .ok u ↔ condition = true := by
  cases condition <;> simp [ensure]

theorem expect_eq_ok {value : Option α} {e : ε} {a : α} :
    expect value e = .ok a ↔ value = some a := by
  cases value <;> simp [expect]

theorem mapError_eq_ok {ε' : Type} {f : ε → ε'} {x : Except ε α} {a : α} :
    x.mapError f = .ok a ↔ x = .ok a := by
  cases x <;> simp [Except.mapError]

/-! ### Loops -/

theorem foldlM_nil_eq_ok {f : σ → α → Except ε σ} {s s' : σ} :
    [].foldlM f s = .ok s' ↔ s = s' :=
  pure_eq_ok

theorem foldlM_cons_eq_ok {f : σ → α → Except ε σ} {a : α} {rest : List α} {s s' : σ} :
    (a :: rest).foldlM f s = .ok s' ↔ ∃ s₁, f s a = .ok s₁ ∧ rest.foldlM f s₁ = .ok s' := by
  rw [List.foldlM_cons]
  exact bind_eq_ok

/-- What every turn of a loop keeps holds at its end. -/
theorem foldlM_invariant {P : σ → Prop} {f : σ → α → Except ε σ} {items : List α} {s s' : σ}
    (h₀ : P s) (hkeep : ∀ s a s', a ∈ items → P s → f s a = .ok s' → P s')
    (h : items.foldlM f s = .ok s') : P s' := by
  induction items generalizing s with
  | nil => exact foldlM_nil_eq_ok.mp h ▸ h₀
  | cons a rest ih =>
    obtain ⟨s₁, hstep, hrest⟩ := foldlM_cons_eq_ok.mp h
    refine ih (hkeep s a s₁ List.mem_cons_self h₀ hstep) (fun s b s' hb ↦ ?_) hrest
    exact hkeep s b s' (List.mem_cons_of_mem _ hb)

section Reading

variable {τ : Type} {read : α → Except ε β} {f : σ → α → Except ε σ} {turn : τ → β → τ}
  {state : τ → σ}
  (hturn : ∀ t a, f (state t) a = (read a).map fun b ↦ state (turn t b)) {items : List α}

include hturn

/-- A loop that reads every item and cannot fail otherwise is a loop over what was read. -/
theorem foldlM_of_read {value : α → β} (hread : ∀ a ∈ items, read a = .ok (value a)) (t : τ) :
    items.foldlM f (state t) = .ok (state ((items.map value).foldl turn t)) := by
  induction items generalizing t with
  | nil => rfl
  | cons a rest ih =>
    obtain ⟨hfirst, hrest⟩ := List.forall_mem_cons.mp hread
    rw [List.foldlM_cons, hturn, hfirst]
    exact ih hrest (turn t (value a))

/-- Such a loop ends in a value only if every item could be read. -/
theorem exists_read_of_foldlM {t : τ} {s' : σ} (h : items.foldlM f (state t) = .ok s') :
    ∀ a ∈ items, ∃ b, read a = .ok b := by
  induction items generalizing t with
  | nil => simp
  | cons a rest ih =>
    obtain ⟨s₁, hfirst, hrest⟩ := foldlM_cons_eq_ok.mp h
    rw [hturn] at hfirst
    cases hread : read a with
    | error e =>
      rw [hread] at hfirst
      cases hfirst
    | ok b =>
      rw [hread] at hfirst
      obtain rfl := Except.ok.inj hfirst
      exact List.forall_mem_cons.mpr ⟨⟨b, hread⟩, ih hrest⟩

end Reading

/-- A loop without a state ends in a value if every turn does. -/
theorem forM_eq_ok {f : α → Except ε Unit} {items : List α} :
    items.forM f = .ok () ↔ ∀ a ∈ items, f a = .ok () := by
  induction items with
  | nil => simp [pure, Except.pure]
  | cons a rest ih =>
    rw [List.forM_eq_forM, List.forM_cons, bind_eq_ok, List.forall_mem_cons]
    exact ⟨fun ⟨_, hfirst, hrest⟩ ↦ ⟨hfirst, ih.mp hrest⟩,
      fun ⟨hfirst, hrest⟩ ↦ ⟨(), hfirst, ih.mpr hrest⟩⟩

/-! ### Atomic execution -/

/-- The state after a computation that leaves the state alone when it fails. -/
def commit (s : σ) (outcome : Except ε σ) : σ :=
  match outcome with
  | .ok s' => s'
  | .error _ => s

/-- What a successful computation keeps is kept in any case. -/
theorem commit_induction {P : σ → Prop} {s : σ} {outcome : Except ε σ} (h : P s)
    (hok : ∀ s', outcome = .ok s' → P s') : P (commit s outcome) := by
  cases outcome with
  | ok s' => exact hok s' rfl
  | error e => exact h

end ChainMain.Foundations.Outcomes
