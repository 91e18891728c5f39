import Mathlib

/-!
# Runs of a labelled transition system

A run is a list of transitions, each starting where the one before it has ended. The list keeps the
states along the way, so that a property of a whole history is a property of the list. Three rules
of induction are used with it: an invariant (`Run.invariant`), an invariant relating the state to a
value accumulated along the history (`Run.fold`), and a property of the history itself, which is the
recursor. `Run.mirrored` carries a run over to another system step by step.
-/

set_option autoImplicit false

namespace ChainMain.Foundations.Runs

/-- One transition of a history. -/
structure Transition (S Λ : Type) where
  source : S
  label : Λ
  target : S

variable {S Λ : Type} {step : S → Λ → S → Prop}

/-- The histories that lead from `s₀` to a state. -/
inductive Run (step : S → Λ → S → Prop) (s₀ : S) : List (Transition S Λ) → S → Prop
  | nil : Run step s₀ [] s₀
  | snoc {τ : List (Transition S Λ)} {s s' : S} {label : Λ} (hrun : Run step s₀ τ s)
      (hstep : step s label s') : Run step s₀ (τ ++ [⟨s, label, s'⟩]) s'

namespace Run

variable {s₀ s s' : S} {τ τ' : List (Transition S Λ)}

theorem single {label : Λ} (h : step s label s') : Run step s [⟨s, label, s'⟩] s' := snoc nil h

/-- One history can be continued by another. -/
theorem append (h : Run step s₀ τ s) (h' : Run step s τ' s') : Run step s₀ (τ ++ τ') s' := by
  induction h' with
  | nil => rwa [List.append_nil]
  | snoc _ hstep ih =>
    rw [← List.append_assoc]
    exact snoc ih hstep

theorem cons {label : Λ} (h : step s₀ label s) (h' : Run step s τ s') :
    Run step s₀ (⟨s₀, label, s⟩ :: τ) s' :=
  (single h).append h'

/-- A run whose transitions all have a property is a run of the steps that have it. -/
theorem restrict {P : S → Λ → S → Prop} (h : Run step s₀ τ s)
    (hP : ∀ t ∈ τ, P t.source t.label t.target) :
    Run (fun s label s' ↦ step s label s' ∧ P s label s') s₀ τ s := by
  induction h with
  | nil => exact nil
  | snoc _ hstep ih =>
    refine snoc (ih fun t ht ↦ hP t (List.mem_append_left _ ht)) ⟨hstep, ?_⟩
    exact hP _ (List.mem_append_right _ (List.mem_singleton_self _))

/-- What holds initially and is kept by every step holds at the end of every run. -/
theorem invariant {P : S → Prop} (h₀ : P s₀)
    (hkeep : ∀ s label s', P s → step s label s' → P s') (h : Run step s₀ τ s) : P s := by
  induction h with
  | nil => exact h₀
  | snoc _ hstep ih => exact hkeep _ _ _ ih hstep

/-- An invariant relates the state to what is accumulated along the history. -/
theorem fold {A : Type} {Q : S → A → Prop} {f : A → Transition S Λ → A} {a₀ : A} (h₀ : Q s₀ a₀)
    (hkeep : ∀ s label s' a, Q s a → step s label s' → Q s' (f a ⟨s, label, s'⟩))
    (h : Run step s₀ τ s) : Q s (τ.foldl f a₀) := by
  induction h with
  | nil => exact h₀
  | snoc _ hstep ih =>
    rw [List.foldl_append]
    exact hkeep _ _ _ _ ih hstep

/-- Under an invariant, a run is mirrored by its image with other labels, transition by
transition. -/
theorem mirrored {T M : Type} {step' : T → M → T → Prop} {I : S → Prop} {f : S → T}
    {R : S → Λ → M → Prop} (h₀ : I s₀)
    (hkeep : ∀ s label s' label', I s → step s label s' → R s label label' →
      step' (f s) label' (f s') ∧ I s')
    (h : Run step s₀ τ s) {μ : List (Transition T M)}
    (hμ : List.Forall₂ (fun t t' ↦ t'.source = f t.source ∧ R t.source t.label t'.label ∧
      t'.target = f t.target) τ μ) :
    Run step' (f s₀) μ (f s) ∧ I s ∧ ∀ t ∈ τ, I t.source := by
  induction h generalizing μ with
  | nil =>
    obtain rfl := List.forall₂_nil_left_iff.mp hμ
    exact ⟨nil, h₀, fun _ ht ↦ absurd ht List.not_mem_nil⟩
  | @snoc τ s s' label _ hstep ih =>
    -- the last transition of the image is the image of the last transition
    have hrev := List.forall₂_reverse_iff.mpr hμ
    rw [List.reverse_append, List.reverse_singleton, List.singleton_append,
      List.forall₂_cons_left_iff] at hrev
    obtain ⟨⟨_, label', _⟩, ν, ⟨rfl, hR, rfl⟩, hν, heq⟩ := hrev
    rw [← List.reverse_reverse ν, List.forall₂_reverse_iff] at hν
    obtain ⟨hrun, hI, hall⟩ := ih hν
    obtain ⟨hstep', hI'⟩ := hkeep s label s' label' hI hstep hR
    rw [← List.reverse_reverse μ, heq, List.reverse_cons]
    refine ⟨hrun.snoc hstep', hI', fun t ht ↦ ?_⟩
    rcases List.mem_append.mp ht with ht | ht
    · exact hall t ht
    · rw [List.mem_singleton.mp ht]
      exact hI

end Run

end ChainMain.Foundations.Runs
