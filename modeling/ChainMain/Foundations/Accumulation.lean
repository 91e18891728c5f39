import ChainMain.Foundations.Outcomes

/-!
# Programs that only add

A program over a state accumulates when it reads its state only to add to it: the state is a reading
`state t` of an accumulator `t` in an additive monoid, and a run either fails or adds an amount,
where neither the failure nor the amount depends on what has been added before. `Accumulates` says
this of a program together with its amount. Such programs compose (`Accumulates.andThen`,
`Accumulates.afterReading`), and so do loops of them (`Accumulates.foldlM`), whose amount is the
`total` over the items.

What a loop adds is then a matter of the amounts alone. `total_eq_ok` reads it as a sum, and
`toOption_total_perm` says that visiting the items in another order gives the same sum or fails as
well, as long as the amounts commute.
-/

set_option autoImplicit false

namespace ChainMain.Foundations.Accumulation

open Outcomes

variable {ε σ α β M : Type} [AddMonoid M]

/-- A run from a reading of `t` fails, or ends in the reading of `t` with the amount added. -/
def Accumulates (state : M → σ) (step : σ → Except ε σ) (amount : Except ε M) : Prop :=
  ∀ t, step (state t) = amount.map fun c ↦ state (t + c)

/-- What a loop adds: the amounts of its items in order, or the first failure. -/
def total (amount : α → Except ε M) : List α → Except ε M
  | [] => .ok 0
  | a :: rest => do
    let c ← amount a
    let d ← total amount rest
    return c + d

/-- The amount of a program that does not fail. -/
def value (amount : Except ε M) : M := amount.toOption.getD 0

namespace Accumulates

variable {state : M → σ} {f g : σ → Except ε σ} {x y : Except ε M}

/-- A program that leaves the state alone adds nothing. -/
theorem unchanged : Accumulates state (Except.ok (ε := ε)) (.ok 0) := by
  intro t
  change _ = Except.ok (state (t + 0))
  rw [add_zero]

/-- One program after another. -/
theorem andThen (hf : Accumulates state f x) (hg : Accumulates state g y) :
    Accumulates state (fun s ↦ f s >>= g) (x >>= fun c ↦ y >>= fun d ↦ .ok (c + d)) := by
  intro t
  dsimp only
  rw [hf t]
  cases x with
  | error e => rfl
  | ok c =>
    refine (hg (t + c)).trans ?_
    cases y with
    | error e => rfl
    | ok d => exact congrArg (fun u ↦ Except.ok (state u)) (add_assoc t c d)

/-- A program that first reads something which does not depend on the state. -/
theorem afterReading {read : Except ε β} {step : β → σ → Except ε σ} {amount : β → Except ε M}
    (h : ∀ b, read = .ok b → Accumulates state (step b) (amount b)) :
    Accumulates state (fun s ↦ read >>= fun b ↦ step b s) (read >>= amount) := by
  intro t
  cases hread : read with
  | error e => rfl
  | ok b => exact h b hread t

/-- A loop adds the total over its items. -/
theorem foldlM {step : σ → α → Except ε σ} {amount : α → Except ε M} {items : List α}
    (h : ∀ a ∈ items, Accumulates state (step · a) (amount a)) :
    Accumulates state (fun s ↦ items.foldlM step s) (total amount items) := by
  induction items with
  | nil => exact unchanged
  | cons a rest ih =>
    obtain ⟨hfirst, hrest⟩ := List.forall_mem_cons.mp h
    intro t
    dsimp only
    rw [List.foldlM_cons]
    exact hfirst.andThen (ih hrest) t

end Accumulates

section Totals

variable {amount : α → Except ε M}

theorem value_ok (c : M) : value (Except.ok (ε := ε) c) = c := rfl

/-- A loop that does not fail adds the sum of the amounts. -/
theorem total_eq_ok {items : List α} {c : M} :
    total amount items = .ok c ↔
      (∀ a ∈ items, ∃ d, amount a = .ok d) ∧ c = (items.map fun a ↦ value (amount a)).sum := by
  induction items generalizing c with
  | nil => simp [total, eq_comm]
  | cons a rest ih =>
    rw [total, bind_eq_ok, List.forall_mem_cons, List.map_cons, List.sum_cons]
    constructor
    · rintro ⟨d, hd, hrest⟩
      obtain ⟨d', hd', hsum⟩ := bind_eq_ok.mp hrest
      obtain ⟨hall, rfl⟩ := ih.mp hd'
      refine ⟨⟨⟨d, hd⟩, hall⟩, ?_⟩
      rw [hd, value_ok]
      exact (pure_eq_ok.mp hsum).symm
    · rintro ⟨⟨⟨d, hd⟩, hall⟩, rfl⟩
      refine ⟨d, hd, bind_eq_ok.mpr ⟨_, ih.mpr ⟨hall, rfl⟩, ?_⟩⟩
      rw [hd, value_ok]
      rfl

/-- What zero has and every amount has, and what sums keep, the total has. -/
theorem total_induction {P : M → Prop} (hzero : P 0) (hadd : ∀ {c d}, P c → P d → P (c + d))
    {items : List α} (hamount : ∀ a ∈ items, ∀ c, amount a = .ok c → P c) {c : M}
    (h : total amount items = .ok c) : P c := by
  induction items generalizing c with
  | nil => exact Except.ok.inj h ▸ hzero
  | cons a rest ih =>
    obtain ⟨hfirst, hrest⟩ := List.forall_mem_cons.mp hamount
    obtain ⟨d, hd, h⟩ := bind_eq_ok.mp h
    obtain ⟨d', hd', h⟩ := bind_eq_ok.mp h
    exact pure_eq_ok.mp h ▸ hadd (hfirst d hd) (ih hrest hd')

/-- A loop that fails does so at one of its items. -/
theorem exists_of_total_eq_error {items : List α} {e : ε} (h : total amount items = .error e) :
    ∃ a ∈ items, amount a = .error e := by
  induction items with
  | nil => cases h
  | cons a rest ih =>
    rw [total] at h
    cases ha : amount a with
    | error e' =>
      rw [ha] at h
      exact ⟨a, List.mem_cons_self, ha.trans h⟩
    | ok c =>
      cases hrest : total amount rest with
      | error e' =>
        rw [ha, hrest] at h
        obtain ⟨b, hb, hfails⟩ := ih (hrest.trans h)
        exact ⟨b, List.mem_cons_of_mem a hb, hfails⟩
      | ok d =>
        rw [ha, hrest] at h
        cases h

theorem total_congr {amount' : α → Except ε M} {items : List α}
    (h : ∀ a ∈ items, amount a = amount' a) : total amount items = total amount' items := by
  induction items with
  | nil => rfl
  | cons a rest ih =>
    obtain ⟨hfirst, hrest⟩ := List.forall_mem_cons.mp h
    rw [total, total, hfirst, ih hrest]

/-- Two loops with the same outcome: both fail, or both add the same. -/
theorem toOption_total_eq {items : List α} {amount' : β → Except ε M} {items' : List β}
    (hok : (∀ a ∈ items, ∃ d, amount a = .ok d) ↔ ∀ a ∈ items', ∃ d, amount' a = .ok d)
    (hsum : (∀ a ∈ items, ∃ d, amount a = .ok d) → (items.map fun a ↦ value (amount a)).sum =
      (items'.map fun a ↦ value (amount' a)).sum) :
    (total amount items).toOption = (total amount' items').toOption := by
  by_cases hall : ∀ a ∈ items, ∃ d, amount a = .ok d
  · rw [total_eq_ok.mpr ⟨hall, rfl⟩, total_eq_ok.mpr ⟨hok.mp hall, rfl⟩, hsum hall]
  · cases hx : total amount items with
    | ok c => exact absurd (total_eq_ok.mp hx).1 hall
    | error e =>
      cases hy : total amount' items' with
      | ok c => exact absurd (hok.mpr (total_eq_ok.mp hy).1) hall
      | error e' => rfl

/-- The order of the items does not matter when their amounts commute. -/
theorem toOption_total_perm {items items' : List α} (hperm : items.Perm items')
    (hcomm : (items.map fun a ↦ value (amount a)).Pairwise AddCommute) :
    (total amount items).toOption = (total amount items').toOption :=
  toOption_total_eq ⟨fun h a ha ↦ h a (hperm.mem_iff.mpr ha),
    fun h a ha ↦ h a (hperm.mem_iff.mp ha)⟩
    fun _ ↦ (hperm.map _).sum_eq' hcomm

/-- Two loops over the same items whose amounts have the same outcomes. -/
theorem toOption_total_congr {amount' : α → Except ε M} {items : List α}
    (h : ∀ a ∈ items, (amount a).toOption = (amount' a).toOption) :
    (total amount items).toOption = (total amount' items).toOption := by
  refine toOption_total_eq (forall₂_congr fun a ha ↦ ?_) fun _ ↦ ?_
  · have hsame := h a ha
    cases hx : amount a <;> cases hy : amount' a <;> rw [hx, hy] at hsame <;>
        simp_all [Except.toOption]
  · refine congrArg List.sum (List.map_congr_left fun a ha ↦ ?_)
    rw [value, value, h a ha]

/-- A loop over one list after another. -/
theorem total_append (items items' : List α) :
    total amount (items ++ items') =
      total amount items >>= fun c ↦ total amount items' >>= fun d ↦ .ok (c + d) := by
  induction items with
  | nil =>
    rw [List.nil_append, total, ok_bind]
    cases total amount items' with
    | error e => rfl
    | ok d => exact congrArg Except.ok (zero_add d).symm
  | cons a rest ih =>
    rw [List.cons_append, total, total, ih]
    cases amount a with
    | error e => rfl
    | ok c =>
      cases total amount rest with
      | error e => rfl
      | ok c' =>
        cases total amount items' with
        | error e => rfl
        | ok d => exact congrArg Except.ok (add_assoc c c' d).symm

end Totals

/-- The outcome of a bind is a bind of outcomes. -/
theorem toOption_bind (x : Except ε α) (f : α → Except ε β) :
    (x >>= f).toOption = x.toOption.bind fun a ↦ (f a).toOption := by
  cases x <;> rfl

theorem toOption_mapError {ε' : Type} (f : ε → ε') (x : Except ε α) :
    (x.mapError f).toOption = x.toOption := by
  cases x <;> rfl

/-! ### Failures -/

theorem mapError_eq_error {ε' : Type} {f : ε → ε'} {x : Except ε α} {e : ε'}
    (h : x.mapError f = .error e) : ∃ e₀, x = .error e₀ ∧ f e₀ = e := by
  cases x with
  | error e₀ => exact ⟨e₀, rfl, Except.error.inj h⟩
  | ok a => cases h

theorem bind_eq_error {x : Except ε α} {f : α → Except ε β} {e : ε}
    (h : x >>= f = .error e) : x = .error e ∨ ∃ a, x = .ok a ∧ f a = .error e := by
  cases x with
  | error e₀ => exact Or.inl (congrArg Except.error (Except.error.inj h))
  | ok a => exact Or.inr ⟨a, rfl, h⟩

end ChainMain.Foundations.Accumulation
