import ChainMain.Foundations.OrderedStore
import ChainMain.Foundations.StoreProgram

/-!
# Loading a list into a store

A program that loads a list checks each item and writes it. `succeeds_forM` and `succeeds_foldlM`
say that such a loop ends well if and only if every item passes its check, and that the state is
then the fold of the writes. The rest of the module is about these folds: what is read back from a
store written from a list whose keys are distinct (`getElem?_load`), how its entries are counted
(`count_load`), the counters that are increased once for each item (`isTally_tallyBy`) and the
values collected by key (`getD_foldl_collectByKey`).
-/

set_option autoImplicit false

namespace ChainMain.Foundations

/-! ### Loops that check and write -/

namespace StoreProgram

variable {σ ε α β : Type}

/-- The body is the check and the write as long as the state satisfies `P` for the items left, and
the write keeps this for the items after it. -/
theorem succeeds_forM {f : α → Program σ ε PUnit} {P : List α → σ → Prop} {check : α → Prop}
    {effect : σ → α → σ}
    (hbody : ∀ a rest s s', P (a :: rest) s → (Succeeds (f a) s ⟨⟩ s' ↔ check a ∧ s' = effect s a))
    (hkeep : ∀ a rest s, P (a :: rest) s → P rest (effect s a)) {items : List α} {s s' : σ}
    (hs : P items s) :
    Succeeds (items.forM f) s ⟨⟩ s' ↔ (∀ a ∈ items, check a) ∧ s' = items.foldl effect s := by
  induction items generalizing s with
  | nil =>
    change Succeeds (pure _ : Program σ ε PUnit) s ⟨⟩ s' ↔ _
    rw [succeeds_pure]
    simp [eq_comm]
  | cons a rest ih =>
    change Succeeds (f a >>= fun _ ↦ rest.forM f) s ⟨⟩ s' ↔ _
    rw [succeeds_bind, List.forall_mem_cons, List.foldl_cons]
    constructor
    · rintro ⟨_, s₁, hfirst, hrest⟩
      obtain ⟨hcheck, rfl⟩ := (hbody a rest s s₁ hs).mp hfirst
      obtain ⟨hall, rfl⟩ := (ih (hkeep a rest s hs)).mp hrest
      exact ⟨⟨hcheck, hall⟩, rfl⟩
    · rintro ⟨⟨hcheck, hall⟩, rfl⟩
      exact ⟨⟨⟩, _, (hbody a rest s _ hs).mpr ⟨hcheck, rfl⟩,
        (ih (hkeep a rest s hs)).mpr ⟨hall, rfl⟩⟩

/-- The same for a loop that carries a value, which changes with the items as well. -/
theorem succeeds_foldlM {f : β → α → Program σ ε β} {P : List α → σ → Prop} {check : α → Prop}
    {effect : σ → α → σ} {collect : β → α → β}
    (hbody : ∀ a rest b b' s s', P (a :: rest) s →
      (Succeeds (f b a) s b' s' ↔ check a ∧ b' = collect b a ∧ s' = effect s a))
    (hkeep : ∀ a rest s, P (a :: rest) s → P rest (effect s a)) {items : List α} {b b' : β}
    {s s' : σ} (hs : P items s) :
    Succeeds (items.foldlM f b) s b' s' ↔
      (∀ a ∈ items, check a) ∧ b' = items.foldl collect b ∧ s' = items.foldl effect s := by
  induction items generalizing b s with
  | nil =>
    change Succeeds (pure b : Program σ ε β) s b' s' ↔ _
    rw [succeeds_pure]
    simp [eq_comm]
  | cons a rest ih =>
    rw [List.foldlM_cons, succeeds_bind, List.forall_mem_cons, List.foldl_cons, List.foldl_cons]
    constructor
    · rintro ⟨b₁, s₁, hfirst, hrest⟩
      obtain ⟨hcheck, rfl, rfl⟩ := (hbody a rest b b₁ s s₁ hs).mp hfirst
      obtain ⟨hall, rfl, rfl⟩ := (ih (hkeep a rest s hs)).mp hrest
      exact ⟨⟨hcheck, hall⟩, rfl, rfl⟩
    · rintro ⟨⟨hcheck, hall⟩, rfl, rfl⟩
      exact ⟨_, _, (hbody a rest b _ s _ hs).mpr ⟨hcheck, rfl, rfl⟩,
        (ih (hkeep a rest s hs)).mpr ⟨hall, rfl, rfl⟩⟩

end StoreProgram

/-! ### Stores written from a list -/

namespace OrderedStore

open Std (TransOrd LawfulEqOrd)

variable {κ ν α : Type} [Ord κ] [TransOrd κ] [LawfulEqOrd κ] [DecidableEq κ]

/-- The store of the items of a list, each under its key. -/
def load (key : α → κ) (value : α → ν) (items : List α) : Map κ ν :=
  items.foldl (fun acc a ↦ acc.insert (key a) (value a)) ∅

variable {key : α → κ} {value : α → ν}

omit [LawfulEqOrd κ] [DecidableEq κ] in
theorem load_eq (items : List α) :
    load key value items =
      (items.map fun a ↦ (key a, value a)).foldl
        (fun acc entry ↦ acc.insert entry.1 entry.2) ∅ := by
  rw [List.foldl_map]
  rfl

/-- What is stored is what the list holds. -/
theorem getElem?_load {items : List α} (hnodup : (items.map key).Nodup) {k : κ} {v : ν} :
    (load key value items)[k]? = some v ↔ ∃ a ∈ items, key a = k ∧ value a = v := by
  have hkeys : ((items.map fun a ↦ (key a, value a)).map Prod.fst).Nodup := by
    rwa [List.map_map]
  rw [load_eq, getElem?_foldl_insert _ hkeys ∅ (by simp)]
  simp [Prod.ext_iff]

/-- Without any condition on the keys, the last item with a key is stored. -/
theorem getElem?_load_last (items : List α) (k : κ) :
    (load key value items)[k]? = (items.filter fun a ↦ decide (key a = k)).getLast?.map value := by
  have hfold : ∀ (rest : List α) (m : Map κ ν),
      (rest.foldl (fun acc a ↦ acc.insert (key a) (value a)) m)[k]? =
        (((rest.filter fun a ↦ decide (key a = k)).getLast?.map value).or m[k]?) := by
    intro rest
    induction rest with
    | nil => simp
    | cons a rest ih =>
      intro m
      rw [List.foldl_cons, ih, getElem?_insert_eq, List.filter_cons]
      by_cases ha : key a = k
      · rw [if_pos ha, if_pos (decide_eq_true ha), List.getLast?_cons]
        cases (rest.filter fun a ↦ decide (key a = k)).getLast? <;> rfl
      · rw [if_neg ha, if_neg fun h ↦ ha (of_decide_eq_true h)]
  rw [load, hfold]
  simp

/-- A store is loaded from its own walk, in any form `f` from which the entries can be read off. -/
theorem load_toList {m : Map κ ν} {f : κ × ν → α}
    (h : ∀ (k : κ) (v : ν), m[k]? = some v → key (f (k, v)) = k ∧ value (f (k, v)) = v) :
    load key value (m.toList.map f) = m := by
  have hentries : ((m.toList.map f).map fun a ↦ (key a, value a)) = m.toList := by
    rw [List.map_map]
    refine (List.map_congr_left ?_).trans (List.map_id _)
    rintro ⟨k, v⟩ hmem
    obtain ⟨hkey, hvalue⟩ := h k v (mem_toList.mp hmem)
    exact Prod.ext hkey hvalue
  rw [load_eq, hentries, foldl_insert_toList]

omit [DecidableEq κ] in
/-- The keys of a walk are distinct. -/
theorem nodup_keys_map_toList {β : Type} {m : Map κ ν} {f : κ × ν → α} {key : α → β} {g : κ → β}
    (hg : Function.Injective g) (h : ∀ (k : κ) (v : ν), m[k]? = some v → key (f (k, v)) = g k) :
    ((m.toList.map f).map key).Nodup := by
  have hkeys : (m.toList.map f).map key = (m.toList.map Prod.fst).map g := by
    rw [List.map_map, List.map_map]
    refine List.map_congr_left ?_
    rintro ⟨k, v⟩ hmem
    exact h k v (mem_toList.mp hmem)
  rw [hkeys]
  exact (nodup_keys_toList m).map hg

/-- The entries of the store are counted in the list. -/
theorem count_load (P : κ → ν → Bool) {items : List α} (hnodup : (items.map key).Nodup) :
    count P (load key value items) = items.countP fun a ↦ P (key a) (value a) := by
  have hfold : ∀ (rest : List α) (m : Map κ ν), (rest.map key).Nodup →
      (∀ a ∈ rest, m[key a]? = none) →
      count P (rest.foldl (fun acc a ↦ acc.insert (key a) (value a)) m) =
        count P m + rest.countP fun a ↦ P (key a) (value a) := by
    intro rest
    induction rest with
    | nil => exact fun m _ _ ↦ rfl
    | cons a rest ih =>
      intro m hkeys hfresh
      rw [List.map_cons, List.nodup_cons] at hkeys
      obtain ⟨ha, hfresh⟩ := List.forall_mem_cons.mp hfresh
      have hstill : ∀ b ∈ rest, (m.insert (key a) (value a))[key b]? = none := by
        intro b hb
        have hne : key a ≠ key b := fun heq ↦ hkeys.1 (heq ▸ List.mem_map_of_mem hb)
        rw [getElem?_insert_ne hne]
        exact hfresh b hb
      rw [List.foldl_cons, ih _ hkeys.2 hstill, count_insert_of_none P ha, List.countP_cons]
      omega
  rw [load, hfold items ∅ hnodup (by simp), count_empty, Nat.zero_add]

/-- Counters that are increased once for each item, except for the items that have no counter. -/
def tallyBy (counter : α → Option κ) (items : List α) : Map κ ℕ :=
  items.foldl (fun counts a ↦ (counter a).elim counts (increaseCount counts)) ∅

theorem isTally_tallyBy (counter : α → Option κ) (items : List α) :
    IsTally (tallyBy counter items) fun k ↦ items.countP fun a ↦ decide (counter a = some k) := by
  have hfold : ∀ (rest : List α) (counts : Map κ ℕ) (n : κ → ℕ), IsTally counts n →
      IsTally (rest.foldl (fun counts a ↦ (counter a).elim counts (increaseCount counts)) counts)
        fun k ↦ n k + rest.countP fun a ↦ decide (counter a = some k) := by
    intro rest
    induction rest with
    | nil => exact fun counts n h ↦ h
    | cons a rest ih =>
      intro counts n h
      rw [List.foldl_cons]
      cases ha : counter a with
      | none =>
        refine (ih counts n h).congr fun k ↦ ?_
        rw [List.countP_cons, ha]
        simp
      | some c =>
        have hstep : IsTally (increaseCount counts c) fun k ↦ if k = c then n c + 1 else n k := by
          refine h.increase (if_pos rfl) fun k hk ↦ if_neg hk
        refine (ih _ _ hstep).congr fun k ↦ ?_
        rw [List.countP_cons, ha]
        by_cases hk : k = c
        · subst hk
          simp
          omega
        · simp [hk, Ne.symm hk]
  have hempty : IsTally (∅ : Map κ ℕ) fun _ ↦ 0 := fun k ↦ by simp
  exact (hfold items ∅ (fun _ ↦ 0) hempty).congr fun k ↦ (Nat.zero_add _).symm

/-- One turn of a loop that collects values by key, in order; an item without a key is left out. -/
def collectByKey (key : α → Option κ) (value : α → ν) (groups : Map κ (List ν)) (a : α) :
    Map κ (List ν) :=
  (key a).elim groups fun k ↦ groups.insert k ((groups[k]?).getD [] ++ [value a])

theorem getD_foldl_collectByKey {key : α → Option κ} (items : List α) (k : κ) :
    ((items.foldl (collectByKey key value) ∅)[k]?).getD [] =
      (items.filter fun a ↦ decide (key a = some k)).map value := by
  have hfold : ∀ (rest : List α) (groups : Map κ (List ν)),
      ((rest.foldl (collectByKey key value) groups)[k]?).getD [] =
        (groups[k]?).getD [] ++ (rest.filter fun a ↦ decide (key a = some k)).map value := by
    intro rest
    induction rest with
    | nil => simp
    | cons a rest ih =>
      intro groups
      rw [List.foldl_cons, ih, List.filter_cons]
      unfold collectByKey
      cases ha : key a with
      | none => simp
      | some c =>
        rw [Option.elim_some, getElem?_insert_eq]
        by_cases hc : c = k
        · subst hc
          simp
        · simp [hc]
  rw [hfold]
  simp

omit [DecidableEq κ] in
/-- Counters that hold the same numbers are equal. -/
theorem IsTally.unique {counts counts' : Map κ ℕ} {n : κ → ℕ} (h : IsTally counts n)
    (h' : IsTally counts' n) : counts = counts' := by
  ext1 k
  rw [h k, h' k]

end OrderedStore

end ChainMain.Foundations
