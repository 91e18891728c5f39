import Mathlib

/-!
# Counting in an ordered key-value store

An ordered key-value store is `Std.ExtTreeMap`: it is walked in increasing key order, and two stores
with the same entries are equal. The library covers reading after a write. This module adds what
index maintenance needs on top of it: the number of entries that satisfy a predicate (`count`), how
that number moves under a write and a removal (`count_insert`, `count_erase`), stores of counters
that hold such numbers (`IsTally`), and the rebuilding of a store from its own walk
(`foldl_insert_toList`).

Pairs are ordered lexicographically (`pairOrd`), so a store keyed by pairs is walked group by group.
-/

set_option autoImplicit false

namespace ChainMain.Foundations.OrderedStore

open Std (ExtTreeMap TransOrd LawfulEqOrd)

/-- An ordered store from keys to values. -/
abbrev Map (κ ν : Type) [Ord κ] := ExtTreeMap κ ν

/-- Pairs are compared on the first component, then on the second. -/
instance pairOrd {α β : Type} [Ord α] [Ord β] : Ord (α × β) := lexOrd

/-- Pairs with the same first component are compared on the second. -/
theorem lt_of_compare_pair {α : Type} [Ord α] [LawfulEqOrd α] {a : α} {m n : ℕ}
    (h : compare (a, m) (a, n) = .lt) : m < n := by
  change compareLex (compareOn Prod.fst) (compareOn Prod.snd) (a, m) (a, n) = .lt at h
  have hfst : compareOn Prod.fst (a, m) (a, n) = .eq := Std.compare_eq_iff_eq.mpr rfl
  rw [compareLex, hfst] at h
  exact Nat.compare_eq_lt.mp h

variable {κ ν μ : Type} [Ord κ] [TransOrd κ] [LawfulEqOrd κ]

section Reading

variable [DecidableEq κ]

/-- Reading after a write, with the keys compared by equality. -/
theorem getElem?_insert_eq (m : Map κ ν) (k a : κ) (v : ν) :
    (m.insert k v)[a]? = if k = a then some v else m[a]? := by
  rw [ExtTreeMap.getElem?_insert]
  simp only [Std.compare_eq_iff_eq]

/-- Reading after a removal, with the keys compared by equality. -/
theorem getElem?_erase_eq (m : Map κ ν) (k a : κ) :
    (m.erase k)[a]? = if k = a then none else m[a]? := by
  rw [ExtTreeMap.getElem?_erase]
  simp only [Std.compare_eq_iff_eq]

theorem getElem?_insert_ne {m : Map κ ν} {k a : κ} (h : k ≠ a) (v : ν) :
    (m.insert k v)[a]? = m[a]? := by
  rw [getElem?_insert_eq, if_neg h]

/-- What is read after a write is what was written, or what was read before under another key. -/
theorem eq_or_getElem?_of_insert {m : Map κ ν} {k a : κ} {v u : ν}
    (h : (m.insert k v)[a]? = some u) : (a = k ∧ u = v) ∨ (a ≠ k ∧ m[a]? = some u) := by
  rw [getElem?_insert_eq] at h
  split_ifs at h with hk
  · exact .inl ⟨hk.symm, (Option.some.inj h).symm⟩
  · exact .inr ⟨Ne.symm hk, h⟩

theorem getElem?_erase_ne {m : Map κ ν} {k a : κ} (h : k ≠ a) : (m.erase k)[a]? = m[a]? := by
  rw [getElem?_erase_eq, if_neg h]

theorem getElem?_of_erase {m : Map κ ν} {k a : κ} {u : ν} (h : (m.erase k)[a]? = some u) :
    a ≠ k ∧ m[a]? = some u := by
  rw [getElem?_erase_eq] at h
  split_ifs at h with hk
  exact ⟨Ne.symm hk, h⟩

/-- The second of two writes at one key wins. -/
theorem insert_insert (m : Map κ ν) (k : κ) (v u : ν) :
    (m.insert k v).insert k u = m.insert k u := by
  ext1 a
  simp only [getElem?_insert_eq]
  split_ifs <;> rfl

/-- A removal undoes a write at the same key. -/
theorem erase_insert (m : Map κ ν) (k : κ) (v : ν) : (m.insert k v).erase k = m.erase k := by
  ext1 a
  simp only [getElem?_insert_eq, getElem?_erase_eq]
  split_ifs <;> rfl

/-- Changing every value after an insertion, and before it. -/
theorem map_insert (f : κ → ν → μ) (m : Map κ ν) (k : κ) (v : ν) :
    (m.insert k v).map f = (m.map f).insert k (f k v) := by
  ext1 a
  rw [ExtTreeMap.getElem?_map, getElem?_insert_eq, getElem?_insert_eq, ExtTreeMap.getElem?_map]
  split_ifs with h
  · subst h
    rfl
  · rfl

/-- Changing every value after a removal, and before it. -/
theorem map_erase (f : κ → ν → μ) (m : Map κ ν) (k : κ) :
    (m.erase k).map f = (m.map f).erase k := by
  ext1 a
  rw [ExtTreeMap.getElem?_map, getElem?_erase_eq, getElem?_erase_eq, ExtTreeMap.getElem?_map]
  split_ifs <;> rfl

/-- Writing the stored value again changes nothing. -/
theorem insert_self {m : Map κ ν} {k : κ} {v : ν} (h : m[k]? = some v) : m.insert k v = m := by
  ext1 a
  rw [getElem?_insert_eq]
  split_ifs with heq
  · rw [← heq, h]
  · rfl

end Reading

/-! ### Walking -/

/-- A walk visits every entry once. -/
theorem nodup_toList (m : Map κ ν) : m.toList.Nodup := by
  refine ExtTreeMap.distinct_keys_toList.imp ?_
  intro a b hab heq
  exact hab (by rw [heq]; exact Std.compare_eq_iff_eq.mpr rfl)

/-- A walk visits exactly the stored entries. -/
theorem mem_toList {m : Map κ ν} {k : κ} {v : ν} : (k, v) ∈ m.toList ↔ m[k]? = some v :=
  ExtTreeMap.mem_toList_iff_getElem?_eq_some

/-- The keys are those with a value. -/
theorem mem_keys {m : Map κ ν} {k : κ} : k ∈ m.keys ↔ ∃ v, m[k]? = some v := by
  rw [ExtTreeMap.mem_keys, ExtTreeMap.mem_iff_isSome_getElem?, Option.isSome_iff_exists]

/-- A walk visits every key once. -/
theorem nodup_keys_toList (m : Map κ ν) : (m.toList.map Prod.fst).Nodup := by
  rw [List.Nodup, List.pairwise_map]
  refine ExtTreeMap.distinct_keys_toList.imp ?_
  intro a b hab heq
  exact hab (Std.compare_eq_iff_eq.mpr heq)

section Groups

variable {α β : Type} [Ord α] [TransOrd α] [LawfulEqOrd α] [DecidableEq α] [Ord β] [TransOrd β]
  [LawfulEqOrd β]

/-- The keys of one group, by their second components. -/
theorem mem_group {m : Map (α × β) Unit} {a : α} {b : β} :
    b ∈ (m.keys.filter fun key ↦ key.1 == a).map Prod.snd ↔ m[(a, b)]? = some () := by
  simp only [List.mem_map, List.mem_filter, beq_iff_eq]
  constructor
  · rintro ⟨⟨a', b'⟩, ⟨hmem, rfl⟩, rfl⟩
    obtain ⟨_, hkey⟩ := mem_keys.mp hmem
    exact hkey
  · intro h
    exact ⟨(a, b), ⟨mem_keys.mpr ⟨(), h⟩, rfl⟩, rfl⟩

omit [LawfulEqOrd α] [LawfulEqOrd β] in
theorem nodup_group (m : Map (α × β) Unit) (a : α) :
    ((m.keys.filter fun key ↦ key.1 == a).map Prod.snd).Nodup := by
  refine List.Nodup.map_on ?_ (ExtTreeMap.nodup_keys.filter _)
  rintro ⟨a₁, b₁⟩ h₁ ⟨a₂, b₂⟩ h₂ heq
  rw [List.mem_filter] at h₁ h₂
  exact Prod.ext ((beq_iff_eq.mp h₁.2).trans (beq_iff_eq.mp h₂.2).symm) heq

end Groups

/-- The walk after a write at a new key is the old walk with one entry more. -/
theorem toList_insert_perm [DecidableEq κ] {m : Map κ ν} {k : κ} (h : m[k]? = none) (v : ν) :
    (m.insert k v).toList.Perm ((k, v) :: m.toList) := by
  have hnew : (k, v) ∉ m.toList := by
    rw [mem_toList, h]
    simp
  rw [List.perm_ext_iff_of_nodup (nodup_toList _) (List.nodup_cons.mpr ⟨hnew, nodup_toList m⟩)]
  rintro ⟨a, u⟩
  rw [mem_toList, getElem?_insert_eq, List.mem_cons, mem_toList]
  split_ifs with heq
  · subst heq
    simp [h, eq_comm]
  · simp [Ne.symm heq]

/-! ### Counting -/

/-- The number of entries that satisfy a predicate. -/
def count (P : κ → ν → Bool) (m : Map κ ν) : ℕ :=
  m.toList.countP fun entry ↦ P entry.1 entry.2

theorem count_empty (P : κ → ν → Bool) : count P (∅ : Map κ ν) = 0 := by
  have hnil : (∅ : Map κ ν).toList = [] := by
    rw [List.eq_nil_iff_forall_not_mem]
    rintro ⟨k, v⟩ hmem
    simp at hmem
  simp [count, hnil]

/-- A count only looks at the stored entries. -/
theorem count_congr {P Q : κ → ν → Bool} {m : Map κ ν}
    (h : ∀ k v, m[k]? = some v → P k v = Q k v) : count P m = count Q m := by
  refine List.countP_congr ?_
  rintro ⟨k, v⟩ hmem
  simp [h k v (mem_toList.mp hmem)]

theorem count_eq_zero {P : κ → ν → Bool} {m : Map κ ν} :
    count P m = 0 ↔ ∀ k v, m[k]? = some v → P k v = false := by
  rw [count, List.countP_eq_zero]
  constructor
  · intro h k v hk
    simpa using h (k, v) (mem_toList.mpr hk)
  · rintro h ⟨k, v⟩ hmem
    simpa using h k v (mem_toList.mp hmem)

theorem count_insert_of_none [DecidableEq κ] (P : κ → ν → Bool) {m : Map κ ν} {k : κ}
    (h : m[k]? = none) (v : ν) :
    count P (m.insert k v) = count P m + if P k v then 1 else 0 := by
  rw [count, (toList_insert_perm h v).countP_eq, List.countP_cons]
  rfl

/-- Removing an entry takes it out of the count. -/
theorem count_erase [DecidableEq κ] (P : κ → ν → Bool) {m : Map κ ν} {k : κ} {v : ν}
    (h : m[k]? = some v) : count P (m.erase k) + (if P k v then 1 else 0) = count P m := by
  have hback : (m.erase k).insert k v = m := by
    ext1 a
    rw [getElem?_insert_eq, getElem?_erase_eq]
    split_ifs with heq
    · rw [← heq, h]
    · rfl
  have hnone : (m.erase k)[k]? = none := by rw [getElem?_erase_eq, if_pos rfl]
  rw [← count_insert_of_none P hnone v, hback]

/-- Overwriting an entry takes the old value out of the count and brings the new one in. -/
theorem count_insert [DecidableEq κ] (P : κ → ν → Bool) {m : Map κ ν} {k : κ} {old : ν}
    (h : m[k]? = some old) (v : ν) :
    count P (m.insert k v) + (if P k old then 1 else 0) =
      count P m + if P k v then 1 else 0 := by
  have hnone : (m.erase k)[k]? = none := by rw [getElem?_erase_eq, if_pos rfl]
  have hsplit : m.insert k v = (m.erase k).insert k v := by
    ext1 a
    simp only [getElem?_insert_eq, getElem?_erase_eq]
    split_ifs <;> rfl
  rw [hsplit, count_insert_of_none P hnone v, ← count_erase P h]
  omega

/-- Overwriting one entry while the predicate changes at that entry only. -/
theorem count_update [DecidableEq κ] {P Q : κ → ν → Bool} {m : Map κ ν} {k : κ} {old : ν}
    (h : m[k]? = some old) (v : ν) (hother : ∀ a u, a ≠ k → m[a]? = some u → Q a u = P a u) :
    count Q (m.insert k v) + (if P k old then 1 else 0) = count P m + if Q k v then 1 else 0 := by
  have hsplit : count Q m + (if P k old then 1 else 0) = count P m + if Q k old then 1 else 0 := by
    rw [← count_erase P h, ← count_erase Q h]
    have hrest : count Q (m.erase k) = count P (m.erase k) := by
      refine count_congr fun a u hu ↦ ?_
      obtain ⟨hka, hu⟩ := getElem?_of_erase hu
      exact hother a u hka hu
    omega
  have hinsert := count_insert Q h v
  omega

/-! ### Removing several keys -/

/-- Removing keys one after the other removes exactly these keys. -/
theorem getElem?_foldl_erase [DecidableEq κ] (keys : List κ) (m : Map κ ν) (k : κ) :
    (keys.foldl (fun acc key ↦ acc.erase key) m)[k]? = if k ∈ keys then none else m[k]? := by
  induction keys generalizing m with
  | nil => simp
  | cons key rest ih =>
    rw [List.foldl_cons, ih, getElem?_erase_eq]
    by_cases hrest : k ∈ rest
    · simp [hrest]
    · by_cases heq : key = k
      · simp [heq]
      · simp [hrest, heq, Ne.symm heq]

/-- Removing the keys that hold a value. -/
theorem getElem?_foldl_erase_value [DecidableEq κ] [DecidableEq ν] (m : Map κ ν) (v : ν) (k : κ) :
    (((m.toList.filter fun entry ↦ entry.2 == v).map Prod.fst).foldl
      (fun acc key ↦ acc.erase key) m)[k]? = if m[k]? = some v then none else m[k]? := by
  rw [getElem?_foldl_erase]
  refine if_congr ?_ rfl rfl
  rw [List.mem_map, ← mem_toList]
  constructor
  · rintro ⟨⟨key, value⟩, hmem, rfl⟩
    obtain ⟨hin, hvalue⟩ := List.mem_filter.mp hmem
    rw [← beq_iff_eq.mp hvalue]
    exact hin
  · intro hmem
    exact ⟨(k, v), List.mem_filter.mpr ⟨hmem, beq_self_eq_true v⟩, rfl⟩

/-! ### Tallies

A tally is a store of counters that holds no counter at zero. -/

/-- One more in a counter. -/
def increaseCount (counts : Map κ ℕ) (k : κ) : Map κ ℕ :=
  counts.insert k ((counts[k]?).getD 0 + 1)

/-- One less in a counter, which goes when it reaches zero; a counter at zero stays as it is. -/
def decreaseCount (counts : Map κ ℕ) (k : κ) : Map κ ℕ :=
  match (counts[k]?).getD 0 with
  | 0 => counts
  | 1 => counts.erase k
  | count + 2 => counts.insert k (count + 1)

theorem getD_decreaseCount [DecidableEq κ] (counts : Map κ ℕ) (k : κ) :
    ((decreaseCount counts k)[k]?).getD 0 = (counts[k]?).getD 0 - 1 := by
  unfold decreaseCount
  split
  · rename_i hzero
    rw [hzero]
  · rename_i hone
    rw [getElem?_erase_eq, if_pos rfl, hone]
    rfl
  · rename_i n hmore
    rw [getElem?_insert_eq, if_pos rfl, hmore]
    rfl

/-- The counters hold the numbers `n`, and a counter at zero is absent. -/
def IsTally (counts : Map κ ℕ) (n : κ → ℕ) : Prop :=
  ∀ k, counts[k]? = if n k = 0 then none else some (n k)

namespace IsTally

variable {counts : Map κ ℕ} {n n' : κ → ℕ}

omit [LawfulEqOrd κ] in
theorem getD_eq (h : IsTally counts n) (k : κ) : (counts[k]?).getD 0 = n k := by
  rw [h k]
  split_ifs with hzero
  · exact hzero.symm
  · rfl

omit [LawfulEqOrd κ] in
theorem congr (h : IsTally counts n) (heq : ∀ k, n' k = n k) : IsTally counts n' := by
  intro k
  rw [heq k]
  exact h k

theorem increase [DecidableEq κ] (h : IsTally counts n) {k : κ} (hk : n' k = n k + 1)
    (hother : ∀ a, a ≠ k → n' a = n a) : IsTally (increaseCount counts k) n' := by
  intro a
  unfold increaseCount
  rw [getElem?_insert_eq, h.getD_eq]
  by_cases heq : k = a
  · subst heq
    rw [if_pos rfl, if_neg (by omega), hk]
  · rw [if_neg heq, h a, hother a (Ne.symm heq)]

theorem decrease [DecidableEq κ] (h : IsTally counts n) {k : κ} (hk : n k = n' k + 1)
    (hother : ∀ a, a ≠ k → n' a = n a) : IsTally (decreaseCount counts k) n' := by
  intro a
  unfold decreaseCount
  rw [h.getD_eq, hk]
  by_cases heq : k = a
  · subst heq
    cases hn : n' k with
    | zero => simp
    | succ m => simp
  · rw [hother a (Ne.symm heq), ← h a]
    cases n' k with
    | zero => exact getElem?_erase_ne heq
    | succ m => exact getElem?_insert_ne heq _

/-- One unit moves from one counter to another. -/
theorem move [DecidableEq κ] (h : IsTally counts n) {src dst : κ} (hne : src ≠ dst)
    (hsrc : n src = n' src + 1) (hdst : n' dst = n dst + 1)
    (hother : ∀ a, a ≠ src → a ≠ dst → n' a = n a) :
    IsTally (increaseCount (decreaseCount counts src) dst) n' := by
  have hmiddle : IsTally (decreaseCount counts src) fun a ↦ if a = src then n' src else n a := by
    refine h.decrease ?_ ?_
    · rw [if_pos rfl, hsrc]
    · intro a ha
      rw [if_neg ha]
  refine hmiddle.increase ?_ ?_
  · rw [if_neg (Ne.symm hne), hdst]
  · intro a ha
    split_ifs with hsrc'
    · rw [hsrc']
    · exact hother a hsrc' ha

end IsTally

/-! ### Rebuilding a store -/

/-- Writing entries with distinct keys one after the other stores exactly these entries. -/
theorem getElem?_foldl_insert [DecidableEq κ] (entries : List (κ × ν))
    (hnodup : (entries.map Prod.fst).Nodup) (m : Map κ ν)
    (hfresh : ∀ entry ∈ entries, m[entry.1]? = none) (k : κ) (v : ν) :
    (entries.foldl (fun acc entry ↦ acc.insert entry.1 entry.2) m)[k]? = some v ↔
      m[k]? = some v ∨ (k, v) ∈ entries := by
  induction entries generalizing m with
  | nil => simp
  | cons entry rest ih =>
    rw [List.map_cons, List.nodup_cons] at hnodup
    obtain ⟨hhead, hrest⟩ := hnodup
    have hfresh' : ∀ e ∈ rest, (m.insert entry.1 entry.2)[e.1]? = none := by
      intro e he
      have hne : entry.1 ≠ e.1 := fun heq ↦ hhead (heq ▸ List.mem_map_of_mem he)
      rw [getElem?_insert_ne hne]
      exact hfresh e (List.mem_cons_of_mem _ he)
    rw [List.foldl_cons, ih hrest _ hfresh', getElem?_insert_eq, List.mem_cons]
    split_ifs with heq
    · subst heq
      have hnone := hfresh entry List.mem_cons_self
      rw [hnone]
      constructor
      · rintro (hval | hmem)
        · exact Or.inr (Or.inl (by rw [← Option.some.inj hval]))
        · exact Or.inr (Or.inr hmem)
      · rintro (hval | hval | hmem)
        · cases hval
        · exact Or.inl (by rw [← hval])
        · exact Or.inr hmem
    · have hne : (k, v) ≠ entry := fun h ↦ heq (by rw [← h])
      simp [hne]

/-- A store is rebuilt by writing the entries of its own walk into the empty store. -/
theorem foldl_insert_toList [DecidableEq κ] (m : Map κ ν) :
    m.toList.foldl (fun acc entry ↦ acc.insert entry.1 entry.2) (∅ : Map κ ν) = m := by
  ext1 k
  apply Option.ext
  intro v
  have h := getElem?_foldl_insert m.toList (nodup_keys_toList m) (∅ : Map κ ν) (by simp) k v
  rw [h, mem_toList]
  simp

/-- Writing each entry of a walk back under its own key changes the values and nothing else. -/
theorem foldl_rewrite_toList [DecidableEq κ] (m : Map κ ν) (key : ν → κ) (f : ν → ν)
    (hkey : ∀ (k : κ) (v : ν), m[k]? = some v → key v = k) :
    m.toList.foldl (fun acc entry ↦ acc.insert (key entry.2) (f entry.2)) m =
      m.map fun _ v ↦ f v := by
  have hwritten : ∀ (entries : List (κ × ν)) (acc : Map κ ν) (k : κ),
      (∀ entry ∈ entries, m[entry.1]? = some entry.2) →
      (entries.foldl (fun acc entry ↦ acc.insert (key entry.2) (f entry.2)) acc)[k]? =
        if k ∈ entries.map Prod.fst then (m[k]?).map f else acc[k]? := by
    intro entries
    induction entries with
    | nil => exact fun acc k _ ↦ rfl
    | cons entry rest ih =>
      intro acc k hentries
      have hentry := hentries entry List.mem_cons_self
      rw [List.foldl_cons, ih _ _ fun e he ↦ hentries e (List.mem_cons_of_mem _ he),
        hkey _ _ hentry, getElem?_insert_eq, List.map_cons]
      by_cases hrest : k ∈ rest.map Prod.fst
      · rw [if_pos hrest, if_pos (List.mem_cons_of_mem _ hrest)]
      · rw [if_neg hrest]
        by_cases heq : entry.1 = k
        · subst heq
          rw [if_pos rfl, if_pos List.mem_cons_self, hentry]
          rfl
        · rw [if_neg heq, if_neg fun hmem ↦ (List.mem_cons.mp hmem).elim (fun h ↦ heq h.symm) hrest]
  ext1 k
  rw [hwritten m.toList m k fun entry hentry ↦ mem_toList.mp hentry, Std.ExtTreeMap.getElem?_map]
  cases hk : m[k]? with
  | none =>
    split_ifs <;> rfl
  | some v => rw [if_pos (List.mem_map.mpr ⟨(k, v), mem_toList.mpr hk, rfl⟩)]

end ChainMain.Foundations.OrderedStore
