import ChainMain.Foundations.OrderedStore
import ChainMain.Foundations.Texts

/-!
# Partial functions kept in a store

A program that keeps values by index in a store writes each of them under a key computed from its
index. `Encodes m key f` says that the store holds exactly the values of the partial function `f`.
Reading, writing and removing at the key of an index then is reading, changing and forgetting the
value of the function there, as long as no other index with a value has the same key (`KeyFree`).

The entries whose keys begin with a given text are listed by a prefix scan. The scan of a store that
encodes a function lists the values of the indices whose keys begin so, each once (`mem_scan`,
`length_scan`).
-/

set_option autoImplicit false

namespace ChainMain.Foundations.EncodedStore

open OrderedStore Texts
open Std (TransOrd LawfulEqOrd)

variable {ι κ ν : Type} [Ord κ] [TransOrd κ] [LawfulEqOrd κ]

/-- The store holds the values of a partial function, each under the key of its index. -/
def Encodes (m : Map κ ν) (key : ι → κ) (f : ι → Option ν) : Prop :=
  ∀ k v, m[k]? = some v ↔ ∃ i, key i = k ∧ f i = some v

/-- No other index with a value has the key of `i`. -/
def KeyFree (key : ι → κ) (f : ι → Option ν) (i : ι) : Prop :=
  ∀ j v, f j = some v → key j = key i → j = i

omit [Ord κ] [TransOrd κ] [LawfulEqOrd κ] in
theorem KeyFree.of_injective {key : ι → κ} (hkey : Function.Injective key) (f : ι → Option ν)
    (i : ι) : KeyFree key f i :=
  fun _ _ _ heq ↦ hkey heq

namespace Encodes

variable {m m' : Map κ ν} {key : ι → κ} {f f' : ι → Option ν} {i : ι}

omit [LawfulEqOrd κ] in
theorem empty : Encodes (∅ : Map κ ν) key fun _ ↦ none := by
  intro k v
  simp

omit [LawfulEqOrd κ] in
theorem congr (h : Encodes m key f) (heq : ∀ i, f' i = f i) : Encodes m key f' := by
  intro k v
  simp only [heq]
  exact h k v

omit [LawfulEqOrd κ] in
/-- The value of an index is stored under its key. -/
theorem getElem?_of_some (h : Encodes m key f) {v : ν} (hv : f i = some v) : m[key i]? = some v :=
  (h _ _).mpr ⟨i, rfl, hv⟩

omit [LawfulEqOrd κ] in
/-- What is read at the key of an index is its value. -/
theorem getElem? (h : Encodes m key f) (hfree : KeyFree key f i) : m[key i]? = f i := by
  apply Option.ext
  intro v
  rw [h]
  constructor
  · rintro ⟨j, hkey, hv⟩
    exact hfree j v hv hkey ▸ hv
  · exact fun hv ↦ ⟨i, rfl, hv⟩

variable [DecidableEq ι] [DecidableEq κ]

/-- A write at the key of an index changes its value. -/
theorem insert (h : Encodes m key f) (hfree : KeyFree key f i) (v : ν) :
    Encodes (m.insert (key i) v) key (Function.update f i (some v)) := by
  intro k u
  rw [getElem?_insert_eq]
  split_ifs with heq
  · subst heq
    constructor
    · intro hu
      exact ⟨i, rfl, by rw [Function.update_self, hu]⟩
    · rintro ⟨j, hkey, hu⟩
      by_cases hji : j = i
      · rwa [hji, Function.update_self] at hu
      · rw [Function.update_of_ne hji] at hu
        exact absurd (hfree j u hu hkey) hji
  · rw [h]
    refine exists_congr fun j ↦ and_congr_right fun hkey ↦ ?_
    have hji : j ≠ i := fun hji ↦ heq (by rw [← hkey, hji])
    rw [Function.update_of_ne hji]

/-- A removal at the key of an index forgets its value. -/
theorem erase (h : Encodes m key f) (hfree : KeyFree key f i) :
    Encodes (m.erase (key i)) key (Function.update f i none) := by
  intro k u
  rw [getElem?_erase_eq]
  split_ifs with heq
  · subst heq
    refine iff_of_false (by simp) ?_
    rintro ⟨j, hkey, hu⟩
    by_cases hji : j = i
    · rw [hji, Function.update_self] at hu
      cases hu
    · rw [Function.update_of_ne hji] at hu
      exact absurd (hfree j u hu hkey) hji
  · rw [h]
    refine exists_congr fun j ↦ and_congr_right fun hkey ↦ ?_
    have hji : j ≠ i := fun hji ↦ heq (by rw [← hkey, hji])
    rw [Function.update_of_ne hji]

omit [DecidableEq ι] [DecidableEq κ] in
/-- A store is determined by the function it encodes. -/
theorem unique (h : Encodes m key f) (h' : Encodes m' key f) : m = m' := by
  ext1 k
  apply Option.ext
  intro v
  rw [h, h']

end Encodes

/-! ### Prefix scans -/

/-- The entries whose keys begin with a text, in the order of their keys. -/
def scan (m : Map Text ν) (pre : Text) : List (Text × ν) :=
  m.toList.filter fun entry ↦ pre.isPrefixOf entry.1

theorem mem_scan {m : Map Text ν} {pre k : Text} {v : ν} :
    (k, v) ∈ scan m pre ↔ m[k]? = some v ∧ pre <+: k := by
  rw [scan, List.mem_filter, mem_toList, List.isPrefixOf_iff_prefix]

theorem nodup_keys_scan (m : Map Text ν) (pre : Text) : ((scan m pre).map Prod.fst).Nodup :=
  (nodup_keys_toList m).sublist (List.filter_sublist.map _)

/-- A scan lists as many entries as there are indices with a value whose keys begin so. -/
theorem length_scan {m : Map Text ν} {key : ι → Text} {f : ι → Option ν} (h : Encodes m key f)
    (pre : Text) (hinj : Set.InjOn key {i | (f i).isSome ∧ pre <+: key i}) :
    (scan m pre).length = {i | (f i).isSome ∧ pre <+: key i}.ncard := by
  have himage : key '' {i | (f i).isSome ∧ pre <+: key i} =
      ((scan m pre).map Prod.fst).toFinset := by
    ext k
    rw [List.coe_toFinset, Set.mem_image, Set.mem_ofPred_eq, List.mem_map]
    constructor
    · rintro ⟨i, ⟨hsome, hstart⟩, rfl⟩
      obtain ⟨v, hv⟩ := Option.isSome_iff_exists.mp hsome
      exact ⟨(key i, v), mem_scan.mpr ⟨h.getElem?_of_some hv, hstart⟩, rfl⟩
    · rintro ⟨⟨k', v⟩, hmem, rfl⟩
      obtain ⟨hv, hstart⟩ := mem_scan.mp hmem
      obtain ⟨i, rfl, hi⟩ := (h k' v).mp hv
      exact ⟨i, ⟨by rw [hi]; rfl, hstart⟩, rfl⟩
  rw [← hinj.ncard_image, himage, Set.ncard_coe_finset,
    List.toFinset_card_of_nodup (nodup_keys_scan m pre), List.length_map]

end ChainMain.Foundations.EncodedStore
