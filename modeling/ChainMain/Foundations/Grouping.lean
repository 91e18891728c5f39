import ChainMain.Foundations.OrderedStore

/-!
# Grouping by a key

A loop that sorts items into groups keeps the groups in the order in which their keys were first
met. `upsert` is one turn of such a loop: the group of the key is updated, or a new group is put at
the end. What the groups hold together is what was put in, up to the order (`listed_upsert`), and
two groupings of the same items have the same groups up to the order (`Groups.perm_keys`,
`Groups.perm_content`).

A program may keep the keys in a list and the groups in a store instead. Filling in the groups gives
what `upsert` gives (`filled_collected`).
-/

set_option autoImplicit false

namespace ChainMain.Foundations.Grouping

open OrderedStore
open Std (TransOrd LawfulEqOrd)

variable {κ β β' ν : Type} [DecidableEq κ]

/-- The group of the key is updated, or a new one is put at the end. -/
def upsert (update : Option β → β) (k : κ) : List (κ × β) → List (κ × β)
  | [] => [(k, update none)]
  | (k', b) :: rest =>
    if k' = k then (k', update (some b)) :: rest else (k', b) :: upsert update k rest

variable {update : Option β → β} {k : κ} {v : ν} {groups : List (κ × β)} {groups' : List (κ × β')}

theorem keys_upsert (update : Option β → β) (k : κ) (groups : List (κ × β)) :
    (upsert update k groups).map Prod.fst =
      if k ∈ groups.map Prod.fst then groups.map Prod.fst else groups.map Prod.fst ++ [k] := by
  induction groups with
  | nil => rfl
  | cons group rest ih =>
    obtain ⟨k', b⟩ := group
    rw [upsert]
    split_ifs with hk hmem hmem
    · rfl
    · exact absurd (List.mem_map.mpr ⟨(k', b), List.mem_cons_self, hk⟩) hmem
    · have hrest : k ∈ rest.map Prod.fst := (List.mem_cons.mp hmem).resolve_left (Ne.symm hk)
      rw [List.map_cons, ih, if_pos hrest, List.map_cons]
    · have hrest : k ∉ rest.map Prod.fst := fun h ↦ hmem (List.mem_cons_of_mem _ h)
      rw [List.map_cons, ih, if_neg hrest, List.map_cons, List.cons_append]

theorem nodup_keys_upsert (h : (groups.map Prod.fst).Nodup) :
    ((upsert update k groups).map Prod.fst).Nodup := by
  rw [keys_upsert]
  split_ifs with hmem
  · exact h
  · rw [← List.concat_eq_append]
    exact h.concat hmem

theorem forall_upsert {P : β → Prop} (hnone : P (update none))
    (hsome : ∀ b, P b → P (update (some b))) (h : ∀ group ∈ groups, P group.2) :
    ∀ group ∈ upsert update k groups, P group.2 := by
  induction groups with
  | nil =>
    intro group hgroup
    rw [List.mem_singleton.mp hgroup]
    exact hnone
  | cons first rest ih =>
    obtain ⟨hfirst, hrest⟩ := List.forall_mem_cons.mp h
    rw [upsert]
    split_ifs with hk
    · exact List.forall_mem_cons.mpr ⟨hsome _ hfirst, hrest⟩
    · exact List.forall_mem_cons.mpr ⟨hfirst, ih hrest⟩

/-! ### What the groups hold -/

/-- The items of all groups, each with the key of its group. -/
def listed (content : β → List ν) (groups : List (κ × β)) : List (κ × ν) :=
  groups.flatMap fun group ↦ (content group.2).map (Prod.mk group.1)

variable {content : β → List ν} {content' : β' → List ν}

/-- An update that puts an item into its group puts it into the listing. -/
theorem listed_upsert (hnone : (content (update none)).Perm [v])
    (hsome : ∀ b, (content (update (some b))).Perm (v :: content b)) :
    (listed content (upsert update k groups)).Perm ((k, v) :: listed content groups) := by
  induction groups with
  | nil => simpa [upsert, listed] using hnone.map (Prod.mk k)
  | cons group rest ih =>
    obtain ⟨k', b⟩ := group
    rw [upsert]
    split_ifs with hk
    · subst hk
      exact ((hsome b).map (Prod.mk k')).append_right _
    · exact (ih.append_left _).trans List.perm_middle

omit [DecidableEq κ] in
theorem mem_listed {item : κ × ν} :
    item ∈ listed content groups ↔ ∃ group ∈ groups, item.1 = group.1 ∧
      item.2 ∈ content group.2 := by
  rw [listed, List.mem_flatMap]
  constructor
  · rintro ⟨group, hgroup, hitem⟩
    obtain ⟨v, hv, rfl⟩ := List.mem_map.mp hitem
    exact ⟨group, hgroup, rfl, hv⟩
  · rintro ⟨group, hgroup, hkey, hv⟩
    exact ⟨group, hgroup, List.mem_map.mpr ⟨item.2, hv, Prod.ext hkey.symm rfl⟩⟩

/-- The items listed with the key of a group are its own. -/
theorem filter_listed (h : (groups.map Prod.fst).Nodup) {group : κ × β} (hgroup : group ∈ groups) :
    (listed content groups).filter (fun item ↦ item.1 = group.1) =
      (content group.2).map (Prod.mk group.1) := by
  have hself : ∀ first : κ × β, first.1 = group.1 →
      ((content first.2).map (Prod.mk first.1)).filter (fun item ↦ item.1 = group.1) =
        (content first.2).map (Prod.mk first.1) := by
    intro first hfirst
    refine List.filter_eq_self.mpr fun item hitem ↦ ?_
    obtain ⟨v, -, rfl⟩ := List.mem_map.mp hitem
    exact decide_eq_true hfirst
  have hother : ∀ first : κ × β, first.1 ≠ group.1 →
      ((content first.2).map (Prod.mk first.1)).filter (fun item ↦ item.1 = group.1) = [] := by
    intro first hfirst
    refine List.filter_eq_nil_iff.mpr fun item hitem ↦ ?_
    obtain ⟨v, -, rfl⟩ := List.mem_map.mp hitem
    simpa using hfirst
  induction groups with
  | nil => cases hgroup
  | cons first rest ih =>
    rw [List.map_cons, List.nodup_cons] at h
    rw [listed, List.flatMap_cons, List.filter_append]
    rcases List.mem_cons.mp hgroup with rfl | hrest
    · have hnil : (rest.flatMap fun group ↦ (content group.2).map (Prod.mk group.1)).filter
          (fun item ↦ item.1 = group.1) = [] := by
        refine List.filter_eq_nil_iff.mpr fun item hitem ↦ ?_
        obtain ⟨group', hgroup', hkey, -⟩ := mem_listed.mp hitem
        have hne : item.1 ≠ group.1 := fun heq ↦
          h.1 (List.mem_map.mpr ⟨group', hgroup', hkey.symm.trans heq⟩)
        simpa using hne
      rw [hself group rfl, hnil, List.append_nil]
    · have hne : first.1 ≠ group.1 := fun heq ↦ h.1 (List.mem_map.mpr ⟨group, hrest, heq.symm⟩)
      rw [hother first hne, List.nil_append]
      exact ih h.2 hrest

/-! ### Grouping a list -/

/-- The groups hold the items: every key once, none of the groups empty. -/
structure Groups (content : β → List ν) (items : List (κ × ν)) (groups : List (κ × β)) : Prop where
  nodup : (groups.map Prod.fst).Nodup
  nonempty : ∀ group ∈ groups, content group.2 ≠ []
  perm : (listed content groups).Perm items

theorem Groups.upsert {items : List (κ × ν)} (h : Groups content items groups)
    (hnone : (content (update none)).Perm [v])
    (hsome : ∀ b, (content (update (some b))).Perm (v :: content b)) :
    Groups content ((k, v) :: items) (upsert update k groups) where
  nodup := nodup_keys_upsert h.nodup
  nonempty := by
    refine forall_upsert (P := fun b ↦ content b ≠ []) ?_ (fun b _ ↦ ?_) h.nonempty
    · exact fun hnil ↦ List.not_perm_nil_cons _ _ (hnil ▸ hnone)
    · exact fun hnil ↦ List.not_perm_nil_cons _ _ (hnil ▸ hsome b)
  perm := (listed_upsert hnone hsome).trans (h.perm.cons _)

/-- Putting in one item after the other groups them. -/
theorem groups_foldl {update : ν → Option β → β} (hnone : ∀ v, (content (update v none)).Perm [v])
    (hsome : ∀ v b, (content (update v (some b))).Perm (v :: content b)) (items : List (κ × ν)) :
    Groups content items
      (items.foldl (fun groups item ↦ Grouping.upsert (update item.2) item.1 groups) []) := by
  induction items using List.reverseRecOn with
  | nil => exact ⟨List.nodup_nil, by simp, List.Perm.nil⟩
  | append_singleton items item ih =>
    rw [List.foldl_concat]
    have hgroups := ih.upsert (k := item.1) (hnone item.2) (hsome item.2)
    exact ⟨hgroups.nodup, hgroups.nonempty,
      hgroups.perm.trans (List.perm_append_singleton _ _).symm⟩

theorem forall_foldl {P : β → Prop} {update : ν → Option β → β} (hnone : ∀ v, P (update v none))
    (hsome : ∀ v b, P b → P (update v (some b))) (items : List (κ × ν)) :
    ∀ group ∈ items.foldl (fun groups item ↦ upsert (update item.2) item.1 groups) [],
      P group.2 := by
  induction items using List.reverseRecOn with
  | nil => simp
  | append_singleton items item ih =>
    rw [List.foldl_concat]
    exact forall_upsert (hnone item.2) (hsome item.2) ih

/-- The items of a group are those with its key. -/
theorem Groups.perm_filter {items : List (κ × ν)} (h : Groups content items groups) {group : κ × β}
    (hgroup : group ∈ groups) :
    (content group.2).Perm ((items.filter fun item ↦ item.1 = group.1).map Prod.snd) := by
  have hfilter := (h.perm.filter fun item ↦ item.1 = group.1).map Prod.snd
  rw [filter_listed h.nodup hgroup, List.map_map] at hfilter
  simpa [Function.comp_def] using hfilter

omit [DecidableEq κ] in
theorem Groups.mem_keys {items : List (κ × ν)} (h : Groups content items groups) :
    k ∈ groups.map Prod.fst ↔ k ∈ items.map Prod.fst := by
  constructor
  · intro hk
    obtain ⟨group, hgroup, rfl⟩ := List.mem_map.mp hk
    obtain ⟨v, hv⟩ := List.exists_mem_of_ne_nil _ (h.nonempty group hgroup)
    have hitem : (group.1, v) ∈ items := h.perm.mem_iff.mp (mem_listed.mpr ⟨group, hgroup, rfl, hv⟩)
    exact List.mem_map.mpr ⟨_, hitem, rfl⟩
  · intro hk
    obtain ⟨item, hitem, rfl⟩ := List.mem_map.mp hk
    obtain ⟨group, hgroup, hkey, -⟩ := mem_listed.mp (h.perm.mem_iff.mpr hitem)
    exact List.mem_map.mpr ⟨group, hgroup, hkey.symm⟩

section Unique

variable {items items' : List (κ × ν)} (h : Groups content items groups)
  (h' : Groups content' items' groups') (hitems : items.Perm items')

include h h' hitems

omit [DecidableEq κ] in
/-- Groupings of the same items have the same keys, up to the order. -/
theorem Groups.perm_keys : (groups.map Prod.fst).Perm (groups'.map Prod.fst) := by
  refine (List.perm_ext_iff_of_nodup h.nodup h'.nodup).mpr fun k ↦ ?_
  rw [h.mem_keys, h'.mem_keys]
  exact (hitems.map Prod.fst).mem_iff

/-- Groupings of the same items have the same groups, up to the order in them. -/
theorem Groups.perm_content {group : κ × β} {group' : κ × β'} (hgroup : group ∈ groups)
    (hgroup' : group' ∈ groups') (hkey : group.1 = group'.1) :
    (content group.2).Perm (content' group'.2) := by
  refine (h.perm_filter hgroup).trans (List.Perm.trans ?_ (h'.perm_filter hgroup').symm)
  rw [hkey]
  exact (hitems.filter _).map Prod.snd

end Unique

/-! ### Keys in a list, groups in a store -/

variable [Ord κ] [TransOrd κ] [LawfulEqOrd κ]

/-- The keys, each once, are those with a group in the store. -/
structure Indexed (keys : List κ) (m : Map κ β) : Prop where
  nodup : keys.Nodup
  isSome_iff : ∀ k, (m[k]?).isSome ↔ k ∈ keys

/-- The keys with their groups filled in. -/
def filled (init : β) (keys : List κ) (m : Map κ β) : List (κ × β) :=
  keys.map fun k ↦ (k, (m[k]?).getD init)

namespace Indexed

variable {keys : List κ} {m : Map κ β} {b init : β}

omit [DecidableEq κ] [LawfulEqOrd κ] in
theorem empty : Indexed ([] : List κ) (∅ : Map κ β) := by
  refine ⟨List.nodup_nil, fun k ↦ ?_⟩
  simp

theorem insert_of_some (h : Indexed keys m) (hk : (m[k]?).isSome) (b : β) :
    Indexed keys (m.insert k b) := by
  refine ⟨h.nodup, fun k' ↦ ?_⟩
  rw [getElem?_insert_eq]
  split_ifs with heq
  · subst heq
    exact iff_of_true rfl ((h.isSome_iff k).mp hk)
  · exact h.isSome_iff k'

theorem insert_of_none (h : Indexed keys m) (hk : m[k]? = none) (b : β) :
    Indexed (keys ++ [k]) (m.insert k b) := by
  have hmem : k ∉ keys := fun hmem ↦ by
    rw [← h.isSome_iff, hk] at hmem
    cases hmem
  refine ⟨?_, fun k' ↦ ?_⟩
  · rw [← List.concat_eq_append]
    exact h.nodup.concat hmem
  · rw [getElem?_insert_eq, List.mem_append, List.mem_singleton, ← h.isSome_iff]
    split_ifs with heq
    · subst heq
      exact iff_of_true rfl (Or.inr rfl)
    · exact ⟨Or.inl, fun h ↦ h.resolve_right (Ne.symm heq)⟩

theorem filled_insert_of_some (h : Indexed keys m) (hb : m[k]? = some b) :
    filled init keys (m.insert k (update (some b))) = upsert update k (filled init keys m) := by
  have hmem : k ∈ keys := (h.isSome_iff k).mp (by rw [hb]; rfl)
  have hnodup := h.nodup
  unfold filled
  clear h
  induction keys with
  | nil => cases hmem
  | cons first rest ih =>
    rw [List.nodup_cons] at hnodup
    rw [List.map_cons, List.map_cons, upsert]
    split_ifs with hfirst
    · subst hfirst
      -- the key stands nowhere else
      have hrest : rest.map (fun k ↦ (k, ((m.insert first (update (some b)))[k]?).getD init)) =
          rest.map fun k ↦ (k, (m[k]?).getD init) := by
        refine List.map_congr_left fun k hk ↦ ?_
        have hne : first ≠ k := fun heq ↦ hnodup.1 (heq ▸ hk)
        rw [getElem?_insert_ne hne]
      rw [hrest, getElem?_insert_eq, if_pos rfl, hb]
      rfl
    · rw [getElem?_insert_ne (Ne.symm hfirst),
        ih ((List.mem_cons.mp hmem).resolve_left (Ne.symm hfirst)) hnodup.2]

theorem filled_insert_of_none (h : Indexed keys m) (hk : m[k]? = none) :
    filled init (keys ++ [k]) (m.insert k (update none)) =
      upsert update k (filled init keys m) := by
  have hmem : k ∉ keys := fun hmem ↦ by
    rw [← h.isSome_iff, hk] at hmem
    cases hmem
  clear h
  unfold filled
  induction keys with
  | nil => simp [upsert, getElem?_insert_eq]
  | cons first rest ih =>
    rw [List.mem_cons, not_or] at hmem
    rw [List.cons_append, List.map_cons, List.map_cons, upsert, if_neg (Ne.symm hmem.1),
      ih hmem.2, getElem?_insert_ne hmem.1]

end Indexed

/-- One turn of a loop that puts an item into its group. -/
def collect (update : ν → Option β → β) (found : List κ × Map κ β) (item : κ × ν) :
    List κ × Map κ β :=
  match found.2[item.1]? with
  | some b => (found.1, found.2.insert item.1 (update item.2 (some b)))
  | none => (found.1 ++ [item.1], found.2.insert item.1 (update item.2 none))

/-- The loop gives the groups that `upsert` gives, in the same order. -/
theorem filled_foldl_collect (update : ν → Option β → β) (init : β) (items : List (κ × ν))
    (found : List κ × Map κ β) (h : Indexed found.1 found.2) :
    filled init (items.foldl (collect update) found).1 (items.foldl (collect update) found).2 =
      items.foldl (fun groups item ↦ upsert (update item.2) item.1 groups)
        (filled init found.1 found.2) := by
  induction items generalizing found with
  | nil => rfl
  | cons item rest ih =>
    rw [List.foldl_cons, List.foldl_cons, collect]
    cases hb : found.2[item.1]? with
    | some b =>
      rw [← h.filled_insert_of_some hb]
      exact ih _ (h.insert_of_some (by rw [hb]; rfl) _)
    | none =>
      rw [← h.filled_insert_of_none hb]
      exact ih _ (h.insert_of_none hb _)

theorem filled_collected (update : ν → Option β → β) (init : β) (items : List (κ × ν)) :
    filled init (items.foldl (collect update) ([], ∅)).1 (items.foldl (collect update) ([], ∅)).2 =
      items.foldl (fun groups item ↦ upsert (update item.2) item.1 groups) [] :=
  filled_foldl_collect update init items ([], ∅) Indexed.empty

end ChainMain.Foundations.Grouping
