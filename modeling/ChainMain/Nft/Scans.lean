import ChainMain.Nft.Registry

/-!
# Scans of the store of `x/nft`

The listings of the keeper are prefix scans. In a store that holds a registry, the scan of a class
finds the records of its tokens (`getNFTs_exact`), the scan of a class and an owner the ids of the
tokens of the class that the owner has (`scan_owners`, `getTotalSupplyOfOwner_exact`), and the scan
of the denoms the denoms of all classes (`mem_getDenoms`), each of them once.
-/

set_option autoImplicit false

namespace ChainMain.Nft

open Foundations Texts Outcomes OrderedStore EncodedStore

variable {C : AddressCodec} {s : Store} {R : Registry} {d t : Text} {a : AccAddress}

/-! ### Scans of one class -/

/-- The key of a token begins with the key of a class only if the token is of the class. -/
theorem eq_of_keyNFT_start (h : Represents C s R) {d' : Text} (hd : (R.classes d).isSome)
    (hd' : (R.classes d').isSome) (hstart : keyNFT d [] <+: keyNFT d' t) : d = d' := by
  rw [keyNFT_eq (h.nonempty d hd), keyNFT_eq (h.nonempty d' hd'), List.append_nil,
    List.prefix_append_right_inj] at hstart
  exact List.append_cancel_right (h.unambiguous.eq_of_start ⟨d, hd, rfl⟩ ⟨d', hd', rfl⟩ hstart)

theorem keyNFT_start (h : Represents C s R) (hd : (R.classes d).isSome) (t : Text) :
    keyNFT d [] <+: keyNFT d t := by
  rw [keyNFT_eq (h.nonempty d hd), keyNFT_eq (h.nonempty d hd)]
  exact ⟨t, by simp⟩

theorem mem_scan_nfts (h : Represents C s R) (hd : (R.classes d).isSome) {key : Text}
    {nft : BaseNFT} :
    (key, nft) ∈ scan s.nfts (keyNFT d []) ↔
      ∃ t tok, R.tokens (d, t) = some tok ∧ key = keyNFT d t ∧ nft = tok.record C t := by
  rw [mem_scan, h.nfts]
  constructor
  · rintro ⟨⟨⟨d', t⟩, rfl, hmap⟩, hstart⟩
    obtain ⟨tok, htok, rfl⟩ := Option.map_eq_some_iff.mp hmap
    obtain rfl := eq_of_keyNFT_start h hd (R.inhabited htok) hstart
    exact ⟨t, tok, htok, rfl, rfl⟩
  · rintro ⟨t, tok, htok, rfl, rfl⟩
    exact ⟨⟨(d, t), rfl, by simp [htok]⟩, keyNFT_start h hd t⟩

/-- `GetNFTs` lists the records of the class, each once, as many as there are tokens. -/
theorem getNFTs_exact (h : Represents C s R) (hd : (R.classes d).isSome) :
    (∀ nft, nft ∈ getNFTs s d ↔ s.nfts[keyNFT d nft.id]? = some nft) ∧
      ((getNFTs s d).map BaseNFT.id).Nodup ∧ (getNFTs s d).length = getTotalSupply s d := by
  refine ⟨fun nft ↦ ?_, ?_, ?_⟩
  · rw [getNFTs, List.mem_map, h.getElem?_nfts hd, Option.map_eq_some_iff]
    constructor
    · rintro ⟨⟨key, _⟩, hmem, rfl⟩
      obtain ⟨t, tok, htok, -, rfl⟩ := (mem_scan_nfts h hd).mp hmem
      exact ⟨tok, htok, rfl⟩
    · rintro ⟨tok, htok, hnft⟩
      exact ⟨(keyNFT d nft.id, nft),
        (mem_scan_nfts h hd).mpr ⟨nft.id, tok, htok, rfl, hnft.symm⟩, rfl⟩
  · have hkeys : (scan s.nfts (keyNFT d [])).map Prod.fst =
        ((getNFTs s d).map BaseNFT.id).map (keyNFT d) := by
      rw [getNFTs, List.map_map, List.map_map]
      refine List.map_congr_left fun entry hmem ↦ ?_
      obtain ⟨t, tok, -, hkey, hnft⟩ := (mem_scan_nfts h hd).mp hmem
      rw [hkey, Function.comp_apply, Function.comp_apply, hnft]
      rfl
    exact (hkeys ▸ nodup_keys_scan s.nfts (keyNFT d [])).of_map
  · have hset : {i : Text × Text | ((R.tokens i).map (Token.record C i.2)).isSome ∧
        keyNFT d [] <+: keyNFT i.1 i.2} = (fun t ↦ (d, t)) '' R.tokenIds d := by
      ext ⟨d', t⟩
      constructor
      · rintro ⟨hsome, hstart⟩
        rw [Option.isSome_map] at hsome
        obtain ⟨tok, htok⟩ := Option.isSome_iff_exists.mp hsome
        obtain rfl := eq_of_keyNFT_start h hd (R.inhabited htok) hstart
        exact ⟨t, hsome, rfl⟩
      · rintro ⟨t, hsome, heq⟩
        obtain ⟨rfl, rfl⟩ := Prod.mk.inj heq
        exact ⟨by rw [Option.isSome_map]; exact hsome, keyNFT_start h hd t⟩
    have hinj : Set.InjOn (fun i : Text × Text ↦ keyNFT i.1 i.2)
        {i | ((R.tokens i).map (Token.record C i.2)).isSome ∧ keyNFT d [] <+: keyNFT i.1 i.2} := by
      rw [hset]
      rintro _ ⟨t, ht, rfl⟩ _ ⟨t', ht', rfl⟩ heq
      obtain ⟨nft, hnft⟩ := Option.isSome_iff_exists.mp ht
      exact h.keyFree_nft hd t' (d, t) (nft.record C t) (by simp [hnft]) heq
    rw [getNFTs, List.length_map, length_scan h.nfts _ hinj, hset,
      Set.ncard_image_of_injective _ (Prod.mk_right_injective d), h.getTotalSupply_eq]
    rfl

/-! ### Scans of one class and one owner -/

/-- An owner key begins with the key of an owner and a class only if it is of both. -/
theorem eq_of_keyOwner_start (h : Represents C s R) {a' : AccAddress} {d' : Text}
    (hd : (R.classes d).isSome) (hd' : (R.classes d').isSome)
    (hstart : keyOwner C (some a) d [] <+: keyOwner C (some a') d' t) : a = a' ∧ d = d' := by
  rw [keyOwner_eq C a (h.nonempty d hd), keyOwner_eq C a' (h.nonempty d' hd'),
    List.prefix_append_right_inj] at hstart
  obtain ⟨rest, hrest⟩ := hstart
  rw [List.append_assoc, List.cons_append] at hrest
  obtain ⟨haddress, hclass⟩ :=
    append_cons_inj (C.delimiter_not_mem a) (C.delimiter_not_mem a') hrest
  rw [List.append_nil] at hclass
  have hfield := h.unambiguous.eq_of_start ⟨d, hd, rfl⟩ ⟨d', hd', rfl⟩ ⟨rest, hclass⟩
  exact ⟨C.string_injective haddress, List.append_cancel_right hfield⟩

theorem keyOwner_start (h : Represents C s R) (hd : (R.classes d).isSome) (a : AccAddress)
    (t : Text) :
    keyOwner C (some a) d [] <+: keyOwner C (some a) d t := by
  rw [keyOwner_eq C a (h.nonempty d hd), keyOwner_eq C a (h.nonempty d hd)]
  exact ⟨t, by simp⟩

def Owns (R : Registry) (a : AccAddress) (d t : Text) : Prop :=
  (R.tokens (d, t)).map Token.owner = some a

theorem mem_scan_owners (h : Represents C s R) (hd : (R.classes d).isSome) {key id : Text} :
    (key, id) ∈ scan s.owners (keyOwner C (some a) d []) ↔
      Owns R a d id ∧ key = keyOwner C (some a) d id := by
  rw [mem_scan, h.owners]
  constructor
  · rintro ⟨⟨⟨a', d', t⟩, rfl, howned⟩, hstart⟩
    obtain ⟨howns, rfl⟩ := Registry.owned_eq_some.mp howned
    obtain ⟨tok, htok, -⟩ := Option.map_eq_some_iff.mp howns
    obtain ⟨rfl, rfl⟩ := eq_of_keyOwner_start h hd (R.inhabited htok) hstart
    exact ⟨howns, rfl⟩
  · rintro ⟨howns, rfl⟩
    exact ⟨⟨(a, d, id), rfl, Registry.owned_eq_some.mpr ⟨howns, rfl⟩⟩, keyOwner_start h hd a id⟩

/-- The token ids a scan of the owner index finds, with the keys they are found under. -/
theorem scan_owners (h : Represents C s R) (hd : (R.classes d).isSome) (a : AccAddress) :
    ∃ ids : List Text, (scan s.owners (keyOwner C (some a) d [])).map Prod.fst =
        ids.map (keyOwner C (some a) d) ∧ ids.Nodup ∧ ∀ t, t ∈ ids ↔ Owns R a d t := by
  let found := scan s.owners (keyOwner C (some a) d [])
  have hkeys : found.map Prod.fst = (found.map Prod.snd).map (keyOwner C (some a) d) := by
    rw [List.map_map]
    exact List.map_congr_left fun entry hmem ↦ ((mem_scan_owners h hd).mp hmem).2
  refine ⟨found.map Prod.snd, hkeys, ?_, fun t ↦ ?_⟩
  · exact (hkeys ▸ nodup_keys_scan s.owners (keyOwner C (some a) d [])).of_map
  · rw [List.mem_map]
    constructor
    · rintro ⟨entry, hmem, rfl⟩
      exact ((mem_scan_owners h hd).mp hmem).1
    · exact fun howns ↦ ⟨(_, t), (mem_scan_owners h hd).mpr ⟨howns, rfl⟩, rfl⟩

theorem owns_iff (h : Represents C s R) (hd : (R.classes d).isSome) :
    Owns R a d t ↔ ∃ nft, s.nfts[keyNFT d t]? = some nft ∧ nft.owner = C.string a := by
  rw [Owns, h.getElem?_nfts hd, Option.map_eq_some_iff]
  constructor
  · rintro ⟨tok, htok, rfl⟩
    exact ⟨_, by rw [htok]; rfl, rfl⟩
  · rintro ⟨nft, hnft, howner⟩
    obtain ⟨tok, htok, rfl⟩ := Option.map_eq_some_iff.mp hnft
    exact ⟨tok, htok, C.string_injective howner⟩

/-- The scan of the owner index finds as many tokens as there are records with the owner. -/
theorem getTotalSupplyOfOwner_exact (h : Represents C s R) (hd : (R.classes d).isSome)
    (a : AccAddress) :
    getTotalSupplyOfOwner C s d a = (getNFTs s d).countP fun nft ↦ nft.owner = C.string a := by
  obtain ⟨ids, hkeys, hnodup, hmem⟩ := scan_owners h hd a
  obtain ⟨hnfts, hdistinct, -⟩ := getNFTs_exact h hd
  let listed := (getNFTs s d).filter fun nft ↦ nft.owner = C.string a
  have hlisted : (listed.map BaseNFT.id).Nodup :=
    hdistinct.sublist (List.filter_sublist.map BaseNFT.id)
  have hperm : ids.Perm (listed.map BaseNFT.id) := by
    refine (List.perm_ext_iff_of_nodup hnodup hlisted).mpr fun t ↦ ?_
    rw [hmem, owns_iff h hd, List.mem_map]
    constructor
    · rintro ⟨nft, hnft, howner⟩
      have hid : nft.id = t := by
        rw [h.getElem?_nfts hd] at hnft
        obtain ⟨tok, -, rfl⟩ := Option.map_eq_some_iff.mp hnft
        rfl
      refine ⟨nft, List.mem_filter.mpr ⟨(hnfts nft).mpr (hid ▸ hnft), ?_⟩, hid⟩
      exact decide_eq_true howner
    · rintro ⟨nft, hnft, rfl⟩
      obtain ⟨hin, howner⟩ := List.mem_filter.mp hnft
      exact ⟨nft, (hnfts nft).mp hin, of_decide_eq_true howner⟩
  have hlength := congrArg List.length hkeys
  rw [List.length_map, List.length_map] at hlength
  rw [getTotalSupplyOfOwner, hlength, hperm.length_eq, List.length_map,
    List.countP_eq_length_filter]

/-! ### Scans of the denoms -/

/-- `GetDenoms` lists the denoms of the classes. -/
theorem mem_getDenoms {D : Directory} (h : RepresentsClasses C s D) {denom : Denom} :
    denom ∈ getDenoms s ↔ ∃ d c, D.classes d = some c ∧ denom = c.denom C d := by
  rw [getDenoms, List.mem_map]
  constructor
  · rintro ⟨⟨key, _⟩, hmem, rfl⟩
    obtain ⟨d, -, hmap⟩ := (h.denoms _ _).mp (mem_scan.mp hmem).1
    obtain ⟨c, hc, rfl⟩ := Option.map_eq_some_iff.mp hmap
    exact ⟨d, c, hc, rfl⟩
  · rintro ⟨d, c, hc, rfl⟩
    have hread : s.denoms[keyDenomID d]? = some (c.denom C d) := by
      rw [h.getElem?_denoms, hc]
      rfl
    refine ⟨(keyDenomID d, c.denom C d), mem_scan.mpr ⟨hread, d, ?_⟩, rfl⟩
    rw [keyDenomID, List.append_nil]
    rfl

/-- `GetDenoms` lists every denom once. -/
theorem nodup_getDenoms {D : Directory} (h : RepresentsClasses C s D) :
    ((getDenoms s).map Denom.id).Nodup := by
  have hkeys : (scan s.denoms (keyDenomID [])).map Prod.fst =
      ((getDenoms s).map Denom.id).map keyDenomID := by
    rw [getDenoms, List.map_map, List.map_map]
    refine List.map_congr_left fun entry hmem ↦ ?_
    obtain ⟨d, hkey, hmap⟩ := (h.denoms _ _).mp (mem_scan.mp hmem).1
    obtain ⟨c, -, hdenom⟩ := Option.map_eq_some_iff.mp hmap
    rw [← hkey, Function.comp_apply, Function.comp_apply, ← hdenom]
    rfl
  exact (hkeys ▸ nodup_keys_scan s.denoms (keyDenomID [])).of_map

end ChainMain.Nft
