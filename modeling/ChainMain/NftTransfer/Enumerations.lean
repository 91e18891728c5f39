import ChainMain.Nft.Scans
import ChainMain.NftTransfer.StoreConsistency
import ChainMain.NftTransfer.OwnerKeys

/-!
# Enumerations of NFTs

`GetNFTs`, `GetTotalSupplyOfOwner` and `GetOwner` are prefix scans. On a chain that does not have
both the native class `ibc` and a class of vouchers they list exactly the NFTs of a denom, or of a
denom and an owner, if and only if there is no token of the class `ibc` (`enumerations_exact_iff`).
The argument is that no id of a class begins another one, and that an owner key is split where it
was put together (`splitKeyOwner_keyOwner`), unless it is that of a token of the class `ibc`, which
is taken for that of a voucher (`splitKeyDenom_of_ibcMark`).

With both, the enumeration of the class `ibc` lists the vouchers of all classes
(`enumerations_inexact_of_ibc`).
-/

set_option autoImplicit false

namespace ChainMain.NftTransfer

open Foundations Texts Outcomes OrderedStore EncodedStore
open Nft (AccAddress AddressCodec BaseNFT Owns Registry Represents Store hasDenomID keyNFT keyOwner
  getNFTs getTotalSupply getTotalSupplyOfOwner getOwner splitKeyDenom splitKeyOwner collectOwned
  scan_owners owns_iff getNFTs_exact getTotalSupplyOfOwner_exact)

variable {P : Platform} {C : AddressCodec} {s : Store} {R : Registry} {d t : Text} {a : AccAddress}

/-! ### The loop of `GetOwner` -/

theorem foldlM_collectOwned (hid : IsClassID P d) (hibc : d ≠ classMark)
    (ids : List Text) (found : List Nft.IDCollection) (idsMap : Map Text (List Text))
    (sofar : List Text) (hsofar : idsMap[d]? = some sofar) :
    ∃ idsMap', (ids.map (keyOwner C (some a) d)).foldlM (collectOwned C) (found, idsMap) =
      .ok (found, idsMap') ∧ idsMap'[d]? = some (sofar ++ ids) := by
  induction ids generalizing idsMap sofar with
  | nil => exact ⟨idsMap, rfl, by rw [List.append_nil]; exact hsofar⟩
  | cons id rest ih =>
    have hfirst : collectOwned C (found, idsMap) (keyOwner C (some a) d id) =
        .ok (found, idsMap.insert d (sofar ++ [id])) := by
      unfold collectOwned
      rw [splitKeyOwner_keyOwner hid.canExist hibc, ok_bind]
      dsimp only
      rw [hsofar]
      rfl
    have hafter : (idsMap.insert d (sofar ++ [id]))[d]? = some (sofar ++ [id]) := by
      rw [getElem?_insert_eq, if_pos rfl]
    obtain ⟨idsMap', hloop, hids⟩ := ih (idsMap.insert d (sofar ++ [id])) (sofar ++ [id]) hafter
    refine ⟨idsMap', ?_, ?_⟩
    · rw [List.map_cons, List.foldlM_cons, hfirst, ok_bind, hloop]
    · rw [hids, List.append_assoc, List.singleton_append]

/-- `GetOwner` lists the tokens of a denom that an account owns, each once. -/
theorem getOwner_exact (h : Represents C s R) (hd : (R.classes d).isSome) (hid : IsClassID P d)
    (hibc : d = classMark → ∀ t, ¬ Owns R a d t) :
    ∃ ids : List Text, getOwner C s a d =
        .ok ⟨C.string a, if ids = [] then [] else [⟨d, ids⟩]⟩ ∧
      ids.Nodup ∧ ∀ t, t ∈ ids ↔ Owns R a d t := by
  obtain ⟨ids, hkeys, hnodup, hmem⟩ := scan_owners h hd a
  refine ⟨ids, ?_, hnodup, hmem⟩
  unfold getOwner
  rw [hkeys]
  cases ids with
  | nil => rfl
  | cons id rest =>
    have hibc' : d ≠ classMark := fun heq ↦ hibc heq id ((hmem id).mp List.mem_cons_self)
    have hfirst : collectOwned C ([], ∅) (keyOwner C (some a) d id) =
        .ok ([⟨d, []⟩], (∅ : Map Text (List Text)).insert d [id]) := by
      unfold collectOwned
      rw [splitKeyOwner_keyOwner hid.canExist hibc', ok_bind]
      simp
      rfl
    have hafter : ((∅ : Map Text (List Text)).insert d [id])[d]? = some [id] := by
      rw [getElem?_insert_eq, if_pos rfl]
    obtain ⟨idsMap, hloop, hids⟩ := foldlM_collectOwned (C := C) (a := a) hid hibc' rest [⟨d, []⟩] _
      [id] hafter
    dsimp only
    rw [List.map_cons, List.foldlM_cons, hfirst, ok_bind, hloop, ok_bind]
    simp [hids]
    rfl

/-! ### The class `ibc` -/

theorem splitKeyDenom_of_ibcMark {key id : Text} (hstart : Nft.ibcMark <+: key)
    (h : splitKeyDenom key = .ok (d, id)) : Nft.ibcMark <+: d := by
  unfold splitKeyDenom at h
  rw [if_pos (List.isPrefixOf_iff_prefix.mpr hstart)] at h
  split at h
  · cases h
  · split_ifs at h
    obtain ⟨rfl, -⟩ := Prod.mk.inj (Except.ok.inj h)
    exact List.prefix_append _ _

theorem splitKeyOwner_classMark {id : Text} {b : AccAddress}
    (h : splitKeyOwner C (keyOwner C (some a) classMark t) = .ok (b, d, id)) :
    Nft.ibcMark <+: d := by
  have hdrop :
      (keyOwner C (some a) classMark t).drop (Nft.ownersMark.length + Nft.delimiter.length) =
      C.string a ++ '/' :: (classMark ++ Nft.delimiter ++ t) := by
    rw [Nft.keyOwner_eq C a (by decide), ← List.length_append, List.drop_left]
  unfold splitKeyOwner at h
  dsimp only at h
  rw [hdrop, cut_append (C.delimiter_not_mem a)] at h
  simp only [bind_eq_ok, pure_eq_ok] at h
  obtain ⟨_, hcut, _, -, ⟨d', id'⟩, hsplit, heq⟩ := h
  obtain rfl := Except.ok.inj hcut
  obtain ⟨-, htokens⟩ := Prod.mk.inj heq
  obtain ⟨rfl, rfl⟩ := Prod.mk.inj htokens
  exact splitKeyDenom_of_ibcMark ⟨t, rfl⟩ hsplit

/-- `GetOwner` never answers with tokens of the class `ibc`. -/
theorem getOwner_classMark {ids : List Text} (h : Represents C s R)
    (hd : (R.classes classMark).isSome) :
    getOwner C s a classMark ≠ .ok ⟨C.string a, [⟨classMark, ids⟩]⟩ := by
  intro hget
  obtain ⟨owned, hkeys, -, -⟩ := scan_owners h hd a
  unfold getOwner at hget
  rw [hkeys] at hget
  obtain ⟨⟨collections, idsMap⟩, hloop, hanswer⟩ := bind_eq_ok.mp hget
  have hmarked : ∀ collection ∈ collections, Nft.ibcMark <+: collection.denomId := by
    refine foldlM_invariant (P := fun found : List Nft.IDCollection × Map Text (List Text) ↦
      ∀ collection ∈ found.1, Nft.ibcMark <+: collection.denomId) (by simp) ?_ hloop
    rintro ⟨found, idsMap⟩ key found' hkey hfound hturn
    obtain ⟨id, -, rfl⟩ := List.mem_map.mp hkey
    obtain ⟨⟨b, d, id'⟩, hsplit, hturn⟩ := bind_eq_ok.mp hturn
    dsimp only at hturn
    split at hturn
    · obtain rfl := pure_eq_ok.mp hturn
      exact hfound
    · obtain rfl := pure_eq_ok.mp hturn
      intro collection hmem
      rcases List.mem_append.mp hmem with hbefore | hnew
      · exact hfound collection hbefore
      · obtain rfl := List.mem_singleton.mp hnew
        exact splitKeyOwner_classMark hsplit
  have hlist := congrArg Nft.Owner.idCollections (pure_eq_ok.mp hanswer)
  obtain ⟨collection, hcollections, hcollection⟩ := List.map_eq_singleton_iff.mp hlist
  have hstart := hmarked collection (by rw [hcollections]; exact List.mem_singleton_self _)
  rw [congrArg Nft.IDCollection.denomId hcollection] at hstart
  have hlength : Nft.ibcMark.length ≤ classMark.length := hstart.length_le
  exact absurd hlength (by decide)

/-! ### Exactness -/

/-- The enumerations list exactly what they should. -/
structure Exact (C : AddressCodec) (s : Store) : Prop where
  /-- `GetNFTs` lists the records of a denom, each once, as many as the supply counter says. -/
  nfts : ∀ d, hasDenomID s d = true →
    (∀ nft, nft ∈ getNFTs s d ↔ s.nfts[keyNFT d nft.id]? = some nft) ∧
      ((getNFTs s d).map BaseNFT.id).Nodup ∧ (getNFTs s d).length = getTotalSupply s d
  /-- `GetTotalSupplyOfOwner` is the number of these with the given owner. -/
  supplyOfOwner : ∀ d a, hasDenomID s d = true →
    getTotalSupplyOfOwner C s d a = (getNFTs s d).countP fun nft ↦ nft.owner = C.string a
  /-- `GetOwner` lists the ids of these, each once. -/
  owner : ∀ d a, hasDenomID s d = true →
    ∃ ids : List Text, getOwner C s a d =
        .ok ⟨C.string a, if ids = [] then [] else [⟨d, ids⟩]⟩ ∧ ids.Nodup ∧
      ∀ t, t ∈ ids ↔ ∃ nft, s.nfts[keyNFT d t]? = some nft ∧ nft.owner = C.string a

/-- Where ids do not clash, the enumerations are exact if and only if there is no token of the class
`ibc`. -/
theorem exact_iff_of_holds {U : Set Text} {st : State} (h : Holds P U st R) :
    Exact P.codec st.nft ↔
      (hasDenomID st.nft classMark = true → getTotalSupply st.nft classMark = 0) := by
  have hrep := h.represents
  constructor
  · intro hexact hmark
    by_contra hsupply
    have hd := hrep.hasDenomID_iff.mp hmark
    rw [hrep.getTotalSupply_eq] at hsupply
    obtain ⟨t, ht⟩ := Set.nonempty_of_ncard_ne_zero hsupply
    obtain ⟨tok, htok⟩ := Option.isSome_iff_exists.mp ht
    obtain ⟨ids, hget, -, hmem⟩ := hexact.owner classMark tok.owner hmark
    have hid : t ∈ ids := (hmem t).mpr ((owns_iff hrep hd).mp (by rw [Owns, htok]; rfl))
    rw [if_neg (List.ne_nil_of_mem hid)] at hget
    exact getOwner_classMark hrep hd hget
  · intro hibc
    refine ⟨fun d hd ↦ getNFTs_exact hrep (hrep.hasDenomID_iff.mp hd),
      fun d a hd ↦ getTotalSupplyOfOwner_exact hrep (hrep.hasDenomID_iff.mp hd) a, fun d a hd ↦ ?_⟩
    have hclass := hrep.hasDenomID_iff.mp hd
    have hnone : d = classMark → ∀ t, ¬ Owns R a d t := by
      rintro rfl t howns
      have hzero := hibc hd
      rw [hrep.getTotalSupply_eq, Registry.supply, Set.ncard_eq_zero (R.finite_tokenIds _)] at hzero
      obtain ⟨tok, htok, -⟩ := Option.map_eq_some_iff.mp howns
      have hmem : t ∈ R.tokenIds classMark := Option.isSome_iff_exists.mpr ⟨tok, htok⟩
      exact Set.eq_empty_iff_forall_notMem.mp hzero t hmem
    obtain ⟨ids, hget, hnodup, hmem⟩ :=
      getOwner_exact hrep hclass (h.classes.isClassID d hclass) hnone
    exact ⟨ids, hget, hnodup, fun t ↦ (hmem t).trans (owns_iff hrep hclass)⟩

/-- In every state a chain gets to in which it does not have both the native class `ibc` and a class
of vouchers, the enumerations are exact if and only if there is no token of the class `ibc`. -/
theorem enumerations_exact_iff {st : State} (h : Reachable P st) (hclash : NoClash P st) :
    Exact P.codec st.nft ↔
      (hasDenomID st.nft classMark = true → getTotalSupply st.nft classMark = 0) := by
  obtain ⟨R, hR⟩ := h.inv.holds hclash
  exact exact_iff_of_holds hR

section Histories

open Reference

theorem enumerations_exact_twoClasses : Exact platform.codec (after twoClasses).nft :=
  (enumerations_exact_iff (reachable_after twoClasses) noClash_twoClasses).mpr fun hmark ↦
    absurd hmark (by decide +kernel)

/-- The native class `ibc` is issued, and a voucher arrives. -/
def ibcAndVoucher : List (Label platform) := [
  .deliver (.issueDenom "ibc".toList "ibc".toList [] alice []),
  .recv (arriving end₀ "dog".toList "rex".toList alice)]

/-- The class `ibc` has no token, and the voucher is listed for it. -/
theorem enumerations_inexact_of_ibc :
    Reachable platform (after ibcAndVoucher) ∧
      getTotalSupply (after ibcAndVoucher).nft "ibc".toList = 0 ∧
      (getNFTs (after ibcAndVoucher).nft "ibc".toList).map BaseNFT.id = ["rex".toList] ∧
      ¬ Exact platform.codec (after ibcAndVoucher).nft := by
  have hdenom : hasDenomID (after ibcAndVoucher).nft "ibc".toList = true := by decide +kernel
  have hsupply : getTotalSupply (after ibcAndVoucher).nft "ibc".toList = 0 := by decide +kernel
  have hlisted : (getNFTs (after ibcAndVoucher).nft "ibc".toList).map BaseNFT.id =
      ["rex".toList] := by
    decide +kernel
  refine ⟨reachable_after ibcAndVoucher, hsupply, hlisted, fun hexact ↦ ?_⟩
  obtain ⟨-, -, hlength⟩ := hexact.nfts "ibc".toList hdenom
  rw [hsupply] at hlength
  rw [List.eq_nil_of_length_eq_zero hlength] at hlisted
  cases hlisted

end Histories

end ChainMain.NftTransfer
