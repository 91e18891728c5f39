import ChainMain.NftTransfer.ChainInvariant
import ChainMain.NftTransfer.ReferencePlatform

/-!
# The NFT store is consistent

The records of NFTs, the owner index, the supply counters and the index of denom names agree with
each other (`Consistent`) in every state a chain gets to, as long as it does not have both the
native class `ibc` and a class of vouchers (`nft_store_consistent`).

With both of them, keys meet: the token `HASH/t` of the class `ibc` has the key of the token `t` of
the vouchers `ibc/HASH`. A transfer under the one name reads the record of the voucher, writes a
record of the class `ibc` that was never minted, and moves the index entry of the voucher
(`store_inconsistent_of_clash`).
-/

set_option autoImplicit false

namespace ChainMain.NftTransfer

open Foundations Texts Outcomes OrderedStore EncodedStore
open Nft (AccAddress AddressCodec BaseNFT Denom Registry Represents Store hasDenomID keyNFT keyOwner
  keyDenomID getTotalSupply getDenomByName)

/-- The parts of the NFT store agree with each other. -/
structure Consistent (C : AddressCodec) (s : Store) : Prop where
  /-- There is a record of an NFT if and only if there is an entry of the owner index for it. -/
  record_iff_owner : ∀ d t : Text, hasDenomID s d = true →
    ((∃ nft, s.nfts[keyNFT d t]? = some nft) ↔
      ∃ a id, s.owners[keyOwner C (some a) d t]? = some id)
  /-- The entry of the owner index is filed under the owner in the record, and nowhere else. -/
  owner_unique : ∀ (d t : Text) (nft : BaseNFT), hasDenomID s d = true →
    s.nfts[keyNFT d t]? = some nft →
    ∃ a, C.string a = nft.owner ∧
      ∀ b, (∃ id, s.owners[keyOwner C (some b) d t]? = some id) ↔ b = a
  /-- Every record is that of an NFT of an existing denom. -/
  record_filed : ∀ (key : Text) (nft : BaseNFT), s.nfts[key]? = some nft →
    ∃ d, hasDenomID s d = true ∧ key = keyNFT d nft.id
  /-- Every entry of the owner index is that of an NFT of an existing denom. -/
  owner_filed : ∀ key id : Text, s.owners[key]? = some id →
    ∃ a d, hasDenomID s d = true ∧ key = keyOwner C (some a) d id
  /-- The supply counter of a denom is the number of its records. -/
  supply_eq : ∀ d : Text, hasDenomID s d = true →
    {t : Text | ∃ nft, s.nfts[keyNFT d t]? = some nft}.Finite ∧
      getTotalSupply s d = {t : Text | ∃ nft, s.nfts[keyNFT d t]? = some nft}.ncard
  /-- A denom is found by a name if and only if it has the name. -/
  name_iff : ∀ (name : Text) (denom : Denom), getDenomByName s name = .ok denom ↔
    s.denoms[keyDenomID denom.id]? = some denom ∧ denom.name = name

theorem getDenomByName_eq_ok {C : AddressCodec} {s : Store} {D : Nft.Directory}
    (h : Nft.RepresentsClasses C s D) {name : Text} {denom : Denom} :
    getDenomByName s name = .ok denom ↔
      s.denoms[keyDenomID denom.id]? = some denom ∧ denom.name = name := by
  have hread : ∀ d, Nft.getDenom s d = .ok denom ↔
      ∃ c, D.classes d = some c ∧ c.denom C d = denom := by
    intro d
    rw [Nft.getDenom, expect_eq_ok, h.getElem?_denoms, Option.map_eq_some_iff]
  have hnone : D.classes [] = none := by
    rw [← Option.not_isSome_iff_eq_none]
    exact fun hsome ↦ h.nonempty [] hsome rfl
  rw [getDenomByName, hread, h.getElem?_denoms, Option.map_eq_some_iff]
  constructor
  · rintro ⟨c, hc, rfl⟩
    cases hname : s.denomNames[Nft.keyDenomName name]? with
    | none =>
      -- the empty id is read, which is none of a class
      rw [hname, Option.getD_none, hnone] at hc
      cases hc
    | some id =>
      rw [hname, Option.getD_some] at hc
      obtain ⟨⟨id', name'⟩, hkey, hof⟩ := (h.denomNames _ _).mp hname
      obtain ⟨⟨c', hc', hc'name⟩, rfl⟩ := Nft.Directory.ofName_eq_some.mp hof
      obtain rfl := Option.mem_unique hc' hc
      refine ⟨⟨c', hc', rfl⟩, ?_⟩
      exact hc'name.trans (Nft.keyDenomName_injective hkey)
  · rintro ⟨⟨c, hc, hdenom⟩, rfl⟩
    have hname : c.name = denom.name := congrArg Denom.name hdenom
    have hindex : s.denomNames[Nft.keyDenomName denom.name]? = some denom.id :=
      (h.denomNames _ _).mpr ⟨(denom.id, denom.name), rfl,
        Nft.Directory.ofName_eq_some.mpr ⟨⟨c, hc, hname⟩, rfl⟩⟩
    rw [hindex]
    exact ⟨c, hc, hdenom⟩

theorem consistent_of_represents {C : AddressCodec} {s : Store} {R : Registry}
    (h : Represents C s R) : Consistent C s := by
  have hrecord : ∀ d t nft, hasDenomID s d = true →
      (s.nfts[keyNFT d t]? = some nft ↔ ∃ tok, R.tokens (d, t) = some tok ∧
        tok.record C t = nft) := by
    intro d t nft hd
    rw [h.getElem?_nfts (h.hasDenomID_iff.mp hd), Option.map_eq_some_iff]
  have howner : ∀ a d t id, hasDenomID s d = true →
      (s.owners[keyOwner C (some a) d t]? = some id ↔
        ∃ tok, R.tokens (d, t) = some tok ∧ tok.owner = a ∧ t = id) := by
    intro a d t id hd
    have hread := h.owners.getElem? (i := (a, d, t)) (h.keyFree_owner (h.hasDenomID_iff.mp hd) a t)
    rw [hread, Registry.owned_eq_some, Option.map_eq_some_iff]
    exact ⟨fun ⟨⟨tok, htok, ha⟩, ht⟩ ↦ ⟨tok, htok, ha, ht⟩,
      fun ⟨tok, htok, ha, ht⟩ ↦ ⟨⟨tok, htok, ha⟩, ht⟩⟩
  refine ⟨?_, ?_, ?_, ?_, ?_, fun _ _ ↦ getDenomByName_eq_ok h.toRepresentsClasses⟩
  · intro d t hd
    constructor
    · rintro ⟨nft, hnft⟩
      obtain ⟨tok, htok, -⟩ := (hrecord d t nft hd).mp hnft
      exact ⟨tok.owner, t, (howner _ _ _ _ hd).mpr ⟨tok, htok, rfl, rfl⟩⟩
    · rintro ⟨a, id, hid⟩
      obtain ⟨tok, htok, -⟩ := (howner _ _ _ _ hd).mp hid
      exact ⟨_, (hrecord d t _ hd).mpr ⟨tok, htok, rfl⟩⟩
  · intro d t nft hd hnft
    obtain ⟨tok, htok, rfl⟩ := (hrecord d t nft hd).mp hnft
    refine ⟨tok.owner, rfl, fun b ↦ ⟨?_, ?_⟩⟩
    · rintro ⟨id, hid⟩
      obtain ⟨tok', htok', rfl, -⟩ := (howner _ _ _ _ hd).mp hid
      exact congrArg Nft.Token.owner (Option.mem_unique htok' htok)
    · rintro rfl
      exact ⟨t, (howner _ _ _ _ hd).mpr ⟨tok, htok, rfl, rfl⟩⟩
  · intro key nft hnft
    obtain ⟨⟨d, t⟩, rfl, hmap⟩ := (h.nfts key nft).mp hnft
    obtain ⟨tok, htok, rfl⟩ := Option.map_eq_some_iff.mp hmap
    exact ⟨d, h.hasDenomID_iff.mpr (R.inhabited htok), rfl⟩
  · intro key id hid
    obtain ⟨⟨a, d, t⟩, rfl, howned⟩ := (h.owners key id).mp hid
    obtain ⟨htok, rfl⟩ := Registry.owned_eq_some.mp howned
    obtain ⟨tok, htok, -⟩ := Option.map_eq_some_iff.mp htok
    exact ⟨a, d, h.hasDenomID_iff.mpr (R.inhabited htok), rfl⟩
  · intro d hd
    have hids : {t : Text | ∃ nft, s.nfts[keyNFT d t]? = some nft} = R.tokenIds d := by
      ext t
      constructor
      · rintro ⟨nft, hnft⟩
        obtain ⟨tok, htok, -⟩ := (hrecord d t nft hd).mp hnft
        exact Option.isSome_iff_exists.mpr ⟨tok, htok⟩
      · intro hsome
        obtain ⟨tok, htok⟩ := Option.isSome_iff_exists.mp hsome
        exact ⟨_, (hrecord d t _ hd).mpr ⟨tok, htok, rfl⟩⟩
    rw [hids]
    exact ⟨R.finite_tokenIds d, h.getTotalSupply_eq d⟩

variable {P : Platform}

/-- The NFT store is consistent in every state a chain gets to in which it does not have both the
native class `ibc` and a class of vouchers. -/
theorem nft_store_consistent {st : State} (h : Reachable P st) (hclash : NoClash P st) :
    Consistent P.codec st.nft := by
  obtain ⟨R, hR⟩ := h.inv.holds hclash
  exact consistent_of_represents hR.represents

section Histories

open Reference

def nativeClass : List (Label platform) := [
  .deliver (.issueDenom "cat".toList "cats".toList [] alice []),
  .deliver (.mintNFT "tom".toList "cat".toList [] [] [] alice bob)]

/-- A native class and a class of vouchers, with a token in each of them. -/
def twoClasses : List (Label platform) := [
  .deliver (.issueDenom "cat".toList "cats".toList [] alice []),
  .deliver (.mintNFT "tom".toList "cat".toList [] [] [] alice bob),
  .recv (arriving end₀ "dog".toList "rex".toList alice)]

theorem noClash_twoClasses : NoClash platform (after twoClasses) := by
  intro hmark
  exact absurd hmark (by decide +kernel)

theorem nft_store_consistent_twoClasses :
    Nft.hasNFT (after twoClasses).nft "cat".toList "tom".toList = true ∧
      Consistent platform.codec (after twoClasses).nft :=
  ⟨by decide +kernel, nft_store_consistent (reachable_after twoClasses) noClash_twoClasses⟩

/-- The hash in the id of the vouchers of the class `dog` that arrive at the first end. -/
def dogHash : Text := hex (Reference.sha256 "nft/channel-0/dog".toList).toList

/-- The native class `ibc` is issued, a voucher arrives for its owner, and the owner sends the token
`HASH/rex` of the class `ibc` over the other end. -/
def clash : List (Label platform) := [
  .deliver (.issueDenom "ibc".toList "ibc".toList [] alice []),
  .recv (arriving end₀ "dog".toList "rex".toList alice),
  .transfer channels (sending end₁ "ibc".toList (dogHash ++ "/rex".toList) alice)]

/-- The record of a token of the class `ibc` that was never minted is there, with a supply of
zero. -/
theorem store_inconsistent_of_clash :
    Reachable platform (after clash) ∧
      Nft.hasNFT (after clash).nft "ibc".toList "rex".toList = true ∧
      getTotalSupply (after clash).nft "ibc".toList = 0 ∧
      ¬ Consistent platform.codec (after clash).nft := by
  have hdenom : hasDenomID (after clash).nft "ibc".toList = true := by decide +kernel
  have hrecord : Nft.hasNFT (after clash).nft "ibc".toList "rex".toList = true := by decide +kernel
  have hsupply : getTotalSupply (after clash).nft "ibc".toList = 0 := by decide +kernel
  refine ⟨reachable_after clash, hrecord, hsupply, fun hconsistent ↦ ?_⟩
  obtain ⟨hfinite, hcount⟩ := hconsistent.supply_eq "ibc".toList hdenom
  rw [hsupply, eq_comm, Set.ncard_eq_zero hfinite] at hcount
  rw [Nft.hasNFT, Std.ExtTreeMap.contains_eq_isSome_getElem?, Option.isSome_iff_exists] at hrecord
  exact Set.eq_empty_iff_forall_notMem.mp hcount "rex".toList hrecord

end Histories

end ChainMain.NftTransfer
