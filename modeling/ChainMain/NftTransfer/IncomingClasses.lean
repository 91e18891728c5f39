import ChainMain.NftTransfer.ChannelIsolation

/-!
# Incoming classes

A well-formed packet whose tokens are new on this chain is accepted, unless its class is new and a
denom bears the name that the class of vouchers would get (`incoming_class_accepted_iff`). Nothing
else that was on the chain before can stand in the way: the creator of a class of vouchers is the
escrow account of the end it has come in over, and the keys of new tokens are free.

The name of a class of vouchers is its id, and anybody can issue a denom with a given name, so a
class can be kept out before it arrives (`incoming_class_blocked`).
-/

set_option autoImplicit false

namespace ChainMain.NftTransfer

open Foundations Texts Outcomes OrderedStore Runs
open Nft (AccAddress AddressCodec BaseNFT SameDenoms Store hasDenomID hasDenomNm hasNFT
  isDenomCreator keyNFT keyOwner mintNFT)

variable {P : Platform} {U : Set Text} {C : AddressCodec}

/-! ### Minting -/

theorem keyNFT_inj {d t t' : Text} (hd : d ≠ []) (h : keyNFT d t = keyNFT d t') : t = t' := by
  rw [Nft.keyNFT_eq hd, Nft.keyNFT_eq hd] at h
  exact List.append_cancel_left (List.append_cancel_left h)

theorem keyOwner_inj {a : AccAddress} {d t t' : Text} (hd : d ≠ [])
    (h : keyOwner C (some a) d t = keyOwner C (some a) d t') : t = t' := by
  rw [Nft.keyOwner_eq C a hd, Nft.keyOwner_eq C a hd] at h
  exact List.append_cancel_left
    (List.cons_injective (List.append_cancel_left (List.append_cancel_left h)))

/-- The NFT is there, with the given URI, and the index has it for its owner. -/
def Delivered (C : AddressCodec) (s : Store) (d t uri : Text) (receiver : AccAddress) : Prop :=
  s.nfts[keyNFT d t]? = some (BaseNFT.new C t [] receiver uri []) ∧
    s.owners[keyOwner C (some receiver) d t]? = some t

/-- The creator of a denom can mint a token that is not there, and that is all that happens. -/
theorem exists_mintNFT {s : Store} {d t : Text} {denom : Nft.Denom} {creator : AccAddress}
    (hd : d ≠ []) (hcreator : isDenomCreator C s d creator = .ok denom)
    (hnew : hasNFT s d t = false) (uri : Text) (receiver : AccAddress) :
    ∃ s', mintNFT C s d t [] uri [] creator receiver = .ok s' ∧ SameDenoms s s' ∧
      Delivered C s' d t uri receiver ∧
      (∀ t', t' ≠ t → s'.nfts[keyNFT d t']? = s.nfts[keyNFT d t']?) ∧
      ∀ t', t' ≠ t →
        s'.owners[keyOwner C (some receiver) d t']? =
          s.owners[keyOwner C (some receiver) d t']? := by
  have hdenom : hasDenomID s d = true := by
    obtain ⟨denom, hget, -⟩ := bind_eq_ok.mp hcreator
    exact hasDenomID_of_getDenom hget
  let nft := BaseNFT.new C t [] receiver uri []
  let minted := Nft.increaseSupply (Nft.setOwner C (Nft.setNFT s d nft) d t receiver) d
  have hmint : mintNFT C s d t [] uri [] creator receiver = .ok minted := by
    unfold mintNFT Nft.mintNFTUnverified
    rw [hcreator, ok_bind, hdenom, hnew]
    rfl
  have hnfts : minted.nfts = s.nfts.insert (keyNFT d t) nft := rfl
  have howners : minted.owners = s.owners.insert (keyOwner C (some receiver) d t) t := rfl
  refine ⟨minted, hmint, ⟨rfl, rfl⟩, ⟨?_, ?_⟩, fun t' hne ↦ ?_, fun t' hne ↦ ?_⟩
  · rw [hnfts, getElem?_insert_eq, if_pos rfl]
  · rw [howners, getElem?_insert_eq, if_pos rfl]
  · rw [hnfts, getElem?_insert_eq, if_neg fun heq ↦ hne (keyNFT_inj hd heq).symm]
  · rw [howners, getElem?_insert_eq, if_neg fun heq ↦ hne (keyOwner_inj hd heq).symm]

theorem isDenomCreator_congr {s s' : Store} (h : SameDenoms s s') (d : Text) (a : AccAddress) :
    isDenomCreator C s' d a = isDenomCreator C s d a := by
  unfold isDenomCreator Nft.getDenom
  rw [h.denoms]

theorem exists_mintTokens {d : Text} {denom : Nft.Denom} {creator : AccAddress} (hd : d ≠ [])
    (uris : List Text) (receiver : AccAddress) {tokens : List (Text × ℕ)} {s : Store}
    (hcreator : isDenomCreator P.codec s d creator = .ok denom)
    (hindex : ∀ token ∈ tokens, token.2 < uris.length) (hdistinct : (tokens.map Prod.fst).Nodup)
    (hnew : ∀ token ∈ tokens, hasNFT s d token.1 = false) :
    ∃ s', tokens.foldlM (fun s (token : Text × ℕ) ↦ do
        let tokenURI ← expect uris[token.2]? (Err.panic "index out of range")
        nftCall (mintNFT P.codec s d token.1 [] tokenURI [] creator receiver)) s = .ok s' ∧
      SameDenoms s s' ∧
      (∀ token ∈ tokens, ∀ uri, uris[token.2]? = some uri →
        Delivered P.codec s' d token.1 uri receiver) ∧
      (∀ t, t ∉ tokens.map Prod.fst → s'.nfts[keyNFT d t]? = s.nfts[keyNFT d t]?) ∧
      ∀ t, t ∉ tokens.map Prod.fst → s'.owners[keyOwner P.codec (some receiver) d t]? =
        s.owners[keyOwner P.codec (some receiver) d t]? := by
  induction tokens generalizing s with
  | nil => exact ⟨s, rfl, ⟨rfl, rfl⟩, by simp, fun _ _ ↦ rfl, fun _ _ ↦ rfl⟩
  | cons token rest ih =>
    rw [List.map_cons, List.nodup_cons] at hdistinct
    obtain ⟨hfirst, hdistinct⟩ := hdistinct
    obtain ⟨uri, huri⟩ : ∃ uri, uris[token.2]? = some uri :=
      ⟨_, List.getElem?_eq_getElem (hindex token List.mem_cons_self)⟩
    obtain ⟨s₁, hmint, hsame₁, hdelivered₁, hnfts₁, howners₁⟩ :=
      exists_mintNFT hd hcreator (hnew token List.mem_cons_self) uri receiver
    have hnew₁ : ∀ other ∈ rest, hasNFT s₁ d other.1 = false := by
      intro other hmem
      have hne : other.1 ≠ token.1 := fun heq ↦ hfirst (heq ▸ List.mem_map_of_mem hmem)
      have hbefore := hnew other (List.mem_cons_of_mem _ hmem)
      rw [hasNFT, Std.ExtTreeMap.contains_eq_isSome_getElem?] at hbefore ⊢
      rw [hnfts₁ other.1 hne, hbefore]
    obtain ⟨s', hloop, hsame, hdelivered, hnfts, howners⟩ := ih
      ((isDenomCreator_congr hsame₁ d creator).trans hcreator)
      (fun other hmem ↦ hindex other (List.mem_cons_of_mem _ hmem)) hdistinct hnew₁
    refine ⟨s', ?_, ⟨hsame.denoms.trans hsame₁.denoms, hsame.denomNames.trans hsame₁.denomNames⟩,
      ?_, fun t ht ↦ ?_, fun t ht ↦ ?_⟩
    · refine foldlM_cons_eq_ok.mpr ⟨s₁, bind_eq_ok.mpr ⟨uri, ?_, ?_⟩, hloop⟩
      · exact expect_eq_ok.mpr huri
      · exact nftCall_eq_ok.mpr hmint
    · intro other hmem uri' hother
      rcases List.mem_cons.mp hmem with rfl | hmem
      · -- the token minted first is not touched by the rest
        obtain rfl := Option.mem_unique huri hother
        exact ⟨(hnfts _ hfirst).trans hdelivered₁.1, (howners _ hfirst).trans hdelivered₁.2⟩
      · exact hdelivered other hmem uri' hother
    · rw [List.map_cons, List.mem_cons, not_or] at ht
      rw [hnfts t ht.2, hnfts₁ t ht.1]
    · rw [List.map_cons, List.mem_cons, not_or] at ht
      rw [howners t ht.2, howners₁ t ht.1]

/-! ### Registering the class -/

/-- The class of vouchers can be registered if it is there or its name is free. -/
theorem exists_registerClass {st : State} {e : ChannelEnd P} {classID : Text} (uri : Text)
    (h : hasDenomID st.nft (voucherID P (getClassPrefix e ++ classID)) = true ∨
      hasDenomNm st.nft (voucherID P (getClassPrefix e ++ classID)) = false) :
    ∃ st', registerClass st e classID uri = .ok st' ∧
      hasDenomID st'.nft (voucherID P (getClassPrefix e ++ classID)) = true ∧
      st'.nft.nfts = st.nft.nfts := by
  unfold registerClass
  dsimp only
  rw [← classOf, classOf_arrived]
  generalize hst₁ : (if hasClassTrace st _ = true then st else _) = st₁
  have hnft : st₁.nft = st.nft := by
    split_ifs at hst₁
    · rw [← hst₁]
    · rw [← hst₁]
      rfl
  rw [hnft]
  cases hdenom : hasDenomID st.nft (voucherID P (getClassPrefix e ++ classID)) with
  | true => exact ⟨st₁, rfl, by rw [hnft, hdenom], by rw [hnft]⟩
  | false =>
    have hname : hasDenomNm st.nft (voucherID P (getClassPrefix e ++ classID)) = false :=
      h.resolve_left (by simp [hdenom])
    let id := voucherID P (getClassPrefix e ++ classID)
    let denom := Nft.Denom.new P.codec id id [] uri (getEscrowAddress e)
    let issued : Store := { st.nft with
      denoms := st.nft.denoms.insert (Nft.keyDenomID id) denom
      denomNames := st.nft.denomNames.insert (Nft.keyDenomName id) id }
    have hissue : Nft.issueDenom P.codec st.nft id id [] uri (getEscrowAddress e) = .ok issued := by
      unfold Nft.issueDenom Nft.setDenom
      dsimp only [Nft.Denom.new]
      rw [hdenom, hname]
      rfl
    refine ⟨{ st₁ with nft := issued }, ?_, ?_, rfl⟩
    · rw [if_neg Bool.false_ne_true, hissue]
      rfl
    · rw [hasDenomID, Std.ExtTreeMap.contains_insert]
      exact Bool.or_eq_true_iff.mpr (Or.inl (by simp [id]))

theorem name_free_of_registerClass {st st' : State} {e : ChannelEnd P} {classID uri : Text}
    (hok : registerClass st e classID uri = .ok st') :
    hasDenomID st.nft (voucherID P (getClassPrefix e ++ classID)) = true ∨
      hasDenomNm st.nft (voucherID P (getClassPrefix e ++ classID)) = false := by
  obtain ⟨_, -, -, hissue⟩ := registerClass_eq_ok hok
  rcases hissue with ⟨hdenom, -⟩ | ⟨s, hissue, -⟩
  · exact Or.inl hdenom
  · unfold Nft.issueDenom Nft.setDenom at hissue
    simp only [bind_eq_ok, ensure_eq_ok, Bool.not_eq_true'] at hissue
    obtain ⟨-, -, -, hname, -⟩ := hissue
    exact Or.inr hname

/-! ### Acceptance -/

/-- The packet has been accepted: its class is there, and the receiver has its tokens. -/
def Accepted (st' : State) (dest : ChannelEnd P) (data : PacketData) : Prop :=
  hasDenomID st'.nft (voucherID P (getClassPrefix dest ++ data.classId)) = true ∧
    ∃ receiver, P.codec.fromBech32 data.receiver = some receiver ∧
      ∀ (i : ℕ) (t uri : Text), data.tokenIds[i]? = some t → data.tokenUris[i]? = some uri →
        Delivered P.codec st'.nft (voucherID P (getClassPrefix dest ++ data.classId)) t uri receiver

theorem validateBasic_eq_ok {data : PacketData} (h : data.validateBasic P = .ok ()) :
    data.tokenIds.length = data.tokenUris.length ∧
      ∃ receiver, P.codec.fromBech32 data.receiver = some receiver := by
  unfold PacketData.validateBasic at h
  simp only [bind_eq_ok, ensure_eq_ok, decide_eq_true_eq] at h
  obtain ⟨-, -, -, -, -, hlength, -, -, -, -, -, -, hreceiver⟩ := h
  exact ⟨hlength, Option.isSome_iff_exists.mp hreceiver⟩

/-- A well-formed packet with new tokens is accepted if and only if its class is there or the name
of the class is free. `U` is a set of class paths without two of the same hash that holds the paths
that have come in. -/
theorem incoming_class_accepted_iff {τ : List (Transition State (Label P))} {st : State}
    (h : Reaches P τ st) (hU : Set.InjOn P.sha256 U) (hτ : ∀ t ∈ τ, t.label.arrivals ⊆ U)
    {packet : Packet P} {data : PacketData} (hpath : getClassPrefix packet.dest ++ data.classId ∈ U)
    (hvalid : data.validateBasic P = .ok ())
    (haway : isAwayFromOrigin packet.source data.classId = true) (hdistinct : data.tokenIds.Nodup)
    (hnew : ∀ t ∈ data.tokenIds,
      hasNFT st.nft (voucherID P (getClassPrefix packet.dest ++ data.classId)) t = false) :
    (∃ st', onRecvPacket st packet data = .ok st' ∧ Accepted st' packet.dest data) ↔
      hasDenomID st.nft (voucherID P (getClassPrefix packet.dest ++ data.classId)) = true ∨
        hasDenomNm st.nft (voucherID P (getClassPrefix packet.dest ++ data.classId)) = false := by
  constructor
  · rintro ⟨st', hok, -⟩
    obtain ⟨-, -, hprocess⟩ := bind_eq_ok.mp hok
    unfold processReceivedPacket at hprocess
    simp only [bind_eq_ok, if_pos haway] at hprocess
    obtain ⟨-, -, st₁, hregister, -⟩ := hprocess
    exact name_free_of_registerClass hregister
  · intro hfree
    obtain ⟨hlength, receiver, hreceiver⟩ := validateBasic_eq_ok hvalid
    obtain ⟨st₁, hregister, hdenom, hnfts⟩ := exists_registerClass data.classUri hfree
    obtain ⟨D, hclasses, -⟩ := (h.inv hτ).register hpath hregister
    obtain ⟨c, hc⟩ := Option.isSome_iff_exists.mp (hclasses.represents.hasDenomID_iff.mp hdenom)
    have harrived := hclasses.arrived hU hpath hc
    have hcreator := hclasses.represents.isDenomCreator_eq_ok.mpr ⟨c, hc, harrived.creator, rfl⟩
    have hnew₁ : ∀ token ∈ data.tokenIds.zipIdx, hasNFT st₁.nft
        (voucherID P (getClassPrefix packet.dest ++ data.classId)) token.1 = false := by
      rintro ⟨t, i⟩ htoken
      have hbefore := hnew t (List.fst_mem_of_mem_zipIdx htoken)
      rw [hasNFT] at hbefore ⊢
      rw [hnfts, hbefore]
    have hindex : ∀ token ∈ data.tokenIds.zipIdx, token.2 < data.tokenUris.length := by
      rintro ⟨t, i⟩ htoken
      have hlt := List.snd_lt_of_mem_zipIdx htoken
      rwa [Nat.add_zero, hlength] at hlt
    have hdistinct' : (data.tokenIds.zipIdx.map Prod.fst).Nodup := by
      rwa [List.zipIdx_map_fst]
    obtain ⟨s, hloop, hsame, hdelivered, -⟩ :=
      exists_mintTokens (voucherID_ne_nil _) data.tokenUris receiver hcreator hindex
        hdistinct' hnew₁
    have hprocess : processReceivedPacket st packet data = .ok { st₁ with nft := s } := by
      unfold processReceivedPacket
      refine bind_eq_ok.mpr ⟨receiver, nftCall_eq_ok.mpr (expect_eq_ok.mpr hreceiver), ?_⟩
      dsimp only
      rw [if_pos haway, ← classOf, classOf_arrived]
      exact bind_eq_ok.mpr ⟨st₁, hregister, bind_eq_ok.mpr ⟨s, hloop, rfl⟩⟩
    refine ⟨_, bind_eq_ok.mpr ⟨(), hvalid, hprocess⟩, ?_, receiver, hreceiver, ?_⟩
    · rw [hasDenomID, hsame.denoms]
      exact hdenom
    · intro i t uri ht huri
      exact hdelivered (t, i) (List.mk_mem_zipIdx_iff_getElem?.mpr ht) uri huri

section Histories

open Reference

/-- The data of the packet that brings the class `dog`. -/
def dogData : PacketData := ⟨"dog".toList, [], ["rex".toList], [[]], bob, alice⟩

def dogPacket : Packet platform := arriving end₀ "dog".toList "rex".toList alice

/-- The packet comes in on a chain with a native class. -/
theorem incoming_class_accepted_nativeClass :
    ∃ st', onRecvPacket (after nativeClass) dogPacket dogData = .ok st' ∧
      Accepted st' dogPacket.dest dogData := by
  obtain ⟨τ, hrun, hlabels⟩ := run_of_labels (State.start platform) nativeClass
  have hτ : ∀ t ∈ τ, t.label.arrivals ⊆ {getClassPrefix end₀ ++ "dog".toList} := by
    intro t ht
    have hlabel : t.label ∈ nativeClass := hlabels ▸ List.mem_map_of_mem ht
    simp only [nativeClass, List.mem_cons, List.not_mem_nil, or_false] at hlabel
    rcases hlabel with hlabel | hlabel <;> rw [hlabel] <;> exact Set.empty_subset _
  have hpath : getClassPrefix dogPacket.dest ++ dogData.classId ∈
      ({getClassPrefix end₀ ++ "dog".toList} : Set Text) := rfl
  have hvalid : dogData.validateBasic platform = .ok () := by decide +kernel
  have haway : isAwayFromOrigin dogPacket.source dogData.classId = true := by decide +kernel
  have hnew : ∀ t ∈ dogData.tokenIds, hasNFT (after nativeClass).nft
      (voucherID platform (getClassPrefix dogPacket.dest ++ dogData.classId)) t = false := by
    decide +kernel
  refine (incoming_class_accepted_iff hrun (Set.injOn_singleton _ _) hτ hpath hvalid haway
    (by decide) hnew).mpr (Or.inr ?_)
  decide +kernel

/-- A user issues a denom with the name that the class `dog` would get. -/
def squatted : List (Label platform) := [
  .deliver (.issueDenom "cat".toList ("ibc/".toList ++ dogHash) [] bob [])]

/-- The packet that brings the class is well formed and is rejected. -/
theorem incoming_class_blocked :
    Reachable platform (after squatted) ∧ dogData.validateBasic platform = .ok () ∧
      Nft.hasNFT (after squatted).nft (voucherID platform (getClassPrefix end₀ ++ "dog".toList))
        "rex".toList = false ∧
      ∀ st', onRecvPacket (after squatted) dogPacket dogData ≠ .ok st' := by
  have hrejected : (onRecvPacket (after squatted) dogPacket dogData).toOption.isNone = true := by
    decide +kernel
  refine ⟨reachable_after squatted, by decide +kernel, by decide +kernel, fun st' hok ↦ ?_⟩
  rw [hok] at hrejected
  cases hrejected

end Histories

end ChainMain.NftTransfer
