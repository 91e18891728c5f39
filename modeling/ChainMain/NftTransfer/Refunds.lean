import ChainMain.NftTransfer.IncomingClasses
import ChainMain.NftTransfer.Vouchers

/-!
# A refund undoes a send

The tokens that a transfer sends are set aside: they are in escrow for the channel end, or they are
gone from a class that its escrow account has created (`SetAside`). Whatever happens on the chain
afterwards leaves them so, except a packet received at the same end or another refund over it that
names the same tokens (`StepKind.awaits`). So the refund of the packet succeeds, and the tokens are
as they were before (`refund_undoes_send`).

This holds as long as the chain does not have both the native class `ibc` and a class of vouchers.
With both of them, a token `HASH/t` of the class `ibc` can be sent that is not put in escrow, and
the refund fails (`refund_fails`).
-/

set_option autoImplicit false

namespace ChainMain.NftTransfer

open Foundations Texts Outcomes OrderedStore Runs
open Nft (AccAddress AddressCodec BaseNFT Registry Represents Store Token getTotalSupply
  keyNFT keyOwner)

variable {P : Platform} {U : Set Text} {C : AddressCodec}
variable {a : AccAddress} {packet : Packet P} {data : PacketData} {R R' : Registry} {st st' : State}
  {d : Text}

/-! ### What is sent -/

/-- The turns of the loop read the URIs of the tokens, which are all different. -/
theorem sendTokens_uris {source : ChannelEnd P} {away : Bool} {sender : AccAddress}
    (hsender : sender ≠ getEscrowAddress source) {tokenIDs : List Text}
    {sent sent' : Store × List Text} (h : Represents P.codec sent.1 R)
    (hloop : tokenIDs.foldlM (sendToken source d away sender) sent = .ok sent') :
    tokenIDs.Nodup ∧ ∃ uris, sent'.2 = sent.2 ++ uris ∧
      uris.map some = tokenIDs.map fun t ↦ (R.tokens (d, t)).map Token.uri := by
  induction tokenIDs generalizing sent R with
  | nil =>
    obtain rfl := foldlM_nil_eq_ok.mp hloop
    exact ⟨List.nodup_nil, [], (List.append_nil _).symm, rfl⟩
  | cons t rest ih =>
    obtain ⟨sent₁, hfirst, hrest⟩ := foldlM_cons_eq_ok.mp hloop
    have hone : [t].foldlM (sendToken source d away sender) sent = .ok sent₁ :=
      foldlM_cons_eq_ok.mpr ⟨sent₁, hfirst, rfl⟩
    obtain ⟨R₁, h₁, hchanged₁⟩ := sendTokens_changed h hone
    obtain ⟨R', -, hchanged⟩ := sendTokens_changed h₁ hrest
    obtain ⟨hdistinct, uris, huris, hread⟩ := ih h₁ hrest
    have hgone := hchanged₁.inside t (List.mem_singleton_self t)
    -- the token is no longer its sender's, so it is not sent again
    have hnot : t ∉ rest := by
      intro ht
      obtain ⟨tok₁, htok₁, howner₁⟩ := (hchanged.inside t ht).owner
      rw [htok₁] at hgone
      cases away with
      | true =>
        obtain ⟨tok, -, -, hafter⟩ := hgone
        obtain rfl := Option.some.inj hafter
        exact hsender howner₁.symm
      | false =>
        obtain ⟨-, -, -, hnone⟩ := hgone
        cases hnone
    obtain ⟨tok, htok, -⟩ := hgone.owner
    have huri : sent₁.2 = sent.2 ++ [tok.uri] := by
      unfold sendToken at hfirst
      simp only [bind_eq_ok, pure_eq_ok, nftCall_eq_ok, Nft.getNFT, expect_eq_ok] at hfirst
      obtain ⟨nft, hnft, -, -, -, -, s, -, rfl⟩ := hfirst
      rw [h.getElem?_nfts (R.inhabited htok), htok] at hnft
      obtain rfl := Option.some.inj hnft
      rfl
    refine ⟨List.nodup_cons.mpr ⟨hnot, hdistinct⟩, tok.uri :: uris, ?_, ?_⟩
    · rw [huris, huri, List.append_assoc]
      rfl
    · rw [List.map_cons, List.map_cons, hread, htok]
      refine congrArg (List.cons _) (List.map_congr_left fun t' ht' ↦ ?_)
      rw [hchanged₁.outside (d, t') fun _ hmem ↦ hnot (List.mem_singleton.mp hmem ▸ ht')]

/-- What a successful `SendTransfer` has put in the packet, and what it has done to the tokens. -/
structure Sent (st : State) (packet : Packet P) (data : PacketData) (d : Text) (ids : List Text)
    (a : AccAddress) (R R' : Registry) : Prop where
  holds : packet.data = some data
  sender : data.sender = P.codec.string a
  tokenIds : data.tokenIds = ids
  distinct : ids.Nodup
  tokenUris : data.tokenUris.map some = ids.map fun t ↦ (R.tokens (d, t)).map Token.uri
  exists_class : (R.classes d).isSome
  path : fullClassPath st d = .ok data.classId
  change : Changed (SentBy packet.source (isAwayFromOrigin packet.source data.classId) a) R R' d ids

theorem sendTransfer_sent {ibc : Channels P} {sourcePort sourceChannel d receiver : Text}
    {ids : List Text} {sender : AccAddress} {height : Height} {timestamp : ℕ}
    (hsender : ∀ e : ChannelEnd P, sender ≠ getEscrowAddress e)
    (h : Represents P.codec st.nft R)
    (hok : sendTransfer ibc st sourcePort sourceChannel d ids sender receiver height timestamp =
      .ok (packet, st')) :
    ∃ data R', Represents P.codec st'.nft R' ∧ Sent st packet data d ids sender R R' ∧
      st'.traces = st.traces := by
  unfold sendTransfer createOutgoingPacket at hok
  simp only [bind_eq_ok, pure_eq_ok, nftCall_eq_ok, expect_eq_ok] at hok
  obtain ⟨-, -, source, -, dest, -, sequence, -, sentPacket, hcreate, -, -, heq⟩ := hok
  obtain ⟨denom, hdenom, path, hpath, sent, htokens, rfl⟩ := hcreate
  obtain ⟨rfl, rfl⟩ := Prod.mk.inj heq
  obtain ⟨R', h', hchanged⟩ := sendTokens_changed h htokens
  obtain ⟨hdistinct, uris, huris, hread⟩ := sendTokens_uris (hsender source) h htokens
  rw [List.nil_append] at huris
  refine ⟨_, R', h', ⟨rfl, rfl, rfl, hdistinct, huris ▸ hread, ?_, hpath, hchanged⟩, rfl⟩
  rw [Nft.getDenom, expect_eq_ok, h.getElem?_denoms] at hdenom
  exact Option.isSome_map.symm.trans (Option.isSome_iff_exists.mpr ⟨denom, hdenom⟩)

theorem Sent.decoded_sender {ids : List Text} (h : Sent st packet data d ids a R R') :
    nftCall (Nft.accAddressFromBech32 P.codec data.sender) = .ok a := by
  rw [nftCall_eq_ok, Nft.accAddressFromBech32, expect_eq_ok, h.sender]
  exact P.codec.fromBech32_string a

/-! ### What stays set aside -/

/-- The tokens are owned by `b`, or are not there while `b` is the creator of their class. -/
structure SetAside (b : AccAddress) (d : Text) (ids : List Text) (R : Registry) : Prop where
  exists_class : (R.classes d).isSome
  cases : ∀ t ∈ ids, (∃ tok, R.tokens (d, t) = some tok ∧ tok.owner = b) ∨
    R.tokens (d, t) = none ∧ ∃ c, R.classes d = some c ∧ c.creator = b

/-- The class and the tokens are as they were. -/
structure Awaits (d : Text) (ids : List Text) (R₁ R : Registry) : Prop where
  classes : R.classes d = R₁.classes d
  tokens : ∀ t ∈ ids, R.tokens (d, t) = R₁.tokens (d, t)

theorem classes_of_getDenom {s s' : Store} (h : Represents C s R)
    (h' : Represents C s' R') (hd : (R.classes d).isSome)
    (hkeep : ∀ denom, Nft.getDenom s d = .ok denom → Nft.getDenom s' d = .ok denom) :
    R'.classes d = R.classes d := by
  obtain ⟨c, hc⟩ := Option.isSome_iff_exists.mp hd
  have hbefore : Nft.getDenom s d = .ok (c.denom C d) := by
    rw [Nft.getDenom, expect_eq_ok, h.getElem?_denoms, hc]
    rfl
  have hafter := hkeep _ hbefore
  rw [Nft.getDenom, expect_eq_ok, h'.getElem?_denoms] at hafter
  obtain ⟨c', hc', heq⟩ := Option.map_eq_some_iff.mp hafter
  rw [hc', hc, Nft.Class.denom_injective C d heq]

section Awaiting

variable {b : AccAddress} {d : Text} {ids : List Text} {R₁ R R' : Registry}

theorem Awaits.exists_class (h : Awaits d ids R₁ R) (hset : SetAside b d ids R₁) :
    (R.classes d).isSome := by
  rw [h.classes]
  exact hset.exists_class

theorem Awaits.of_private (h : Awaits d ids R₁ R) (hset : SetAside b d ids R₁)
    (hne : a ≠ b) (hprivate : Private a R R') (hclasses : R'.classes d = R.classes d) :
    Awaits d ids R₁ R' := by
  refine ⟨hclasses.trans h.classes, fun t ht ↦ ?_⟩
  have hbefore := h.tokens t ht
  rcases hset.cases t ht with ⟨tok, htok, howner⟩ | ⟨hnone, c, hc, hcreator⟩
  · rw [htok] at hbefore ⊢
    exact hprivate.kept _ tok hbefore fun heq ↦ hne (heq.symm.trans howner)
  · rw [hnone] at hbefore ⊢
    rw [← Option.not_isSome_iff_eq_none]
    intro hsome
    obtain ⟨c', hc', hcreator'⟩ := hprivate.created (d, t) hbefore hsome
    rw [h.classes, hc] at hc'
    obtain rfl := Option.some.inj hc'
    exact hne (hcreator'.symm.trans hcreator)

theorem Act.awaits (hact : Act P U a st st') (hset : SetAside b d ids R₁)
    (hne : a ≠ b) (hR : Holds P U st R) (h : Awaits d ids R₁ R) (hclash : NoClash P st') :
    ∃ R', Represents P.codec st'.nft R' ∧ Awaits d ids R₁ R' := by
  obtain ⟨R', hrep', hprivate⟩ := hact.effect hR hclash
  have hclasses := classes_of_getDenom hR.represents hrep' (h.exists_class hset)
    fun _ hdenom ↦ hact.getDenom hdenom
  exact ⟨R', hrep', h.of_private hset hne hprivate hclasses⟩

theorem Awaits.of_changed {rel : Option Token → Option Token → Prop} {d' : Text} {ids' : List Text}
    (h : Awaits d ids R₁ R) (hchanged : Changed rel R R' d' ids')
    (hother : ∀ t ∈ ids, d = d' → t ∉ ids') : Awaits d ids R₁ R' := by
  refine ⟨?_, fun t ht ↦ ?_⟩
  · rw [hchanged.directory]
    exact h.classes
  · rw [hchanged.outside (d, t) (hother t ht)]
    exact h.tokens t ht

end Awaiting

/-- The step receives a packet at the end, or refunds one over it, that names the token of the
class. -/
inductive Label.Names (e : ChannelEnd P) (d t : Text) : Label P → Prop
  | recv {packet : Packet P} {data : PacketData} (hdest : packet.dest = e)
      (hdata : packet.data = some data) (ht : t ∈ data.tokenIds)
      (hd : classOf P (transferPath packet.source packet.dest data.classId) = d) :
      Names e d t (.recv packet)
  | refund {label : Label P} {packet : Packet P} {data : PacketData}
      (hrefunded : label.refunded = some packet) (hsource : packet.source = e)
      (hdata : packet.data = some data) (ht : t ∈ data.tokenIds) (hd : classOf P data.classId = d) :
      Names e d t label

/-- The channel ends that packets are received at or refunded over. -/
def Label.ends : Label P → Set (ChannelEnd P)
  | .recv packet => {packet.dest}
  | .acknowledge packet _ => {packet.source}
  | .timeout packet => {packet.source}
  | _ => ∅

theorem Label.source_mem_ends {label : Label P}
    (h : label.refunded = some packet) : packet.source ∈ label.ends := by
  cases label with
  | deliver msg => cases h
  | transfer ibc msg => cases h
  | recv packet' => cases h
  | acknowledge packet' ack =>
    rcases ack with _ | _ | cause
    · cases h
    · cases h
    · obtain rfl := Option.some.inj h
      rfl
  | timeout packet' =>
    obtain rfl := Option.some.inj h
    rfl

section Steps

variable {d : Text} {ids : List Text} {R₁ R R' : Registry} {e : ChannelEnd P}

theorem RecvEffect.awaits {ack : Acknowledgement} {b : AccAddress}
    (heffect : RecvEffect packet R ack R') (hset : SetAside b d ids R₁) (h : Awaits d ids R₁ R)
    (hnames : ∀ t ∈ ids, ¬ Label.Names packet.dest d t (.recv packet)) : Awaits d ids R₁ R' := by
  cases heffect with
  | rejected => exact h
  | @minted data _ R₂ _ hdata haway hgrown hchanged =>
    have hbetween : Awaits d ids R₁ R₂ := by
      refine ⟨?_, fun t ht ↦ by rw [hgrown.tokens, h.tokens t ht]⟩
      obtain ⟨c, hc⟩ := Option.isSome_iff_exists.mp (h.exists_class hset)
      rw [hgrown.kept d c hc, ← h.classes, hc]
    refine hbetween.of_changed hchanged fun t ht hd hmem ↦ hnames t ht (.recv rfl hdata hmem ?_)
    rw [transferPath_of_away _ haway, classOf_arrived, hd]
  | released hdata hpath hchanged =>
    refine h.of_changed hchanged fun t ht hd hmem ↦ hnames t ht (.recv rfl hdata hmem ?_)
    rw [hpath, transferPath_of_home, hd]

theorem RefundEffect.awaits {label : Label P}
    (heffect : RefundEffect packet data R R') (h : Awaits d ids R₁ R)
    (hrefunded : label.refunded = some packet) (hdata : packet.data = some data)
    (hnames : ∀ t ∈ ids, ¬ Label.Names packet.source d t label) : Awaits d ids R₁ R' := by
  cases heffect with
  | returned _ hchanged =>
    exact h.of_changed hchanged fun t ht hd hmem ↦
      hnames t ht (.refund hrefunded rfl hdata hmem hd.symm)
  | minted hpath hchanged =>
    refine h.of_changed hchanged fun t ht hd hmem ↦
      hnames t ht (.refund hrefunded rfl hdata hmem ?_)
    rw [hd, hpath, classOf_arrived]

/-- Every step that does not name the tokens leaves them set aside. -/
theorem StepKind.awaits {label : Label P} {E : Set (ChannelEnd P)}
    (hkind : StepKind Set.univ st label st') (hsigned : label.Signed)
    (hE : Set.InjOn getEscrowAddress E) (he : e ∈ E) (hends : label.ends ⊆ E)
    (hnames : ∀ t ∈ ids, ¬ label.Names e d t) (hset : SetAside (getEscrowAddress e) d ids R₁)
    (hR : Holds P Set.univ st R) (h : Awaits d ids R₁ R) (hclash : NoClash P st') :
    ∃ R', Represents P.codec st'.nft R' ∧ Awaits d ids R₁ R' := by
  -- an account other than the escrow account of the end does not touch the tokens
  have hothers : ∀ a, a ≠ getEscrowAddress e → Acts P Set.univ a st st' →
      ∃ R', Represents P.codec st'.nft R' ∧ Awaits d ids R₁ R' := fun a hne hacts ↦
    Acts.registry (fun _ _ _ hact hR h hclash ↦ hact.awaits hset hne hR h hclash) hacts hR h hclash
  cases hkind with
  | idle => exact ⟨R, hR.represents, h⟩
  | signed hsigner ha hacts => exact hothers _ (hsigned _ hsigner _ ha e) hacts
  | received packet =>
    by_cases hdest : packet.dest = e
    · obtain ⟨R', hrep', heffect⟩ := recv_effect hR (Set.subset_univ _) hclash
      exact ⟨R', hrep', heffect.awaits hset h (by rwa [hdest])⟩
    · refine hothers _ (fun heq ↦ hdest (hE (hends rfl) he heq)) ?_
      exact acts_of_recv st (Set.subset_univ _)
  | @refunded _ packet data _ hrefunded hdata hok =>
    by_cases hsource : packet.source = e
    · obtain ⟨R', hrep', heffect⟩ := refund_effect hR.represents hok
      exact ⟨R', hrep', heffect.awaits h hrefunded hdata (by rwa [hsource])⟩
    · refine hothers _ (fun heq ↦ hsource (hE (hends (label.source_mem_ends hrefunded)) he heq)) ?_
      exact acts_of_refund hok

end Steps

/-! ### The refund succeeds -/

theorem exists_transferOwner {s : Store} {d t : Text} {tok : Token} (h : Represents C s R)
    (htok : R.tokens (d, t) = some tok) (howner : tok.owner = a) (b : AccAddress) :
    ∃ s', Nft.transferOwner C s d t a b = .ok s' := by
  have hclass := R.inhabited htok
  have hread := (h.isOwner_eq_ok hclass).mpr ⟨tok, htok, howner, rfl⟩
  unfold Nft.transferOwner
  rw [h.hasDenomID_iff.mpr hclass, hread]
  exact ⟨_, rfl⟩

theorem exists_unescrowTokens {s : Store} {ids : List Text} {escrow : AccAddress}
    (receiver : AccAddress) (h : Represents P.codec s R) (hdistinct : ids.Nodup)
    (hheld : ∀ t ∈ ids, ∃ tok, R.tokens (d, t) = some tok ∧ tok.owner = escrow) :
    ∃ s', unescrowTokens (P := P) s d ids escrow receiver = .ok s' := by
  unfold unescrowTokens
  induction ids generalizing s R with
  | nil => exact ⟨s, rfl⟩
  | cons t rest ih =>
    obtain ⟨hnot, hdistinct⟩ := List.nodup_cons.mp hdistinct
    obtain ⟨tok, htok, howner⟩ := hheld t List.mem_cons_self
    obtain ⟨s₁, hfirst⟩ := exists_transferOwner h htok howner receiver
    obtain ⟨_, hclass, -, -, h₁⟩ := h.transferOwner hfirst
    obtain ⟨s', hrest⟩ := ih h₁ hdistinct fun t' ht' ↦ by
      have hne : (d, t') ≠ (d, t) := fun heq ↦ hnot ((Prod.mk.inj heq).2 ▸ ht')
      rw [Registry.tokens_put, Function.update_of_ne hne]
      exact hheld t' (List.mem_cons_of_mem _ ht')
    exact ⟨s', foldlM_cons_eq_ok.mpr ⟨s₁, nftCall_eq_ok.mpr hfirst, hrest⟩⟩

/-! ### What is restored -/

/-- The NFT is in the store after as it was in the store before, owned by the account, and the index
has it for this account only. -/
structure Restored (C : AddressCodec) (before after : Store) (d t : Text) (a : AccAddress) :
    Prop where
  record : ∃ nft, before.nfts[keyNFT d t]? = some nft ∧ nft.owner = C.string a ∧
    after.nfts[keyNFT d t]? = some nft
  index : ∀ b, (∃ id, after.owners[keyOwner C (some b) d t]? = some id) ↔ b = a

theorem restored_of_tokens {s s' : Store} {d t : Text} {tok : Token}
    (h : Represents C s R) (h' : Represents C s' R') (htok : R.tokens (d, t) = some tok)
    (htok' : R'.tokens (d, t) = some tok) : Restored C s s' d t tok.owner := by
  refine ⟨⟨tok.record C t, ?_, rfl, ?_⟩, fun b ↦ ?_⟩
  · rw [h.getElem?_nfts (R.inhabited htok), htok]
    rfl
  · rw [h'.getElem?_nfts (R'.inhabited htok'), htok']
    rfl
  · have hindex : s'.owners[keyOwner C (some b) d t]? = R'.owned (b, d, t) :=
      h'.owners.getElem? (i := (b, d, t)) (h'.keyFree_owner (R'.inhabited htok') b t)
    rw [hindex]
    simp only [Registry.owned_eq_some, htok', Option.map_some, Option.some.injEq]
    constructor
    · rintro ⟨_, heq, -⟩
      exact heq.symm
    · rintro rfl
      exact ⟨t, rfl, rfl⟩

theorem supply_of_added {ids : List Text} (hdistinct : ids.Nodup)
    (hbefore : ∀ t ∈ ids, R.tokens (d, t) = none) (hafter : ∀ t ∈ ids, (R'.tokens (d, t)).isSome)
    (hother : ∀ t, t ∉ ids → R'.tokens (d, t) = R.tokens (d, t)) :
    R'.supply d = R.supply d + ids.length := by
  have hunion : R'.tokenIds d = R.tokenIds d ∪ ids.toFinset := by
    ext t
    by_cases ht : t ∈ ids
    · simp [Registry.tokenIds, ht, hafter t ht]
    · simp [Registry.tokenIds, ht, hother t ht]
  have hdisjoint : Disjoint (R.tokenIds d) (ids.toFinset : Set Text) := by
    rw [Set.disjoint_left]
    intro t hsome ht
    rw [Registry.tokenIds, Set.mem_ofPred_eq, hbefore t (by simpa using ht)] at hsome
    cases hsome
  rw [Registry.supply, hunion, Set.ncard_union_eq hdisjoint (R.finite_tokenIds d)
    ids.toFinset.finite_toSet, Set.ncard_coe_finset, List.toFinset_card_of_nodup hdistinct]
  rfl

theorem supply_of_handed {ids : List Text} {a b : AccAddress}
    (h : Changed (Handed a b) R R' d ids) : R'.supply d = R.supply d := by
  refine congrArg Set.ncard (Set.ext fun t ↦ ?_)
  by_cases ht : t ∈ ids
  · obtain ⟨tok, hbefore, -, hafter⟩ := h.inside t ht
    simp [Registry.tokenIds, hbefore, hafter]
  · simp [Registry.tokenIds, h.outside (d, t) fun _ ↦ ht]

/-- The refund has succeeded, and the tokens are as they were. -/
structure Undone (P : Platform) (st st₁ st₂ st₃ : State) (d : Text) (ids : List Text)
    (a : AccAddress) :
    Prop where
  restored : ∀ t ∈ ids, Restored P.codec st.nft st₃.nft d t a
  supply : getTotalSupply st₃.nft d + getTotalSupply st₁.nft d =
    getTotalSupply st₂.nft d + getTotalSupply st.nft d

theorem undone_of_escrowed {st st₁ st₂ : State}
    {ids : List Text} {R R₁ R₂ : Registry} (h : Represents P.codec st.nft R)
    (h₁ : Represents P.codec st₁.nft R₁) (h₂ : Represents P.codec st₂.nft R₂)
    (hsent : Sent st packet data d ids a R R₁) (hclass : classOf P data.classId = d)
    (hawaits : Awaits d ids R₁ R₂) (haway : isAwayFromOrigin packet.source data.classId = true) :
    ∃ st₃, refundPacketToken st₂ packet data = .ok st₃ ∧ Undone P st st₁ st₂ st₃ d ids a := by
  have hescrowed := hsent.change
  rw [haway] at hescrowed
  have hheld : ∀ t ∈ ids, ∃ tok, R.tokens (d, t) = some tok ∧ tok.owner = a ∧
      R₂.tokens (d, t) = some { tok with owner := getEscrowAddress packet.source } := by
    intro t ht
    obtain ⟨tok, htok, howner, hafter⟩ := hescrowed.inside t ht
    exact ⟨tok, htok, howner, (hawaits.tokens t ht).trans hafter⟩
  have hbefore : ∀ t ∈ ids, ∃ tok, R₂.tokens (d, t) = some tok ∧
      tok.owner = getEscrowAddress packet.source := fun t ht ↦ by
    obtain ⟨tok, -, -, hafter⟩ := hheld t ht
    exact ⟨_, hafter, rfl⟩
  obtain ⟨s₃, hloop⟩ := exists_unescrowTokens a h₂ hsent.distinct hbefore
  obtain ⟨R₃, h₃, hchanged⟩ := unescrowTokens_changed h₂ hloop
  refine ⟨{ st₂ with nft := s₃ }, ?_, fun t ht ↦ ?_, ?_⟩
  · refine bind_eq_ok.mpr ⟨a, hsent.decoded_sender, bind_eq_ok.mpr ⟨s₃, ?_, rfl⟩⟩
    rw [if_pos haway, ← classOf, hclass, hsent.tokenIds]
    exact hloop
  · obtain ⟨tok, htok, howner, hafter⟩ := hheld t ht
    obtain ⟨tok₂, htok₂, -, htok₃⟩ := hchanged.inside t ht
    rw [hafter] at htok₂
    obtain rfl := Option.some.inj htok₂
    have hsame : ({ tok with owner := a } : Token) = tok := by rw [← howner]
    exact howner ▸ restored_of_tokens h h₃ htok (htok₃.trans (congrArg some hsame))
  · rw [h₃.getTotalSupply_eq, h₁.getTotalSupply_eq, h₂.getTotalSupply_eq, h.getTotalSupply_eq,
      supply_of_handed hchanged, supply_of_handed hescrowed]

theorem undone_of_burned {st st₁ st₂ : State} {ids : List Text} {R R₁ R₂ : Registry} {c : Nft.Class}
    (h : Represents P.codec st.nft R) (h₁ : Represents P.codec st₁.nft R₁)
    (h₂ : Represents P.codec st₂.nft R₂) (hsent : Sent st packet data d ids a R R₁)
    (hclass : classOf P data.classId = d) (hawaits : Awaits d ids R₁ R₂)
    (haway : isAwayFromOrigin packet.source data.classId = false) (hc : R₂.classes d = some c)
    (hcreator : c.creator = getEscrowAddress packet.source)
    (hplain : ∀ t ∈ ids, ∀ tok, R.tokens (d, t) = some tok → tok.name = [] ∧ tok.data = []) :
    ∃ st₃, refundPacketToken st₂ packet data = .ok st₃ ∧ Undone P st st₁ st₂ st₃ d ids a := by
  have hburned := hsent.change
  rw [haway] at hburned
  have hgone : ∀ t ∈ ids, ∃ tok, R.tokens (d, t) = some tok ∧ tok.owner = a ∧
      R₁.tokens (d, t) = none ∧ R₂.tokens (d, t) = none := by
    intro t ht
    obtain ⟨tok, htok, howner, hnone⟩ := hburned.inside t ht
    exact ⟨tok, htok, howner, hnone, (hawaits.tokens t ht).trans hnone⟩
  have hclass₂ : (R₂.classes d).isSome := Option.isSome_iff_exists.mpr ⟨c, hc⟩
  have hlength : data.tokenUris.length = ids.length := by
    have hlengths := congrArg List.length hsent.tokenUris
    rwa [List.length_map, List.length_map] at hlengths
  have hnew : ∀ token ∈ ids.zipIdx, Nft.hasNFT st₂.nft d token.1 = false := by
    rintro ⟨t, i⟩ htoken
    obtain ⟨-, -, -, -, hnone⟩ := hgone t (List.fst_mem_of_mem_zipIdx htoken)
    rw [← Bool.not_eq_true, h₂.hasNFT_iff hclass₂, hnone]
    exact Bool.false_ne_true
  obtain ⟨s₃, hloop, -, hdelivered, -⟩ := exists_mintTokens (h₂.nonempty d hclass₂) data.tokenUris a
    (h₂.isDenomCreator_eq_ok.mpr ⟨c, hc, hcreator, rfl⟩)
    (fun token htoken ↦ by rw [hlength]; exact List.snd_lt_of_mem_zipIdx htoken)
    (by rw [List.zipIdx_map_fst]; exact hsent.distinct) hnew
  have hmint : mintTokens (P := P) st₂.nft d data (getEscrowAddress packet.source) a = .ok s₃ := by
    unfold mintTokens
    rw [hsent.tokenIds]
    exact hloop
  obtain ⟨R₃, h₃, hchanged⟩ := mintTokens_changed h₂ hmint
  rw [hsent.tokenIds] at hchanged
  refine ⟨{ st₂ with nft := s₃ }, ?_, fun t ht ↦ ?_, ?_⟩
  · refine bind_eq_ok.mpr ⟨a, hsent.decoded_sender, bind_eq_ok.mpr ⟨s₃, ?_, rfl⟩⟩
    rw [haway, if_neg Bool.false_ne_true, ← classOf, hclass]
    exact hmint
  · obtain ⟨tok, htok, howner, -⟩ := hgone t ht
    obtain ⟨hname, hempty⟩ := hplain t ht tok htok
    -- the packet holds the URI of the token
    obtain ⟨i, hi⟩ := List.mem_iff_getElem?.mp ht
    have huri : data.tokenUris[i]? = some tok.uri := by
      have hread := congrArg (fun l ↦ l[i]?) hsent.tokenUris
      simp only [List.getElem?_map, hi, htok, Option.map_some] at hread
      obtain ⟨uri, huri, heq⟩ := Option.map_eq_some_iff.mp hread
      rw [huri, heq]
    have hnft := (hdelivered (t, i) (List.mk_mem_zipIdx_iff_getElem?.mpr hi) tok.uri huri).1
    obtain ⟨-, tok₃, htok₃, -⟩ := hchanged.inside t ht
    rw [h₃.getElem?_nfts (R₃.inhabited htok₃), htok₃] at hnft
    have hrecord : tok₃.record P.codec t = tok.record P.codec t := by
      rw [Token.record, Token.record, hname, hempty, howner]
      exact Option.some.inj hnft
    obtain rfl := Nft.Token.record_injective P.codec t hrecord
    exact howner ▸ restored_of_tokens h h₃ htok htok₃
  · have hcreated := supply_of_added hsent.distinct (fun t ht ↦ (hchanged.inside t ht).1)
      (fun t ht ↦ by
        obtain ⟨-, tok, htok, -⟩ := hchanged.inside t ht
        rw [htok]
        rfl)
      fun t ht ↦ hchanged.outside (d, t) fun _ ↦ ht
    have hdestroyed := supply_of_added hsent.distinct
      (fun t ht ↦ by
        obtain ⟨-, -, -, hnone, -⟩ := hgone t ht
        exact hnone)
      (fun t ht ↦ by
        obtain ⟨tok, htok, -⟩ := hgone t ht
        rw [htok]
        rfl)
      fun t ht ↦ (hburned.outside (d, t) fun _ ↦ ht).symm
    rw [h₃.getTotalSupply_eq, h₁.getTotalSupply_eq, h₂.getTotalSupply_eq,
      h.getTotalSupply_eq, hcreated, hdestroyed]
    omega

/-! ### Sending and refunding -/

theorem Sent.setAside {ids : List Text}
    (h : Sent st packet data d ids a R R')
    (hcreator : isAwayFromOrigin packet.source data.classId = false →
      ∃ c, R.classes d = some c ∧ c.creator = getEscrowAddress packet.source) :
    SetAside (getEscrowAddress packet.source) d ids R' := by
  have hclasses : R'.classes d = R.classes d := by rw [h.change.directory]
  refine ⟨hclasses ▸ h.exists_class, fun t ht ↦ ?_⟩
  have hchange := h.change.inside t ht
  cases haway : isAwayFromOrigin packet.source data.classId with
  | true =>
    rw [haway] at hchange
    obtain ⟨tok, -, -, hafter⟩ := hchange
    exact Or.inl ⟨_, hafter, rfl⟩
  | false =>
    rw [haway] at hchange
    obtain ⟨-, -, -, hnone⟩ := hchange
    exact Or.inr ⟨hnone, hclasses ▸ hcreator haway⟩

/-- What is burned are vouchers of a class that the escrow account of the end has created. -/
theorem Sent.of_home {ids : List Text} (h : Sent st packet data d ids a R R') (hR : Holds P U st R)
    (hfiled : Filed P st) (hhome : isAwayFromOrigin packet.source data.classId = false) :
    Nft.validateDenomID d ≠ .ok () ∧
      ∃ c, R.classes d = some c ∧ c.creator = getEscrowAddress packet.source := by
  obtain ⟨rest, hrest⟩ := isAwayFromOrigin_eq_false.mp hhome
  obtain ⟨hclass, hkind⟩ := fullClassPath_cases hR hfiled h.exists_class h.path
  rcases hkind with hslash | ⟨e, rest', c, hpath, hc, hcreator⟩
  · exact absurd (hrest ▸ slash_mem_classPrefix packet.source rest) hslash
  · obtain ⟨rfl, -⟩ := classPrefix_append_inj (hrest.symm.trans hpath)
    refine ⟨?_, c, hc, hcreator⟩
    rw [← hclass, hrest, classOf_arrived]
    exact not_native_voucherID _

/-- After a send and anything else that does not name the same tokens at the same end, the refund
succeeds and restores the tokens. `E` is a set of channel ends without two of the same escrow
account. -/
theorem refund_undoes_send {τ : List (Transition State (Label P))} {st : State}
    (hτ : Reaches P τ st) (hsigned : ∀ t ∈ τ, t.label.Signed) {ibc : Channels P}
    {sourcePort sourceChannel d receiver : Text} {ids : List Text} {a : AccAddress}
    {height : Height} {timestamp : ℕ} {packet : Packet P} {st₁ : State}
    (ha : ∀ e : ChannelEnd P, a ≠ getEscrowAddress e)
    (hsend : sendTransfer ibc st sourcePort sourceChannel d ids a receiver height timestamp =
      .ok (packet, st₁)) {σ : List (Transition State (Label P))} {st₂ : State}
    (hσ : Run (ChainStep P) st₁ σ st₂) (hsigned' : ∀ t ∈ σ, t.label.Signed)
    (hnames : ∀ t ∈ σ, ∀ id ∈ ids, ¬ t.label.Names packet.source d id) {E : Set (ChannelEnd P)}
    (hE : Set.InjOn getEscrowAddress E) (he : packet.source ∈ E) (hends : ∀ t ∈ σ, t.label.ends ⊆ E)
    (hclash : NoClash P st₂) (cause : Err) :
    ∃ st₃, acknowledge st₂ packet (some (.error cause)) = .ok st₃ ∧ timeout st₂ packet = .ok st₃ ∧
      Undone P st st₁ st₂ st₃ d ids a := by
  have hacts : Acts P Set.univ a st st₁ := acts_of_sendTransfer hsend
  have hclash₁ : NoClash P st₁ := hclash.of_le fun d' hd ↦
    Run.invariant (P := fun s ↦ Nft.hasDenomID s.nft d' = true) hd
      (fun _ label _ hd hstep ↦ hstep ▸ hasDenomID_step hd label) hσ
  have hclash₀ : NoClash P st := hclash₁.of_le fun d' hd ↦ Acts.hasDenomID hacts hd
  obtain ⟨R, hR, hplain⟩ := hτ.plain hsigned hclash₀
  obtain ⟨data, R₁, h₁, hsent, -⟩ := sendTransfer_sent ha hR.represents hsend
  have hR₁ := (Acts.inv hacts hR.inv).holds_of_represents hclash₁ h₁
  have hclass := (fullClassPath_cases hR hτ.filed hsent.exists_class hsent.path).1
  have hset := hsent.setAside fun hhome ↦ (hsent.of_home hR hτ.filed hhome).2
  -- nothing happens to the tokens in between
  have hL : ∀ t ∈ σ, t.label.Signed ∧ t.label.ends ⊆ E ∧
      ∀ id ∈ ids, ¬ t.label.Names packet.source d id := fun t ht ↦
    ⟨hsigned' t ht, hends t ht, hnames t ht⟩
  obtain ⟨R₂, hR₂, hawaits⟩ := run_registry (Q := Awaits d ids R₁)
    (L := fun label ↦ label.Signed ∧ label.ends ⊆ E ∧ ∀ id ∈ ids, ¬ label.Names packet.source d id)
    (fun _ _ _ _ hkind ⟨hlabel, hsubset, hother⟩ hR h hclash ↦
      hkind.awaits hlabel hE he hsubset hother hset hR h hclash)
    hσ hL hR₁ ⟨rfl, fun _ _ ↦ rfl⟩ hclash
  have hrefund : ∃ st₃, refundPacketToken st₂ packet data = .ok st₃ ∧
      Undone P st st₁ st₂ st₃ d ids a := by
    cases haway : isAwayFromOrigin packet.source data.classId with
    | true =>
      exact undone_of_escrowed hR.represents h₁ hR₂.represents hsent hclass hawaits haway
    | false =>
      obtain ⟨hvoucher, c, hc, hcreator⟩ := hsent.of_home hR hτ.filed haway
      have hc₂ : R₂.classes d = some c := by
        rw [hawaits.classes, hsent.change.directory]
        exact hc
      exact undone_of_burned hR.represents h₁ hR₂.represents hsent hclass hawaits haway hc₂ hcreator
        fun t _ tok htok ↦ hplain d t tok htok hvoucher
  obtain ⟨st₃, hok, hundone⟩ := hrefund
  have hdata : packetData packet = .ok data := expect_eq_ok.mpr hsent.holds
  refine ⟨st₃, ?_, ?_, hundone⟩
  · exact bind_eq_ok.mpr ⟨_, rfl, bind_eq_ok.mpr ⟨data, hdata, hok⟩⟩
  · exact bind_eq_ok.mpr ⟨data, hdata, hok⟩

/-! ### Histories -/

section Histories

open Reference

def aliceAccount : AccAddress := ⟨[0xAA], by decide, by decide⟩

/-- The users have addresses of one byte, so they are not escrow accounts. -/
theorem ne_escrow_of_length (ha : a.bytes.length = 1) (e : ChannelEnd platform) :
    a ≠ getEscrowAddress e := by
  rintro rfl
  simp [getEscrowAddress] at ha

/-- The first user sends the token over the end. -/
def sentBy (st : State) (e : ChannelEnd platform) (d t : Text) :
    Except Err (Packet platform × State) :=
  sendTransfer channels st e.port e.channel d [t] aliceAccount bob ⟨0, 0⟩ 0

theorem exists_of_any {ε α : Type} {x : Except ε α} {p : α → Bool} (h : x.toOption.any p = true) :
    ∃ a, x = .ok a ∧ p a = true := by
  cases x with
  | error e => cases h
  | ok a => exact ⟨a, rfl, h⟩

def voucherArrived : List (Label platform) :=
  [.recv (arriving end₀ "dog".toList "rex".toList alice)]

def issued : Label platform := .deliver (.issueDenom "cat".toList "cats".toList [] bob [])

/-- A voucher is sent back and burned, and after another message the packet times out. -/
theorem refund_undoes_send_voucher :
    ∃ packet st₁ st₃, sentBy (after voucherArrived) end₀ ("ibc/".toList ++ dogHash) "rex".toList =
        .ok (packet, st₁) ∧
      Nft.hasNFT st₁.nft ("ibc/".toList ++ dogHash) "rex".toList = false ∧
      timeout (step st₁ issued) packet = .ok st₃ ∧
      Undone platform (after voucherArrived) st₁ (step st₁ issued) st₃ ("ibc/".toList ++ dogHash)
        ["rex".toList] aliceAccount := by
  have hsent : (sentBy (after voucherArrived) end₀ ("ibc/".toList ++ dogHash)
      "rex".toList).toOption.any (fun sent ↦ sent.1.source = end₀ &&
        (!Nft.hasNFT sent.2.nft ("ibc/".toList ++ dogHash) "rex".toList &&
          !Nft.hasDenomID (step sent.2 issued).nft classMark)) = true := by decide +kernel
  obtain ⟨⟨packet, st₁⟩, hok, hfacts⟩ := exists_of_any hsent
  simp only [Bool.and_eq_true, decide_eq_true_eq, Bool.not_eq_true'] at hfacts
  obtain ⟨hsource, hburned, hmark⟩ := hfacts
  obtain ⟨τ, hτ, hlabels⟩ := run_of_labels (State.start platform) voucherArrived
  have hsigned : ∀ t ∈ τ, t.label.Signed := by
    intro t ht
    have hlabel : t.label ∈ voucherArrived := hlabels ▸ List.mem_map_of_mem ht
    rw [List.mem_singleton.mp hlabel]
    exact fun _ hsigner ↦ nomatch hsigner
  have hsigned' : issued.Signed := by
    intro sender hsigner a ha
    obtain rfl := Option.some.inj hsigner
    have hbytes : (platform.codec.fromBech32 bob).map AccAddress.bytes = some [0xBB] := by decide
    have hbob : (platform.codec.fromBech32 bob).map AccAddress.bytes = some a.bytes :=
      congrArg (Option.map AccAddress.bytes) ha
    rw [hbytes] at hbob
    exact ne_escrow_of_length (by rw [← Option.some.inj hbob]; rfl)
  have hrun : Run (ChainStep platform) st₁ [⟨st₁, issued, step st₁ issued⟩] (step st₁ issued) :=
    Run.cons rfl .nil
  have honly : ∀ t ∈ [(⟨st₁, issued, step st₁ issued⟩ : Transition State (Label platform))],
      t.label = issued := fun t ht ↦ List.mem_singleton.mp ht ▸ rfl
  obtain ⟨st₃, -, htimeout, hundone⟩ := refund_undoes_send hτ hsigned
    (ne_escrow_of_length (a := aliceAccount) rfl) hok hrun (fun t ht ↦ honly t ht ▸ hsigned')
    (fun t ht id _ hnames ↦ by
      rw [honly t ht] at hnames
      cases hnames with
      | refund hrefunded => cases hrefunded)
    injOn_ends (Or.inl hsource) (fun t ht ↦ honly t ht ▸ Set.empty_subset _)
    (fun h ↦ absurd (hmark.symm.trans h) Bool.false_ne_true) (.outside "")
  exact ⟨packet, st₁, st₃, hok, hburned, htimeout, hundone⟩

/-- The native class `ibc` is issued, and a voucher arrives. -/
def voucherBesideIbc : List (Label platform) :=
  .deliver (.issueDenom "ibc".toList "ibc".toList [] alice []) :: voucherArrived

/-- The owner of the voucher sends the token `HASH/rex` of the class `ibc`. Neither an error
acknowledgement nor a timeout refunds it. -/
theorem refund_fails :
    Reachable platform (after voucherBesideIbc) ∧
      ∃ packet st₁, sentBy (after voucherBesideIbc) end₁ "ibc".toList (dogHash ++ "/rex".toList) =
          .ok (packet, st₁) ∧
        (∀ cause st₃, acknowledge st₁ packet (some (.error cause)) ≠ .ok st₃) ∧
        ∀ st₃, timeout st₁ packet ≠ .ok st₃ := by
  have hsent : (sentBy (after voucherBesideIbc) end₁ "ibc".toList
      (dogHash ++ "/rex".toList)).toOption.any
        (fun sent ↦ (timeout sent.2 sent.1).toOption.isNone) = true := by decide +kernel
  obtain ⟨⟨packet, st₁⟩, hok, hfails⟩ := exists_of_any hsent
  have hnone : ∀ st₃, timeout st₁ packet ≠ .ok st₃ := by
    intro st₃ htimeout
    rw [htimeout] at hfails
    cases hfails
  exact ⟨reachable_after _, packet, st₁, hok, fun _ ↦ hnone, hnone⟩

end Histories

end ChainMain.NftTransfer
