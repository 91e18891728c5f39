import ChainMain.NftTransfer.ChainInvariant

/-!
# What packets do to the registry

A transfer, a received packet and a refund each work through the tokens of a packet in a loop. What
the loop does to the registry is the same for every token of the packet and nothing for all other
tokens (`Changed`): the tokens are handed over, destroyed or created. From this come the effects of
a transfer (`transfer_effect`), of a received packet (`recv_effect`) and of a refund
(`refund_effect`).
-/

set_option autoImplicit false

namespace ChainMain.NftTransfer

open Foundations Texts Outcomes OrderedStore
open Nft (AccAddress AddressCodec Registry Represents Store Token)

variable {P : Platform} {U : Set Text} {C : AddressCodec}
variable {a : AccAddress} {packet : Packet P} {data : PacketData} {R : Registry} {st st' : State}
  {d : Text}

/-! ### Changes of listed tokens -/

/-- The listed tokens of a class have changed as `rel` says, and nothing else has. -/
structure Changed (rel : Option Token → Option Token → Prop) (R R' : Registry) (d : Text)
    (ids : List Text) : Prop where
  directory : R'.toDirectory = R.toDirectory
  inside : ∀ t ∈ ids, rel (R.tokens (d, t)) (R'.tokens (d, t))
  outside : ∀ i : Text × Text, (i.1 = d → i.2 ∉ ids) → R'.tokens i = R.tokens i

namespace Changed

variable {rel : Option Token → Option Token → Prop} {R R₁ R' : Registry} {d t : Text}
  {ids ids' : List Text}

theorem nil (R : Registry) : Changed rel R R d [] :=
  ⟨rfl, (fun _ ht ↦ nomatch ht), fun _ _ ↦ rfl⟩

theorem put {tok : Token} (hclass : (R.classes d).isSome)
    (hrel : rel (R.tokens (d, t)) (some tok)) :
    Changed rel R (R.put (d, t) tok hclass) d [t] := by
  refine ⟨rfl, fun t' ht' ↦ ?_, fun i hi ↦ ?_⟩
  · obtain rfl := List.mem_singleton.mp ht'
    rwa [Registry.tokens_put, Function.update_self]
  · have hne : i ≠ (d, t) := by
      rintro rfl
      exact hi rfl (List.mem_singleton_self t)
    rw [Registry.tokens_put, Function.update_of_ne hne]

theorem remove (hrel : rel (R.tokens (d, t)) none) : Changed rel R (R.remove (d, t)) d [t] := by
  refine ⟨rfl, fun t' ht' ↦ ?_, fun i hi ↦ ?_⟩
  · obtain rfl := List.mem_singleton.mp ht'
    rwa [Registry.tokens_remove, Function.update_self]
  · have hne : i ≠ (d, t) := by
      rintro rfl
      exact hi rfl (List.mem_singleton_self t)
    rw [Registry.tokens_remove, Function.update_of_ne hne]

/-- A token that is listed twice has changed twice, which is a change of the same kind. -/
theorem append [IsTrans (Option Token) rel] (h : Changed rel R R₁ d ids)
    (h' : Changed rel R₁ R' d ids') : Changed rel R R' d (ids ++ ids') := by
  refine ⟨h'.directory.trans h.directory, fun t ht ↦ ?_, fun i hi ↦ ?_⟩
  · by_cases hfirst : t ∈ ids
    · by_cases hsecond : t ∈ ids'
      · exact IsTrans.trans _ _ _ (h.inside t hfirst) (h'.inside t hsecond)
      · rw [h'.outside (d, t) fun _ ↦ hsecond]
        exact h.inside t hfirst
    · have hsecond := (List.mem_append.mp ht).resolve_left hfirst
      rw [← h.outside (d, t) fun _ ↦ hfirst]
      exact h'.inside t hsecond
  · rw [h'.outside i fun hd hmem ↦ hi hd (List.mem_append_right _ hmem),
      h.outside i fun hd hmem ↦ hi hd (List.mem_append_left _ hmem)]

theorem of_loop [IsTrans (Option Token) rel] {σ α : Type} {f : σ → α → Except Err σ}
    (store : σ → Store) (token : α → Text)
    (hturn : ∀ s a s' R, f s a = .ok s' → Represents C (store s) R →
      ∃ R', Represents C (store s') R' ∧ Changed rel R R' d [token a])
    {items : List α} {s s' : σ} (hloop : items.foldlM f s = .ok s') (h : Represents C (store s) R) :
    ∃ R', Represents C (store s') R' ∧ Changed rel R R' d (items.map token) := by
  induction items generalizing s R with
  | nil =>
    obtain rfl := foldlM_nil_eq_ok.mp hloop
    exact ⟨R, h, nil R⟩
  | cons a rest ih =>
    obtain ⟨s₁, hfirst, hrest⟩ := foldlM_cons_eq_ok.mp hloop
    obtain ⟨R₁, h₁, hchanged₁⟩ := hturn s a s₁ R hfirst h
    obtain ⟨R', h', hchanged⟩ := ih hrest h₁
    exact ⟨R', h', hchanged₁.append hchanged⟩

end Changed

/-- A token of `a` goes to `b`. -/
def Handed (a b : AccAddress) (before after : Option Token) : Prop :=
  ∃ tok, before = some tok ∧ tok.owner = a ∧ after = some { tok with owner := b }

/-- A token of `a` is destroyed. -/
def Destroyed (a : AccAddress) (before after : Option Token) : Prop :=
  ∃ tok, before = some tok ∧ tok.owner = a ∧ after = none

/-- A voucher, without name and data, is created for `b`. -/
def Created (b : AccAddress) (before after : Option Token) : Prop :=
  before = none ∧ ∃ tok, after = some tok ∧ tok.owner = b ∧ tok.name = [] ∧ tok.data = []

instance (a b : AccAddress) : IsTrans (Option Token) (Handed a b) where
  trans := by
    rintro o _ _ ⟨tok, ho, howner, rfl⟩ ⟨tok₁, htok₁, -, rfl⟩
    obtain rfl := Option.some.inj htok₁
    exact ⟨tok, ho, howner, rfl⟩

instance (a : AccAddress) : IsTrans (Option Token) (Destroyed a) where
  trans := by
    rintro o _ _ ⟨-, -, -, rfl⟩ ⟨_, hsome, -⟩
    cases hsome

instance (b : AccAddress) : IsTrans (Option Token) (Created b) where
  trans := by
    rintro o _ _ ⟨-, tok, rfl, -⟩ ⟨hnone, -⟩
    cases hnone

/-! ### The loops over the tokens of a packet -/

/-- What a transfer does to a token that it sends. -/
def SentBy (source : ChannelEnd P) (away : Bool) (sender : AccAddress) :
    Option Token → Option Token → Prop :=
  if away then Handed sender (getEscrowAddress source) else Destroyed sender

instance (source : ChannelEnd P) (away : Bool) (sender : AccAddress) :
    IsTrans (Option Token) (SentBy source away sender) := by
  cases away with
  | true => exact inferInstanceAs (IsTrans _ (Handed sender (getEscrowAddress source)))
  | false => exact inferInstanceAs (IsTrans _ (Destroyed sender))

theorem sendTokens_changed {source : ChannelEnd P} {away : Bool} {sender : AccAddress}
    {tokenIDs : List Text} {sent sent' : Store × List Text} (h : Represents P.codec sent.1 R)
    (hloop : tokenIDs.foldlM (sendToken source d away sender) sent = .ok sent') :
    ∃ R', Represents P.codec sent'.1 R' ∧ Changed (SentBy source away sender) R R' d tokenIDs := by
  have hturn : ∀ sent t sent' R, sendToken source d away sender sent t = .ok sent' →
      Represents P.codec sent.1 R →
      ∃ R', Represents P.codec sent'.1 R' ∧ Changed (SentBy source away sender) R R' d [t] := by
    intro sent t sent' R hturn h
    unfold sendToken at hturn
    simp only [bind_eq_ok, pure_eq_ok, nftCall_eq_ok] at hturn
    obtain ⟨nft, -, owner, -, -, -, s, hok, rfl⟩ := hturn
    cases away with
    | true =>
      obtain ⟨tok, hclass, htok, howner, h'⟩ := h.transferOwner hok
      exact ⟨_, h', .put hclass ⟨tok, htok, howner, rfl⟩⟩
    | false =>
      obtain ⟨tok, htok, howner, h'⟩ := h.burnNFTUnverified hok
      exact ⟨_, h', .remove ⟨tok, htok, howner, rfl⟩⟩
  have hchanged := Changed.of_loop Prod.fst id hturn hloop h
  rwa [List.map_id] at hchanged

theorem unescrowTokens_changed {tokenIDs : List Text} {escrow receiver : AccAddress}
    {s s' : Store} (h : Represents P.codec s R)
    (hloop : unescrowTokens (P := P) s d tokenIDs escrow receiver = .ok s') :
    ∃ R', Represents P.codec s' R' ∧ Changed (Handed escrow receiver) R R' d tokenIDs := by
  have hturn : ∀ s t s' R, nftCall (Nft.transferOwner P.codec s d t escrow receiver) = .ok s' →
      Represents P.codec s R →
      ∃ R', Represents P.codec s' R' ∧ Changed (Handed escrow receiver) R R' d [t] := by
    intro s t s' R hok h
    obtain ⟨tok, hclass, htok, howner, h'⟩ := h.transferOwner (nftCall_eq_ok.mp hok)
    exact ⟨_, h', .put hclass ⟨tok, htok, howner, rfl⟩⟩
  have hchanged := Changed.of_loop id id hturn hloop h
  rwa [List.map_id] at hchanged

theorem mintTokens_changed {escrow receiver : AccAddress} {s s' : Store}
    (h : Represents P.codec s R) (hloop : mintTokens (P := P) s d data escrow receiver = .ok s') :
    ∃ R', Represents P.codec s' R' ∧ Changed (Created receiver) R R' d data.tokenIds := by
  have hturn : ∀ (s : Store) (token : Text × ℕ) (s' : Store) (R : Registry), (do
      let tokenURI ← expect data.tokenUris[token.2]? (Err.panic "index out of range")
      nftCall (Nft.mintNFT P.codec s d token.1 [] tokenURI [] escrow receiver)) = .ok s' →
      Represents P.codec s R →
      ∃ R', Represents P.codec s' R' ∧ Changed (Created receiver) R R' d [token.1] := by
    intro s token s' R hok h
    obtain ⟨uri, -, hmint⟩ := bind_eq_ok.mp hok
    obtain ⟨hnew, -, hclass, -, -, h'⟩ := h.mintNFT (nftCall_eq_ok.mp hmint)
    exact ⟨_, h', .put hclass ⟨hnew, _, rfl, rfl, rfl, rfl⟩⟩
  have hchanged := Changed.of_loop id Prod.fst hturn hloop h
  rwa [List.zipIdx_map_fst] at hchanged

/-! ### New classes -/

/-- At most the class `d` is new, and the tokens are the same. -/
structure Grown (R R' : Registry) (d : Text) : Prop where
  tokens : R'.tokens = R.tokens
  kept : ∀ d' c, R.classes d' = some c → R'.classes d' = some c
  others : ∀ d', d' ≠ d → R'.classes d' = R.classes d'

theorem issue_effect {s : Store} {d name schema uri : Text}
    {creator : AccAddress} (h : Holds P U st R) (hne : d ≠ [])
    (hok : Nft.issueDenom P.codec st.nft d name schema uri creator = .ok s) (hst' : st'.nft = s)
    (hinv : Inv P U st') (hclash : NoClash P st') :
    ∃ R', Represents P.codec s R' ∧ Grown R R' d := by
  have hissue : Nft.setDenom st.nft ((⟨name, schema, uri, creator⟩ : Nft.Class).denom P.codec d) =
      .ok s := hok
  obtain ⟨hid, hname, rfl⟩ := h.represents.setDenom_eq_ok.mp hissue
  have hclasses := h.represents.toRepresentsClasses.issue hne hid hname
  obtain ⟨D, hD, -⟩ := hinv
  have hfree := hD.unambiguous hclash
  have hafter := hD.represents
  rw [hst'] at hafter
  rw [hafter.directory_unique hclasses] at hfree
  refine ⟨_, h.represents.issue hne hid hname hfree, rfl, fun d' c hc ↦ ?_, fun d' hd' ↦ ?_⟩
  · have hne' : d' ≠ d := by
      rintro rfl
      rw [hid] at hc
      cases hc
    rw [Registry.toDirectory_issue, Nft.Directory.classes_issue, Function.update_of_ne hne', hc]
  · rw [Registry.toDirectory_issue, Nft.Directory.classes_issue, Function.update_of_ne hd']

theorem register_effect {e : ChannelEnd P} {classID uri : Text}
    (h : Holds P U st R) (hpath : getClassPrefix e ++ classID ∈ U)
    (hok : registerClass st e classID uri = .ok st') (hclash : NoClash P st') :
    ∃ R', Represents P.codec st'.nft R' ∧
      Grown R R' (voucherID P (getClassPrefix e ++ classID)) := by
  have hinv := h.inv.register hpath hok
  obtain ⟨st₁, hst₁, -, hissue⟩ := registerClass_eq_ok hok
  rcases hissue with ⟨-, rfl⟩ | ⟨s, hissue, rfl⟩
  · have hnft : st'.nft = st.nft := by rcases hst₁ with rfl | ⟨-, rfl⟩ <;> rfl
    exact ⟨R, hnft ▸ h.represents, rfl, (fun _ _ hc ↦ hc), fun _ _ ↦ rfl⟩
  · exact issue_effect h (voucherID_ne_nil _) hissue rfl hinv hclash

/-! ### Operations of one account -/

/-- What operations of the account `a` can do to tokens: those of others are not touched, and new
ones are in classes that `a` has created. -/
structure Private (a : AccAddress) (R R' : Registry) : Prop where
  kept : ∀ i tok, R.tokens i = some tok → tok.owner ≠ a → R'.tokens i = some tok
  created : ∀ i, R.tokens i = none → (R'.tokens i).isSome → ∃ c, R.classes i.1 = some c ∧
    c.creator = a

theorem Private.of_grown {R R' : Registry} (h : Grown R R' d) :
    Private a R R' := by
  refine ⟨fun i tok htok _ ↦ by rw [h.tokens, htok], fun i hnone hsome ↦ ?_⟩
  rw [h.tokens, hnone] at hsome
  cases hsome

theorem Private.of_changed {rel : Option Token → Option Token → Prop}
    {R R' : Registry} {ids : List Text} (h : Changed rel R R' d ids)
    (hrel : ∀ o o', rel o o' → ∃ tok, o = some tok ∧ tok.owner = a) : Private a R R' := by
  have hcases : ∀ i, R'.tokens i = R.tokens i ∨ ∃ tok, R.tokens i = some tok ∧ tok.owner = a := by
    rintro ⟨d', t⟩
    by_cases hin : d' = d ∧ t ∈ ids
    · obtain ⟨rfl, ht⟩ := hin
      exact Or.inr (hrel _ _ (h.inside t ht))
    · exact Or.inl (h.outside (d', t) fun hd ht ↦ hin ⟨hd, ht⟩)
  refine ⟨fun i tok htok howner ↦ ?_, fun i hnone hsome ↦ ?_⟩
  · rcases hcases i with heq | ⟨tok', htok', howner'⟩
    · rw [heq, htok]
    · obtain rfl := Option.mem_unique htok htok'
      exact absurd howner' howner
  · rcases hcases i with heq | ⟨tok', htok', -⟩
    · rw [heq, hnone] at hsome
      cases hsome
    · rw [hnone] at htok'
      cases htok'

theorem Act.effect (hact : Act P U a st st') (h : Holds P U st R) (hclash : NoClash P st') :
    ∃ R', Represents P.codec st'.nft R' ∧ Private a R R' := by
  have hinv := hact.inv h.inv
  cases hact with
  | issue hid hok =>
    obtain ⟨R', h', hgrown⟩ := issue_effect h (native_ne_nil hid) hok rfl hinv hclash
    exact ⟨R', h', .of_grown hgrown⟩
  | register _ hpath hok =>
    obtain ⟨R', h', hgrown⟩ := register_effect h hpath hok hclash
    exact ⟨R', h', .of_grown hgrown⟩
  | @mint s d t _ _ _ _ hvalid hok =>
    obtain ⟨hnew, c, hclass, hc, hcreator, h'⟩ := h.represents.mintNFT hok
    refine ⟨_, h', fun i tok htok _ ↦ ?_, fun i hnone hsome ↦ ?_⟩
    · have hne : i ≠ (d, t) := by
        rintro rfl
        rw [hnew] at htok
        cases htok
      rw [Registry.tokens_put, Function.update_of_ne hne, htok]
    · by_cases hi : i = (d, t)
      · exact hi ▸ ⟨c, hc, hcreator⟩
      · rw [Registry.tokens_put, Function.update_of_ne hi, hnone] at hsome
        cases hsome
  | @edit s d t _ _ _ _ hok =>
    obtain ⟨tok, tok', c, hclass, htok, howner, -, -, -, -, h'⟩ := h.represents.editNFT hok
    have hchanged : Changed (fun o _ ↦ ∃ tok, o = some tok ∧ tok.owner = a) R
        (R.put (d, t) tok' hclass) d [t] := .put hclass ⟨tok, htok, howner⟩
    exact ⟨_, h', .of_changed hchanged fun _ _ hrel ↦ hrel⟩
  | @transfer s d t b hok =>
    obtain ⟨tok, hclass, htok, howner, h'⟩ := h.represents.transferOwner hok
    have hchanged : Changed (Handed a b) R _ d [t] := .put hclass ⟨tok, htok, howner, rfl⟩
    exact ⟨_, h', .of_changed hchanged fun _ _ ⟨tok, ho, howner, _⟩ ↦ ⟨tok, ho, howner⟩⟩
  | @burn s d t hok =>
    obtain ⟨tok, htok, howner, h'⟩ := h.represents.burnNFTUnverified hok
    have hchanged : Changed (Destroyed a) R _ d [t] := .remove ⟨tok, htok, howner, rfl⟩
    exact ⟨_, h', .of_changed hchanged fun _ _ ⟨tok, ho, howner, _⟩ ↦ ⟨tok, ho, howner⟩⟩

/-! ### Transfers -/

/-- What a transfer of tokens of the class `d` by the account `a` does. -/
structure SendEffect (ibc : Channels P) (st : State) (packet : Packet P) (data : PacketData)
    (a : AccAddress) (d : Text) (R R' : Registry) : Prop where
  holds : packet.data = some data
  channel : ibc.getChannel packet.source = some packet.dest
  exists_class : (R.classes d).isSome
  path : fullClassPath st d = .ok data.classId
  change : Changed (SentBy packet.source (isAwayFromOrigin packet.source data.classId) a) R R' d
    data.tokenIds

theorem transfer_effect {ibc : Channels P} {msg : MsgTransfer}
    (h : Represents P.codec st.nft R) (hok : transfer ibc st msg = .ok (packet, st')) :
    ∃ (a : AccAddress) (data : PacketData) (R' : Registry), P.codec.fromBech32 msg.sender = some a ∧
      Represents P.codec st'.nft R' ∧ SendEffect ibc st packet data a msg.classId R R' := by
  unfold transfer sendTransfer createOutgoingPacket at hok
  simp only [bind_eq_ok, pure_eq_ok, nftCall_eq_ok, Nft.accAddressFromBech32, expect_eq_ok] at hok
  obtain ⟨-, -, a, ha, -, -, source, -, dest, hdest, sequence, -, sentPacket, hcreate, -, -, heq⟩ :=
    hok
  obtain ⟨denom, hdenom, path, hpath, sent, htokens, rfl⟩ := hcreate
  obtain ⟨rfl, rfl⟩ := Prod.mk.inj heq
  obtain ⟨R', h', hchanged⟩ := sendTokens_changed h htokens
  refine ⟨a, _, R', ha, h', ⟨rfl, hdest, ?_, hpath, hchanged⟩⟩
  rw [Nft.getDenom, expect_eq_ok, h.getElem?_denoms] at hdenom
  exact Option.isSome_map.symm.trans (Option.isSome_iff_exists.mpr ⟨denom, hdenom⟩)

/-! ### Received packets -/

/-- What a received packet does, by its acknowledgement. -/
inductive RecvEffect (packet : Packet P) (R : Registry) : Acknowledgement → Registry → Prop
  /-- It is rejected. -/
  | rejected (cause : Err) : RecvEffect packet R (.error cause) R
  /-- Its tokens are created as vouchers of a class that may be new. -/
  | minted {data : PacketData} {receiver : AccAddress} {R₁ R' : Registry}
      (hdata : packet.data = some data)
      (haway : isAwayFromOrigin packet.source data.classId = true)
      (hgrown : Grown R R₁ (voucherID P (getClassPrefix packet.dest ++ data.classId)))
      (hchanged : Changed (Created receiver) R₁ R'
        (voucherID P (getClassPrefix packet.dest ++ data.classId)) data.tokenIds) :
      RecvEffect packet R .result R'
  /-- Its tokens come back and are handed over by the escrow account. -/
  | released {data : PacketData} {receiver : AccAddress} {rest : Text} {R' : Registry}
      (hdata : packet.data = some data)
      (hpath : data.classId = getClassPrefix packet.source ++ rest)
      (hchanged : Changed (Handed (getEscrowAddress packet.dest) receiver) R R' (classOf P rest)
        data.tokenIds) :
      RecvEffect packet R .result R'

theorem processReceivedPacket_effect (h : Holds P U st R) (hdata : packet.data = some data)
    (hpath : getClassPrefix packet.dest ++ data.classId ∈ U) (hclash : NoClash P st')
    (hok : processReceivedPacket st packet data = .ok st') :
    ∃ R', Represents P.codec st'.nft R' ∧ RecvEffect packet R .result R' := by
  unfold processReceivedPacket at hok
  simp only [bind_eq_ok] at hok
  obtain ⟨receiver, -, hok⟩ := hok
  split_ifs at hok with haway
  · simp only [bind_eq_ok, pure_eq_ok] at hok
    obtain ⟨st₁, hregister, s, htokens, rfl⟩ := hok
    rw [← classOf, classOf_arrived] at htokens
    have hacts : Acts P U _ st₁ { st₁ with nft := s } := acts_of_mintTokens rfl htokens
    have hclash₁ : NoClash P st₁ := hclash.of_le fun _ hd ↦ Acts.hasDenomID hacts hd
    obtain ⟨R₁, h₁, hgrown⟩ := register_effect h hpath hregister hclash₁
    obtain ⟨R', h', hchanged⟩ := mintTokens_changed h₁ htokens
    exact ⟨R', h', .minted hdata haway hgrown hchanged⟩
  · simp only [bind_eq_ok, pure_eq_ok] at hok
    obtain ⟨s, htokens, rfl⟩ := hok
    rw [Bool.not_eq_true, isAwayFromOrigin_eq_false] at haway
    obtain ⟨rest, hrest⟩ := haway
    rw [hrest, removeClassPrefix_append, ← classOf] at htokens
    obtain ⟨R', h', hchanged⟩ := unescrowTokens_changed h.represents htokens
    exact ⟨R', h', .released hdata hrest hchanged⟩

theorem recv_effect (h : Holds P U st R)
    (hU : (Label.recv packet).arrivals ⊆ U) (hclash : NoClash P (recv st packet).1) :
    ∃ R', Represents P.codec (recv st packet).1.nft R' ∧
      RecvEffect packet R (recv st packet).2 R' := by
  unfold recv at hclash ⊢
  cases hdata : packet.data with
  | none => exact ⟨R, h.represents, .rejected _⟩
  | some data =>
    rw [hdata] at hclash
    dsimp only at hclash ⊢
    cases hok : onRecvPacket st packet data with
    | error cause => exact ⟨R, h.represents, .rejected _⟩
    | ok st' =>
      rw [hok] at hclash
      obtain ⟨-, -, hprocess⟩ := bind_eq_ok.mp hok
      exact processReceivedPacket_effect h hdata (hU ⟨data, hdata, rfl⟩) hclash hprocess

/-! ### Refunds -/

inductive RefundEffect (packet : Packet P) (data : PacketData) (R : Registry) : Registry → Prop
  /-- The tokens were escrowed and are handed back. -/
  | returned {sender : AccAddress} {R' : Registry}
      (haway : isAwayFromOrigin packet.source data.classId = true)
      (hchanged : Changed (Handed (getEscrowAddress packet.source) sender) R R'
        (classOf P data.classId) data.tokenIds) :
      RefundEffect packet data R R'
  /-- The vouchers were burned and are created again. -/
  | minted {sender : AccAddress} {rest : Text} {R' : Registry}
      (hpath : data.classId = getClassPrefix packet.source ++ rest)
      (hchanged : Changed (Created sender) R R' (voucherID P data.classId) data.tokenIds) :
      RefundEffect packet data R R'

theorem refund_effect
    (h : Represents P.codec st.nft R) (hok : refundPacketToken st packet data = .ok st') :
    ∃ R', Represents P.codec st'.nft R' ∧ RefundEffect packet data R R' := by
  unfold refundPacketToken at hok
  simp only [bind_eq_ok, pure_eq_ok] at hok
  obtain ⟨sender, -, s, htokens, rfl⟩ := hok
  split_ifs at htokens with haway
  · rw [← classOf] at htokens
    obtain ⟨R', h', hchanged⟩ := unescrowTokens_changed h htokens
    exact ⟨R', h', .returned haway hchanged⟩
  · rw [Bool.not_eq_true, isAwayFromOrigin_eq_false] at haway
    obtain ⟨rest, hpath⟩ := haway
    rw [← classOf] at htokens
    obtain ⟨R', h', hchanged⟩ := mintTokens_changed h htokens
    rw [hpath, classOf_arrived, ← hpath] at hchanged
    exact ⟨R', h', .minted hpath hchanged⟩

end ChainMain.NftTransfer
