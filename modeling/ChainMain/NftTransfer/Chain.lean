import ChainMain.Foundations.Runs
import ChainMain.NftTransfer.Paths

/-!
# One chain

What can happen to the two modules on one chain, one step at a time: a message of `x/nft` or a
transfer is delivered, a packet is received, and an acknowledgement or a timeout of a packet comes
in. Received packets hold what the other chain has put into them. A step that fails changes nothing.

Every step is a sequence of operations of the keeper of `x/nft`, all on behalf of one account: the
signer of the message, or the escrow account of the channel end (`Act`, `step_acts`). An invariant
has to be checked for these operations only (`Reaches.invariant`). The set `U` holds the class paths
that are hashed when classes arrive; assumptions about SHA-256 are made for such a set.
-/

set_option autoImplicit false

namespace ChainMain.NftTransfer

open Foundations Texts Outcomes Runs
open Nft (AccAddress validateDenomID validateTokenID validateTokenURI)

variable {P : Platform} {U : Set Text}
variable {packet : Packet P} {data : PacketData} {st st' : State} {classID : Text}

inductive Label (P : Platform)
  | deliver (msg : Nft.Msg)
  | transfer (ibc : Channels P) (msg : MsgTransfer)
  | recv (packet : Packet P)
  | acknowledge (packet : Packet P) (ack : Option Acknowledgement)
  | timeout (packet : Packet P)

def step (st : State) : Label P → State
  | .deliver msg => { st with nft := commit st.nft (msg.run P.codec st.nft) }
  | .transfer ibc msg => commit st ((transfer ibc st msg).map Prod.snd)
  | .recv packet => (recv st packet).1
  | .acknowledge packet ack => commit st (acknowledge st packet ack)
  | .timeout packet => commit st (timeout st packet)

/-- The steps of the chain as a relation. -/
def ChainStep (P : Platform) (st : State) (label : Label P) (st' : State) : Prop :=
  step st label = st'

/-- The chain starts with an empty NFT store and the default genesis of `x/nft-transfer`. -/
def State.start (P : Platform) : State := initGenesis P .empty .default

/-- The class paths a step hashes to register a class. -/
def Label.arrivals : Label P → Set Text
  | .recv packet => {path | ∃ data ∈ packet.data, path = getClassPrefix packet.dest ++ data.classId}
  | _ => ∅

/-- The states a chain gets to, with the history that leads to them. -/
def Reaches (P : Platform) (τ : List (Transition State (Label P))) (st : State) : Prop :=
  Run (ChainStep P) (State.start P) τ st

def Reachable (P : Platform) (st : State) : Prop := ∃ τ, Reaches P τ st

theorem run_of_labels (st : State) (labels : List (Label P)) :
    ∃ τ, Run (ChainStep P) st τ (labels.foldl step st) ∧ τ.map Transition.label = labels := by
  induction labels generalizing st with
  | nil => exact ⟨[], .nil, rfl⟩
  | cons label rest ih =>
    obtain ⟨τ, hrun, hlabels⟩ := ih (step st label)
    exact ⟨_, Run.cons rfl hrun, by rw [List.map_cons, hlabels]⟩

/-! ### What a step is made of -/

/-- An operation of the keeper of `x/nft`, on behalf of the account `a`. -/
inductive Act (P : Platform) (U : Set Text) (a : AccAddress) : State → State → Prop
  /-- A native class is issued. -/
  | issue {st : State} {s : Nft.Store} {id name schema uri : Text}
      (hid : validateDenomID id = .ok ())
      (hok : Nft.issueDenom P.codec st.nft id name schema uri a = .ok s) :
      Act P U a st { st with nft := s }
  /-- The class of a path that arrives at a channel end is registered for its escrow account. -/
  | register {st st' : State} {e : ChannelEnd P} {classID uri : Text} (ha : getEscrowAddress e = a)
      (hpath : getClassPrefix e ++ classID ∈ U)
      (hok : registerClass st e classID uri = .ok st') : Act P U a st st'
  /-- A token is minted, in a native class with an id and a URI that have been checked. -/
  | mint {st : State} {s : Nft.Store} {d t name uri data : Text} {owner : AccAddress}
      (hvalid : validateDenomID d = .ok () →
        validateTokenID t = .ok () ∧ validateTokenURI uri = .ok ())
      (hok : Nft.mintNFT P.codec st.nft d t name uri data a owner = .ok s) :
      Act P U a st { st with nft := s }
  /-- A token is edited, with a URI that has been checked. -/
  | edit {st : State} {s : Nft.Store} {d t name uri data : Text}
      (huri : validateTokenURI uri = .ok ())
      (hok : Nft.editNFT P.codec st.nft d t name uri data a = .ok s) :
      Act P U a st { st with nft := s }
  /-- A token is handed over. -/
  | transfer {st : State} {s : Nft.Store} {d t : Text} {b : AccAddress}
      (hok : Nft.transferOwner P.codec st.nft d t a b = .ok s) : Act P U a st { st with nft := s }
  /-- A token is burned. -/
  | burn {st : State} {s : Nft.Store} {d t : Text}
      (hok : Nft.burnNFTUnverified P.codec st.nft d t a = .ok s) : Act P U a st { st with nft := s }

/-- A sequence of operations on behalf of one account. -/
abbrev Acts (P : Platform) (U : Set Text) (a : AccAddress) : State → State → Prop :=
  Relation.ReflTransGen (Act P U a)

/-! ### The messages of `x/nft` -/

/-- A burn that checks the creator does the same as one that does not. -/
theorem burnNFTUnverified_of_burnNFT {C : Nft.AddressCodec} {s s' : Nft.Store} {d t : Text}
    {a : AccAddress} (h : Nft.burnNFT C s d t a = .ok s') :
    Nft.burnNFTUnverified C s d t a = .ok s' := by
  unfold Nft.burnNFT at h
  unfold Nft.burnNFTUnverified
  simp only [bind_eq_ok, ensure_eq_ok, pure_eq_ok] at h ⊢
  obtain ⟨u, hdenom, nft, howner, -, -, hs⟩ := h
  exact ⟨u, hdenom, nft, howner, hs⟩

theorem act_of_msg {msg : Nft.Msg} {s : Nft.Store} (h : msg.run P.codec st.nft = .ok s) :
    ∃ a, P.codec.fromBech32 msg.sender = some a ∧ Act P U a st { st with nft := s } := by
  unfold Nft.Msg.run at h
  cases msg with
  | issueDenom id name schema sender uri =>
    simp only [Nft.Msg.validateBasic, Nft.Msg.handle, Nft.accAddressFromBech32, bind_eq_ok,
      expect_eq_ok] at h
    obtain ⟨-, ⟨_, hid, -⟩, a, ha, hok⟩ := h
    exact ⟨a, ha, .issue hid hok⟩
  | mintNFT id denomId name uri data sender recipient =>
    simp only [Nft.Msg.validateBasic, Nft.Msg.handle, Nft.accAddressFromBech32, bind_eq_ok,
      expect_eq_ok] at h
    obtain ⟨_, ⟨-, -, -, -, -, -, _, huri, hid⟩, b, -, a, ha, hok⟩ := h
    exact ⟨a, ha, .mint (fun _ ↦ ⟨hid, huri⟩) hok⟩
  | editNFT id denomId name uri data sender =>
    simp only [Nft.Msg.validateBasic, Nft.Msg.handle, Nft.accAddressFromBech32, bind_eq_ok,
      expect_eq_ok] at h
    obtain ⟨-, ⟨-, -, -, -, _, huri, -⟩, a, ha, hok⟩ := h
    exact ⟨a, ha, .edit huri hok⟩
  | transferNFT id denomId sender recipient =>
    simp only [Nft.Msg.validateBasic, Nft.Msg.handle, Nft.accAddressFromBech32, bind_eq_ok,
      expect_eq_ok] at h
    obtain ⟨-, -, a, ha, b, -, hok⟩ := h
    exact ⟨a, ha, .transfer hok⟩
  | burnNFT id denomId sender =>
    simp only [Nft.Msg.validateBasic, Nft.Msg.handle, Nft.accAddressFromBech32, bind_eq_ok,
      expect_eq_ok] at h
    obtain ⟨-, -, a, ha, hok⟩ := h
    exact ⟨a, ha, .burn (burnNFTUnverified_of_burnNFT hok)⟩

/-! ### Packets -/

theorem act_of_sendToken {source : ChannelEnd P} {classID tokenID : Text} {away : Bool}
    {sender : AccAddress} {sent sent' : Nft.Store × List Text} (hst : st.nft = sent.1)
    (h : sendToken source classID away sender sent tokenID = .ok sent') :
    Act P U sender st { st with nft := sent'.1 } := by
  unfold sendToken at h
  simp only [bind_eq_ok, pure_eq_ok, nftCall_eq_ok] at h
  obtain ⟨nft, -, owner, -, -, -, s, hok, rfl⟩ := h
  rw [← hst] at hok
  cases away with
  | true => exact .transfer hok
  | false => exact .burn hok

theorem acts_of_sendTokens {source : ChannelEnd P} {away : Bool} {sender : AccAddress}
    {tokenIDs : List Text} {sent sent' : Nft.Store × List Text} (hst : st.nft = sent.1)
    (h : tokenIDs.foldlM (sendToken source classID away sender) sent = .ok sent') :
    Acts P U sender st { st with nft := sent'.1 } := by
  induction tokenIDs generalizing st sent with
  | nil =>
    obtain rfl := foldlM_nil_eq_ok.mp h
    rw [← hst]
  | cons tokenID rest ih =>
    obtain ⟨sent₁, hfirst, hrest⟩ := foldlM_cons_eq_ok.mp h
    have htail : Acts P U sender { st with nft := sent₁.1 } { st with nft := sent'.1 } :=
      ih rfl hrest
    exact .head (act_of_sendToken hst hfirst) htail

theorem acts_of_sendTransfer {ibc : Channels P}
    {sourcePort sourceChannel classID receiver : Text} {tokenIDs : List Text} {a : AccAddress}
    {height : Height} {timestamp : ℕ}
    (h : sendTransfer ibc st sourcePort sourceChannel classID tokenIDs a receiver height timestamp =
      .ok (packet, st')) : Acts P U a st st' := by
  unfold sendTransfer createOutgoingPacket at h
  simp only [bind_eq_ok, pure_eq_ok, nftCall_eq_ok] at h
  obtain ⟨-, -, source, -, dest, -, sequence, -, sentPacket, hcreate, -, -, heq⟩ := h
  obtain ⟨denom, -, path, -, sent, htokens, rfl⟩ := hcreate
  obtain ⟨-, rfl⟩ := Prod.mk.inj heq
  exact acts_of_sendTokens rfl htokens

theorem acts_of_transfer {ibc : Channels P} {msg : MsgTransfer}
    (h : transfer ibc st msg = .ok (packet, st')) :
    ∃ a, P.codec.fromBech32 msg.sender = some a ∧ Acts P U a st st' := by
  unfold transfer at h
  simp only [bind_eq_ok, nftCall_eq_ok, Nft.accAddressFromBech32, expect_eq_ok] at h
  obtain ⟨-, -, a, ha, hsend⟩ := h
  exact ⟨a, ha, acts_of_sendTransfer hsend⟩

theorem acts_of_unescrowTokens {tokenIDs : List Text}
    {escrow receiver : AccAddress} {s s' : Nft.Store} (hst : st.nft = s)
    (h : unescrowTokens (P := P) s classID tokenIDs escrow receiver = .ok s') :
    Acts P U escrow st { st with nft := s' } := by
  unfold unescrowTokens at h
  induction tokenIDs generalizing st s with
  | nil =>
    obtain rfl := foldlM_nil_eq_ok.mp h
    rw [← hst]
  | cons tokenID rest ih =>
    obtain ⟨s₁, hfirst, hrest⟩ := foldlM_cons_eq_ok.mp h
    rw [nftCall_eq_ok, ← hst] at hfirst
    have htail : Acts P U escrow { st with nft := s₁ } { st with nft := s' } := ih rfl hrest
    exact .head (.transfer hfirst) htail

theorem acts_of_mintTokens {path : Text}
    {escrow receiver : AccAddress} {s s' : Nft.Store} (hst : st.nft = s)
    (h : mintTokens (P := P) s (voucherID P path) data escrow receiver = .ok s') :
    Acts P U escrow st { st with nft := s' } := by
  unfold mintTokens at h
  generalize data.tokenIds.zipIdx = tokens at h
  induction tokens generalizing st s with
  | nil =>
    obtain rfl := foldlM_nil_eq_ok.mp h
    rw [← hst]
  | cons token rest ih =>
    obtain ⟨s₁, hfirst, hrest⟩ := foldlM_cons_eq_ok.mp h
    obtain ⟨uri, -, hmint⟩ := bind_eq_ok.mp hfirst
    rw [nftCall_eq_ok, ← hst] at hmint
    have hact : Act P U escrow st { st with nft := s₁ } :=
      .mint (fun hnative ↦ absurd hnative (not_native_voucherID path)) hmint
    have htail : Acts P U escrow { st with nft := s₁ } { st with nft := s' } := ih rfl hrest
    exact .head hact htail

/-- A refund acts for the escrow account of the end the packet was sent from. -/
theorem acts_of_refund (h : refundPacketToken st packet data = .ok st') :
    Acts P U (getEscrowAddress packet.source) st st' := by
  unfold refundPacketToken at h
  simp only [bind_eq_ok, pure_eq_ok] at h
  obtain ⟨sender, -, s, htokens, rfl⟩ := h
  split_ifs at htokens with haway
  · exact acts_of_unescrowTokens rfl htokens
  · rw [Bool.not_eq_true, isAwayFromOrigin_eq_false] at haway
    obtain ⟨rest, hpath⟩ := haway
    rw [hpath, ← classOf, classOf_arrived] at htokens
    exact acts_of_mintTokens rfl htokens

/-- A received packet acts for the escrow account of the end it arrives at. -/
theorem acts_of_processReceivedPacket (hpath : getClassPrefix packet.dest ++ data.classId ∈ U)
    (h : processReceivedPacket st packet data = .ok st') :
    Acts P U (getEscrowAddress packet.dest) st st' := by
  unfold processReceivedPacket at h
  simp only [bind_eq_ok] at h
  obtain ⟨receiver, -, h⟩ := h
  split_ifs at h with haway
  · simp only [bind_eq_ok, pure_eq_ok] at h
    obtain ⟨st₁, hregister, s, htokens, rfl⟩ := h
    rw [← classOf, classOf_arrived] at htokens
    exact .head (.register rfl hpath hregister) (acts_of_mintTokens rfl htokens)
  · simp only [bind_eq_ok, pure_eq_ok] at h
    obtain ⟨s, htokens, rfl⟩ := h
    exact acts_of_unescrowTokens rfl htokens

theorem acts_of_recv (st : State) (hU : (Label.recv packet).arrivals ⊆ U) :
    Acts P U (getEscrowAddress packet.dest) st (recv st packet).1 := by
  unfold recv
  cases hdata : packet.data with
  | none => exact .refl
  | some data =>
    dsimp only
    cases hok : onRecvPacket st packet data with
    | error e => exact .refl
    | ok st' =>
      obtain ⟨-, -, hprocess⟩ := bind_eq_ok.mp hok
      exact acts_of_processReceivedPacket (hU ⟨data, hdata, rfl⟩) hprocess

theorem acts_of_acknowledge {ack : Option Acknowledgement}
    (h : acknowledge st packet ack = .ok st') :
    Acts P U (getEscrowAddress packet.source) st st' := by
  obtain ⟨ack, -, h⟩ := bind_eq_ok.mp h
  obtain ⟨data, -, h⟩ := bind_eq_ok.mp h
  cases ack with
  | result => exact Except.ok.inj h ▸ .refl
  | error cause => exact acts_of_refund h

theorem acts_of_timeout (h : timeout st packet = .ok st') :
    Acts P U (getEscrowAddress packet.source) st st' := by
  obtain ⟨data, -, h⟩ := bind_eq_ok.mp h
  exact acts_of_refund h

/-- Every step of the chain is a sequence of operations on behalf of one account. -/
theorem step_acts (st : State) {label : Label P} (hU : label.arrivals ⊆ U) :
    ∃ a, Acts P U a st (step st label) := by
  cases label with
  | deliver msg =>
    cases hok : msg.run P.codec st.nft with
    | error e =>
      rw [step, hok]
      exact ⟨default, .refl⟩
    | ok s =>
      obtain ⟨a, -, hact⟩ := act_of_msg hok
      rw [step, hok]
      exact ⟨a, .single hact⟩
  | transfer ibc msg =>
    cases hok : transfer ibc st msg with
    | error e =>
      rw [step, hok]
      exact ⟨default, .refl⟩
    | ok sent =>
      obtain ⟨a, -, hacts⟩ := acts_of_transfer hok
      rw [step, hok]
      exact ⟨a, hacts⟩
  | recv packet => exact ⟨_, acts_of_recv st hU⟩
  | acknowledge packet ack =>
    exact ⟨_, commit_induction .refl fun _ hok ↦ acts_of_acknowledge hok⟩
  | timeout packet => exact ⟨_, commit_induction .refl fun _ hok ↦ acts_of_timeout hok⟩

/-- What every operation keeps holds in every state the chain gets to. -/
theorem Reaches.invariant {Inv : State → Prop} {τ : List (Transition State (Label P))}
    (h : Reaches P τ st) (hU : ∀ t ∈ τ, t.label.arrivals ⊆ U) (hstart : Inv (State.start P))
    (hact : ∀ a st st', Act P U a st st' → Inv st → Inv st') : Inv st := by
  refine (h.restrict (P := fun _ label _ ↦ label.arrivals ⊆ U) hU).invariant hstart ?_
  rintro st label _ hinv ⟨rfl, harrivals⟩
  obtain ⟨a, hacts⟩ := step_acts st harrivals
  generalize step st label = st' at hacts ⊢
  induction hacts with
  | refl => exact hinv
  | tail _ hlast ih => exact hact a _ _ hlast ih

end ChainMain.NftTransfer
