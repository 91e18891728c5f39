import ChainMain.NftTransfer.ChannelIsolation

/-!
# A network of chains

Any number of chains that run the module, connected by channels, and the packets between them. Every
channel end has one other end (`Topology`). A packet is in flight from the transfer on; IBC core
delivers it at most once, keeps the acknowledgement, and resolves it at the sender by the
acknowledgement, or by a timeout if it was never delivered (`Flight`, `Network.step`). The events
come in any order. A call that fails changes nothing; a refund that fails can be tried again.

Accounts sign messages and transfers; escrow accounts do not (`Event.Signed`).

Where a token stands with respect to a channel that it can leave its chain over (`Strand`): it can
be represented by a voucher on the other chain, or by a packet on its way out or back (`Holder`,
`HeldBy`).
-/

set_option autoImplicit false

namespace ChainMain.NftTransfer

open Foundations Texts Outcomes Runs
open Nft (AccAddress hasDenomID hasNFT keyNFT)

variable {P : Platform} {ι : Type}

/-! ### The network -/

structure Topology (P : Platform) (ι : Type) where
  peer : ι → ChannelEnd P → Option (ι × ChannelEnd P)
  symm : ∀ {i j : ι} {e e' : ChannelEnd P}, peer i e = some (j, e') → peer j e' = some (i, e)

inductive Status
  /-- It has not been delivered. -/
  | sent
  /-- It has been delivered and answered. -/
  | answered (ack : Acknowledgement)
  /-- The sender knows how it has ended. -/
  | resolved

/-- A packet with the chains it goes between. -/
structure Flight (P : Platform) (ι : Type) where
  source : ι
  dest : ι
  packet : Packet P
  status : Status

/-- The chains, and all packets that have been sent. -/
structure Network (P : Platform) (ι : Type) where
  chains : ι → State
  flights : List (Flight P ι)

inductive Event (P : Platform) (ι : Type)
  | deliver (i : ι) (msg : Nft.Msg)
  | send (i : ι) (ibc : Channels P) (msg : MsgTransfer)
  | recv (n : ℕ)
  | acknowledge (n : ℕ)
  | timeout (n : ℕ)

def Topology.channels (T : Topology P ι) (i : ι) (ibc : Channels P) : Channels P :=
  { ibc with getChannel := fun e ↦ (T.peer i e).map Prod.snd }

/-- The account is not the escrow account of a channel end of the chain. -/
def Topology.Free (T : Topology P ι) (i : ι) (a : AccAddress) : Prop :=
  ∀ e, (T.peer i e).isSome → a ≠ getEscrowAddress e

/-- What is signed is not signed for an escrow account. -/
def Event.Signed (T : Topology P ι) : Event P ι → Prop
  | .deliver i msg => ∀ a, P.codec.fromBech32 msg.sender = some a → T.Free i a
  | .send i _ msg => ∀ a, P.codec.fromBech32 msg.sender = some a → T.Free i a
  | _ => True

namespace Network

/-- The chains at their start, without packets. -/
def start (P : Platform) (ι : Type) : Network P ι := ⟨fun _ ↦ State.start P, []⟩

variable [DecidableEq ι]

def setChain (N : Network P ι) (i : ι) (st : State) : Network P ι :=
  { N with chains := Function.update N.chains i st }

def launch (N : Network P ι) (i j : ι) (packet : Packet P) (st : State) : Network P ι :=
  { N.setChain i st with flights := N.flights ++ [⟨i, j, packet, .sent⟩] }

/-- A chain moves on, and with it the status of a packet. -/
def settle (N : Network P ι) (n : ℕ) (f : Flight P ι) (status : Status) (i : ι) (st : State) :
    Network P ι :=
  { N.setChain i st with flights := N.flights.set n { f with status } }

def step (T : Topology P ι) (N : Network P ι) : Event P ι → Network P ι
  | .deliver i msg => N.setChain i (NftTransfer.step (N.chains i) (.deliver (P := P) msg))
  | .send i ibc msg =>
    match transfer (T.channels i ibc) (N.chains i) msg with
    | .error _ => N
    | .ok (packet, st) =>
      match T.peer i packet.source with
      | none => N
      | some (j, _) => N.launch i j packet st
  | .recv n =>
    match N.flights[n]? with
    | none => N
    | some f =>
      match f.status with
      | .sent =>
        let (st, ack) := NftTransfer.recv (N.chains f.dest) f.packet
        N.settle n f (.answered ack) f.dest st
      | _ => N
  | .acknowledge n =>
    match N.flights[n]? with
    | none => N
    | some f =>
      match f.status with
      | .answered ack =>
        match NftTransfer.acknowledge (N.chains f.source) f.packet (some ack) with
        | .ok st => N.settle n f .resolved f.source st
        | .error _ => N
      | _ => N
  | .timeout n =>
    match N.flights[n]? with
    | none => N
    | some f =>
      match f.status with
      | .sent =>
        match NftTransfer.timeout (N.chains f.source) f.packet with
        | .ok st => N.settle n f .resolved f.source st
        | .error _ => N
      | _ => N

/-- The steps of the network as a relation. -/
def Step (T : Topology P ι) (N : Network P ι) (event : Event P ι) (N' : Network P ι) : Prop :=
  event.Signed T ∧ N.step T event = N'

/-- The networks that are reached from the start. -/
def Reachable (T : Topology P ι) (N : Network P ι) : Prop :=
  ∃ τ, Run (Step T) (start P ι) τ N

end Network

/-! ### Where a token stands -/

/-- The packet is neither received nor refunded. -/
def Flight.Open (f : Flight P ι) : Prop :=
  f.status = .sent ∨ ∃ cause, f.status = .answered (.error cause)

/-- The packet is open and carries a token between two channel ends. -/
def Flight.Carries (f : Flight P ι) (src dst : ι × ChannelEnd P) (path token : Text) : Prop :=
  f.Open ∧ (f.source, f.packet.source) = src ∧ (f.dest, f.packet.dest) = dst ∧
    ∃ data, f.packet.data = some data ∧ data.classId = path ∧ token ∈ data.tokenIds

instance (f : Flight P ι) : Decidable f.Open :=
  match h : f.status with
  | .sent => isTrue (Or.inl h)
  | .answered (.error cause) => isTrue (Or.inr ⟨cause, h⟩)
  | .answered .result => isFalse (by simp [Flight.Open, h])
  | .resolved => isFalse (by simp [Flight.Open, h])

instance [DecidableEq ι] (f : Flight P ι) (src dst : ι × ChannelEnd P) (path token : Text) :
    Decidable (f.Carries src dst path token) :=
  inferInstanceAs (Decidable (f.Open ∧ (f.source, f.packet.source) = src ∧
    (f.dest, f.packet.dest) = dst ∧
      ∃ data ∈ f.packet.data, data.classId = path ∧ token ∈ data.tokenIds))

/-- A token of the class with a path on its home chain, and a channel to another chain. -/
structure Strand (P : Platform) (ι : Type) where
  home : ι × ChannelEnd P
  away : ι × ChannelEnd P
  path : Text
  token : Text

/-- The id of the class of vouchers on the other chain. -/
def Strand.voucher (k : Strand P ι) : Text := voucherID P (getClassPrefix k.away.2 ++ k.path)

/-- The ends are those of a channel, the token is away from its origin on it, and the paths are
among those under consideration. -/
structure Strand.Proper (T : Topology P ι) (U : Set Text) (k : Strand P ι) : Prop where
  linked : T.peer k.home.1 k.home.2 = some k.away
  outward : isAwayFromOrigin k.home.2 k.path = true
  path_mem : k.path ∈ U
  voucher_mem : getClassPrefix k.away.2 ++ k.path ∈ U

/-- What can represent the token away from home. -/
inductive Holder
  | voucher
  | outgoing (n : ℕ)
  | returning (n : ℕ)

/-- The token is represented by a voucher, or by the packet with a number, where `present` says
which NFTs exist. -/
def HeldBy (present : ι → Text → Text → Prop) (flights : List (Flight P ι)) (k : Strand P ι) :
    Holder → Prop
  | .voucher => present k.away.1 k.voucher k.token
  | .outgoing n => ∃ f, flights[n]? = some f ∧ f.Carries k.home k.away k.path k.token
  | .returning n => ∃ f, flights[n]? = some f ∧
      f.Carries k.away k.home (getClassPrefix k.away.2 ++ k.path) k.token

instance [DecidableEq ι] (present : ι → Text → Text → Prop) [∀ i d t, Decidable (present i d t)]
    (flights : List (Flight P ι)) (k : Strand P ι) : ∀ x, Decidable (HeldBy present flights k x)
  | .voucher => inferInstanceAs (Decidable (present k.away.1 k.voucher k.token))
  | .outgoing n => inferInstanceAs (Decidable (∃ f ∈ flights[n]?,
      f.Carries k.home k.away k.path k.token))
  | .returning n => inferInstanceAs (Decidable (∃ f ∈ flights[n]?,
      f.Carries k.away k.home (getClassPrefix k.away.2 ++ k.path) k.token))

namespace Network

/-- What represents the token in the network. -/
def HeldBy (N : Network P ι) : Strand P ι → Holder → Prop :=
  NftTransfer.HeldBy (fun i ↦ Exists (N.chains i)) N.flights

instance [DecidableEq ι] (N : Network P ι) (k : Strand P ι) (x : Holder) :
    Decidable (N.HeldBy k x) :=
  inferInstanceAs (Decidable (NftTransfer.HeldBy (fun i ↦ Exists (N.chains i)) N.flights k x))

/-- The token exists on its home chain and is owned by the escrow account of the channel end. -/
def Locked (N : Network P ι) (k : Strand P ι) : Prop :=
  hasDenomID (N.chains k.home.1).nft (classOf P k.path) = true ∧
    ∃ nft, (N.chains k.home.1).nft.nfts[keyNFT (classOf P k.path) k.token]? = some nft ∧
      nft.owner = P.codec.string (getEscrowAddress k.home.2)

/-- The class paths that the packets are about. -/
def used (N : Network P ι) : Set Text :=
  {path | ∃ f ∈ N.flights, ∃ data ∈ f.packet.data, path = data.classId ∨
    path = getClassPrefix f.packet.dest ++ data.classId ∨
    data.classId = getClassPrefix f.packet.source ++ path}

end Network

/-! ### The steps that change something -/

/-- The steps of the network that change something, with what was checked for them. -/
inductive Move [DecidableEq ι] (T : Topology P ι) (N : Network P ι) : Network P ι → Prop
  /-- Nothing happens. -/
  | idle : Move T N N
  /-- A message is delivered. -/
  | deliver {i : ι} {msg : Nft.Msg} {s : Nft.Store}
      (hfree : ∀ a, P.codec.fromBech32 msg.sender = some a → T.Free i a)
      (hok : msg.run P.codec (N.chains i).nft = .ok s) :
      Move T N (N.setChain i { N.chains i with nft := s })
  /-- A packet is sent. -/
  | send {i j : ι} {ibc : Channels P} {msg : MsgTransfer} {packet : Packet P} {st : State}
      (hfree : ∀ a, P.codec.fromBech32 msg.sender = some a → T.Free i a)
      (hok : transfer (T.channels i ibc) (N.chains i) msg = .ok (packet, st))
      (hpeer : T.peer i packet.source = some (j, packet.dest)) :
      Move T N (N.launch i j packet st)
  /-- A packet is received. -/
  | recv {n : ℕ} {f : Flight P ι} (hf : N.flights[n]? = some f) (hsent : f.status = .sent) :
      Move T N (N.settle n f (.answered (recv (N.chains f.dest) f.packet).2) f.dest
        (recv (N.chains f.dest) f.packet).1)
  /-- The sender of a packet learns that it was received. -/
  | succeed {n : ℕ} {f : Flight P ι} (hf : N.flights[n]? = some f)
      (hstatus : f.status = .answered .result) :
      Move T N (N.settle n f .resolved f.source (N.chains f.source))
  /-- A packet that was not received, or not accepted, is refunded. -/
  | refund {n : ℕ} {f : Flight P ι} {data : PacketData} {st : State} (hf : N.flights[n]? = some f)
      (hopen : f.Open) (hdata : f.packet.data = some data)
      (hok : refundPacketToken (N.chains f.source) f.packet data = .ok st) :
      Move T N (N.settle n f .resolved f.source st)

section Steps

variable [DecidableEq ι] {T : Topology P ι} {N : Network P ι}

@[simp] theorem chains_setChain (N : Network P ι) (i : ι) (st : State) :
    (N.setChain i st).chains = Function.update N.chains i st := rfl

theorem setChain_self (N : Network P ι) (i : ι) : N.setChain i (N.chains i) = N := by
  rw [Network.setChain, Function.update_eq_self]

theorem channel_of_transfer {ibc : Channels P} {st st' : State} {msg : MsgTransfer}
    {packet : Packet P} (hok : transfer ibc st msg = .ok (packet, st')) :
    ibc.getChannel packet.source = some packet.dest := by
  unfold transfer sendTransfer createOutgoingPacket at hok
  simp only [bind_eq_ok, pure_eq_ok, expect_eq_ok] at hok
  obtain ⟨-, -, a, -, -, -, source, -, dest, hdest, sequence, -, sentPacket, hcreate, -, -, heq⟩ :=
    hok
  obtain ⟨denom, -, path, -, sent, -, rfl⟩ := hcreate
  obtain ⟨rfl, -⟩ := Prod.mk.inj heq
  exact hdest

theorem move_of_step {event : Event P ι} (hsigned : event.Signed T) :
    Move T N (N.step T event) := by
  cases event with
  | deliver i msg =>
    cases hok : msg.run P.codec (N.chains i).nft with
    | error e =>
      have hsame : N.step T (.deliver i msg) = N := by
        rw [Network.step, step, hok]
        exact setChain_self N i
      rw [hsame]
      exact .idle
    | ok s =>
      have hstep : N.step T (.deliver i msg) = N.setChain i { N.chains i with nft := s } := by
        rw [Network.step, step, hok]
        rfl
      rw [hstep]
      exact .deliver hsigned hok
  | send i ibc msg =>
    rw [Network.step]
    cases hok : transfer (T.channels i ibc) (N.chains i) msg with
    | error e => exact .idle
    | ok sent =>
      obtain ⟨packet, st⟩ := sent
      dsimp only
      obtain ⟨⟨j, e⟩, hpeer, rfl⟩ := Option.map_eq_some_iff.mp (channel_of_transfer hok)
      rw [hpeer]
      exact .send hsigned hok hpeer
  | recv n =>
    rw [Network.step]
    cases hf : N.flights[n]? with
    | none => exact .idle
    | some f =>
      dsimp only
      cases hstatus : f.status with
      | sent => exact .recv hf hstatus
      | answered ack => exact .idle
      | resolved => exact .idle
  | acknowledge n =>
    rw [Network.step]
    cases hf : N.flights[n]? with
    | none => exact .idle
    | some f =>
      dsimp only
      cases hstatus : f.status with
      | sent => exact .idle
      | resolved => exact .idle
      | answered ack =>
        dsimp only
        cases hok : acknowledge (N.chains f.source) f.packet (some ack) with
        | error e => exact .idle
        | ok st =>
          obtain ⟨_, hack, hok⟩ := bind_eq_ok.mp hok
          obtain rfl := Option.some.inj (expect_eq_ok.mp hack)
          obtain ⟨data, hdata, hok⟩ := bind_eq_ok.mp hok
          cases ack with
          | result =>
            obtain rfl := Except.ok.inj hok
            exact .succeed hf hstatus
          | error cause => exact .refund hf (Or.inr ⟨cause, hstatus⟩) (expect_eq_ok.mp hdata) hok
  | timeout n =>
    rw [Network.step]
    cases hf : N.flights[n]? with
    | none => exact .idle
    | some f =>
      dsimp only
      cases hstatus : f.status with
      | answered ack => exact .idle
      | resolved => exact .idle
      | sent =>
        dsimp only
        cases hok : timeout (N.chains f.source) f.packet with
        | error e => exact .idle
        | ok st =>
          obtain ⟨data, hdata, hok⟩ := bind_eq_ok.mp hok
          exact .refund hf (Or.inl hstatus) (expect_eq_ok.mp hdata) hok

end Steps

end ChainMain.NftTransfer
