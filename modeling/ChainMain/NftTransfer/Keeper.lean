import ChainMain.NftTransfer.Types

/-!
# The keeper of `x/nft-transfer`

The state of the two modules on one chain and the functions of `x/nft-transfer/keeper`: class
traces, outgoing, received and refunded packets (`packet.go`), the calls of IBC core (`relay.go` and
`ibc_module.go`), the transfer message, and genesis.

The channels are IBC core's: `Channels` is what the keeper asks of it. IBC core keeps what a
received packet has written only if the acknowledgement is a success.
-/

set_option autoImplicit false

namespace ChainMain.NftTransfer

open Foundations Texts Outcomes OrderedStore
open Nft (AccAddress)

/-- The stores of the two modules: that of `x/nft`, the class traces by their hashes, and the
port. -/
structure State where
  nft : Nft.Store
  traces : Map (List UInt8) ClassTrace
  port : Text

/-- The state in which the stores are empty. -/
def State.empty : State := ⟨.empty, ∅, []⟩

/-- What the keeper asks of the channel keeper and of the sender of packets. -/
structure Channels (P : Platform) where
  /-- `GetChannel`: the other end of a channel. -/
  getChannel : ChannelEnd P → Option (ChannelEnd P)
  /-- `GetNextSequenceSend`. -/
  getNextSequenceSend : ChannelEnd P → Option ℕ
  /-- `SendPacket`. -/
  sendPacket : ChannelEnd P → Height → ℕ → Option PacketData → Except Err ℕ

variable {P : Platform}

/-! ### Class traces -/

def getClassTrace (st : State) (hash : List UInt8) : Option ClassTrace := st.traces[hash]?

def hasClassTrace (st : State) (hash : List UInt8) : Bool := st.traces.contains hash

def setClassTrace (P : Platform) (st : State) (trace : ClassTrace) : State :=
  { st with traces := st.traces.insert (trace.hash P) trace }

def getAllClassTraces (st : State) : List ClassTrace :=
  sortTraces (st.traces.toList.map Prod.snd)

def classPathFromHash (st : State) (classID : Text) : Except Err Text := do
  let hexHash := classID.drop (classMark ++ ['/']).length
  let hash ← (parseHexHash hexHash).mapError fun _ ↦ .registered .invalidClassID "%v" []
  let classTrace ← expect (getClassTrace st hash) (.registered .traceNotFound "%s" [.text hexHash])
  return classTrace.getFullClassPath

/-! ### Outgoing packets -/

/-- The full path of a class of this chain. -/
def fullClassPath (st : State) (classID : Text) : Except Err Text :=
  if Nft.ibcMark.isPrefixOf classID then classPathFromHash st classID else .ok classID

/-- One turn of the loop of `createOutgoingPacket`: the store and the URIs gathered so far. -/
def sendToken (source : ChannelEnd P) (classID : Text) (away : Bool) (sender : AccAddress)
    (sent : Nft.Store × List Text) (tokenID : Text) : Except Err (Nft.Store × List Text) := do
  let nft ← nftCall (Nft.getNFT sent.1 classID tokenID)
  let owner ← nftCall (nft.getOwner P.codec)
  ensure (sender = owner) (.registered .unauthorized "not token owner" [])
  let s ← nftCall <|
    if away then Nft.transferOwner P.codec sent.1 classID tokenID sender (getEscrowAddress source)
    else Nft.burnNFTUnverified P.codec sent.1 classID tokenID sender
  return (s, sent.2 ++ [nft.uri])

def createOutgoingPacket (st : State) (source dest : ChannelEnd P) (classID : Text)
    (tokenIDs : List Text) (sender : AccAddress) (receiver : Text) (sequence : ℕ)
    (timeoutHeight : Height) (timeoutTimestamp : ℕ) : Except Err (Packet P × State) := do
  let denom ← nftCall (Nft.getDenom st.nft classID)
  let path ← fullClassPath st classID
  let away := isAwayFromOrigin source path
  let (nft, tokenURIs) ← tokenIDs.foldlM (sendToken source classID away sender) (st.nft, [])
  let data : PacketData := {
    classId := path
    classUri := denom.uri
    tokenIds := tokenIDs
    tokenUris := tokenURIs
    sender := P.codec.string sender
    receiver := receiver }
  return (⟨some data, sequence, source, dest, timeoutHeight, timeoutTimestamp⟩, { st with nft })

def sendTransfer (ibc : Channels P) (st : State) (sourcePort sourceChannel classID : Text)
    (tokenIDs : List Text) (sender : AccAddress) (receiver : Text) (timeoutHeight : Height)
    (timeoutTimestamp : ℕ) : Except Err (Packet P × State) := do
  ensure (sourcePort = portID)
    (.registered .invalidSourcePort "source port must be %q" [.text portID])
  let source ← expect (ChannelEnd.ofTexts? P sourcePort sourceChannel)
    (.registered .channelNotFound "port ID (%s) channel ID (%s)"
      [.text sourcePort, .text sourceChannel])
  let dest ← expect (ibc.getChannel source)
    (.registered .channelNotFound "port ID (%s) channel ID (%s)"
      [.text sourcePort, .text sourceChannel])
  let sequence ← expect (ibc.getNextSequenceSend source)
    (.registered .sequenceSendNotFound "source port: %s, source channel: %s"
      [.text sourcePort, .text sourceChannel])
  let (packet, st) ← createOutgoingPacket st source dest classID tokenIDs sender receiver sequence
    timeoutHeight timeoutTimestamp
  let _ ← ibc.sendPacket source timeoutHeight timeoutTimestamp packet.data
  return (packet, st)

/-- The message `Transfer`, after its basic check. -/
def transfer (ibc : Channels P) (st : State) (msg : MsgTransfer) :
    Except Err (Packet P × State) := do
  msg.validateBasic P
  let sender ← nftCall (Nft.accAddressFromBech32 P.codec msg.sender)
  sendTransfer ibc st msg.sourcePort msg.sourceChannel msg.classId msg.tokenIds sender msg.receiver
    msg.timeoutHeight msg.timeoutTimestamp

/-! ### Received and refunded packets -/

/-- The loop that hands escrowed tokens to an account. -/
def unescrowTokens (s : Nft.Store) (classID : Text) (tokenIDs : List Text)
    (escrow receiver : AccAddress) : Except Err Nft.Store :=
  tokenIDs.foldlM
    (fun s tokenID ↦ nftCall (Nft.transferOwner P.codec s classID tokenID escrow receiver)) s

/-- The loop that mints vouchers for an account; the URIs stand beside the ids. -/
def mintTokens (s : Nft.Store) (classID : Text) (data : PacketData)
    (escrow receiver : AccAddress) : Except Err Nft.Store :=
  data.tokenIds.zipIdx.foldlM (fun s (token : Text × ℕ) ↦ do
    let tokenURI ← expect data.tokenUris[token.2]? (.panic "index out of range")
    nftCall (Nft.mintNFT P.codec s classID token.1 [] tokenURI [] escrow receiver)) s

def refundPacketToken (st : State) (packet : Packet P) (data : PacketData) : Except Err State := do
  let sender ← nftCall (Nft.accAddressFromBech32 P.codec data.sender)
  let voucherClassID := (parseClassTrace data.classId).ibcClassID P
  let escrowAddress := getEscrowAddress packet.source
  let nft ← (
    if isAwayFromOrigin packet.source data.classId then
      unescrowTokens (P := P) st.nft voucherClassID data.tokenIds escrowAddress sender
    else
      mintTokens (P := P) st.nft voucherClassID data escrowAddress sender)
  return { st with nft }

/-- What `processReceivedPacket` does before it mints: the trace and the class are registered. -/
def registerClass (st : State) (dest : ChannelEnd P) (classID classUri : Text) :
    Except Err State := do
  let classTrace := parseClassTrace (getClassPrefix dest ++ classID)
  let st := if hasClassTrace st (classTrace.hash P) then st else setClassTrace P st classTrace
  let voucherClassID := classTrace.ibcClassID P
  if Nft.hasDenomID st.nft voucherClassID then return st
  else
    let nft ← nftCall (Nft.issueDenom P.codec st.nft voucherClassID voucherClassID [] classUri
      (getEscrowAddress dest))
    return { st with nft }

def processReceivedPacket (st : State) (packet : Packet P) (data : PacketData) :
    Except Err State := do
  let receiver ← nftCall (Nft.accAddressFromBech32 P.codec data.receiver)
  let escrowAddress := getEscrowAddress packet.dest
  if isAwayFromOrigin packet.source data.classId then
    let st ← registerClass st packet.dest data.classId data.classUri
    let voucherClassID :=
      (parseClassTrace (getClassPrefix packet.dest ++ data.classId)).ibcClassID P
    let nft ← mintTokens (P := P) st.nft voucherClassID data escrowAddress receiver
    return { st with nft }
  else
    let unprefixedClassID := removeClassPrefix packet.source data.classId
    let voucherClassID := (parseClassTrace unprefixedClassID).ibcClassID P
    let nft ← unescrowTokens (P := P) st.nft voucherClassID data.tokenIds escrowAddress receiver
    return { st with nft }

/-! ### The calls of IBC core -/

/-- The keeper's `OnRecvPacket`. -/
def onRecvPacket (st : State) (packet : Packet P) (data : PacketData) : Except Err State := do
  data.validateBasic P
  processReceivedPacket st packet data

/-- The keeper's `OnAcknowledgementPacket`. -/
def onAcknowledgementPacket (st : State) (packet : Packet P) (data : PacketData)
    (ack : Acknowledgement) : Except Err State :=
  match ack with
  | .error _ => refundPacketToken st packet data
  | .result => .ok st

/-- The keeper's `OnTimeoutPacket`. -/
def onTimeoutPacket (st : State) (packet : Packet P) (data : PacketData) : Except Err State :=
  refundPacketToken st packet data

/-- `OnRecvPacket` of the IBC module, with what IBC core does after it. -/
def recv (st : State) (packet : Packet P) : State × Acknowledgement :=
  match packet.data with
  | none => (st, .error (.message "cannot unmarshal ICS-721 nft-transfer packet data" []))
  | some data =>
    match onRecvPacket st packet data with
    | .ok st' => (st', .result)
    | .error e => (st, .error e)

/-- The data of a packet that comes back. -/
def packetData (packet : Packet P) : Except Err PacketData :=
  expect packet.data
    (.registered .unknownRequest "cannot unmarshal ICS-721 transfer packet data: %s" [])

/-- `OnAcknowledgementPacket` of the IBC module, with the acknowledgement its bytes decode to. -/
def acknowledge (st : State) (packet : Packet P) (ack : Option Acknowledgement) :
    Except Err State := do
  let ack ← expect ack
    (.registered .unknownRequest "cannot unmarshal ICS-721 transfer packet acknowledgement: %v" [])
  let data ← packetData packet
  onAcknowledgementPacket st packet data ack

/-- `OnTimeoutPacket` of the IBC module. -/
def timeout (st : State) (packet : Packet P) : Except Err State := do
  let data ← packetData packet
  onTimeoutPacket st packet data

/-! ### Genesis -/

def initGenesis (P : Platform) (st : State) (gs : GenesisState) : State :=
  gs.traces.foldl (setClassTrace P) { st with port := gs.portId }

def exportGenesis (st : State) : GenesisState := ⟨st.port, getAllClassTraces st⟩

end ChainMain.NftTransfer
