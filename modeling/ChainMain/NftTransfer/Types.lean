import ChainMain.Nft.Messages

/-!
# The types of `x/nft-transfer`

The data of `x/nft-transfer/types`: class traces, packets, the transfer message, the genesis state,
their checks, and the escrow address of a channel end. A class that came from another chain is known
by its path, in which every hop has left the port and the channel it arrived on; its id on this
chain is `ibc/` with the hash of the path.

What the module takes from outside is collected in `Platform`: the bech32 text of addresses,
SHA-256, and the checks of port and channel identifiers, of which only that they refuse `/` is
assumed. The JSON encoding of packets is left out: a packet holds the data it decodes to.
-/

set_option autoImplicit false

namespace ChainMain.NftTransfer

open Foundations Texts Outcomes
open Nft (AccAddress AddressCodec Arg)

/-! ### Errors -/

/-- The registered errors the module returns, its own and those of the SDK and of IBC. -/
inductive ErrCode
  | invalidClassID
  | invalidTokenID
  | invalidPacket
  | traceNotFound
  | invalidSourcePort
  | invalidAddress
  | unauthorized
  | unknownRequest
  | channelNotFound
  | sequenceSendNotFound
deriving DecidableEq, Repr

/-- An error: one of `x/nft`, a registered one with the text it is wrapped with, a plain
`fmt.Errorf`, an error around another one, an error of IBC core or of a library, or a panic. -/
inductive Err
  | nft (e : Nft.Err)
  | registered (code : ErrCode) (text : String) (args : List Arg)
  | message (text : String) (args : List Arg)
  | wrap (text : String) (args : List Arg) (cause : Err)
  | outside (text : String)
  | panic (text : String)
deriving DecidableEq, Repr

/-- A call of `x/nft`. -/
def nftCall {α : Type} : Except Nft.Err α → Except Err α := Except.mapError .nft

theorem nftCall_eq_ok {α : Type} {x : Except Nft.Err α} {a : α} : nftCall x = .ok a ↔ x = .ok a :=
  mapError_eq_ok

/-! ### The platform and channel ends -/

structure Platform where
  codec : AddressCodec
  /-- `sha256.Sum256`. -/
  sha256 : Text → Vector UInt8 32
  /-- `host.PortIdentifierValidator`. -/
  portIdentifierValidator : Text → Except Err Unit
  /-- `host.ChannelIdentifierValidator`. -/
  channelIdentifierValidator : Text → Except Err Unit
  slash_not_mem_port : ∀ id, portIdentifierValidator id = .ok () → '/' ∉ id
  slash_not_mem_channel : ∀ id, channelIdentifierValidator id = .ok () → '/' ∉ id

/-- One end of a channel: a port and a channel on it, with identifiers IBC core accepts. -/
@[ext]
structure ChannelEnd (P : Platform) where
  port : Text
  channel : Text
  validPort : P.portIdentifierValidator port = .ok ()
  validChannel : P.channelIdentifierValidator channel = .ok ()

variable {P : Platform}

instance : DecidableEq (ChannelEnd P) := fun e e' ↦
  decidable_of_iff (e.port = e'.port ∧ e.channel = e'.channel)
    ⟨fun h ↦ ChannelEnd.ext h.1 h.2, fun h ↦ h ▸ ⟨rfl, rfl⟩⟩

/-- The channel end with a port and a channel, if these are identifiers. -/
def ChannelEnd.ofTexts? (P : Platform) (port channel : Text) : Option (ChannelEnd P) :=
  match hport : P.portIdentifierValidator port, hchannel : P.channelIdentifierValidator channel with
  | .ok (), .ok () => some ⟨port, channel, hport, hchannel⟩
  | _, _ => none

def version : Text := "ics721-1".toList

def portID : Text := "nft".toList

/-- `ClassPrefix`, the first letters of the id of a class that came from another chain. -/
def classMark : Text := "ibc".toList

/-- `GetEscrowAddress`: the first twenty bytes of the hash. -/
def getEscrowAddress (e : ChannelEnd P) : AccAddress where
  bytes := (P.sha256 (version ++ [Char.ofNat 0] ++ e.port ++ ['/'] ++ e.channel)).toList.take 20
  nonempty := by simp
  short := by simp

/-! ### Class traces -/

structure ClassTrace where
  path : Text
  baseClassId : Text
deriving DecidableEq, Repr

def parseHexHash (hexHash : Text) : Except Err (List UInt8) := do
  let hash ← expect (unhex hexHash) (.outside "encoding/hex: invalid hexadecimal text")
  ensure (hash.isEmpty || hash.length = 32) (.outside "expected size to be 32 bytes")
  return hash

def getClassPrefix (e : ChannelEnd P) : Text := e.port ++ ['/'] ++ e.channel ++ ['/']

def removeClassPrefix (e : ChannelEnd P) (classID : Text) : Text :=
  classID.drop (getClassPrefix e).length

def isAwayFromOrigin (e : ChannelEnd P) (fullClassPath : Text) : Bool :=
  !(getClassPrefix e).isPrefixOf fullClassPath

/-- `ParseClassTrace`: the path goes to the last `/`. -/
def parseClassTrace (rawClassID : Text) : ClassTrace :=
  let classSplit := rawClassID.splitOn '/'
  if classSplit.headD [] = rawClassID then ⟨[], rawClassID⟩
  else ⟨['/'].intercalate classSplit.dropLast, classSplit.getLastD []⟩

namespace ClassTrace

def getPrefix (ct : ClassTrace) : Text := ct.path ++ ['/']

def getFullClassPath (ct : ClassTrace) : Text :=
  if ct.path = [] then ct.baseClassId else ct.getPrefix ++ ct.baseClassId

def hash (P : Platform) (ct : ClassTrace) : List UInt8 := (P.sha256 ct.getFullClassPath).toList

def ibcClassID (P : Platform) (ct : ClassTrace) : Text :=
  if ct.path ≠ [] then classMark ++ ['/'] ++ hex (ct.hash P) else ct.baseClassId

end ClassTrace

/-- The loop of `validateTraceIdentifiers`, from position `i` on. -/
def validateTracePairs (P : Platform) (i : ℕ) : List Text → Except Err Unit
  | port :: channel :: rest => do
    (P.portIdentifierValidator port).mapError (.wrap "invalid port ID at position %d" [.nat i])
    (P.channelIdentifierValidator channel).mapError
      (.wrap "invalid channel ID at position %d" [.nat i])
    validateTracePairs P (i + 2) rest
  | _ => .ok ()

def validateTraceIdentifiers (P : Platform) (identifiers : List Text) : Except Err Unit := do
  ensure (!identifiers.isEmpty && identifiers.length % 2 == 0)
    (.message ("trace info must come in pairs of port and channel identifiers "
      ++ "'\x7bportID\x7d/\x7bchannelID\x7d', got the identifiers: %s") (identifiers.map .text))
  validateTracePairs P 0 identifiers

def ClassTrace.validate (P : Platform) (ct : ClassTrace) : Except Err Unit :=
  if ct.path = [] ∧ ct.baseClassId ≠ [] then .ok ()
  else if isBlank ct.baseClassId then .error (.message "base class_id cannot be blank" [])
  else validateTraceIdentifiers P (ct.path.splitOn '/')

/-- The loop of `Traces.Validate`: the hashes seen so far, and the position. -/
def validateTraces (P : Platform) (seen : List Text) (i : ℕ) : List ClassTrace → Except Err Unit
  | [] => .ok ()
  | trace :: rest => do
    let hash := hex (trace.hash P)
    ensure (!seen.contains hash) (.message "duplicated class trace with hash %s" [.text hash])
    (trace.validate P).mapError (.wrap "failed class trace %d validation" [.nat i])
    validateTraces P (hash :: seen) (i + 1) rest

/-- `Traces.Sort`, by full class path. -/
def sortTraces (traces : List ClassTrace) : List ClassTrace :=
  traces.mergeSort fun t t' ↦ (compare t.getFullClassPath t'.getFullClassPath).isLE

/-! ### Packets -/

/-- `types.NonFungibleTokenPacketData`. -/
structure PacketData where
  classId : Text
  classUri : Text
  tokenIds : List Text
  tokenUris : List Text
  sender : Text
  receiver : Text
deriving DecidableEq, Repr

def PacketData.validateBasic (P : Platform) (data : PacketData) : Except Err Unit := do
  ensure (!isBlank data.classId) (.registered .invalidClassID "classId cannot be blank" [])
  ensure (!data.tokenIds.isEmpty) (.registered .invalidTokenID "tokenId cannot be blank" [])
  ensure (data.tokenIds.length = data.tokenUris.length)
    (.registered .invalidPacket "tokenIds and tokenUris lengths do not match" [])
  ensure (!isBlank data.sender) (.registered .invalidAddress "sender address cannot be blank" [])
  ensure (P.codec.fromBech32 data.sender).isSome
    (.registered .invalidAddress "invalid sender address" [])
  ensure (!isBlank data.receiver)
    (.registered .invalidAddress "receiver address cannot be blank" [])
  ensure (P.codec.fromBech32 data.receiver).isSome
    (.registered .invalidAddress "invalid receiver address" [])

structure Height where
  revisionNumber : ℕ
  revisionHeight : ℕ
deriving DecidableEq, Repr

/-- `channeltypes.Packet`, with the data its bytes decode to, if they do. -/
structure Packet (P : Platform) where
  data : Option PacketData
  sequence : ℕ
  source : ChannelEnd P
  dest : ChannelEnd P
  timeoutHeight : Height
  timeoutTimestamp : ℕ

/-- `channeltypes.Acknowledgement`: a result, or an error with the error it was made from. -/
inductive Acknowledgement
  | result
  | error (cause : Err)

structure MsgTransfer where
  sourcePort : Text
  sourceChannel : Text
  classId : Text
  tokenIds : List Text
  sender : Text
  receiver : Text
  timeoutHeight : Height
  timeoutTimestamp : ℕ
deriving DecidableEq, Repr

def MsgTransfer.validateBasic (P : Platform) (msg : MsgTransfer) : Except Err Unit := do
  (P.portIdentifierValidator msg.sourcePort).mapError (.wrap "invalid source port ID" [])
  ensure (msg.sourcePort = portID)
    (.registered .invalidSourcePort "source port must be %q" [.text portID])
  (P.channelIdentifierValidator msg.sourceChannel).mapError (.wrap "invalid source channel ID" [])
  ensure (!isBlank msg.classId) (.registered .invalidClassID "classId cannot be blank" [])
  ensure (!msg.tokenIds.isEmpty) (.registered .invalidTokenID "tokenId cannot be blank" [])
  ensure (msg.tokenIds.all fun tokenID ↦ !isBlank tokenID)
    (.registered .invalidTokenID "tokenId cannot be blank" [])
  ensure (P.codec.fromBech32 msg.sender).isSome
    (.registered .invalidAddress "string could not be parsed as address: %v" [.bech32 msg.sender])
  ensure (!isBlank msg.receiver) (.registered .invalidAddress "missing recipient address" [])

structure GenesisState where
  portId : Text
  traces : List ClassTrace
deriving DecidableEq, Repr

/-- `DefaultGenesisState`. -/
def GenesisState.default : GenesisState := ⟨portID, []⟩

def GenesisState.validate (P : Platform) (gs : GenesisState) : Except Err Unit := do
  P.portIdentifierValidator gs.portId
  validateTraces P [] 0 gs.traces

end ChainMain.NftTransfer
