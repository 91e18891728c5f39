import ChainMain.NftTransfer.Chain

/-!
# A platform to run the modules on

A small platform that keeps the assumptions of `Platform`, on which histories of the modules can be
evaluated. An address is spelled in hexadecimal digits, an identifier is any text without `/`, and
the hash of a text is made of the codes of its last 32 characters, so that short texts have
different hashes.
-/

set_option autoImplicit false

namespace ChainMain.NftTransfer.Reference

open Foundations Texts Outcomes
open Nft (AccAddress AddressCodec)

/-- The address with given bytes, if their number is admissible. -/
def address? (bytes : List UInt8) : Option AccAddress :=
  if h : bytes ≠ [] ∧ bytes.length ≤ 255 then some ⟨bytes, h.1, h.2⟩ else none

/-- Addresses in hexadecimal digits. -/
def codec : AddressCodec where
  string a := hex a.bytes
  fromBech32 t := (unhex t).bind address?
  fromBech32_string a := by
    rw [unhex_hex]
    exact dif_pos ⟨a.nonempty, a.short⟩
  delimiter_not_mem a := slash_not_mem_hex a.bytes

/-- The hash of a text: the codes of its last characters, the last one first. -/
def sha256 (t : Text) : Vector UInt8 32 :=
  .ofFn fun i ↦ UInt8.ofNat ((t.reverse[i.val]?).elim 0 Char.toNat)

/-- An identifier has no `/`. -/
def identifier (id : Text) : Except Err Unit :=
  ensure (!id.contains '/') (.outside "identifier cannot contain separator '/'")

theorem slash_not_mem_identifier (id : Text) (h : identifier id = .ok ()) : '/' ∉ id := by
  rw [identifier, ensure_eq_ok] at h
  simpa using h

def platform : Platform where
  codec := codec
  sha256 := sha256
  portIdentifierValidator := identifier
  channelIdentifierValidator := identifier
  slash_not_mem_port := slash_not_mem_identifier
  slash_not_mem_channel := slash_not_mem_identifier

/-- A channel end of the module, by the last character of its channel. -/
def channelEnd (channel : Text) (h : identifier channel = .ok ()) : ChannelEnd platform :=
  ⟨portID, channel, by decide, h⟩

/-- Two channel ends of the chain. -/
def end₀ : ChannelEnd platform := channelEnd "channel-0".toList (by decide)

/-- The other one of the two. -/
def end₁ : ChannelEnd platform := channelEnd "channel-1".toList (by decide)

/-- The channels all lead to an end `channel-7`, and every packet is sent. -/
def channels : Channels platform where
  getChannel _ := some (channelEnd "channel-7".toList (by decide))
  getNextSequenceSend _ := some 1
  sendPacket _ _ _ _ := .ok 1

def alice : Text := "AA".toList

/-- The other one of the two. -/
def bob : Text := "BB".toList

/-- A packet that arrives at an end from the end `channel-7` of another chain. -/
def arriving (dest : ChannelEnd platform) (classId tokenId receiver : Text) : Packet platform where
  data := some ⟨classId, [], [tokenId], [[]], bob, receiver⟩
  sequence := 1
  source := channelEnd "channel-7".toList (by decide)
  dest := dest
  timeoutHeight := ⟨0, 0⟩
  timeoutTimestamp := 0

def sending (source : ChannelEnd platform) (classId tokenId sender : Text) : MsgTransfer where
  sourcePort := source.port
  sourceChannel := source.channel
  classId := classId
  tokenIds := [tokenId]
  sender := sender
  receiver := bob
  timeoutHeight := ⟨0, 0⟩
  timeoutTimestamp := 0

def after (labels : List (Label platform)) : State := labels.foldl step (State.start platform)

theorem reachable_after (labels : List (Label platform)) : Reachable platform (after labels) := by
  obtain ⟨τ, hrun, -⟩ := run_of_labels (State.start platform) labels
  exact ⟨τ, hrun⟩

end ChainMain.NftTransfer.Reference
