import ChainMain.Nft.Keeper

/-!
# The messages of `x/nft`

`ValidateBasic` and the handlers of `msg_server.go` for the five messages, and the delivery of a
message: its basic check, then its handler. Events are not modelled.
-/

set_option autoImplicit false

namespace ChainMain.Nft

open Foundations Texts Outcomes

inductive Msg
  | issueDenom (id name schema sender uri : Text)
  | mintNFT (id denomId name uri data sender recipient : Text)
  | editNFT (id denomId name uri data sender : Text)
  | transferNFT (id denomId sender recipient : Text)
  | burnNFT (id denomId sender : Text)
deriving DecidableEq, Repr

namespace Msg

variable (C : AddressCodec)

def sender : Msg → Text
  | issueDenom _ _ _ sender _ => sender
  | mintNFT _ _ _ _ _ sender _ => sender
  | editNFT _ _ _ _ _ sender => sender
  | transferNFT _ _ sender _ => sender
  | burnNFT _ _ sender => sender

def validateBasic : Msg → Except Err Unit
  | issueDenom id name _ sender _ => do
    validateDenomID id
    validateAddress C "invalid sender address (%s)" sender
    validateDenomName name
  | mintNFT id denomId _ uri _ sender recipient => do
    validateAddress C "invalid sender address (%s)" sender
    validateAddress C "invalid receipt address (%s)" recipient
    validateDenomID denomId
    validateTokenURI uri
    validateTokenID id
  | editNFT id denomId _ uri _ sender => do
    validateAddress C "invalid sender address (%s)" sender
    validateDenomID denomId
    validateTokenURI uri
    validateTokenID id
  | transferNFT id denomId sender recipient => do
    validateDenomID denomId
    validateAddress C "invalid sender address (%s)" sender
    validateAddress C "invalid recipient address (%s)" recipient
    validateTokenID id
  | burnNFT id denomId sender => do
    validateAddress C "invalid sender address (%s)" sender
    validateDenomID denomId
    validateTokenID id

def handle (s : Store) : Msg → Except Err Store
  | issueDenom id name schema sender uri => do
    let sender ← accAddressFromBech32 C sender
    Nft.issueDenom C s id name schema uri sender
  | mintNFT id denomId name uri data sender recipient => do
    let recipient ← accAddressFromBech32 C recipient
    let sender ← accAddressFromBech32 C sender
    Nft.mintNFT C s denomId id name uri data sender recipient
  | editNFT id denomId name uri data sender => do
    let sender ← accAddressFromBech32 C sender
    Nft.editNFT C s denomId id name uri data sender
  | transferNFT id denomId sender recipient => do
    let sender ← accAddressFromBech32 C sender
    let recipient ← accAddressFromBech32 C recipient
    Nft.transferOwner C s denomId id sender recipient
  | burnNFT id denomId sender => do
    let sender ← accAddressFromBech32 C sender
    Nft.burnNFT C s denomId id sender

def run (s : Store) (msg : Msg) : Except Err Store := do
  msg.validateBasic C
  msg.handle C s

end Msg

end ChainMain.Nft
