import ChainMain.Foundations.EncodedStore
import ChainMain.Foundations.Outcomes

/-!
# The types of `x/nft`

The data of `x/nft/types`: denoms, NFTs, collections and owners, the registered errors, the checks
of `validation.go`, and the store keys of `keys.go`. A denom is what the module calls a class of
NFTs; the id of a denom and the id of an NFT in it are texts.

Keys are texts joined with `/` without escaping, as in the source. The first byte of a key says
which part of the store it belongs to.
-/

set_option autoImplicit false

namespace ChainMain.Nft

open Foundations Texts Outcomes

/-! ### Addresses -/

/-- `sdk.AccAddress`: a byte string of an admissible length. -/
structure AccAddress where
  bytes : List UInt8
  nonempty : bytes ≠ []
  short : bytes.length ≤ 255
deriving DecidableEq

instance : Inhabited AccAddress := ⟨⟨[0], by simp, by simp⟩⟩

/-- The bech32 text of addresses, which the SDK provides. -/
structure AddressCodec where
  /-- `AccAddress.String`. -/
  string : AccAddress → Text
  /-- `sdk.AccAddressFromBech32`, without the error. -/
  fromBech32 : Text → Option AccAddress
  fromBech32_string : ∀ a, fromBech32 (string a) = some a
  delimiter_not_mem : ∀ a, '/' ∉ string a

theorem AddressCodec.string_injective (C : AddressCodec) : Function.Injective C.string := by
  intro a b h
  have hback := congrArg C.fromBech32 h
  rw [C.fromBech32_string, C.fromBech32_string] at hback
  exact Option.some.inj hback

/-! ### Errors -/

/-- The registered errors the module returns. -/
inductive ErrCode
  | unknownCollection
  | nftAlreadyExists
  | unauthorized
  | invalidDenom
  | invalidTokenID
  | invalidTokenURI
  | invalidDenomName
  | invalidAddress
deriving DecidableEq, Repr

/-- A value an error text is formatted with: a text, a number, or the error of decoding an
address. -/
inductive Arg
  | text (t : Text)
  | nat (n : ℕ)
  | bech32 (address : Text)
deriving DecidableEq, Repr

/-- An error: a registered one with the text it is wrapped with, the error of decoding an address, a
plain `errors.New`, or a panic. -/
inductive Err
  | registered (code : ErrCode) (text : String) (args : List Arg)
  | bech32 (address : Text)
  | message (text : String)
  | panic (text : String) (args : List Arg)
deriving DecidableEq, Repr

/-! ### Denoms, NFTs and collections -/

structure Denom where
  id : Text
  name : Text
  schema : Text
  creator : Text
  uri : Text
deriving DecidableEq, Repr

/-- `NewDenom`. -/
def Denom.new (C : AddressCodec) (id name schema uri : Text) (creator : AccAddress) : Denom where
  id := id
  name := name
  schema := schema
  creator := C.string creator
  uri := uri

structure BaseNFT where
  id : Text
  name : Text
  uri : Text
  data : Text
  owner : Text
deriving DecidableEq, Repr

/-- `NewBaseNFT`. -/
def BaseNFT.new (C : AddressCodec) (id name : Text) (owner : AccAddress) (uri data : Text) :
    BaseNFT where
  id := id
  name := name
  uri := uri
  data := data
  owner := C.string owner

/-- `BaseNFT.GetOwner`, which panics on a text that is no address. -/
def BaseNFT.getOwner (C : AddressCodec) (nft : BaseNFT) : Except Err AccAddress :=
  expect (C.fromBech32 nft.owner)
    (.panic "couldn't convert %q to account address: %w" [.text nft.owner, .bech32 nft.owner])

structure Collection where
  denom : Denom
  nfts : List BaseNFT
deriving DecidableEq, Repr

structure IDCollection where
  denomId : Text
  tokenIds : List Text
deriving DecidableEq, Repr

def IDCollection.addID (idc : IDCollection) (tokenID : Text) : IDCollection :=
  { idc with tokenIds := idc.tokenIds ++ [tokenID] }

/-- `IDCollections.Add`. -/
def addID (denomID tokenID : Text) : List IDCollection → List IDCollection
  | [] => [⟨denomID, [tokenID]⟩]
  | idc :: rest =>
    if idc.denomId = denomID then idc.addID tokenID :: rest else idc :: addID denomID tokenID rest

structure Owner where
  address : Text
  idCollections : List IDCollection
deriving DecidableEq, Repr

structure GenesisState where
  collections : List Collection
deriving DecidableEq, Repr

/-! ### Validation -/

def doNotModify : Text := "[do-not-modify]".toList

def minDenomLen : ℕ := 3

def maxDenomLen : ℕ := 64

def ibcDenomLen : ℕ := 68

/-- `IBCPrefix`, the first letters of the id of a denom that came from another chain. -/
def ibcMark : Text := "ibc/".toList

def maxTokenURILen : ℕ := 256

/-- `IsAlphaNumeric`: the text matches `^[a-z0-9]+$`. -/
def isAlphaNumeric (t : Text) : Bool := !t.isEmpty && t.all fun c ↦ c.isLower || c.isDigit

/-- `IsBeginWithAlpha`: the text matches `^[a-z].*`. -/
def isBeginWithAlpha : Text → Bool
  | [] => false
  | c :: _ => c.isLower

/-- The check shared by `ValidateDenomID` and `ValidateTokenID`: the length first, then the
characters. -/
def validateID (code : ErrCode) (lengthText charsText : String) (id : Text) : Except Err Unit := do
  ensure (minDenomLen ≤ size id && size id ≤ maxDenomLen)
    (.registered code lengthText [.text id, .nat minDenomLen, .nat maxDenomLen])
  ensure (isBeginWithAlpha id && isAlphaNumeric id) (.registered code charsText [.text id])

def validateDenomID : Text → Except Err Unit :=
  validateID .invalidDenom "the length of denom(%s) only accepts value [%d, %d]"
    "the denom(%s) only accepts lowercase alphanumeric characters, and begin with an english letter"

def validateTokenID : Text → Except Err Unit :=
  validateID .invalidTokenID "the length of nft id(%s) only accepts value [%d, %d]"
    "nft id(%s) only accepts lowercase alphanumeric characters, and begin with an english letter"

/-- `ValidateDenomName`; the text is formatted with the trimmed name, which is empty. -/
def validateDenomName (name : Text) : Except Err Unit :=
  ensure (!isBlank name)
    (.registered .invalidDenomName "denom name(%s) can not be space" [.text []])

def validateTokenURI (uri : Text) : Except Err Unit :=
  ensure (size uri ≤ maxTokenURILen)
    (.registered .invalidTokenURI "the length of nft uri(%s) only accepts value [0, %d]"
      [.text uri, .nat maxTokenURILen])

def modified (target : Text) : Bool := target != doNotModify

def accAddressFromBech32 (C : AddressCodec) (address : Text) : Except Err AccAddress :=
  expect (C.fromBech32 address) (.bech32 address)

/-- The check of an address in `ValidateBasic`, with the text its error is wrapped with. -/
def validateAddress (C : AddressCodec) (text : String) (address : Text) : Except Err Unit := do
  let _ ← expect (C.fromBech32 address) (.registered .invalidAddress text [.bech32 address])

/-! ### Store keys -/

/-- `PrefixNFT`. -/
def nftMark : Text := [Char.ofNat 1]

/-- `PrefixOwners`. -/
def ownersMark : Text := [Char.ofNat 2]

/-- `PrefixCollection`. -/
def collectionMark : Text := [Char.ofNat 3]

/-- `PrefixDenom`. -/
def denomMark : Text := [Char.ofNat 4]

/-- `PrefixDenomName`. -/
def denomNameMark : Text := [Char.ofNat 5]

def delimiter : Text := ['/']

def keyOwner (C : AddressCodec) (address : Option AccAddress) (denomID tokenID : Text) : Text :=
  let key := ownersMark ++ delimiter
  match address with
  | none => key
  | some address =>
    let key := key ++ C.string address ++ delimiter
    let key := if denomID.isEmpty then key else key ++ denomID ++ delimiter
    if !denomID.isEmpty && !tokenID.isEmpty then key ++ tokenID else key

def keyNFT (denomID tokenID : Text) : Text :=
  let key := nftMark ++ delimiter
  let key := if denomID.isEmpty then key else key ++ denomID ++ delimiter
  if !denomID.isEmpty && !tokenID.isEmpty then key ++ tokenID else key

def keyCollection (denomID : Text) : Text := collectionMark ++ delimiter ++ denomID

def keyDenomID (id : Text) : Text := denomMark ++ delimiter ++ id

def keyDenomName (name : Text) : Text := denomNameMark ++ delimiter ++ name

def splitKeyDenom (key : Text) : Except Err (Text × Text) :=
  if ibcMark.isPrefixOf key then
    match cut '/' (key.drop ibcMark.length) with
    | none => .error (.message "wrong KeyDenom")
    | some (hash, tokenID) =>
      -- the delimiter has to stand right after the hash
      if size hash = ibcDenomLen - ibcMark.length then .ok (ibcMark ++ hash, tokenID)
      else .error (.message "wrong KeyDenom")
  else
    expect (cut '/' key) (.message "wrong KeyDenom")

def splitKeyOwner (C : AddressCodec) (key : Text) : Except Err (AccAddress × Text × Text) := do
  let key := key.drop (ownersMark.length + delimiter.length)
  let keys ← expect (cut '/' key) (.message "wrong KeyOwner")
  let address ← accAddressFromBech32 C keys.1
  let (denomID, tokenID) ← splitKeyDenom keys.2
  return (address, denomID, tokenID)

end ChainMain.Nft
