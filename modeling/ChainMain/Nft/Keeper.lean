import ChainMain.Nft.Types

/-!
# The keeper of `x/nft`

The store of the module and the functions of `x/nft/keeper`, in the order of the source: denoms,
NFTs, owners, collections, and the operations of `keeper.go` that are put together from them. A
function that changes the store returns the new one, or an error when it fails; every caller throws
away what a failed operation has written.

Prefix iterators are prefix scans: the entries whose keys begin with the given text.
-/

set_option autoImplicit false

namespace ChainMain.Nft

open Foundations Texts Outcomes OrderedStore EncodedStore

/-- The store of the module, one map for each first byte of its keys: the NFTs, the index of owners
with the token ids, the supply counters, the denoms, and the index of denom names with the denom
ids. -/
structure Store where
  nfts : Map Text BaseNFT
  owners : Map Text Text
  collections : Map Text ℕ
  denoms : Map Text Denom
  denomNames : Map Text Text

def Store.empty : Store := ⟨∅, ∅, ∅, ∅, ∅⟩

variable (C : AddressCodec)

/-! ### Denoms -/

def hasDenomID (s : Store) (id : Text) : Bool := s.denoms.contains (keyDenomID id)

def hasDenomNm (s : Store) (name : Text) : Bool := s.denomNames.contains (keyDenomName name)

def setDenom (s : Store) (denom : Denom) : Except Err Store := do
  ensure (!hasDenomID s denom.id)
    (.registered .invalidDenom "denomID %s has already exists" [.text denom.id])
  ensure (!hasDenomNm s denom.name)
    (.registered .invalidDenom "denomName %s has already exists" [.text denom.name])
  return { s with
    denoms := s.denoms.insert (keyDenomID denom.id) denom
    denomNames := s.denomNames.insert (keyDenomName denom.name) denom.id }

def getDenom (s : Store) (id : Text) : Except Err Denom :=
  expect s.denoms[keyDenomID id]? (.registered .invalidDenom "not found denomID: %s" [.text id])

/-- `GetDenomByName`: a missing name reads as the empty id. -/
def getDenomByName (s : Store) (name : Text) : Except Err Denom :=
  getDenom s ((s.denomNames[keyDenomName name]?).getD [])

def getDenoms (s : Store) : List Denom := (scan s.denoms (keyDenomID [])).map Prod.snd

def isDenomCreator (s : Store) (denomID : Text) (address : AccAddress) : Except Err Denom := do
  let denom ← getDenom s denomID
  let creator ← expect (C.fromBech32 denom.creator)
    (.panic "%v" [.bech32 denom.creator])
  ensure (creator = address)
    (.registered .unauthorized "%s is not the creator of %s"
      [.text (C.string address), .text denomID])
  return denom

/-! ### NFTs -/

def getNFT (s : Store) (denomID tokenID : Text) : Except Err BaseNFT :=
  expect s.nfts[keyNFT denomID tokenID]?
    (.registered .unknownCollection "not found NFT: %s" [.text denomID])

def getNFTs (s : Store) (denom : Text) : List BaseNFT :=
  (scan s.nfts (keyNFT denom [])).map Prod.snd

def isOwner (s : Store) (denomID tokenID : Text) (owner : AccAddress) : Except Err BaseNFT := do
  let nft ← getNFT s denomID tokenID
  let nftOwner ← nft.getOwner C
  ensure (owner = nftOwner)
    (.registered .unauthorized "%s is not the owner of %s/%s"
      [.text (C.string owner), .text denomID, .text tokenID])
  return nft

def hasNFT (s : Store) (denomID tokenID : Text) : Bool := s.nfts.contains (keyNFT denomID tokenID)

def setNFT (s : Store) (denomID : Text) (nft : BaseNFT) : Store :=
  { s with nfts := s.nfts.insert (keyNFT denomID nft.id) nft }

def deleteNFT (s : Store) (denomID : Text) (nft : BaseNFT) : Store :=
  { s with nfts := s.nfts.erase (keyNFT denomID nft.id) }

/-! ### Owners -/

/-- One turn of the loop of `GetOwner`: the collections met so far, still without their ids, and the
ids met so far for each denom. -/
def collectOwned (found : List IDCollection × Map Text (List Text)) (key : Text) :
    Except Err (List IDCollection × Map Text (List Text)) := do
  let (_, denomID, tokenID) ← splitKeyOwner C key
  match found.2[denomID]? with
  | some ids => return (found.1, found.2.insert denomID (ids ++ [tokenID]))
  | none => return (found.1 ++ [⟨denomID, []⟩], found.2.insert denomID [tokenID])

def getOwner (s : Store) (address : AccAddress) (denom : Text) : Except Err Owner := do
  let keys := (scan s.owners (keyOwner C (some address) denom [])).map Prod.fst
  let (collections, idsMap) ← keys.foldlM (collectOwned C) ([], ∅)
  return {
    address := C.string address
    idCollections := collections.map fun collection ↦
      { collection with tokenIds := (idsMap[collection.denomId]?).getD [] } }

/-- One turn of the loop of `GetOwners`: the owners met so far, still without their collections, and
the collections met so far for each of them. -/
def collectOwners (found : List Owner × Map Text (List IDCollection)) (key : Text) :
    Except Err (List Owner × Map Text (List IDCollection)) := do
  let (address, denom, id) ← splitKeyOwner C key
  let address := C.string address
  let (owners, idcsMap) :=
    if (found.2[address]?).isSome then found
    else (found.1 ++ [⟨address, []⟩], found.2.insert address [])
  let idcs := (idcsMap[address]?).getD []
  return (owners, idcsMap.insert address (addID denom id idcs))

def getOwners (s : Store) : Except Err (List Owner) := do
  let keys := ((scan s.owners (keyOwner C none [] [])).map Prod.fst).reverse
  let (owners, idcsMap) ← keys.foldlM (collectOwners C) ([], ∅)
  return owners.map fun owner ↦ { owner with idCollections := (idcsMap[owner.address]?).getD [] }

def deleteOwner (s : Store) (denomID tokenID : Text) (owner : AccAddress) : Store :=
  { s with owners := s.owners.erase (keyOwner C (some owner) denomID tokenID) }

def setOwner (s : Store) (denomID tokenID : Text) (owner : AccAddress) : Store :=
  { s with owners := s.owners.insert (keyOwner C (some owner) denomID tokenID) tokenID }

def swapOwner (s : Store) (denomID tokenID : Text) (srcOwner dstOwner : AccAddress) : Store :=
  setOwner C (deleteOwner C s denomID tokenID srcOwner) denomID tokenID dstOwner

/-! ### Collections -/

def getTotalSupply (s : Store) (denomID : Text) : ℕ :=
  (s.collections[keyCollection denomID]?).getD 0

def getTotalSupplyOfOwner (s : Store) (id : Text) (owner : AccAddress) : ℕ :=
  (scan s.owners (keyOwner C (some owner) id [])).length

/-- `increaseSupply`; a counter that reaches `2 ^ 64` is out of reach. -/
def increaseSupply (s : Store) (denomID : Text) : Store :=
  { s with
    collections := s.collections.insert (keyCollection denomID) (getTotalSupply s denomID + 1) }

/-- `supply--` on a `uint64`: one less than zero is the largest of them. -/
def decrement (supply : ℕ) : ℕ := if supply = 0 then 2 ^ 64 - 1 else supply - 1

def decreaseSupply (s : Store) (denomID : Text) : Store :=
  let supply := decrement (getTotalSupply s denomID)
  if supply = 0 then { s with collections := s.collections.erase (keyCollection denomID) }
  else { s with collections := s.collections.insert (keyCollection denomID) supply }

def getCollections (s : Store) : List Collection :=
  (getDenoms s).map fun denom ↦ ⟨denom, getNFTs s denom.id⟩

/-! ### The operations -/

def issueDenom (s : Store) (id name schema uri : Text) (creator : AccAddress) : Except Err Store :=
  setDenom s (Denom.new C id name schema uri creator)

/-- The error for a denom that does not exist. -/
def denomNotExists (denomID : Text) : Err :=
  .registered .invalidDenom "denom ID %s not exists" [.text denomID]

def mintNFTUnverified (s : Store) (denomID tokenID tokenNm tokenURI tokenData : Text)
    (owner : AccAddress) : Except Err Store := do
  ensure (hasDenomID s denomID) (denomNotExists denomID)
  ensure (!hasNFT s denomID tokenID)
    (.registered .nftAlreadyExists "NFT %s already exists in collection %s"
      [.text tokenID, .text denomID])
  let s := setNFT s denomID (BaseNFT.new C tokenID tokenNm owner tokenURI tokenData)
  let s := setOwner C s denomID tokenID owner
  return increaseSupply s denomID

def mintNFT (s : Store) (denomID tokenID tokenNm tokenURI tokenData : Text)
    (sender owner : AccAddress) : Except Err Store := do
  let _ ← isDenomCreator C s denomID sender
  mintNFTUnverified C s denomID tokenID tokenNm tokenURI tokenData owner

/-- The record `EditNFT` writes. -/
def BaseNFT.edit (nft : BaseNFT) (tokenNm tokenURI tokenData : Text) : BaseNFT :=
  { nft with
    name := if modified tokenNm then tokenNm else nft.name
    uri := if modified tokenURI then tokenURI else nft.uri
    data := if modified tokenData then tokenData else nft.data }

def editNFT (s : Store) (denomID tokenID tokenNm tokenURI tokenData : Text) (owner : AccAddress) :
    Except Err Store := do
  ensure (hasDenomID s denomID) (denomNotExists denomID)
  let nft ← isOwner C s denomID tokenID owner
  let _ ← isDenomCreator C s denomID owner
  return setNFT s denomID (nft.edit tokenNm tokenURI tokenData)

def transferOwner (s : Store) (denomID tokenID : Text) (srcOwner dstOwner : AccAddress) :
    Except Err Store := do
  ensure (hasDenomID s denomID) (denomNotExists denomID)
  let nft ← isOwner C s denomID tokenID srcOwner
  let s := setNFT s denomID { nft with owner := C.string dstOwner }
  return swapOwner C s denomID tokenID srcOwner dstOwner

/-- What `BurnNFT` and `BurnNFTUnverified` do once their checks have passed. -/
def removeNFT (s : Store) (denomID tokenID : Text) (nft : BaseNFT) (owner : AccAddress) : Store :=
  decreaseSupply (deleteOwner C (deleteNFT s denomID nft) denomID tokenID owner) denomID

def burnNFT (s : Store) (denomID tokenID : Text) (owner : AccAddress) : Except Err Store := do
  ensure (hasDenomID s denomID) (denomNotExists denomID)
  let nft ← isOwner C s denomID tokenID owner
  let _ ← isDenomCreator C s denomID owner
  return removeNFT C s denomID tokenID nft owner

def burnNFTUnverified (s : Store) (denomID tokenID : Text) (owner : AccAddress) :
    Except Err Store := do
  ensure (hasDenomID s denomID) (denomNotExists denomID)
  let nft ← isOwner C s denomID tokenID owner
  return removeNFT C s denomID tokenID nft owner

/-! ### Genesis -/

def setGenesisCollection (s : Store) (collection : Collection) : Except Err Store :=
  collection.nfts.foldlM (fun s nft ↦ do
    let owner ← nft.getOwner C
    mintNFTUnverified C s collection.denom.id nft.id nft.name nft.uri nft.data owner) s

/-- The checks `ValidateGenesis` makes of an NFT. -/
def validateGenesisNFT (nft : BaseNFT) : Except Err Unit := do
  let owner ← nft.getOwner C
  ensure (!owner.bytes.isEmpty) (.registered .invalidAddress "missing owner" [])
  validateTokenID nft.id
  validateTokenURI nft.uri

/-- `ValidateGenesis`, which checks the name of a denom with the rule for ids. -/
def validateGenesis (data : GenesisState) : Except Err Unit :=
  data.collections.forM fun collection ↦ do
    validateDenomID collection.denom.name
    collection.nfts.forM (validateGenesisNFT C)

/-- `InitGenesis`; its panics carry the errors of the calls they are raised for. -/
def initGenesis (s : Store) (data : GenesisState) : Except Err Store := do
  validateGenesis C data
  data.collections.foldlM (fun s collection ↦ do
    let s ← setDenom s collection.denom
    setGenesisCollection C s collection) s

def exportGenesis (s : Store) : GenesisState := ⟨getCollections s⟩

end ChainMain.Nft
