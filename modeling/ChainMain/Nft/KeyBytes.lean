import ChainMain.Foundations.Utf8
import ChainMain.Nft.Types

/-!
# Owner keys as bytes

In the source a string is any string of bytes, and a token id that another chain has chosen need not
be UTF-8. This module has the functions of `keys.go` that put an owner key together and take it
apart, on bytes. On the bytes of texts they do what the functions on texts do (`keyOwner_utf8`,
`splitKeyOwner_utf8`).
-/

set_option autoImplicit false

namespace ChainMain.Nft

open Foundations Texts Outcomes

/-- `sdk.AccAddressFromBech32` on any string, which the SDK provides. -/
structure ByteCodec (C : AddressCodec) where
  fromBech32 : Bytes → Option AccAddress
  fromBech32_utf8 : ∀ t, fromBech32 (utf8 t) = C.fromBech32 t

/-- The codec that takes strings that are not UTF-8 for no addresses. -/
def ByteCodec.ofUtf8 (C : AddressCodec) : ByteCodec C where
  fromBech32 bytes := bytes.toByteArray.utf8Decode?.bind fun t ↦ C.fromBech32 t.toList
  fromBech32_utf8 t := by
    have hdecode : (utf8 t).toByteArray.utf8Decode? = some t.toArray := List.utf8Decode?_utf8Encode
    rw [hdecode, Option.bind_some]

inductive KeyErr
  | message (text : String)
  | bech32 (address : Bytes)
deriving DecidableEq, Repr

namespace KeyBytes

variable {C : AddressCodec}

/-- `PrefixOwners`. -/
def ownersMark : Bytes := [0x02]

def slash : UInt8 := 0x2F

def delimiter : Bytes := [slash]

/-- `IBCPrefix`. -/
def ibcMark : Bytes := utf8 Nft.ibcMark

def keyOwner (C : AddressCodec) (address : Option AccAddress) (denomID tokenID : Bytes) : Bytes :=
  let key := ownersMark ++ delimiter
  match address with
  | none => key
  | some address =>
    let key := key ++ utf8 (C.string address) ++ delimiter
    let key := if denomID.isEmpty then key else key ++ denomID ++ delimiter
    if !denomID.isEmpty && !tokenID.isEmpty then key ++ tokenID else key

def splitKeyDenom (key : Bytes) : Except KeyErr (Bytes × Bytes) :=
  if ibcMark.isPrefixOf key then
    match cut slash (key.drop ibcMark.length) with
    | none => .error (.message "wrong KeyDenom")
    | some (hash, tokenID) =>
      -- the delimiter has to stand right after the hash
      if hash.length = ibcDenomLen - ibcMark.length then .ok (ibcMark ++ hash, tokenID)
      else .error (.message "wrong KeyDenom")
  else
    expect (cut slash key) (.message "wrong KeyDenom")

def splitKeyOwner (B : ByteCodec C) (key : Bytes) : Except KeyErr (AccAddress × Bytes × Bytes) := do
  let key := key.drop (ownersMark.length + delimiter.length)
  let keys ← expect (cut slash key) (.message "wrong KeyOwner")
  let address ← expect (B.fromBech32 keys.1) (.bech32 keys.1)
  let (denomID, tokenID) ← splitKeyDenom keys.2
  return (address, denomID, tokenID)

theorem keyOwner_eq (C : AddressCodec) (a : AccAddress) {denomID : Bytes} (h : denomID ≠ [])
    (tokenID : Bytes) :
    keyOwner C (some a) denomID tokenID =
      ownersMark ++ delimiter ++ (utf8 (C.string a) ++ slash :: (denomID ++ slash :: tokenID)) := by
  have hdenom : denomID.isEmpty = false := by simpa using h
  cases tokenID <;> simp [keyOwner, hdenom, delimiter]

theorem slash_not_mem_string (C : AddressCodec) (a : AccAddress) : slash ∉ utf8 (C.string a) :=
  (mem_utf8_iff (c := '/') (by decide)).not.mpr (C.delimiter_not_mem a)

theorem splitKeyOwner_append (B : ByteCodec C) (a : AccAddress) (rest : Bytes) :
    splitKeyOwner B (ownersMark ++ delimiter ++ (utf8 (C.string a) ++ slash :: rest)) =
      (splitKeyDenom rest).map fun parts ↦ (a, parts.1, parts.2) := by
  unfold splitKeyOwner
  dsimp only
  rw [← List.length_append, List.drop_left, cut_append (slash_not_mem_string C a), expect, ok_bind,
    B.fromBech32_utf8, C.fromBech32_string, expect, ok_bind]
  cases splitKeyDenom rest <;> rfl

/-! ### Keys of texts -/

theorem keyOwner_utf8 (address : Option AccAddress) (denomID tokenID : Text) :
    keyOwner C address (utf8 denomID) (utf8 tokenID) =
      utf8 (Nft.keyOwner C address denomID tokenID) := by
  have hempty : ∀ t : Text, (utf8 t).isEmpty = t.isEmpty := by
    intro t
    cases t with
    | nil => rfl
    | cons c rest => simp [String.utf8EncodeChar_ne_nil]
  have hdelimiter : delimiter = utf8 Nft.delimiter := by decide
  have hmark : ownersMark = utf8 Nft.ownersMark := by decide
  unfold keyOwner Nft.keyOwner
  cases address with
  | none => simp only [hmark, hdelimiter, utf8_append]
  | some a =>
    simp only [hempty, hmark, hdelimiter]
    split_ifs <;> simp only [utf8_append]

theorem cut_slash_utf8 (t : Text) : cut slash (utf8 t) = (cut '/' t).map (Prod.map utf8 utf8) :=
  cut_utf8 (c := '/') (by decide) t

theorem splitKeyDenom_utf8 (key : Text) :
    (splitKeyDenom (utf8 key)).toOption =
      (Nft.splitKeyDenom key).toOption.map (Prod.map utf8 utf8) := by
  have hmark : ibcMark.isPrefixOf (utf8 key) = Nft.ibcMark.isPrefixOf key := by
    rw [Bool.eq_iff_iff, List.isPrefixOf_iff_prefix, List.isPrefixOf_iff_prefix]
    exact utf8_start_iff _ _
  unfold splitKeyDenom Nft.splitKeyDenom
  rw [hmark]
  split_ifs with hstart
  · obtain ⟨rest, rfl⟩ := List.isPrefixOf_iff_prefix.mp hstart
    rw [utf8_append, ← ibcMark, List.drop_left, List.drop_left, cut_slash_utf8]
    cases cut '/' rest with
    | none => rfl
    | some parts =>
      have hlength : ibcMark.length = Nft.ibcMark.length := by decide
      dsimp only [Option.map_some, Prod.map]
      rw [length_utf8, hlength]
      split_ifs
      · rw [ibcMark, ← utf8_append]
        rfl
      · rfl
  · rw [cut_slash_utf8]
    cases cut '/' key <;> rfl

/-- A key of texts is split into the bytes of what the text of the key is split into. -/
theorem splitKeyOwner_utf8 (B : ByteCodec C) (rest : Text) :
    (splitKeyOwner B (utf8 (Nft.ownersMark ++ Nft.delimiter ++ rest))).toOption =
      (Nft.splitKeyOwner C (Nft.ownersMark ++ Nft.delimiter ++ rest)).toOption.map
        fun parts ↦ (parts.1, utf8 parts.2.1, utf8 parts.2.2) := by
  have hkey : utf8 (Nft.ownersMark ++ Nft.delimiter ++ rest) =
      ownersMark ++ delimiter ++ utf8 rest := by
    rw [utf8_append]
    congr 1
  unfold splitKeyOwner Nft.splitKeyOwner
  dsimp only
  rw [hkey, ← List.length_append, List.drop_left, ← List.length_append, List.drop_left,
    cut_slash_utf8]
  cases cut '/' rest with
  | none => rfl
  | some parts =>
    simp only [Option.map_some, Prod.map, expect, ok_bind, B.fromBech32_utf8, accAddressFromBech32]
    cases C.fromBech32 parts.1 with
    | none => rfl
    | some a =>
      have hdenom := splitKeyDenom_utf8 parts.2
      dsimp only [ok_bind]
      cases hbytes : splitKeyDenom (utf8 parts.2) <;> cases htexts : Nft.splitKeyDenom parts.2 <;>
        rw [hbytes, htexts] at hdenom
      · rfl
      · cases hdenom
      · cases hdenom
      · obtain rfl := Option.some.inj hdenom
        rfl

end KeyBytes

end ChainMain.Nft
