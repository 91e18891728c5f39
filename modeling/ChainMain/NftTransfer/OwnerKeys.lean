import ChainMain.Nft.KeyBytes
import ChainMain.NftTransfer.ReferencePlatform
import ChainMain.NftTransfer.Paths

/-!
# Decoding owner keys

An owner key is put together from an address, the id of a denom and the id of a token with `/`
between them, and the id of a denom of vouchers holds a `/` itself. `SplitKeyDenom` tells the two
kinds of denoms apart by the first four bytes, which the key of a token of the native denom `ibc`
shares with those of vouchers. The key of a token is decoded to what it was made of, whatever bytes
the id of the token has, if and only if the denom is not `ibc` (`owner_keys_decode_iff`).
-/

set_option autoImplicit false

namespace ChainMain.NftTransfer

open Foundations Texts Outcomes
open Nft (AccAddress AddressCodec ByteCodec validateDenomID)
open Nft.KeyBytes (keyOwner splitKeyOwner splitKeyDenom slash keyOwner_eq splitKeyOwner_append)

variable {C : AddressCodec} {d d' : Text} {a a' : AccAddress} {token token' : Bytes}

/-- The id of a denom that can be in the store: a native one, or `ibc/` and 64 hexadecimal
digits. -/
def CanExist (d : Text) : Prop :=
  validateDenomID d = .ok () ∨
    ∃ hash : Text, hash.length = 64 ∧ (∀ c ∈ hash, (hexValue c).isSome) ∧ d = Nft.ibcMark ++ hash

theorem lt_of_hexValue {c : Char} (h : (hexValue c).isSome) : c.toNat < 128 := by
  unfold hexValue at h
  dsimp only at h
  split_ifs at h
  · omega
  · omega
  · omega
  · cases h

theorem length_utf8_digits {hash : Text} (h : ∀ c ∈ hash, (hexValue c).isSome) :
    (utf8 hash).length = hash.length := by
  induction hash with
  | nil => rfl
  | cons c rest ih =>
    have hc := lt_of_hexValue (h c List.mem_cons_self)
    have hrest := ih fun c hc ↦ h c (List.mem_cons_of_mem _ hc)
    rw [utf8_cons, encode_of_lt hc, List.singleton_append, List.length_cons, hrest,
      List.length_cons]

theorem IsClassID.canExist {P : Platform} (h : IsClassID P d) : CanExist d := by
  refine h.imp_right ?_
  rintro ⟨path, rfl⟩
  refine ⟨hex (P.sha256 path).toList, ?_, fun c hc ↦ ?_, rfl⟩
  · rw [length_hex, Vector.length_toList]
  · obtain ⟨byte, -, hdigit⟩ := List.mem_flatMap.mp hc
    have hbyte : byte.toNat < 256 := byte.toNat_lt
    rcases List.mem_pair.mp hdigit with rfl | rfl
    · rw [hexValue_hexDigit (by omega)]
      rfl
    · rw [hexValue_hexDigit (by omega)]
      rfl

theorem slash_not_mem_utf8 {t : Text} (h : '/' ∉ t) : slash ∉ utf8 t :=
  (mem_utf8_iff (c := '/') (by decide)).not.mpr h

theorem CanExist.ne_nil (h : CanExist d) : d ≠ [] := by
  rcases h with hnative | ⟨hash, -, -, rfl⟩
  · exact native_ne_nil hnative
  · simp [Nft.ibcMark]

theorem CanExist.utf8_ne_nil (h : CanExist d) : utf8 d ≠ [] :=
  fun hnil ↦ h.ne_nil (utf8_injective hnil)

theorem splitKeyDenom_utf8_append (h : CanExist d) (hibc : d ≠ classMark) (token : Bytes) :
    splitKeyDenom (utf8 d ++ slash :: token) = .ok (utf8 d, token) := by
  unfold splitKeyDenom
  rcases h with hnative | ⟨hash, hlength, hdigits, rfl⟩
  · have hslash := slash_not_mem_utf8 (slash_not_mem_native hnative)
    have hnot : ¬ Nft.KeyBytes.ibcMark.isPrefixOf (utf8 d ++ slash :: token) = true := by
      rw [List.isPrefixOf_iff_prefix]
      intro hstart
      have hmark := eq_of_append_start (a := utf8 classMark) (by decide) hslash hstart
      exact hibc (utf8_injective hmark).symm
    rw [if_neg hnot]
    exact expect_eq_ok.mpr (cut_append hslash token)
  · have hslash : slash ∉ utf8 hash := by
      refine slash_not_mem_utf8 fun hmem ↦ ?_
      exact absurd (hdigits _ hmem) (by decide)
    have hstart : Nft.KeyBytes.ibcMark.isPrefixOf
        (Nft.KeyBytes.ibcMark ++ (utf8 hash ++ slash :: token)) = true :=
      List.isPrefixOf_iff_prefix.mpr (List.prefix_append _ _)
    have hsize : (utf8 hash).length = Nft.ibcDenomLen - Nft.KeyBytes.ibcMark.length := by
      rw [length_utf8_digits hdigits, hlength]
      decide
    rw [utf8_append, ← Nft.KeyBytes.ibcMark, List.append_assoc, if_pos hstart, List.drop_left,
      cut_append hslash]
    exact if_pos hsize

/-- What is split off a key that begins like those of vouchers is longer than `ibc`. -/
theorem splitKeyDenom_classMark_ne (token : Bytes) :
    splitKeyDenom (utf8 classMark ++ slash :: token) ≠ .ok (utf8 classMark, token) := by
  have hstart : Nft.KeyBytes.ibcMark.isPrefixOf (utf8 classMark ++ slash :: token) = true :=
    List.isPrefixOf_iff_prefix.mpr ⟨token, rfl⟩
  intro h
  unfold splitKeyDenom at h
  rw [if_pos hstart] at h
  split at h
  · cases h
  · split_ifs at h
    have hlength := congrArg List.length (Prod.mk.inj (Except.ok.inj h)).1
    rw [List.length_append] at hlength
    exact absurd (Nat.le.intro hlength) (by decide)

theorem splitKeyOwner_keyOwner_iff (B : ByteCodec C) (a : AccAddress) (h : CanExist d)
    (token : Bytes) :
    splitKeyOwner B (keyOwner C (some a) (utf8 d) token) = .ok (a, utf8 d, token) ↔
      d ≠ classMark := by
  rw [keyOwner_eq C a h.utf8_ne_nil, splitKeyOwner_append]
  constructor
  · rintro hsplit rfl
    cases hdenom : splitKeyDenom (utf8 classMark ++ slash :: token) with
    | error e =>
      rw [hdenom] at hsplit
      cases hsplit
    | ok parts =>
      rw [hdenom] at hsplit
      have hparts : parts = (utf8 classMark, token) := (Prod.mk.inj (Except.ok.inj hsplit)).2
      exact splitKeyDenom_classMark_ne token (hparts ▸ hdenom)
  · intro hibc
    rw [splitKeyDenom_utf8_append h hibc]
    rfl

theorem splitKeyOwner_keyOwner (h : CanExist d) (hibc : d ≠ classMark) (a : AccAddress) (t : Text) :
    Nft.splitKeyOwner C (Nft.keyOwner C (some a) d t) = .ok (a, d, t) := by
  have hbytes := (splitKeyOwner_keyOwner_iff (.ofUtf8 C) a h (utf8 t)).mpr hibc
  have htexts :=
    Nft.KeyBytes.splitKeyOwner_utf8 (.ofUtf8 C) (C.string a ++ '/' :: (d ++ Nft.delimiter ++ t))
  rw [← Nft.keyOwner_eq C a h.ne_nil, ← Nft.KeyBytes.keyOwner_utf8, hbytes] at htexts
  obtain ⟨⟨a', d', t'⟩, hsplit, hparts⟩ := Option.map_eq_some_iff.mp htexts.symm
  obtain ⟨haddress, hrest⟩ := Prod.mk.inj hparts
  obtain ⟨hdenom, htoken⟩ := Prod.mk.inj hrest
  obtain rfl : a' = a := haddress
  obtain rfl : d' = d := utf8_injective hdenom
  obtain rfl : t' = t := utf8_injective htoken
  cases hkey : Nft.splitKeyOwner C (Nft.keyOwner C (some a') d' t') with
  | error e =>
    rw [hkey] at hsplit
    cases hsplit
  | ok parts =>
    rw [hkey] at hsplit
    exact congrArg Except.ok (Option.some.inj hsplit)

/-- The owner key of a token of a denom that can be in the store is decoded to what it was made of
if and only if the denom is not `ibc`. Owner keys of other denoms are different. -/
theorem owner_keys_decode_iff (B : ByteCodec C) :
    (∀ (a : AccAddress) (d : Text) (token : Bytes), CanExist d → token ≠ [] →
      (splitKeyOwner B (keyOwner C (some a) (utf8 d) token) = .ok (a, utf8 d, token) ↔
        d ≠ classMark)) ∧
    ∀ (a a' : AccAddress) (d d' : Text) (token token' : Bytes), CanExist d → CanExist d' →
      token ≠ [] → token' ≠ [] → d ≠ classMark → d' ≠ classMark →
      keyOwner C (some a) (utf8 d) token = keyOwner C (some a') (utf8 d') token' →
      a = a' ∧ d = d' ∧ token = token' := by
  refine ⟨fun a d token h _ ↦ splitKeyOwner_keyOwner_iff B a h token, ?_⟩
  intro a a' d d' token token' h h' _ _ hibc hibc' hkey
  have hsplit := (splitKeyOwner_keyOwner_iff B a h token).mpr hibc
  rw [hkey, (splitKeyOwner_keyOwner_iff B a' h' token').mpr hibc'] at hsplit
  obtain ⟨rfl, hparts⟩ := Prod.mk.inj (Except.ok.inj hsplit)
  obtain ⟨hdenom, rfl⟩ := Prod.mk.inj hparts
  exact ⟨rfl, (utf8_injective hdenom).symm, rfl⟩

namespace Reference

def byteCodec : ByteCodec codec := .ofUtf8 codec

/-- A token of vouchers whose id has a `/` and a byte that is not UTF-8. -/
theorem owner_keys_decode_voucher :
    splitKeyOwner byteCodec (keyOwner codec (some default)
        (utf8 (Nft.ibcMark ++ List.replicate 64 'A')) [0x2F, 0xFF]) =
      .ok (default, utf8 (Nft.ibcMark ++ List.replicate 64 'A'), [0x2F, 0xFF]) := by
  have hdigits : ∀ c ∈ List.replicate 64 'A', (hexValue c).isSome := by
    intro c hc
    rw [List.eq_of_mem_replicate hc]
    decide
  have hexists : CanExist (Nft.ibcMark ++ List.replicate 64 'A') :=
    Or.inr ⟨_, List.length_replicate, hdigits, rfl⟩
  have hibc : Nft.ibcMark ++ List.replicate 64 'A' ≠ classMark := by decide
  exact ((owner_keys_decode_iff byteCodec).1 default _ [0x2F, 0xFF] hexists (by decide)).mpr hibc

/-- The owner key of the token `rex` of the native denom `ibc` is not decoded. -/
theorem ibc_owner_key_not_decoded :
    validateDenomID "ibc".toList = .ok () ∧
      splitKeyOwner byteCodec
        (keyOwner codec (some default) (utf8 "ibc".toList) (utf8 "rex".toList)) =
        .error (.message "wrong KeyDenom") := by
  refine ⟨by decide, ?_⟩
  rw [keyOwner_eq codec default (by decide), splitKeyOwner_append]
  have hdenom : splitKeyDenom (utf8 "ibc".toList ++ slash :: utf8 "rex".toList) =
      .error (.message "wrong KeyDenom") := by decide
  rw [hdenom]
  rfl

end Reference

end ChainMain.NftTransfer
