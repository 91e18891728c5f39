import ChainMain.Foundations.Grouping
import ChainMain.NftTransfer.Enumerations

/-!
# The owners partition the collection

`GetOwners` walks the owner index backwards and sorts the decoded keys by owner and denom;
`GetOwner` walks the part of one owner forwards and sorts it by denom with a store of ids. Both
loops group what they read (`getOwners_groups`, `getOwner_groups`). In a store whose owner index has
one entry for every NFT, the owners `GetOwners` lists are those of the NFTs, and every NFT is listed
once, under its owner (`getOwners_partitions`).
-/

set_option autoImplicit false

namespace ChainMain.NftTransfer

open Foundations Texts Outcomes OrderedStore EncodedStore
open Foundations.Grouping
open Nft (AccAddress AddressCodec BaseNFT IDCollection Owner Represents Registry Store
  addID hasDenomID keyNFT keyOwner getOwner getOwners splitKeyOwner collectOwned collectOwners
  validateDenomID validateTokenID)

variable {P : Platform} {C : AddressCodec} {s : Store} {a : AccAddress} {d t : Text}

/-! ### The owner index -/

/-- The record is that of an NFT of the denom. -/
def IsNFT (s : Store) (d : Text) (nft : BaseNFT) : Prop :=
  hasDenomID s d = true ∧ s.nfts[keyNFT d nft.id]? = some nft

/-- The owner index has one entry for every NFT, under its owner, and no other. -/
structure OwnerIndexed (C : AddressCodec) (s : Store) : Prop where
  /-- The ids of denoms are native ones or those of vouchers. -/
  canExist : ∀ d, hasDenomID s d = true → CanExist d
  /-- The ids of NFTs of native denoms have passed their check. -/
  tokenID : ∀ d nft, IsNFT s d nft → validateDenomID d = .ok () → validateTokenID nft.id = .ok ()
  owned : ∀ d nft, IsNFT s d nft → ∃ a, nft.owner = C.string a
  entry_iff : ∀ key id, s.owners[key]? = some id ↔
    ∃ a d nft, IsNFT s d nft ∧ nft.owner = C.string a ∧ nft.id = id ∧ key = keyOwner C (some a) d id

theorem slash_not_mem_tokenID (h : validateTokenID t = .ok ()) : '/' ∉ t :=
  slash_not_mem_of_alphaNumeric (validateID_eq_ok h).1

theorem Holds.ownerIndexed {U : Set Text} {st : State} {R : Registry} (h : Holds P U st R) :
    OwnerIndexed P.codec st.nft := by
  have hrep := h.represents
  have hnft : ∀ d nft, IsNFT st.nft d nft ↔
      ∃ tok, R.tokens (d, nft.id) = some tok ∧ tok.record P.codec nft.id = nft := by
    intro d nft
    constructor
    · rintro ⟨hd, hnft⟩
      rwa [hrep.getElem?_nfts (hrep.hasDenomID_iff.mp hd), Option.map_eq_some_iff] at hnft
    · rintro ⟨tok, htok, hrecord⟩
      have hd := R.inhabited htok
      refine ⟨hrep.hasDenomID_iff.mpr hd, ?_⟩
      rw [hrep.getElem?_nfts hd, Option.map_eq_some_iff]
      exact ⟨tok, htok, hrecord⟩
  refine ⟨fun d hd ↦ ?_, fun d nft hnft' hnative ↦ ?_, fun d nft hnft' ↦ ?_, fun key id ↦ ?_⟩
  · exact (h.classes.isClassID d (hrep.hasDenomID_iff.mp hd)).canExist
  · obtain ⟨tok, htok, -⟩ := (hnft d nft).mp hnft'
    exact (h.checked d nft.id tok htok hnative).1
  · obtain ⟨tok, -, hrecord⟩ := (hnft d nft).mp hnft'
    exact ⟨tok.owner, (congrArg BaseNFT.owner hrecord).symm⟩
  · rw [hrep.owners]
    constructor
    · rintro ⟨⟨a, d, t⟩, rfl, howned⟩
      obtain ⟨htok, rfl⟩ := Registry.owned_eq_some.mp howned
      obtain ⟨tok, htok, rfl⟩ := Option.map_eq_some_iff.mp htok
      exact ⟨tok.owner, d, tok.record P.codec t, (hnft _ _).mpr ⟨tok, htok, rfl⟩, rfl, rfl, rfl⟩
    · rintro ⟨a, d, nft, hnft', howner, rfl, rfl⟩
      obtain ⟨tok, htok, hrecord⟩ := (hnft d nft).mp hnft'
      have htokOwner : P.codec.string tok.owner = nft.owner := congrArg BaseNFT.owner hrecord
      have ha : tok.owner = a := P.codec.string_injective (htokOwner.trans howner)
      refine ⟨(a, d, nft.id), rfl, Registry.owned_eq_some.mpr ⟨?_, rfl⟩⟩
      rw [htok, Option.map_some, ha]

/-- In every state a chain gets to without both the class `ibc` and vouchers, the owner index has
one entry for every NFT. -/
theorem Reachable.ownerIndexed {st : State} (h : Reachable P st) (hclash : NoClash P st) :
    OwnerIndexed P.codec st.nft := by
  obtain ⟨R, hR⟩ := h.inv.holds hclash
  exact hR.ownerIndexed

/-! ### Reading the owner index -/

def decoded (C : AddressCodec) (key : Text) : AccAddress × Text × Text :=
  match splitKeyOwner C key with
  | .ok parts => parts
  | .error _ => default

/-- What the owner index says, in the order of its keys. -/
def readings (C : AddressCodec) (s : Store) : List (AccAddress × Text × Text) :=
  s.owners.toList.map fun entry ↦ decoded C entry.1

/-- Every key of the owner index can be split. -/
def Readable (C : AddressCodec) (s : Store) : Prop :=
  ∀ entry ∈ s.owners.toList, ∃ parts, splitKeyOwner C entry.1 = .ok parts

/-- The owner key of a token of the class `ibc` cannot be split. -/
theorem splitKeyOwner_native_classMark (ht : '/' ∉ t) (parts : AccAddress × Text × Text) :
    splitKeyOwner C (keyOwner C (some a) classMark t) ≠ .ok parts := by
  have hdrop :
      (keyOwner C (some a) classMark t).drop (Nft.ownersMark.length + Nft.delimiter.length) =
      C.string a ++ '/' :: (Nft.ibcMark ++ t) := by
    rw [Nft.keyOwner_eq C a (by decide), ← List.length_append, List.drop_left]
    rfl
  have hstart : Nft.ibcMark.isPrefixOf (Nft.ibcMark ++ t) = true :=
    List.isPrefixOf_iff_prefix.mpr (List.prefix_append _ _)
  have hdenom : Nft.splitKeyDenom (Nft.ibcMark ++ t) = .error (.message "wrong KeyDenom") := by
    unfold Nft.splitKeyDenom
    rw [if_pos hstart, List.drop_left, cut_eq_none ht]
  unfold splitKeyOwner
  dsimp only
  rw [hdrop, cut_append (C.delimiter_not_mem a), expect, ok_bind, Nft.accAddressFromBech32,
    C.fromBech32_string, expect, ok_bind, hdenom]
  intro h
  cases h

namespace OwnerIndexed

variable (h : OwnerIndexed C s) (hread : Readable C s)

include h

theorem decoded_entry {key id : Text} (hentry : s.owners[key]? = some id)
    (hsplit : ∃ parts, splitKeyOwner C key = .ok parts) :
    splitKeyOwner C key = .ok (decoded C key) ∧
      key = keyOwner C (some (decoded C key).1) (decoded C key).2.1 (decoded C key).2.2 ∧
      ∃ nft, IsNFT s (decoded C key).2.1 nft ∧ nft.owner = C.string (decoded C key).1 ∧
        nft.id = (decoded C key).2.2 := by
  obtain ⟨a, d, nft, hnft, howner, rfl, rfl⟩ := (h.entry_iff key id).mp hentry
  have hibc : d ≠ classMark := by
    rintro rfl
    obtain ⟨parts, hparts⟩ := hsplit
    have hvalid := h.tokenID _ nft hnft (by decide)
    exact splitKeyOwner_native_classMark (slash_not_mem_tokenID hvalid) parts hparts
  have hkey : splitKeyOwner C (keyOwner C (some a) d nft.id) = .ok (a, d, nft.id) :=
    splitKeyOwner_keyOwner (h.canExist d hnft.1) hibc a nft.id
  rw [decoded, hkey]
  exact ⟨rfl, rfl, nft, hnft, howner, rfl⟩

include hread

theorem read_entry {entry : Text × Text} (hentry : entry ∈ s.owners.toList) :
    splitKeyOwner C entry.1 = .ok (decoded C entry.1) ∧
      entry.1 = keyOwner C (some (decoded C entry.1).1) (decoded C entry.1).2.1
        (decoded C entry.1).2.2 ∧
      ∃ nft, IsNFT s (decoded C entry.1).2.1 nft ∧ nft.owner = C.string (decoded C entry.1).1 ∧
        nft.id = (decoded C entry.1).2.2 :=
  h.decoded_entry (mem_toList.mp hentry) (hread entry hentry)

theorem mem_readings : (a, d, t) ∈ readings C s ↔
    ∃ nft, IsNFT s d nft ∧ nft.owner = C.string a ∧ nft.id = t := by
  rw [readings, List.mem_map]
  constructor
  · rintro ⟨entry, hentry, heq⟩
    have hnft := (h.read_entry hread hentry).2.2
    rwa [heq] at hnft
  · rintro ⟨nft, hnft, howner, rfl⟩
    have hentry : (keyOwner C (some a) d nft.id, nft.id) ∈ s.owners.toList :=
      mem_toList.mpr ((h.entry_iff _ _).mpr ⟨a, d, nft, hnft, howner, rfl, rfl⟩)
    refine ⟨_, hentry, ?_⟩
    obtain ⟨hsplit, hkey, -⟩ := h.read_entry hread hentry
    have hibc : d ≠ classMark := by
      rintro rfl
      have hvalid := h.tokenID _ nft hnft (by decide)
      exact splitKeyOwner_native_classMark (slash_not_mem_tokenID hvalid) _ hsplit
    rw [splitKeyOwner_keyOwner (h.canExist d hnft.1) hibc] at hsplit
    exact (Except.ok.inj hsplit).symm

theorem nodup_readings : ((readings C s).map Prod.snd).Nodup := by
  have hnodup : (readings C s).Nodup := by
    refine List.Nodup.map_on (fun entry hentry entry' hentry' heq ↦ ?_) (nodup_toList s.owners)
    have hkey := (h.read_entry hread hentry).2.1
    rw [heq, ← (h.read_entry hread hentry').2.1] at hkey
    have hvalue := mem_toList.mp hentry
    rw [hkey, mem_toList.mp hentry'] at hvalue
    exact Prod.ext hkey (Option.some.inj hvalue).symm
  refine List.Nodup.map_on ?_ hnodup
  rintro ⟨a, d, t⟩ hmem ⟨a', d', t'⟩ hmem' heq
  obtain ⟨rfl, rfl⟩ := Prod.mk.inj heq
  -- both are said of one record, which has one owner
  obtain ⟨nft, hnft, howner, rfl⟩ := (h.mem_readings hread).mp hmem
  obtain ⟨nft', hnft', howner', hid⟩ := (h.mem_readings hread).mp hmem'
  have hrecord := hnft'.2
  rw [hid, hnft.2] at hrecord
  obtain rfl := Option.some.inj hrecord
  rw [C.string_injective (howner.symm.trans howner')]

end OwnerIndexed

/-! ### The loops -/

/-- The id of a collection and its tokens. -/
def IDCollection.pair (idc : IDCollection) : Text × List Text := (idc.denomId, idc.tokenIds)

/-- The tokens of collections, each with its denom. -/
def tokensOf (idcs : List IDCollection) : List (Text × Text) :=
  listed id (idcs.map IDCollection.pair)

def Owner.pair (owner : Owner) : Text × List IDCollection := (owner.address, owner.idCollections)

def putID (tokenID : Text) (ids : Option (List Text)) : List Text := ids.getD [] ++ [tokenID]

def putToken (token : Text × Text) (idcs : Option (List IDCollection)) : List IDCollection :=
  addID token.1 token.2 (idcs.getD [])

theorem map_pair_addID (idcs : List IDCollection) :
    (addID d t idcs).map IDCollection.pair = upsert (putID t) d (idcs.map IDCollection.pair) := by
  induction idcs with
  | nil => rfl
  | cons idc rest ih =>
    rw [addID, List.map_cons, IDCollection.pair, upsert]
    split_ifs with hd
    · rfl
    · rw [List.map_cons, ih, IDCollection.pair]

theorem putID_perm (t : Text) (ids : List Text) : (putID t (some ids)).Perm (t :: ids) :=
  List.perm_append_singleton t ids

theorem tokensOf_addID (idcs : List IDCollection) :
    (tokensOf (addID d t idcs)).Perm ((d, t) :: tokensOf idcs) := by
  rw [tokensOf, map_pair_addID]
  exact listed_upsert (List.Perm.refl [t]) (putID_perm t)

/-- The collections met so far are the denoms met so far. -/
def ownedState (found : List Text × Map Text (List Text)) :
    List IDCollection × Map Text (List Text) :=
  (found.1.map fun d ↦ ⟨d, []⟩, found.2)

/-- The owners met so far are the addresses met so far. -/
def ownersState (found : List Text × Map Text (List IDCollection)) :
    List Owner × Map Text (List IDCollection) :=
  (found.1.map fun address ↦ ⟨address, []⟩, found.2)

/-- A turn of the loop of `GetOwner` puts an id into its group. -/
theorem collectOwned_eq (found : List Text × Map Text (List Text)) (key : Text) :
    collectOwned C (ownedState found) key =
      (splitKeyOwner C key).map fun parts ↦ ownedState (collect putID found parts.2) := by
  unfold collectOwned
  cases splitKeyOwner C key with
  | error e => rfl
  | ok parts =>
    dsimp only [ok_bind, Except.map, ownedState, collect]
    cases found.2[parts.2.1]? with
    | some ids => rfl
    | none =>
      dsimp only
      rw [List.map_append]
      rfl

/-- A turn of the loop of `GetOwners` puts a token into its group. -/
theorem collectOwners_eq (found : List Text × Map Text (List IDCollection)) (key : Text) :
    collectOwners C (ownersState found) key = (splitKeyOwner C key).map fun parts ↦
      ownersState (collect putToken found (C.string parts.1, parts.2)) := by
  unfold collectOwners
  cases splitKeyOwner C key with
  | error e => rfl
  | ok parts =>
    dsimp only [ok_bind, Except.map, ownersState, collect]
    rcases Option.eq_none_or_eq_some (found.2[C.string parts.1]?) with hnone | ⟨idcs, hsome⟩
    · simp only [hnone, Option.isSome_none, Bool.false_eq_true, if_false,
        getElem?_insert_eq, if_true, insert_insert, List.map_append]
      rfl
    · simp only [hsome, Option.isSome_some, if_true]
      rfl

theorem keyOwner_none_start (hd : d ≠ []) : keyOwner C none [] [] <+: keyOwner C (some a) d t := by
  rw [Nft.keyOwner_eq C a hd]
  exact List.prefix_append _ _

/-- An owner key begins with the key of an owner only if it is the owner's. -/
theorem keyOwner_start_iff {a' : AccAddress} (hd : d ≠ []) :
    keyOwner C (some a) [] [] <+: keyOwner C (some a') d t ↔ a' = a := by
  have hkey : keyOwner C (some a) [] [] =
      Nft.ownersMark ++ Nft.delimiter ++ (C.string a ++ ['/']) := by
    simp [keyOwner, Nft.delimiter]
  rw [hkey, Nft.keyOwner_eq C a' hd, List.prefix_append_right_inj]
  constructor
  · intro hstart
    have heq := eq_of_append_start (C.delimiter_not_mem a) (C.delimiter_not_mem a') hstart
    exact (C.string_injective heq).symm
  · rintro rfl
    exact ⟨d ++ Nft.delimiter ++ t, by simp⟩

theorem OwnerIndexed.decoded_ne_nil (h : OwnerIndexed C s) (hread : Readable C s)
    {entry : Text × Text} (hentry : entry ∈ s.owners.toList) : (decoded C entry.1).2.1 ≠ [] := by
  obtain ⟨-, -, nft, hnft, -⟩ := h.read_entry hread hentry
  exact (h.canExist _ hnft.1).ne_nil

/-- What `GetOwners` reads, from the last key on. -/
def ownerItems (C : AddressCodec) (s : Store) : List (Text × Text × Text) :=
  (readings C s).reverse.map fun parts ↦ (C.string parts.1, parts.2)

def groupedIDs (items : List (Text × Text)) : List (Text × List Text) :=
  items.foldl (fun groups item ↦ upsert (putID item.2) item.1 groups) []

def groupedTokens (items : List (Text × Text × Text)) : List (Text × List IDCollection) :=
  items.foldl (fun groups item ↦ upsert (putToken item.2) item.1 groups) []

/-- `GetOwners` groups what it reads by owner. -/
theorem getOwners_eq (h : OwnerIndexed C s) (hread : Readable C s) :
    getOwners C s = .ok ((groupedTokens (ownerItems C s)).map fun group ↦ ⟨group.1, group.2⟩) := by
  have hscan : scan s.owners (keyOwner C none [] []) = s.owners.toList := by
    refine List.filter_eq_self.mpr fun entry hentry ↦ ?_
    rw [List.isPrefixOf_iff_prefix, (h.read_entry hread hentry).2.1]
    exact keyOwner_none_start (h.decoded_ne_nil hread hentry)
  have hkeys : ∀ key ∈ (s.owners.toList.map Prod.fst).reverse,
      splitKeyOwner C key = .ok (decoded C key) := by
    intro key hkey
    obtain ⟨entry, hentry, rfl⟩ := List.mem_map.mp (List.mem_reverse.mp hkey)
    exact (h.read_entry hread hentry).1
  have hvalues : (s.owners.toList.map Prod.fst).reverse.map (decoded C) =
      (readings C s).reverse := by
    rw [List.map_reverse, List.map_map]
    rfl
  have hloop := foldlM_of_read (collectOwners_eq (C := C)) hkeys ([], ∅)
  rw [hvalues, ← List.foldl_map
    (f := fun parts : AccAddress × Text × Text ↦ (C.string parts.1, parts.2))
    (g := collect putToken), ← ownerItems] at hloop
  have hinit : ownersState ([], ∅) = ([], ∅) := rfl
  unfold getOwners
  rw [hscan, ← hinit]
  dsimp only
  rw [hloop, ok_bind, groupedTokens, ← filled_collected putToken [], filled, List.map_map]
  dsimp only [ownersState]
  rw [List.map_map]
  rfl

/-- `GetOwner` groups what it reads of an owner by denom. -/
theorem getOwner_eq (h : OwnerIndexed C s) (hread : Readable C s) (a : AccAddress) :
    getOwner C s a [] = .ok ⟨C.string a,
      (groupedIDs (((readings C s).filter fun parts ↦ parts.1 = a).map Prod.snd)).map
        fun group ↦ ⟨group.1, group.2⟩⟩ := by
  have hscan : scan s.owners (keyOwner C (some a) [] []) =
      s.owners.toList.filter fun entry ↦ (decoded C entry.1).1 = a := by
    refine List.filter_congr fun entry hentry ↦ ?_
    rw [Bool.eq_iff_iff, List.isPrefixOf_iff_prefix, decide_eq_true_iff,
      (h.read_entry hread hentry).2.1, keyOwner_start_iff (h.decoded_ne_nil hread hentry),
      ← (h.read_entry hread hentry).2.1]
  have hkeys : ∀ key ∈ (s.owners.toList.filter fun entry ↦ (decoded C entry.1).1 = a).map Prod.fst,
      splitKeyOwner C key = .ok (decoded C key) := by
    intro key hkey
    obtain ⟨entry, hentry, rfl⟩ := List.mem_map.mp hkey
    exact (h.read_entry hread (List.mem_of_mem_filter hentry)).1
  have hvalues : ((s.owners.toList.filter fun entry ↦ (decoded C entry.1).1 = a).map Prod.fst).map
      (decoded C) = (readings C s).filter fun parts ↦ parts.1 = a := by
    rw [readings, List.filter_map, List.map_map]
    rfl
  have hloop := foldlM_of_read (collectOwned_eq (C := C)) hkeys ([], ∅)
  rw [hvalues, ← List.foldl_map (f := Prod.snd) (g := collect putID)] at hloop
  have hinit : ownedState ([], ∅) = ([], ∅) := rfl
  unfold getOwner
  rw [hscan, ← hinit]
  dsimp only
  rw [hloop, ok_bind, groupedIDs, ← filled_collected putID [], filled, List.map_map]
  dsimp only [ownedState]
  rw [List.map_map]
  rfl

theorem OwnerIndexed.mem_ownerItems (h : OwnerIndexed C s) (hread : Readable C s) {address : Text} :
    (address, d, t) ∈ ownerItems C s ↔ ∃ nft, IsNFT s d nft ∧ nft.id = t ∧ nft.owner = address := by
  rw [ownerItems, List.mem_map]
  constructor
  · rintro ⟨⟨a, d', t'⟩, hmem, heq⟩
    obtain ⟨nft, hnft, howner, hid⟩ := (h.mem_readings hread).mp (List.mem_reverse.mp hmem)
    obtain ⟨rfl, hparts⟩ := Prod.mk.inj heq
    obtain ⟨rfl, rfl⟩ := Prod.mk.inj hparts
    exact ⟨nft, hnft, hid, howner⟩
  · rintro ⟨nft, hnft, rfl, rfl⟩
    obtain ⟨a, howner⟩ := h.owned d nft hnft
    refine ⟨(a, d, nft.id), List.mem_reverse.mpr ?_, by rw [howner]⟩
    exact (h.mem_readings hread).mpr ⟨nft, hnft, howner, rfl⟩

theorem OwnerIndexed.nodup_ownerItems (h : OwnerIndexed C s) (hread : Readable C s) :
    ((ownerItems C s).map Prod.snd).Nodup := by
  rw [ownerItems, List.map_map, List.map_reverse, List.nodup_reverse]
  exact h.nodup_readings hread

/-- What is read of an owner is the same in both directions, up to the order. -/
theorem perm_filter_ownerItems (C : AddressCodec) (s : Store) (a : AccAddress) :
    (((ownerItems C s).filter fun item ↦ item.1 = C.string a).map Prod.snd).Perm
      (((readings C s).filter fun parts ↦ parts.1 = a).map Prod.snd) := by
  have hfilter : (ownerItems C s).filter (fun item ↦ item.1 = C.string a) =
      (((readings C s).filter fun parts ↦ parts.1 = a).reverse).map
        fun parts ↦ (C.string parts.1, parts.2) := by
    rw [ownerItems, List.filter_map, List.filter_reverse]
    congr 2
    exact List.filter_congr fun parts _ ↦ decide_eq_decide.mpr C.string_injective.eq_iff
  rw [hfilter, List.map_map, List.map_reverse]
  exact List.reverse_perm _

/-- `GetOwners` answers only if every key of the owner index can be split. -/
theorem readable_of_getOwners {owners : List Owner} (h : OwnerIndexed C s)
    (hget : getOwners C s = .ok owners) : Readable C s := by
  intro entry hentry
  obtain ⟨a, d, nft, hnft, -, -, hkey⟩ := (h.entry_iff entry.1 entry.2).mp (mem_toList.mp hentry)
  have hstart : keyOwner C none [] [] <+: entry.1 := by
    rw [hkey]
    exact keyOwner_none_start (h.canExist d hnft.1).ne_nil
  have hmem : entry.1 ∈ ((scan s.owners (keyOwner C none [] [])).map Prod.fst).reverse :=
    List.mem_reverse.mpr
      (List.mem_map.mpr ⟨entry, mem_scan.mpr ⟨mem_toList.mp hentry, hstart⟩, rfl⟩)
  obtain ⟨found, hloop, -⟩ := bind_eq_ok.mp hget
  have hinit : ownersState ([], ∅) = ([], ∅) := rfl
  rw [← hinit] at hloop
  exact exists_read_of_foldlM (collectOwners_eq (C := C)) hloop entry.1 hmem

/-! ### The groups -/

theorem groups_groupedIDs (items : List (Text × Text)) : Groups id items (groupedIDs items) :=
  groups_foldl (fun t ↦ List.Perm.refl [t]) putID_perm items

theorem groups_groupedTokens (items : List (Text × Text × Text)) :
    Groups tokensOf items (groupedTokens items) :=
  groups_foldl (fun _ ↦ tokensOf_addID []) (fun _ idcs ↦ tokensOf_addID idcs) items

/-- The collections are groups of their tokens. -/
def Grouped (idcs : List IDCollection) : Prop :=
  Groups id (tokensOf idcs) (idcs.map IDCollection.pair)

theorem Grouped.addID {idcs : List IDCollection} (h : Grouped idcs) (d t : Text) :
    Grouped (addID d t idcs) := by
  have hgroups :
      Groups id ((d, t) :: tokensOf idcs) (upsert (putID t) d (idcs.map IDCollection.pair)) :=
    h.upsert (List.Perm.refl [t]) (putID_perm t)
  rw [Grouped, map_pair_addID]
  exact ⟨hgroups.nodup, hgroups.nonempty, by rw [tokensOf, map_pair_addID]⟩

theorem grouped_groupedTokens (items : List (Text × Text × Text)) :
    ∀ group ∈ groupedTokens items, Grouped group.2 := by
  have hnil : Grouped [] := ⟨List.nodup_nil, by simp, List.Perm.nil⟩
  exact forall_foldl (fun token ↦ hnil.addID token.1 token.2)
    (fun token _ h ↦ h.addID token.1 token.2) items

/-! ### The partition -/

/-- The tokens that are listed, each with the owner it is listed under. -/
def listing (owners : List Owner) : List (Text × Text × Text) :=
  owners.flatMap fun owner ↦ owner.idCollections.flatMap fun idc ↦
    idc.tokenIds.map fun id ↦ (owner.address, idc.denomId, id)

theorem listing_eq (owners : List Owner) :
    listing owners = listed tokensOf (owners.map Owner.pair) := by
  simp [listing, listed, tokensOf, List.flatMap_map, List.map_flatMap, Owner.pair,
    IDCollection.pair, Function.comp_def]

/-- The same denoms with the same tokens, up to the order of both. -/
structure SameTokens (idcs idcs' : List IDCollection) : Prop where
  denoms : (idcs.map IDCollection.denomId).Perm (idcs'.map IDCollection.denomId)
  tokens : ∀ idc ∈ idcs, ∀ idc' ∈ idcs', idc.denomId = idc'.denomId →
    idc.tokenIds.Perm idc'.tokenIds

theorem Grouped.sameTokens {idcs idcs' : List IDCollection} {items : List (Text × Text)}
    (h : Grouped idcs) (h' : Groups id items (idcs'.map IDCollection.pair))
    (hitems : (tokensOf idcs).Perm items) : SameTokens idcs idcs' := by
  refine ⟨?_, fun idc hidc idc' hidc' hd ↦ ?_⟩
  · have hkeys := h.perm_keys h' hitems
    rwa [List.map_map, List.map_map] at hkeys
  · exact h.perm_content h' hitems (List.mem_map_of_mem hidc) (List.mem_map_of_mem hidc') hd

/-- In a store whose owner index has one entry for every NFT, if `GetOwners` answers, it lists the
owners of NFTs, each once, and every NFT once, under its owner, each owner lists a denom once, and
the collections of an owner are those `GetOwner` answers with, up to the order. -/
theorem getOwners_partitions {owners : List Owner} (h : OwnerIndexed C s)
    (hget : getOwners C s = .ok owners) :
    (owners.map Owner.address).Nodup ∧
    (∀ address, address ∈ owners.map Owner.address ↔ ∃ d nft, IsNFT s d nft ∧ nft.owner = address) ∧
    ((listing owners).map Prod.snd).Nodup ∧
    (∀ address d t, (address, d, t) ∈ listing owners ↔
      ∃ nft, IsNFT s d nft ∧ nft.id = t ∧ nft.owner = address) ∧
    (∀ owner ∈ owners, (owner.idCollections.map IDCollection.denomId).Nodup) ∧
    ∀ owner ∈ owners, ∀ a, owner.address = C.string a →
      ∃ idcs, getOwner C s a [] = .ok ⟨C.string a, idcs⟩ ∧ SameTokens owner.idCollections idcs := by
  have hread := readable_of_getOwners h hget
  obtain rfl := Except.ok.inj ((getOwners_eq h hread).symm.trans hget)
  have hgroups := groups_groupedTokens (ownerItems C s)
  have hpair : ((groupedTokens (ownerItems C s)).map fun group ↦ (⟨group.1, group.2⟩ : Owner)).map
      Owner.pair = groupedTokens (ownerItems C s) := by
    rw [List.map_map]
    exact List.map_id _
  have haddress :
      ((groupedTokens (ownerItems C s)).map fun group ↦ (⟨group.1, group.2⟩ : Owner)).map
      Owner.address = (groupedTokens (ownerItems C s)).map Prod.fst := by
    rw [List.map_map]
    rfl
  rw [listing_eq, hpair, haddress]
  refine ⟨hgroups.nodup, fun address ↦ ?_, ?_, fun address d t ↦ ?_, ?_, ?_⟩
  · rw [hgroups.mem_keys, List.mem_map]
    constructor
    · rintro ⟨⟨_, d, t⟩, hmem, rfl⟩
      obtain ⟨nft, hnft, -, howner⟩ := (h.mem_ownerItems hread).mp hmem
      exact ⟨d, nft, hnft, howner⟩
    · rintro ⟨d, nft, hnft, howner⟩
      exact ⟨(address, d, nft.id), (h.mem_ownerItems hread).mpr ⟨nft, hnft, rfl, howner⟩, rfl⟩
  · exact (hgroups.perm.map Prod.snd).nodup_iff.mpr (h.nodup_ownerItems hread)
  · rw [hgroups.perm.mem_iff]
    exact h.mem_ownerItems hread
  · intro owner howner
    obtain ⟨group, hgroup, rfl⟩ := List.mem_map.mp howner
    have hnodup := (grouped_groupedTokens _ group hgroup).nodup
    rwa [List.map_map] at hnodup
  · intro owner howner a ha
    obtain ⟨group, hgroup, rfl⟩ := List.mem_map.mp howner
    refine ⟨_, getOwner_eq h hread a, ?_⟩
    have htokens := hgroups.perm_filter hgroup
    rw [show group.1 = C.string a from ha] at htokens
    refine (grouped_groupedTokens _ group hgroup).sameTokens ?_
      (htokens.trans (perm_filter_ownerItems C s a))
    rw [List.map_map]
    exact (List.map_id (groupedIDs _)).symm ▸ groups_groupedIDs _

section Histories

open Reference

/-- Two owners, each with an NFT of another class. -/
theorem getOwners_partitions_twoClasses :
    ∃ owners, getOwners platform.codec (after twoClasses).nft = .ok owners ∧ owners.length = 2 ∧
      ((listing owners).map Prod.snd).Nodup := by
  have hlength : (getOwners platform.codec (after twoClasses).nft).toOption.map List.length =
      some 2 := by
    decide +kernel
  obtain ⟨owners, hanswer, hlength⟩ := Option.map_eq_some_iff.mp hlength
  cases hget : getOwners platform.codec (after twoClasses).nft with
  | error e =>
    rw [hget] at hanswer
    cases hanswer
  | ok owners' =>
    rw [hget] at hanswer
    obtain rfl := Option.some.inj hanswer
    have hindexed := (reachable_after twoClasses).ownerIndexed noClash_twoClasses
    exact ⟨owners', rfl, hlength, (getOwners_partitions hindexed hget).2.2.1⟩

end Histories

end ChainMain.NftTransfer
