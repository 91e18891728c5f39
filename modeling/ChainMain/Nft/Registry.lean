import ChainMain.Nft.Messages

/-!
# What the store of `x/nft` stands for

The module keeps classes and the tokens in them. A `Directory` is a partial function from ids to
classes whose names differ, and a `Registry` adds a partial function from a class and a token id to
tokens, each in a class that exists. The store of the module writes a registry into five maps under
keys made of texts. `RepresentsClasses` says that the two maps of denoms hold a directory, and
`Represents` that the store holds a registry and nothing else: every token under its key, one entry
of the owner index for it, and a counter with the number of tokens of each class.

The keys are not escaped, so a store can hold a registry only if no id of a class, closed by the
delimiter, begins another one (`Directory.Unambiguous`). Then every operation of the keeper that
succeeds does to the registry what it should (`Represents.issue`, `Represents.mintNFTUnverified`,
`Represents.editNFT`, `Represents.transferOwner`, `Represents.burnNFTUnverified`).
-/

set_option autoImplicit false

namespace ChainMain.Nft

open Foundations Texts Outcomes OrderedStore EncodedStore

/-! ### Keys -/

theorem keyNFT_eq {denomID : Text} (h : denomID ≠ []) (tokenID : Text) :
    keyNFT denomID tokenID = nftMark ++ delimiter ++ (denomID ++ delimiter ++ tokenID) := by
  have hdenom : denomID.isEmpty = false := by simpa using h
  cases tokenID <;> simp [keyNFT, hdenom]

theorem keyOwner_eq (C : AddressCodec) (a : AccAddress) {denomID : Text} (h : denomID ≠ [])
    (tokenID : Text) :
    keyOwner C (some a) denomID tokenID =
      ownersMark ++ delimiter ++ (C.string a ++ '/' :: (denomID ++ delimiter ++ tokenID)) := by
  have hdenom : denomID.isEmpty = false := by simpa using h
  cases tokenID <;> simp [keyOwner, hdenom, delimiter]

theorem keyDenomID_injective : Function.Injective keyDenomID :=
  fun _ _ h ↦ List.append_cancel_left h

theorem keyDenomName_injective : Function.Injective keyDenomName :=
  fun _ _ h ↦ List.append_cancel_left h

theorem keyCollection_injective : Function.Injective keyCollection :=
  fun _ _ h ↦ List.append_cancel_left h

/-! ### The registry -/

/-- A class: what its denom says besides the id. -/
@[ext]
structure Class where
  name : Text
  schema : Text
  uri : Text
  creator : AccAddress

/-- A token: what its NFT says besides the id. -/
@[ext]
structure Token where
  name : Text
  uri : Text
  data : Text
  owner : AccAddress

def Class.denom (C : AddressCodec) (id : Text) (c : Class) : Denom :=
  Denom.new C id c.name c.schema c.uri c.creator

def Token.record (C : AddressCodec) (id : Text) (tok : Token) : BaseNFT :=
  BaseNFT.new C id tok.name tok.owner tok.uri tok.data

theorem Class.denom_injective (C : AddressCodec) (id : Text) :
    Function.Injective (Class.denom C id) := by
  intro c c' h
  obtain ⟨-, hname, hschema, hcreator, huri⟩ := Denom.mk.inj h
  exact Class.ext hname hschema huri (C.string_injective hcreator)

theorem Token.record_injective (C : AddressCodec) (id : Text) :
    Function.Injective (Token.record C id) := by
  intro tok tok' h
  obtain ⟨-, hname, huri, hdata, howner⟩ := BaseNFT.mk.inj h
  exact Token.ext hname huri hdata (C.string_injective howner)

structure Directory where
  classes : Text → Option Class
  named : ∀ {d d' : Text} {c c' : Class}, classes d = some c → classes d' = some c' →
    c.name = c'.name → d = d'

namespace Directory

def empty : Directory where
  classes := fun _ ↦ none
  named := by simp

def issue (D : Directory) (d : Text) (c : Class)
    (hname : ∀ d' c', D.classes d' = some c' → c'.name ≠ c.name) : Directory where
  classes := Function.update D.classes d (some c)
  named := by
    intro d₁ d₂ c₁ c₂ h₁ h₂ heq
    by_cases hd₁ : d₁ = d
    · by_cases hd₂ : d₂ = d
      · rw [hd₁, hd₂]
      · rw [hd₁, Function.update_self] at h₁
        rw [Function.update_of_ne hd₂] at h₂
        exact absurd (Option.some.inj h₁ ▸ heq.symm) (hname d₂ c₂ h₂)
    · rw [Function.update_of_ne hd₁] at h₁
      by_cases hd₂ : d₂ = d
      · rw [hd₂, Function.update_self] at h₂
        exact absurd (Option.some.inj h₂ ▸ heq) (hname d₁ c₁ h₁)
      · rw [Function.update_of_ne hd₂] at h₂
        exact D.named h₁ h₂ heq

/-- The name index: the class id, if the class has the name. -/
def ofName (D : Directory) (i : Text × Text) : Option Text :=
  if (D.classes i.1).map Class.name = some i.2 then some i.1 else none

/-- No id of a class, closed by the delimiter, begins another one. -/
def Unambiguous (D : Directory) : Prop :=
  PrefixFree {field | ∃ d, (D.classes d).isSome ∧ field = d ++ delimiter}

variable {D : Directory} {d : Text} {c : Class}

theorem Unambiguous.of_issue {hname : ∀ d' c', D.classes d' = some c' → c'.name ≠ c.name}
    (h : (D.issue d c hname).Unambiguous) : D.Unambiguous := by
  refine h.mono ?_
  rintro _ ⟨d', hd', rfl⟩
  refine ⟨d', ?_, rfl⟩
  by_cases hdd : d' = d
  · simp [issue, hdd]
  · simpa [issue, hdd] using hd'

@[simp] theorem classes_issue (hname : ∀ d' c', D.classes d' = some c' → c'.name ≠ c.name) :
    (D.issue d c hname).classes = Function.update D.classes d (some c) := rfl

theorem ofName_eq_some {i : Text × Text} {id : Text} :
    D.ofName i = some id ↔ (∃ c, D.classes i.1 = some c ∧ c.name = i.2) ∧ i.1 = id := by
  unfold ofName
  rw [← Option.map_eq_some_iff]
  split_ifs with h <;> simp [h]

theorem ofName_issue (hid : D.classes d = none)
    (hname : ∀ d' c', D.classes d' = some c' → c'.name ≠ c.name) (j : Text × Text) :
    (D.issue d c hname).ofName j = Function.update D.ofName (d, c.name) (some d) j := by
  by_cases hj : j = (d, c.name)
  · subst hj
    simp [ofName]
  · rw [Function.update_of_ne hj]
    by_cases hjd : j.1 = d
    · have hne : c.name ≠ j.2 := fun h ↦ hj (Prod.ext hjd h.symm)
      simp [ofName, hjd, hid, hne]
    · simp [ofName, Function.update_of_ne hjd]

end Directory

/-- Classes with different names, and tokens in them. -/
structure Registry extends Directory where
  tokens : Text × Text → Option Token
  inhabited : ∀ {i : Text × Text} {tok : Token}, tokens i = some tok → (classes i.1).isSome
  finite : {i | (tokens i).isSome}.Finite

namespace Registry

def empty : Registry where
  toDirectory := .empty
  tokens := fun _ ↦ none
  inhabited := by simp
  finite := by simp

def issue (R : Registry) (d : Text) (c : Class)
    (hname : ∀ d' c', R.classes d' = some c' → c'.name ≠ c.name) : Registry where
  toDirectory := R.toDirectory.issue d c hname
  tokens := R.tokens
  inhabited := by
    intro i tok htok
    by_cases hd : i.1 = d
    · rw [Directory.classes_issue, hd, Function.update_self]
      rfl
    · rw [Directory.classes_issue, Function.update_of_ne hd]
      exact R.inhabited htok
  finite := R.finite

def put (R : Registry) (i : Text × Text) (tok : Token) (hclass : (R.classes i.1).isSome) :
    Registry where
  toDirectory := R.toDirectory
  tokens := Function.update R.tokens i (some tok)
  inhabited := by
    intro j tok' htok
    by_cases hj : j = i
    · exact hj ▸ hclass
    · rw [Function.update_of_ne hj] at htok
      exact R.inhabited htok
  finite := by
    refine (R.finite.insert i).subset fun j hj ↦ ?_
    by_cases hji : j = i
    · exact Set.mem_insert_iff.mpr (Or.inl hji)
    · have hbefore : (Function.update R.tokens i (some tok) j).isSome := hj
      rw [Function.update_of_ne hji] at hbefore
      exact Set.mem_insert_of_mem i hbefore

def remove (R : Registry) (i : Text × Text) : Registry where
  toDirectory := R.toDirectory
  tokens := Function.update R.tokens i none
  inhabited := by
    intro j tok htok
    by_cases hj : j = i
    · rw [hj, Function.update_self] at htok
      cases htok
    · rw [Function.update_of_ne hj] at htok
      exact R.inhabited htok
  finite := by
    refine R.finite.subset fun j hj ↦ ?_
    by_cases hji : j = i
    · have hafter : (Function.update R.tokens i none j).isSome := hj
      rw [hji, Function.update_self] at hafter
      cases hafter
    · have hafter : (Function.update R.tokens i none j).isSome := hj
      rw [Function.update_of_ne hji] at hafter
      exact hafter

def tokenIds (R : Registry) (d : Text) : Set Text := {t | (R.tokens (d, t)).isSome}

/-- The number of tokens of a class. -/
noncomputable def supply (R : Registry) (d : Text) : ℕ := (R.tokenIds d).ncard

theorem finite_tokenIds (R : Registry) (d : Text) : (R.tokenIds d).Finite :=
  R.finite.preimage (f := fun t ↦ (d, t)) fun _ _ _ _ h ↦ (Prod.mk.inj h).2

/-- The owner index: the token id, if the account owns the token. -/
def owned (R : Registry) (i : AccAddress × Text × Text) : Option Text :=
  if (R.tokens i.2).map Token.owner = some i.1 then some i.2.2 else none

/-- The supply counter of a class, absent at zero. -/
noncomputable def counter (R : Registry) (d : Text) : Option ℕ :=
  if R.supply d = 0 then none else some (R.supply d)

variable {R : Registry} {d t : Text} {i : Text × Text} {tok old : Token}

@[simp] theorem toDirectory_issue {c : Class}
    (hname : ∀ d' c', R.classes d' = some c' → c'.name ≠ c.name) :
    (R.issue d c hname).toDirectory = R.toDirectory.issue d c hname := rfl

@[simp] theorem tokens_issue {c : Class}
    (hname : ∀ d' c', R.classes d' = some c' → c'.name ≠ c.name) :
    (R.issue d c hname).tokens = R.tokens := rfl

@[simp] theorem toDirectory_put (hclass : (R.classes i.1).isSome) :
    (R.put i tok hclass).toDirectory = R.toDirectory := rfl

@[simp] theorem tokens_put (hclass : (R.classes i.1).isSome) :
    (R.put i tok hclass).tokens = Function.update R.tokens i (some tok) := rfl

@[simp] theorem toDirectory_remove : (R.remove i).toDirectory = R.toDirectory := rfl

@[simp] theorem tokens_remove : (R.remove i).tokens = Function.update R.tokens i none := rfl

/-! ### How the indexes move -/

theorem owned_eq_some {j : AccAddress × Text × Text} {id : Text} :
    R.owned j = some id ↔ (R.tokens j.2).map Token.owner = some j.1 ∧ j.2.2 = id := by
  unfold owned
  split_ifs with h <;> simp [h]

theorem owned_put (hclass : (R.classes i.1).isSome)
    (hold : ∀ a, (R.tokens i).map Token.owner = some a → a = tok.owner)
    (j : AccAddress × Text × Text) :
    (R.put i tok hclass).owned j = Function.update R.owned (tok.owner, i) (some i.2) j := by
  by_cases hj : j = (tok.owner, i)
  · subst hj
    simp [owned, put]
  · rw [Function.update_of_ne hj]
    unfold owned put
    by_cases hji : j.2 = i
    · have hne : j.1 ≠ tok.owner := fun h ↦ hj (Prod.ext h hji)
      have hbefore : (R.tokens j.2).map Token.owner ≠ some j.1 := by
        rw [hji]
        exact fun h ↦ hne (hold j.1 h)
      rw [if_neg hbefore, if_neg]
      simpa [hji] using hne.symm
    · simp only [Function.update_of_ne hji]

/-- The entry of the old owner goes, and that of the new owner comes. -/
theorem owned_swap (tok : Token) (hclass : (R.classes i.1).isSome) (hold : R.tokens i = some old)
    (j : AccAddress × Text × Text) :
    (R.put i tok hclass).owned j =
      Function.update (Function.update R.owned (old.owner, i) none) (tok.owner, i)
        (some i.2) j := by
  by_cases hj : j = (tok.owner, i)
  · subst hj
    simp [owned, put]
  · rw [Function.update_of_ne hj]
    by_cases hji : j.2 = i
    · have hne : tok.owner ≠ j.1 := fun h ↦ hj (Prod.ext h.symm hji)
      have hnone : (R.put i tok hclass).owned j = none := by
        simp [owned, put, hji, hne]
      rw [hnone]
      by_cases hjo : j = (old.owner, i)
      · rw [hjo, Function.update_self]
      · have hne' : old.owner ≠ j.1 := fun h ↦ hjo (Prod.ext h.symm hji)
        rw [Function.update_of_ne hjo]
        simp [owned, hji, hold, hne']
    · have hjo : j ≠ (old.owner, i) := fun h ↦ hji (by rw [h])
      rw [Function.update_of_ne hjo]
      simp [owned, put, Function.update_of_ne hji]

theorem owned_remove (hold : R.tokens i = some old) (j : AccAddress × Text × Text) :
    (R.remove i).owned j = Function.update R.owned (old.owner, i) none j := by
  by_cases hj : j = (old.owner, i)
  · subst hj
    simp [owned, remove]
  · rw [Function.update_of_ne hj]
    by_cases hji : j.2 = i
    · have hne : old.owner ≠ j.1 := fun h ↦ hj (Prod.ext h.symm hji)
      simp [owned, remove, hji, hold, hne]
    · simp [owned, remove, Function.update_of_ne hji]

theorem tokenIds_put (hclass : (R.classes i.1).isSome) (d : Text) :
    (R.put i tok hclass).tokenIds d =
      if d = i.1 then insert i.2 (R.tokenIds d) else R.tokenIds d := by
  ext t
  by_cases hi : (d, t) = i
  · subst hi
    simp [tokenIds, put]
  · have hiff : t ∈ (R.put i tok hclass).tokenIds d ↔ t ∈ R.tokenIds d := by
      simp [tokenIds, put, Function.update_of_ne hi]
    rw [hiff]
    split_ifs with hd
    · have hne : t ≠ i.2 := fun h ↦ hi (Prod.ext hd h)
      simp [hne]
    · rfl

theorem supply_put_new (tok : Token) (hclass : (R.classes i.1).isSome) (hnew : R.tokens i = none)
    (d : Text) :
    (R.put i tok hclass).supply d = R.supply d + if d = i.1 then 1 else 0 := by
  unfold supply
  rw [tokenIds_put]
  split_ifs with hd
  · rw [Set.ncard_insert_of_notMem _ (R.finite_tokenIds d)]
    subst hd
    simp [tokenIds, hnew]
  · rfl

theorem supply_put_old (hclass : (R.classes i.1).isSome) (hold : (R.tokens i).isSome) (d : Text) :
    (R.put i tok hclass).supply d = R.supply d := by
  unfold supply
  rw [tokenIds_put]
  split_ifs with hd
  · subst hd
    rw [Set.insert_eq_of_mem]
    exact hold
  · rfl

theorem counter_put_new (hclass : (R.classes i.1).isSome) (hnew : R.tokens i = none) (d : Text) :
    (R.put i tok hclass).counter d = Function.update R.counter i.1 (some (R.supply i.1 + 1)) d := by
  unfold counter
  rw [supply_put_new tok hclass hnew]
  by_cases hd : d = i.1
  · subst hd
    simp
  · simp [hd]

theorem supply_remove (hold : R.tokens i = some old) (d : Text) :
    (R.remove i).supply d + (if d = i.1 then 1 else 0) = R.supply d := by
  have hclass : ((R.remove i).classes i.1).isSome := R.inhabited hold
  have hnew : (R.remove i).tokens i = none := Function.update_self ..
  have hback : ((R.remove i).put i old hclass).tokenIds = R.tokenIds := by
    have htokens : ((R.remove i).put i old hclass).tokens = R.tokens := by
      simp [put, remove, ← hold]
    funext d
    unfold tokenIds
    rw [htokens]
  have hput := supply_put_new old hclass hnew d
  unfold supply at hput ⊢
  rw [← hput, hback]

theorem counter_remove (hold : R.tokens i = some old) (d : Text) :
    (R.remove i).counter d = Function.update R.counter i.1
      (if R.supply i.1 - 1 = 0 then none else some (R.supply i.1 - 1)) d := by
  have hremove := supply_remove hold d
  unfold counter
  by_cases hd : d = i.1
  · subst hd
    rw [if_pos rfl] at hremove
    rw [Function.update_self, ← hremove, Nat.add_sub_cancel]
  · rw [if_neg hd, Nat.add_zero] at hremove
    rw [Function.update_of_ne hd, hremove]

end Registry

/-! ### Stores that hold a registry -/

/-- The two maps of denoms hold the directory and nothing else. -/
structure RepresentsClasses (C : AddressCodec) (s : Store) (D : Directory) : Prop where
  nonempty : ∀ d, (D.classes d).isSome → d ≠ []
  denoms : Encodes s.denoms keyDenomID fun d ↦ (D.classes d).map (Class.denom C d)
  denomNames : Encodes s.denomNames (fun i ↦ keyDenomName i.2) D.ofName

namespace RepresentsClasses

variable {C : AddressCodec} {s s' : Store} {D : Directory} {d : Text} {a : AccAddress}

theorem empty : RepresentsClasses C Store.empty Directory.empty where
  nonempty := by simp [Directory.empty]
  denoms := Encodes.empty.congr fun _ ↦ rfl
  denomNames := Encodes.empty.congr fun _ ↦ rfl

theorem getElem?_denoms (h : RepresentsClasses C s D) (d : Text) :
    s.denoms[keyDenomID d]? = (D.classes d).map (Class.denom C d) :=
  h.denoms.getElem? (.of_injective keyDenomID_injective _ d)

theorem hasDenomID_iff (h : RepresentsClasses C s D) :
    hasDenomID s d = true ↔ (D.classes d).isSome := by
  rw [hasDenomID, Std.ExtTreeMap.contains_eq_isSome_getElem?, h.getElem?_denoms, Option.isSome_map]

theorem hasDenomNm_iff (h : RepresentsClasses C s D) {name : Text} :
    hasDenomNm s name = true ↔ ∃ d c, D.classes d = some c ∧ c.name = name := by
  rw [hasDenomNm, Std.ExtTreeMap.contains_eq_isSome_getElem?, Option.isSome_iff_exists]
  constructor
  · rintro ⟨id, hid⟩
    obtain ⟨⟨d, name'⟩, hkey, hname⟩ := (h.denomNames _ _).mp hid
    obtain rfl := keyDenomName_injective hkey
    obtain ⟨⟨c, hc, hcname⟩, -⟩ := Directory.ofName_eq_some.mp hname
    exact ⟨d, c, hc, hcname⟩
  · rintro ⟨d, c, hc, rfl⟩
    refine ⟨d, (h.denomNames _ _).mpr ⟨(d, c.name), rfl, ?_⟩⟩
    exact Directory.ofName_eq_some.mpr ⟨⟨c, hc, rfl⟩, rfl⟩

theorem isDenomCreator_eq_ok (h : RepresentsClasses C s D) {denom : Denom} :
    isDenomCreator C s d a = .ok denom ↔
      ∃ c, D.classes d = some c ∧ c.creator = a ∧ c.denom C d = denom := by
  unfold isDenomCreator getDenom
  simp only [bind_eq_ok, expect_eq_ok, ensure_eq_ok, pure_eq_ok, h.getElem?_denoms,
    Option.map_eq_some_iff, decide_eq_true_eq]
  constructor
  · rintro ⟨_, ⟨c, hc, rfl⟩, creator, hcreator, -, rfl, rfl⟩
    refine ⟨c, hc, ?_, rfl⟩
    exact Option.some.inj ((C.fromBech32_string c.creator).symm.trans hcreator)
  · rintro ⟨c, hc, rfl, rfl⟩
    exact ⟨_, ⟨c, hc, rfl⟩, c.creator, C.fromBech32_string _, ⟨⟩, rfl, rfl⟩

theorem keyFree_name {c : Class} (hname : ∀ d' c', D.classes d' = some c' → c'.name ≠ c.name) :
    KeyFree (fun i : Text × Text ↦ keyDenomName i.2) D.ofName (d, c.name) := by
  rintro ⟨d', name⟩ id hid heq
  obtain ⟨⟨c', hc', hc'name⟩, -⟩ := Directory.ofName_eq_some.mp hid
  exact absurd (hc'name.trans (keyDenomName_injective heq)) (hname d' c' hc')

/-- `SetDenom` succeeds for a new id with a new name, and adds the class. -/
theorem setDenom_eq_ok {c : Class} (h : RepresentsClasses C s D) :
    setDenom s (c.denom C d) = .ok s' ↔
      D.classes d = none ∧ (∀ d' c', D.classes d' = some c' → c'.name ≠ c.name) ∧
        s' = { s with
          denoms := s.denoms.insert (keyDenomID d) (c.denom C d)
          denomNames := s.denomNames.insert (keyDenomName c.name) d } := by
  have hid : hasDenomID s (c.denom C d).id = false ↔ D.classes d = none := by
    rw [← Option.not_isSome_iff_eq_none, ← h.hasDenomID_iff, Bool.not_eq_true]
    rfl
  have hname : hasDenomNm s (c.denom C d).name = false ↔
      ∀ d' c', D.classes d' = some c' → c'.name ≠ c.name := by
    rw [← Bool.not_eq_true, h.hasDenomNm_iff]
    push Not
    rfl
  unfold setDenom
  simp only [bind_eq_ok, ensure_eq_ok, pure_eq_ok, Bool.not_eq_true']
  constructor
  · rintro ⟨-, hnoid, -, hnoname, rfl⟩
    exact ⟨hid.mp hnoid, hname.mp hnoname, rfl⟩
  · rintro ⟨hnoid, hnoname, rfl⟩
    exact ⟨⟨⟩, hid.mpr hnoid, ⟨⟩, hname.mpr hnoname, rfl⟩

theorem issue {c : Class} (h : RepresentsClasses C s D) (hne : d ≠ []) (hid : D.classes d = none)
    (hname : ∀ d' c', D.classes d' = some c' → c'.name ≠ c.name) :
    RepresentsClasses C { s with
      denoms := s.denoms.insert (keyDenomID d) (c.denom C d)
      denomNames := s.denomNames.insert (keyDenomName c.name) d } (D.issue d c hname) where
  nonempty := by
    intro d' hd'
    by_cases hdd : d' = d
    · exact hdd ▸ hne
    · rw [Directory.classes_issue, Function.update_of_ne hdd] at hd'
      exact h.nonempty d' hd'
  denoms := by
    refine (h.denoms.insert (.of_injective keyDenomID_injective _ d) (c.denom C d)).congr
      fun d' ↦ ?_
    exact Function.apply_update (fun d' ↦ Option.map (Class.denom C d')) D.classes d (some c) d'
  denomNames := (h.denomNames.insert (keyFree_name hname) d).congr (D.ofName_issue hid hname)

theorem directory_unique {D' : Directory} (h : RepresentsClasses C s D)
    (h' : RepresentsClasses C s D') : D = D' := by
  have hclasses : D.classes = D'.classes := by
    funext d
    refine Option.map_injective (Class.denom_injective C d) ?_
    rw [← h.getElem?_denoms, ← h'.getElem?_denoms]
  cases D
  cases D'
  cases hclasses
  rfl

end RepresentsClasses

/-! ### Operations on tokens leave the denoms alone -/

/-- The maps of denoms are the same in two stores. -/
structure SameDenoms (s s' : Store) : Prop where
  denoms : s'.denoms = s.denoms
  denomNames : s'.denomNames = s.denomNames

section SameDenoms

variable {C : AddressCodec} {s s' : Store} {d t name uri data : Text} {a b : AccAddress}

theorem sameDenoms_decreaseSupply (s : Store) (d : Text) : SameDenoms s (decreaseSupply s d) := by
  unfold decreaseSupply
  dsimp only
  split_ifs <;> exact ⟨rfl, rfl⟩

theorem sameDenoms_mintNFT (h : mintNFT C s d t name uri data a b = .ok s') : SameDenoms s s' := by
  unfold mintNFT mintNFTUnverified at h
  simp only [bind_eq_ok, pure_eq_ok] at h
  obtain ⟨-, -, -, -, -, -, rfl⟩ := h
  exact ⟨rfl, rfl⟩

theorem sameDenoms_editNFT (h : editNFT C s d t name uri data a = .ok s') : SameDenoms s s' := by
  unfold editNFT at h
  simp only [bind_eq_ok, pure_eq_ok] at h
  obtain ⟨-, -, nft, -, -, -, rfl⟩ := h
  exact ⟨rfl, rfl⟩

theorem sameDenoms_transferOwner (h : transferOwner C s d t a b = .ok s') : SameDenoms s s' := by
  unfold transferOwner at h
  simp only [bind_eq_ok, pure_eq_ok] at h
  obtain ⟨-, -, nft, -, rfl⟩ := h
  exact ⟨rfl, rfl⟩

theorem sameDenoms_burnNFTUnverified (h : burnNFTUnverified C s d t a = .ok s') :
    SameDenoms s s' := by
  unfold burnNFTUnverified at h
  simp only [bind_eq_ok, pure_eq_ok] at h
  obtain ⟨-, -, nft, -, rfl⟩ := h
  have hcounter := sameDenoms_decreaseSupply (deleteOwner C (deleteNFT s d nft) d t a) d
  exact ⟨hcounter.denoms, hcounter.denomNames⟩

theorem RepresentsClasses.congr {D : Directory} (h : RepresentsClasses C s D)
    (hsame : SameDenoms s s') :
    RepresentsClasses C s' D where
  nonempty := h.nonempty
  denoms := hsame.denoms ▸ h.denoms
  denomNames := hsame.denomNames ▸ h.denomNames

end SameDenoms

/-- The store holds the registry and nothing else. -/
structure Represents (C : AddressCodec) (s : Store) (R : Registry) : Prop
    extends RepresentsClasses C s R.toDirectory where
  unambiguous : R.Unambiguous
  nfts : Encodes s.nfts (fun i ↦ keyNFT i.1 i.2) fun i ↦ (R.tokens i).map (Token.record C i.2)
  owners : Encodes s.owners (fun i ↦ keyOwner C (some i.1) i.2.1 i.2.2) R.owned
  collections : Encodes s.collections keyCollection R.counter

namespace Represents

variable {C : AddressCodec} {s s' : Store} {R : Registry} {d t : Text} {a b : AccAddress}

theorem empty : Represents C Store.empty Registry.empty where
  toRepresentsClasses := .empty
  unambiguous := by
    rintro _ ⟨d, hd, -⟩
    simp [Registry.empty, Directory.empty] at hd
  nfts := Encodes.empty.congr fun _ ↦ rfl
  owners := Encodes.empty.congr fun _ ↦ rfl
  collections := Encodes.empty.congr fun d ↦ by
    simp [Registry.counter, Registry.supply, Registry.tokenIds, Registry.empty]

/-! ### Keys do not meet -/

/-- The key of a token of an existing class determines the class and the token. -/
theorem classToken_inj (h : Represents C s R) {d' t' : Text} (hd : (R.classes d).isSome)
    (hd' : (R.classes d').isSome) (heq : d ++ delimiter ++ t = d' ++ delimiter ++ t') :
    d = d' ∧ t = t' := by
  obtain ⟨hfield, htoken⟩ := h.unambiguous.append_inj ⟨d, hd, rfl⟩ ⟨d', hd', rfl⟩ heq
  exact ⟨List.append_cancel_right hfield, htoken⟩

theorem keyFree_nft (h : Represents C s R) (hd : (R.classes d).isSome) (t : Text) :
    KeyFree (fun i : Text × Text ↦ keyNFT i.1 i.2) (fun i ↦ (R.tokens i).map (Token.record C i.2))
      (d, t) := by
  rintro ⟨d', t'⟩ nft hnft heq
  obtain ⟨tok, htok, -⟩ := Option.map_eq_some_iff.mp hnft
  have hd' : (R.classes d').isSome := R.inhabited htok
  change keyNFT d' t' = keyNFT d t at heq
  rw [keyNFT_eq (h.nonempty d' hd'), keyNFT_eq (h.nonempty d hd)] at heq
  obtain ⟨rfl, rfl⟩ := h.classToken_inj hd' hd (List.append_cancel_left heq)
  rfl

theorem keyFree_owner (h : Represents C s R) (hd : (R.classes d).isSome) (a : AccAddress)
    (t : Text) :
    KeyFree (fun i : AccAddress × Text × Text ↦ keyOwner C (some i.1) i.2.1 i.2.2) R.owned
      (a, d, t) := by
  rintro ⟨a', d', t'⟩ id howned heq
  obtain ⟨howner, -⟩ := Registry.owned_eq_some.mp howned
  obtain ⟨tok, htok, -⟩ := Option.map_eq_some_iff.mp howner
  have hd' : (R.classes d').isSome := R.inhabited htok
  change keyOwner C (some a') d' t' = keyOwner C (some a) d t at heq
  rw [keyOwner_eq C a' (h.nonempty d' hd'), keyOwner_eq C a (h.nonempty d hd)] at heq
  obtain ⟨haddress, hrest⟩ := append_cons_inj (C.delimiter_not_mem a') (C.delimiter_not_mem a)
    (List.append_cancel_left heq)
  obtain rfl := C.string_injective haddress
  obtain ⟨rfl, rfl⟩ := h.classToken_inj hd' hd hrest
  rfl

/-! ### Reading -/

theorem getElem?_nfts (h : Represents C s R) (hd : (R.classes d).isSome) (t : Text) :
    s.nfts[keyNFT d t]? = (R.tokens (d, t)).map (Token.record C t) :=
  h.nfts.getElem? (i := (d, t)) (h.keyFree_nft hd t)

theorem hasNFT_iff (h : Represents C s R) (hd : (R.classes d).isSome) :
    hasNFT s d t = true ↔ (R.tokens (d, t)).isSome := by
  rw [hasNFT, Std.ExtTreeMap.contains_eq_isSome_getElem?, h.getElem?_nfts hd, Option.isSome_map]

theorem getTotalSupply_eq (h : Represents C s R) (d : Text) : getTotalSupply s d = R.supply d := by
  rw [getTotalSupply, h.collections.getElem? (.of_injective keyCollection_injective _ d)]
  unfold Registry.counter
  split_ifs with hzero
  · exact hzero.symm
  · rfl

theorem isOwner_eq_ok (h : Represents C s R) (hd : (R.classes d).isSome) {nft : BaseNFT} :
    isOwner C s d t a = .ok nft ↔
      ∃ tok, R.tokens (d, t) = some tok ∧ tok.owner = a ∧ tok.record C t = nft := by
  unfold isOwner getNFT BaseNFT.getOwner
  simp only [bind_eq_ok, expect_eq_ok, ensure_eq_ok, pure_eq_ok, h.getElem?_nfts hd,
    Option.map_eq_some_iff, decide_eq_true_eq]
  constructor
  · rintro ⟨_, ⟨tok, htok, rfl⟩, owner, howner, -, rfl, rfl⟩
    refine ⟨tok, htok, ?_, rfl⟩
    exact Option.some.inj ((C.fromBech32_string tok.owner).symm.trans howner)
  · rintro ⟨tok, htok, rfl, rfl⟩
    exact ⟨_, ⟨tok, htok, rfl⟩, tok.owner, C.fromBech32_string _, ⟨⟩, rfl, rfl⟩

theorem registry_unique {R' : Registry} (h : Represents C s R) (h' : Represents C s R') :
    R = R' := by
  have hdirectory := h.toRepresentsClasses.directory_unique h'.toRepresentsClasses
  have htokens : R.tokens = R'.tokens := by
    funext ⟨d, t⟩
    by_cases hd : (R.classes d).isSome
    · refine Option.map_injective (Token.record_injective C t) ?_
      rw [← h.getElem?_nfts hd, ← h'.getElem?_nfts (hdirectory ▸ hd)]
    · have hnone : ∀ R₀ : Registry, R₀.toDirectory = R.toDirectory → R₀.tokens (d, t) = none := by
        intro R₀ hR₀
        rw [← Option.not_isSome_iff_eq_none, Option.isSome_iff_exists]
        rintro ⟨tok, htok⟩
        exact hd (hR₀ ▸ R₀.inhabited htok)
      rw [hnone R rfl, hnone R' hdirectory.symm]
  cases R
  cases R'
  cases hdirectory
  cases htokens
  rfl

/-! ### Writing -/

theorem issue {c : Class} (h : Represents C s R) (hne : d ≠ []) (hid : R.classes d = none)
    (hname : ∀ d' c', R.classes d' = some c' → c'.name ≠ c.name)
    (hfree : (R.toDirectory.issue d c hname).Unambiguous) :
    Represents C { s with
      denoms := s.denoms.insert (keyDenomID d) (c.denom C d)
      denomNames := s.denomNames.insert (keyDenomName c.name) d } (R.issue d c hname) where
  toRepresentsClasses := h.toRepresentsClasses.issue hne hid hname
  unambiguous := hfree
  nfts := h.nfts
  owners := h.owners
  collections := h.collections

theorem nfts_setNFT (h : Represents C s R) (hd : (R.classes d).isSome) (tok : Token) :
    Encodes (setNFT s d (tok.record C t)).nfts (fun i ↦ keyNFT i.1 i.2)
      fun i ↦ ((R.put (d, t) tok hd).tokens i).map (Token.record C i.2) := by
  refine (h.nfts.insert (i := (d, t)) (h.keyFree_nft hd t) (tok.record C t)).congr fun i ↦ ?_
  exact Function.apply_update (fun i ↦ Option.map (Token.record C i.2)) R.tokens (d, t) (some tok) i

theorem mintNFTUnverified {name uri data : Text} (h : Represents C s R)
    (hok : mintNFTUnverified C s d t name uri data a = .ok s') :
    R.tokens (d, t) = none ∧
      ∃ hclass, Represents C s' (R.put (d, t) ⟨name, uri, data, a⟩ hclass) := by
  unfold Nft.mintNFTUnverified at hok
  simp only [bind_eq_ok, ensure_eq_ok, pure_eq_ok, Bool.not_eq_true', ← Bool.not_eq_true] at hok
  obtain ⟨-, hclass, -, hno, rfl⟩ := hok
  rw [h.hasDenomID_iff] at hclass
  rw [h.hasNFT_iff hclass, Option.not_isSome_iff_eq_none] at hno
  refine ⟨hno, hclass, h.toRepresentsClasses.congr ⟨rfl, rfl⟩, h.unambiguous, ?_, ?_, ?_⟩
  · exact h.nfts_setNFT hclass ⟨name, uri, data, a⟩
  · refine (h.owners.insert (i := (a, d, t)) (h.keyFree_owner hclass a t) t).congr ?_
    exact R.owned_put hclass (by simp [hno])
  · have hcount := h.collections.insert (.of_injective keyCollection_injective _ d) (R.supply d + 1)
    rw [← h.getTotalSupply_eq d] at hcount
    refine hcount.congr fun d' ↦ ?_
    rw [h.getTotalSupply_eq d]
    exact R.counter_put_new hclass hno d'

theorem mintNFT {name uri data : Text} (h : Represents C s R)
    (hok : mintNFT C s d t name uri data b a = .ok s') :
    R.tokens (d, t) = none ∧ ∃ c hclass, R.classes d = some c ∧ c.creator = b ∧
      Represents C s' (R.put (d, t) ⟨name, uri, data, a⟩ hclass) := by
  obtain ⟨denom, hcreator, hmint⟩ := bind_eq_ok.mp hok
  obtain ⟨c, hc, hcb, -⟩ := h.isDenomCreator_eq_ok.mp hcreator
  obtain ⟨hnew, hclass, hafter⟩ := h.mintNFTUnverified hmint
  exact ⟨hnew, c, hclass, hc, hcb, hafter⟩

theorem setNFT {old : Token} (h : Represents C s R) (tok : Token) (hd : (R.classes d).isSome)
    (hold : R.tokens (d, t) = some old) (howner : tok.owner = old.owner) :
    Represents C (setNFT s d (tok.record C t)) (R.put (d, t) tok hd) where
  toRepresentsClasses := h.toRepresentsClasses.congr ⟨rfl, rfl⟩
  unambiguous := h.unambiguous
  nfts := h.nfts_setNFT hd tok
  owners := h.owners.congr fun i ↦ by
    unfold Registry.owned
    by_cases hi : i.2 = (d, t)
    · rw [Registry.tokens_put, hi, Function.update_self, hold, Option.map_some, Option.map_some,
        howner]
    · rw [Registry.tokens_put, Function.update_of_ne hi]
  collections := h.collections.congr fun d' ↦ by
    unfold Registry.counter
    rw [Registry.supply_put_old hd (by rw [hold]; rfl)]

theorem editNFT {name uri data : Text} (h : Represents C s R)
    (hok : editNFT C s d t name uri data a = .ok s') :
    ∃ (tok tok' : Token) (c : Class) (hclass : (R.classes d).isSome),
      R.tokens (d, t) = some tok ∧ tok.owner = a ∧ tok'.owner = a ∧ R.classes d = some c ∧
        c.creator = a ∧ tok'.record C t = (tok.record C t).edit name uri data ∧
        Represents C s' (R.put (d, t) tok' hclass) := by
  unfold Nft.editNFT at hok
  simp only [bind_eq_ok, ensure_eq_ok, pure_eq_ok] at hok
  obtain ⟨-, hclass, nft, howner, denom, hcreator, rfl⟩ := hok
  rw [h.hasDenomID_iff] at hclass
  obtain ⟨tok, htok, rfl, rfl⟩ := (h.isOwner_eq_ok hclass).mp howner
  obtain ⟨c, hc, hcreator, -⟩ := h.isDenomCreator_eq_ok.mp hcreator
  let tok' : Token := {
    name := if modified name then name else tok.name
    uri := if modified uri then uri else tok.uri
    data := if modified data then data else tok.data
    owner := tok.owner }
  exact ⟨tok, tok', c, hclass, htok, rfl, rfl, hc, hcreator, rfl, h.setNFT tok' hclass htok rfl⟩

theorem transferOwner (h : Represents C s R) (hok : transferOwner C s d t a b = .ok s') :
    ∃ (tok : Token) (hclass : (R.classes d).isSome), R.tokens (d, t) = some tok ∧ tok.owner = a ∧
      Represents C s' (R.put (d, t) { tok with owner := b } hclass) := by
  unfold Nft.transferOwner at hok
  simp only [bind_eq_ok, ensure_eq_ok, pure_eq_ok] at hok
  obtain ⟨-, hclass, nft, howner, rfl⟩ := hok
  rw [h.hasDenomID_iff] at hclass
  obtain ⟨tok, htok, rfl, rfl⟩ := (h.isOwner_eq_ok hclass).mp howner
  refine ⟨tok, hclass, htok, rfl, h.toRepresentsClasses.congr ⟨rfl, rfl⟩, h.unambiguous, ?_, ?_, ?_⟩
  · exact h.nfts_setNFT hclass { tok with owner := b }
  · have herase := h.owners.erase (i := (tok.owner, d, t)) (h.keyFree_owner hclass tok.owner t)
    have hfree : KeyFree (fun i : AccAddress × Text × Text ↦ keyOwner C (some i.1) i.2.1 i.2.2)
        (Function.update R.owned (tok.owner, d, t) none) (b, d, t) := by
      intro j id hj heq
      refine h.keyFree_owner hclass b t j id ?_ heq
      by_cases hjt : j = (tok.owner, d, t)
      · rw [hjt, Function.update_self] at hj
        cases hj
      · rwa [Function.update_of_ne hjt] at hj
    exact (herase.insert (i := (b, d, t)) hfree t).congr
      (R.owned_swap { tok with owner := b } hclass htok)
  · refine h.collections.congr fun d' ↦ ?_
    unfold Registry.counter
    rw [Registry.supply_put_old hclass (by rw [htok]; rfl)]

theorem removeNFT {tok : Token} (h : Represents C s R) (hd : (R.classes d).isSome)
    (htok : R.tokens (d, t) = some tok) :
    Represents C (removeNFT C s d t (tok.record C t) tok.owner) (R.remove (d, t)) := by
  -- the token that goes is counted, so the counter is not at zero
  have hpos : R.supply d ≠ 0 := by
    have hremove := R.supply_remove htok d
    rw [if_pos rfl] at hremove
    omega
  have hfree := KeyFree.of_injective keyCollection_injective R.counter d
  have hcounter : Encodes (if R.supply d - 1 = 0 then s.collections.erase (keyCollection d)
      else s.collections.insert (keyCollection d) (R.supply d - 1)) keyCollection
      (R.remove (d, t)).counter := by
    split_ifs with hlast
    · refine (h.collections.erase hfree).congr fun d' ↦ ?_
      rw [R.counter_remove htok, if_pos hlast]
    · refine (h.collections.insert hfree (R.supply d - 1)).congr fun d' ↦ ?_
      rw [R.counter_remove htok, if_neg hlast]
  have hstore : Nft.removeNFT C s d t (tok.record C t) tok.owner = { s with
      nfts := s.nfts.erase (keyNFT d t)
      owners := s.owners.erase (keyOwner C (some tok.owner) d t)
      collections := if R.supply d - 1 = 0 then s.collections.erase (keyCollection d)
        else s.collections.insert (keyCollection d) (R.supply d - 1) } := by
    have hsupply : getTotalSupply (deleteOwner C (deleteNFT s d (tok.record C t)) d t tok.owner) d =
        R.supply d := h.getTotalSupply_eq d
    unfold Nft.removeNFT decreaseSupply
    rw [hsupply, decrement, if_neg hpos]
    dsimp only
    split_ifs <;> rfl
  rw [hstore]
  refine ⟨h.toRepresentsClasses.congr ⟨rfl, rfl⟩, h.unambiguous, ?_, ?_, hcounter⟩
  · refine (h.nfts.erase (i := (d, t)) (h.keyFree_nft hd t)).congr fun i ↦ ?_
    exact Function.apply_update (fun i ↦ Option.map (Token.record C i.2)) R.tokens (d, t) none i
  · refine (h.owners.erase (i := (tok.owner, d, t)) (h.keyFree_owner hd tok.owner t)).congr ?_
    exact R.owned_remove htok

theorem burnNFTUnverified (h : Represents C s R) (hok : burnNFTUnverified C s d t a = .ok s') :
    ∃ tok : Token, R.tokens (d, t) = some tok ∧ tok.owner = a ∧
      Represents C s' (R.remove (d, t)) := by
  unfold Nft.burnNFTUnverified at hok
  simp only [bind_eq_ok, ensure_eq_ok, pure_eq_ok] at hok
  obtain ⟨-, hclass, nft, howner, rfl⟩ := hok
  rw [h.hasDenomID_iff] at hclass
  obtain ⟨tok, htok, rfl, rfl⟩ := (h.isOwner_eq_ok hclass).mp howner
  exact ⟨tok, htok, rfl, h.removeNFT hclass htok⟩

end Represents

end ChainMain.Nft
