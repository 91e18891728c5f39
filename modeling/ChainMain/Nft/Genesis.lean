import ChainMain.Nft.Scans

/-!
# The genesis of `x/nft`

`ExportGenesis` lists the collections of a store, `ValidateGenesis` checks such a list, and
`InitGenesis` builds a store from it, one denom and one NFT after the other. In between, the store
holds the part of the registry that has been listed so far (`PartOf`), so at the end it is the store
that was exported (`initGenesis_exportGenesis`).

The check asks more than the messages do: the name of a denom has to pass the rule for ids
(`validateGenesis_exportGenesis`).
-/

set_option autoImplicit false

namespace ChainMain.Nft

open Foundations Texts Outcomes OrderedStore EncodedStore

variable {C : AddressCodec} {s s' : Store} {R R' : Registry} {d t : Text}

/-! ### Validation -/

theorem getOwner_record (C : AddressCodec) (t : Text) (tok : Token) :
    (tok.record C t).getOwner C = .ok tok.owner :=
  expect_eq_ok.mpr (C.fromBech32_string tok.owner)

theorem validateGenesisNFT_record {tok : Token} :
    validateGenesisNFT C (tok.record C t) = .ok () ↔
      validateTokenID t = .ok () ∧ validateTokenURI tok.uri = .ok () := by
  have hbytes : (!tok.owner.bytes.isEmpty) = true := by simp [tok.owner.nonempty]
  unfold validateGenesisNFT
  rw [getOwner_record, ok_bind, hbytes, ensure, if_pos rfl, ok_bind]
  rw [bind_eq_ok]
  constructor
  · rintro ⟨_, hid, huri⟩
    exact ⟨hid, huri⟩
  · rintro ⟨hid, huri⟩
    exact ⟨(), hid, huri⟩

/-- An export is accepted if and only if the names of the denoms pass the rule for ids, and the ids
and the URIs of the tokens pass theirs. -/
theorem validateGenesis_exportGenesis (h : Represents C s R) :
    validateGenesis C (exportGenesis s) = .ok () ↔
      (∀ d c, R.classes d = some c → validateDenomID c.name = .ok ()) ∧
        ∀ d t tok, R.tokens (d, t) = some tok →
          validateTokenID t = .ok () ∧ validateTokenURI tok.uri = .ok () := by
  have hcollection : validateGenesis C (exportGenesis s) = .ok () ↔
      ∀ d c, R.classes d = some c → validateDenomID c.name = .ok () ∧
        ∀ nft ∈ getNFTs s d, validateGenesisNFT C nft = .ok () := by
    unfold validateGenesis exportGenesis getCollections
    rw [forM_eq_ok, List.forall_mem_map]
    constructor
    · intro hall d c hc
      have hdenom := hall _ ((mem_getDenoms h.toRepresentsClasses).mpr ⟨d, c, hc, rfl⟩)
      obtain ⟨_, hname, hnfts⟩ := bind_eq_ok.mp hdenom
      exact ⟨hname, forM_eq_ok.mp hnfts⟩
    · intro hall denom hdenom
      obtain ⟨d, c, hc, rfl⟩ := (mem_getDenoms h.toRepresentsClasses).mp hdenom
      obtain ⟨hname, hnfts⟩ := hall d c hc
      exact bind_eq_ok.mpr ⟨(), hname, forM_eq_ok.mpr hnfts⟩
  rw [hcollection]
  constructor
  · intro hall
    refine ⟨fun d c hc ↦ (hall d c hc).1, fun d t tok htok ↦ ?_⟩
    have hclass := R.inhabited htok
    obtain ⟨c, hc⟩ := Option.isSome_iff_exists.mp hclass
    have hlisted : tok.record C t ∈ getNFTs s d := by
      refine ((getNFTs_exact h hclass).1 _).mpr ?_
      rw [h.getElem?_nfts hclass]
      exact Option.map_eq_some_iff.mpr ⟨tok, htok, rfl⟩
    exact validateGenesisNFT_record.mp ((hall d c hc).2 _ hlisted)
  · rintro ⟨hnames, htokens⟩ d c hc
    have hclass : (R.classes d).isSome := Option.isSome_iff_exists.mpr ⟨c, hc⟩
    refine ⟨hnames d c hc, fun nft hnft ↦ ?_⟩
    rw [(getNFTs_exact h hclass).1, h.getElem?_nfts hclass, Option.map_eq_some_iff] at hnft
    obtain ⟨tok, htok, hrecord⟩ := hnft
    rw [← hrecord]
    exact validateGenesisNFT_record.mpr (htokens d nft.id tok htok)

/-! ### Parts of a registry -/

/-- `R'` has the classes and the tokens of `R` that are listed. -/
structure PartOf (R R' : Registry) (classIds : List Text) (tokenIds : List (Text × Text)) :
    Prop where
  classes : ∀ d, R'.classes d = if d ∈ classIds then R.classes d else none
  tokens : ∀ i, R'.tokens i = if i ∈ tokenIds then R.tokens i else none

namespace PartOf

variable {classIds : List Text} {tokenIds : List (Text × Text)}

theorem empty (R : Registry) : PartOf R .empty [] [] :=
  ⟨fun _ ↦ by simp [Registry.empty, Directory.empty], fun _ ↦ by simp [Registry.empty]⟩

theorem classes_eq_some (h : PartOf R R' classIds tokenIds) {c : Class}
    (hc : R'.classes d = some c) : d ∈ classIds ∧ R.classes d = some c := by
  rw [h.classes] at hc
  split_ifs at hc with hmem
  exact ⟨hmem, hc⟩

theorem unambiguous (h : PartOf R R' classIds tokenIds) (hR : R.Unambiguous) : R'.Unambiguous := by
  refine hR.mono ?_
  rintro _ ⟨d, hd, rfl⟩
  obtain ⟨c, hc⟩ := Option.isSome_iff_exists.mp hd
  exact ⟨d, Option.isSome_iff_exists.mpr ⟨c, (h.classes_eq_some hc).2⟩, rfl⟩

theorem issue (h : PartOf R R' classIds tokenIds) {c : Class} (hc : R.classes d = some c)
    (hd : d ∉ classIds) :
    R'.classes d = none ∧ ∃ hname : ∀ d' c', R'.classes d' = some c' → c'.name ≠ c.name,
      PartOf R (R'.issue d c hname) (d :: classIds) tokenIds := by
  have hname : ∀ d' c', R'.classes d' = some c' → c'.name ≠ c.name := by
    intro d' c' hc' heq
    obtain ⟨hmem, hc'⟩ := h.classes_eq_some hc'
    exact hd (R.named hc' hc heq ▸ hmem)
  refine ⟨by rw [h.classes, if_neg hd], hname, fun d' ↦ ?_, h.tokens⟩
  rw [Registry.toDirectory_issue, Directory.classes_issue]
  by_cases hdd : d' = d
  · rw [hdd, Function.update_self, if_pos List.mem_cons_self, hc]
  · rw [Function.update_of_ne hdd, h.classes]
    simp [hdd]

theorem put (h : PartOf R R' classIds tokenIds) {tok : Token} (htok : R.tokens (d, t) = some tok)
    (hclass : (R'.classes d).isSome) :
    PartOf R (R'.put (d, t) tok hclass) classIds ((d, t) :: tokenIds) := by
  refine ⟨h.classes, fun i ↦ ?_⟩
  rw [Registry.tokens_put]
  by_cases hi : i = (d, t)
  · rw [hi, Function.update_self, if_pos List.mem_cons_self, htok]
  · rw [Function.update_of_ne hi, h.tokens]
    simp [hi]

theorem eq (h : PartOf R R' classIds tokenIds) (hclasses : ∀ d, (R.classes d).isSome → d ∈ classIds)
    (htokens : ∀ i, (R.tokens i).isSome → i ∈ tokenIds) : R' = R := by
  have hc : R'.classes = R.classes := by
    funext d
    rw [h.classes]
    split_ifs with hd
    · rfl
    · exact (Option.not_isSome_iff_eq_none.mp fun hsome ↦ hd (hclasses d hsome)).symm
  have ht : R'.tokens = R.tokens := by
    funext i
    rw [h.tokens]
    split_ifs with hi
    · rfl
    · exact (Option.not_isSome_iff_eq_none.mp fun hsome ↦ hi (htokens i hsome)).symm
  cases R with | mk D tokens =>
  cases R' with | mk D' tokens' =>
  cases D
  cases D'
  cases hc
  cases ht
  rfl

end PartOf

/-! ### Import -/

/-- A token of an existing class that is not there yet can be minted. -/
theorem Represents.exists_mintNFTUnverified (h : Represents C s R) (hd : (R.classes d).isSome)
    (hnew : R.tokens (d, t) = none) (name uri data : Text) (a : AccAddress) :
    ∃ s', Nft.mintNFTUnverified C s d t name uri data a = .ok s' := by
  have hhas : hasNFT s d t = false := by
    rw [← Bool.not_eq_true, h.hasNFT_iff hd, hnew]
    simp
  unfold Nft.mintNFTUnverified
  rw [h.hasDenomID_iff.mpr hd, hhas]
  exact ⟨_, rfl⟩

theorem setGenesisCollection_eq_ok {denom : Denom} {nfts : List BaseNFT} {classIds : List Text}
    {tokenIds : List (Text × Text)} (hrep : Represents C s R')
    (hpart : PartOf R R' classIds tokenIds) (hclass : (R'.classes denom.id).isSome)
    (hnfts : ∀ nft ∈ nfts, ∃ tok, R.tokens (denom.id, nft.id) = some tok ∧
      nft = tok.record C nft.id)
    (hdistinct : (nfts.map BaseNFT.id).Nodup) (hnew : ∀ nft ∈ nfts, (denom.id, nft.id) ∉ tokenIds) :
    ∃ s' R'', setGenesisCollection C s ⟨denom, nfts⟩ = .ok s' ∧ Represents C s' R'' ∧
      PartOf R R'' classIds ((nfts.map fun nft ↦ (denom.id, nft.id)).reverse ++ tokenIds) := by
  unfold setGenesisCollection
  dsimp only
  induction nfts generalizing s R' tokenIds with
  | nil => exact ⟨s, R', rfl, hrep, hpart⟩
  | cons nft rest ih =>
    obtain ⟨tok, htok, hnft⟩ := hnfts nft List.mem_cons_self
    obtain ⟨hfirst, hdistinct⟩ := List.nodup_cons.mp hdistinct
    have hnone : R'.tokens (denom.id, nft.id) = none := by
      rw [hpart.tokens, if_neg (hnew nft List.mem_cons_self)]
    obtain ⟨s₁, hmint⟩ :=
      hrep.exists_mintNFTUnverified hclass hnone nft.name nft.uri nft.data tok.owner
    obtain ⟨-, _, hrep₁⟩ := hrep.mintNFTUnverified hmint
    have htokEq : (⟨nft.name, nft.uri, nft.data, tok.owner⟩ : Token) = tok := by
      rw [hnft]
      rfl
    rw [htokEq] at hrep₁
    have hnew₁ : ∀ nft' ∈ rest, (denom.id, nft'.id) ∉ (denom.id, nft.id) :: tokenIds := by
      intro nft' hmem hlisted
      rcases List.mem_cons.mp hlisted with heq | hbefore
      · exact hfirst (List.mem_map.mpr ⟨nft', hmem, (Prod.mk.inj heq).2⟩)
      · exact hnew nft' (List.mem_cons_of_mem _ hmem) hbefore
    obtain ⟨s', R'', hloop, hrep', hpart'⟩ := ih hrep₁ (hpart.put htok hclass) hclass
      (fun nft' hmem ↦ hnfts nft' (List.mem_cons_of_mem _ hmem)) hdistinct hnew₁
    refine ⟨s', R'', ?_, hrep', ?_⟩
    · have howner : nft.getOwner C = .ok tok.owner := by
        rw [hnft]
        exact getOwner_record C _ tok
      rw [List.foldlM_cons, howner, ok_bind, hmint, ok_bind]
      exact hloop
    · rw [List.map_cons, List.reverse_cons, List.append_assoc]
      exact hpart'

/-- What one turn of the loop of `InitGenesis` does. -/
theorem setCollection_eq_ok {s₀ : Store} {c : Class} {classIds : List Text}
    {tokenIds : List (Text × Text)} (h₀ : Represents C s₀ R) (hrep : Represents C s R')
    (hpart : PartOf R R' classIds tokenIds) (hc : R.classes d = some c) (hd : d ∉ classIds)
    (htokens : ∀ i ∈ tokenIds, i.1 ∈ classIds) :
    ∃ s' R'', (do
        let s ← setDenom s (c.denom C d)
        setGenesisCollection C s ⟨c.denom C d, getNFTs s₀ d⟩) = .ok s' ∧ Represents C s' R'' ∧
      PartOf R R'' (d :: classIds)
        (((getNFTs s₀ d).map fun nft ↦ (d, nft.id)).reverse ++ tokenIds) := by
  have hclass : (R.classes d).isSome := Option.isSome_iff_exists.mpr ⟨c, hc⟩
  obtain ⟨hlisted, hdistinct, -⟩ := getNFTs_exact h₀ hclass
  obtain ⟨hnone, hname, hpart₁⟩ := hpart.issue hc hd
  have hset := hrep.setDenom_eq_ok.mpr ⟨hnone, hname, rfl⟩
  have hrep₁ := hrep.issue (h₀.nonempty d hclass) hnone hname (hpart₁.unambiguous h₀.unambiguous)
  have hclass₁ : ((R'.issue d c hname).classes d).isSome := by
    rw [Registry.toDirectory_issue, Directory.classes_issue, Function.update_self]
    rfl
  have hnfts : ∀ nft ∈ getNFTs s₀ d,
      ∃ tok, R.tokens ((c.denom C d).id, nft.id) = some tok ∧ nft = tok.record C nft.id := by
    intro nft hnft
    rw [hlisted, h₀.getElem?_nfts hclass, Option.map_eq_some_iff] at hnft
    obtain ⟨tok, htok, hrecord⟩ := hnft
    exact ⟨tok, htok, hrecord.symm⟩
  obtain ⟨s', R'', hmint, hrep', hpart'⟩ := setGenesisCollection_eq_ok hrep₁ hpart₁ hclass₁ hnfts
    hdistinct fun nft _ hmem ↦ hd (htokens _ hmem)
  exact ⟨s', R'', bind_eq_ok.mpr ⟨_, hset, hmint⟩, hrep', hpart'⟩

theorem setCollections_eq_ok {s₀ : Store} {denoms : List Denom} {classIds : List Text}
    {tokenIds : List (Text × Text)} (h₀ : Represents C s₀ R) (hrep : Represents C s R')
    (hpart : PartOf R R' classIds tokenIds)
    (hdenoms : ∀ denom ∈ denoms, ∃ c, R.classes denom.id = some c ∧ denom = c.denom C denom.id)
    (hdistinct : (denoms.map Denom.id).Nodup) (hnew : ∀ denom ∈ denoms, denom.id ∉ classIds)
    (htokens : ∀ i ∈ tokenIds, i.1 ∈ classIds) :
    ∃ s' R'' classIds' tokenIds',
      (denoms.map fun denom ↦ (⟨denom, getNFTs s₀ denom.id⟩ : Collection)).foldlM
        (fun s collection ↦ do
        let s ← setDenom s collection.denom
        setGenesisCollection C s collection) s = .ok s' ∧
      Represents C s' R'' ∧ PartOf R R'' classIds' tokenIds' ∧
      (∀ d, d ∈ classIds' ↔ d ∈ denoms.map Denom.id ∨ d ∈ classIds) ∧
      ∀ i, i ∈ tokenIds' ↔
        (∃ denom ∈ denoms, ∃ nft ∈ getNFTs s₀ denom.id, i = (denom.id, nft.id)) ∨ i ∈ tokenIds := by
  induction denoms generalizing s R' classIds tokenIds with
  | nil => exact ⟨s, R', classIds, tokenIds, rfl, hrep, hpart, by simp, by simp⟩
  | cons denom rest ih =>
    obtain ⟨c, hc, hdenom⟩ := hdenoms denom List.mem_cons_self
    obtain ⟨hfirst, hdistinct⟩ := List.nodup_cons.mp hdistinct
    obtain ⟨s₁, R₁, hset, hrep₁, hpart₁⟩ :=
      setCollection_eq_ok h₀ hrep hpart hc (hnew denom List.mem_cons_self) htokens
    have hnew₁ : ∀ other ∈ rest, other.id ∉ denom.id :: classIds := by
      intro other hmem hlisted
      rcases List.mem_cons.mp hlisted with heq | hbefore
      · exact hfirst (List.mem_map.mpr ⟨other, hmem, heq⟩)
      · exact hnew other (List.mem_cons_of_mem _ hmem) hbefore
    have htokens₁ : ∀ i ∈ ((getNFTs s₀ denom.id).map fun nft ↦ (denom.id, nft.id)).reverse ++
        tokenIds, i.1 ∈ denom.id :: classIds := by
      intro i hi
      rcases List.mem_append.mp hi with hminted | hbefore
      · obtain ⟨nft, -, rfl⟩ := List.mem_map.mp (List.mem_reverse.mp hminted)
        exact List.mem_cons_self
      · exact List.mem_cons_of_mem _ (htokens i hbefore)
    obtain ⟨s', R'', classIds', tokenIds', hloop, hrep', hpart', hids, htoks⟩ := ih hrep₁ hpart₁
      (fun other hmem ↦ hdenoms other (List.mem_cons_of_mem _ hmem)) hdistinct hnew₁ htokens₁
    refine ⟨s', R'', classIds', tokenIds', ?_, hrep', hpart', fun d ↦ ?_, fun i ↦ ?_⟩
    · rw [List.map_cons, List.foldlM_cons, hdenom]
      exact bind_eq_ok.mpr ⟨s₁, hset, hloop⟩
    · rw [hids, List.map_cons, List.mem_cons, List.mem_cons, or_left_comm, or_assoc]
    · have hminted : (∃ nft ∈ getNFTs s₀ denom.id, (denom.id, nft.id) = i) ↔
          ∃ nft ∈ getNFTs s₀ denom.id, i = (denom.id, nft.id) :=
        exists_congr fun nft ↦ and_congr_right fun _ ↦ eq_comm
      rw [htoks, List.mem_append, List.mem_reverse, List.mem_map, hminted, List.exists_mem_cons_iff,
        or_left_comm, or_assoc]

theorem Represents.unique (h : Represents C s R) (h' : Represents C s' R) : s = s' := by
  cases s
  cases s'
  congr
  · exact h.nfts.unique h'.nfts
  · exact h.owners.unique h'.owners
  · exact h.collections.unique h'.collections
  · exact h.denoms.unique h'.denoms
  · exact h.denomNames.unique h'.denomNames

theorem initGenesis_exportGenesis (h : Represents C s R)
    (hvalid : validateGenesis C (exportGenesis s) = .ok ()) :
    initGenesis C .empty (exportGenesis s) = .ok s := by
  have hdenoms : ∀ denom ∈ getDenoms s,
      ∃ c, R.classes denom.id = some c ∧ denom = c.denom C denom.id := by
    intro denom hmem
    obtain ⟨d, c, hc, rfl⟩ := (mem_getDenoms h.toRepresentsClasses).mp hmem
    exact ⟨c, hc, rfl⟩
  obtain ⟨s', R', classIds, tokenIds, hloop, hrep, hpart, hids, htoks⟩ :=
    setCollections_eq_ok h Represents.empty (.empty R) hdenoms
      (nodup_getDenoms h.toRepresentsClasses)
      (by simp) (by simp)
  have hclasses : ∀ d, (R.classes d).isSome → d ∈ classIds := by
    intro d hd
    obtain ⟨c, hc⟩ := Option.isSome_iff_exists.mp hd
    refine (hids d).mpr (Or.inl (List.mem_map.mpr ⟨c.denom C d, ?_, rfl⟩))
    exact (mem_getDenoms h.toRepresentsClasses).mpr ⟨d, c, hc, rfl⟩
  have htokens : ∀ i, (R.tokens i).isSome → i ∈ tokenIds := by
    rintro ⟨d, t⟩ ht
    obtain ⟨tok, htok⟩ := Option.isSome_iff_exists.mp ht
    have hclass : (R.classes d).isSome := R.inhabited htok
    obtain ⟨c, hc⟩ := Option.isSome_iff_exists.mp hclass
    refine (htoks (d, t)).mpr (Or.inl ⟨c.denom C d, ?_, tok.record C t, ?_, rfl⟩)
    · exact (mem_getDenoms h.toRepresentsClasses).mpr ⟨d, c, hc, rfl⟩
    · refine ((getNFTs_exact h hclass).1 _).mpr ?_
      rw [h.getElem?_nfts hclass]
      exact Option.map_eq_some_iff.mpr ⟨tok, htok, rfl⟩
  rw [hpart.eq hclasses htokens] at hrep
  rw [h.unique hrep]
  exact bind_eq_ok.mpr ⟨(), h.unique hrep ▸ hvalid, h.unique hrep ▸ hloop⟩

end ChainMain.Nft
