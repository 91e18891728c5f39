import ChainMain.NftTransfer.Chain

/-!
# What holds on a chain

The invariant of the two modules on one chain. The denoms are those of a directory whose classes are
native, or have arrived at a channel end and then are held by its escrow account, carry their id as
their name and have a class trace (`Classes`). As long as the ids of the classes do not clash, the
store holds a registry with this directory (`Holds`); the ids and URIs of the tokens in native
classes have been checked.
-/

set_option autoImplicit false

namespace ChainMain.NftTransfer

open Foundations Texts Outcomes OrderedStore Runs
open Nft (AccAddress Directory Registry RepresentsClasses Represents validateDenomID validateTokenID
  validateTokenURI)

variable {P : Platform} {U : Set Text}
variable {a : AccAddress} {e : ChannelEnd P} {R : Registry} {st st' : State}
  {classID d rest uri : Text}

/-- A class that has arrived at the channel end `e` with the path `getClassPrefix e ++ rest`. -/
structure Arrived (U : Set Text) (st : State) (d : Text) (c : Nft.Class) (e : ChannelEnd P)
    (rest : Text) : Prop where
  used : getClassPrefix e ++ rest ∈ U
  id : d = voucherID P (getClassPrefix e ++ rest)
  name : c.name = d
  creator : c.creator = getEscrowAddress e
  traced : (st.traces[(P.sha256 (getClassPrefix e ++ rest)).toList]?).isSome

/-- The classes of the chain and their traces. -/
structure Classes (P : Platform) (U : Set Text) (st : State) (D : Directory) : Prop where
  represents : RepresentsClasses P.codec st.nft D
  kinds : ∀ d c, D.classes d = some c →
    validateDenomID d = .ok () ∨ ∃ (e : ChannelEnd P) (rest : Text), Arrived U st d c e rest
  traces : ∀ (hash : List UInt8) trace, st.traces[hash]? = some trace →
    ∃ (e : ChannelEnd P) (rest : Text),
    getClassPrefix e ++ rest ∈ U ∧ trace = parseClassTrace (getClassPrefix e ++ rest) ∧
      hash = (P.sha256 (getClassPrefix e ++ rest)).toList

/-- The tokens of native classes have ids and URIs that pass their checks. -/
def Checked (R : Registry) : Prop :=
  ∀ d t tok, R.tokens (d, t) = some tok → validateDenomID d = .ok () →
    validateTokenID t = .ok () ∧ validateTokenURI tok.uri = .ok ()

/-- The store holds a registry with the directory of the chain. -/
structure Holds (P : Platform) (U : Set Text) (st : State) (R : Registry) : Prop where
  classes : Classes P U st R.toDirectory
  represents : Represents P.codec st.nft R
  checked : Checked R

def Inv (P : Platform) (U : Set Text) (st : State) : Prop :=
  ∃ D, Classes P U st D ∧ (D.Unambiguous → ∃ R, R.toDirectory = D ∧ Holds P U st R)

/-! ### Classes -/

theorem Classes.isClassID {D : Directory} (h : Classes P U st D) (d : Text)
    (hd : (D.classes d).isSome) : IsClassID P d := by
  obtain ⟨c, hc⟩ := Option.isSome_iff_exists.mp hd
  rcases h.kinds d c hc with hnative | ⟨e, rest, harrived⟩
  · exact Or.inl hnative
  · exact Or.inr ⟨_, harrived.id⟩

theorem Arrived.mono {c : Nft.Class} (h : Arrived U st d c e rest)
    (htraces : ∀ hash : List UInt8, (st.traces[hash]?).isSome → (st'.traces[hash]?).isSome) :
    Arrived U st' d c e rest :=
  ⟨h.used, h.id, h.name, h.creator, htraces _ h.traced⟩

theorem Classes.of_sameDenoms {s : Nft.Store} {D : Directory} (h : Classes P U st D)
    (hsame : Nft.SameDenoms st.nft s) : Classes P U { st with nft := s } D where
  represents := h.represents.congr hsame
  kinds := fun d c hc ↦ (h.kinds d c hc).imp_right
    fun ⟨e, rest, harrived⟩ ↦ ⟨e, rest, harrived.mono fun _ hsome ↦ hsome⟩
  traces := h.traces

theorem Inv.of_sameDenoms {s : Nft.Store} (h : Inv P U st)
    (hsame : Nft.SameDenoms st.nft s)
    (hregistry : ∀ R, Holds P U st R →
      ∃ R', Represents P.codec s R' ∧ R'.toDirectory = R.toDirectory ∧ Checked R') :
    Inv P U { st with nft := s } := by
  obtain ⟨D, hclasses, hholds⟩ := h
  have hclasses' := hclasses.of_sameDenoms hsame
  refine ⟨D, hclasses', fun hfree ↦ ?_⟩
  obtain ⟨R, rfl, hR⟩ := hholds hfree
  obtain ⟨R', hrepresents, hdirectory, hchecked⟩ := hregistry R hR
  exact ⟨R', hdirectory, hdirectory ▸ hclasses', hrepresents, hchecked⟩

theorem Inv.issue {s : Nft.Store} {c : Nft.Class} (h : Inv P U st)
    (hne : d ≠ []) (hok : Nft.setDenom st.nft (c.denom P.codec d) = .ok s)
    (hkind : validateDenomID d = .ok () ∨
      ∃ (e : ChannelEnd P) (rest : Text), Arrived U st d c e rest) :
    Inv P U { st with nft := s } := by
  obtain ⟨D, hclasses, hholds⟩ := h
  obtain ⟨hid, hname, rfl⟩ := hclasses.represents.setDenom_eq_ok.mp hok
  have hclasses' : Classes P U { st with
      nft := { st.nft with
        denoms := st.nft.denoms.insert (Nft.keyDenomID d) (c.denom P.codec d)
        denomNames := st.nft.denomNames.insert (Nft.keyDenomName c.name) d } }
      (D.issue d c hname) := by
    refine ⟨hclasses.represents.issue hne hid hname, ?_, hclasses.traces⟩
    intro d' c' hc'
    have hkind' : validateDenomID d' = .ok () ∨
        ∃ (e : ChannelEnd P) (rest : Text), Arrived U st d' c' e rest := by
      by_cases hdd : d' = d
      · subst hdd
        rw [Directory.classes_issue, Function.update_self] at hc'
        exact Option.some.inj hc' ▸ hkind
      · rw [Directory.classes_issue, Function.update_of_ne hdd] at hc'
        exact hclasses.kinds d' c' hc'
    exact hkind'.imp_right fun ⟨e, rest, harrived⟩ ↦ ⟨e, rest, harrived.mono fun _ hsome ↦ hsome⟩
  refine ⟨_, hclasses', fun hfree ↦ ?_⟩
  obtain ⟨R, rfl, hR⟩ := hholds hfree.of_issue
  exact ⟨R.issue d c hname, rfl, hclasses', hR.represents.issue hne hid hname hfree, hR.checked⟩

/-- The class of a path that may arrive, where no two such paths have the same hash: it has arrived
by this path. -/
theorem Classes.arrived {D : Directory} (h : Classes P U st D) (hU : Set.InjOn P.sha256 U)
    {c : Nft.Class} (hpath : getClassPrefix e ++ rest ∈ U)
    (hc : D.classes (voucherID P (getClassPrefix e ++ rest)) = some c) :
    Arrived U st (voucherID P (getClassPrefix e ++ rest)) c e rest := by
  rcases h.kinds _ c hc with hnative | ⟨e', rest', harrived⟩
  · exact absurd hnative (not_native_voucherID _)
  · have heq := hU hpath harrived.used (sha256_eq_of_voucherID_eq harrived.id)
    obtain ⟨rfl, rfl⟩ := classPrefix_append_inj heq
    exact harrived

theorem Arrived.classPathFromHash {D : Directory} {c : Nft.Class}
    (harrived : Arrived U st d c e rest) (h : Classes P U st D)
    (hU : Set.InjOn P.sha256 U) : classPathFromHash st d = .ok (getClassPrefix e ++ rest) := by
  obtain ⟨trace, htrace⟩ := Option.isSome_iff_exists.mp harrived.traced
  obtain ⟨e', rest', hpath, rfl, hhash⟩ := h.traces _ trace htrace
  have heq := hU harrived.used hpath (Vector.toList_inj.mp hhash)
  rw [harrived.id, classPathFromHash_voucherID, htrace, heq]
  exact congrArg Except.ok (parseClassTrace_arrived e' rest').2

/-! ### Traces -/

theorem isSome_traces_setClassTrace (st : State) (trace : ClassTrace) {hash : List UInt8}
    (h : (st.traces[hash]?).isSome) : ((setClassTrace P st trace).traces[hash]?).isSome := by
  rw [setClassTrace, getElem?_insert_eq]
  split_ifs
  · rfl
  · exact h

theorem Inv.setClassTrace (h : Inv P U st) (hpath : getClassPrefix e ++ classID ∈ U) :
    Inv P U (setClassTrace P st (parseClassTrace (getClassPrefix e ++ classID))) := by
  obtain ⟨D, hclasses, hholds⟩ := h
  have hclasses' : Classes P U
      (NftTransfer.setClassTrace P st (parseClassTrace (getClassPrefix e ++ classID))) D := by
    refine ⟨hclasses.represents, fun d c hc ↦ ?_, fun hash trace htrace ↦ ?_⟩
    · exact (hclasses.kinds d c hc).imp_right fun ⟨e', rest, harrived⟩ ↦
        ⟨e', rest, harrived.mono fun _ ↦ isSome_traces_setClassTrace st _⟩
    · rw [NftTransfer.setClassTrace, getElem?_insert_eq] at htrace
      split_ifs at htrace with hhash
      · exact ⟨e, classID, hpath, (Option.some.inj htrace).symm, by rw [← hhash, hash_arrived]⟩
      · exact hclasses.traces hash trace htrace
  refine ⟨D, hclasses', fun hfree ↦ ?_⟩
  obtain ⟨R, rfl, hR⟩ := hholds hfree
  exact ⟨R, rfl, hclasses', hR.represents, hR.checked⟩

/-! ### Every operation keeps the invariant -/

theorem Checked.put {d t : Text} {tok : Nft.Token} (h : Checked R)
    (hclass : (R.classes d).isSome)
    (htok : validateDenomID d = .ok () →
      validateTokenID t = .ok () ∧ validateTokenURI tok.uri = .ok ()) :
    Checked (R.put (d, t) tok hclass) := by
  intro d' t' tok' htok' hnative
  by_cases hi : (d', t') = (d, t)
  · obtain ⟨rfl, rfl⟩ := Prod.mk.inj hi
    rw [Registry.tokens_put, Function.update_self] at htok'
    exact Option.some.inj htok' ▸ htok hnative
  · rw [Registry.tokens_put, Function.update_of_ne hi] at htok'
    exact h d' t' tok' htok' hnative

theorem Checked.remove {i : Text × Text} (h : Checked R) : Checked (R.remove i) := by
  intro d t tok htok
  by_cases hi : (d, t) = i
  · rw [Registry.tokens_remove, hi, Function.update_self] at htok
    cases htok
  · rw [Registry.tokens_remove, Function.update_of_ne hi] at htok
    exact h d t tok htok

/-- Registering a class is to see that its trace is there and then, if it is new, to issue it. -/
theorem registerClass_eq_ok (hok : registerClass st e classID uri = .ok st') :
    ∃ st₁, (st₁ = st ∨ st.traces[(P.sha256 (getClassPrefix e ++ classID)).toList]? = none ∧
        st₁ = setClassTrace P st (parseClassTrace (getClassPrefix e ++ classID))) ∧
      (st₁.traces[(P.sha256 (getClassPrefix e ++ classID)).toList]?).isSome ∧
      (Nft.hasDenomID st.nft (voucherID P (getClassPrefix e ++ classID)) = true ∧ st' = st₁ ∨
        ∃ s, Nft.issueDenom P.codec st.nft (voucherID P (getClassPrefix e ++ classID))
          (voucherID P (getClassPrefix e ++ classID)) [] uri (getEscrowAddress e) = .ok s ∧
          st' = { st₁ with nft := s }) := by
  unfold registerClass at hok
  dsimp only at hok
  rw [← classOf, classOf_arrived, hash_arrived] at hok
  generalize hst₁ :
      (if hasClassTrace st (P.sha256 (getClassPrefix e ++ classID)).toList = true then st
    else setClassTrace P st (parseClassTrace (getClassPrefix e ++ classID))) = st₁ at hok
  have hcases : (st₁ = st ∨ st.traces[(P.sha256 (getClassPrefix e ++ classID)).toList]? = none ∧
        st₁ = setClassTrace P st (parseClassTrace (getClassPrefix e ++ classID))) ∧
      (st₁.traces[(P.sha256 (getClassPrefix e ++ classID)).toList]?).isSome ∧ st₁.nft = st.nft := by
    rw [hasClassTrace, Std.ExtTreeMap.contains_eq_isSome_getElem?] at hst₁
    split_ifs at hst₁ with htrace
    · subst hst₁
      exact ⟨Or.inl rfl, htrace, rfl⟩
    · subst hst₁
      refine ⟨Or.inr ⟨Option.not_isSome_iff_eq_none.mp htrace, rfl⟩, ?_, rfl⟩
      rw [setClassTrace, hash_arrived, getElem?_insert_eq, if_pos rfl]
      rfl
  obtain ⟨hst, htraced, hnft⟩ := hcases
  refine ⟨st₁, hst, htraced, ?_⟩
  rw [hnft] at hok
  split_ifs at hok with hdenom
  · exact Or.inl ⟨hdenom, (Except.ok.inj hok).symm⟩
  · simp only [bind_eq_ok, nftCall_eq_ok, pure_eq_ok] at hok
    obtain ⟨s, hissue, rfl⟩ := hok
    exact Or.inr ⟨s, hissue, rfl⟩

theorem Inv.register (h : Inv P U st)
    (hpath : getClassPrefix e ++ classID ∈ U) (hok : registerClass st e classID uri = .ok st') :
    Inv P U st' := by
  obtain ⟨st₁, hst₁, htraced, hissue⟩ := registerClass_eq_ok hok
  have hinv : Inv P U st₁ ∧ st₁.nft = st.nft := by
    rcases hst₁ with rfl | ⟨-, rfl⟩
    · exact ⟨h, rfl⟩
    · exact ⟨h.setClassTrace hpath, rfl⟩
  rcases hissue with ⟨-, rfl⟩ | ⟨s, hissue, rfl⟩
  · exact hinv.1
  · rw [← hinv.2] at hissue
    refine hinv.1.issue (c := ⟨_, _, _, _⟩) (voucherID_ne_nil _) hissue (Or.inr ⟨e, classID, ?_⟩)
    exact ⟨hpath, rfl, rfl, rfl, htraced⟩

theorem Act.inv (hact : Act P U a st st') (h : Inv P U st) :
    Inv P U st' := by
  cases hact with
  | issue hid hok =>
    exact h.issue (c := ⟨_, _, _, _⟩) (native_ne_nil hid) hok (.inl hid)
  | register _ hpath hok => exact h.register hpath hok
  | mint hvalid hok =>
    refine h.of_sameDenoms (Nft.sameDenoms_mintNFT hok) fun R hR ↦ ?_
    obtain ⟨-, c, hclass, -, -, hrepresents⟩ := hR.represents.mintNFT hok
    exact ⟨_, hrepresents, rfl, hR.checked.put hclass hvalid⟩
  | edit huri hok =>
    refine h.of_sameDenoms (Nft.sameDenoms_editNFT hok) fun R hR ↦ ?_
    obtain ⟨tok, tok', c, hclass, htok, -, -, -, -, hrecord, hrepresents⟩ :=
      hR.represents.editNFT hok
    refine ⟨_, hrepresents, rfl, hR.checked.put hclass fun hnative ↦ ?_⟩
    obtain ⟨hid, hold⟩ := hR.checked _ _ tok htok hnative
    refine ⟨hid, ?_⟩
    have huri' : tok'.uri = if Nft.modified _ then _ else tok.uri :=
      congrArg Nft.BaseNFT.uri hrecord
    rw [huri']
    split_ifs
    · exact huri
    · exact hold
  | transfer hok =>
    refine h.of_sameDenoms (Nft.sameDenoms_transferOwner hok) fun R hR ↦ ?_
    obtain ⟨tok, hclass, htok, -, hrepresents⟩ := hR.represents.transferOwner hok
    exact ⟨_, hrepresents, rfl, hR.checked.put hclass (hR.checked _ _ tok htok)⟩
  | burn hok =>
    refine h.of_sameDenoms (Nft.sameDenoms_burnNFTUnverified hok) fun R hR ↦ ?_
    obtain ⟨tok, -, -, hrepresents⟩ := hR.represents.burnNFTUnverified hok
    exact ⟨_, hrepresents, rfl, hR.checked.remove⟩

theorem Acts.inv (hacts : Acts P U a st st') (h : Inv P U st) :
    Inv P U st' := by
  induction hacts with
  | refl => exact h
  | tail _ hlast ih => exact hlast.inv ih

theorem Inv.step (h : Inv P U st) {label : Label P} (hU : label.arrivals ⊆ U) :
    Inv P U (step st label) := by
  obtain ⟨a, hacts⟩ := step_acts st hU
  exact Acts.inv hacts h

/-! ### The states a chain gets to -/

theorem holds_start : Holds P U (State.start P) Registry.empty where
  classes := ⟨.empty, (fun _ _ hc ↦ nomatch hc), fun hash trace htrace ↦ by
    simp [State.start, initGenesis, State.empty, GenesisState.default] at htrace⟩
  represents := .empty
  checked := fun _ _ _ htok ↦ nomatch htok

theorem Reaches.inv {τ : List (Transition State (Label P))} (h : Reaches P τ st)
    (hU : ∀ t ∈ τ, t.label.arrivals ⊆ U) : Inv P U st :=
  h.invariant hU ⟨_, holds_start.classes, fun _ ↦ ⟨_, rfl, holds_start⟩⟩ fun _ _ _ hact ↦ hact.inv

theorem Reachable.inv (h : Reachable P st) : Inv P Set.univ st := by
  obtain ⟨τ, hτ⟩ := h
  exact hτ.inv fun _ _ ↦ Set.subset_univ _

/-- The chain does not have both the native class `ibc` and a class of vouchers. -/
def NoClash (P : Platform) (st : State) : Prop :=
  Nft.hasDenomID st.nft classMark = true →
    ∀ path, Nft.hasDenomID st.nft (voucherID P path) = false

theorem hasDenomID_of_getDenom {s : Nft.Store} {denom : Nft.Denom}
    (h : Nft.getDenom s d = .ok denom) : Nft.hasDenomID s d = true := by
  rw [Nft.getDenom, expect_eq_ok] at h
  rw [Nft.hasDenomID, Std.ExtTreeMap.contains_eq_isSome_getElem?, h]
  rfl

theorem exists_getDenom {s : Nft.Store} (h : Nft.hasDenomID s d = true) :
    ∃ denom, Nft.getDenom s d = .ok denom := by
  rw [Nft.hasDenomID, Std.ExtTreeMap.contains_eq_isSome_getElem?] at h
  obtain ⟨denom, hdenom⟩ := Option.isSome_iff_exists.mp h
  exact ⟨denom, expect_eq_ok.mpr hdenom⟩

theorem getDenom_of_issueDenom {s s' : Nft.Store} {id name schema uri d : Text}
    {creator : AccAddress} {denom : Nft.Denom}
    (hok : Nft.issueDenom P.codec s id name schema uri creator = .ok s')
    (h : Nft.getDenom s d = .ok denom) : Nft.getDenom s' d = .ok denom := by
  unfold Nft.issueDenom Nft.setDenom at hok
  simp only [bind_eq_ok, ensure_eq_ok, pure_eq_ok, Bool.not_eq_true'] at hok
  obtain ⟨-, hnew, -, -, rfl⟩ := hok
  have hold := hasDenomID_of_getDenom h
  rw [Nft.getDenom, expect_eq_ok] at h ⊢
  rw [getElem?_insert_eq, if_neg, h]
  intro heq
  rw [Nft.hasDenomID, heq] at hnew
  rw [Nft.hasDenomID, hnew] at hold
  cases hold

theorem hasDenomID_of_issueDenom {s s' : Nft.Store} {id name schema uri d : Text}
    {creator : AccAddress} (hok : Nft.issueDenom P.codec s id name schema uri creator = .ok s')
    (h : Nft.hasDenomID s' d = true) : Nft.hasDenomID s d = true ∨ d = id := by
  obtain ⟨denom, hdenom⟩ := exists_getDenom h
  unfold Nft.issueDenom Nft.setDenom at hok
  simp only [bind_eq_ok, pure_eq_ok] at hok
  obtain ⟨-, -, -, -, rfl⟩ := hok
  rw [Nft.getDenom, expect_eq_ok, getElem?_insert_eq] at hdenom
  split_ifs at hdenom with heq
  · exact .inr (Nft.keyDenomID_injective heq).symm
  · exact .inl (hasDenomID_of_getDenom (expect_eq_ok.mpr hdenom))

theorem getDenom_issueDenom {s s' : Nft.Store} {id name schema uri : Text} {creator : AccAddress}
    (hok : Nft.issueDenom P.codec s id name schema uri creator = .ok s') :
    Nft.getDenom s' id = .ok (Nft.Denom.new P.codec id name schema uri creator) := by
  unfold Nft.issueDenom Nft.setDenom at hok
  simp only [bind_eq_ok, pure_eq_ok] at hok
  obtain ⟨-, -, -, -, rfl⟩ := hok
  rw [Nft.getDenom, expect_eq_ok, getElem?_insert_eq]
  exact if_pos rfl

theorem Act.getDenom (hact : Act P U a st st')
    {denom : Nft.Denom} (h : Nft.getDenom st.nft d = .ok denom) :
    Nft.getDenom st'.nft d = .ok denom := by
  have hsame : ∀ {s : Nft.Store}, Nft.SameDenoms st.nft s → Nft.getDenom s d = .ok denom := by
    intro s hs
    rw [Nft.getDenom, hs.denoms]
    exact h
  cases hact with
  | issue _ hok => exact getDenom_of_issueDenom hok h
  | register _ _ hok =>
    obtain ⟨st₁, hst₁, -, hissue⟩ := registerClass_eq_ok hok
    rcases hissue with ⟨-, rfl⟩ | ⟨s, hissue, rfl⟩
    · rcases hst₁ with rfl | ⟨-, rfl⟩ <;> exact h
    · exact getDenom_of_issueDenom hissue h
  | mint _ hok => exact hsame (Nft.sameDenoms_mintNFT hok)
  | edit _ hok => exact hsame (Nft.sameDenoms_editNFT hok)
  | transfer hok => exact hsame (Nft.sameDenoms_transferOwner hok)
  | burn hok => exact hsame (Nft.sameDenoms_burnNFTUnverified hok)

theorem Act.hasDenomID (hact : Act P U a st st')
    (h : Nft.hasDenomID st.nft d = true) : Nft.hasDenomID st'.nft d = true := by
  obtain ⟨denom, hdenom⟩ := exists_getDenom h
  exact hasDenomID_of_getDenom (hact.getDenom hdenom)

theorem Act.getElem?_traces (hact : Act P U a st st')
    {hash : List UInt8} {trace : ClassTrace} (h : st.traces[hash]? = some trace) :
    st'.traces[hash]? = some trace := by
  cases hact with
  | register _ _ hok =>
    obtain ⟨st₁, hst₁, -, hissue⟩ := registerClass_eq_ok hok
    have htraces : st₁.traces[hash]? = some trace := by
      rcases hst₁ with rfl | ⟨hnone, rfl⟩
      · exact h
      · rw [NftTransfer.setClassTrace, hash_arrived, getElem?_insert_eq, if_neg, h]
        rintro rfl
        rw [hnone] at h
        cases h
    rcases hissue with ⟨-, rfl⟩ | ⟨s, -, rfl⟩
    · exact htraces
    · exact htraces
  | issue | mint | edit | transfer | burn => exact h

theorem Acts.hasDenomID (hacts : Acts P U a st st')
    (h : Nft.hasDenomID st.nft d = true) : Nft.hasDenomID st'.nft d = true := by
  induction hacts with
  | refl => exact h
  | tail _ hlast ih => exact hlast.hasDenomID ih

theorem Acts.getElem?_traces (hacts : Acts P U a st st')
    {hash : List UInt8} {trace : ClassTrace} (h : st.traces[hash]? = some trace) :
    st'.traces[hash]? = some trace := by
  induction hacts with
  | refl => exact h
  | tail _ hlast ih => exact hlast.getElem?_traces ih

theorem hasDenomID_step (h : Nft.hasDenomID st.nft d = true)
    (label : Label P) : Nft.hasDenomID (step st label).nft d = true := by
  obtain ⟨a, hacts⟩ := step_acts st (Set.subset_univ label.arrivals)
  exact Acts.hasDenomID hacts h

/-- Ids that do not clash did not clash when there were fewer denoms. -/
theorem NoClash.of_le (h : NoClash P st')
    (hle : ∀ d, Nft.hasDenomID st.nft d = true → Nft.hasDenomID st'.nft d = true) :
    NoClash P st := by
  intro hmark path
  have hafter := h (hle _ hmark) path
  rw [← Bool.not_eq_true] at hafter ⊢
  exact fun hbefore ↦ hafter (hle _ hbefore)

theorem Classes.unambiguous {D : Directory} (h : Classes P U st D)
    (hclash : NoClash P st) : D.Unambiguous := by
  refine unambiguous_of_kinds h.isClassID fun hmark path ↦ ?_
  have hnone := hclash (h.represents.hasDenomID_iff.mpr hmark) path
  rwa [← Bool.not_eq_true, h.represents.hasDenomID_iff, Option.not_isSome_iff_eq_none] at hnone

theorem Inv.holds (h : Inv P U st) (hclash : NoClash P st) : ∃ R, Holds P U st R := by
  obtain ⟨D, hclasses, hholds⟩ := h
  obtain ⟨R, -, hR⟩ := hholds (hclasses.unambiguous hclash)
  exact ⟨R, hR⟩

theorem Holds.inv (h : Holds P U st R) : Inv P U st :=
  ⟨R.toDirectory, h.classes, fun _ ↦ ⟨R, rfl, h⟩⟩

theorem Inv.holds_of_represents (h : Inv P U st) (hclash : NoClash P st)
    (hR : Represents P.codec st.nft R) : Holds P U st R := by
  obtain ⟨R', hR'⟩ := h.holds hclash
  exact hR.registry_unique hR'.represents ▸ hR'

end ChainMain.NftTransfer
