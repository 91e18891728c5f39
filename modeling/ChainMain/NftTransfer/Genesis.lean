import ChainMain.Nft.Genesis
import ChainMain.NftTransfer.StoreConsistency

/-!
# Export and import of the two modules

The genesis of `x/nft` exported from a state a chain gets to is accepted and rebuilds the store if
and only if the name of every denom passes the rule for ids (`nft_genesis_round_trip_iff`). The
messages ask of a name only that it is not blank, and the name of a class of vouchers is its id, so
neither `My Cats` nor any class that has arrived passes.

The class traces exported from such a state always rebuild the same traces, but they are accepted if
and only if every path is a sequence of hops followed by a base that is not blank
(`trace_genesis_round_trip_iff`). The class ids in packets are arbitrary texts, so there are others.
-/

set_option autoImplicit false

namespace ChainMain.NftTransfer

open Foundations Texts Outcomes OrderedStore Runs
open Nft (validateDenomID)

variable {P : Platform} {U : Set Text}

/-! ### `x/nft` -/

/-- Where every name passes the rule for ids, there are native classes only. -/
theorem Classes.native {st : State} {D : Nft.Directory} (h : Classes P U st D)
    (hnames : ∀ d c, D.classes d = some c → validateDenomID c.name = .ok ()) {d : Text}
    {c : Nft.Class} (hc : D.classes d = some c) : validateDenomID d = .ok () := by
  rcases h.kinds d c hc with hnative | ⟨e, rest, harrived⟩
  · exact hnative
  · exact harrived.name ▸ hnames d c hc

/-- The export is accepted and rebuilds the store if and only if every name of a denom passes the
rule for ids. -/
theorem nft_genesis_round_trip_iff {st : State} (h : Reachable P st) :
    Nft.validateGenesis P.codec (Nft.exportGenesis st.nft) = .ok () ∧
        Nft.initGenesis P.codec .empty (Nft.exportGenesis st.nft) = .ok st.nft ↔
      ∀ denom ∈ Nft.getDenoms st.nft, validateDenomID denom.name = .ok () := by
  obtain ⟨D, hclasses, hholds⟩ := h.inv
  constructor
  · rintro ⟨hvalid, -⟩ denom hdenom
    have hall := forM_eq_ok.mp hvalid _ (List.mem_map.mpr ⟨denom, hdenom, rfl⟩)
    obtain ⟨_, hname, -⟩ := bind_eq_ok.mp hall
    exact hname
  · intro hall
    have hnames : ∀ d c, D.classes d = some c → validateDenomID c.name = .ok () :=
      fun d c hc ↦ hall _ ((Nft.mem_getDenoms hclasses.represents).mpr ⟨d, c, hc, rfl⟩)
    have hfree : D.Unambiguous := by
      refine unambiguous_of_kinds hclasses.isClassID fun _ path ↦ ?_
      rw [← Option.not_isSome_iff_eq_none, Option.isSome_iff_exists]
      rintro ⟨c, hc⟩
      exact not_native_voucherID path (hclasses.native hnames hc)
    obtain ⟨R, rfl, hR⟩ := hholds hfree
    have hvalid : Nft.validateGenesis P.codec (Nft.exportGenesis st.nft) = .ok () := by
      refine (Nft.validateGenesis_exportGenesis hR.represents).mpr ⟨hnames, fun d t tok htok ↦ ?_⟩
      obtain ⟨c, hc⟩ := Option.isSome_iff_exists.mp (R.inhabited htok)
      exact hR.checked d t tok htok (hR.classes.native hnames hc)
    exact ⟨hvalid, Nft.initGenesis_exportGenesis hR.represents hvalid⟩

/-! ### Paths with hops -/

/-- The path is a sequence of hops followed by a base that is not blank. -/
def IsClassPath (P : Platform) (path : Text) : Prop :=
  ∃ (hops : List (ChannelEnd P)) (base : Text), hops ≠ [] ∧ '/' ∉ base ∧ isBlank base = false ∧
    path = hops.flatMap getClassPrefix ++ base

/-- The identifiers of a sequence of hops. -/
def identifiers (hops : List (ChannelEnd P)) : List Text := hops.flatMap fun e ↦ [e.port, e.channel]

theorem slash_not_mem_identifiers (hops : List (ChannelEnd P)) :
    ∀ field ∈ identifiers hops, '/' ∉ field := by
  intro field hfield
  obtain ⟨e, -, hpair⟩ := List.mem_flatMap.mp hfield
  rcases List.mem_pair.mp hpair with rfl | rfl
  · exact e.slash_not_mem_port
  · exact e.slash_not_mem_channel

theorem identifiers_ne_nil {hops : List (ChannelEnd P)} (h : hops ≠ []) :
    identifiers hops ≠ [] := by
  obtain ⟨e, rest, rfl⟩ := List.exists_cons_of_ne_nil h
  simp [identifiers]

/-- The identifiers joined by `/` are the hops. -/
theorem intercalate_identifiers {hops : List (ChannelEnd P)} (h : hops ≠ []) (base : Text) :
    ['/'].intercalate (identifiers hops) ++ '/' :: base = hops.flatMap getClassPrefix ++ base := by
  induction hops with
  | nil => exact absurd rfl h
  | cons e rest ih =>
    cases rest with
    | nil => simp [identifiers, getClassPrefix]
    | cons e' more =>
      have hrest := ih (List.cons_ne_nil e' more)
      obtain ⟨first, fields, hfields⟩ :=
        List.exists_cons_of_ne_nil (identifiers_ne_nil (List.cons_ne_nil e' more))
      have hsplit : identifiers (e :: e' :: more) =
          e.port :: e.channel :: identifiers (e' :: more) := rfl
      rw [List.flatMap_cons, List.append_assoc, ← hrest, hsplit, hfields,
        List.intercalate_cons_cons, List.intercalate_cons_cons]
      simp [getClassPrefix]

/-- The loop over the identifiers accepts an even number of them if they are those of hops. -/
theorem validateTracePairs_eq_ok (i : ℕ) (fields : List Text) :
    fields.length % 2 = 0 ∧ validateTracePairs P i fields = .ok () ↔
      ∃ hops : List (ChannelEnd P), fields = identifiers hops := by
  induction fields using List.twoStepInduction generalizing i with
  | nil => exact ⟨fun _ ↦ ⟨[], rfl⟩, fun _ ↦ ⟨rfl, rfl⟩⟩
  | singleton field =>
    refine ⟨fun h ↦ absurd h.1 (by simp), ?_⟩
    rintro ⟨_ | ⟨e, rest⟩, hfields⟩
    · cases hfields
    · simp [identifiers] at hfields
  | cons_cons port channel rest ih =>
    unfold validateTracePairs
    simp only [bind_eq_ok, mapError_eq_ok]
    constructor
    · rintro ⟨heven, ⟨⟩, hport, ⟨⟩, hchannel, hrest⟩
      have heven' : rest.length % 2 = 0 := by
        simp only [List.length_cons] at heven
        omega
      obtain ⟨hops, rfl⟩ := (ih (i + 2)).mp ⟨heven', hrest⟩
      exact ⟨⟨port, channel, hport, hchannel⟩ :: hops, rfl⟩
    · rintro ⟨_ | ⟨e, hops⟩, hfields⟩
      · cases hfields
      · obtain ⟨rfl, htail⟩ := List.cons_eq_cons.mp hfields
        obtain ⟨rfl, rfl⟩ := List.cons_eq_cons.mp htail
        obtain ⟨heven, hrest⟩ := (ih (i + 2)).mpr ⟨hops, rfl⟩
        refine ⟨?_, (), e.validPort, (), e.validChannel, hrest⟩
        simp only [List.length_cons]
        omega

/-- A trace with a path is accepted if and only if its full path is one of hops. -/
theorem validate_eq_ok {path base : Text} (hpath : path ≠ []) (hbase : '/' ∉ base) :
    (⟨path, base⟩ : ClassTrace).validate P = .ok () ↔ IsClassPath P (path ++ '/' :: base) := by
  unfold ClassTrace.validate validateTraceIdentifiers
  rw [if_neg fun h ↦ hpath h.1]
  constructor
  · intro h
    split_ifs at h with hblank
    simp only [bind_eq_ok, ensure_eq_ok, Bool.and_eq_true, beq_iff_eq] at h
    obtain ⟨-, ⟨-, heven⟩, hpairs⟩ := h
    obtain ⟨hops, hfields⟩ := (validateTracePairs_eq_ok 0 _).mp ⟨heven, hpairs⟩
    have hne : hops ≠ [] := by
      rintro rfl
      exact List.splitOn_ne_nil '/' path hfields
    refine ⟨hops, base, hne, hbase, by simpa using hblank, ?_⟩
    rw [← intercalate_identifiers hne, ← hfields, List.intercalate_splitOn]
  · rintro ⟨hops, base', hne, hbase', hblank, hfull⟩
    rw [← intercalate_identifiers hne] at hfull
    have hparse := parseClassTrace_append hbase path
    rw [hfull, parseClassTrace_append hbase'] at hparse
    obtain ⟨hpath', rfl⟩ := ClassTrace.mk.inj hparse
    have hfields : path.splitOn '/' = identifiers hops := by
      rw [← hpath']
      exact List.splitOn_intercalate '/' (slash_not_mem_identifiers hops) (identifiers_ne_nil hne)
    obtain ⟨heven, hpairs⟩ := (validateTracePairs_eq_ok (P := P) 0 _).mpr ⟨hops, rfl⟩
    rw [if_neg (by simp [hblank]), hfields]
    refine bind_eq_ok.mpr ⟨(), ensure_eq_ok.mpr ?_, hpairs⟩
    simp [heven, identifiers_ne_nil hne]

/-! ### Traces in the store -/

/-- A trace is stored under its hash, and it is that of a path that begins with a channel end. -/
theorem Classes.trace {st : State} {D : Nft.Directory} (h : Classes P U st D) {hash : List UInt8}
    {trace : ClassTrace} (htrace : st.traces[hash]? = some trace) :
    trace.hash P = hash ∧ (trace.validate P = .ok () ↔ IsClassPath P trace.getFullClassPath) := by
  obtain ⟨e, rest, -, rfl, rfl⟩ := h.traces hash trace htrace
  refine ⟨hash_arrived e rest, ?_⟩
  obtain ⟨hpath, hfull⟩ := parseClassTrace_arrived e rest
  have hslash : '/' ∈ getClassPrefix e ++ rest := by simp [getClassPrefix]
  obtain ⟨path, base, hbase, hraw⟩ := exists_last_slash hslash
  rw [hfull]
  rw [hraw, parseClassTrace_append hbase] at hpath ⊢
  exact validate_eq_ok hpath hbase

theorem getAllClassTraces_perm (st : State) :
    (getAllClassTraces st).Perm (st.traces.toList.map Prod.snd) :=
  List.mergeSort_perm _ _

theorem mem_getAllClassTraces {st : State} {trace : ClassTrace} :
    trace ∈ getAllClassTraces st ↔ ∃ hash : List UInt8, st.traces[hash]? = some trace := by
  rw [(getAllClassTraces_perm st).mem_iff, List.mem_map]
  constructor
  · rintro ⟨⟨hash, _⟩, hmem, rfl⟩
    exact ⟨hash, mem_toList.mp hmem⟩
  · rintro ⟨hash, htrace⟩
    exact ⟨(hash, trace), mem_toList.mpr htrace, rfl⟩

theorem Classes.nodup_hashes {st : State} {D : Nft.Directory} (h : Classes P U st D) :
    ((getAllClassTraces st).map (ClassTrace.hash P)).Nodup := by
  have hkeys : (st.traces.toList.map Prod.snd).map (ClassTrace.hash P) =
      st.traces.toList.map Prod.fst := by
    rw [List.map_map]
    exact List.map_congr_left fun entry hmem ↦ (h.trace (mem_toList.mp hmem)).1
  have hnodup := nodup_keys_toList st.traces
  rw [← hkeys] at hnodup
  exact ((getAllClassTraces_perm st).map (ClassTrace.hash P)).nodup_iff.mpr hnodup

/-- The loop over the traces accepts them if each is accepted and the hashes differ. -/
theorem validateTraces_eq_ok (seen : List Text) (i : ℕ) (traces : List ClassTrace) :
    validateTraces P seen i traces = .ok () ↔
      (∀ trace ∈ traces, trace.validate P = .ok ()) ∧ (traces.map (ClassTrace.hash P)).Nodup ∧
        ∀ trace ∈ traces, hex (trace.hash P) ∉ seen := by
  induction traces generalizing seen i with
  | nil => simp [validateTraces]
  | cons trace rest ih =>
    rw [List.forall_mem_cons, List.forall_mem_cons, List.map_cons, List.nodup_cons]
    unfold validateTraces
    simp only [bind_eq_ok, ensure_eq_ok, mapError_eq_ok, ih, Bool.not_eq_true', List.mem_cons,
      List.contains_eq_mem, decide_eq_false_iff_not]
    constructor
    · rintro ⟨_, hnew, _, hvalid, hrest, hnodup, hnotin⟩
      have hfirst : trace.hash P ∉ rest.map (ClassTrace.hash P) := by
        intro hmem
        obtain ⟨other, hother, heq⟩ := List.mem_map.mp hmem
        exact (hnotin other hother) (Or.inl (congrArg hex heq))
      exact ⟨⟨hvalid, hrest⟩, ⟨hfirst, hnodup⟩, hnew,
        fun other hother hseen ↦ hnotin other hother (Or.inr hseen)⟩
    · rintro ⟨⟨hvalid, hrest⟩, ⟨hfirst, hnodup⟩, hnew, hnotin⟩
      refine ⟨(), hnew, (), hvalid, hrest, hnodup, fun other hother hseen ↦ ?_⟩
      rcases hseen with heq | hseen
      · exact hfirst (List.mem_map.mpr ⟨other, hother, hex_injective heq⟩)
      · exact hnotin other hother hseen

/-! ### Import of the traces -/

theorem foldl_setClassTrace (traces : List ClassTrace) (st : State) :
    traces.foldl (setClassTrace P) st = { st with
      traces := (traces.map fun trace ↦ (trace.hash P, trace)).foldl
        (fun acc entry ↦ acc.insert entry.1 entry.2) st.traces } := by
  induction traces generalizing st with
  | nil => rfl
  | cons trace rest ih =>
    rw [List.foldl_cons, ih]
    rfl

theorem initGenesis_exportGenesis {st : State} {D : Nft.Directory} (h : Classes P U st D)
    (s : Nft.Store) :
    initGenesis P { State.empty with nft := s } (exportGenesis st) = { st with nft := s } := by
  have hkeys :
      (((getAllClassTraces st).map fun trace ↦ (trace.hash P, trace)).map Prod.fst).Nodup := by
    rw [List.map_map]
    exact h.nodup_hashes
  unfold initGenesis exportGenesis
  rw [foldl_setClassTrace]
  congr 1
  ext1 hash
  apply Option.ext
  intro trace
  rw [getElem?_foldl_insert _ hkeys _ (by simp [State.empty])]
  simp only [State.empty, Std.ExtTreeMap.getElem?_empty, reduceCtorEq, false_or, List.mem_map,
    Prod.mk.injEq, mem_getAllClassTraces]
  constructor
  · rintro ⟨_, ⟨hash', htrace⟩, rfl, rfl⟩
    rw [(h.trace htrace).1]
    exact htrace
  · exact fun htrace ↦ ⟨trace, ⟨hash, htrace⟩, (h.trace htrace).1, rfl⟩

theorem Act.port {a : Nft.AccAddress} {st st' : State} (hact : Act P U a st st') :
    st'.port = st.port := by
  cases hact with
  | register _ _ hok =>
    obtain ⟨st₁, hst₁, -, hissue⟩ := registerClass_eq_ok hok
    have hport : st₁.port = st.port := by rcases hst₁ with rfl | ⟨-, rfl⟩ <;> rfl
    rcases hissue with ⟨-, rfl⟩ | ⟨s, -, rfl⟩
    · exact hport
    · exact hport
  | issue | mint | edit | transfer | burn => rfl

theorem Reachable.port {st : State} (h : Reachable P st) : st.port = portID := by
  obtain ⟨τ, hτ⟩ := h
  have hkeep : ∀ a st st', Act P Set.univ a st st' → st.port = portID → st'.port = portID :=
    fun _ _ _ hact hport ↦ hact.port.trans hport
  have hstart : (State.start P).port = portID := rfl
  exact hτ.invariant (fun _ _ ↦ Set.subset_univ _) hstart hkeep

/-- The traces survive an export and an import. -/
structure TracesSurvive (P : Platform) (st : State) : Prop where
  /-- The export is accepted. -/
  accepted : (exportGenesis st).validate P = .ok ()
  /-- The import rebuilds the traces. -/
  rebuilt : ∀ s : Nft.Store,
    initGenesis P { State.empty with nft := s } (exportGenesis st) = { st with nft := s }
  /-- Every class of vouchers still has its path. -/
  resolved : ∀ path, Nft.hasDenomID st.nft (voucherID P path) = true → ∃ full,
    classPathFromHash st (voucherID P path) = .ok full ∧
      classPathFromHash (initGenesis P { State.empty with nft := st.nft } (exportGenesis st))
        (voucherID P path) = .ok full

theorem Classes.resolves {st : State} {D : Nft.Directory} (h : Classes P U st D) {path : Text}
    (hdenom : Nft.hasDenomID st.nft (voucherID P path) = true) :
    ∃ full, classPathFromHash st (voucherID P path) = .ok full := by
  obtain ⟨c, hc⟩ := Option.isSome_iff_exists.mp (h.represents.hasDenomID_iff.mp hdenom)
  rcases h.kinds _ c hc with hnative | ⟨e, rest, harrived⟩
  · exact absurd hnative (not_native_voucherID path)
  · have htraced := harrived.traced
    rw [← sha256_eq_of_voucherID_eq harrived.id] at htraced
    obtain ⟨trace, htrace⟩ := Option.isSome_iff_exists.mp htraced
    rw [classPathFromHash_voucherID, htrace]
    exact ⟨_, rfl⟩

/-- The traces survive an export and an import if and only if every path is a sequence of hops
followed by a base that is not blank. -/
theorem trace_genesis_round_trip_iff (hport : P.portIdentifierValidator portID = .ok ())
    {st : State} (h : Reachable P st) :
    TracesSurvive P st ↔
      ∀ trace ∈ getAllClassTraces st, IsClassPath P trace.getFullClassPath := by
  obtain ⟨D, hclasses, -⟩ := h.inv
  have haccepted : (exportGenesis st).validate P = .ok () ↔
      ∀ trace ∈ getAllClassTraces st, IsClassPath P trace.getFullClassPath := by
    have hvalid : (exportGenesis st).validate P = .ok () ↔
        ∀ trace ∈ getAllClassTraces st, trace.validate P = .ok () := by
      unfold GenesisState.validate exportGenesis
      rw [h.port, hport, ok_bind, validateTraces_eq_ok]
      exact ⟨fun hall ↦ hall.1, fun hall ↦ ⟨hall, hclasses.nodup_hashes, by simp⟩⟩
    rw [hvalid]
    refine forall₂_congr fun trace hmem ↦ ?_
    obtain ⟨hash, htrace⟩ := mem_getAllClassTraces.mp hmem
    exact (hclasses.trace htrace).2
  rw [← haccepted]
  refine ⟨TracesSurvive.accepted, fun hvalid ↦ ⟨hvalid, initGenesis_exportGenesis hclasses, ?_⟩⟩
  intro path hdenom
  obtain ⟨full, hfull⟩ := hclasses.resolves hdenom
  exact ⟨full, hfull, (initGenesis_exportGenesis hclasses st.nft).symm ▸ hfull⟩

section Histories

open Reference

/-- A class is issued whose name would not pass as an id. -/
def namedClass : List (Label platform) := [
  .deliver (.issueDenom "cat".toList "My Cats".toList [] alice [])]

/-- Neither a class with such a name nor a class of vouchers passes. -/
theorem nft_genesis_rejected :
    Reachable platform (after namedClass) ∧
      Nft.validateGenesis platform.codec (Nft.exportGenesis (after namedClass).nft) ≠ .ok () ∧
      Reachable platform (after twoClasses) ∧
      Nft.validateGenesis platform.codec (Nft.exportGenesis (after twoClasses).nft) ≠ .ok () :=
  ⟨reachable_after namedClass, by decide +kernel, reachable_after twoClasses, by decide +kernel⟩

theorem nft_genesis_round_trip_nativeClass :
    Nft.hasNFT (after nativeClass).nft "cat".toList "tom".toList = true ∧
      Nft.initGenesis platform.codec .empty (Nft.exportGenesis (after nativeClass).nft) =
        .ok (after nativeClass).nft :=
  ⟨by decide +kernel,
    ((nft_genesis_round_trip_iff (reachable_after nativeClass)).mpr (by decide +kernel)).2⟩

theorem trace_genesis_round_trip_twoClasses : TracesSurvive platform (after twoClasses) := by
  refine (trace_genesis_round_trip_iff (by decide) (reachable_after twoClasses)).mpr ?_
  have hpaths : (getAllClassTraces (after twoClasses)).map ClassTrace.getFullClassPath =
      [getClassPrefix end₀ ++ "dog".toList] := by decide +kernel
  intro trace htrace
  have hpath := List.mem_map_of_mem (f := ClassTrace.getFullClassPath) htrace
  rw [hpaths, List.mem_singleton] at hpath
  exact ⟨[end₀], "dog".toList, by simp, by decide, by decide, by rw [hpath]; simp⟩

/-- A packet arrives whose class id has a port without a channel. -/
def oddPath : List (Label platform) := [.recv (arriving end₀ "foo/bar".toList "rex".toList alice)]

/-- The token is minted, and the export is not accepted. -/
theorem trace_genesis_rejected :
    Reachable platform (after oddPath) ∧
      Nft.hasNFT (after oddPath).nft (voucherID platform "nft/channel-0/foo/bar".toList)
        "rex".toList = true ∧
      ¬ TracesSurvive platform (after oddPath) := by
  have hrejected : (exportGenesis (after oddPath)).validate platform ≠ .ok () := by decide +kernel
  exact ⟨reachable_after oddPath, by decide +kernel, fun hsurvive ↦ hrejected hsurvive.accepted⟩

end Histories

end ChainMain.NftTransfer
