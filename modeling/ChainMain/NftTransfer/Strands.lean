import ChainMain.NftTransfer.Network

/-!
# Tokens away from home

What every step of the network keeps: for a token and a channel there is at most one thing that
represents the token away from home, and if there is one the token is in escrow (`SafeAt`). The
argument is made for the registries that the stores of the chains hold (`Sound`). What the steps do
to them is of four kinds: an account moves its own tokens (`Private.voucher`, `Private.locked`), a
packet takes a token along (`SafeAt.of_sent`), a voucher takes the place of a packet
(`SafeAt.of_minted`), and a packet ends in that a token leaves its escrow account
(`SafeAt.of_unlocked`).
-/

set_option autoImplicit false

namespace ChainMain.NftTransfer

open Foundations Texts Outcomes Runs
open Nft (AccAddress Registry Represents Token hasDenomID hasNFT keyNFT)

variable {P : Platform} {ι : Type} {T : Topology P ι} {U : Set Text}

/-! ### Class paths in the network -/

/-- A class path: the id of a native class with channel ends before it. -/
inductive IsPath (P : Platform) : Text → Prop
  | native {base : Text} (h : '/' ∉ base) : IsPath P base
  | hop (e : ChannelEnd P) {rest : Text} (h : IsPath P rest) : IsPath P (getClassPrefix e ++ rest)

theorem slash_mem_classPrefix (e : ChannelEnd P) (rest : Text) :
    '/' ∈ getClassPrefix e ++ rest := by
  rw [getClassPrefix_append]
  simp

theorem IsPath.of_hop {e : ChannelEnd P} {rest : Text} (h : IsPath P (getClassPrefix e ++ rest)) :
    IsPath P rest := by
  generalize hpath : getClassPrefix e ++ rest = path at h
  cases h with
  | native hbase => exact absurd (hpath ▸ slash_mem_classPrefix e rest) hbase
  | hop e' hrest =>
    obtain ⟨-, rfl⟩ := classPrefix_append_inj hpath
    exact hrest

theorem IsPath.eq_of_classOf_eq (hU : Set.InjOn P.sha256 U) {path path' : Text} (h : IsPath P path)
    (h' : IsPath P path') (hmem : '/' ∈ path → path ∈ U) (hmem' : '/' ∈ path' → path' ∈ U)
    (heq : classOf P path = classOf P path') : path = path' := by
  cases h with
  | native hbase =>
    rw [classOf_of_not_mem hbase] at heq
    cases h' with
    | native hbase' => rwa [classOf_of_not_mem hbase'] at heq
    | hop e' =>
      rw [classOf_arrived] at heq
      exact absurd (heq ▸ slash_mem_voucherID _) hbase
  | hop e =>
    rw [classOf_arrived] at heq
    cases h' with
    | native hbase' =>
      rw [classOf_of_not_mem hbase'] at heq
      exact absurd (heq ▸ slash_mem_voucherID _) hbase'
    | hop e' =>
      rw [classOf_arrived] at heq
      exact hU (hmem (slash_mem_classPrefix e _)) (hmem' (slash_mem_classPrefix e' _))
        (sha256_eq_of_voucherID_eq heq)

/-- The paths that can arrive at a chain. -/
def Topology.arrivals (T : Topology P ι) (U : Set Text) (i : ι) : Set Text :=
  {path | path ∈ U ∧ ∃ e rest, (T.peer i e).isSome ∧ path = getClassPrefix e ++ rest ∧
    IsPath P rest}

theorem injOn_arrivals (hU : Set.InjOn P.sha256 U) (i : ι) : Set.InjOn P.sha256 (T.arrivals U i) :=
  hU.mono fun _ hpath ↦ hpath.1

/-- Every class of a chain has a full path, which leads back to the class. -/
theorem exists_fullClassPath {i : ι} {st : State} {R : Registry} {d : Text}
    (h : Holds P (T.arrivals U i) st R) (hU : Set.InjOn P.sha256 U) (hd : (R.classes d).isSome) :
    ∃ path, fullClassPath st d = .ok path ∧ classOf P path = d ∧ IsPath P path ∧
      ('/' ∈ path → path ∈ U) := by
  obtain ⟨c, hc⟩ := Option.isSome_iff_exists.mp hd
  rcases h.classes.kinds d c hc with hnative | ⟨e, rest, harrived⟩
  · have hslash := slash_not_mem_native hnative
    exact ⟨d, fullClassPath_native hslash, classOf_of_not_mem hslash, .native hslash,
      fun hmem ↦ absurd hmem hslash⟩
  · obtain ⟨hmem, e', rest', -, heq, hrest⟩ := harrived.used
    obtain ⟨rfl, rfl⟩ := classPrefix_append_inj heq
    refine ⟨getClassPrefix e ++ rest, ?_, (classOf_arrived e rest).trans harrived.id.symm,
      .hop e hrest, fun _ ↦ hmem⟩
    have hread := harrived.classPathFromHash h.classes (injOn_arrivals hU i)
    rw [harrived.id] at hread ⊢
    rw [fullClassPath_voucherID, hread]

/-! ### What represents a token -/

/-- The NFTs that exist in the registries of the chains. -/
def Present (R : ι → Registry) (i : ι) (d t : Text) : Prop := ((R i).tokens (d, t)).isSome

/-- The token is owned by the escrow account of the channel end it can leave over. -/
def LockedIn (R : ι → Registry) (k : Strand P ι) : Prop :=
  ∃ tok, (R k.home.1).tokens (classOf P k.path, k.token) = some tok ∧
    tok.owner = getEscrowAddress k.home.2

/-- At most one thing represents the token, and only while the token is in escrow. -/
structure SafeAt (R : ι → Registry) (flights : List (Flight P ι)) (k : Strand P ι) : Prop where
  unique : ∀ x y, HeldBy (Present R) flights k x → HeldBy (Present R) flights k y → x = y
  locked : ∀ x, HeldBy (Present R) flights k x → LockedIn R k

def Holder.packet : Holder → Option ℕ
  | .voucher => none
  | .outgoing n => some n
  | .returning n => some n

section Holders

variable {R R' : ι → Registry} {flights flights' : List (Flight P ι)} {k : Strand P ι}
  {present present' : ι → Text → Text → Prop} {f g : Flight P ι} {x : Holder} {n : ℕ}

theorem SafeAt.of_subset (h : SafeAt R flights k)
    (hsub : ∀ x, HeldBy (Present R') flights' k x → HeldBy (Present R) flights k x)
    (hlocked : ∀ x, HeldBy (Present R') flights' k x → LockedIn R k → LockedIn R' k) :
    SafeAt R' flights' k :=
  ⟨fun x y hx hy ↦ h.unique x y (hsub x hx) (hsub y hy),
    fun x hx ↦ hlocked x hx (h.locked x (hsub x hx))⟩

theorem SafeAt.of_replaced (h : SafeAt R flights k) {x₀ : Holder} (x₁ : Holder)
    (hold : HeldBy (Present R) flights k x₀)
    (hsub : ∀ x, HeldBy (Present R') flights' k x →
      x = x₁ ∨ HeldBy (Present R) flights k x ∧ x ≠ x₀)
    (hlocked : LockedIn R k → LockedIn R' k) : SafeAt R' flights' k := by
  have hnew : ∀ x, HeldBy (Present R') flights' k x → x = x₁ := fun x hx ↦
    (hsub x hx).resolve_right fun ⟨hx, hne⟩ ↦ hne (h.unique x x₀ hx hold)
  exact ⟨fun x y hx hy ↦ (hnew x hx).trans (hnew y hy).symm, fun _ _ ↦ hlocked (h.locked x₀ hold)⟩

theorem SafeAt.of_first (x₁ : Holder) (hnone : ∀ x, ¬ HeldBy (Present R) flights k x)
    (hsub : ∀ x, HeldBy (Present R') flights' k x → x = x₁ ∨ HeldBy (Present R) flights k x)
    (hlocked : LockedIn R' k) : SafeAt R' flights' k := by
  have hnew : ∀ x, HeldBy (Present R') flights' k x → x = x₁ := fun x hx ↦
    (hsub x hx).resolve_right (hnone x)
  exact ⟨fun x y hx hy ↦ (hnew x hx).trans (hnew y hy).symm, fun _ _ ↦ hlocked⟩

theorem HeldBy.mono (h : HeldBy present flights k x)
    (hvoucher : present k.away.1 k.voucher k.token → present' k.away.1 k.voucher k.token) :
    HeldBy present' flights k x := by
  cases x with
  | voucher => exact hvoucher h
  | outgoing n => exact h
  | returning n => exact h

theorem heldBy_append (h : HeldBy present (flights ++ [f]) k x) :
    HeldBy present flights k x ∨
      x = .outgoing flights.length ∧ f.Carries k.home k.away k.path k.token ∨
      x = .returning flights.length ∧
        f.Carries k.away k.home (getClassPrefix k.away.2 ++ k.path) k.token := by
  have hcases : ∀ m g, (flights ++ [f])[m]? = some g →
      flights[m]? = some g ∨ m = flights.length ∧ f = g := by
    intro m g hg
    rw [List.getElem?_append] at hg
    split_ifs at hg with hm
    · exact Or.inl hg
    · obtain ⟨hindex, heq⟩ := List.getElem?_eq_some_iff.mp hg
      rw [List.getElem_singleton] at heq
      rw [List.length_singleton] at hindex
      exact Or.inr ⟨by omega, heq⟩
  cases x with
  | voucher => exact Or.inl h
  | outgoing m =>
    obtain ⟨g, hg, hcarries⟩ := h
    rcases hcases m g hg with hold | ⟨rfl, rfl⟩
    · exact Or.inl ⟨g, hold, hcarries⟩
    · exact Or.inr (Or.inl ⟨rfl, hcarries⟩)
  | returning m =>
    obtain ⟨g, hg, hcarries⟩ := h
    rcases hcases m g hg with hold | ⟨rfl, rfl⟩
    · exact Or.inl ⟨g, hold, hcarries⟩
    · exact Or.inr (Or.inr ⟨rfl, hcarries⟩)

theorem getElem?_set_cases {m : ℕ} (h : (flights.set n g)[m]? = some f) :
    m = n ∧ f = g ∨ m ≠ n ∧ flights[m]? = some f := by
  rw [List.getElem?_set] at h
  split_ifs at h with hm hn
  · exact Or.inl ⟨hm.symm, (Option.some.inj h).symm⟩
  · exact Or.inr ⟨fun heq ↦ hm heq.symm, h⟩

theorem heldBy_set (hclosed : ¬ g.Open) (h : HeldBy present (flights.set n g) k x) :
    HeldBy present flights k x ∧ x.packet ≠ some n := by
  have hpacket : ∀ m src dst path, (∃ f, (flights.set n g)[m]? = some f ∧
      f.Carries src dst path k.token) →
      (∃ f, flights[m]? = some f ∧ f.Carries src dst path k.token) ∧ some m ≠ some n := by
    rintro m src dst path ⟨f, hf, hcarries⟩
    rcases getElem?_set_cases hf with ⟨-, rfl⟩ | ⟨hne, hf⟩
    · exact absurd hcarries.1 hclosed
    · exact ⟨⟨f, hf, hcarries⟩, fun heq ↦ hne (Option.some.inj heq)⟩
  cases x with
  | voucher => exact ⟨h, fun heq ↦ nomatch heq⟩
  | outgoing m => exact hpacket m _ _ _ h
  | returning m => exact hpacket m _ _ _ h

theorem heldBy_set_open (hf : flights[n]? = some f) (hopen : f.Open) {status : Status}
    (h : HeldBy present (flights.set n { f with status }) k x) : HeldBy present flights k x := by
  have hpacket : ∀ (m : ℕ) src dst path, (∃ g : Flight P ι,
      (flights.set n { f with status })[m]? = some g ∧ g.Carries src dst path k.token) →
      ∃ g : Flight P ι, flights[m]? = some g ∧ g.Carries src dst path k.token := by
    rintro m src dst path ⟨g, hg, hcarries⟩
    rcases getElem?_set_cases hg with ⟨rfl, rfl⟩ | ⟨-, hg⟩
    · exact ⟨f, hf, hopen, hcarries.2⟩
    · exact ⟨g, hg, hcarries⟩
  cases x with
  | voucher => exact h
  | outgoing m => exact hpacket m _ _ _ h
  | returning m => exact hpacket m _ _ _ h

end Holders

/-! ### The registries of the network -/

/-- The packet goes between the ends of a channel and holds data about a class path. -/
def Flight.WellFormed (T : Topology P ι) (f : Flight P ι) : Prop :=
  T.peer f.source f.packet.source = some (f.dest, f.packet.dest) ∧
    ∃ data, f.packet.data = some data ∧ IsPath P data.classId

/-- The chains hold these registries, the packets are well formed, and the tokens are safe. -/
structure Sound (T : Topology P ι) (U : Set Text) (N : Network P ι) (R : ι → Registry) : Prop where
  chains : ∀ i, Holds P (T.arrivals U i) (N.chains i) (R i)
  flights : ∀ f ∈ N.flights, f.WellFormed T
  safe : ∀ k : Strand P ι, k.Proper T U → SafeAt R N.flights k

section Proper

variable {N : Network P ι} {R R' : ι → Registry} {k : Strand P ι} {i : ι} {e : ChannelEnd P}

theorem Strand.Proper.linked_away (hk : k.Proper T U) : T.peer k.away.1 k.away.2 = some k.home :=
  T.symm hk.linked

/-- The class of the vouchers has arrived at the other end of the channel. -/
theorem Sound.voucher_class (hR : Sound T U N R) (hU : Set.InjOn P.sha256 U) (hk : k.Proper T U)
    {c : Nft.Class} (hc : (R k.away.1).classes k.voucher = some c) :
    c.creator = getEscrowAddress k.away.2 ∧ IsPath P k.path := by
  rcases (hR.chains k.away.1).classes.kinds _ c hc with hnative | ⟨e, rest, harrived⟩
  · exact absurd hnative (not_native_voucherID _)
  · have heq := hU hk.voucher_mem harrived.used.1 (sha256_eq_of_voucherID_eq harrived.id)
    obtain ⟨-, e', rest', -, heq', hrest⟩ := harrived.used
    obtain ⟨rfl, rfl⟩ := classPrefix_append_inj heq'
    obtain ⟨rfl, rfl⟩ := classPrefix_append_inj heq
    exact ⟨harrived.creator, hrest⟩

theorem Sound.isPath (hR : Sound T U N R) (hU : Set.InjOn P.sha256 U) (hk : k.Proper T U)
    {x : Holder} (hx : HeldBy (Present R) N.flights k x) : IsPath P k.path := by
  have hpacket : ∀ f ∈ N.flights, ∀ src dst path, f.Carries src dst path k.token →
      IsPath P path := by
    rintro f hf src dst path ⟨-, -, -, data, hdata, rfl, -⟩
    obtain ⟨-, data', hdata', hpath⟩ := hR.flights f hf
    obtain rfl := Option.mem_unique hdata hdata'
    exact hpath
  cases x with
  | voucher =>
    obtain ⟨tok, htok⟩ := Option.isSome_iff_exists.mp hx
    obtain ⟨c, hc⟩ := Option.isSome_iff_exists.mp ((R k.away.1).inhabited htok)
    exact (hR.voucher_class hU hk hc).2
  | outgoing n =>
    obtain ⟨f, hf, hcarries⟩ := hx
    exact hpacket f (List.mem_of_getElem? hf) _ _ _ hcarries
  | returning n =>
    obtain ⟨f, hf, hcarries⟩ := hx
    exact (hpacket f (List.mem_of_getElem? hf) _ _ _ hcarries).of_hop

theorem Private.voucher {a : AccAddress} (hR : Sound T U N R) (hU : Set.InjOn P.sha256 U)
    (hk : k.Proper T U) (hfree : T.Free i a) (hprivate : Private a (R i) (R' i))
    (hother : ∀ j, j ≠ i → R' j = R j) (h : Present R' k.away.1 k.voucher k.token) :
    Present R k.away.1 k.voucher k.token := by
  by_cases hi : k.away.1 = i
  · subst hi
    by_contra hnot
    rw [Present, Option.not_isSome_iff_eq_none] at hnot
    obtain ⟨c, hc, hcreator⟩ := hprivate.created _ hnot h
    refine hfree k.away.2 (Option.isSome_iff_exists.mpr ⟨_, hk.linked_away⟩) ?_
    exact hcreator.symm.trans (hR.voucher_class hU hk hc).1
  · rwa [Present, hother _ hi] at h

theorem Private.locked {a : AccAddress} (hk : k.Proper T U) (hfree : T.Free i a)
    (hprivate : Private a (R i) (R' i)) (hother : ∀ j, j ≠ i → R' j = R j) (h : LockedIn R k) :
    LockedIn R' k := by
  obtain ⟨tok, htok, howner⟩ := h
  refine ⟨tok, ?_, howner⟩
  by_cases hi : k.home.1 = i
  · subst hi
    refine hprivate.kept _ tok htok fun heq ↦ ?_
    exact hfree k.home.2 (Option.isSome_iff_exists.mpr ⟨_, hk.linked⟩) (heq.symm.trans howner)
  · rwa [hother _ hi]

theorem SafeAt.of_private {a : AccAddress} (hR : Sound T U N R) (hU : Set.InjOn P.sha256 U)
    (hk : k.Proper T U) (hfree : T.Free i a) (hprivate : Private a (R i) (R' i))
    (hother : ∀ j, j ≠ i → R' j = R j) : SafeAt R' N.flights k :=
  (hR.safe k hk).of_subset (fun _ hx ↦ hx.mono (hprivate.voucher hR hU hk hfree hother))
    fun _ _ ↦ hprivate.locked hk hfree hother

theorem SentBy.owner {source : ChannelEnd P} {away : Bool} {a : AccAddress} {o o' : Option Token}
    (h : SentBy source away a o o') : ∃ tok, o = some tok ∧ tok.owner = a := by
  cases away with
  | true =>
    obtain ⟨tok, ho, howner, -⟩ := h
    exact ⟨tok, ho, howner⟩
  | false =>
    obtain ⟨tok, ho, howner, -⟩ := h
    exact ⟨tok, ho, howner⟩

theorem not_carries_both (hk : k.Proper T U) {f : Flight P ι}
    (hout : f.Carries k.home k.away k.path k.token)
    (hback : f.Carries k.away k.home (getClassPrefix k.away.2 ++ k.path) k.token) : False := by
  obtain ⟨-, hhome, -, data, hdata, hpath, -⟩ := hout
  obtain ⟨-, haway, -, data', hdata', hpath', -⟩ := hback
  obtain rfl := Option.mem_unique hdata hdata'
  have hinward : isAwayFromOrigin k.home.2 k.path = false := by
    rw [isAwayFromOrigin_eq_false, ← hhome, haway]
    exact ⟨k.path, hpath.symm.trans hpath'⟩
  exact absurd hk.outward (by rw [hinward]; decide)

section Sent

variable {a : AccAddress} {j : ι} {packet : Packet P} {data : PacketData}

theorem SafeAt.of_escrowed (hR : Sound T U N R) (hU : Set.InjOn P.sha256 U) (hk : k.Proper T U)
    (hfree : T.Free i a) (hother : ∀ j, j ≠ i → R' j = R j) (hdata : packet.data = some data)
    (hchanged : Changed (SentBy packet.source (isAwayFromOrigin packet.source data.classId) a) (R i)
      (R' i) (classOf P data.classId) data.tokenIds)
    (hout : Flight.Carries ⟨i, j, packet, .sent⟩ k.home k.away k.path k.token) :
    SafeAt R' (N.flights ++ [⟨i, j, packet, .sent⟩]) k := by
  have hprivate : Private a (R i) (R' i) := .of_changed hchanged fun _ _ hrel ↦ hrel.owner
  have hvoucher := hprivate.voucher hR hU hk hfree hother
  obtain ⟨-, hhome, -, data', hdata', hpath, htoken⟩ := id hout
  obtain rfl := Option.mem_unique hdata hdata'
  have houtward := hk.outward
  rw [← hpath, ← hhome] at houtward
  rw [houtward] at hchanged
  obtain ⟨tok, htok, howner, hafter⟩ := hchanged.inside k.token htoken
  -- the token was its owner's, so nothing has represented it
  have hnone : ∀ x, ¬ HeldBy (Present R) N.flights k x := by
    intro x hx
    obtain ⟨tok', htok', howner'⟩ := (hR.safe k hk).locked x hx
    rw [← hhome, ← hpath] at htok'
    obtain rfl := Option.mem_unique htok htok'
    refine hfree k.home.2 ?_ (howner.symm.trans howner')
    have hlinked := hk.linked
    rw [← hhome] at hlinked ⊢
    exact Option.isSome_iff_exists.mpr ⟨_, hlinked⟩
  have hlocked : LockedIn R' k := by
    refine ⟨{ tok with owner := getEscrowAddress packet.source }, ?_, ?_⟩
    · rw [← hhome, ← hpath]
      exact hafter
    · rw [← hhome]
  refine .of_first (.outgoing N.flights.length) hnone (fun x hx ↦ ?_) hlocked
  rcases heldBy_append hx with hx | ⟨rfl, -⟩ | ⟨-, hback⟩
  · exact Or.inr (hx.mono hvoucher)
  · exact Or.inl rfl
  · exact (not_carries_both hk hout hback).elim

theorem SafeAt.of_burned (hR : Sound T U N R) (hU : Set.InjOn P.sha256 U) (hk : k.Proper T U)
    (hfree : T.Free i a) (hother : ∀ j, j ≠ i → R' j = R j) (hdata : packet.data = some data)
    (hchanged : Changed (SentBy packet.source (isAwayFromOrigin packet.source data.classId) a) (R i)
      (R' i) (classOf P data.classId) data.tokenIds)
    (hback : Flight.Carries ⟨i, j, packet, .sent⟩ k.away k.home (getClassPrefix k.away.2 ++ k.path)
      k.token) :
    SafeAt R' (N.flights ++ [⟨i, j, packet, .sent⟩]) k := by
  have hprivate : Private a (R i) (R' i) := .of_changed hchanged fun _ _ hrel ↦ hrel.owner
  have hvoucher := hprivate.voucher hR hU hk hfree hother
  obtain ⟨-, haway, -, data', hdata', hpath, htoken⟩ := id hback
  obtain rfl := Option.mem_unique hdata hdata'
  have hinward : isAwayFromOrigin packet.source data.classId = false := by
    rw [isAwayFromOrigin_eq_false, hpath, ← haway]
    exact ⟨k.path, rfl⟩
  rw [hinward, hpath, classOf_arrived] at hchanged
  obtain ⟨tok, htok, -, hafter⟩ := hchanged.inside k.token htoken
  have hi : k.away.1 = i := congrArg Prod.fst haway.symm
  have hold : HeldBy (Present R) N.flights k .voucher := by
    rw [HeldBy, Present, hi]
    exact Option.isSome_iff_exists.mpr ⟨tok, htok⟩
  have hgone : ¬ Present R' k.away.1 k.voucher k.token := by
    rw [Present, hi, Option.not_isSome_iff_eq_none]
    exact hafter
  refine (hR.safe k hk).of_replaced (.returning N.flights.length) hold (fun x hx ↦ ?_)
    (hprivate.locked hk hfree hother)
  rcases heldBy_append hx with hx | ⟨-, hout⟩ | ⟨rfl, -⟩
  · refine Or.inr ⟨hx.mono hvoucher, ?_⟩
    rintro rfl
    exact hgone hx
  · exact (not_carries_both hk hout hback).elim
  · exact Or.inl rfl

theorem SafeAt.of_sent (hR : Sound T U N R) (hU : Set.InjOn P.sha256 U) (hk : k.Proper T U)
    (hfree : T.Free i a) (hother : ∀ j, j ≠ i → R' j = R j) (hdata : packet.data = some data)
    (hchanged : Changed (SentBy packet.source (isAwayFromOrigin packet.source data.classId) a) (R i)
      (R' i) (classOf P data.classId) data.tokenIds) :
    SafeAt R' (N.flights ++ [⟨i, j, packet, .sent⟩]) k := by
  by_cases hout : Flight.Carries ⟨i, j, packet, .sent⟩ k.home k.away k.path k.token
  · exact .of_escrowed hR hU hk hfree hother hdata hchanged hout
  by_cases hback : Flight.Carries ⟨i, j, packet, .sent⟩ k.away k.home
      (getClassPrefix k.away.2 ++ k.path) k.token
  · exact .of_burned hR hU hk hfree hother hdata hchanged hback
  have hprivate : Private a (R i) (R' i) := .of_changed hchanged fun _ _ hrel ↦ hrel.owner
  refine (hR.safe k hk).of_subset (fun x hx ↦ ?_) fun _ _ ↦ hprivate.locked hk hfree hother
  rcases heldBy_append hx with hx | ⟨-, hout'⟩ | ⟨-, hback'⟩
  · exact hx.mono (hprivate.voucher hR hU hk hfree hother)
  · exact absurd hout' hout
  · exact absurd hback' hback

end Sent

/-! ### Packets that end -/

section Ended

variable {n : ℕ} {f g : Flight P ι} {b : AccAddress} {path : Text} {ids : List Text}

/-- Vouchers take the place of the packet with the number `n`. -/
theorem SafeAt.of_minted {R₁ : Registry} (hR : Sound T U N R) (hU : Set.InjOn P.sha256 U)
    (hk : k.Proper T U) (hother : ∀ j, j ≠ i → R' j = R j) (hclosed : ¬ g.Open)
    (hpath : getClassPrefix e ++ path ∈ U) (htokens : R₁.tokens = (R i).tokens)
    (hchanged : Changed (Created b) R₁ (R' i) (voucherID P (getClassPrefix e ++ path)) ids)
    (hheld : k.away = (i, e) → k.path = path → k.token ∈ ids →
      ∃ x₀, HeldBy (Present R) N.flights k x₀ ∧ x₀.packet = some n) :
    SafeAt R' (N.flights.set n g) k := by
  have hlocked : LockedIn R k → LockedIn R' k := by
    rintro ⟨tok, htok, howner⟩
    refine ⟨tok, ?_, howner⟩
    by_cases hi : k.home.1 = i
    · rw [hi, ← htokens] at htok
      rw [hi, hchanged.outside, htok]
      intro (hd : classOf P k.path = _) ht
      rw [hd, (hchanged.inside _ ht).1] at htok
      cases htok
    · rwa [hother _ hi]
  by_cases hmine : k.away = (i, e) ∧ k.path = path ∧ k.token ∈ ids
  · obtain ⟨haway, hpath, htoken⟩ := hmine
    obtain ⟨x₀, hx₀, hn⟩ := hheld haway hpath htoken
    refine (hR.safe k hk).of_replaced .voucher hx₀ (fun x hx ↦ ?_) hlocked
    obtain ⟨hx, hne⟩ := heldBy_set hclosed hx
    cases x with
    | voucher => exact Or.inl rfl
    | outgoing m => exact Or.inr ⟨hx, fun heq ↦ hne (heq ▸ hn)⟩
    | returning m => exact Or.inr ⟨hx, fun heq ↦ hne (heq ▸ hn)⟩
  · refine (hR.safe k hk).of_subset (fun x hx ↦ ?_) fun _ _ ↦ hlocked
    refine (heldBy_set hclosed hx).1.mono fun hvoucher ↦ ?_
    by_cases hi : k.away.1 = i
    · rw [Present, hi, hchanged.outside, htokens] at hvoucher
      · rwa [Present, hi]
      · -- another class would have the same hash
        intro hd ht
        have heq := hU hk.voucher_mem hpath (sha256_eq_of_voucherID_eq hd)
        obtain ⟨he, hp⟩ := classPrefix_append_inj heq
        exact hmine ⟨Prod.ext hi he, hp, ht⟩
    · rwa [Present, hother _ hi] at hvoucher

/-- The packet with the number `n` ends in that its tokens leave the escrow account. -/
theorem SafeAt.of_unlocked (hR : Sound T U N R) (hU : Set.InjOn P.sha256 U)
    (hE : Set.InjOn getEscrowAddress {e | (T.peer i e).isSome}) (hk : k.Proper T U)
    (hother : ∀ j, j ≠ i → R' j = R j) (hclosed : ¬ g.Open) (he : (T.peer i e).isSome)
    (hpath : IsPath P path) (hmem : path ∈ U)
    (hchanged : Changed (Handed (getEscrowAddress e) b) (R i) (R' i) (classOf P path) ids)
    (hheld : k.home = (i, e) → k.path = path → k.token ∈ ids →
      ∃ x₀, HeldBy (Present R) N.flights k x₀ ∧ x₀.packet = some n) :
    SafeAt R' (N.flights.set n g) k := by
  have hsub : ∀ x, HeldBy (Present R') (N.flights.set n g) k x →
      HeldBy (Present R) N.flights k x ∧ x.packet ≠ some n := by
    intro x hx
    obtain ⟨hx, hne⟩ := heldBy_set hclosed hx
    refine ⟨hx.mono fun hvoucher ↦ ?_, hne⟩
    by_cases hi : k.away.1 = i
    · rw [Present, hi] at hvoucher ⊢
      by_cases hin : k.voucher = classOf P path ∧ k.token ∈ ids
      · obtain ⟨tok, htok, -⟩ := hchanged.inside _ hin.2
        rw [hin.1, htok]
        rfl
      · rwa [hchanged.outside _ fun hd ht ↦ hin ⟨hd, ht⟩] at hvoucher
    · rwa [Present, hother _ hi] at hvoucher
  refine (hR.safe k hk).of_subset (fun x hx ↦ (hsub x hx).1) fun x hx hold ↦ ?_
  obtain ⟨hbefore, hne⟩ := hsub x hx
  obtain ⟨tok, htok, howner⟩ := hold
  refine ⟨tok, ?_, howner⟩
  by_cases hi : k.home.1 = i
  · rw [hi] at htok ⊢
    rw [hchanged.outside, htok]
    -- the token that is released was represented by the packet
    intro (hd : classOf P k.path = _) ht
    obtain ⟨tok', htok', howner', -⟩ := hchanged.inside _ ht
    rw [hd, htok'] at htok
    obtain rfl := Option.some.inj htok
    have hend : (T.peer i k.home.2).isSome := by
      rw [← hi]
      exact Option.isSome_iff_exists.mpr ⟨_, hk.linked⟩
    have he' := hE hend he (howner.symm.trans howner')
    have hp := (hR.isPath hU hk hbefore).eq_of_classOf_eq hU hpath (fun _ ↦ hk.path_mem)
      (fun _ ↦ hmem) hd
    obtain ⟨x₀, hx₀, hn⟩ := hheld (Prod.ext hi he') hp ht
    exact hne ((hR.safe k hk).unique x x₀ hbefore hx₀ ▸ hn)
  · rwa [hother _ hi]

end Ended

end Proper

end ChainMain.NftTransfer
