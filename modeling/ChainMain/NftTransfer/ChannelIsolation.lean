import ChainMain.NftTransfer.Effects
import ChainMain.NftTransfer.StoreConsistency

/-!
# A channel cannot reach beyond its own tokens

Packets received at one channel end can hand over tokens that the escrow account of this end owns,
and mint tokens in classes that have come in over this end. All other NFTs stay as they are,
whatever is in the packets (`Isolated`, `channel_isolation`). This holds as long as the chain does
not have both the native class `ibc` and a class of vouchers, which can be seen from the state
before the packets and from the packets (`isolated_of_before`).

With both of them, a packet that returns the token `HASH/t` of the class `ibc` reads the record of a
voucher in escrow and overwrites the token `t` of the class `ibc`, whoever owns it
(`channel_isolation_broken`).
-/

set_option autoImplicit false

namespace ChainMain.NftTransfer

open Foundations Texts Outcomes OrderedStore Runs
open Nft (AccAddress BaseNFT Denom Registry Represents hasDenomID hasNFT getDenom keyNFT)

variable {P : Platform} {U : Set Text}
variable {e : ChannelEnd P} {packet : Packet P} {R R' : Registry} {st st' : State} {d : Text}

def Exists (st : State) (d t : Text) : Prop :=
  hasDenomID st.nft d = true ∧ hasNFT st.nft d t = true

instance (st : State) (d t : Text) : Decidable (Exists st d t) :=
  inferInstanceAs (Decidable (_ ∧ _))

/-- The denom belongs to the channel end: its full path begins with the end, and its creator is the
escrow account of the end. -/
def BelongsTo (e : ChannelEnd P) (st : State) (d : Text) : Prop :=
  ∃ denom rest, getDenom st.nft d = .ok denom ∧
    denom.creator = P.codec.string (getEscrowAddress e) ∧
    classPathFromHash st d = .ok (getClassPrefix e ++ rest)

/-- Between two states, NFTs have changed only as the channel end may change them. -/
structure Isolated (e : ChannelEnd P) (st st' : State) : Prop where
  /-- An NFT that is not in escrow for the end is the same. -/
  kept : ∀ d t nft, hasDenomID st.nft d = true → st.nft.nfts[keyNFT d t]? = some nft →
    nft.owner ≠ P.codec.string (getEscrowAddress e) → st'.nft.nfts[keyNFT d t]? = some nft
  /-- Any NFT is the same up to its owner. -/
  handed : ∀ d t nft, hasDenomID st.nft d = true → st.nft.nfts[keyNFT d t]? = some nft →
    ∃ owner, st'.nft.nfts[keyNFT d t]? = some { nft with owner }
  /-- A new NFT is in a class that belongs to the end. -/
  minted : ∀ d t, Exists st' d t → ¬ Exists st d t → BelongsTo e st' d
  /-- A denom is the same. -/
  denoms : ∀ d denom, getDenom st.nft d = .ok denom → getDenom st'.nft d = .ok denom
  /-- A new denom belongs to the end. -/
  issued : ∀ d, hasDenomID st'.nft d = true → hasDenomID st.nft d = false → BelongsTo e st' d
  /-- A denom has the same path. -/
  paths : ∀ d path, classPathFromHash st d = .ok path → classPathFromHash st' d = .ok path

theorem exists_iff_isSome (h : Represents P.codec st.nft R) {d t : Text} :
    Exists st d t ↔ (R.tokens (d, t)).isSome := by
  refine ⟨fun ⟨hd, hnft⟩ ↦ (h.hasNFT_iff (h.hasDenomID_iff.mp hd)).mp hnft, fun hsome ↦ ?_⟩
  obtain ⟨tok, htok⟩ := Option.isSome_iff_exists.mp hsome
  have hd := R.inhabited htok
  exact ⟨h.hasDenomID_iff.mpr hd, (h.hasNFT_iff hd).mpr hsome⟩

namespace Isolated

variable {e : ChannelEnd P} {st st₁ st' : State}

theorem refl (e : ChannelEnd P) (st : State) : Isolated e st st where
  kept := fun _ _ _ _ h _ ↦ h
  handed := fun _ _ nft _ h ↦ ⟨nft.owner, h⟩
  minted := fun _ _ h hnot ↦ absurd h hnot
  denoms := fun _ _ h ↦ h
  issued := fun _ h hnot ↦ by rw [h] at hnot; cases hnot
  paths := fun _ _ h ↦ h

theorem hasDenomID (h : Isolated e st st') (hd : Nft.hasDenomID st.nft d = true) :
    Nft.hasDenomID st'.nft d = true := by
  obtain ⟨denom, hdenom⟩ := exists_getDenom hd
  exact hasDenomID_of_getDenom (h.denoms d denom hdenom)

theorem belongsTo (h : Isolated e st st') (hd : BelongsTo e st d) : BelongsTo e st' d := by
  obtain ⟨denom, rest, hdenom, hcreator, hpath⟩ := hd
  exact ⟨denom, rest, h.denoms d denom hdenom, hcreator, h.paths d _ hpath⟩

theorem trans (h : Isolated e st st₁) (h' : Isolated e st₁ st') : Isolated e st st' where
  kept :=
    fun d t nft hd hnft howner ↦
      h'.kept d t nft (h.hasDenomID hd) (h.kept d t nft hd hnft howner) howner
  handed := by
    intro d t nft hd hnft
    obtain ⟨owner, hnft₁⟩ := h.handed d t nft hd hnft
    obtain ⟨owner', hnft'⟩ := h'.handed d t _ (h.hasDenomID hd) hnft₁
    exact ⟨owner', hnft'⟩
  minted := by
    intro d t hafter hbefore
    by_cases hbetween : Exists st₁ d t
    · exact h'.belongsTo (h.minted d t hbetween hbefore)
    · exact h'.minted d t hafter hbetween
  denoms := fun d denom hdenom ↦ h'.denoms d denom (h.denoms d denom hdenom)
  issued := by
    intro d hafter hbefore
    cases hbetween : Nft.hasDenomID st₁.nft d with
    | true => exact h'.belongsTo (h.issued d hbetween hbefore)
    | false => exact h'.issued d hafter hbetween
  paths := fun d path hpath ↦ h'.paths d path (h.paths d path hpath)

end Isolated

/-! ### One packet -/

/-- What a received packet does to tokens and classes, as seen from outside its channel end. -/
structure Confined (packet : Packet P) (R R' : Registry) : Prop where
  kept : ∀ i tok, R.tokens i = some tok → tok.owner ≠ getEscrowAddress packet.dest →
    R'.tokens i = some tok
  handed : ∀ i tok, R.tokens i = some tok → ∃ owner, R'.tokens i = some { tok with owner }
  minted : ∀ i, (R'.tokens i).isSome → R.tokens i = none →
    ∃ data ∈ packet.data, i.1 = voucherID P (getClassPrefix packet.dest ++ data.classId)
  classes : ∀ d c, R.classes d = some c → R'.classes d = some c
  issued : ∀ d, (R'.classes d).isSome → R.classes d = none →
    ∃ data ∈ packet.data, d = voucherID P (getClassPrefix packet.dest ++ data.classId)

theorem Confined.of_minted {data : PacketData} {receiver : AccAddress}
    {R R₁ R' : Registry} (hdata : packet.data = some data)
    (hgrown : Grown R R₁ (voucherID P (getClassPrefix packet.dest ++ data.classId)))
    (hchanged : Changed (Created receiver) R₁ R'
      (voucherID P (getClassPrefix packet.dest ++ data.classId)) data.tokenIds) :
    Confined packet R R' := by
  have hsame : ∀ i tok, R.tokens i = some tok → R'.tokens i = some tok := by
    rintro ⟨d, t⟩ tok htok
    rw [← hgrown.tokens] at htok
    rw [hchanged.outside (d, t), htok]
    rintro rfl ht
    rw [(hchanged.inside t ht).1] at htok
    cases htok
  have hclasses : R'.classes = R₁.classes := by rw [hchanged.directory]
  refine ⟨fun i tok htok _ ↦ hsame i tok htok, fun i tok htok ↦ ⟨tok.owner, hsame i tok htok⟩, ?_,
    fun d c hc ↦ by rw [hclasses]; exact hgrown.kept d c hc, ?_⟩
  · intro i hsome hnone
    refine ⟨data, hdata, ?_⟩
    by_contra hne
    rw [hchanged.outside i fun heq ↦ absurd heq hne, hgrown.tokens, hnone] at hsome
    cases hsome
  · intro d hsome hnone
    refine ⟨data, hdata, ?_⟩
    by_contra hne
    rw [hclasses, hgrown.others d hne, hnone] at hsome
    cases hsome

theorem Confined.of_released {ids : List Text} {receiver : AccAddress}
    (hchanged : Changed (Handed (getEscrowAddress packet.dest) receiver) R R' d ids) :
    Confined packet R R' := by
  have hcases : ∀ i, R'.tokens i = R.tokens i ∨
      Handed (getEscrowAddress packet.dest) receiver (R.tokens i) (R'.tokens i) := by
    rintro ⟨d', t⟩
    by_cases hin : d' = d ∧ t ∈ ids
    · obtain ⟨rfl, ht⟩ := hin
      exact Or.inr (hchanged.inside t ht)
    · exact Or.inl (hchanged.outside (d', t) fun hd ht ↦ hin ⟨hd, ht⟩)
  have hclasses : R'.classes = R.classes := by rw [hchanged.directory]
  refine ⟨fun i tok htok howner ↦ ?_, fun i tok htok ↦ ?_, fun i hsome hnone ↦ ?_,
    fun d c hc ↦ by rw [hclasses, hc], fun d hsome hnone ↦ ?_⟩
  · rcases hcases i with heq | ⟨tok', htok', howner', -⟩
    · rw [heq, htok]
    · obtain rfl := Option.mem_unique htok htok'
      exact absurd howner' howner
  · rcases hcases i with heq | ⟨tok', htok', -, hafter⟩
    · exact ⟨tok.owner, by rw [heq, htok]⟩
    · obtain rfl := Option.mem_unique htok htok'
      exact ⟨receiver, hafter⟩
  · rcases hcases i with heq | ⟨tok', htok', -⟩
    · rw [heq, hnone] at hsome
      cases hsome
    · rw [hnone] at htok'
      cases htok'
  · rw [hclasses, hnone] at hsome
    cases hsome

theorem RecvEffect.confined {ack : Acknowledgement}
    (h : RecvEffect packet R ack R') : Confined packet R R' := by
  cases h with
  | rejected =>
    refine ⟨fun _ _ htok _ ↦ htok, fun _ tok htok ↦ ⟨tok.owner, htok⟩, fun i hsome hnone ↦ ?_,
      fun _ _ hc ↦ hc, fun d hsome hnone ↦ ?_⟩
    · rw [hnone] at hsome
      cases hsome
    · rw [hnone] at hsome
      cases hsome
  | minted hdata _ hgrown hchanged => exact .of_minted hdata hgrown hchanged
  | released _ _ hchanged => exact .of_released hchanged

/-- A class that has come in with a packet belongs to the end it has come in at. -/
theorem Holds.belongsTo (h : Holds P U st R) (hU : Set.InjOn P.sha256 U)
    {rest : Text} (hpath : getClassPrefix e ++ rest ∈ U)
    (hd : (R.classes (voucherID P (getClassPrefix e ++ rest))).isSome) :
    BelongsTo e st (voucherID P (getClassPrefix e ++ rest)) := by
  obtain ⟨c, hc⟩ := Option.isSome_iff_exists.mp hd
  have harrived := h.classes.arrived hU hpath hc
  refine ⟨c.denom P.codec (voucherID P (getClassPrefix e ++ rest)), rest, ?_, ?_,
    harrived.classPathFromHash h.classes hU⟩
  · rw [getDenom, expect_eq_ok, h.represents.getElem?_denoms, hc]
    rfl
  · exact congrArg P.codec.string harrived.creator

theorem Confined.isolated (h : Confined packet R R') (hR : Holds P U st R) (hR' : Holds P U st' R')
    (hU : Set.InjOn P.sha256 U) (harrivals : (Label.recv packet).arrivals ⊆ U)
    (hpaths : ∀ d path, classPathFromHash st d = .ok path → classPathFromHash st' d = .ok path) :
    Isolated packet.dest st st' := by
  have hclass : ∀ d, (R.classes d).isSome → (R'.classes d).isSome := by
    intro d hd
    obtain ⟨c, hc⟩ := Option.isSome_iff_exists.mp hd
    exact Option.isSome_iff_exists.mpr ⟨c, h.classes d c hc⟩
  have hrecord : ∀ d t nft, hasDenomID st.nft d = true → st.nft.nfts[keyNFT d t]? = some nft →
      (R'.classes d).isSome ∧ ∃ tok, R.tokens (d, t) = some tok ∧ tok.record P.codec t = nft := by
    intro d t nft hd hnft
    have hd := hR.represents.hasDenomID_iff.mp hd
    rw [hR.represents.getElem?_nfts hd, Option.map_eq_some_iff] at hnft
    exact ⟨hclass d hd, hnft⟩
  refine ⟨?_, ?_, ?_, ?_, ?_, hpaths⟩
  · intro d t nft hd hnft howner
    obtain ⟨hd', tok, htok, rfl⟩ := hrecord d t nft hd hnft
    have hother : tok.owner ≠ getEscrowAddress packet.dest :=
      fun heq ↦ howner (congrArg P.codec.string heq)
    rw [hR'.represents.getElem?_nfts hd', h.kept _ tok htok hother]
    rfl
  · intro d t nft hd hnft
    obtain ⟨hd', tok, htok, rfl⟩ := hrecord d t nft hd hnft
    obtain ⟨owner, hafter⟩ := h.handed _ tok htok
    refine ⟨P.codec.string owner, ?_⟩
    rw [hR'.represents.getElem?_nfts hd', hafter]
    rfl
  · intro d t hafter hnot
    rw [exists_iff_isSome hR.represents, Option.not_isSome_iff_eq_none] at hnot
    have hsome := (exists_iff_isSome hR'.represents).mp hafter
    obtain ⟨data, hdata, rfl⟩ := h.minted (d, t) hsome hnot
    exact hR'.belongsTo hU (harrivals ⟨data, hdata, rfl⟩)
      (hR'.represents.hasDenomID_iff.mp hafter.1)
  · intro d denom hdenom
    rw [getDenom, expect_eq_ok, hR.represents.getElem?_denoms, Option.map_eq_some_iff] at hdenom
    obtain ⟨c, hc, rfl⟩ := hdenom
    rw [getDenom, expect_eq_ok, hR'.represents.getElem?_denoms, h.classes d c hc]
    rfl
  · intro d hd' hd
    have hclass' := hR'.represents.hasDenomID_iff.mp hd'
    rw [← Bool.not_eq_true, hR.represents.hasDenomID_iff, Option.not_isSome_iff_eq_none] at hd
    obtain ⟨data, hdata, rfl⟩ := h.issued d hclass' hd
    exact hR'.belongsTo hU (harrivals ⟨data, hdata, rfl⟩) hclass'

theorem classPathFromHash_mono
    (htraces : ∀ (hash : List UInt8) trace, st.traces[hash]? = some trace →
      st'.traces[hash]? = some trace) {d path : Text} (h : classPathFromHash st d = .ok path) :
    classPathFromHash st' d = .ok path := by
  unfold classPathFromHash at h ⊢
  simp only [bind_eq_ok, pure_eq_ok, expect_eq_ok, getClassTrace] at h ⊢
  obtain ⟨hash, hhash, trace, htrace, hpath⟩ := h
  exact ⟨hash, hhash, trace, htraces hash trace htrace, hpath⟩

/-- A received packet leaves everything outside its channel end alone. -/
theorem isolated_of_recv (h : Inv P U st)
    (harrivals : (Label.recv packet).arrivals ⊆ U) (hU : Set.InjOn P.sha256 U)
    (hclash : NoClash P (recv st packet).1) : Isolated packet.dest st (recv st packet).1 := by
  have hacts := acts_of_recv st harrivals
  obtain ⟨R, hR⟩ := h.holds (hclash.of_le fun _ hd ↦ Acts.hasDenomID hacts hd)
  obtain ⟨R', hrep', heffect⟩ := recv_effect hR harrivals hclash
  have hR' := (Acts.inv hacts h).holds_of_represents hclash hrep'
  refine heffect.confined.isolated hR hR' hU harrivals fun d path hpath ↦ ?_
  exact classPathFromHash_mono (fun _ _ htrace ↦ Acts.getElem?_traces hacts htrace) hpath

/-! ### Any sequence of packets -/

/-- The state after packets have been received one after the other. -/
def receiveAll (st : State) (packets : List (Packet P)) : State :=
  packets.foldl (fun st packet ↦ (recv st packet).1) st

/-- What packets at other ends do not touch: NFTs in escrow for the end `e'`, and the classes that
have come in over it. -/
structure Spared (e' : ChannelEnd P) (st st' : State) : Prop where
  escrowed : ∀ d t nft, hasDenomID st.nft d = true → st.nft.nfts[keyNFT d t]? = some nft →
    nft.owner = P.codec.string (getEscrowAddress e') → st'.nft.nfts[keyNFT d t]? = some nft
  denoms : ∀ d rest, hasDenomID st.nft d = true →
    classPathFromHash st d = .ok (getClassPrefix e' ++ rest) →
      getDenom st'.nft d = getDenom st.nft d
  tokens : ∀ d rest t, hasDenomID st.nft d = true →
    classPathFromHash st d = .ok (getClassPrefix e' ++ rest) → hasNFT st.nft d t = false →
    hasNFT st'.nft d t = false

theorem Isolated.spared {e e' : ChannelEnd P} (h : Isolated e st st')
    (hne : e' ≠ e) (hescrow : getEscrowAddress e' ≠ getEscrowAddress e) : Spared e' st st' := by
  refine ⟨fun d t nft hd hnft howner ↦ ?_,
    fun d rest hd hpath ↦ ?_, fun d rest t hd hpath hnew ↦ ?_⟩
  · exact h.kept d t nft hd hnft fun heq ↦
      hescrow (P.codec.string_injective (howner.symm.trans heq))
  · obtain ⟨denom, hdenom⟩ := exists_getDenom hd
    rw [h.denoms d denom hdenom, hdenom]
  · rw [← Bool.not_eq_true]
    intro hminted
    have hnot : ¬ Exists st d t := fun hexists ↦ by
      rw [hexists.2] at hnew
      cases hnew
    obtain ⟨denom, rest', -, -, hpath'⟩ := h.minted d t ⟨h.hasDenomID hd, hminted⟩ hnot
    have heq := Except.ok.inj ((h.paths d _ hpath).symm.trans hpath')
    exact hne (classPrefix_append_inj heq).1

theorem hasDenomID_receiveAll (h : hasDenomID st.nft d = true)
    (packets : List (Packet P)) : hasDenomID (receiveAll st packets).nft d = true := by
  induction packets generalizing st with
  | nil => exact h
  | cons packet rest ih => exact ih (hasDenomID_step h (.recv packet))

theorem isolated_of_receiveAll {packets : List (Packet P)}
    (h : Inv P U st) (hdest : ∀ packet ∈ packets, packet.dest = e)
    (harrivals : ∀ packet ∈ packets, (Label.recv packet).arrivals ⊆ U) (hU : Set.InjOn P.sha256 U)
    (hclash : NoClash P (receiveAll st packets)) : Isolated e st (receiveAll st packets) := by
  induction packets generalizing st with
  | nil => exact .refl e st
  | cons packet rest ih =>
    have hfirst := harrivals packet List.mem_cons_self
    have hclash₁ : NoClash P (recv st packet).1 :=
      hclash.of_le fun _ hd ↦ hasDenomID_receiveAll hd rest
    have hisolated := isolated_of_recv h hfirst hU hclash₁
    rw [hdest packet List.mem_cons_self] at hisolated
    have hinv : Inv P U (recv st packet).1 := Inv.step h hfirst
    exact hisolated.trans (ih hinv (fun other hmem ↦ hdest other (List.mem_cons_of_mem _ hmem))
      (fun other hmem ↦ harrivals other (List.mem_cons_of_mem _ hmem)) hclash)

/-- Packets received at one channel end, whatever is in them, leave all NFTs alone that are not in
escrow for this end and all classes that have not come in over it. `U` is a set of class paths
without two of the same hash that holds the paths that have come in, and `E` one of channel ends
without two of the same escrow account. -/
theorem channel_isolation {τ : List (Transition State (Label P))} {st : State} (h : Reaches P τ st)
    {e : ChannelEnd P} {packets : List (Packet P)} (hdest : ∀ packet ∈ packets, packet.dest = e)
    (hU : Set.InjOn P.sha256 U) (hτ : ∀ t ∈ τ, t.label.arrivals ⊆ U)
    (hpackets : ∀ packet ∈ packets, (Label.recv packet).arrivals ⊆ U) {E : Set (ChannelEnd P)}
    (hE : Set.InjOn getEscrowAddress E) (he : e ∈ E) (hclash : NoClash P (receiveAll st packets)) :
    Isolated e st (receiveAll st packets) ∧
      ∀ e' ∈ E, e' ≠ e → Spared e' st (receiveAll st packets) := by
  have hisolated := isolated_of_receiveAll (h.inv hτ) hdest hpackets hU hclash
  exact ⟨hisolated, fun e' he' hne ↦ hisolated.spared hne fun heq ↦ hne (hE he' he heq)⟩

/-! ### The condition before the packets -/

/-- The only class that a packet adds is that of the vouchers it brings. -/
theorem hasDenomID_of_recv (h : hasDenomID (recv st packet).1.nft d = true) :
    hasDenomID st.nft d = true ∨ ∃ data, packet.data = some data ∧
      isAwayFromOrigin packet.source data.classId = true ∧
      d = voucherID P (getClassPrefix packet.dest ++ data.classId) := by
  unfold recv at h
  cases hdata : packet.data with
  | none =>
    rw [hdata] at h
    exact .inl h
  | some data =>
    rw [hdata] at h
    dsimp only at h
    cases hok : onRecvPacket st packet data with
    | error e =>
      rw [hok] at h
      exact .inl h
    | ok st' =>
      rw [hok] at h
      obtain ⟨-, -, hprocess⟩ := bind_eq_ok.mp hok
      unfold processReceivedPacket mintTokens unescrowTokens at hprocess
      simp only [bind_eq_ok] at hprocess
      obtain ⟨receiver, -, hprocess⟩ := hprocess
      split_ifs at hprocess with haway
      · simp only [bind_eq_ok, pure_eq_ok] at hprocess
        obtain ⟨st₁, hregister, s, htokens, rfl⟩ := hprocess
        have hsame : s.denoms = st₁.nft.denoms := by
          refine foldlM_invariant (P := fun s ↦ s.denoms = st₁.nft.denoms) rfl ?_ htokens
          intro s token s' _ hs hmint
          obtain ⟨uri, -, hmint⟩ := bind_eq_ok.mp hmint
          exact (Nft.sameDenoms_mintNFT (nftCall_eq_ok.mp hmint)).denoms.trans hs
        have hafter : hasDenomID st₁.nft d = true := by
          rwa [hasDenomID, hsame] at h
        obtain ⟨st₂, hst₂, -, hissue⟩ := registerClass_eq_ok hregister
        have hnft : st₂.nft = st.nft := by
          rcases hst₂ with rfl | ⟨-, rfl⟩ <;> rfl
        rcases hissue with ⟨-, rfl⟩ | ⟨s₂, hissue, rfl⟩
        · exact .inl (hnft ▸ hafter)
        · rcases hasDenomID_of_issueDenom hissue hafter with hold | rfl
          · exact .inl hold
          · exact .inr ⟨data, rfl, haway, rfl⟩
      · simp only [bind_eq_ok, pure_eq_ok] at hprocess
        obtain ⟨s, htokens, rfl⟩ := hprocess
        have hsame : s.denoms = st.nft.denoms := by
          refine foldlM_invariant (P := fun s ↦ s.denoms = st.nft.denoms) rfl ?_ htokens
          exact fun s token s' _ hs hmove ↦
            (Nft.sameDenoms_transferOwner (nftCall_eq_ok.mp hmove)).denoms.trans hs
        rw [hasDenomID, hsame] at h
        exact .inl h

/-- On a chain with the native class `ibc` the packets bring no vouchers. -/
def BringsNoVouchers (st : State) (packets : List (Packet P)) : Prop :=
  hasDenomID st.nft classMark = true → ∀ packet ∈ packets, ∀ data, packet.data = some data →
    isAwayFromOrigin packet.source data.classId = false

theorem noClash_of_receiveAll {packets : List (Packet P)} (hclash : NoClash P st)
    (hbring : BringsNoVouchers st packets) : NoClash P (receiveAll st packets) := by
  induction packets generalizing st with
  | nil => exact hclash
  | cons packet rest ih =>
    have hmark : hasDenomID (recv st packet).1.nft classMark = true →
        hasDenomID st.nft classMark = true := by
      intro hafter
      rcases hasDenomID_of_recv hafter with hbefore | ⟨data, -, -, heq⟩
      · exact hbefore
      · exact absurd (heq ▸ slash_mem_voucherID _) slash_not_mem_classMark
    refine ih (fun hafter path ↦ ?_) fun hafter other hother ↦
      hbring (hmark hafter) other (List.mem_cons_of_mem _ hother)
    rw [← Bool.not_eq_true]
    intro hvoucher
    rcases hasDenomID_of_recv hvoucher with hbefore | ⟨data, hdata, haway, -⟩
    · rw [hclash (hmark hafter) path] at hbefore
      cases hbefore
    · rw [hbring (hmark hafter) packet List.mem_cons_self data hdata] at haway
      cases haway

/-- Packets are isolated if the chain does not have both the native class `ibc` and a class of
vouchers before them, and if they bring no vouchers to a chain with the class `ibc`. -/
theorem isolated_of_before {τ : List (Transition State (Label P))} (h : Reaches P τ st)
    {packets : List (Packet P)} (hdest : ∀ packet ∈ packets, packet.dest = e)
    (hU : Set.InjOn P.sha256 U) (hτ : ∀ t ∈ τ, t.label.arrivals ⊆ U)
    (hpackets : ∀ packet ∈ packets, (Label.recv packet).arrivals ⊆ U) {E : Set (ChannelEnd P)}
    (hE : Set.InjOn getEscrowAddress E) (he : e ∈ E) (hclash : NoClash P st)
    (hbring : BringsNoVouchers st packets) :
    Isolated e st (receiveAll st packets) ∧
      ∀ e' ∈ E, e' ≠ e → Spared e' st (receiveAll st packets) := by
  have hisolated := isolated_of_receiveAll (h.inv hτ) hdest hpackets hU
    (noClash_of_receiveAll hclash hbring)
  exact ⟨hisolated, fun e' he' hne ↦ hisolated.spared hne fun heq ↦ hne (hE he' he heq)⟩

section Histories

open Reference

/-- The paths that come in, at either end. -/
def incoming : Set Text :=
  {getClassPrefix end₀ ++ "dog".toList, getClassPrefix end₁ ++ "fox".toList}

theorem injOn_incoming : Set.InjOn Reference.sha256 incoming := by
  have hne : Reference.sha256 (getClassPrefix end₀ ++ "dog".toList) ≠
      Reference.sha256 (getClassPrefix end₁ ++ "fox".toList) := by decide +kernel
  rintro _ (rfl | rfl) _ (rfl | rfl) heq
  · rfl
  · exact absurd heq hne
  · exact absurd heq.symm hne
  · rfl

theorem injOn_ends : Set.InjOn getEscrowAddress {end₀, end₁} := by
  have hne : getEscrowAddress end₀ ≠ getEscrowAddress end₁ := by decide +kernel
  rintro _ (rfl | rfl) _ (rfl | rfl) heq
  · rfl
  · exact absurd heq hne
  · exact absurd heq.symm hne
  · rfl

/-- A packet arrives at the other end than the vouchers that are there. -/
theorem channel_isolation_twoClasses :
    Isolated end₁ (after twoClasses)
        (receiveAll (after twoClasses) [arriving end₁ "fox".toList "red".toList bob]) ∧
      Spared end₀ (after twoClasses)
        (receiveAll (after twoClasses) [arriving end₁ "fox".toList "red".toList bob]) := by
  obtain ⟨τ, hrun, hlabels⟩ := run_of_labels (State.start platform) twoClasses
  have hτ : ∀ t ∈ τ, t.label.arrivals ⊆ incoming := by
    intro t ht
    have hlabel : t.label ∈ twoClasses := hlabels ▸ List.mem_map_of_mem ht
    simp only [twoClasses, List.mem_cons, List.not_mem_nil, or_false] at hlabel
    rcases hlabel with hlabel | hlabel | hlabel
    · rw [hlabel]
      exact Set.empty_subset _
    · rw [hlabel]
      exact Set.empty_subset _
    · rw [hlabel]
      rintro _ ⟨data, hdata, rfl⟩
      obtain rfl := Option.some.inj hdata
      exact Or.inl rfl
  have hpackets : ∀ packet ∈ [arriving end₁ "fox".toList "red".toList bob],
      (Label.recv packet).arrivals ⊆ incoming := by
    intro packet hpacket
    obtain rfl := List.mem_singleton.mp hpacket
    rintro _ ⟨data, hdata, rfl⟩
    obtain rfl := Option.some.inj hdata
    exact Or.inr rfl
  have hdest : ∀ packet ∈ [arriving end₁ "fox".toList "red".toList bob], packet.dest = end₁ := by
    intro packet hpacket
    rw [List.mem_singleton.mp hpacket]
    rfl
  have hclash : NoClash platform
      (receiveAll (after twoClasses) [arriving end₁ "fox".toList "red".toList bob]) :=
    fun hmark ↦ absurd hmark (by decide +kernel)
  obtain ⟨hisolated, hspared⟩ :=
    channel_isolation (P := platform) hrun hdest injOn_incoming hτ hpackets
    injOn_ends (Or.inr rfl) hclash
  exact ⟨hisolated, hspared end₀ (Or.inl rfl) (by decide)⟩

/-- The native class `ibc` has a token `rex`, and the voucher `rex` of the class `dog` is in escrow
for the other end than that it has come in over. -/
def escrowedVoucher : List (Label platform) := [
  .deliver (.issueDenom "ibc".toList "ibc".toList [] alice []),
  .deliver (.mintNFT "rex".toList "ibc".toList [] [] [] alice alice),
  .recv (arriving end₀ "dog".toList "rex".toList alice),
  .transfer channels (sending end₁ ("ibc/".toList ++ dogHash) "rex".toList alice)]

/-- A packet that claims to return the token `HASH/rex` of the class `ibc`. -/
def forged : Packet platform :=
  arriving end₁ "nft/channel-7/ibc".toList (dogHash ++ "/rex".toList) bob

/-- The packet gives a token that a user owns to the receiver. -/
theorem channel_isolation_broken :
    Reachable platform (after escrowedVoucher) ∧
      ((after escrowedVoucher).nft.nfts[keyNFT "ibc".toList "rex".toList]?).map BaseNFT.owner =
        some alice ∧
      ((receiveAll (after escrowedVoucher) [forged]).nft.nfts[keyNFT "ibc".toList
        "rex".toList]?).map BaseNFT.owner = some bob ∧
      ¬ Isolated end₁ (after escrowedVoucher) (receiveAll (after escrowedVoucher) [forged]) := by
  have hbefore : ((after escrowedVoucher).nft.nfts[keyNFT "ibc".toList "rex".toList]?).map
      BaseNFT.owner = some alice := by decide +kernel
  have hafter : ((receiveAll (after escrowedVoucher) [forged]).nft.nfts[keyNFT "ibc".toList
      "rex".toList]?).map BaseNFT.owner = some bob := by decide +kernel
  refine ⟨reachable_after escrowedVoucher, hbefore, hafter, fun hisolated ↦ ?_⟩
  obtain ⟨nft, hnft, howner⟩ := Option.map_eq_some_iff.mp hbefore
  have hother : nft.owner ≠ platform.codec.string (getEscrowAddress end₁) := by
    rw [howner]
    decide +kernel
  have hkept := hisolated.kept _ _ nft (by decide +kernel) hnft hother
  rw [hkept, Option.map_some, howner] at hafter
  exact absurd hafter (by decide)

end Histories

end ChainMain.NftTransfer
