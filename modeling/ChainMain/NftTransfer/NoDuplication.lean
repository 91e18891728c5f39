import ChainMain.NftTransfer.Strands

/-!
# No NFT is duplicated across chains

In every network that is reached, for every token of a chain and every channel of the chain, at most
one of three things represents the token away from home: a voucher on the other chain, a packet on
its way out that was neither received nor refunded, or such a packet on its way back. If one of them
does, the token exists at home and is in escrow for the channel (`no_duplication`). The token may
itself be a voucher from a third chain. A class path that begins with the channel end is that of a
token that goes home over the channel; it is covered from the other side.

This holds as long as no chain has both the native class `ibc` and a class of vouchers. On a chain
with both, the owner of a voucher `t` can send the token `HASH/t` of the class `ibc` any number of
times (`duplication`).
-/

set_option autoImplicit false

namespace ChainMain.NftTransfer

open Foundations Texts Outcomes Runs
open Nft (AccAddress Registry Represents hasDenomID)

variable {P : Platform} {ι : Type} [DecidableEq ι] {T : Topology P ι} {U : Set Text}
  {N N' : Network P ι} {R : ι → Registry}

/-! ### What only grows -/

theorem Move.acts (hmove : Move T N N') (j : ι) :
    ∃ a, Acts P Set.univ a (N.chains j) (N'.chains j) := by
  have hset : ∀ {i : ι} {a : AccAddress} {st : State}, Acts P Set.univ a (N.chains i) st →
      ∃ a, Acts P Set.univ a (N.chains j) ((N.setChain i st).chains j) := by
    intro i a st hacts
    rw [chains_setChain]
    by_cases hj : j = i
    · subst hj
      rw [Function.update_self]
      exact ⟨a, hacts⟩
    · rw [Function.update_of_ne hj]
      exact ⟨a, .refl⟩
  cases hmove with
  | idle => exact ⟨default, .refl⟩
  | deliver _ hok =>
    obtain ⟨a, -, hact⟩ := act_of_msg hok
    exact hset (.single hact)
  | send _ hok _ =>
    obtain ⟨a, -, hacts⟩ := acts_of_transfer hok
    exact hset hacts
  | recv => exact hset (acts_of_recv _ (Set.subset_univ _))
  | succeed => exact hset (a := default) .refl
  | refund _ _ _ hok => exact hset (acts_of_refund hok)

theorem Move.hasDenomID (hmove : Move T N N') {j : ι} {d : Text}
    (h : Nft.hasDenomID (N.chains j).nft d = true) : Nft.hasDenomID (N'.chains j).nft d = true := by
  obtain ⟨a, hacts⟩ := hmove.acts j
  exact Acts.hasDenomID hacts h

omit [DecidableEq ι] in
theorem exists_mem_set {flights : List (Flight P ι)} {n : ℕ} {f g : Flight P ι}
    (hf : flights[n]? = some f) (status : Status) (hg : g ∈ flights) :
    ∃ g' ∈ flights.set n { f with status }, g'.packet = g.packet := by
  obtain ⟨m, hm⟩ := List.mem_iff_getElem?.mp hg
  by_cases hmn : m = n
  · subst hmn
    obtain rfl := Option.mem_unique hf hm
    exact ⟨_, List.mem_set (List.getElem?_eq_some_iff.mp hf).1 _, rfl⟩
  · refine ⟨g, List.mem_iff_getElem?.mpr ⟨m, ?_⟩, rfl⟩
    rw [List.getElem?_set_ne (Ne.symm hmn), hm]

theorem Move.exists_packet (hmove : Move T N N') {g : Flight P ι} (hg : g ∈ N.flights) :
    ∃ g' ∈ N'.flights, g'.packet = g.packet := by
  cases hmove with
  | idle => exact ⟨g, hg, rfl⟩
  | deliver => exact ⟨g, hg, rfl⟩
  | send => exact ⟨g, List.mem_append_left _ hg, rfl⟩
  | recv hf => exact exists_mem_set hf _ hg
  | succeed hf => exact exists_mem_set hf _ hg
  | refund hf => exact exists_mem_set hf _ hg

theorem Move.used_subset (hmove : Move T N N') : N.used ⊆ N'.used := by
  rintro path ⟨g, hg, data, hdata, hpath⟩
  obtain ⟨g', hg', hpacket⟩ := hmove.exists_packet hg
  refine ⟨g', hg', data, ?_, ?_⟩
  · rwa [hpacket]
  · rwa [hpacket]

/-! ### The moves keep the tokens safe -/

omit [DecidableEq ι] in
theorem Topology.ends_eq_iff {a a' b b' : ι × ChannelEnd P} (h : T.peer a.1 a.2 = some b)
    (h' : T.peer a'.1 a'.2 = some b') : a = a' ↔ b = b' := by
  constructor
  · rintro rfl
    exact Option.mem_unique h h'
  · rintro rfl
    exact Option.some.inj ((T.symm h).symm.trans (T.symm h'))

theorem holds_setChain {i : ι} {a : AccAddress} {st : State} {R₁ : Registry} (hR : Sound T U N R)
    (hacts : Acts P (T.arrivals U i) a (N.chains i) st) (hclash : NoClash P st)
    (hrep : Represents P.codec st.nft R₁) (j : ι) :
    Holds P (T.arrivals U j) ((N.setChain i st).chains j) (Function.update R i R₁ j) := by
  rw [chains_setChain]
  by_cases hj : j = i
  · subst hj
    rw [Function.update_self, Function.update_self]
    exact (Acts.inv hacts (hR.chains j).inv).holds_of_represents hclash hrep
  · rw [Function.update_of_ne hj, Function.update_of_ne hj]
    exact hR.chains j

theorem Sound.settle {n : ℕ} {f : Flight P ι} {status : Status} {i : ι} {a : AccAddress}
    {st : State} {R₁ : Registry} (hR : Sound T U N R) (hf : N.flights[n]? = some f)
    (hacts : Acts P (T.arrivals U i) a (N.chains i) st) (hclash : NoClash P st)
    (hrep : Represents P.codec st.nft R₁) (hsafe : ∀ k : Strand P ι, k.Proper T U →
      SafeAt (Function.update R i R₁) (N.flights.set n { f with status }) k) :
    Sound T U (N.settle n f status i st) (Function.update R i R₁) where
  chains := holds_setChain hR hacts hclash hrep
  flights := by
    intro g hg
    rcases List.mem_or_eq_of_mem_set hg with hg | rfl
    · exact hR.flights g hg
    · exact hR.flights f (List.mem_of_getElem? hf)
  safe := hsafe

theorem Sound.deliver {i : ι} {msg : Nft.Msg} {s : Nft.Store} (hR : Sound T U N R)
    (hU : Set.InjOn P.sha256 U) (hfree : ∀ a, P.codec.fromBech32 msg.sender = some a → T.Free i a)
    (hok : msg.run P.codec (N.chains i).nft = .ok s)
    (hclash : NoClash P { N.chains i with nft := s }) :
    ∃ R', Sound T U (N.setChain i { N.chains i with nft := s }) R' := by
  obtain ⟨a, ha, hact⟩ := act_of_msg (U := T.arrivals U i) hok
  obtain ⟨R₁, hrep, hprivate⟩ := hact.effect (hR.chains i) hclash
  have hsafe : ∀ k : Strand P ι, k.Proper T U → SafeAt (Function.update R i R₁) N.flights k := by
    intro k hk
    refine .of_private hR hU hk (hfree a ha) ?_ fun j hj ↦ Function.update_of_ne hj R₁ R
    rwa [Function.update_self]
  exact ⟨_, holds_setChain hR (.single hact) hclash hrep, hR.flights, hsafe⟩

theorem Sound.send {i j : ι} {ibc : Channels P} {msg : MsgTransfer} {packet : Packet P} {st : State}
    (hR : Sound T U N R) (hU : Set.InjOn P.sha256 U)
    (hfree : ∀ a, P.codec.fromBech32 msg.sender = some a → T.Free i a)
    (hok : transfer (T.channels i ibc) (N.chains i) msg = .ok (packet, st))
    (hpeer : T.peer i packet.source = some (j, packet.dest)) (hclash : NoClash P st) :
    ∃ R', Sound T U (N.launch i j packet st) R' := by
  obtain ⟨_, -, hacts⟩ := acts_of_transfer (U := T.arrivals U i) hok
  obtain ⟨a, data, R₁, ha, hrep, heffect⟩ := transfer_effect (hR.chains i).represents hok
  obtain ⟨path, hfull, hclass, hpath, -⟩ :=
    exists_fullClassPath (hR.chains i) hU heffect.exists_class
  obtain rfl := Except.ok.inj (hfull.symm.trans heffect.path)
  refine ⟨Function.update R i R₁, holds_setChain hR hacts hclash hrep, ?_, ?_⟩
  · intro f hf
    rcases List.mem_append.mp hf with hf | hf
    · exact hR.flights f hf
    · rw [List.mem_singleton.mp hf]
      exact ⟨hpeer, data, heffect.holds, hpath⟩
  · intro k hk
    refine .of_sent hR hU hk (hfree a ha) (fun j hj ↦ Function.update_of_ne hj R₁ R)
      heffect.holds ?_
    rw [Function.update_self, hclass]
    exact heffect.change

omit [DecidableEq ι] in
/-- What a packet of the network brings with it can arrive where it goes. -/
theorem Sound.arrivals_subset (hR : Sound T U N R) (hused : N.used ⊆ U) {f : Flight P ι}
    (hf : f ∈ N.flights) : (Label.recv f.packet).arrivals ⊆ T.arrivals U f.dest := by
  rintro _ ⟨data, hdata, rfl⟩
  obtain ⟨hpeer, data', hdata', hpath⟩ := hR.flights f hf
  obtain rfl := Option.mem_unique hdata hdata'
  refine ⟨hused ⟨f, hf, data, hdata, Or.inr (Or.inl rfl)⟩, f.packet.dest, data.classId,
    ?_, rfl, hpath⟩
  exact Option.isSome_iff_exists.mpr ⟨_, T.symm hpeer⟩

theorem Sound.recv {n : ℕ} {f : Flight P ι} (hR : Sound T U N R) (hU : Set.InjOn P.sha256 U)
    (hE : Set.InjOn getEscrowAddress {e | (T.peer f.dest e).isSome}) (hused : N.used ⊆ U)
    (hf : N.flights[n]? = some f) (hsent : f.status = .sent)
    (hclash : NoClash P (recv (N.chains f.dest) f.packet).1) :
    ∃ R', Sound T U (N.settle n f (.answered (recv (N.chains f.dest) f.packet).2) f.dest
      (recv (N.chains f.dest) f.packet).1) R' := by
  have hmem := List.mem_of_getElem? hf
  have hopen : f.Open := Or.inl hsent
  obtain ⟨hpeer, data, hdata, hpath⟩ := hR.flights f hmem
  have hback := T.symm hpeer
  have hend : (T.peer f.dest f.packet.dest).isSome := Option.isSome_iff_exists.mpr ⟨_, hback⟩
  have harrivals := hR.arrivals_subset hused hmem
  obtain ⟨R₁, hrep, heffect⟩ := recv_effect (hR.chains f.dest) harrivals hclash
  refine ⟨_, hR.settle hf (acts_of_recv _ harrivals) hclash hrep fun k hk ↦ ?_⟩
  have hother : ∀ j, j ≠ f.dest → Function.update R f.dest R₁ j = R j := fun j hj ↦
    Function.update_of_ne hj R₁ R
  generalize (NftTransfer.recv (N.chains f.dest) f.packet).2 = ack at heffect ⊢
  cases heffect with
  | rejected cause =>
    rw [Function.update_eq_self]
    exact (hR.safe k hk).of_subset (fun _ hx ↦ heldBy_set_open hf hopen hx)
      fun _ _ hlocked ↦ hlocked
  | @minted data' receiver R₂ _ hdata' _ hgrown hchanged =>
    obtain rfl := Option.mem_unique hdata hdata'
    rw [← Function.update_self f.dest R₁ R] at hchanged
    refine .of_minted hR hU hk hother (by simp [Flight.Open])
      (hused ⟨f, hmem, data, hdata, Or.inr (Or.inl rfl)⟩) hgrown.tokens hchanged
      fun haway hp ht ↦ ?_
    have hhome := (Topology.ends_eq_iff hk.linked_away hback).mp haway
    exact ⟨.outgoing n, ⟨f, hf, hopen, hhome.symm, haway.symm, data, hdata, hp.symm, ht⟩, rfl⟩
  | @released data' receiver rest _ hdata' hrest hchanged =>
    obtain rfl := Option.mem_unique hdata hdata'
    rw [hrest] at hpath
    rw [← Function.update_self f.dest R₁ R] at hchanged
    refine .of_unlocked hR hU hE hk hother (by simp [Flight.Open]) hend hpath.of_hop
      (hused ⟨f, hmem, data, hdata, Or.inr (Or.inr hrest)⟩) hchanged fun hhome hp ht ↦ ?_
    have haway := (Topology.ends_eq_iff hk.linked hback).mp hhome
    refine ⟨.returning n, ⟨f, hf, hopen, haway.symm, hhome.symm, data, hdata, ?_, ht⟩, rfl⟩
    rw [hrest, haway, hp]

theorem Sound.refund {n : ℕ} {f : Flight P ι} {data : PacketData} {st : State} (hR : Sound T U N R)
    (hU : Set.InjOn P.sha256 U) (hE : Set.InjOn getEscrowAddress {e | (T.peer f.source e).isSome})
    (hused : N.used ⊆ U) (hf : N.flights[n]? = some f) (hopen : f.Open)
    (hdata : f.packet.data = some data)
    (hok : refundPacketToken (N.chains f.source) f.packet data = .ok st) (hclash : NoClash P st) :
    ∃ R', Sound T U (N.settle n f .resolved f.source st) R' := by
  have hmem := List.mem_of_getElem? hf
  obtain ⟨hpeer, data', hdata', hpath⟩ := hR.flights f hmem
  obtain rfl := Option.mem_unique hdata hdata'
  have hend : (T.peer f.source f.packet.source).isSome := Option.isSome_iff_exists.mpr ⟨_, hpeer⟩
  have hclassId : data.classId ∈ U := hused ⟨f, hmem, data, hdata, Or.inl rfl⟩
  obtain ⟨R₁, hrep, heffect⟩ := refund_effect (hR.chains f.source).represents hok
  refine ⟨_, hR.settle hf (acts_of_refund hok) hclash hrep fun k hk ↦ ?_⟩
  have hother : ∀ j, j ≠ f.source → Function.update R f.source R₁ j = R j := fun j hj ↦
    Function.update_of_ne hj R₁ R
  cases heffect with
  | @returned sender _ _ hchanged =>
    rw [← Function.update_self f.source R₁ R] at hchanged
    refine .of_unlocked hR hU hE hk hother (by simp [Flight.Open]) hend hpath hclassId hchanged
      fun hhome hp ht ↦ ?_
    have haway := (Topology.ends_eq_iff hk.linked hpeer).mp hhome
    exact ⟨.outgoing n, ⟨f, hf, hopen, hhome.symm, haway.symm, data, hdata, hp.symm, ht⟩, rfl⟩
  | @minted sender rest _ hrest hchanged =>
    rw [hrest] at hchanged hclassId
    rw [← Function.update_self f.source R₁ R] at hchanged
    refine .of_minted hR hU hk hother (by simp [Flight.Open]) hclassId rfl hchanged
      fun haway hp ht ↦ ?_
    have hhome := (Topology.ends_eq_iff hk.linked_away hpeer).mp haway
    refine ⟨.returning n, ⟨f, hf, hopen, haway.symm, hhome.symm, data, hdata, ?_, ht⟩, rfl⟩
    rw [hrest, haway, hp]

theorem Sound.succeed {n : ℕ} {f : Flight P ι} (hR : Sound T U N R) (hf : N.flights[n]? = some f)
    (hclash : NoClash P (N.chains f.source)) :
    ∃ R', Sound T U (N.settle n f .resolved f.source (N.chains f.source)) R' := by
  have hacts : Acts P (T.arrivals U f.source) default (N.chains f.source) (N.chains f.source) :=
    .refl
  refine ⟨_, hR.settle hf hacts hclash (hR.chains f.source).represents fun k hk ↦ ?_⟩
  rw [Function.update_eq_self]
  exact (hR.safe k hk).of_subset (fun _ hx ↦ (heldBy_set (by simp [Flight.Open]) hx).1)
    fun _ _ hlocked ↦ hlocked

theorem Sound.move (hR : Sound T U N R) (hmove : Move T N N') (hU : Set.InjOn P.sha256 U)
    (hE : ∀ i, Set.InjOn getEscrowAddress {e | (T.peer i e).isSome}) (hused : N.used ⊆ U)
    (hclash : ∀ i, NoClash P (N'.chains i)) : ∃ R', Sound T U N' R' := by
  have hchain : ∀ i st, NoClash P ((N.setChain i st).chains i) → NoClash P st := by
    intro i st h
    rwa [chains_setChain, Function.update_self] at h
  cases hmove with
  | idle => exact ⟨R, hR⟩
  | deliver hfree hok => exact hR.deliver hU hfree hok (hchain _ _ (hclash _))
  | send hfree hok hpeer => exact hR.send hU hfree hok hpeer (hchain _ _ (hclash _))
  | recv hf hsent => exact hR.recv hU (hE _) hused hf hsent (hchain _ _ (hclash _))
  | succeed hf => exact hR.succeed hf (hchain _ _ (hclash _))
  | refund hf hopen hdata hok =>
    exact hR.refund hU (hE _) hused hf hopen hdata hok (hchain _ _ (hclash _))

/-! ### Runs of the network -/

omit [DecidableEq ι] in
theorem sound_start : Sound T U (Network.start P ι) fun _ ↦ Registry.empty where
  chains := fun _ ↦ holds_start
  flights := fun _ hf ↦ nomatch hf
  safe := by
    have hnone : ∀ (k : Strand P ι) x,
        ¬ HeldBy (Present fun _ ↦ Registry.empty) (Network.start P ι).flights k x := by
      intro k x hx
      cases x with
      | voucher => cases hx
      | outgoing n =>
        obtain ⟨f, hf, -⟩ := hx
        cases hf
      | returning n =>
        obtain ⟨f, hf, -⟩ := hx
        cases hf
    exact fun k _ ↦ ⟨fun x _ hx ↦ (hnone k x hx).elim, fun x hx ↦ (hnone k x hx).elim⟩

theorem sound_of_reachable (h : N.Reachable T) (hU : Set.InjOn P.sha256 U)
    (hE : ∀ i, Set.InjOn getEscrowAddress {e | (T.peer i e).isSome}) (hused : N.used ⊆ U)
    (hclash : ∀ i, NoClash P (N.chains i)) : ∃ R, Sound T U N R := by
  obtain ⟨τ, hrun⟩ := h
  have hkeep : N.used ⊆ U → (∀ i, NoClash P (N.chains i)) → ∃ R, Sound T U N R := by
    refine hrun.invariant (P := fun N ↦ N.used ⊆ U → (∀ i, NoClash P (N.chains i)) →
      ∃ R, Sound T U N R) (fun _ _ ↦ ⟨_, sound_start⟩) ?_
    rintro N event _ ih ⟨hsigned, rfl⟩ hused hclash
    have hmove : Move T N (N.step T event) := move_of_step hsigned
    have husedBefore := hmove.used_subset.trans hused
    obtain ⟨R, hR⟩ := ih husedBefore fun i ↦ (hclash i).of_le fun _ hd ↦ hmove.hasDenomID hd
    exact hR.move hmove hU hE husedBefore hclash
  exact hkeep hused hclash

/-- No NFT is duplicated across chains. `U` is a set of class paths without two of the same hash
that holds those the packets are about. -/
theorem no_duplication (h : N.Reachable T) (hU : Set.InjOn P.sha256 U) (hused : N.used ⊆ U)
    (hE : ∀ i, Set.InjOn getEscrowAddress {e | (T.peer i e).isSome})
    (hclash : ∀ i, NoClash P (N.chains i)) {k : Strand P ι} (hk : k.Proper T U) :
    (∀ x y, N.HeldBy k x → N.HeldBy k y → x = y) ∧ ∀ x, N.HeldBy k x → N.Locked k := by
  obtain ⟨R, hR⟩ := sound_of_reachable h hU hE hused hclash
  have hheld : ∀ x, N.HeldBy k x → HeldBy (Present R) N.flights k x := fun x hx ↦
    HeldBy.mono hx (exists_iff_isSome (hR.chains k.away.1).represents).mp
  refine ⟨fun x y hx hy ↦ (hR.safe k hk).unique x y (hheld x hx) (hheld y hy), fun x hx ↦ ?_⟩
  obtain ⟨tok, htok, howner⟩ := (hR.safe k hk).locked x (hheld x hx)
  have hclass := (R k.home.1).inhabited htok
  have hrep := (hR.chains k.home.1).represents
  refine ⟨hrep.hasDenomID_iff.mpr hclass, tok.record P.codec k.token, ?_, ?_⟩
  · rw [hrep.getElem?_nfts hclass, htok]
    rfl
  · exact congrArg P.codec.string howner

section Histories

open Reference

/-- Two chains with a channel between the end `channel-0` of the one and `channel-1` of the
other. -/
def pair : Topology platform Bool where
  peer i e :=
    if (i, e) = (false, end₀) then some (true, end₁)
    else if (i, e) = (true, end₁) then some (false, end₀) else none
  symm := by
    intro i j e e' h
    split_ifs at h with hfirst hsecond
    · obtain ⟨rfl, rfl⟩ := Prod.mk.inj hfirst
      obtain ⟨rfl, rfl⟩ := Prod.mk.inj (Option.some.inj h)
      decide
    · obtain ⟨rfl, rfl⟩ := Prod.mk.inj hsecond
      obtain ⟨rfl, rfl⟩ := Prod.mk.inj (Option.some.inj h)
      decide

theorem pair_isSome {i : Bool} {e : ChannelEnd platform} (h : (pair.peer i e).isSome) :
    e = bif i then end₁ else end₀ := by
  rw [pair] at h
  dsimp only at h
  split_ifs at h with hfirst hsecond
  · obtain ⟨rfl, rfl⟩ := Prod.mk.inj hfirst
    rfl
  · obtain ⟨rfl, rfl⟩ := Prod.mk.inj hsecond
    rfl
  · cases h

theorem injOn_pair (i : Bool) : Set.InjOn getEscrowAddress {e | (pair.peer i e).isSome} :=
  fun _ he _ he' _ ↦ (pair_isSome he).trans (pair_isSome he').symm

def network (events : List (Event platform Bool)) : Network platform Bool :=
  events.foldl (Network.step pair) (.start platform Bool)

theorem reachable_network {events : List (Event platform Bool)}
    (hsigned : ∀ event ∈ events, event.Signed pair) : (network events).Reachable pair := by
  have hrun : ∀ N, ∃ τ, Run (Network.Step pair) N τ (events.foldl (Network.step pair) N) := by
    induction events with
    | nil => exact fun N ↦ ⟨[], .nil⟩
    | cons event rest ih =>
      intro N
      obtain ⟨τ, hτ⟩ := ih (fun other hother ↦ hsigned other (List.mem_cons_of_mem _ hother))
        (N.step pair event)
      exact ⟨_, Run.cons ⟨hsigned event List.mem_cons_self, rfl⟩ hτ⟩
  exact hrun _

theorem free_user {sender : Text} (h : sender = alice ∨ sender = bob) (i : Bool) (a : AccAddress)
    (ha : platform.codec.fromBech32 sender = some a) : pair.Free i a := by
  intro e he heq
  rw [pair_isSome he] at heq
  rw [heq] at ha
  revert ha
  rcases h with rfl | rfl
  · cases i <;> decide +kernel
  · cases i <;> decide +kernel

theorem used_subset {N : Network platform Bool} {paths : List Text}
    (routes : List (ChannelEnd platform × ChannelEnd platform × Option Text))
    (hroutes : N.flights.map (fun f ↦ (f.packet.source, f.packet.dest,
      f.packet.data.map PacketData.classId)) = routes)
    (hlisted : ∀ route ∈ routes, ∀ path ∈ route.2.2, isAwayFromOrigin route.1 path = true ∧
      path ∈ paths ∧ getClassPrefix route.2.1 ++ path ∈ paths) :
    N.used ⊆ {path | path ∈ paths} := by
  rintro path ⟨f, hf, data, hdata, hpath⟩
  have hroute : (f.packet.source, f.packet.dest, some data.classId) ∈ routes := by
    rw [← hroutes]
    refine List.mem_map.mpr ⟨f, hf, ?_⟩
    rw [hdata]
    rfl
  obtain ⟨haway, hclass, harrived⟩ := hlisted _ hroute data.classId rfl
  rcases hpath with rfl | rfl | hback
  · exact hclass
  · exact harrived
  · rw [isAwayFromOrigin_eq_false.mpr ⟨path, hback⟩] at haway
    cases haway

/-- A class is issued on the second chain, and a token of it is sent to the first one and
received. -/
def sentOnce : List (Event platform Bool) := [
  .deliver true (.issueDenom "dog".toList "dogs".toList [] alice []),
  .deliver true (.mintNFT "rex".toList "dog".toList [] [] [] alice alice),
  .send true channels (sending end₁ "dog".toList "rex".toList alice),
  .recv 0]

def rex : Strand platform Bool := ⟨(true, end₁), (false, end₀), "dog".toList, "rex".toList⟩

/-- The token is represented by its voucher, and by nothing else, and is in escrow. -/
theorem no_duplication_sentOnce :
    (network sentOnce).HeldBy rex .voucher ∧ (network sentOnce).Locked rex ∧
      ∀ x, (network sentOnce).HeldBy rex x → x = .voucher := by
  have hsigned : ∀ event ∈ sentOnce, event.Signed pair := by
    simp only [sentOnce, List.forall_mem_cons, List.not_mem_nil, false_imp_iff,
      implies_true, and_true]
    exact ⟨free_user (Or.inl rfl) true, free_user (Or.inl rfl) true,
      free_user (Or.inl rfl) true, trivial⟩
  have hused : (network sentOnce).used ⊆
      {path | path ∈ ["dog".toList, "nft/channel-0/dog".toList]} :=
    used_subset [(end₁, end₀, some "dog".toList)] (by decide +kernel) (by decide +kernel)
  have hU : Set.InjOn Reference.sha256 {path | path ∈ ["dog".toList, "nft/channel-0/dog".toList]} :=
    List.inj_on_of_nodup_map (by decide +kernel)
  have hclash : ∀ i, NoClash platform ((network sentOnce).chains i) := by
    intro i hmark
    exact absurd hmark (by cases i <;> decide +kernel)
  have hk : rex.Proper pair {path | path ∈ ["dog".toList, "nft/channel-0/dog".toList]} :=
    ⟨by decide, by decide, by decide, by decide⟩
  have hheld : (network sentOnce).HeldBy rex .voucher := by decide +kernel
  obtain ⟨hunique, hlocked⟩ :=
    no_duplication (P := platform) (reachable_network hsigned) hU hused injOn_pair hclash hk
  exact ⟨hheld, hlocked _ hheld, fun x hx ↦ hunique x _ hx hheld⟩

/-- The voucher of a token arrives on the first chain, and its owner issues the class `ibc` there
and sends the token `HASH/rex` of this class twice; the first packet is received. -/
def sentTwice : List (Event platform Bool) := sentOnce ++ [
  .deliver false (.issueDenom "ibc".toList "ibc".toList [] bob []),
  .send false channels (sending end₀ "ibc".toList (dogHash ++ "/rex".toList) bob),
  .send false channels (sending end₀ "ibc".toList (dogHash ++ "/rex".toList) bob),
  .recv 1]

def forgedRex : Strand platform Bool :=
  ⟨(false, end₀), (true, end₁), "ibc".toList, dogHash ++ "/rex".toList⟩

def tradedPaths : List Text :=
  ["dog".toList, "nft/channel-0/dog".toList, "ibc".toList, "nft/channel-1/ibc".toList]

/-- A voucher and a packet represent one token. -/
theorem duplication :
    (network sentTwice).Reachable pair ∧ Set.InjOn Reference.sha256 {path | path ∈ tradedPaths} ∧
      (network sentTwice).used ⊆ {path | path ∈ tradedPaths} ∧
      (∀ i, Set.InjOn getEscrowAddress {e | (pair.peer i e).isSome}) ∧
      forgedRex.Proper pair {path | path ∈ tradedPaths} ∧
      (network sentTwice).HeldBy forgedRex .voucher ∧
      (network sentTwice).HeldBy forgedRex (.outgoing 2) := by
  have hsigned : ∀ event ∈ sentTwice, event.Signed pair := by
    simp only [sentTwice, sentOnce, List.cons_append, List.nil_append, List.forall_mem_cons,
      List.not_mem_nil, false_imp_iff, implies_true, and_true]
    exact ⟨free_user (Or.inl rfl) true, free_user (Or.inl rfl) true,
      free_user (Or.inl rfl) true, trivial, free_user (Or.inr rfl) false,
      free_user (Or.inr rfl) false, free_user (Or.inr rfl) false, trivial⟩
  have hused : (network sentTwice).used ⊆ {path | path ∈ tradedPaths} :=
    used_subset [(end₁, end₀, some "dog".toList), (end₀, end₁, some "ibc".toList),
      (end₀, end₁, some "ibc".toList)] (by decide +kernel) (by decide +kernel)
  refine ⟨reachable_network hsigned, List.inj_on_of_nodup_map (by decide +kernel),
    hused, injOn_pair,
    ⟨by decide, by decide, by decide, by decide⟩, by decide +kernel, by decide +kernel⟩

end Histories

end ChainMain.NftTransfer
