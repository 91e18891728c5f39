import ChainMain.NftTransfer.Hops

/-!
# What is known about vouchers

Three things hold on a chain whose messages are not signed by escrow accounts (`Label.Signed`). The
class of a class trace exists, and its creator is the escrow account of the end the path begins with
(`Filed`). Vouchers have no name and no data, since nobody but an escrow account can mint or edit
them (`Plain`). A class has a full path, which leads back to the class and says which account has
created it (`fullClassPath_cases`).

What a step does depends on whom it acts for: an account that has signed, or the escrow account of
the end a packet is received at or refunded over (`StepKind`).
-/

set_option autoImplicit false

namespace ChainMain.NftTransfer

open Foundations Texts Outcomes OrderedStore Runs
open Nft (AccAddress Registry Represents Token getDenom hasDenomID validateDenomID)

variable {P : Platform} {U : Set Text}
variable {a : AccAddress} {R R' : Registry} {st st' : State} {d : Text}

/-! ### What a step acts for -/

/-- The account that has signed a message, as it is spelled. -/
def Label.signer : Label P → Option Text
  | .deliver msg => some msg.sender
  | .transfer _ msg => some msg.sender
  | _ => none

/-- The packet that is refunded, if the refund succeeds. -/
def Label.refunded : Label P → Option (Packet P)
  | .acknowledge packet (some (.error _)) => some packet
  | .timeout packet => some packet
  | _ => none

/-- Escrow accounts do not sign. -/
def Label.Signed (label : Label P) : Prop :=
  ∀ sender, label.signer = some sender → ∀ a, P.codec.fromBech32 sender = some a →
    ∀ e : ChannelEnd P, a ≠ getEscrowAddress e

/-- What a step does, by whom it acts for. -/
inductive StepKind (U : Set Text) (st : State) : Label P → State → Prop
  | idle (label : Label P) : StepKind U st label st
  | signed {label : Label P} {sender : Text} {a : AccAddress} {st' : State}
      (hsigner : label.signer = some sender) (ha : P.codec.fromBech32 sender = some a)
      (hacts : Acts P U a st st') : StepKind U st label st'
  | received (packet : Packet P) : StepKind U st (.recv packet) (recv st packet).1
  | refunded {label : Label P} {packet : Packet P} {data : PacketData} {st' : State}
      (hrefunded : label.refunded = some packet) (hdata : packet.data = some data)
      (hok : refundPacketToken st packet data = .ok st') : StepKind U st label st'

theorem step_kind (st : State) (label : Label P) : StepKind U st label (step st label) := by
  cases label with
  | deliver msg =>
    cases hok : msg.run P.codec st.nft with
    | error e =>
      rw [step, hok]
      exact .idle _
    | ok s =>
      obtain ⟨a, ha, hact⟩ := act_of_msg (U := U) hok
      rw [step, hok]
      exact .signed rfl ha (.single hact)
  | transfer ibc msg =>
    cases hok : transfer ibc st msg with
    | error e =>
      rw [step, hok]
      exact .idle _
    | ok sent =>
      obtain ⟨a, ha, hacts⟩ := acts_of_transfer (U := U) hok
      rw [step, hok]
      exact .signed rfl ha hacts
  | recv packet => exact .received packet
  | acknowledge packet ack =>
    refine commit_induction (P := StepKind U st (.acknowledge packet ack)) (.idle _)
      fun st' hok ↦ ?_
    obtain ⟨answer, hanswer, hdecoded⟩ := bind_eq_ok.mp hok
    obtain ⟨data, hdata, hhandled⟩ := bind_eq_ok.mp hdecoded
    rw [expect_eq_ok.mp hanswer]
    cases answer with
    | result =>
      obtain rfl := Except.ok.inj hhandled
      exact .idle _
    | error cause => exact .refunded rfl (expect_eq_ok.mp hdata) hhandled
  | timeout packet =>
    refine commit_induction (P := StepKind U st (.timeout packet)) (.idle _) fun st' hok ↦ ?_
    obtain ⟨data, hdata, hok⟩ := bind_eq_ok.mp hok
    exact .refunded rfl (expect_eq_ok.mp hdata) hok

/-- What every operation on behalf of an account keeps in the registry holds after all of them. -/
theorem Acts.registry {Q : Registry → Prop}
    (hkeep : ∀ st st' R, Act P U a st st' → Holds P U st R → Q R → NoClash P st' →
      ∃ R', Represents P.codec st'.nft R' ∧ Q R')
    (hacts : Acts P U a st st') (hR : Holds P U st R) (hQ : Q R) (hclash : NoClash P st') :
    ∃ R', Represents P.codec st'.nft R' ∧ Q R' := by
  induction hacts with
  | refl => exact ⟨R, hR.represents, hQ⟩
  | @tail st₁ st' hfirst hlast ih =>
    have hclash₁ : NoClash P st₁ := hclash.of_le fun _ hd ↦ hlast.hasDenomID hd
    obtain ⟨R₁, hrep₁, hQ₁⟩ := ih hclash₁
    have hR₁ := (Acts.inv hfirst hR.inv).holds_of_represents hclash₁ hrep₁
    exact hkeep st₁ st' R₁ hlast hR₁ hQ₁ hclash

/-! ### Class traces and creators -/

/-- Every class trace is filed under the hash of its path, and its class has been created by the
escrow account of the end that the path begins with. -/
def Filed (P : Platform) (st : State) : Prop :=
  ∀ (hash : List UInt8) (trace : ClassTrace), st.traces[hash]? = some trace →
    ∃ (e : ChannelEnd P) (rest : Text) (denom : Nft.Denom),
      trace = parseClassTrace (getClassPrefix e ++ rest) ∧
      hash = (P.sha256 (getClassPrefix e ++ rest)).toList ∧
      getDenom st.nft (voucherID P (getClassPrefix e ++ rest)) = .ok denom ∧
      denom.creator = P.codec.string (getEscrowAddress e)

theorem Act.filed (hact : Act P U a st st') (hinv : Inv P U st) (h : Filed P st) : Filed P st' := by
  -- a trace that was there before keeps its class
  have hold : ∀ (hash : List UInt8) (trace : ClassTrace), st.traces[hash]? = some trace →
      ∃ (e : ChannelEnd P) (rest : Text) (denom : Nft.Denom),
        trace = parseClassTrace (getClassPrefix e ++ rest) ∧
        hash = (P.sha256 (getClassPrefix e ++ rest)).toList ∧
        Nft.getDenom st'.nft (voucherID P (getClassPrefix e ++ rest)) = .ok denom ∧
        denom.creator = P.codec.string (getEscrowAddress e) := by
    intro hash trace htrace
    obtain ⟨e, rest, denom, hparse, hhash, hdenom, hcreator⟩ := h hash trace htrace
    exact ⟨e, rest, denom, hparse, hhash, hact.getDenom hdenom, hcreator⟩
  cases hact with
  | @register _ e classID uri _ hpath hok =>
    obtain ⟨st₁, hst₁, -, hissue⟩ := registerClass_eq_ok hok
    intro hash trace htrace
    have htraces : st'.traces = st₁.traces := by
      rcases hissue with ⟨-, rfl⟩ | ⟨s, -, rfl⟩ <;> rfl
    rw [htraces] at htrace
    rcases hst₁ with rfl | ⟨hnone, rfl⟩
    · exact hold hash trace htrace
    · rw [setClassTrace, hash_arrived, getElem?_insert_eq] at htrace
      split_ifs at htrace with hhash
      · obtain rfl := Option.some.inj htrace
        rcases hissue with ⟨hdenom, -⟩ | ⟨s, hissue, rfl⟩
        · -- a class that is there has its trace
          obtain ⟨D, hclasses, -⟩ := hinv
          obtain ⟨c, hc⟩ :=
            Option.isSome_iff_exists.mp (hclasses.represents.hasDenomID_iff.mp hdenom)
          rcases hclasses.kinds _ c hc with hnative | ⟨e', rest', harrived⟩
          · exact absurd hnative (not_native_voucherID _)
          · have htraced := harrived.traced
            rw [← sha256_eq_of_voucherID_eq harrived.id, hnone] at htraced
            cases htraced
        · exact ⟨e, classID, _, rfl, hhash.symm, getDenom_issueDenom hissue, rfl⟩
      · exact hold hash trace htrace
  | issue | mint | edit | transfer | burn => exact hold

theorem Reaches.filed {τ : List (Transition State (Label P))} (h : Reaches P τ st) :
    Filed P st := by
  have hboth : Inv P Set.univ st ∧ Filed P st := by
    have hstart : Inv P Set.univ (State.start P) ∧ Filed P (State.start P) := by
      refine ⟨holds_start.inv, fun hash trace htrace ↦ ?_⟩
      simp [State.start, initGenesis, State.empty, GenesisState.default] at htrace
    have hact : ∀ a st st', Act P Set.univ a st st' → Inv P Set.univ st ∧ Filed P st →
        Inv P Set.univ st' ∧ Filed P st' := by
      rintro a st st' hact ⟨hinv, hfiled⟩
      exact ⟨hact.inv hinv, hact.filed hinv hfiled⟩
    exact h.invariant (fun _ _ ↦ Set.subset_univ _) hstart hact
  exact hboth.2

/-- The full path of a class leads back to the class. A path that begins with a channel end is that
of a class its escrow account has created. -/
theorem fullClassPath_cases {d path : Text} (h : Holds P U st R)
    (hfiled : Filed P st) (hd : (R.classes d).isSome) (hpath : fullClassPath st d = .ok path) :
    classOf P path = d ∧ ('/' ∉ path ∨ ∃ (e : ChannelEnd P) (rest : Text) (c : Nft.Class),
      path = getClassPrefix e ++ rest ∧ R.classes d = some c ∧ c.creator = getEscrowAddress e) := by
  obtain ⟨c, hc⟩ := Option.isSome_iff_exists.mp hd
  rcases h.classes.kinds d c hc with hnative | ⟨e, rest, harrived⟩
  · have hslash := slash_not_mem_native hnative
    rw [fullClassPath_native hslash] at hpath
    obtain rfl := Except.ok.inj hpath
    exact ⟨classOf_of_not_mem hslash, Or.inl hslash⟩
  · rw [harrived.id, fullClassPath_voucherID, classPathFromHash_voucherID] at hpath
    obtain ⟨trace, htrace⟩ := Option.isSome_iff_exists.mp harrived.traced
    obtain ⟨e', rest', denom, rfl, hhash, hdenom, hcreator⟩ := hfiled _ trace htrace
    rw [htrace] at hpath
    obtain rfl := Except.ok.inj hpath
    have hsame : voucherID P (getClassPrefix e' ++ rest') = d := by
      rw [harrived.id, voucherID, voucherID, hhash]
    rw [(parseClassTrace_arrived e' rest').2, classOf_arrived]
    refine ⟨hsame, Or.inr ⟨e', rest', c, rfl, hc, ?_⟩⟩
    rw [hsame, getDenom, expect_eq_ok, h.represents.getElem?_denoms, hc] at hdenom
    obtain rfl := Option.some.inj hdenom
    exact P.codec.string_injective hcreator

/-! ### Names and data of vouchers -/

/-- Tokens of classes that are not native have no name and no data. -/
def Plain (R : Registry) : Prop :=
  ∀ d t tok, R.tokens (d, t) = some tok → validateDenomID d ≠ .ok () → tok.name = [] ∧ tok.data = []

theorem Plain.of_changed {rel : Option Token → Option Token → Prop}
    {ids : List Text} (h : Plain R) (hchanged : Changed rel R R' d ids)
    (hrel : ∀ o tok', rel o (some tok') → tok'.name = [] ∧ tok'.data = [] ∨
      ∃ tok, o = some tok ∧ tok'.name = tok.name ∧ tok'.data = tok.data) : Plain R' := by
  intro d' t tok' htok' hother
  by_cases hin : d' = d ∧ t ∈ ids
  · obtain ⟨rfl, ht⟩ := hin
    have hinside := hchanged.inside t ht
    rw [htok'] at hinside
    rcases hrel _ tok' hinside with hplain | ⟨tok, htok, hname, hdata⟩
    · exact hplain
    · rw [hname, hdata]
      exact h _ t tok htok hother
  · rw [hchanged.outside (d', t) fun hd ht ↦ hin ⟨hd, ht⟩] at htok'
    exact h d' t tok' htok' hother

theorem Plain.of_handed {ids : List Text} {a b : AccAddress} (h : Plain R)
    (hchanged : Changed (Handed a b) R R' d ids) : Plain R' := by
  refine h.of_changed hchanged fun o tok' ⟨tok, ho, _, hafter⟩ ↦ Or.inr ⟨tok, ho, ?_⟩
  obtain rfl := Option.some.inj hafter
  exact ⟨rfl, rfl⟩

theorem Plain.of_created {ids : List Text} {b : AccAddress} (h : Plain R)
    (hchanged : Changed (Created b) R R' d ids) : Plain R' := by
  refine h.of_changed hchanged fun o tok' ⟨_, tok, hafter, _, hplain⟩ ↦ Or.inl ?_
  obtain rfl := Option.some.inj hafter
  exact hplain

/-- An account that is not an escrow account has created native classes only. -/
theorem Holds.native_of_creator {c : Nft.Class}
    (h : Holds P U st R) (ha : ∀ e : ChannelEnd P, a ≠ getEscrowAddress e)
    (hc : R.classes d = some c) (hcreator : c.creator = a) : validateDenomID d = .ok () := by
  rcases h.classes.kinds d c hc with hnative | ⟨e, rest, harrived⟩
  · exact hnative
  · exact absurd (hcreator.symm.trans harrived.creator) (ha e)

theorem Act.plain (hact : Act P U a st st')
    (ha : ∀ e : ChannelEnd P, a ≠ getEscrowAddress e) (hR : Holds P U st R) (h : Plain R)
    (hclash : NoClash P st') : ∃ R', Represents P.codec st'.nft R' ∧ Plain R' := by
  have hinv := hact.inv hR.inv
  -- a token that is written in a class that the account has created is one of a native class
  have hput : ∀ {d t : Text} {tok : Token} {c : Nft.Class} (hclass : (R.classes d).isSome),
      R.classes d = some c → c.creator = a → Plain (R.put (d, t) tok hclass) := by
    intro d t tok c hclass hc hcreator d' t' tok' htok' hother
    have hne : (d', t') ≠ (d, t) := by
      intro heq
      obtain ⟨rfl, rfl⟩ := Prod.mk.inj heq
      exact hother (hR.native_of_creator ha hc hcreator)
    rw [Registry.tokens_put, Function.update_of_ne hne] at htok'
    exact h d' t' tok' htok' hother
  cases hact with
  | issue hid hok =>
    obtain ⟨R', hrep', hgrown⟩ := issue_effect hR (native_ne_nil hid) hok rfl hinv hclash
    exact ⟨R', hrep', fun d t tok htok ↦ h d t tok (hgrown.tokens ▸ htok)⟩
  | register _ hpath hok =>
    obtain ⟨R', hrep', hgrown⟩ := register_effect hR hpath hok hclash
    exact ⟨R', hrep', fun d t tok htok ↦ h d t tok (hgrown.tokens ▸ htok)⟩
  | mint _ hok =>
    obtain ⟨-, c, hclass, hc, hcreator, hrep'⟩ := hR.represents.mintNFT hok
    exact ⟨_, hrep', hput hclass hc hcreator⟩
  | edit _ hok =>
    obtain ⟨_, _, c, hclass, -, -, -, hc, hcreator, -, hrep'⟩ := hR.represents.editNFT hok
    exact ⟨_, hrep', hput hclass hc hcreator⟩
  | @transfer s d t b hok =>
    obtain ⟨tok, hclass, htok, howner, hrep'⟩ := hR.represents.transferOwner hok
    have hchanged : Changed (Handed a b) R _ d [t] := .put hclass ⟨tok, htok, howner, rfl⟩
    exact ⟨_, hrep', h.of_handed hchanged⟩
  | @burn s d t hok =>
    obtain ⟨tok, htok, howner, hrep'⟩ := hR.represents.burnNFTUnverified hok
    have hchanged : Changed (Destroyed a) R _ d [t] := .remove ⟨tok, htok, howner, rfl⟩
    exact ⟨_, hrep', h.of_changed hchanged fun o tok' ⟨_, _, _, hnone⟩ ↦ nomatch hnone⟩

theorem RecvEffect.plain {packet : Packet P} {ack : Acknowledgement} (h : Plain R)
    (heffect : RecvEffect packet R ack R') : Plain R' := by
  cases heffect with
  | rejected => exact h
  | minted _ _ hgrown hchanged =>
    have hplain : Plain _ := fun d t tok htok ↦ h d t tok (hgrown.tokens ▸ htok)
    exact hplain.of_created hchanged
  | released _ _ hchanged => exact h.of_handed hchanged

theorem RefundEffect.plain {packet : Packet P} {data : PacketData} (h : Plain R)
    (heffect : RefundEffect packet data R R') : Plain R' := by
  cases heffect with
  | returned _ hchanged => exact h.of_handed hchanged
  | minted _ hchanged => exact h.of_created hchanged

theorem StepKind.plain {label : Label P}
    (hkind : StepKind Set.univ st label st') (hsigned : label.Signed) (hR : Holds P Set.univ st R)
    (h : Plain R) (hclash : NoClash P st') : ∃ R', Represents P.codec st'.nft R' ∧ Plain R' := by
  cases hkind with
  | idle => exact ⟨R, hR.represents, h⟩
  | signed hsigner ha hacts =>
    exact Acts.registry (fun _ _ _ hact hR h ↦ hact.plain (hsigned _ hsigner _ ha) hR h)
      hacts hR h hclash
  | received packet =>
    obtain ⟨R', hrep', heffect⟩ := recv_effect hR (Set.subset_univ _) hclash
    exact ⟨R', hrep', heffect.plain h⟩
  | refunded _ _ hok =>
    obtain ⟨R', hrep', heffect⟩ := refund_effect hR.represents hok
    exact ⟨R', hrep', heffect.plain h⟩

/-- What every step keeps in the registry, as long as the ids do not clash, holds after all of
them. -/
theorem run_registry {Q : Registry → Prop} {L : Label P → Prop}
    (hkeep : ∀ st st' label R, StepKind Set.univ st label st' → L label →
      Holds P Set.univ st R → Q R → NoClash P st' → ∃ R', Represents P.codec st'.nft R' ∧ Q R')
    {τ : List (Transition State (Label P))} (hrun : Run (ChainStep P) st τ st')
    (hL : ∀ t ∈ τ, L t.label) (hR : Holds P Set.univ st R) (hQ : Q R) (hclash : NoClash P st') :
    ∃ R', Holds P Set.univ st' R' ∧ Q R' := by
  have hall : Inv P Set.univ st' ∧ (NoClash P st' → ∃ R', Holds P Set.univ st' R' ∧ Q R') := by
    refine (hrun.restrict (P := fun _ label _ ↦ L label) hL).invariant
      (P := fun st' ↦ Inv P Set.univ st' ∧ (NoClash P st' → ∃ R', Holds P Set.univ st' R' ∧ Q R'))
      ⟨hR.inv, fun _ ↦ ⟨R, hR, hQ⟩⟩ ?_
    rintro st₁ label _ ⟨hinv₁, hold⟩ ⟨rfl, hlabel⟩
    have hinv := hinv₁.step (Set.subset_univ label.arrivals)
    refine ⟨hinv, fun hclash ↦ ?_⟩
    obtain ⟨R₁, hR₁, hQ₁⟩ := hold (hclash.of_le fun _ hd ↦ hasDenomID_step hd label)
    obtain ⟨R', hrep', hQ'⟩ := hkeep st₁ _ label R₁ (step_kind st₁ label) hlabel hR₁ hQ₁ hclash
    exact ⟨R', hinv.holds_of_represents hclash hrep', hQ'⟩
  exact hall.2 hclash

theorem Reaches.plain {τ : List (Transition State (Label P))} (h : Reaches P τ st)
    (hsigned : ∀ t ∈ τ, t.label.Signed) (hclash : NoClash P st) :
    ∃ R, Holds P Set.univ st R ∧ Plain R :=
  run_registry (L := Label.Signed) (fun _ _ _ _ hkind hlabel ↦ hkind.plain hlabel) h
    hsigned holds_start
    (fun _ _ _ htok ↦ nomatch htok) hclash

end ChainMain.NftTransfer
