import ChainMain.NftTransfer.NoDuplication

/-!
# Class paths as stacks of hops

A token walks over the channels of a network, one transfer after the other. What a transfer does to
the full path of its class is done on texts: `isAwayFromOrigin` looks for the channel end at the
start of the path, and the path is put behind the end it arrives at, or is cut (`transferPath`).
This amounts to a stack of channel ends on top of the native class (`Hop.onStack`): a transfer
through the end on top takes it off, and any other transfer puts the end it arrives at on top
(`transferPath_render`).

The end on top of the stack leads back to where the token was before it was put there
(`exists_pushed`), so a walk that is retraced ends with the native class (`class_path_is_stack`).
Tokens that travel over a network of chains are in the class of such a path (`travels_is_stack`).
-/

set_option autoImplicit false

namespace ChainMain.NftTransfer

open Foundations Texts Outcomes Runs
open Nft (Registry hasDenomID)

variable {P : Platform} {ι : Type} {T : Topology P ι}

/-! ### One transfer -/

/-- What a transfer does to the full path of a class. The path of the packet is put behind the end
it arrives at, in a class trace, or the end it has left through is removed from it
(`processReceivedPacket`); the full path is read from the trace. -/
def transferPath (leave arrive : ChannelEnd P) (path : Text) : Text :=
  if isAwayFromOrigin leave path then
    (parseClassTrace (getClassPrefix arrive ++ path)).getFullClassPath
  else removeClassPrefix leave path

/-- A transfer leaves a chain through one end of a channel and arrives at the other. -/
structure Hop (P : Platform) where
  leave : ChannelEnd P
  arrive : ChannelEnd P

def Hop.reverse (hop : Hop P) : Hop P := ⟨hop.arrive, hop.leave⟩

/-- What a transfer does to a stack of channel ends. -/
def Hop.onStack (hop : Hop P) (s : List (ChannelEnd P)) : List (ChannelEnd P) :=
  if s.head? = some hop.leave then s.tail else hop.arrive :: s

/-- The full path that a stack stands for. -/
def render (base : Text) (s : List (ChannelEnd P)) : Text :=
  s.foldr (fun e path ↦ getClassPrefix e ++ path) base

@[simp] theorem render_nil (base : Text) : render base ([] : List (ChannelEnd P)) = base := rfl

@[simp] theorem render_cons (base : Text) (e : ChannelEnd P) (s : List (ChannelEnd P)) :
    render base (e :: s) = getClassPrefix e ++ render base s := rfl

theorem Hop.onStack_of_top {hop : Hop P} {s : List (ChannelEnd P)} (h : s.head? = some hop.leave) :
    hop.onStack s = s.tail := if_pos h

theorem Hop.onStack_of_not_top {hop : Hop P} {s : List (ChannelEnd P)}
    (h : s.head? ≠ some hop.leave) : hop.onStack s = hop.arrive :: s := if_neg h

section Rendering

variable {base : Text} {s : List (ChannelEnd P)}

theorem isAwayFromOrigin_render (hbase : '/' ∉ base) (e : ChannelEnd P) :
    isAwayFromOrigin e (render base s) = false ↔ s.head? = some e := by
  rw [isAwayFromOrigin_eq_false]
  cases s with
  | nil =>
    refine ⟨fun ⟨rest, hrest⟩ ↦ absurd (slash_mem_classPrefix e rest) ?_, fun h ↦ nomatch h⟩
    rwa [← hrest]
  | cons top rest =>
    rw [render_cons, List.head?_cons, Option.some.injEq]
    constructor
    · rintro ⟨rest', hrest'⟩
      exact (classPrefix_append_inj hrest').1
    · rintro rfl
      exact ⟨render base rest, rfl⟩

theorem removeClassPrefix_render {e : ChannelEnd P} (h : s.head? = some e) :
    removeClassPrefix e (render base s) = render base s.tail := by
  cases s with
  | nil => cases h
  | cons top rest =>
    obtain rfl := Option.some.inj h
    exact removeClassPrefix_append top (render base rest)

theorem transferPath_render (hbase : '/' ∉ base) (hop : Hop P) :
    transferPath hop.leave hop.arrive (render base s) = render base (hop.onStack s) := by
  rw [transferPath]
  by_cases htop : s.head? = some hop.leave
  · rw [(isAwayFromOrigin_render hbase hop.leave).mpr htop, if_neg Bool.false_ne_true,
      removeClassPrefix_render htop, hop.onStack_of_top htop]
  · have haway : isAwayFromOrigin hop.leave (render base s) = true := by
      rw [← Bool.not_eq_false]
      exact fun h ↦ htop ((isAwayFromOrigin_render hbase hop.leave).mp h)
    rw [if_pos haway, (parseClassTrace_arrived hop.arrive _).2, hop.onStack_of_not_top htop,
      render_cons]

end Rendering

/-! ### Walks -/

/-- The transfers of a token on its way from one chain to another. -/
inductive Walk (T : Topology P ι) (i : ι) : List (Hop P) → ι → Prop
  | nil : Walk T i [] i
  | snoc {hops : List (Hop P)} {j k : ι} {hop : Hop P} (h : Walk T i hops j)
      (hpeer : T.peer j hop.leave = some (k, hop.arrive)) : Walk T i (hops ++ [hop]) k

def pathAfter (base : Text) (hops : List (Hop P)) : Text :=
  hops.foldl (fun path hop ↦ transferPath hop.leave hop.arrive path) base

def stackAfter (hops : List (Hop P)) : List (ChannelEnd P) :=
  hops.foldl (fun s hop ↦ hop.onStack s) []

def retrace (hops : List (Hop P)) : List (Hop P) := (hops.map Hop.reverse).reverse

@[simp] theorem stackAfter_concat (hops : List (Hop P)) (hop : Hop P) :
    stackAfter (hops ++ [hop]) = hop.onStack (stackAfter hops) := by
  rw [stackAfter, List.foldl_append]
  rfl

theorem pathAfter_eq_render {base : Text} (hbase : '/' ∉ base) (hops : List (Hop P)) :
    pathAfter base hops = render base (stackAfter hops) := by
  have hfrom : ∀ s : List (ChannelEnd P),
      hops.foldl (fun path hop ↦ transferPath hop.leave hop.arrive path) (render base s) =
        render base (hops.foldl (fun s hop ↦ hop.onStack s) s) := by
    induction hops with
    | nil => exact fun s ↦ rfl
    | cons hop rest ih =>
      intro s
      rw [List.foldl_cons, List.foldl_cons, transferPath_render hbase, ih]
  exact hfrom []

/-- The end on top of the stack was put there when the token left the chain that the end leads to,
and what is below it is the stack the token had there. -/
theorem exists_pushed {i j : ι} {hops : List (Hop P)} (h : Walk T i hops j) {e : ChannelEnd P}
    {rest : List (ChannelEnd P)} (hs : stackAfter hops = e :: rest) :
    ∃ before after k f, hops = before ++ after ∧ Walk T i before k ∧ stackAfter before = rest ∧
      T.peer k f = some (j, e) ∧ rest.head? ≠ some f := by
  induction hn : hops.length using Nat.strong_induction_on generalizing hops j e rest with
  | _ n ih =>
    cases h with
    | nil => cases hs
    | @snoc hops j' _ hop hwalk hpeer =>
      rw [List.length_append, List.length_singleton] at hn
      rw [stackAfter_concat] at hs
      by_cases htop : (stackAfter hops).head? = some hop.leave
      · -- the token comes back to where the end it leaves through was put on top
        rw [hop.onStack_of_top htop] at hs
        obtain ⟨below, hbelow⟩ := List.head?_eq_some_iff.mp htop
        rw [hbelow, List.tail_cons] at hs
        obtain ⟨before, after, k, f, rfl, hbefore, hstack, hpushed, -⟩ :=
          ih hops.length (by omega) hwalk hbelow rfl
        obtain ⟨rfl, rfl⟩ := Prod.mk.inj (Option.mem_unique hpeer (T.symm hpushed))
        rw [List.length_append] at hn
        obtain ⟨before', after', k', f', rfl, hrest⟩ :=
          ih before.length (by omega) hbefore (hstack.trans hs) rfl
        exact ⟨before', after' ++ (after ++ [hop]), k', f', by simp only [List.append_assoc], hrest⟩
      · rw [hop.onStack_of_not_top htop] at hs
        obtain ⟨rfl, rfl⟩ := List.cons.inj hs
        exact ⟨hops, [hop], j', hop.leave, rfl, hwalk, rfl, hpeer, htop⟩

theorem onStack_reverse {i j k : ι} {hops : List (Hop P)} (h : Walk T i hops j) {hop : Hop P}
    (hpeer : T.peer j hop.leave = some (k, hop.arrive)) :
    hop.reverse.onStack (hop.onStack (stackAfter hops)) = stackAfter hops := by
  by_cases htop : (stackAfter hops).head? = some hop.leave
  · obtain ⟨below, hbelow⟩ := List.head?_eq_some_iff.mp htop
    obtain ⟨-, -, k', f, -, -, -, hpushed, hbelowTop⟩ := exists_pushed h hbelow
    obtain ⟨rfl, rfl⟩ := Prod.mk.inj (Option.mem_unique hpeer (T.symm hpushed))
    rw [hop.onStack_of_top htop, hbelow, List.tail_cons]
    exact hop.reverse.onStack_of_not_top hbelowTop
  · rw [hop.onStack_of_not_top htop]
    exact hop.reverse.onStack_of_top rfl

theorem stackAfter_retrace {i j : ι} {hops : List (Hop P)} (h : Walk T i hops j) :
    stackAfter (hops ++ retrace hops) = [] := by
  induction h with
  | nil => rfl
  | @snoc hops j k hop hwalk hpeer ih =>
    have hsplit : hops ++ [hop] ++ retrace (hops ++ [hop]) =
        hops ++ ([hop, hop.reverse] ++ retrace hops) := by
      simp [retrace]
    rw [stackAfter, List.foldl_append] at ih
    rw [hsplit, stackAfter, List.foldl_append, List.foldl_append]
    refine Eq.trans (congrArg (fun s ↦ List.foldl _ s _) ?_) ih
    exact onStack_reverse hwalk hpeer

/-- The full path of a class behaves as a stack of channel ends on top of the native class, for
every walk of a token over the channels of a network. -/
theorem class_path_is_stack {i j : ι} {hops : List (Hop P)} (h : Walk T i hops j) {base : Text}
    (hbase : '/' ∉ base) :
    pathAfter base hops = render base (stackAfter hops) ∧
      (∀ (k : ι) (hop : Hop P), T.peer j hop.leave = some (k, hop.arrive) →
        pathAfter base (hops ++ [hop]) = render base (hop.onStack (stackAfter hops)) ∧
        (isAwayFromOrigin hop.leave (pathAfter base hops) = false ↔
          (stackAfter hops).head? = some hop.leave) ∧
        (isAwayFromOrigin hop.leave (pathAfter base hops) = false →
          ∃ before after, hops = before ++ after ∧ Walk T i before k ∧
            stackAfter before = (stackAfter hops).tail ∧
            removeClassPrefix hop.leave (pathAfter base hops) = pathAfter base before)) ∧
      pathAfter base (hops ++ retrace hops) = base ∧
      (parseClassTrace (pathAfter base (hops ++ retrace hops))).ibcClassID P = base := by
  have hback : pathAfter base (hops ++ retrace hops) = base := by
    rw [pathAfter_eq_render hbase, stackAfter_retrace h, render_nil]
  refine ⟨pathAfter_eq_render hbase hops, fun k hop hpeer ↦ ⟨?_, ?_, fun hhome ↦ ?_⟩, hback, ?_⟩
  · rw [pathAfter_eq_render hbase, stackAfter_concat]
  · rw [pathAfter_eq_render hbase]
    exact isAwayFromOrigin_render hbase hop.leave
  · rw [pathAfter_eq_render hbase] at hhome ⊢
    have htop := (isAwayFromOrigin_render hbase hop.leave).mp hhome
    obtain ⟨below, hbelow⟩ := List.head?_eq_some_iff.mp htop
    obtain ⟨before, after, k', f, rfl, hbefore, hstack, hpushed, -⟩ := exists_pushed h hbelow
    obtain ⟨rfl, -⟩ := Prod.mk.inj (Option.mem_unique hpeer (T.symm hpushed))
    refine ⟨before, after, rfl, hbefore, ?_, ?_⟩
    · rw [hstack, hbelow, List.tail_cons]
    · rw [removeClassPrefix_render htop, hbelow, List.tail_cons, ← hstack,
        pathAfter_eq_render hbase]
  · rw [hback]
    exact classOf_of_not_mem hbase

/-- A token of the second of two chains goes to the first one and back. -/
theorem class_path_is_stack_pair :
    pathAfter "dog".toList [⟨Reference.end₁, Reference.end₀⟩] = "nft/channel-0/dog".toList ∧
      pathAfter (P := Reference.platform) "dog".toList
        ([⟨Reference.end₁, Reference.end₀⟩] ++ retrace [⟨Reference.end₁, Reference.end₀⟩]) =
        "dog".toList := by
  have hwalk : Walk pair true [⟨Reference.end₁, Reference.end₀⟩] false := Walk.nil.snoc (by decide)
  have hbase : '/' ∉ "dog".toList := by decide
  obtain ⟨hpath, -, hback, -⟩ := class_path_is_stack hwalk hbase
  exact ⟨hpath.trans (by decide), hback⟩

/-! ### The full paths on the chains of a network -/

theorem transferPath_of_away {leave : ChannelEnd P} (arrive : ChannelEnd P) {path : Text}
    (h : isAwayFromOrigin leave path = true) :
    transferPath leave arrive path = getClassPrefix arrive ++ path := by
  rw [transferPath, if_pos h, (parseClassTrace_arrived arrive path).2]

theorem transferPath_of_home (leave arrive : ChannelEnd P) (rest : Text) :
    transferPath leave arrive (getClassPrefix leave ++ rest) = rest := by
  have hhome : isAwayFromOrigin leave (getClassPrefix leave ++ rest) = false :=
    isAwayFromOrigin_eq_false.mpr ⟨rest, rfl⟩
  rw [transferPath, hhome, if_neg Bool.false_ne_true, removeClassPrefix_append]

/-- The tokens of a packet that is received are then in the class with the new path. -/
theorem RecvEffect.isSome_tokens {packet : Packet P} {data : PacketData} {R R' : Registry}
    (h : RecvEffect packet R .result R') (hdata : packet.data = some data) {t : Text}
    (ht : t ∈ data.tokenIds) :
    (R'.tokens (classOf P (transferPath packet.source packet.dest data.classId), t)).isSome := by
  cases h with
  | minted hdata' haway _ hchanged =>
    obtain rfl := Option.mem_unique hdata hdata'
    obtain ⟨-, tok, htok, -⟩ := hchanged.inside t ht
    rw [transferPath_of_away _ haway, classOf_arrived, htok]
    rfl
  | released hdata' hpath hchanged =>
    obtain rfl := Option.mem_unique hdata hdata'
    obtain ⟨tok, -, -, htok⟩ := hchanged.inside t ht
    rw [hpath, transferPath_of_home, htok]
    rfl

/-- On a chain of a network, the class with a path has this full path. -/
theorem fullClassPath_classOf {U : Set Text} {i : ι} {st : State} {R : Registry}
    (h : Holds P (T.arrivals U i) st R) (hU : Set.InjOn P.sha256 U) {path : Text}
    (hpath : IsPath P path) (hmem : path ∈ U) (hclass : (R.classes (classOf P path)).isSome) :
    fullClassPath st (classOf P path) = .ok path := by
  obtain ⟨path', hfull, hclassOf, hpath', hmem'⟩ := exists_fullClassPath h hU hclass
  rw [hfull, hpath'.eq_of_classOf_eq hU hpath hmem' (fun _ ↦ hmem) hclassOf]

/-- A chain that receives a packet of the network has the new path for the class of its tokens. -/
theorem fullClassPath_of_recv {U : Set Text} {N : Network P ι} {R : ι → Registry}
    (hR : Sound T U N R) (hU : Set.InjOn P.sha256 U) (hused : N.used ⊆ U) {f : Flight P ι}
    (hf : f ∈ N.flights) (hclash : NoClash P (recv (N.chains f.dest) f.packet).1)
    {data : PacketData} (hdata : f.packet.data = some data) {t : Text} (ht : t ∈ data.tokenIds)
    (hack : (recv (N.chains f.dest) f.packet).2 = .result) :
    fullClassPath (recv (N.chains f.dest) f.packet).1
        (classOf P (transferPath f.packet.source f.packet.dest data.classId)) =
      .ok (transferPath f.packet.source f.packet.dest data.classId) := by
  have harrivals := hR.arrivals_subset hused hf
  obtain ⟨R₁, hrep, heffect⟩ := recv_effect (hR.chains f.dest) harrivals hclash
  rw [hack] at heffect
  have hinv := Acts.inv (acts_of_recv _ harrivals) (hR.chains f.dest).inv
  have hafter := hinv.holds_of_represents hclash hrep
  obtain ⟨tok, htok⟩ := Option.isSome_iff_exists.mp (heffect.isSome_tokens hdata ht)
  have hclass := R₁.inhabited htok
  obtain ⟨-, data', hdata', hpath⟩ := hR.flights f hf
  obtain rfl := Option.mem_unique hdata hdata'
  by_cases haway : isAwayFromOrigin f.packet.source data.classId = true
  · rw [transferPath_of_away _ haway] at hclass ⊢
    exact fullClassPath_classOf hafter hU (.hop _ hpath)
      (hused ⟨f, hf, data, hdata, Or.inr (Or.inl rfl)⟩) hclass
  · rw [Bool.not_eq_true, isAwayFromOrigin_eq_false] at haway
    obtain ⟨rest, hrest⟩ := haway
    rw [hrest, transferPath_of_home] at hclass ⊢
    rw [hrest] at hpath
    exact fullClassPath_classOf hafter hU hpath.of_hop
      (hused ⟨f, hf, data, hdata, Or.inr (Or.inr hrest)⟩) hclass

/-- The tokens that a chain of a network takes in are in a class with the path of the packet, taken
over the channel: the hop is put on top of the path, or taken off it. -/
theorem received_class_has_path [DecidableEq ι] {U : Set Text} {N : Network P ι} (h : N.Reachable T)
    (hU : Set.InjOn P.sha256 U) (hused : N.used ⊆ U)
    (hE : ∀ i, Set.InjOn getEscrowAddress {e | (T.peer i e).isSome})
    (hclash : ∀ i, NoClash P (N.chains i)) {f : Flight P ι} (hf : f ∈ N.flights)
    (hafter : NoClash P (recv (N.chains f.dest) f.packet).1)
    (hack : (recv (N.chains f.dest) f.packet).2 = .result) {data : PacketData}
    (hdata : f.packet.data = some data) {t : Text} (ht : t ∈ data.tokenIds) :
    fullClassPath (recv (N.chains f.dest) f.packet).1
        (classOf P (transferPath f.packet.source f.packet.dest data.classId)) =
      .ok (transferPath f.packet.source f.packet.dest data.classId) := by
  obtain ⟨R, hR⟩ := sound_of_reachable h hU hE hused hclash
  exact fullClassPath_of_recv hR hU hused hf hafter hdata ht hack

/-! ### Travels -/

theorem fullClassPath_of_traces {st st' : State} {d path : Text}
    (h : ∀ (hash : List UInt8) (trace : ClassTrace), st.traces[hash]? = some trace →
      st'.traces[hash]? = some trace)
    (hpath : fullClassPath st d = .ok path) : fullClassPath st' d = .ok path := by
  unfold fullClassPath at hpath ⊢
  split_ifs at hpath ⊢
  · exact classPathFromHash_mono h hpath
  · exact hpath

section Travels

variable [DecidableEq ι] {U : Set Text} {N N' : Network P ι}

/-- What a network keeps when it goes on. -/
structure Network.Extends (N N' : Network P ι) : Prop where
  used : N.used ⊆ N'.used
  classes : ∀ i d, hasDenomID (N.chains i).nft d = true → hasDenomID (N'.chains i).nft d = true
  traces : ∀ i (hash : List UInt8) (trace : ClassTrace), (N.chains i).traces[hash]? = some trace →
    (N'.chains i).traces[hash]? = some trace

theorem extends_of_run {τ : List (Transition (Network P ι) (Event P ι))}
    (h : Run (Network.Step T) N τ N') : N.Extends N' := by
  refine h.invariant (P := N.Extends) ⟨subset_rfl, fun _ _ h ↦ h, fun _ _ _ h ↦ h⟩ ?_
  rintro M event _ hM ⟨hsigned, rfl⟩
  have hmove : Move T M (M.step T event) := move_of_step hsigned
  refine ⟨hM.used.trans hmove.used_subset, fun i d hd ↦ hmove.hasDenomID (hM.classes i d hd),
    fun i hash trace htrace ↦ ?_⟩
  obtain ⟨a, hacts⟩ := hmove.acts i
  exact Acts.getElem?_traces hacts (hM.traces i hash trace htrace)

omit [DecidableEq ι] in
theorem Network.Extends.noClash (h : N.Extends N') (hclash : ∀ i, NoClash P (N'.chains i)) (i : ι) :
    NoClash P (N.chains i) :=
  (hclash i).of_le fun d hd ↦ h.classes i d hd

/-- Tokens of the class `base` of the chain `i` have gone over `hops`, and are tokens of the class
`d` of the chain `j` in the network `N`. Anything can happen in the network between their
transfers. -/
inductive Travels (T : Topology P ι) (i : ι) (base : Text) :
    List (Hop P) → ι → Text → Network P ι → Prop
  | start {N : Network P ι} (h : N.Reachable T) : Travels T i base [] i base N
  | wait {hops : List (Hop P)} {j : ι} {d : Text} {N N' : Network P ι}
      {τ : List (Transition (Network P ι) (Event P ι))} (h : Travels T i base hops j d N)
      (hrun : Run (Network.Step T) N τ N') : Travels T i base hops j d N'
  /-- They are sent in the network `N` and received in the network `N'`. -/
  | hop {hops : List (Hop P)} {j : ι} {d : Text} {N N' : Network P ι}
      {τ : List (Transition (Network P ι) (Event P ι))} {ibc : Channels P} {msg : MsgTransfer}
      {st : State} {n : ℕ} {f : Flight P ι} {data : PacketData} {t : Text}
      (h : Travels T i base hops j d N) (hclass : msg.classId = d)
      (hsend : transfer (T.channels j ibc) (N.chains j) msg = .ok (f.packet, st))
      (hrun : Run (Network.Step T) N τ N') (hf : N'.flights[n]? = some f) (hsource : f.source = j)
      (hsent : f.status = .sent) (hack : (recv (N'.chains f.dest) f.packet).2 = .result)
      (hdata : f.packet.data = some data) (ht : t ∈ data.tokenIds) :
      Travels T i base (hops ++ [⟨f.packet.source, f.packet.dest⟩]) f.dest
        (classOf P (transferPath f.packet.source f.packet.dest data.classId)) (N'.step T (.recv n))

theorem Network.Reachable.append {τ : List (Transition (Network P ι) (Event P ι))}
    (h : N.Reachable T) (hrun : Run (Network.Step T) N τ N') : N'.Reachable T := by
  obtain ⟨τ₀, hτ₀⟩ := h
  exact ⟨_, hτ₀.append hrun⟩

theorem step_recv (N : Network P ι) (n : ℕ) : Network.Step T N (.recv n) (N.step T (.recv n)) :=
  ⟨trivial, rfl⟩

theorem Travels.reachable {i j : ι} {base d : Text} {hops : List (Hop P)}
    (h : Travels T i base hops j d N) : N.Reachable T := by
  induction h with
  | start h => exact h
  | wait _ hrun ih => exact ih.append hrun
  | hop _ _ _ hrun _ _ _ _ _ _ ih => exact (ih.append hrun).append (.single (step_recv _ _))

theorem Travels.path {i j : ι} {base d : Text} {hops : List (Hop P)}
    (h : Travels T i base hops j d N) (hbase : '/' ∉ base) (hU : Set.InjOn P.sha256 U)
    (hE : ∀ i, Set.InjOn getEscrowAddress {e | (T.peer i e).isSome}) (hused : N.used ⊆ U)
    (hclash : ∀ i, NoClash P (N.chains i)) :
    Walk T i hops j ∧ d = classOf P (pathAfter base hops) ∧
      fullClassPath (N.chains j) d = .ok (pathAfter base hops) := by
  induction h with
  | start h => exact ⟨.nil, (classOf_of_not_mem hbase).symm, fullClassPath_native hbase⟩
  | wait _ hrun ih =>
    have hext := extends_of_run hrun
    obtain ⟨hwalk, hd, hpath⟩ := ih (hext.used.trans hused) (hext.noClash hclash)
    exact ⟨hwalk, hd, fullClassPath_of_traces (hext.traces _) hpath⟩
  | @hop hops j d N N' τ ibc msg st n f data t h hclass hsend hrun hf hsource hsent hack
    hdata ht ih =>
    -- from the sending to the receiving network, and on by the receipt
    have hext := extends_of_run hrun
    have hreach := h.reachable.append hrun
    have hlast : N'.Extends (N'.step T (.recv n)) := extends_of_run (.single (step_recv N' n))
    have hused' := hlast.used.trans hused
    have hclash' := hlast.noClash hclash
    obtain ⟨hwalk, rfl, hpath⟩ := ih (hext.used.trans hused') (hext.noClash hclash')
    have hstep : (N'.step T (.recv n)).chains f.dest = (recv (N'.chains f.dest) f.packet).1 := by
      rw [Network.step, hf]
      dsimp only
      rw [hsent]
      exact Function.update_self ..
    -- the packet carries the full path of the class that is sent
    obtain ⟨R, hR⟩ := sound_of_reachable h.reachable hU hE (hext.used.trans hused')
      (hext.noClash hclash')
    obtain ⟨_, data', _, _, _, heffect⟩ := transfer_effect (hR.chains j).represents hsend
    obtain rfl := Option.mem_unique hdata heffect.holds
    have hclassId : data.classId = pathAfter base hops := by
      have hsame := heffect.path
      rw [hclass, hpath] at hsame
      exact (Except.ok.inj hsame).symm
    have hmem := List.mem_of_getElem? hf
    have hreceived := received_class_has_path hreach hU hused' hE hclash' hmem
      (hstep ▸ hclash f.dest) hack hdata ht
    have hpathAfter : pathAfter base (hops ++ [⟨f.packet.source, f.packet.dest⟩]) =
        transferPath f.packet.source f.packet.dest data.classId := by
      rw [pathAfter, List.foldl_append, hclassId]
      rfl
    rw [hpathAfter, hstep]
    obtain ⟨R', hR'⟩ := sound_of_reachable hreach hU hE hused' hclash'
    obtain ⟨hpeer, -⟩ := hR'.flights f hmem
    refine ⟨hwalk.snoc ?_, rfl, hreceived⟩
    rwa [hsource] at hpeer

end Travels

section Histories

open Reference

end Histories

/-! ### Classes are permanent -/

/-- What a chain has said about a class stays true: its record does not change, and neither does its
full path. -/
theorem classes_are_permanent {st st' : State} {τ : List (Transition State (Label P))}
    (h : Run (ChainStep P) st τ st') :
    (∀ d denom, Nft.getDenom st.nft d = .ok denom → Nft.getDenom st'.nft d = .ok denom) ∧
      ∀ d path, fullClassPath st d = .ok path → fullClassPath st' d = .ok path := by
  have hkept := h.invariant (P := fun st' ↦
      (∀ d denom, Nft.getDenom st.nft d = .ok denom → Nft.getDenom st'.nft d = .ok denom) ∧
        ∀ (hash : List UInt8) (trace : ClassTrace), st.traces[hash]? = some trace →
          st'.traces[hash]? = some trace)
    ⟨fun _ _ hdenom ↦ hdenom, fun _ _ htrace ↦ htrace⟩ (by
      rintro s label _ ⟨hdenoms, htraces⟩ rfl
      obtain ⟨a, hacts⟩ := step_acts s (Set.subset_univ label.arrivals)
      refine ⟨fun d denom hdenom ↦ ?_, fun hash trace htrace ↦
        Acts.getElem?_traces hacts (htraces hash trace htrace)⟩
      generalize step s label = s' at hacts ⊢
      induction hacts with
      | refl => exact hdenoms d denom hdenom
      | tail _ hlast ih => exact hlast.getDenom ih)
  exact ⟨hkept.1, fun d path hpath ↦ fullClassPath_of_traces hkept.2 hpath⟩

theorem classes_are_permanent_dog :
    ∃ denom, Nft.getDenom (step
      (Reference.after [.deliver (.issueDenom "dog".toList "dogs".toList [] Reference.alice [])])
      (.deliver (P := Reference.platform) (.mintNFT "rex".toList "dog".toList [] [] []
        Reference.alice Reference.alice))).nft "dog".toList = .ok denom := by
  have hissued : (Nft.getDenom (Reference.after [.deliver (.issueDenom "dog".toList "dogs".toList []
      Reference.alice [])]).nft "dog".toList).isOk = true := by decide +kernel
  generalize Reference.after _ = st at hissued ⊢
  cases hdenom : Nft.getDenom st.nft "dog".toList with
  | error e =>
    rw [hdenom] at hissued
    cases hissued
  | ok denom => exact ⟨denom, (classes_are_permanent (.single rfl)).1 _ denom hdenom⟩

end ChainMain.NftTransfer
