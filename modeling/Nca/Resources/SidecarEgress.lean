import Nca.CoreDS.ConnectivityProperties
import Nca.Lib.Loops
import Nca.NetworkConfig.PeerLookups
import Nca.Resources.Policies

/-!
The connections that an Istio sidecar lets out: `create_opt_egress_props` and the split of a global
sidecar's pods by their namespaces. Connections to a DNS entry are TCP connections, unless another
product of the same rule covers the entry.
-/

namespace Nca.Resources
open CoreDS Lib Lib.Python NetworkConfig TopologyPeers

variable {P E κ : Type} [ConnectivityProperties P E κ] [Fintype E] [DecidableEq E] [TopologyPeers E]

inductive OutboundMode where
  | ALLOW_ANY
  | REGISTRY_ONLY
  deriving DecidableEq, Repr

/-- An `IstioSidecarRule` with the peers that it was parsed to. -/
structure EgressListener (P E : Type) where
  egress_peer_set : PeerSet E
  special_egress_peer_set : PeerSet E
  props : P

/-- What `create_opt_egress_props` reads and writes of an `IstioSidecar`. -/
structure SidecarEgress (P E : Type) where
  selected_peers : PeerSet E
  outbound_mode : OutboundMode := .ALLOW_ANY
  egress_rules : List (EgressListener P E)

namespace SidecarEgress

/-- One turn of `combine_peer_sets_by_ns`: the sources that are left, and the pairs so far. -/
def combineTurn (order : SetOrder E) (peer_container : PeerContainer E) (to_peer_set : PeerSet E)
    (state : PeerSet E × List (PeerSet E × PeerSet E)) :
    Except Failure (Turn (List (PeerSet E × PeerSet E)) (PeerSet E × List (PeerSet E × PeerSet E))) :=
  let (from_peer_set_copy, res) := state
  if from_peer_set_copy = ∅ then pure (.done res)
  else do
    let peer ← item (order res.length from_peer_set_copy) 0
    if Peers.kind peer = .ipBlock then pure (.again (from_peer_set_copy.erase peer, res))
    else
      let peers_in_curr_ns := peer_container.getNamespacePods (peer_namespace peer)
      pure (.again (from_peer_set_copy \ peers_in_curr_ns,
        res ++ [(from_peer_set_copy ∩ peers_in_curr_ns, to_peer_set ∩ peers_in_curr_ns)]))

def combinePeerSetsByNs (order : SetOrder E) (fuel : Nat) (from_peer_set to_peer_set : PeerSet E)
    (peer_container : PeerContainer E) : Except Failure (List (PeerSet E × PeerSet E)) :=
  loop (combineTurn order peer_container to_peer_set) fuel (from_peer_set, [])

/-- `props |= …` under a condition. -/
def addWhen (c : Prop) [Decidable c] (cube : ConnectivityCube E) (props : P) : P :=
  if c then props ∪ makeConnProps cube else props

/-- The body of the loop over the rules. -/
def createRuleProps (order : SetOrder E) (fuel : Nat) (self : SidecarEgress P E)
    (peer_container : PeerContainer E) (rule : EgressListener P E) :
    Except Failure (EgressListener P E) := do
  -- any external address, unless the mode is registry only
  let props := addWhen (self.outbound_mode = .ALLOW_ANY)
    { src_peers := some self.selected_peers, dst_peers := some getAllIpsBlockPeerSet } rule.props
  let dns_entries := peer_container.getAllDnsEntries
  let dst_dns_entries := dns_entries ∩ (rule.egress_peer_set ∪ rule.special_egress_peer_set)
  let props := addWhen (self.selected_peers ≠ ∅ ∧ dst_dns_entries ≠ ∅)
    { src_peers := some self.selected_peers, dst_peers := some dst_dns_entries,
      protocols := some (getProtocolSetWithSingleProtocol tcp) } props
  -- the whole set, with its DNS entries
  let props := addWhen (self.selected_peers ≠ ∅ ∧ rule.egress_peer_set ≠ ∅)
    { src_peers := some self.selected_peers, dst_peers := some rule.egress_peer_set } props
  let peers_sets_by_ns ← combinePeerSetsByNs order fuel self.selected_peers
    rule.special_egress_peer_set peer_container
  return { rule with
    props := peers_sets_by_ns.foldl (fun props (from_peers, to_peers) =>
      addWhen (from_peers ≠ ∅ ∧ to_peers ≠ ∅)
        { src_peers := some from_peers, dst_peers := some to_peers } props) props }

def createOptEgressProps (order : SetOrder E) (fuel : Nat) (self : SidecarEgress P E)
    (peer_container : PeerContainer E) : Except Failure (SidecarEgress P E) := do
  let egress_rules ← self.egress_rules.mapM (createRuleProps order fuel self peer_container)
  return { self with egress_rules := egress_rules }

/-- Two peers of one namespace. -/
def SameNamespace (s d : E) : Prop :=
  ∃ own other, peer_namespace s = some own ∧ peer_namespace d = some other ∧ own.name = other.name

/-- What a rule is to let out. -/
def LetsOut (self : SidecarEgress P E) (rule : EgressListener P E) (x : Flow E κ) : Prop :=
  x.src ∈ self.selected_peers ∧
    (self.outbound_mode = .ALLOW_ANY ∧ Peers.kind x.dst = .ipBlock ∨
      Peers.kind x.dst = .dnsEntry ∧
        (x.dst ∈ rule.egress_peer_set ∨ x.dst ∈ rule.special_egress_peer_set) ∧ x.protocol = tcp ∨
      Peers.kind x.dst = .pod ∧ x.dst ∈ rule.egress_peer_set ∨
      Peers.kind x.dst = .pod ∧ x.dst ∈ rule.special_egress_peer_set ∧ SameNamespace x.src x.dst)

/-- The sidecar selects pods of the topology, and its rules, which have no connections yet, have
pods and DNS entries of the topology. -/
structure Parsed (peer_container : PeerContainer E) (sidecar : SidecarEgress P E) : Prop where
  selected : ∀ s ∈ sidecar.selected_peers, s ∈ peer_container.peer_set ∧ Peers.kind s = .pod
  targets : ∀ rule ∈ sidecar.egress_rules, ∀ d,
    d ∈ rule.egress_peer_set ∨ d ∈ rule.special_egress_peer_set →
      d ∈ peer_container.peer_set ∧ (Peers.kind d = .pod ∨ Peers.kind d = .dnsEntry)
  fresh : ∀ rule ∈ sidecar.egress_rules, rule.props = ∅

/-- No DNS entry is in a product that has all protocols. -/
def DnsApart (self : SidecarEgress P E) (rule : EgressListener P E) : Prop :=
  ∀ s ∈ self.selected_peers, ∀ d, Peers.kind d = .dnsEntry →
    d ∉ rule.egress_peer_set ∧ (d ∈ rule.special_egress_peer_set → ¬ SameNamespace s d)

section Combine

variable {order : SetOrder E} {peer_container : PeerContainer E} {fuel : Nat}
  {from_peer_set to_peer_set : PeerSet E}

/-- The pairs cover a source and a destination. -/
def Covers (pairs : List (PeerSet E × PeerSet E)) (s d : E) : Prop :=
  ∃ pair ∈ pairs, s ∈ pair.1 ∧ d ∈ pair.2

theorem mem_namespacePods_iff {s d : E} {own : K8sNamespace} (inside : peer_namespace s = some own) :
    d ∈ peer_container.getNamespacePods (peer_namespace s) ↔
      d ∈ peer_container.peer_set ∧ SameNamespace s d := by
  rw [inside]
  show d ∈ peer_container.peer_set.filter _ ↔ _
  rw [Finset.mem_filter]
  apply and_congr_right
  intro _
  unfold PeerContainer.considered SameNamespace
  cases there : peer_namespace d with
  | none => simp
  | some other =>
    simp only [Option.all_some, Option.any_some, beq_iff_eq, inside, Option.some.injEq]
    constructor
    · intro same
      exact ⟨own, other, rfl, rfl, same.symm⟩
    · intro ⟨_, _, first, second, same⟩
      rw [second, ← same, ← first]

omit [Fintype E] [DecidableEq E] in
theorem sameNamespace_trans {a b c : E} (first : SameNamespace a b) (second : SameNamespace b c) :
    SameNamespace a c := by
  obtain ⟨ownA, ownB, placeA, placeB, same⟩ := first
  obtain ⟨ownB', ownC, placeB', placeC, same'⟩ := second
  rw [placeB] at placeB'
  obtain rfl := Option.some.inj placeB'
  exact ⟨ownA, ownC, placeA, placeC, same.trans same'⟩

omit [Fintype E] [DecidableEq E] in
theorem sameNamespace_symm {a b : E} (same : SameNamespace a b) : SameNamespace b a := by
  obtain ⟨own, other, placeA, placeB, names⟩ := same
  exact ⟨other, own, placeB, placeA, names.symm⟩

/-- The pairs so far cover what the sources that are left do not. -/
structure Combined (peer_container : PeerContainer E) (from_peer_set to_peer_set : PeerSet E)
    (state : PeerSet E × List (PeerSet E × PeerSet E)) : Prop where
  within : state.1 ⊆ from_peer_set
  covered : ∀ s d, (Covers state.2 s d ∨ s ∈ state.1 ∧ d ∈ to_peer_set ∧
      d ∈ peer_container.peer_set ∧ SameNamespace s d) ↔
    s ∈ from_peer_set ∧ d ∈ to_peer_set ∧ d ∈ peer_container.peer_set ∧ SameNamespace s d

omit [Fintype E] in
/-- The namespace of the first source is dealt with. -/
theorem combined_step {rest : PeerSet E} {res : List (PeerSet E × PeerSet E)}
    (before : Combined peer_container from_peer_set to_peer_set (rest, res)) {peers_in_curr_ns : PeerSet E}
    {peer : E} (group : ∀ d, d ∈ peers_in_curr_ns ↔ d ∈ peer_container.peer_set ∧ SameNamespace peer d) :
    Combined peer_container from_peer_set to_peer_set (rest \ peers_in_curr_ns,
      res ++ [(rest ∩ peers_in_curr_ns, to_peer_set ∩ peers_in_curr_ns)]) := by
  constructor
  · exact Finset.sdiff_subset.trans before.within
  · intro s d
    rw [← before.covered s d]
    have split : Covers (res ++ [(rest ∩ peers_in_curr_ns, to_peer_set ∩ peers_in_curr_ns)]) s d ↔
        Covers res s d ∨ (s ∈ rest ∧ s ∈ peers_in_curr_ns) ∧ d ∈ to_peer_set ∧
          d ∈ peers_in_curr_ns := by
      simp [Covers, or_and_right, exists_or, and_assoc]
    show Covers (res ++ _) s d ∨ s ∈ rest \ peers_in_curr_ns ∧ _ ↔ Covers res s d ∨ s ∈ rest ∧ _
    rw [split, Finset.mem_sdiff, or_assoc]
    apply or_congr_right
    constructor
    · rintro (⟨⟨left_over, here⟩, target, there⟩ | ⟨⟨left_over, _⟩, others⟩)
      · obtain ⟨placed, same⟩ := (group d).mp there
        have together := sameNamespace_trans (sameNamespace_symm ((group s).mp here).2) same
        exact ⟨left_over, target, placed, together⟩
      · exact ⟨left_over, others⟩
    · rintro ⟨left_over, target, placed, same⟩
      by_cases here : s ∈ peers_in_curr_ns
      · have there := (group d).mpr ⟨placed, sameNamespace_trans ((group s).mp here).2 same⟩
        exact Or.inl ⟨⟨left_over, here⟩, target, there⟩
      · exact Or.inr ⟨⟨left_over, here⟩, target, placed, same⟩

/-- One turn deals with the first source and its namespace. -/
theorem combineTurn_spec {state : PeerSet E × List (PeerSet E × PeerSet E)} (visits : order.Visits)
    (known : ∀ s ∈ from_peer_set, s ∈ peer_container.peer_set ∧ Peers.kind s = .pod)
    (before : Combined peer_container from_peer_set to_peer_set state) :
    Returns (combineTurn order peer_container to_peer_set state)
      (TurnKeeps (Combined peer_container from_peer_set to_peer_set) (fun state => state.1.card)
        (fun pairs => ∀ s d, Covers pairs s d ↔ s ∈ from_peer_set ∧ d ∈ to_peer_set ∧
          d ∈ peer_container.peer_set ∧ SameNamespace s d) state) := by
  obtain ⟨rest, res⟩ := state
  unfold combineTurn
  dsimp only
  by_cases finished : rest = ∅
  · rw [if_pos finished]
    apply returns_pure
    intro s d
    rw [← before.covered s d]
    simp [finished]
  · rw [if_neg finished]
    obtain ⟨some_peer, left_over⟩ := Finset.nonempty_iff_ne_empty.mpr finished
    cases listed : order res.length rest with
    | nil =>
      have visited := (visits res.length rest some_peer).mpr left_over
      rw [listed] at visited
      exact absurd visited List.not_mem_nil
    | cons peer others =>
      have member : peer ∈ rest := by
        rw [← visits res.length rest peer, listed]
        exact List.mem_cons_self
      obtain ⟨placed, pod⟩ := known peer (before.within member)
      obtain ⟨own, inside⟩ := pod_namespace peer pod
      rw [item_zero, ok_bind, if_neg (by rw [pod]; decide)]
      have group : ∀ d, d ∈ peer_container.getNamespacePods (peer_namespace peer) ↔
          d ∈ peer_container.peer_set ∧ SameNamespace peer d :=
        fun d => mem_namespacePods_iff inside
      have own_group := (group peer).mpr ⟨placed, own, own, inside, inside, rfl⟩
      apply returns_pure
      refine ⟨combined_step before group, ?_⟩
      apply Finset.card_lt_card
      refine Finset.ssubset_iff_subset_ne.mpr ⟨Finset.sdiff_subset, ?_⟩
      intro unchanged
      change rest \ _ = rest at unchanged
      rw [← unchanged] at member
      exact (Finset.mem_sdiff.mp member).2 own_group

theorem combinePeerSetsByNs_covers (visits : order.Visits)
    (known : ∀ s ∈ from_peer_set, s ∈ peer_container.peer_set ∧ Peers.kind s = .pod)
    (enough : from_peer_set.card < fuel) :
    Returns (combinePeerSetsByNs order fuel from_peer_set to_peer_set peer_container) fun pairs =>
      ∀ s d, Covers pairs s d ↔ s ∈ from_peer_set ∧ d ∈ to_peer_set ∧
        d ∈ peer_container.peer_set ∧ SameNamespace s d := by
  have start : Combined peer_container from_peer_set to_peer_set (from_peer_set, []) :=
    ⟨Finset.Subset.refl from_peer_set, fun s d => by simp [Covers]⟩
  exact returns_loop (fun _ before => combineTurn_spec visits known before) start enough

end Combine

section Rules

variable {order : SetOrder E} {peer_container : PeerContainer E} {fuel : Nat}
  {self : SidecarEgress P E} {rule : EgressListener P E}

omit [Fintype E] [DecidableEq E] [TopologyPeers E] in
theorem mem_addWhen {c : Prop} [Decidable c] {cube : ConnectivityCube E} {props : P} {x : Flow E κ} :
    x ∈ addWhen c cube props ↔ x ∈ props ∨ c ∧ cube.Admits x := by
  unfold addWhen
  split
  case isTrue holds => rw [ExactSet.mem_union, mem_makeConnProps, and_iff_right holds]
  case isFalse fails => simp [fails]

omit [Fintype E] [TopologyPeers E] in
theorem mem_addPairs {pairs : List (PeerSet E × PeerSet E)} {props : P} {x : Flow E κ} :
    (x ∈ pairs.foldl (fun props (from_peers, to_peers) =>
      addWhen (from_peers ≠ ∅ ∧ to_peers ≠ ∅)
        { src_peers := some from_peers, dst_peers := some to_peers } props) props) ↔
      x ∈ props ∨ Covers pairs x.src x.dst := by
  induction pairs generalizing props with
  | nil => simp [Covers]
  | cons pair rest ih =>
    rw [List.foldl_cons, ih, mem_addWhen, or_assoc]
    apply or_congr_right
    have first : ((pair.1 ≠ ∅ ∧ pair.2 ≠ ∅) ∧ ConnectivityCube.Admits
        { src_peers := some pair.1, dst_peers := some pair.2 } x) ↔
          x.src ∈ pair.1 ∧ x.dst ∈ pair.2 := by
      simp only [ConnectivityCube.Admits, Option.some.injEq, forall_eq', reduceCtorEq,
        false_implies, implies_true, and_true]
      apply and_iff_right_of_imp
      intro ⟨source, target⟩
      exact ⟨Finset.ne_empty_of_mem source, Finset.ne_empty_of_mem target⟩
    rw [first]
    simp [Covers]

/-- What the four products of a rule let out. -/
def Given (peer_container : PeerContainer E) (self : SidecarEgress P E) (rule : EgressListener P E)
    (x : Flow E κ) : Prop :=
  x.src ∈ self.selected_peers ∧
    (self.outbound_mode = .ALLOW_ANY ∧ Peers.kind x.dst = .ipBlock ∨
      (x.dst ∈ peer_container.peer_set ∧ Peers.kind x.dst = .dnsEntry) ∧
        (x.dst ∈ rule.egress_peer_set ∨ x.dst ∈ rule.special_egress_peer_set) ∧ x.protocol = tcp ∨
      x.dst ∈ rule.egress_peer_set ∨
      x.dst ∈ rule.special_egress_peer_set ∧ x.dst ∈ peer_container.peer_set ∧
        SameNamespace x.src x.dst)

theorem createRuleProps_spec (visits : order.Visits)
    (known : ∀ s ∈ self.selected_peers, s ∈ peer_container.peer_set ∧ Peers.kind s = .pod)
    (enough : self.selected_peers.card < fuel) :
    Returns (createRuleProps order fuel self peer_container rule) fun made =>
      ∀ x, x ∈ made.props ↔ x ∈ rule.props ∨ Given peer_container self rule x := by
  unfold createRuleProps
  apply returns_bind (combinePeerSetsByNs_covers visits known enough)
  intro pairs covers
  apply returns_pure
  intro x
  show (x ∈ pairs.foldl _ _) ↔ _
  rw [mem_addPairs, covers, mem_addWhen, mem_addWhen, mem_addWhen]
  simp only [ConnectivityCube.Admits, Option.some.injEq, forall_eq', reduceCtorEq, false_implies,
    implies_true, and_true, mem_allIps, Finset.mem_inter, Finset.mem_union, PeerContainer.mem_dns,
    getProtocolSetWithSingleProtocol, Finset.mem_singleton, or_assoc, Given]
  apply or_congr_right
  constructor
  · rintro (⟨any, source, target⟩ | ⟨_, source, ⟨entry, target⟩, protocol⟩ | ⟨_, source, target⟩ |
      ⟨source, target⟩)
    · exact ⟨source, Or.inl ⟨any, target⟩⟩
    · exact ⟨source, Or.inr (Or.inl ⟨entry, target, protocol⟩)⟩
    · exact ⟨source, Or.inr (Or.inr (Or.inl target))⟩
    · exact ⟨source, Or.inr (Or.inr (Or.inr target))⟩
  · rintro ⟨source, cases⟩
    have selected := Finset.ne_empty_of_mem source
    rcases cases with ⟨any, target⟩ | ⟨entry, target, protocol⟩ | target | target
    · exact Or.inl ⟨any, source, target⟩
    · have entries := Finset.ne_empty_of_mem (Finset.mem_inter.mpr
        ⟨PeerContainer.mem_dns.mpr entry, Finset.mem_union.mpr target⟩)
      exact Or.inr (Or.inl ⟨⟨selected, entries⟩, source, ⟨entry, target⟩, protocol⟩)
    · exact Or.inr (Or.inr (Or.inl ⟨⟨selected, Finset.ne_empty_of_mem target⟩, source, target⟩))
    · exact Or.inr (Or.inr (Or.inr ⟨source, target⟩))

theorem createOptEgressProps_rules (visits : order.Visits)
    (known : ∀ s ∈ self.selected_peers, s ∈ peer_container.peer_set ∧ Peers.kind s = .pod)
    (enough : self.selected_peers.card < fuel) :
    Returns (createOptEgressProps order fuel self peer_container) fun done =>
      List.Forall₂ (fun rule made => ∀ x, x ∈ made.props ↔
        x ∈ rule.props ∨ Given peer_container self rule x) self.egress_rules done.egress_rules := by
  unfold createOptEgressProps
  apply returns_bind (returns_mapM fun rule _ => createRuleProps_spec visits known enough)
  intro made each
  exact returns_pure each

theorem createOptEgressProps_selected {done : SidecarEgress P E}
    (run : createOptEgressProps order fuel self peer_container = .ok done) :
    done.selected_peers = self.selected_peers := by
  obtain ⟨_, _, last⟩ := bind_ok.mp run
  rw [← Except.ok.inj last]

omit [Fintype E] [DecidableEq E] in
/-- The four products let out what they are to let out exactly if no DNS entry is in one of the
products for pods. -/
theorem given_iff [Inhabited κ] (parsed : Parsed peer_container self)
    (listed : rule ∈ self.egress_rules) :
    (∀ x : Flow E κ, Given peer_container self rule x ↔ LetsOut self rule x) ↔ DnsApart self rule := by
  constructor
  · intro same s source d entry
    -- a UDP connection to the entry
    let x : Flow E κ := ⟨s, d, 17, default⟩
    have refused : ¬ LetsOut self rule x := by
      unfold LetsOut
      rw [entry]
      intro ⟨_, let_out⟩
      revert let_out
      simp [x, tcp]
    constructor
    · intro target
      exact refused ((same x).mp ⟨source, Or.inr (Or.inr (Or.inl target))⟩)
    · intro target together
      have placed := (parsed.targets rule listed d (Or.inr target)).1
      exact refused ((same x).mp ⟨source, Or.inr (Or.inr (Or.inr ⟨target, placed, together⟩))⟩)
  · intro apart x
    apply and_congr_right
    intro source
    constructor
    · rintro (any | ⟨entry, dns⟩ | target | ⟨target, _, together⟩)
      · exact Or.inl any
      · exact Or.inr (Or.inl ⟨entry.2, dns⟩)
      · rcases (parsed.targets rule listed x.dst (Or.inl target)).2 with pod | entry
        · exact Or.inr (Or.inr (Or.inl ⟨pod, target⟩))
        · exact absurd target (apart x.src source x.dst entry).1
      · rcases (parsed.targets rule listed x.dst (Or.inr target)).2 with pod | entry
        · exact Or.inr (Or.inr (Or.inr ⟨pod, target, together⟩))
        · exact absurd together ((apart x.src source x.dst entry).2 target)
    · rintro (any | ⟨entry, dns⟩ | ⟨_, target⟩ | ⟨_, target, together⟩)
      · exact Or.inl any
      · exact Or.inr (Or.inl ⟨⟨(parsed.targets rule listed x.dst dns.1).1, entry⟩, dns⟩)
      · exact Or.inr (Or.inr (Or.inl target))
      · have placed := (parsed.targets rule listed x.dst (Or.inr target)).1
        exact Or.inr (Or.inr (Or.inr ⟨target, placed, together⟩))

/-- The properties are made, and a rule's are right exactly if no DNS entry is in a product that has
all protocols. -/
theorem createOptEgressProps_exact [Inhabited κ] (visits : order.Visits)
    (parsed : Parsed peer_container self) (enough : self.selected_peers.card < fuel) :
    Returns (createOptEgressProps order fuel self peer_container) fun done =>
      List.Forall₂ (fun rule made => (∀ x, x ∈ made.props ↔ LetsOut self rule x) ↔
        DnsApart self rule) self.egress_rules done.egress_rules := by
  apply returns_mono (createOptEgressProps_rules visits parsed.selected enough)
  intro done each
  apply (forall₂_members each).imp
  intro rule made ⟨listed, props⟩
  rw [← given_iff parsed listed]
  apply forall_congr'
  intro x
  rw [props, parsed.fresh rule listed]
  simp

/-- The rules that are made are those of an `IstioSidecar`. -/
theorem createOptEgressProps_inside (visits : order.Visits) (parsed : Parsed peer_container self)
    (enough : self.selected_peers.card < fuel) :
    Returns (createOptEgressProps order fuel self peer_container) fun done =>
      ∀ made ∈ done.egress_rules, Inside self.selected_peers false made.props := by
  apply returns_mono (createOptEgressProps_rules visits parsed.selected enough)
  intro done each made listed x inside
  obtain ⟨i, bound, rfl⟩ := List.getElem_of_mem listed
  have before : i < self.egress_rules.length := each.length_eq ▸ bound
  have props := each.get before bound x
  rw [List.get_eq_getElem, List.get_eq_getElem, parsed.fresh _ (List.getElem_mem before)] at props
  rcases props.mp inside with nothing | given
  · exact absurd nothing ExactSet.not_mem_empty
  · exact given.1

end Rules

/-- A sidecar of the one pod, with a DNS entry for all of its hosts. -/
def dnsSidecar : SidecarEgress (FlowSet PeerKind Unit) PeerKind where
  selected_peers := {.pod}
  outbound_mode := .REGISTRY_ONLY
  egress_rules := [⟨{.pod, .dnsEntry}, ∅, ∅⟩]

/-- A sidecar of the one pod with a rule for the pods of its own namespace. -/
def ownNamespaceSidecar : SidecarEgress (FlowSet PeerKind Unit) PeerKind where
  selected_peers := {.pod}
  egress_rules := [⟨∅, {.pod, .dnsEntry}, ∅⟩]

def onePodOneEntry : PeerContainer PeerKind := ⟨{.pod, .dnsEntry}⟩

def kindOrder : SetOrder PeerKind :=
  fun _ s => [.pod, .hostEP, .dnsEntry, .ipBlock].filter fun kind => decide (kind ∈ s)

theorem kindOrder_visits : kindOrder.Visits := by
  intro turn s kind
  unfold kindOrder
  rw [List.mem_filter, decide_eq_true_eq]
  apply and_iff_right
  cases kind <;> decide

theorem ownNamespaceSidecar_exact :
    Returns (createOptEgressProps kindOrder 2 ownNamespaceSidecar onePodOneEntry) fun done =>
      List.Forall₂ (fun rule made => (∀ x, x ∈ made.props ↔ LetsOut ownNamespaceSidecar rule x) ↔
        DnsApart ownNamespaceSidecar rule) ownNamespaceSidecar.egress_rules done.egress_rules := by
  apply createOptEgressProps_exact kindOrder_visits ⟨by decide, by decide, ?_⟩ (by decide)
  intro rule listed
  obtain rfl := List.mem_singleton.mp listed
  rfl

/-- The DNS entry can be reached with any protocol. -/
theorem dnsSidecar_all_protocols :
    ¬ Returns (createOptEgressProps kindOrder 2 dnsSidecar onePodOneEntry) fun done =>
      List.Forall₂ (fun rule made => ∀ x, x ∈ made.props ↔ LetsOut dnsSidecar rule x)
        dnsSidecar.egress_rules done.egress_rules := by
  intro wanted
  have known : ∀ s ∈ dnsSidecar.selected_peers,
      s ∈ onePodOneEntry.peer_set ∧ Peers.kind s = .pod := by decide
  obtain ⟨done, _, made, right⟩ := returns_and
    (createOptEgressProps_rules kindOrder_visits known (by decide)) wanted
  obtain ⟨rule, _, given, _, same⟩ := List.forall₂_cons_left_iff.mp made
  rw [same] at right
  have let_out := (List.forall₂_cons.mp right).1 ⟨.pod, .dnsEntry, 17, ()⟩
  have inside := (given ⟨.pod, .dnsEntry, 17, ()⟩).mpr
    (Or.inr ⟨by decide, Or.inr (Or.inr (Or.inl (by decide)))⟩)
  obtain ⟨_, (⟨mode, _⟩ | ⟨_, _, protocol⟩ | ⟨pod, _⟩ | ⟨pod, _⟩)⟩ := let_out.mp inside
  · exact absurd mode (by decide)
  · exact absurd protocol (by decide)
  · exact absurd pod (by decide)
  · exact absurd pod (by decide)

end SidecarEgress
end Nca.Resources
