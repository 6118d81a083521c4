import Nca.FWRules.LabelGrouping
import Nca.CoreDS.Peer
import Nca.Lib.Loops

/-!
The elements of firewall rules and the base elements they are made of. A set of namespaces is one
element. A set of peers is split into its IP blocks, its DNS entries and, namespace by namespace, the
groups that its pods form by their labels.
-/

namespace Nca.FWRules
open CoreDS Lib Lib.Python LabeledPeers

/-- The peers of a system with their kinds, namespaces and labels. -/
class RulePeers (E : Type) extends Peers E, LabeledPeers E where
  block_kind : ∀ e, is_ip_block e = true ↔ kind e = .ipBlock

/-- A `FWRuleElement` of whole namespaces, a `PodElement`, a group of pods, an `IPBlockElement` or a
`DNSElement`. -/
inductive RuleElement (E : Type) where
  | namespaces (ns_info : Finset (Option String))
  | pod (element : E)
  | pods (element : FWRuleElement E)
  | ipBlock (element : PeerSet E)
  | dns (element : E)
  deriving DecidableEq

structure FWRule (E P : Type) where
  src : RuleElement E
  dst : RuleElement E
  props : P
  deriving DecidableEq

/-- What a side of a rule is made of. -/
inductive BaseElement (E : Type) where
  | clusterEP (element : E)
  | ipBlock (element : PeerSet E)
  | k8sNamespace (element : Option String)
  | dnsEntry (element : E)
  | peerSet (element : PeerSet E)
  | namespaces (element : Finset (Option String))
  deriving DecidableEq

/-- In which order the peers of a set come, and the IP blocks that its addresses form. -/
structure PeerOrders (E : Type) where
  peers : SetOrder E
  blocks : PeerSet E → List (PeerSet E)

/-- Nothing is left out and nothing is added. -/
structure PeerOrders.Sound {E : Type} [Peers E] (orders : PeerOrders E) : Prop where
  peers : orders.peers.Visits
  blocks : ∀ s e, (∃ block ∈ orders.blocks s, e ∈ block) ↔ e ∈ s ∧ Peers.kind e = .ipBlock

/-- `isinstance(peer, ClusterEP)`. -/
def IsClusterEP {E : Type} [Peers E] (e : E) : Prop :=
  Peers.kind e = .pod ∨ Peers.kind e = .hostEP

instance {E : Type} [Peers E] {e : E} : Decidable (IsClusterEP e) := inferInstanceAs (Decidable (_ ∨ _))

section Making

variable {E : Type} [DecidableEq E]

def RuleElement.getPeerSet (cluster_info : ClusterInfo E) : RuleElement E → PeerSet E
  | namespaces ns_info => FWRuleElement.nsPodsSet cluster_info ns_info
  | pod element => {element}
  | pods element => element.getPodsSet cluster_info
  | ipBlock element => element
  | dns element => {element}

/-- The peers that a base element stands for. -/
def BaseElement.peers (cluster_info : ClusterInfo E) : BaseElement E → PeerSet E
  | clusterEP element => {element}
  | ipBlock element => element
  | k8sNamespace element => FWRuleElement.nsPodsSet cluster_info {element}
  | dnsEntry element => {element}
  | peerSet element => element
  | namespaces element => FWRuleElement.nsPodsSet cluster_info element

/-- The state of the loop over the pods of a set. -/
structure PodsLeft (E : Type) where
  turn : Nat
  pods : PeerSet E
  res : List (RuleElement E)

variable [RulePeers E] (orders : PeerOrders E) (cluster_info : ClusterInfo E)
  (fwRulesGroupByLabelSinglePod : Bool) (fuel : Nat)

/-- One turn of `while pods`: the pods of one namespace. -/
def podsTurn (state : PodsLeft E) : Except Failure (Turn (List (RuleElement E)) (PodsLeft E)) :=
  if state.pods = ∅ then pure (.done state.res)
  else do
    let first ← item (orders.peers state.turn state.pods) 0
    let ns_pods := state.pods ∩ SetDict.find cluster_info.ns_dict (peer_namespace first)
    let elements :=
      createFwElementsByPodsGroupingByLabels cluster_info fwRulesGroupByLabelSinglePod ns_pods
    pure (.again ⟨state.turn + 1, state.pods \ ns_pods, state.res ++ elements.map .pods⟩)

/-- `_create_fw_elements_from_base_element` for a set of peers. -/
def createFwElementsFromPeerSet (base_elem : PeerSet E) : Except Failure (List (RuleElement E)) := do
  let pods := base_elem.filter fun e => Peers.kind e ≠ .ipBlock ∧ Peers.kind e ≠ .dnsEntry
  let ipblocks_and_dns := base_elem \ pods
  let res ← loop (podsTurn orders cluster_info fwRulesGroupByLabelSinglePod) fuel ⟨0, pods, []⟩
  let dns := ipblocks_and_dns.filter fun e => Peers.kind e = .dnsEntry
  pure (res ++ (orders.blocks ipblocks_and_dns).map .ipBlock ++ (orders.peers 0 dns).map .dns)

def createFwElementsFromBaseElement : BaseElement E → Except Failure (List (RuleElement E))
  | .clusterEP element => pure [.pod element]
  | .ipBlock element => pure [.ipBlock element]
  | .k8sNamespace element => pure [.namespaces {element}]
  | .dnsEntry element => pure [.dns element]
  | .peerSet element =>
    createFwElementsFromPeerSet orders cluster_info fwRulesGroupByLabelSinglePod fuel element
  | .namespaces element => pure [.namespaces element]

def createFwRulesFromBaseElements {P : Type} (src dst : BaseElement E) (props : P) :
    Except Failure (List (FWRule E P)) := do
  let src_elem ←
    createFwElementsFromBaseElement orders cluster_info fwRulesGroupByLabelSinglePod fuel src
  let dst_elem ←
    createFwElementsFromBaseElement orders cluster_info fwRulesGroupByLabelSinglePod fuel dst
  pure (src_elem.flatMap fun src => dst_elem.map fun dst => ⟨src, dst, props⟩)

end Making

section Elements

variable {E : Type} [DecidableEq E] {cluster_info : ClusterInfo E} {elements : List (RuleElement E)}
  {peers : PeerSet E}

/-- Together the elements stand for exactly these peers. -/
def StandFor (cluster_info : ClusterInfo E) (elements : List (RuleElement E)) (peers : PeerSet E) : Prop :=
  ∀ e, (∃ element ∈ elements, e ∈ element.getPeerSet cluster_info) ↔ e ∈ peers

theorem standFor_one (element : RuleElement E) :
    StandFor cluster_info [element] (element.getPeerSet cluster_info) := by
  intro e
  simp

theorem standFor_append {more : List (RuleElement E)} {others : PeerSet E}
    (left : StandFor cluster_info elements peers) (right : StandFor cluster_info more others) :
    StandFor cluster_info (elements ++ more) (peers ∪ others) := by
  intro e
  rw [Finset.mem_union, ← left e, ← right e]
  simp only [List.mem_append, or_and_right, exists_or]

theorem standFor_blocks {blocks : List (PeerSet E)} (made : ∀ e, (∃ block ∈ blocks, e ∈ block) ↔ e ∈ peers) :
    StandFor cluster_info (blocks.map .ipBlock) peers := by
  intro e
  rw [← made e]
  simp [RuleElement.getPeerSet]

theorem standFor_dns {entries : List E} (made : ∀ e, e ∈ entries ↔ e ∈ peers) :
    StandFor cluster_info (entries.map .dns) peers := by
  intro e
  rw [← made e]
  simp [RuleElement.getPeerSet]

end Elements

section Spec

variable {E : Type} [DecidableEq E] [RulePeers E] {orders : PeerOrders E} {all_peers : List E}
  {allowed_labels : List Str} {fwRulesGroupByLabelSinglePod : Bool} {fuel : Nat} {peers : PeerSet E}

/-- The cluster endpoints among the peers are pods of the topology. -/
def Known (cluster_info : ClusterInfo E) (peers : PeerSet E) : Prop :=
  ∀ e ∈ peers, IsClusterEP e → e ∈ cluster_info.allPods

omit [DecidableEq E] in
theorem Known.mono {cluster_info : ClusterInfo E} {fewer : PeerSet E} (known : Known cluster_info peers)
    (inside : fewer ⊆ peers) : Known cluster_info fewer := fun e member => known e (inside member)

omit [DecidableEq E] in
/-- A peer is a cluster endpoint, an address or a DNS entry. -/
theorem isClusterEP_iff {e : E} : IsClusterEP e ↔ Peers.kind e ≠ .ipBlock ∧ Peers.kind e ≠ .dnsEntry := by
  unfold IsClusterEP
  cases Peers.kind e <;> decide

/-- The elements by labels stand for the pods they are made of. -/
theorem standFor_pods (fwRulesGroupByLabelSinglePod : Bool) {pods_set : PeerSet E}
    (pods : ∀ p ∈ pods_set, p ∈ (ClusterInfo.init all_peers allowed_labels).allPods) :
    StandFor (ClusterInfo.init all_peers allowed_labels)
      ((createFwElementsByPodsGroupingByLabels (ClusterInfo.init all_peers allowed_labels)
        fwRulesGroupByLabelSinglePod pods_set).map .pods) pods_set := by
  intro e
  have grouped := getPodsGroupingByLabelsMain_grouped fwRulesGroupByLabelSinglePod pods
  rw [grouped.partition.covers e, ← elementPods_chosen grouped, List.exists_mem_cons_iff]
  unfold createFwElementsByPodsGroupingByLabels
  dsimp only
  split
  · rename_i nothing
    simp [nothing, elementPods, RuleElement.getPeerSet]
  · simp [elementPods, RuleElement.getPeerSet, FWRuleElement.getPodsSet, or_comm, or_and_right, exists_or]

/-- What the loop has made stands for the pods that are done, and the others are left. -/
structure PodsGrouped (cluster_info : ClusterInfo E) (pods : PeerSet E) (state : PodsLeft E) : Prop where
  left : state.pods ⊆ pods
  made : StandFor cluster_info state.res (pods \ state.pods)

theorem podsTurn_keeps (sound : orders.Sound) {pods : PeerSet E} {state : PodsLeft E}
    (known : ∀ e ∈ pods, e ∈ (ClusterInfo.init all_peers allowed_labels).allPods)
    (grouped : PodsGrouped (ClusterInfo.init all_peers allowed_labels) pods state) :
    Returns (podsTurn orders (ClusterInfo.init all_peers allowed_labels) fwRulesGroupByLabelSinglePod state)
      (TurnKeeps (PodsGrouped (ClusterInfo.init all_peers allowed_labels) pods)
        (fun state => state.pods.card)
        (fun res => StandFor (ClusterInfo.init all_peers allowed_labels) res pods) state) := by
  unfold podsTurn
  apply returns_ite
  · intro none_left
    apply returns_pure
    have made := grouped.made
    rw [none_left, Finset.sdiff_empty] at made
    exact made
  · intro some_left
    have listed : orders.peers state.turn state.pods ≠ [] := by
      intro nothing
      obtain ⟨e, member⟩ := Finset.nonempty_of_ne_empty some_left
      have visited := (sound.peers state.turn state.pods e).mpr member
      rw [nothing] at visited
      exact List.not_mem_nil visited
    obtain ⟨first, others, same⟩ := List.exists_cons_of_ne_nil listed
    rw [same]
    have inside : first ∈ state.pods :=
      (sound.peers state.turn state.pods first).mp (same ▸ List.mem_cons_self)
    have placed := ClusterInfo.mem_ns_dict.mpr ⟨known first (grouped.left inside), rfl⟩
    let ns_pods := state.pods ∩
      SetDict.find (ClusterInfo.init all_peers allowed_labels).ns_dict (peer_namespace first)
    have within : ns_pods ⊆ state.pods := Finset.inter_subset_left
    have now := standFor_pods fwRulesGroupByLabelSinglePod
      fun e member => known e (grouped.left (within member))
    refine returns_pure ⟨⟨Finset.sdiff_subset.trans grouped.left, ?_⟩, ?_⟩
    · have whole : pods \ (state.pods \ ns_pods) = pods \ state.pods ∪ ns_pods := by
        ext e
        have given := @grouped.left e
        have part := @within e
        simp only [Finset.mem_sdiff, Finset.mem_union]
        grind
      show StandFor _ _ (pods \ (state.pods \ ns_pods))
      rw [whole]
      exact standFor_append grouped.made now
    · apply Finset.card_lt_card
      apply Finset.sdiff_ssubset within
      exact ⟨first, Finset.mem_inter.mpr ⟨inside, placed⟩⟩

/-- The elements of a set of peers stand for exactly these. -/
theorem createFwElementsFromPeerSet_exact (sound : orders.Sound)
    (known : Known (ClusterInfo.init all_peers allowed_labels) peers) (enough : peers.card < fuel) :
    Returns (createFwElementsFromPeerSet orders (ClusterInfo.init all_peers allowed_labels)
        fwRulesGroupByLabelSinglePod fuel peers)
      fun elements => StandFor (ClusterInfo.init all_peers allowed_labels) elements peers := by
  unfold createFwElementsFromPeerSet
  let pods := peers.filter fun e => Peers.kind e ≠ .ipBlock ∧ Peers.kind e ≠ .dnsEntry
  have pods_known : ∀ e ∈ pods, e ∈ (ClusterInfo.init all_peers allowed_labels).allPods := by
    intro e member
    obtain ⟨given, kinds⟩ := Finset.mem_filter.mp member
    exact known e given (isClusterEP_iff.mpr kinds)
  have start : PodsGrouped (ClusterInfo.init all_peers allowed_labels) pods ⟨0, pods, []⟩ := by
    refine ⟨subset_rfl, ?_⟩
    intro e
    simp
  have smaller : pods.card < fuel := (Finset.card_filter_le _ _).trans_lt enough
  apply returns_bind (returns_loop (fun state grouped => podsTurn_keeps sound pods_known grouped) start smaller)
  intro res made
  apply returns_pure
  have blocks : StandFor (ClusterInfo.init all_peers allowed_labels)
      ((orders.blocks (peers \ pods)).map .ipBlock) (peers.filter fun e => Peers.kind e = .ipBlock) := by
    apply standFor_blocks
    intro e
    rw [sound.blocks, Finset.mem_sdiff, Finset.mem_filter, Finset.mem_filter]
    grind
  have entries : StandFor (ClusterInfo.init all_peers allowed_labels)
      ((orders.peers 0 ((peers \ pods).filter fun e => Peers.kind e = .dnsEntry)).map .dns)
      (peers.filter fun e => Peers.kind e = .dnsEntry) := by
    apply standFor_dns
    intro e
    rw [sound.peers, Finset.mem_filter, Finset.mem_filter, Finset.mem_sdiff, Finset.mem_filter]
    grind
  have all := standFor_append (standFor_append made blocks) entries
  have whole : pods ∪ (peers.filter fun e => Peers.kind e = .ipBlock) ∪
      (peers.filter fun e => Peers.kind e = .dnsEntry) = peers := by
    ext e
    simp only [pods, Finset.mem_union, Finset.mem_filter]
    grind
  rw [whole] at all
  exact all

/-- The elements of a base element stand for its peers. -/
theorem createFwElementsFromBaseElement_exact (sound : orders.Sound) (base_elem : BaseElement E)
    (known : Known (ClusterInfo.init all_peers allowed_labels)
      (base_elem.peers (ClusterInfo.init all_peers allowed_labels)))
    (enough : (base_elem.peers (ClusterInfo.init all_peers allowed_labels)).card < fuel) :
    Returns (createFwElementsFromBaseElement orders (ClusterInfo.init all_peers allowed_labels)
        fwRulesGroupByLabelSinglePod fuel base_elem)
      fun elements => StandFor (ClusterInfo.init all_peers allowed_labels) elements
        (base_elem.peers (ClusterInfo.init all_peers allowed_labels)) := by
  cases base_elem with
  | clusterEP element => exact returns_pure (standFor_one (.pod element))
  | ipBlock element => exact returns_pure (standFor_one (.ipBlock element))
  | k8sNamespace element => exact returns_pure (standFor_one (.namespaces {element}))
  | dnsEntry element => exact returns_pure (standFor_one (.dns element))
  | peerSet element => exact createFwElementsFromPeerSet_exact sound known enough
  | namespaces element => exact returns_pure (standFor_one (.namespaces element))

end Spec

section Rules

variable {E P : Type} [DecidableEq E] {cluster_info : ClusterInfo E}

/-- The rule applies to the pair of peers. -/
def FWRule.Joins (cluster_info : ClusterInfo E) (rule : FWRule E P) (pair : E × E) : Prop :=
  pair.1 ∈ rule.src.getPeerSet cluster_info ∧ pair.2 ∈ rule.dst.getPeerSet cluster_info

/-- Some rule of the list applies to the pair, and all of them have these connections. -/
structure RulesFor (cluster_info : ClusterInfo E) (props : P) (rules : List (FWRule E P))
    (pairs : E × E → Prop) : Prop where
  joins : ∀ pair, (∃ rule ∈ rules, rule.Joins cluster_info pair) ↔ pairs pair
  props : ∀ rule ∈ rules, rule.props = props

theorem rulesFor_nil {props : P} : RulesFor cluster_info props [] fun _ => False :=
  ⟨by simp, List.forall_mem_nil _⟩

theorem RulesFor.append {props : P} {rules more : List (FWRule E P)} {pairs others : E × E → Prop}
    (left : RulesFor cluster_info props rules pairs) (right : RulesFor cluster_info props more others) :
    RulesFor cluster_info props (rules ++ more) fun pair => pairs pair ∨ others pair where
  joins pair := by
    rw [← left.joins pair, ← right.joins pair]
    simp only [List.mem_append, or_and_right, exists_or]
  props := List.forall_mem_append.mpr ⟨left.props, right.props⟩

theorem RulesFor.congr {props : P} {rules : List (FWRule E P)} {pairs others : E × E → Prop}
    (made : RulesFor cluster_info props rules pairs) (same : ∀ pair, pairs pair ↔ others pair) :
    RulesFor cluster_info props rules others :=
  ⟨fun pair => (made.joins pair).trans (same pair), made.props⟩

variable [RulePeers E] {orders : PeerOrders E} {all_peers : List E} {allowed_labels : List Str}
  {fwRulesGroupByLabelSinglePod : Bool} {fuel : Nat}

/-- The rules of two base elements apply to the pairs of their peers. -/
theorem createFwRulesFromBaseElements_exact (sound : orders.Sound) {src dst : BaseElement E} {props : P}
    (known : Known (ClusterInfo.init all_peers allowed_labels)
      (src.peers (ClusterInfo.init all_peers allowed_labels)))
    (known' : Known (ClusterInfo.init all_peers allowed_labels)
      (dst.peers (ClusterInfo.init all_peers allowed_labels)))
    (enough : ∀ s : PeerSet E, s.card < fuel) :
    Returns (createFwRulesFromBaseElements orders (ClusterInfo.init all_peers allowed_labels)
        fwRulesGroupByLabelSinglePod fuel src dst props)
      fun rules => RulesFor (ClusterInfo.init all_peers allowed_labels) props rules fun pair =>
        pair.1 ∈ src.peers (ClusterInfo.init all_peers allowed_labels) ∧
          pair.2 ∈ dst.peers (ClusterInfo.init all_peers allowed_labels) := by
  unfold createFwRulesFromBaseElements
  apply returns_bind (createFwElementsFromBaseElement_exact sound src known (enough _))
  intro src_elem sources
  apply returns_bind (createFwElementsFromBaseElement_exact sound dst known' (enough _))
  intro dst_elem targets
  refine returns_pure ⟨?_, ?_⟩
  · intro pair
    rw [← sources pair.1, ← targets pair.2]
    simp only [List.mem_flatMap, List.mem_map, FWRule.Joins]
    grind
  · intro rule made
    obtain ⟨_, _, made⟩ := List.mem_flatMap.mp made
    obtain ⟨_, _, rfl⟩ := List.mem_map.mp made
    rfl

end Rules
end Nca.FWRules
