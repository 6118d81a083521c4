import Nca.FWRules.MinimizeFWRules
import Nca.NetworkConfig.QueryAgreement

/-!
The connectivity map. The allowed connections of a configuration are cut to a subset of its peers,
split by TCP if there is an Istio layer, and written as firewall rules. The rules stand for what all
layers allow, up to connections of endpoints with themselves.
-/

namespace Nca.NetworkConfig
open CoreDS Lib Lib.Python Resources FWRules FWRules.LabeledPeers

/-- The peers that subsets are made of: a pod may have an owner and has a workload. -/
class SubsetPeers (E : Type) extends RulePeers E where
  owner_name : E → Str
  workload_name : E → Str

/-- The `subset` of an output configuration; each entry may be missing. -/
structure Subset where
  namespace_subset : Option Str := none
  deployment_subset : Option Str := none
  label_subset : Option (List (List (Str × Str))) := none
  deriving DecidableEq

/-- No subset is defined. -/
def Subset.isEmpty (subset : Subset) : Bool :=
  subset.namespace_subset.isNone && subset.deployment_subset.isNone && subset.label_subset.isNone

/-- The output configuration, as far as the rules depend on it. -/
structure OutputConfiguration where
  excludeIPv6Range : Bool := true
  subset : Subset := {}
  fwRulesOverrideAllowedLabels : Str := []
  fwRulesGroupByLabelSinglePod : Bool := false

structure ConnectivityMapQuery (P : Type) {E κ : Type} [Peers E] [ConnectivityProperties P E κ] where
  config : NetworkConfig P
  /-- `config.get_allowed_labels()` -/
  config_labels : List Str
  output_config : OutputConfiguration

namespace ConnectivityMapQuery

section Subsets

variable {E : Type} [SubsetPeers E]

/-- `str(peer.namespace)`. -/
def namespaceStr (peer : E) : Str := ((peer_namespace peer).getD "None").toList

def areLabelsAllIncluded (target_labels pool_labels : List (Str × Str)) : Bool :=
  target_labels.all fun label => Dict.get pool_labels label.1 == some label.2

/-- The name of the deployment, or the name that is searched for it. -/
def inDeployment (peer : E) (dep_name : Str) : Bool :=
  let dep_name_for_comp :=
    if '/' ∈ dep_name then SubsetPeers.workload_name peer else SubsetPeers.owner_name peer
  decide (dep_name <:+: dep_name_for_comp)

def isInSubset (subset : Subset) (peer : E) : Bool :=
  if subset.isEmpty then true
  else
    let namespace_subset := subset.namespace_subset.getD []
    let deployment_subset := subset.deployment_subset.getD []
    let label_subset := subset.label_subset.getD []
    if namespace_subset ≠ [] ∧ namespaceStr peer ∈ namespace_subset.splitOn ',' then true
    else if Peers.kind peer = .pod ∧ deployment_subset ≠ [] ∧ SubsetPeers.owner_name peer ≠ [] ∧
        (deployment_subset.splitOn ',').any (inDeployment peer) = true then true
    else decide (label_subset ≠ [] ∧ labels peer ≠ [] ∧
      label_subset.any (areLabelsAllIncluded · (labels peer)) = true)

def computeSubset (subset : Subset) (peers : PeerSet E) : PeerSet E :=
  if subset.isEmpty then peers else peers.filter fun peer => isInSubset subset peer = true

theorem mem_computeSubset {subset : Subset} {peers : PeerSet E} {e : E} :
    e ∈ computeSubset subset peers ↔ e ∈ peers ∧ isInSubset subset e = true := by
  unfold computeSubset
  split
  case isTrue none => simp [isInSubset, none]
  case isFalse => exact Finset.mem_filter

/-- A subset as large as its peers has all of them. -/
theorem computeSubset_all {subset : Subset} {peers : PeerSet E} :
    (computeSubset subset peers).card = peers.card ↔ ∀ e ∈ peers, isInSubset subset e = true := by
  have inside : computeSubset subset peers ⊆ peers := fun _ member => (mem_computeSubset.mp member).1
  constructor
  · intro size e member
    rw [← Finset.eq_of_subset_of_card_le inside size.ge] at member
    exact (mem_computeSubset.mp member).2
  · intro all
    have same : computeSubset subset peers = peers :=
      inside.antisymm fun e member => mem_computeSubset.mpr ⟨member, all e member⟩
    rw [same]

end Subsets

section Output

variable {P E κ : Type} [Fintype E] [DecidableEq E] [SubsetPeers E] [ContainedIn P E κ]
  (self : ConnectivityMapQuery P)

/-- Without connections whose both ends are out of the subset. -/
def cutToSubset (peers_to_compare : PeerSet E) (all_conns : P) : P :=
  let subset_peers := computeSubset self.output_config.subset peers_to_compare
  if subset_peers.card ≠ peers_to_compare.card then
    all_conns ∩ (makeConnProps { src_peers := some subset_peers } ∪
      makeConnProps { dst_peers := some subset_peers })
  else all_conns

/-- The peers and the connections of the map. -/
def comparedConns : PeerSet E × P :=
  let exclude_ipv6 := self.config.checkForExcludingIpv6Addresses self.output_config.excludeIPv6Range
  let all_conns :=
    (self.config.allowedConnections none .onlyAllAllowedConnections).all_allowed_conns
  let peers_to_compare :=
    self.config.peer_container.getAllPeersGroup false true ∪ getAllPeers all_conns
  let (peers_to_compare, all_conns) :=
    if exclude_ipv6 then
      let peers_to_compare := filterIpBlocksByMask peers_to_compare
      (peers_to_compare, all_conns ∩
        makeConnProps { src_peers := some peers_to_compare, dst_peers := some peers_to_compare })
    else (peers_to_compare, all_conns)
  (peers_to_compare, self.config.filterConnsByPeerTypes (self.cutToSubset peers_to_compare all_conns))

def convertPropsToSplitByTcp (props : P) : P × P :=
  let tcp_protocol := getProtocolSetWithSingleProtocol tcp
  let tcp_props := props ∩ makeConnProps { protocols := some tcp_protocol }
  (tcp_props, props \ tcp_props)

variable (orders : RulesOrders P E) (fuel : Nat)

/-- The tables of the peers that rules are made from. -/
def clusterInfo (peers_to_compare : PeerSet E) : ClusterInfo E :=
  let override := self.output_config.fwRulesOverrideAllowedLabels
  ClusterInfo.init (orders.peers 0 peers_to_compare)
    (if override ≠ [] then (override.splitOn ',').dedup else self.config_labels)

def fwRulesFromProps (props : P) (peers_to_compare : PeerSet E)
    (connectivity_restriction : Option ConnectivityRestriction) :
    Except Failure (List (P × List (FWRule E P))) :=
  getMinimizedFirewallRulesFromProps orders (self.clusterInfo orders peers_to_compare)
    self.output_config.fwRulesGroupByLabelSinglePod fuel props connectivity_restriction

/-- `compute_connectivity_output` for the formats that write firewall rules. -/
def computeConnectivityOutput :
    Except Failure (List (Option ConnectivityRestriction × List (P × List (FWRule E P)))) :=
  let (peers_to_compare, all_conns) := self.comparedConns
  if self.config.policies_container.layers.doesContainIstioLayers then do
    let (props_tcp, props_non_tcp) := convertPropsToSplitByTcp all_conns
    let rules_tcp ← self.fwRulesFromProps orders fuel props_tcp peers_to_compare (some .TCP)
    let rules_non_tcp ← self.fwRulesFromProps orders fuel props_non_tcp peers_to_compare (some .nonTCP)
    pure [(some .TCP, rules_tcp), (some .nonTCP, rules_non_tcp)]
  else do
    let rules ← self.fwRulesFromProps orders fuel all_conns peers_to_compare none
    pure [(none, rules)]

/-- The connections that the maps of an output stand for. -/
def outputConns (output : List (Option ConnectivityRestriction × List (P × List (FWRule E P)))) : P :=
  output.foldl (fun res e => res ∪
    fwRulesToConnProps (self.clusterInfo orders self.comparedConns.1) e.2 e.1) ∅

end Output

section Meaning

variable {P E κ : Type} [Fintype E] [DecidableEq E] [SubsetPeers E] [ContainedIn P E κ]
  {self : ConnectivityMapQuery P} {orders : RulesOrders P E} {fuel : Nat} {x : Flow E κ}

/-- A connection of the map: every layer allows it, it is not of a kind that is never allowed, it is not
excluded, and one of its ends is in the subset. -/
structure Shown (query : ConnectivityMapQuery P) (x : Flow E κ) : Prop where
  allowed : AllowedByAll query.config x
  kinds : ¬ NeverAllowed query.config x
  ipv6 : query.config.checkForExcludingIpv6Addresses query.output_config.excludeIPv6Range = true →
    ¬ IsIpv6 x.src ∧ ¬ IsIpv6 x.dst
  subset : isInSubset query.output_config.subset x.src = true ∨
    isInSubset query.output_config.subset x.dst = true

omit [Fintype E] [DecidableEq E] in
theorem mem_cutToSubset {peers_to_compare : PeerSet E} {all_conns : P}
    (ends : x ∈ all_conns → x.src ∈ peers_to_compare ∧ x.dst ∈ peers_to_compare) :
    x ∈ self.cutToSubset peers_to_compare all_conns ↔ x ∈ all_conns ∧
      (isInSubset self.output_config.subset x.src = true ∨
        isInSubset self.output_config.subset x.dst = true) := by
  unfold cutToSubset
  dsimp only
  split
  case isTrue =>
    rw [ExactSet.mem_inter]
    refine and_congr_right fun inside => ?_
    simp [ConnectivityCube.Admits, mem_computeSubset, ends inside]
  case isFalse whole =>
    have all := computeSubset_all.mp (not_not.mp whole)
    exact (and_iff_left_of_imp fun inside => .inl (all _ (ends inside).1)).symm

/-- The peers that are compared have the ends of the connections, before and after the IPv6 addresses
are left out. -/
theorem mem_comparedConns : (x ∈ self.comparedConns.2 ↔ Shown self x) ∧
    (x ∈ self.comparedConns.2 → x.src ∈ self.comparedConns.1 ∧ x.dst ∈ self.comparedConns.1) := by
  let conns := (self.config.allowedConnections none .onlyAllAllowedConnections).all_allowed_conns
  let peers := self.config.peer_container.getAllPeersGroup false true ∪ getAllPeers conns
  have ends : x ∈ conns → x.src ∈ peers ∧ x.dst ∈ peers := fun inside =>
    ⟨Finset.mem_union_right _ (src_mem_allPeers inside), Finset.mem_union_right _ (dst_mem_allPeers inside)⟩
  have plain : x ∈ conns ↔ AllowedByAll self.config x := (mem_all_allowed rfl).trans (and_iff_left nofun)
  have shape : Shown self x ↔ ((AllowedByAll self.config x ∧
      (self.config.checkForExcludingIpv6Addresses self.output_config.excludeIPv6Range = true →
        ¬ IsIpv6 x.src ∧ ¬ IsIpv6 x.dst)) ∧ (isInSubset self.output_config.subset x.src = true ∨
        isInSubset self.output_config.subset x.dst = true)) ∧ ¬ NeverAllowed self.config x :=
    ⟨fun shown => ⟨⟨⟨shown.allowed, shown.ipv6⟩, shown.subset⟩, shown.kinds⟩,
      fun parts => ⟨parts.1.1.1, parts.2, parts.1.1.2, parts.1.2⟩⟩
  rw [shape, ← plain]
  unfold comparedConns
  dsimp only
  split
  case isTrue exclude =>
    let masked := filterIpBlocksByMask peers
    let cut := conns ∩ makeConnProps { src_peers := some masked, dst_peers := some masked }
    have mem_cut : x ∈ cut ↔ x ∈ conns ∧ ¬ IsIpv6 x.src ∧ ¬ IsIpv6 x.dst := by
      rw [ExactSet.mem_inter]
      refine and_congr_right fun inside => ?_
      simp [ConnectivityCube.Admits, masked, mem_filterIpBlocks, ends inside, IsIpv6]
    have cut_ends : x ∈ cut → x.src ∈ masked ∧ x.dst ∈ masked := by
      intro inside
      obtain ⟨member, src, dst⟩ := mem_cut.mp inside
      exact ⟨mem_filterIpBlocks.mpr ⟨(ends member).1, src⟩, mem_filterIpBlocks.mpr ⟨(ends member).2, dst⟩⟩
    rw [mem_filterConns, mem_cutToSubset cut_ends, mem_cut, forall_prop_of_true exclude]
    exact ⟨Iff.rfl, fun kept => cut_ends (mem_cut.mpr kept.1.1)⟩
  case isFalse exclude =>
    rw [mem_filterConns, mem_cutToSubset ends]
    refine ⟨?_, fun kept => ends kept.1.1⟩
    simp [exclude]

omit [Fintype E] [DecidableEq E] [SubsetPeers E] in
theorem mem_split {props : P} : (x ∈ (convertPropsToSplitByTcp props).1 ↔ x ∈ props ∧ x.protocol = tcp) ∧
    (x ∈ (convertPropsToSplitByTcp props).2 ↔ x ∈ props ∧ x.protocol ≠ tcp) := by
  have first : x ∈ (convertPropsToSplitByTcp props).1 ↔ x ∈ props ∧ x.protocol = tcp := by
    simp [convertPropsToSplitByTcp, ConnectivityCube.Admits, getProtocolSetWithSingleProtocol]
  refine ⟨first, ?_⟩
  show x ∈ props \ (convertPropsToSplitByTcp props).1 ↔ _
  rw [ExactSet.mem_sdiff, first]
  simp +contextual

/-- A part of the shown connections, with the protocols of a restriction, can be written as its rules. -/
theorem shown_minimizable (sound : orders.Sound) {props : P}
    {connectivity_restriction : Option ConnectivityRestriction}
    (shown : ∀ x, x ∈ props → x ∈ self.comparedConns.2)
    (protocols : ∀ x, x ∈ props → x.protocol ∈ ruleProtocols connectivity_restriction) :
    Minimizable (self.clusterInfo orders self.comparedConns.1) props connectivity_restriction := by
  have pods : ∀ e ∈ self.comparedConns.1, IsClusterEP e →
      e ∈ (self.clusterInfo orders self.comparedConns.1).allPods := by
    intro e member endpoint
    rw [clusterInfo, ClusterInfo.mem_allPods, ClusterInfo.init_all_peers]
    refine ⟨(sound.grouping.peers 0 _ e).mpr member, ?_⟩
    rw [← Bool.not_eq_true, RulePeers.block_kind]
    intro address
    simp [IsClusterEP, address] at endpoint
  exact {
    src_known := fun x inside => pods _ (mem_comparedConns.2 (shown x inside)).1
    dst_known := fun x inside => pods _ (mem_comparedConns.2 (shown x inside)).2
    external := fun x inside addresses => by
      have kinds := (mem_comparedConns.1.mp (shown x inside)).kinds
      exact kinds (.inl ⟨addresses.1, .inl addresses.2⟩)
    protocols := protocols }

/-- A map and what its rules stand for. -/
def Maps (self : ConnectivityMapQuery P) (orders : RulesOrders P E) (props : P)
    (connectivity_restriction : Option ConnectivityRestriction)
    (fw_rules_map : List (P × List (FWRule E P))) : Prop :=
  ReadBack (self.clusterInfo orders self.comparedConns.1) connectivity_restriction props fw_rules_map

theorem fwRulesFromProps_maps (self : ConnectivityMapQuery P) (sound : orders.Sound)
    (enough : Fintype.card E < fuel) {address : E} (kind : Peers.kind address = .ipBlock) {props : P}
    (connectivity_restriction : Option ConnectivityRestriction)
    (shown : ∀ x, x ∈ props → x ∈ self.comparedConns.2)
    (protocols : ∀ x, x ∈ props → x.protocol ∈ ruleProtocols connectivity_restriction) :
    Returns (self.fwRulesFromProps orders fuel props self.comparedConns.1 connectivity_restriction)
      (Maps self orders props connectivity_restriction) :=
  minimizedRules_readBack sound enough kind (shown_minimizable sound shown protocols)

theorem mem_outputConns {output : List (Option ConnectivityRestriction × List (P × List (FWRule E P)))} :
    x ∈ self.outputConns orders output ↔ ∃ e ∈ output,
      x ∈ fwRulesToConnProps (self.clusterInfo orders self.comparedConns.1) e.2 e.1 := by
  rw [outputConns, ExactSet.mem_foldl_union]
  simp only [ExactSet.not_mem_empty, false_or]

end Meaning

section Example

instance : SubsetPeers PeerKind where
  owner_name
    | .pod => "web".toList
    | _ => []
  workload_name
    | .pod => "default/web(Deployment)".toList
    | _ => []

/-- The map of the pods of one deployment. -/
def webMap : ConnectivityMapQuery (FlowSet PeerKind Unit) where
  config := configOf onePod [looplessPolicy]
  config_labels := []
  output_config := { subset := { deployment_subset := some "web".toList } }

end Example
end ConnectivityMapQuery
end Nca.NetworkConfig
