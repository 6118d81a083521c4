import Nca.Resources.PolicyRules
import Nca.NetworkConfig.NetworkConfig

/-!
Queries. Three queries compare two configurations: one for equal connections, one for containment,
and one for a report of what has changed. The redundancy query asks the first about a configuration
and a clone of it that lacks a rule.
-/

namespace Nca.NetworkConfig
open CoreDS Lib Resources

variable {P E κ : Type} [Fintype E] [DecidableEq E] [Peers E] [ConnectivityProperties P E κ]

/-- `PeerContainer.is_comparable_with_other_container`. -/
def PeerContainer.isComparableWithOtherContainer (self other : PeerContainer E) : Bool :=
  decide (self.peer_set = other.peer_set)

/-- `TwoNetworkConfigsQuery`, with the default for `excludeIPv6Range`. -/
structure TwoNetworkConfigsQuery (P : Type) {E κ : Type} [Peers E] [ConnectivityProperties P E κ]
    where
  config1 : NetworkConfig P
  config2 : NetworkConfig P
  excludeIPv6Range : Bool := true

/-- The parts of an answer that are compared. -/
structure QueryAnswer where
  bool_result : Bool := false
  numerical_result : Nat := 0
  deriving DecidableEq, Repr

namespace TwoNetworkConfigsQuery
variable (self : TwoNetworkConfigsQuery P)

def identicalTopologies : Bool :=
  self.config1.peer_container.isComparableWithOtherContainer self.config2.peer_container

def samePolicies : Bool :=
  Dict.eq Policy.eq self.config1.policies_container.policies self.config2.policies_container.policies

def excludeIpv6 : Bool :=
  self.config1.checkForExcludingIpv6Addresses self.excludeIPv6Range &&
    self.config2.checkForExcludingIpv6Addresses self.excludeIPv6Range

def filterConnsByInputOrInternalConstraints (conns1 conns2 : P) : P × P :=
  let all_peers := getAllPeers conns1 ∪ getAllPeers conns2
  let conns_filter : P :=
    if self.excludeIpv6 then
      let all_peers := filterIpBlocksByMask all_peers
      makeConnProps { src_peers := some all_peers, dst_peers := some all_peers }
    else makeConnProps {}
  (self.config1.filterConnsByPeerTypes conns1 ∩ conns_filter,
    self.config2.filterConnsByPeerTypes conns2 ∩ conns_filter)

/-- All allowed connections of either configuration, filtered. -/
def filteredConns (layer_name : Option NetworkLayerName) : P × P :=
  let res_conns_filter := PolicyConnectionsFilter.onlyAllAllowedConnections
  self.filterConnsByInputOrInternalConstraints
    (self.config1.allowedConnections layer_name res_conns_filter).all_allowed_conns
    (self.config2.allowedConnections layer_name res_conns_filter).all_allowed_conns

end TwoNetworkConfigsQuery

namespace EquivalenceQuery
variable (self : TwoNetworkConfigsQuery P)

def checkEquivalence (layer_name : Option NetworkLayerName) : Bool :=
  let all_conns := self.filteredConns layer_name
  decide (all_conns.1 = all_conns.2)

/-- `exec`; different topologies are never equivalent, and the same policies always are. -/
def exec (layer_name : Option NetworkLayerName) : Bool :=
  if self.identicalTopologies then
    if self.samePolicies then true else checkEquivalence self layer_name
  else false

end EquivalenceQuery

section Containment

variable {P E κ : Type} [Fintype E] [DecidableEq E] [Peers E] [ContainedIn P E κ]

namespace ContainmentQuery
variable (self : TwoNetworkConfigsQuery P)

def checkContainment (cmd_line_flag only_captured : Bool) : QueryAnswer :=
  let res_conns_filter1 :=
    if only_captured then PolicyConnectionsFilter.onlyAllowedConnections
    else .onlyAllAllowedConnections
  let conn_props1 := self.config1.allowedConnections none res_conns_filter1
  let conn_props2 := self.config2.allowedConnections none .onlyAllAllowedConnections
  let conns := self.filterConnsByInputOrInternalConstraints
    (if only_captured then conn_props1.allowed_conns else conn_props1.all_allowed_conns)
    conn_props2.all_allowed_conns
  if containedIn conns.1 conns.2 then ⟨true, if cmd_line_flag then 0 else 1⟩
  else ⟨false, if cmd_line_flag then 1 else 0⟩

def exec (cmd_line_flag : Bool) (only_captured : Bool := false) : QueryAnswer :=
  let config1_peers := self.config1.peer_container.getAllPeersGroup false true
  let peers_in_config1_not_in_config2 :=
    config1_peers \ self.config2.peer_container.getAllPeersGroup false true
  if peers_in_config1_not_in_config2 ≠ ∅ then ⟨false, if cmd_line_flag then 1 else 0⟩
  else checkContainment self cmd_line_flag only_captured

end ContainmentQuery

namespace TwoWayContainmentQuery
variable (self : TwoNetworkConfigsQuery P)

def exec (cmd_line_flag : Bool) : QueryAnswer :=
  if self.identicalTopologies && self.samePolicies then ⟨true, 0⟩
  else
    let contained_1_in_2 := ContainmentQuery.exec self cmd_line_flag
    let contained_2_in_1 := ContainmentQuery.exec
      ⟨self.config2, self.config1, self.excludeIPv6Range⟩ cmd_line_flag
    if contained_1_in_2.bool_result && contained_2_in_1.bool_result then
      ⟨true, if cmd_line_flag then 0 else 3⟩
    else if !contained_1_in_2.bool_result && !contained_2_in_1.bool_result then
      ⟨false, if cmd_line_flag then 1 else 0⟩
    else if contained_1_in_2.bool_result then ⟨false, if cmd_line_flag then 1 else 2⟩
    else ⟨false, 1⟩

end TwoWayContainmentQuery
end Containment

namespace SemanticDiffQuery
variable (self : TwoNetworkConfigsQuery P)

/-- A category of changed connections: what is removed and what is added, where it is looked at. -/
structure Category (P : Type) where
  key : String
  removed_props : Option P
  added_props : Option P

/-- All connections between the peers of two sets, in either direction. -/
def connsBetween (peers others : PeerSet E) : P :=
  makeConnProps { src_peers := some peers, dst_peers := some others } ∪
    makeConnProps { src_peers := some others, dst_peers := some peers }

def computeDiff : List (Category P) :=
  let old_peers := self.config1.peer_container.getAllPeersGroup false true
  let new_peers := self.config2.peer_container.getAllPeersGroup false true
  let intersected_peers := old_peers ∩ new_peers
  let removed_peers := old_peers \ intersected_peers
  let added_peers := new_peers \ intersected_peers
  let captured_pods :=
    (self.config1.getCapturedPods ∪ self.config2.getCapturedPods) ∩ intersected_peers
  let all_ip_blocks :=
    if self.excludeIpv6 then filterIpBlocksByMask getAllIpsBlockPeerSet else getAllIpsBlockPeerSet
  let conns := self.filteredConns none
  let old_minus_new_props := conns.1 \ conns.2
  let new_minus_old_props := conns.2 \ conns.1
  [⟨"Lost connections between removed peers",
      some (propsWithoutAutoConns (makeConnProps
        { src_peers := some removed_peers, dst_peers := some removed_peers } ∩ conns.1)), none⟩,
    ⟨"Lost connections between removed peers and ipBlocks",
      some (connsBetween removed_peers all_ip_blocks ∩ conns.1), none⟩,
    ⟨"Lost connections between removed peers and persistent peers",
      some (propsWithoutAutoConns (connsBetween removed_peers intersected_peers ∩ conns.1)), none⟩,
    ⟨"Changed connections between persistent peers",
      some (propsWithoutAutoConns
        (old_minus_new_props ∩ connsBetween captured_pods intersected_peers)),
      some (propsWithoutAutoConns
        (new_minus_old_props ∩ connsBetween captured_pods intersected_peers))⟩,
    ⟨"Changed connections between persistent peers and ipBlocks",
      some (old_minus_new_props ∩ connsBetween captured_pods all_ip_blocks),
      some (new_minus_old_props ∩ connsBetween captured_pods all_ip_blocks)⟩,
    ⟨"New connections between persistent peers and added peers", none,
      some (propsWithoutAutoConns (connsBetween intersected_peers added_peers ∩ conns.2))⟩,
    ⟨"New connections between added peers", none,
      some (propsWithoutAutoConns (makeConnProps
        { src_peers := some added_peers, dst_peers := some added_peers } ∩ conns.2))⟩,
    ⟨"New connections between added peers and ipBlocks", none,
      some (connsBetween added_peers all_ip_blocks ∩ conns.2)⟩]

/-- Whether the category has connections of this kind. -/
def Category.differs (props : Option P) : Bool := props.any ExactSet.bool

/-- `res` of `get_results_for_computed_fw_rules`: the number of differing categories. -/
def getResults (categories : List (Category P)) : Nat :=
  categories.foldl (fun res category =>
    let res := if Category.differs category.added_props then res + 1 else res
    if Category.differs category.removed_props then res + 1 else res) 0

def exec (cmd_line_flag : Bool) : QueryAnswer :=
  if self.identicalTopologies && self.samePolicies then ⟨true, 0⟩
  else
    let res := getResults (computeDiff self)
    if res > 0 then ⟨false, if cmd_line_flag then 1 else res⟩ else ⟨true, res⟩

end SemanticDiffQuery

namespace RedundancyQuery
variable (config : NetworkConfig P) (policy : Policy P) (layer_name : NetworkLayerName)

/-- One turn of the loops over the rules of a direction. -/
def isRedundantRule (is_ingress : Bool) (i : Nat) : Bool :=
  match policy.cloneWithoutRule is_ingress i with
  | none => false
  | some modified_policy =>
    if modified_policy.ruleCount is_ingress + 1 < policy.ruleCount is_ingress then true
    else
      let config_with_modified_policy :=
        (config.cloneWithoutPolicy policy).appendPolicyToConfig modified_policy
      EquivalenceQuery.exec ⟨config, config_with_modified_policy, true⟩ (some layer_name)

/-- The numbers of the redundant rules, from one on. -/
def redundantRules (is_ingress : Bool) : List Nat :=
  ((List.range (policy.ruleCount is_ingress)).filter
    (isRedundantRule config policy layer_name is_ingress)).map (· + 1)

def findRedundantRules : List Nat × List Nat :=
  (redundantRules config policy layer_name true, redundantRules config policy layer_name false)

end RedundancyQuery
end Nca.NetworkConfig
