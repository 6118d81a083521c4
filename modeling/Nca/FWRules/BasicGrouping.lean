import Mathlib.Data.Fintype.Prod
import Mathlib.Data.List.ProdSigma
import Nca.FWRules.RuleElements

/-!
`_compute_basic_grouping`: the pairs of peers of one connection set are grouped by whole namespaces,
by whole ranges of addresses and by DNS entries. A group may borrow pairs from the connection sets that
contain this one.
-/

namespace Nca.FWRules
open CoreDS Lib Lib.Python LabeledPeers

/-- Connectivity properties that are about peers alone. -/
abbrev PeerProps (E : Type) := Finset (E × E)

abbrev Namespaces := Finset (Option String)

/-- How connectivity properties and the sets of the computation are gone over. The cubes of properties
depend on which of the two dimensions of peers comes first. -/
structure GroupingOrders (E : Type) extends PeerOrders E where
  cubes : PeerProps E → List (PeerSet E × PeerSet E)
  switched_cubes : PeerProps E → List (PeerSet E × PeerSet E)
  namespaces : SetOrder (Option String)
  ns_pairs : SetOrder (Namespaces × Namespaces)
  elem_pairs : SetOrder (BaseElement E × BaseElement E)
  num_peers : PeerSet E → Nat

/-- The cubes are the properties, and none is empty. -/
structure CubesOf {E : Type} (cubes : PeerProps E → List (PeerSet E × PeerSet E)) : Prop where
  pairs : ∀ props pair, (∃ cube ∈ cubes props, pair.1 ∈ cube.1 ∧ pair.2 ∈ cube.2) ↔ pair ∈ props
  inhabited : ∀ props, ∀ cube ∈ cubes props, cube.1 ≠ ∅ ∧ cube.2 ≠ ∅

structure GroupingOrders.Sound {E : Type} [Peers E] (orders : GroupingOrders E) : Prop extends
    orders.toPeerOrders.Sound where
  cubes : CubesOf orders.cubes
  switched_cubes : CubesOf orders.switched_cubes
  namespaces : orders.namespaces.Visits
  ns_pairs : orders.ns_pairs.Visits
  elem_pairs : orders.elem_pairs.Visits

/-- The state of the grouping. -/
structure BasicGrouping (E : Type) where
  ns_set_pairs : Finset (Namespaces × Namespaces) := ∅
  base_elem_pairs : Finset (BaseElement E × BaseElement E) := ∅
  peer_props_without_ns_expr : PeerProps E := ∅
  covered_peer_props : PeerProps E

section Steps

variable {E : Type} [Fintype E] [DecidableEq E] [RulePeers E] (orders : GroupingOrders E)
  (cluster_info : ClusterInfo E) (peer_props peer_props_in_containing_props : PeerProps E)

/-- Without a cube the dimension is not active, and has all peers. -/
def projectOnOneDimension (is_src : Bool) (props : PeerProps E) : PeerSet E :=
  if props = ∅ then Finset.univ
  else props.image fun pair => if is_src then pair.1 else pair.2

def PeerProps.getAllPeers (props : PeerProps E) : PeerSet E :=
  projectOnOneDimension true props ∪ projectOnOneDimension false props

/-- Few enough endpoints are also covered as connected to themselves. -/
def computeCoveredPeerProps : PeerProps E :=
  let covered_peer_props := peer_props ∪ peer_props_in_containing_props
  let all_peers_set := PeerProps.getAllPeers peer_props
  if orders.num_peers all_peers_set < 500 then
    (orders.peers 0 all_peers_set).foldl (fun covered_peer_props pod =>
      if IsClusterEP pod then covered_peer_props ∪ {(pod, pod)} else covered_peer_props) covered_peer_props
  else covered_peer_props

/-- The namespaces of the pods on a side. -/
def allNsSet (is_src : Bool) (covered_peer_props : PeerProps E) : Namespaces :=
  ((projectOnOneDimension is_src covered_peer_props).filter fun e => Peers.kind e = .pod).image peer_namespace

def nsPeers (ns : Option String) : PeerSet E := SetDict.find cluster_info.ns_dict ns

/-- The state of `_compute_full_ns_grouping`. -/
structure FullNsGrouping (E : Type) where
  grouping : BasicGrouping E
  src_ns_to_dst_ns : List (Option String × Namespaces) := []
  dst_ns_to_src_ns : List (Option String × Namespaces) := []

/-- One pair of namespaces. -/
def addNsProduct (state : FullNsGrouping E) (pair : Option String × Option String) : FullNsGrouping E :=
  let ns_product_props := nsPeers cluster_info pair.1 ×ˢ nsPeers cluster_info pair.2
  let grouping := state.grouping
  if ns_product_props ⊆ grouping.covered_peer_props then
    let grouping := { grouping with covered_peer_props := grouping.covered_peer_props \ ns_product_props }
    if ns_product_props ∩ peer_props ≠ ∅ then
      { grouping := grouping
        src_ns_to_dst_ns := SetDict.add state.src_ns_to_dst_ns pair.1 pair.2
        dst_ns_to_src_ns := SetDict.add state.dst_ns_to_src_ns pair.2 pair.1 }
    else { state with grouping := grouping }
  else
    { state with
      grouping := { grouping with
        peer_props_without_ns_expr :=
          grouping.peer_props_without_ns_expr ∪ ns_product_props ∩ peer_props } }

/-- The more compact of the two groupings of the namespaces. -/
def compactNsSetPairs (state : FullNsGrouping E) : Finset (Namespaces × Namespaces) :=
  let final_dst_ns_to_src_ns := SetDict.invert state.src_ns_to_dst_ns
  let final_src_ns_to_dst_ns := SetDict.invert state.dst_ns_to_src_ns
  if final_dst_ns_to_src_ns.length ≤ final_src_ns_to_dst_ns.length then
    (final_dst_ns_to_src_ns.map fun e => (e.2, e.1)).toFinset
  else final_src_ns_to_dst_ns.toFinset

def computeFullNsGrouping (all_src_ns_set all_dst_ns_set : Namespaces) (grouping : BasicGrouping E) :
    BasicGrouping E :=
  let pairs := orders.namespaces 0 all_src_ns_set ×ˢ orders.namespaces 1 all_dst_ns_set
  let state := pairs.foldl (addNsProduct cluster_info peer_props) ⟨grouping, [], []⟩
  { state.grouping with ns_set_pairs := state.grouping.ns_set_pairs ∪ compactNsSetPairs state }

/-- The pairs with an IP block, a host endpoint or a DNS entry on a side are left over. -/
def addElemsWithoutNs (grouping : BasicGrouping E) : BasicGrouping E :=
  let withoutNs := fun is_src =>
    (projectOnOneDimension is_src peer_props).filter fun e => Peers.kind e ≠ .pod
  let props_with_elems_without_ns := withoutNs true ×ˢ Finset.univ ∪ Finset.univ ×ˢ withoutNs false
  { grouping with
    peer_props_without_ns_expr :=
      grouping.peer_props_without_ns_expr ∪ props_with_elems_without_ns ∩ peer_props }

/-- The connectivity properties of a set on one side and a set on the other. -/
def dimProduct (is_src : Bool) (dim_peers other_dim_peers : PeerSet E) : PeerProps E :=
  if is_src then dim_peers ×ˢ other_dim_peers else other_dim_peers ×ˢ dim_peers

/-- The base elements of the two sides, as a pair of a source and a destination. -/
def dimPair {α : Type} (is_src : Bool) (dim_peers other_dim_peers : α) : α × α :=
  if is_src then (dim_peers, other_dim_peers) else (other_dim_peers, dim_peers)

/-- The cubes of the reordered properties. Reordering fails if no dimension is active. -/
def reorderBySwitchingSrcDstPeers (props : PeerProps E) : Except Failure (List (PeerSet E × PeerSet E)) :=
  if props = Finset.univ then .error .index else .ok (orders.switched_cubes props)

/-- The cubes, with the side in question first. -/
def cubesByDim (is_src : Bool) (props : PeerProps E) :
    Except Failure (List (PeerSet E × PeerSet E)) :=
  if is_src then reorderBySwitchingSrcDstPeers orders props
  else pure ((orders.cubes props).map Prod.swap)

/-- The namespaces that one cube has as a whole, with some pair that is left over. -/
def coveredNsSet (ns_set : Namespaces) (is_src_ns : Bool) (peer_props_without_ns_expr : PeerProps E)
    (cube : PeerSet E × PeerSet E) : Namespaces :=
  ns_set.filter fun ns =>
    nsPeers cluster_info ns ⊆ cube.1 ∧
      dimProduct is_src_ns (nsPeers cluster_info ns) cube.2 ∩ peer_props_without_ns_expr ≠ ∅

/-- One cube of the first loop of `_compute_partial_ns_grouping`. -/
def addCoveredNsSet (ns_set : Namespaces) (is_src_ns : Bool) (peer_props_without_ns_expr : PeerProps E)
    (ns_set_to_peer_set : List (Namespaces × PeerSet E)) (cube : PeerSet E × PeerSet E) :
    List (Namespaces × PeerSet E) :=
  let curr_ns_set := coveredNsSet cluster_info ns_set is_src_ns peer_props_without_ns_expr cube
  if curr_ns_set ≠ ∅ then SetDict.update ns_set_to_peer_set curr_ns_set cube.2
  else ns_set_to_peer_set

/-- A pair is recorded if it has some of what is left over. -/
def recordIfNeeded (is_src_ns : Bool) (curr_ns_set : Namespaces) (other_dim_peers : PeerSet E)
    (grouping : BasicGrouping E) : BasicGrouping E :=
  let curr_ns_peers := FWRuleElement.nsPodsSet cluster_info curr_ns_set
  let peer_props_without_ns_expr_updated :=
    grouping.peer_props_without_ns_expr \ dimProduct is_src_ns curr_ns_peers other_dim_peers
  if grouping.peer_props_without_ns_expr ≠ peer_props_without_ns_expr_updated then
    { grouping with
      peer_props_without_ns_expr := peer_props_without_ns_expr_updated
      base_elem_pairs := insert
        (dimPair is_src_ns (.namespaces curr_ns_set) (.peerSet other_dim_peers)) grouping.base_elem_pairs }
  else grouping

/-- One item of the second loop of `_compute_partial_ns_grouping`. -/
def addNsElement (is_src_ns : Bool) (grouping : BasicGrouping E) (entry : Namespaces × PeerSet E) :
    BasicGrouping E :=
  let other_dim_peers_without_ip_block := entry.2.filter fun e => Peers.kind e ≠ .ipBlock
  let other_dim_peers_ip_block := entry.2.filter fun e => Peers.kind e = .ipBlock
  recordIfNeeded cluster_info is_src_ns entry.1 other_dim_peers_ip_block
    (recordIfNeeded cluster_info is_src_ns entry.1 other_dim_peers_without_ip_block grouping)

def computePartialNsGrouping (ns_set : Namespaces) (is_src_ns : Bool) (grouping : BasicGrouping E) :
    Except Failure (BasicGrouping E) := do
  let cubes ← cubesByDim orders is_src_ns grouping.covered_peer_props
  let ns_set_to_peer_set := cubes.foldl
    (addCoveredNsSet cluster_info ns_set is_src_ns grouping.peer_props_without_ns_expr) []
  pure (ns_set_to_peer_set.foldl (addNsElement cluster_info is_src_ns) grouping)

/-- All addresses, or all IPv4 or all IPv6 addresses. -/
def isFullIpblock (ipblock : PeerSet E) : Prop :=
  ipblock = getAllIpsBlockPeerSet ∨
    ipblock = getAllIpsBlockPeerSet.filter (fun e => Peers.ipv6 e = false) ∨
    ipblock = getAllIpsBlockPeerSet.filter (fun e => Peers.ipv6 e = true)

instance {ipblock : PeerSet E} : Decidable (isFullIpblock ipblock) :=
  inferInstanceAs (Decidable (_ ∨ _ ∨ _))

def addToMapIfCovered (is_src_ns : Bool) (peer_props_without_ns_expr : PeerProps E)
    (other_dim_peers : PeerSet E) (peers_to_peers_map : List (PeerSet E × PeerSet E))
    (dim_peers : PeerSet E) : List (PeerSet E × PeerSet E) :=
  if dimProduct is_src_ns dim_peers other_dim_peers ∩ peer_props_without_ns_expr ≠ ∅ then
    SetDict.update peers_to_peers_map dim_peers other_dim_peers
  else peers_to_peers_map

/-- One cube of the first loop of `_compute_full_ipblock_and_dns_grouping`. -/
def addFullIpblockAndDns (is_src_ns : Bool) (peer_props_without_ns_expr : PeerProps E)
    (ipblock_dnsentry_to_peer_set : List (PeerSet E × PeerSet E)) (cube : PeerSet E × PeerSet E) :
    List (PeerSet E × PeerSet E) :=
  let ipblock := cube.1.filter fun e => Peers.kind e = .ipBlock
  let dns_entries := cube.1.filter fun e => Peers.kind e = .dnsEntry
  let keys := (if isFullIpblock ipblock then [ipblock] else []) ++
    (orders.peers 1 dns_entries).map fun dns_entry => {dns_entry}
  keys.foldl (addToMapIfCovered is_src_ns peer_props_without_ns_expr cube.2) ipblock_dnsentry_to_peer_set

/-- One item of the second loop of `_compute_full_ipblock_and_dns_grouping`. -/
def addIpblockOrDns (is_src_ns : Bool) (grouping : BasicGrouping E) (entry : PeerSet E × PeerSet E) :
    BasicGrouping E :=
  { grouping with
    peer_props_without_ns_expr :=
      grouping.peer_props_without_ns_expr \ dimProduct is_src_ns entry.1 entry.2
    base_elem_pairs := insert (dimPair is_src_ns (.peerSet entry.1) (.peerSet entry.2))
      grouping.base_elem_pairs }

def computeFullIpblockAndDnsGrouping (is_src_ns : Bool) (grouping : BasicGrouping E) :
    Except Failure (BasicGrouping E) := do
  let cubes ← cubesByDim orders is_src_ns grouping.covered_peer_props
  let ipblock_dnsentry_to_peer_set := cubes.foldl
    (addFullIpblockAndDns orders is_src_ns grouping.peer_props_without_ns_expr) []
  pure (ipblock_dnsentry_to_peer_set.foldl (addIpblockOrDns is_src_ns) grouping)

/-- A step that is taken only if something is left over. -/
def ifLeftOver (step : BasicGrouping E → Except Failure (BasicGrouping E)) (grouping : BasicGrouping E) :
    Except Failure (BasicGrouping E) :=
  if grouping.peer_props_without_ns_expr ≠ ∅ then step grouping else pure grouping

def computeBasicGrouping : Except Failure (BasicGrouping E) := do
  let covered_peer_props := computeCoveredPeerProps orders peer_props peer_props_in_containing_props
  let all_src_ns_set := allNsSet true covered_peer_props
  let all_dst_ns_set := allNsSet false covered_peer_props
  let grouping := computeFullNsGrouping orders cluster_info peer_props all_src_ns_set all_dst_ns_set
    { covered_peer_props := covered_peer_props }
  let grouping := addElemsWithoutNs peer_props grouping
  let grouping ← computePartialNsGrouping orders cluster_info all_dst_ns_set false grouping
  let grouping ← ifLeftOver (computePartialNsGrouping orders cluster_info all_src_ns_set true) grouping
  let grouping ← ifLeftOver (computeFullIpblockAndDnsGrouping orders false) grouping
  ifLeftOver (computeFullIpblockAndDnsGrouping orders true) grouping

end Steps
end Nca.FWRules
