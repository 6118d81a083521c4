import Nca.NetworkConfig.NetworkLayer

/-!
Network configurations: peers, policies by name and kind, and the layers that the policies form.
-/

namespace Nca.NetworkConfig
open CoreDS Lib Resources

variable {P E κ : Type} [Fintype E] [DecidableEq E] [Peers E] [ConnectivityProperties P E κ]

structure PoliciesContainer (P : Type) {E κ : Type} [Peers E] [ConnectivityProperties P E κ] where
  policies : List ((String × PolicyType) × Policy P)
  layers : NetworkLayersContainer P

namespace PoliciesContainer

def init : PoliciesContainer P := ⟨[], NetworkLayersContainer.init⟩

/-- The key of a policy in the policies map. -/
def key (policy : Policy P) : String × PolicyType :=
  (policy.base.fullName, policy.base.policy_kind)

/-- A policy that is already there is ignored; no policy has an unknown kind. -/
def appendPolicy (self : PoliciesContainer P) (policy : Policy P) : PoliciesContainer P :=
  if (Dict.get self.policies (key policy)).isSome then self
  else
    { policies := Dict.set self.policies (key policy) policy
      layers := self.layers.addPolicy policy
        (NetworkLayerName.policyTypeToLayer policy.base.policy_kind) }

end PoliciesContainer

structure NetworkConfig (P : Type) {E κ : Type} [Peers E] [ConnectivityProperties P E κ] where
  peer_container : PeerContainer E
  policies_container : PoliciesContainer P

namespace NetworkConfig
variable (self : NetworkConfig P)

def cloneWithoutPolicies : NetworkConfig P := ⟨self.peer_container, .init⟩

def appendPolicyToConfig (policy : Policy P) : NetworkConfig P :=
  { self with policies_container := self.policies_container.appendPolicy policy }

def cloneWithoutPolicy (policy_to_exclude : Policy P) : NetworkConfig P :=
  self.policies_container.policies.foldl (fun res entry =>
    if !entry.2.eq policy_to_exclude then res.appendPolicyToConfig entry.2 else res)
    self.cloneWithoutPolicies

/-- The peers that policies select, over all layers or in one. -/
def getCapturedPods (layer_name : Option NetworkLayerName := none) : PeerSet E :=
  let policies_list := match layer_name with
    | none => self.policies_container.policies.map Prod.snd
    | some layer_name => (Dict.get self.policies_container.layers layer_name).getD []
  policies_list.foldl (fun captured_pods policy => captured_pods ∪ policy.base.selected_peers) ∅

/-- Excluding IPv6 addresses is safe if no policy refers to them. -/
def checkForExcludingIpv6Addresses (exclude_ipv6 : Bool) : Bool :=
  exclude_ipv6 &&
    self.policies_container.policies.all fun entry => !entry.2.base.has_ipv6_addresses

/-- All possible connections involving host endpoints. -/
def connHep : P :=
  let host_eps :=
    self.peer_container.getAllPeersGroup.filter fun peer => Peers.kind peer = .hostEP
  makeConnProps { src_peers := some host_eps } ∪ makeConnProps { dst_peers := some host_eps }

/-- `get_all_conns_props_per_config_peers`. -/
def allConnsPropsPerConfigPeers : P :=
  let all_peers_and_ips_and_dns := self.peer_container.getAllPeersGroup true true
  makeConnProps
    { src_peers := some all_peers_and_ips_and_dns, dst_peers := some all_peers_and_ips_and_dns }

/-- The connections of a configuration before its layers are looked at. -/
def startConnections (res_conns_filter : PolicyConnectionsFilter) : PolicyConnections P E :=
  let host_eps :=
    self.peer_container.getAllPeersGroup.filter fun peer => Peers.kind peer = .hostEP
  if host_eps ≠ ∅ ∧ (Dict.get self.policies_container.layers .K8s_Calico).isNone then
    (NetworkLayersContainer.emptyLayerAllowedConnections self.peer_container .K8s_Calico
      res_conns_filter).andByFilter self.connHep res_conns_filter.withoutAllAllowed
  else if res_conns_filter.calc_all_allowed then
    { PolicyConnections.init with all_allowed_conns := self.allConnsPropsPerConfigPeers }
  else .init

/-- The connections of one layer; those of host endpoints are determined by K8s_Calico alone. -/
def connsPerLayer (res_conns_filter : PolicyConnectionsFilter)
    (layer : NetworkLayerName × List (Policy P)) : PolicyConnections P E :=
  let conns_per_layer :=
    NetworkLayer.allowedConnections layer.1 layer.2 self.peer_container res_conns_filter
  if layer.1 ≠ .K8s_Calico then
    conns_per_layer.subByFilter self.connHep res_conns_filter.withoutAllAllowed
  else conns_per_layer

/-- One turn of the loop over the layers. -/
def addLayer (res_conns_filter : PolicyConnectionsFilter) (conns_res : PolicyConnections P E)
    (layer : NetworkLayerName × List (Policy P)) : PolicyConnections P E :=
  let conns_per_layer := self.connsPerLayer res_conns_filter layer
  { conns_res with
    captured := conns_res.captured ∪ conns_per_layer.captured
    all_allowed_conns :=
      if res_conns_filter.calc_all_allowed then
        conns_res.all_allowed_conns ∩ conns_per_layer.all_allowed_conns
      else conns_res.all_allowed_conns
    allowed_conns :=
      if res_conns_filter.calc_allowed then
        conns_res.allowed_conns ∪ conns_per_layer.allowed_conns
      else conns_res.allowed_conns
    denied_conns :=
      if res_conns_filter.calc_denied then conns_res.denied_conns ∪ conns_per_layer.denied_conns
      else conns_res.denied_conns }

def allowedConnections (layer_name : Option NetworkLayerName)
    (res_conns_filter : PolicyConnectionsFilter) : PolicyConnections P E :=
  match layer_name with
  | some layer_name =>
    match Dict.get self.policies_container.layers layer_name with
    | none => NetworkLayersContainer.emptyLayerAllowedConnections self.peer_container layer_name
        res_conns_filter
    | some policies_list =>
      NetworkLayer.allowedConnections layer_name policies_list self.peer_container res_conns_filter
  | none =>
    let conns_res := self.policies_container.layers.foldl (self.addLayer res_conns_filter)
      (self.startConnections res_conns_filter)
    if res_conns_filter.calc_allowed then
      { conns_res with allowed_conns := conns_res.allowed_conns ∩ conns_res.all_allowed_conns }
    else conns_res

/-- Without the connections that are never allowed. -/
def filterConnsByPeerTypes (conns : P) : P :=
  let all_ips := getAllIpsBlockPeerSet
  let all_dns_entries := self.peer_container.getAllDnsEntries
  let res := conns \ makeConnProps { src_peers := some all_ips,
                                     dst_peers := some (all_ips ∪ all_dns_entries) }
  res \ makeConnProps { src_peers := some all_dns_entries }

end NetworkConfig
end Nca.NetworkConfig
