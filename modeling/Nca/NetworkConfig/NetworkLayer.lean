import Nca.Resources.Policies
import Nca.NetworkConfig.PeerContainer
import Nca.Lib.Bisect
import Nca.Lib.Dict

/-!
Network layers. A layer holds its policies in order and computes, for either direction, what they
allow and deny, and what is allowed to the peers that they leave uncaptured.
-/

namespace Nca.NetworkConfig
open CoreDS Lib Resources

variable {P E κ : Type} [Fintype E] [DecidableEq E] [Peers E] [ConnectivityProperties P E κ]

inductive NetworkLayerName where
  | K8s_Calico
  | Istio
  | K8sGateway
  | IstioGateway
  deriving DecidableEq, Repr

def NetworkLayerName.policyTypeToLayer : PolicyType → Option NetworkLayerName
  | .K8sNetworkPolicy | .CalicoNetworkPolicy | .CalicoGlobalNetworkPolicy | .CalicoProfile =>
    some .K8s_Calico
  | .IstioAuthorizationPolicy | .IstioSidecar => some .Istio
  | .Ingress => some .K8sGateway
  | .GatewayPolicy => some .IstioGateway
  | _ => none

namespace NetworkLayer

/-- One turn of `collect_policies_conns_optimized`. -/
def collectPolicy (is_ingress : Bool) (captured_func : Policy P → Bool)
    (res_conns : PolicyConnections P E) (policy : Policy P) : PolicyConnections P E :=
  let policy_conns := policy.allowedConnections is_ingress
  if policy_conns.captured ≠ ∅ then
    let captured :=
      if captured_func policy then res_conns.captured ∪ policy_conns.captured
      else res_conns.captured
    let denied_conns := (policy_conns.denied_conns \ res_conns.allowed_conns) \ res_conns.pass_conns
    let allowed_conns := (policy_conns.allowed_conns \ res_conns.denied_conns) \ res_conns.pass_conns
    let pass_conns := (policy_conns.pass_conns \ res_conns.denied_conns) \ res_conns.allowed_conns
    { res_conns with
      captured := captured
      allowed_conns := res_conns.allowed_conns ∪ allowed_conns
      denied_conns := res_conns.denied_conns ∪ denied_conns
      pass_conns := res_conns.pass_conns ∪ pass_conns }
  else res_conns

def collectPoliciesConnsOptimized (policies_list : List (Policy P)) (is_ingress : Bool)
    (captured_func : Policy P → Bool) : PolicyConnections P E :=
  policies_list.foldl (collectPolicy is_ingress captured_func) .init

end NetworkLayer

/-- A cube over the captured end of connections and their other end. -/
def xgressCube (is_ingress : Bool) (others captured : PeerSet E) : ConnectivityCube E :=
  if is_ingress then { src_peers := some others, dst_peers := some captured }
  else { src_peers := some captured, dst_peers := some others }

namespace K8sCalicoNetworkLayer

def allowedXgressConns (policies_list : List (Policy P)) (is_ingress : Bool)
    (peer_container : PeerContainer E) (res_conns_filter : PolicyConnectionsFilter) :
    PolicyConnections P E :=
  let res_conns :=
    NetworkLayer.collectPoliciesConnsOptimized policies_list is_ingress fun _ => true
  let all_peers_and_ips := peer_container.getAllPeersGroup true true
  let all_peers_no_ips := peer_container.getAllPeersGroup false true
  let base_peer_set_no_hep := all_peers_no_ips.filter fun peer => Peers.kind peer ≠ .hostEP
  let not_captured_not_hep := base_peer_set_no_hep \ res_conns.captured
  let res_conns :=
    if not_captured_not_hep ≠ ∅ ∧ res_conns_filter.calc_all_allowed = true then
      { res_conns with all_allowed_conns := res_conns.all_allowed_conns ∪
          makeConnProps (xgressCube is_ingress all_peers_and_ips not_captured_not_hep) }
    else res_conns
  let captured_not_hep := base_peer_set_no_hep ∩ res_conns.captured
  let res_conns :=
    if captured_not_hep ≠ ∅ ∧ ExactSet.bool res_conns.pass_conns = true then
      let captured_not_hep_conns : P :=
        makeConnProps (xgressCube is_ingress all_peers_and_ips captured_not_hep)
      { res_conns with allowed_conns :=
          res_conns.allowed_conns ∪ (res_conns.pass_conns ∩ captured_not_hep_conns) }
    else res_conns
  if res_conns_filter.calc_all_allowed then
    { res_conns with all_allowed_conns := res_conns.all_allowed_conns ∪ res_conns.allowed_conns }
  else res_conns

end K8sCalicoNetworkLayer

namespace IstioNetworkLayer

/-- Authorization and gateway policies capture peers only if they are `Allow` policies. -/
def capturedCondFunc : Policy P → Bool
  | .istio policy => decide (policy.action = .Allow)
  | .gateway policy =>
    if policy.policy_kind = .GatewayPolicy then decide (policy.action = .Allow) else true
  | _ => true

def allowedXgressConns (policies_list : List (Policy P)) (is_ingress : Bool)
    (peer_container : PeerContainer E) (res_conns_filter : PolicyConnectionsFilter) :
    PolicyConnections P E :=
  let res_conns :=
    NetworkLayer.collectPoliciesConnsOptimized policies_list is_ingress capturedCondFunc
  if !res_conns_filter.calc_all_allowed then res_conns
  else
    let all_peers_and_ips := peer_container.getAllPeersGroup true
    let all_peers_no_ips := peer_container.getAllPeersGroup false
    let dns_entries := peer_container.getAllDnsEntries
    let all_all_conns : P := makeConnProps
      { src_peers := some all_peers_and_ips, dst_peers := some all_peers_and_ips,
        protocols := some getNonTcpProtocols }
    let res_conns := { res_conns with all_allowed_conns :=
      res_conns.all_allowed_conns ∪ (res_conns.allowed_conns ∪ all_all_conns) }
    let non_captured_peers := all_peers_no_ips \ res_conns.captured
    if non_captured_peers ≠ ∅ then
      let tcp_protocol := getProtocolSetWithSingleProtocol tcp
      let non_captured_conns : P :=
        if is_ingress then
          let all_nc_conns : P := makeConnProps
            { src_peers := some all_peers_and_ips, dst_peers := some non_captured_peers }
          let non_captured_dns_entries := dns_entries \ res_conns.captured
          let non_captured_conns := all_nc_conns \ res_conns.denied_conns
          if non_captured_dns_entries ≠ ∅ then
            let all_nc_dns_conns : P := makeConnProps
              { src_peers := some all_peers_and_ips, dst_peers := some non_captured_dns_entries,
                protocols := some tcp_protocol }
            non_captured_conns ∪ (all_nc_dns_conns \ res_conns.denied_conns)
          else non_captured_conns
        else
          let nc_all_conns : P := makeConnProps
            { src_peers := some non_captured_peers, dst_peers := some all_peers_and_ips }
          let nc_dns_conns : P := makeConnProps
            { src_peers := some non_captured_peers, dst_peers := some dns_entries,
              protocols := some tcp_protocol }
          (nc_all_conns ∪ nc_dns_conns) \ res_conns.denied_conns
      { res_conns with all_allowed_conns := res_conns.all_allowed_conns ∪ non_captured_conns }
    else res_conns

end IstioNetworkLayer

namespace NetworkLayer

/-- `_allowed_xgress_conns` of the layer's class; gateway layers inherit theirs. -/
def allowedXgressConns : NetworkLayerName → List (Policy P) → Bool → PeerContainer E →
    PolicyConnectionsFilter → PolicyConnections P E
  | .K8s_Calico | .K8sGateway => K8sCalicoNetworkLayer.allowedXgressConns
  | .Istio | .IstioGateway => IstioNetworkLayer.allowedXgressConns

/-- `NetworkLayer.allowed_connections`. -/
def allowedConnections (layer : NetworkLayerName) (policies_list : List (Policy P))
    (peer_container : PeerContainer E) (res_conns_filter : PolicyConnectionsFilter) :
    PolicyConnections P E :=
  let ingress_conns := allowedXgressConns layer policies_list true peer_container res_conns_filter
  let egress_conns := allowedXgressConns layer policies_list false peer_container res_conns_filter
  let all_pods_peer_set := peer_container.getAllPeersGroup
  let all_ips_peer_set := getAllIpsBlockPeerSet
  let ingress_all_allowed : P :=
    if res_conns_filter.calc_all_allowed then ingress_conns.all_allowed_conns ∪
      makeConnProps { src_peers := some all_pods_peer_set, dst_peers := some all_ips_peer_set }
    else ingress_conns.all_allowed_conns
  let egress_all_allowed : P :=
    if res_conns_filter.calc_all_allowed then egress_conns.all_allowed_conns ∪
      makeConnProps { src_peers := some all_ips_peer_set, dst_peers := some all_pods_peer_set }
    else egress_conns.all_allowed_conns
  { captured := ingress_conns.captured ∪ egress_conns.captured
    allowed_conns :=
      if res_conns_filter.calc_allowed then (ingress_conns.allowed_conns ∩ egress_all_allowed) ∪
        (egress_conns.allowed_conns ∩ ingress_all_allowed)
      else ∅
    denied_conns :=
      if res_conns_filter.calc_denied then ingress_conns.denied_conns ∪ egress_conns.denied_conns
      else ∅
    pass_conns := ∅
    all_allowed_conns :=
      if res_conns_filter.calc_all_allowed then ingress_all_allowed ∩ egress_all_allowed else ∅ }

end NetworkLayer

/-- `NetworkLayersContainer`: the layers with their policies. -/
abbrev NetworkLayersContainer (P : Type) {E κ : Type} [Peers E] [ConnectivityProperties P E κ] :=
  List (NetworkLayerName × List (Policy P))

namespace NetworkLayersContainer

def default_layer : NetworkLayerName := .K8s_Calico

def init : NetworkLayersContainer P := [(default_layer, [])]

def addPolicy (self : NetworkLayersContainer P) (policy : Policy P)
    (layer_name : Option NetworkLayerName) : NetworkLayersContainer P :=
  match layer_name with
  | none => self
  | some layer_name =>
    let layers := Dict.set self layer_name (match Dict.get self layer_name with
      | none => [policy]
      | some policies_list => Python.insort Policy.lt policies_list policy)
    match Dict.get layers default_layer with
    | some [] => layers.filter fun entry => decide (entry.1 ≠ default_layer)
    | _ => layers

/-- Whether one of the Istio layers is there. -/
def doesContainIstioLayers (self : NetworkLayersContainer P) : Bool :=
  self.any fun entry => decide (entry.1 = .Istio ∨ entry.1 = .IstioGateway)

def emptyLayerAllowedConnections (peer_container : PeerContainer E) (layer_name : NetworkLayerName)
    (res_conns_filter : PolicyConnectionsFilter) : PolicyConnections P E :=
  NetworkLayer.allowedConnections layer_name [] peer_container res_conns_filter

end NetworkLayersContainer
end Nca.NetworkConfig
