import Nca.Parsers.IstioGenericYamlParser
import Nca.Parsers.IstioVirtualServiceYamlParser
import Nca.Resources.SidecarEgress

/-!
The parser of Istio sidecars. The parser is kept from one sidecar to the next: it collects the
sidecars in three lists, and the peers that sidecars with a workload selector have claimed.
-/

namespace Nca.Parsers
open CoreDS Lib Lib.Python NetworkConfig Resources IstioGenericYamlParser

/-- A service with the pods that it was resolved to. -/
structure MeshService (E : Type) where
  name : String
  ns : String
  target_pods : PeerSet E

/-- A peer container with its services. The parameters tell whether a text is a fully qualified
domain name, and whether the name of a DNS entry is the given host name or matches its pattern. -/
structure Mesh (E : Type) [Peers E] extends PeerContainer E where
  services : List (MeshService E) := []
  is_fqdn : String → Bool
  matches_host_name : E → String → Bool
  targets_inside : ∀ srv ∈ services, ∀ e ∈ srv.target_pods, e ∈ peer_set ∧ Peers.kind e = .pod

namespace Mesh

variable {E : Type} [TopologyPeers E] [DecidableEq E] (self : Mesh E)

/-- The pods of the services that a test holds for. -/
def targetPods (test : MeshService E → Bool) : PeerSet E :=
  (self.services.filter test).foldl (fun res service => res ∪ service.target_pods) ∅

def getTargetPodsWithServiceName (service_name : String) : PeerSet E :=
  self.targetPods fun service => service.name == service_name

def getDnsEntryPeersMatchingHostName (host_name : String) : PeerSet E :=
  self.getAllDnsEntries.filter fun peer => self.matches_host_name peer host_name

def getAllServicesTargetPeers : PeerSet E :=
  self.targetPods (fun _ => true) ∪ self.getAllDnsEntries

def getServicesTargetPeersInNamespace (ns : String) : PeerSet E :=
  self.targetPods (fun service => service.ns == ns) ∪ self.getAllDnsEntries

/-- The peers that rules are about. -/
def Target (e : E) : Prop :=
  e ∈ self.peer_set ∧ (Peers.kind e = .pod ∨ Peers.kind e = .dnsEntry)

variable {self} {e : E}

theorem target_of_service {test : MeshService E → Bool} (target : e ∈ self.targetPods test) :
    self.Target e := by
  have walk : ∀ (services : List (MeshService E)) (res : PeerSet E),
      (∀ srv ∈ services, srv ∈ self.services) → (∀ e ∈ res, self.Target e) →
      ∀ e ∈ services.foldl (fun res service => res ∪ service.target_pods) res, self.Target e := by
    intro services
    induction services with
    | nil => exact fun res _ before => before
    | cons srv rest ih =>
      intro res among before
      obtain ⟨first, others⟩ := List.forall_mem_cons.mp among
      apply ih _ others
      intro e member
      rcases Finset.mem_union.mp member with old | new
      · exact before e old
      · obtain ⟨placed, pod⟩ := self.targets_inside srv first e new
        exact ⟨placed, Or.inl pod⟩
  exact walk _ ∅ (fun srv listed => (List.mem_filter.mp listed).1) (by simp) e target

theorem target_of_dns (entry : e ∈ self.getAllDnsEntries) : self.Target e := by
  obtain ⟨placed, dns⟩ := PeerContainer.mem_dns.mp entry
  exact ⟨placed, Or.inr dns⟩

theorem target_of_services {test : MeshService E → Bool}
    (target : e ∈ self.targetPods test ∪ self.getAllDnsEntries) : self.Target e := by
  rcases Finset.mem_union.mp target with service | entry
  · exact target_of_service service
  · exact target_of_dns entry

end Mesh

/-- An `IstioSidecar` as the parser makes it. -/
structure ParsedSidecar (P E : Type) extends SidecarEgress P E where
  name : String
  ns : String
  default_sidecar : Bool
  affects_egress : Bool

structure IstioSidecarYamlParser (P E : Type) where
  peers_referenced_by_labels : PeerSet E := ∅
  specific_sidecars : List (ParsedSidecar P E) := []
  default_sidecars : List (ParsedSidecar P E) := []
  global_default_sidecars : List (ParsedSidecar P E) := []
  referenced_namespaces : Finset String := ∅

namespace IstioSidecarYamlParser

section Egress

variable {P E κ : Type} [ConnectivityProperties P E κ] [TopologyPeers E] [DecidableEq E]
  (mesh : Mesh E) (ns : String)

def validateAndPartitionHostFormat (host : Yaml) : Except ParseError (String × String) :=
  match host with
  | .str text => do
    syntaxErrorIf (text.toList.count '/' ≠ 1)
      s!"Illegal host format \"{text}\". Host format must be namespace/dnsName"
    let first := text.toList.takeWhile (· ≠ '/')
    let second := text.toList.drop (first.length + 1)
    syntaxErrorIf (first = [] ∨ second = [])
      s!"Illegal host format \"{text}\". Host must include both namespace and dnsName"
    return (String.ofList first, String.ofList second)
  -- a list has a method `count` as well, but no method `split`
  | .list items =>
    if items.countP (Yaml.isStr "/") ≠ 1 then syntaxError "Illegal host format" else .error .AttributeError
  | _ => .error .AttributeError

/-- The peers of a host's namespace, and whether the namespaces of the two ends must be compared. -/
def getPeersFromHostNamespace (host_ns : String) : Except ParseError (PeerSet E × Bool) := do
  syntaxErrorIf (['*', '.', '~'].any (· ∈ host_ns.toList) ∧ host_ns.length ≠ 1)
    s!"unsupported regex pattern for namespace \"{host_ns}\""
  if host_ns = "*" then return (mesh.getAllServicesTargetPeers, false)
  if host_ns = "." then
    if ns = istio_root_namespace then return (mesh.getAllServicesTargetPeers, true)
    return (mesh.getServicesTargetPeersInNamespace ns, false)
  if host_ns = "~" then return (∅, false)
  return (mesh.getServicesTargetPeersInNamespace (namespaceName host_ns), false)

def validateDnsNamePattern (dns_name : String) : Except ParseError Unit := do
  let wildcard := "*.".toList <+: dns_name.toList
  syntaxErrorIf ('*' ∈ dns_name.toList ∧
      ¬ (wildcard ∧ dns_name.toList.count '*' = 1 ∨ dns_name = "*"))
    s!"Illegal host value pattern: \"{dns_name}\""
  let alphabet_str := if wildcard then dns_name.toList.drop 2
    else if dns_name = "*" then [] else dns_name.toList
  syntaxErrorIf (alphabet_str ≠ [] ∧ ('.' ∉ alphabet_str ∨ !mesh.is_fqdn (String.ofList alphabet_str)))
    s!"Illegal host value pattern: \"{dns_name}\", dnsName must be specified using FQDN format and has a max length of 255 characters"

def getPeersFromHostDnsName (dns_name : String) (host_peers : PeerSet E) : PeerSet E :=
  if dns_name = "*" then host_peers
  else if "svc.cluster.local".toList <:+: dns_name.toList then
    if "*.".toList <+: dns_name.toList then host_peers
    else host_peers ∩ mesh.getTargetPodsWithServiceName
      (String.ofList (dns_name.toList.takeWhile (· ≠ '.')))
  else host_peers ∩ mesh.getDnsEntryPeersMatchingHostName dns_name

/-- One turn of the loop over the hosts of a rule. -/
def parseHost (res_peers special_res_peers : PeerSet E) (host : Yaml) :
    Except ParseError (PeerSet E × PeerSet E) := do
  let (host_ns, dns_name) ← validateAndPartitionHostFormat host
  let (host_peers, special_case_host) ← getPeersFromHostNamespace mesh ns host_ns
  validateDnsNamePattern mesh dns_name
  let host_peers := if host_peers = ∅ then host_peers
    else getPeersFromHostDnsName mesh dns_name host_peers
  if special_case_host then return (res_peers, special_res_peers ∪ host_peers)
  else return (res_peers ∪ host_peers, special_res_peers)

def parseEgressRule (egress_rule : Yaml) : Except ParseError (EgressListener P E) := do
  checkFieldsValidity egress_rule "Istio Egress Listener"
    [("port", ⟨3, some .dict⟩), ("bind", ⟨3, some .str⟩), ("captureMode", ⟨3, some .str⟩),
      ("hosts", ⟨1, some .list⟩)]
  let hosts ← egress_rule.get "hosts"
  syntaxErrorIf (!hosts.truthy) "One or more service hosts to be exposed by the listener are required"
  let (res_peers, special_res_peers) ← (← hosts.asList).foldlM
    (fun acc host => parseHost mesh ns acc.1 acc.2 host) (∅, ∅)
  return ⟨res_peers, special_res_peers, ∅⟩

variable {mesh ns}

theorem hostNamespace_targets {host_ns : String} {found : PeerSet E × Bool}
    (read : getPeersFromHostNamespace mesh ns host_ns = .ok found) : ∀ e ∈ found.1, mesh.Target e := by
  unfold getPeersFromHostNamespace at read
  obtain ⟨_, _, read⟩ := bind_ok.mp read
  intro e member
  split at read
  · obtain rfl := Except.ok.inj read
    exact Mesh.target_of_services member
  · split at read
    · split at read
      · obtain rfl := Except.ok.inj read
        exact Mesh.target_of_services member
      · obtain rfl := Except.ok.inj read
        exact Mesh.target_of_services member
    · split at read
      · obtain rfl := Except.ok.inj read
        exact absurd member (Finset.notMem_empty e)
      · obtain rfl := Except.ok.inj read
        exact Mesh.target_of_services member

theorem hostDnsName_subset (dns_name : String) (host_peers : PeerSet E) :
    getPeersFromHostDnsName mesh dns_name host_peers ⊆ host_peers := by
  unfold getPeersFromHostDnsName
  split
  · exact Finset.Subset.refl host_peers
  · split
    · split
      · exact Finset.Subset.refl host_peers
      · exact Finset.inter_subset_left
    · exact Finset.inter_subset_left

theorem parseHost_targets {acc next : PeerSet E × PeerSet E} {host : Yaml}
    (before : ∀ e, e ∈ acc.1 ∨ e ∈ acc.2 → mesh.Target e)
    (read : parseHost mesh ns acc.1 acc.2 host = .ok next) :
    ∀ e, e ∈ next.1 ∨ e ∈ next.2 → mesh.Target e := by
  unfold parseHost at read
  obtain ⟨⟨host_ns, dns_name⟩, _, read⟩ := bind_ok.mp read
  obtain ⟨⟨host_peers, special_case_host⟩, found, read⟩ := bind_ok.mp read
  obtain ⟨_, _, read⟩ := bind_ok.mp read
  have targets : ∀ e ∈ (if host_peers = ∅ then host_peers
      else getPeersFromHostDnsName mesh dns_name host_peers), mesh.Target e := by
    intro e member
    apply hostNamespace_targets found e
    split at member
    · exact member
    · exact hostDnsName_subset dns_name host_peers member
  intro e member
  cases special_case_host with
  | true =>
    obtain rfl := Except.ok.inj read
    rcases member with old | new
    · exact before e (Or.inl old)
    · rcases Finset.mem_union.mp new with old | new
      · exact before e (Or.inr old)
      · exact targets e new
  | false =>
    obtain rfl := Except.ok.inj read
    rcases member with new | old
    · rcases Finset.mem_union.mp new with old | new
      · exact before e (Or.inl old)
      · exact targets e new
    · exact before e (Or.inr old)

/-- A rule that is parsed has peers of the mesh, and no connections yet. -/
theorem parseEgressRule_targets {egress_rule : Yaml} {rule : EgressListener P E}
    (read : parseEgressRule mesh ns egress_rule = .ok rule) :
    rule.props = ∅ ∧ ∀ e, e ∈ rule.egress_peer_set ∨ e ∈ rule.special_egress_peer_set →
      mesh.Target e := by
  unfold parseEgressRule at read
  obtain ⟨_, _, read⟩ := bind_ok.mp read
  obtain ⟨hosts, _, read⟩ := bind_ok.mp read
  obtain ⟨_, _, read⟩ := bind_ok.mp read
  obtain ⟨listed, _, read⟩ := bind_ok.mp read
  obtain ⟨⟨res_peers, special_res_peers⟩, run, read⟩ := bind_ok.mp read
  obtain rfl := Except.ok.inj read
  have targets := foldlM_ok (fun (_ : List Yaml) (acc : PeerSet E × PeerSet E) =>
    ∀ e, e ∈ acc.1 ∨ e ∈ acc.2 → mesh.Target e) (by simp)
    (fun _ host acc next before read => parseHost_targets before read) run
  exact ⟨rfl, targets⟩

end Egress

section Policies

variable {P E κ : Type} [ConnectivityProperties P E κ] [Fintype E] [DecidableEq E] [TopologyPeers E]
  (mesh : Mesh E)

/-- A sidecar with a workload selector claims the peers that it selects. -/
def checkAndSaveSidecarIfTopPriority (self : IstioSidecarYamlParser P E)
    (curr_sidecar : ParsedSidecar P E) : Except ParseError (IstioSidecarYamlParser P E) := do
  let {name, ns, ..} := curr_sidecar
  if curr_sidecar.default_sidecar then
    syntaxErrorIf (ns ∈ self.referenced_namespaces)
      s!"Namespace \"{ns}\" already has a Sidecar configuration without any workloadSelector. \n\"{ns}/{name}\" leads to an ambiguous system behaviour."
    return { self with referenced_namespaces := insert ns self.referenced_namespaces }
  else
    let prior_referenced_by_label := curr_sidecar.selected_peers ∩ self.peers_referenced_by_labels
    syntaxErrorIf (prior_referenced_by_label ≠ ∅)
      s!"Peers already have a Sidecar configuration selecting them. \n Sidecar: \"{ns}/{name}\" leads to an ambiguous system behaviour."
    return { self with
      peers_referenced_by_labels := self.peers_referenced_by_labels ∪ curr_sidecar.selected_peers }

def parseOutboundTrafficPolicy (outbound_traffic_policy : Yaml) : Except ParseError OutboundMode := do
  if !outbound_traffic_policy.truthy then return .ALLOW_ANY
  checkFieldsValidity outbound_traffic_policy "OutboundTrafficPolicy" [("mode", ⟨0, some .str⟩)]
    [("mode", ["ALLOW_ANY", "REGISTRY_ONLY"])]
  let mode ← outbound_traffic_policy.get "mode"
  return if mode.isStr "REGISTRY_ONLY" then .REGISTRY_ONLY else .ALLOW_ANY

/-- The list that a sidecar is appended to. -/
def appendSidecar (self : IstioSidecarYamlParser P E) (sidecar : ParsedSidecar P E) :
    IstioSidecarYamlParser P E :=
  if sidecar.default_sidecar then
    if sidecar.ns = istio_root_namespace then
      { self with global_default_sidecars := self.global_default_sidecars ++ [sidecar] }
    else { self with default_sidecars := self.default_sidecars ++ [sidecar] }
  else { self with specific_sidecars := self.specific_sidecars ++ [sidecar] }

/-- The fields that every resource has; nothing if the resource is no Istio sidecar. -/
def sidecarFields (policy : Yaml) : Except ParseError (Option (String × Option String)) :=
  parseGenericYamlObjectsFields policy ["Sidecar"]
    ["networking.istio.io/v1alpha3", "networking.istio.io/v1beta1", "networking.istio.io/v1"] "istio" true

/-- The sidecar of a resource, before its rules are read. -/
def parseSelection (policy_name ns : String) (sidecar_spec : Yaml) :
    Except ParseError (ParsedSidecar P E) := do
  checkFieldsValidity sidecar_spec "Sidecar spec"
    [("workloadSelector", ⟨0, some .dict⟩), ("ingress", ⟨3, some .list⟩), ("egress", ⟨0, some .list⟩),
      ("outboundTrafficPolicy", ⟨0, some .dict⟩)]
  let workload_selector ← sidecar_spec.get "workloadSelector"
  syntaxErrorIf (ns = istio_root_namespace ∧ !workload_selector.isNull)
    "Global Sidecar configuration should not have any workloadSelector."
  let selected_peers ← updatePolicyPeers mesh.toPeerContainer ns workload_selector "labels"
  return {
    name := policy_name
    ns := ns
    default_sidecar := workload_selector.isNull
    affects_egress := !(← sidecar_spec.get "egress").isNull
    selected_peers := selected_peers
    egress_rules := [] }

def parsePolicy (self : IstioSidecarYamlParser P E) (policy : Yaml) :
    Except ParseError (IstioSidecarYamlParser P E) := do
  match ← sidecarFields policy with
  | none => return self
  | some (policy_name, policy_ns) =>
    let ns := namespaceName (policy_ns.getD "")
    let sidecar_spec ← policy.get "spec"
    let res_policy ← parseSelection mesh policy_name ns sidecar_spec
    let self ← checkAndSaveSidecarIfTopPriority self res_policy
    let egress_rules ← (← (← sidecar_spec.get "egress").asList).mapM (parseEgressRule mesh ns)
    let outbound_mode ← parseOutboundTrafficPolicy (← sidecar_spec.get "outboundTrafficPolicy")
    return appendSidecar self { res_policy with egress_rules, outbound_mode }

/-- `create_opt_egress_props` of a sidecar. -/
def createProps (order : SetOrder E) (fuel : Nat) (sidecar : ParsedSidecar P E) :
    Except Failure (ParsedSidecar P E) := do
  let made ← sidecar.toSidecarEgress.createOptEgressProps order fuel mesh.toPeerContainer
  return { sidecar with toSidecarEgress := made }

/-- One turn of the loops over the default sidecars. -/
def refineSidecar (order : SetOrder E) (fuel : Nat)
    (acc : PeerSet E × List (ParsedSidecar P E)) (sidecar : ParsedSidecar P E) :
    Except Failure (PeerSet E × List (ParsedSidecar P E)) := do
  let (referenced_peers, res) := acc
  let selected_peers := if sidecar.selected_peers ∩ referenced_peers ≠ ∅
    then sidecar.selected_peers \ referenced_peers else sidecar.selected_peers
  let made ← createProps mesh order fuel { sidecar with selected_peers := selected_peers }
  return (referenced_peers ∪ selected_peers, res ++ [made])

def getIstioSidecars (order : SetOrder E) (fuel : Nat) (self : IstioSidecarYamlParser P E) :
    Except Failure (List (ParsedSidecar P E)) := do
  let res ← self.specific_sidecars.mapM (createProps mesh order fuel)
  let (referenced_peers, res) ← self.default_sidecars.foldlM (refineSidecar mesh order fuel)
    (self.peers_referenced_by_labels, res)
  let (_, res) ← self.global_default_sidecars.foldlM (refineSidecar mesh order fuel)
    (referenced_peers, res)
  return res

end Policies

end IstioSidecarYamlParser
end Nca.Parsers
