import Nca.NetworkConfig.OrderIndependence
import Nca.Parsers.K8sPolicies

/-!
Configurations of K8s network policies, from the resources to the connections. What a configuration allows
is what Kubernetes makes of its resources: a pod that no policy isolates in a direction may be reached or
reach others in it, and an isolated one as far as one of its policies says.
-/

namespace Nca.NetworkConfig
open CoreDS Lib Resources Parsers K8sPolicyYamlParser

section Semantics

variable (P : Type) {E κ : Type} [TopologyPeers E] [NamedPorts E] [PortProperties P E κ]
  (peer_container : PeerContainer E) (namespaces : Namespaces)
  (parse_ip_block : Yaml → Except ParseError (PeerSet E)) (docs : List Yaml) (is_ingress : Bool)

/-- The resource is a policy for this direction that selects the pod. -/
def AppliesTo (doc : Yaml) (e : E) : Prop :=
  IsNetworkPolicy doc ∧ (doc.field "spec").isNull = false ∧ AffectsDirection (doc.field "spec") is_ingress ∧
    SelectsPod peer_container (namespaces.getNamespace (documentNamespace doc)) (doc.field "spec") e

/-- The end that policies of the direction are about is not isolated, or one of its policies lets the
connection through. -/
def DirectionAllows (x : Flow E κ) : Prop :=
  (∀ doc ∈ docs, ¬ AppliesTo peer_container namespaces is_ingress doc (capturedEnd is_ingress x)) ∨
    ∃ doc ∈ docs, AppliesTo peer_container namespaces is_ingress doc (capturedEnd is_ingress x) ∧
      Grants P peer_container (namespaces.getNamespace (documentNamespace doc)) parse_ip_block
        (doc.field "spec") is_ingress x

/-- Both directions allow the connection. -/
def KubernetesAllows (x : Flow E κ) : Prop :=
  ∀ is_ingress, DirectionAllows P peer_container namespaces parse_ip_block docs is_ingress x

/-- The full name of a resource. -/
def documentTitle (doc : Yaml) : String := documentNamespace doc ++ "/" ++ documentName doc

end Semantics

section Config

variable {P E κ : Type} [Fintype E] [DecidableEq E] [TopologyPeers E] [NamedPorts E] [PortProperties P E κ]
  {unicode : Char → Bool} {peer_container : PeerContainer E} {namespaces : Namespaces}
  {parse_ip_block : Yaml → Except ParseError (PeerSet E)} {docs : List Yaml} {is_ingress : Bool}
  {parsed : List (Option (K8sNetworkPolicy P))} {x : Flow E κ} {e : E}

/-- The policies that are appended, where resources of other kinds are passed over. -/
def k8sPolicies (parsed : List (Option (K8sNetworkPolicy P))) : List (Policy P) :=
  parsed.filterMap (·.map Policy.k8s)

omit [Fintype E] [DecidableEq E] [NamedPorts E] in
theorem mem_k8sPolicies {policy : Policy P} :
    policy ∈ k8sPolicies parsed ↔ ∃ p, some p ∈ parsed ∧ policy = .k8s p := by
  unfold k8sPolicies
  rw [List.mem_filterMap]
  refine ⟨?_, ?_⟩
  · intro ⟨res, listed, made⟩
    obtain ⟨p, rfl, rfl⟩ := Option.map_eq_some_iff.mp made
    exact ⟨p, listed, rfl⟩
  · intro ⟨p, listed, same⟩
    exact ⟨some p, listed, same ▸ rfl⟩

/-- What parsing the resources of a configuration is supposed to be about. -/
structure Cluster (parse_ip_block : Yaml → Except ParseError (PeerSet E)) (peer_container : PeerContainer E)
    (namespaces : Namespaces) (docs : List Yaml) : Prop where
  topology : Topology peer_container parse_ip_block
  regular : ∀ doc ∈ docs, IsNetworkPolicy doc →
    RegularRules peer_container (namespaces.getNamespace (documentNamespace doc)) (doc.field "spec")
  distinct : docs.Pairwise fun doc doc' => IsNetworkPolicy doc → IsNetworkPolicy doc' →
    documentTitle doc ≠ documentTitle doc'

/-- A resource next to what is parsed from it. -/
abbrev Made (parse_ip_block : Yaml → Except ParseError (PeerSet E)) (peer_container : PeerContainer E)
    (namespaces : Namespaces) : Yaml → Option (K8sNetworkPolicy P) → Prop :=
  MadeOf IsNetworkPolicy (PolicyOf namespaces parse_ip_block peer_container)

theorem parsed_made (cluster : Cluster parse_ip_block peer_container namespaces docs)
    (run : docs.mapM (parsePolicy unicode peer_container namespaces parse_ip_block) = .ok parsed) :
    List.Forall₂ (Made parse_ip_block peer_container namespaces) docs parsed := by
  apply (forall₂_members (mapM_ok run)).imp
  intro doc res ⟨listed, made⟩
  exact parsePolicy_ok cluster.topology (cluster.regular doc listed) made

/-- The policy of a resource captures what the resource applies to. -/
theorem policyOf_captures {doc : Yaml} {policy : K8sNetworkPolicy P}
    (made : PolicyOf namespaces parse_ip_block peer_container doc policy) :
    Captures (.k8s policy) is_ingress e ↔ AppliesTo peer_container namespaces is_ingress doc e := by
  show policy.affects is_ingress = true ∧ e ∈ policy.selected_peers ↔ _
  unfold AppliesTo
  rw [and_iff_right made.kind]
  cases missing : (doc.field "spec").isNull with
  | true =>
    rw [made.idle missing is_ingress]
    simp
  | false =>
    have reads := made.reads missing
    rw [reads.affects, reads.selected, and_iff_right rfl]

omit [NamedPorts E] in
theorem verdictOn_k8s_iff {p : K8sNetworkPolicy P} :
    (Policy.k8s p).verdictOn is_ingress x = some .allow ↔
      Captures (.k8s p) is_ingress (capturedEnd is_ingress x) ∧
        x ∈ unionProps K8sPolicyRule.props (p.rules is_ingress) := by
  refine ⟨fun decided => ?_, fun both => ?_⟩
  · refine ⟨verdictOn_captures (isK8sCalico_layer (.k8s p)) decided, ?_⟩
    unfold Policy.verdictOn at decided
    split at decided
    · simp only [Policy.syncProps, K8sNetworkPolicy.syncProps, Decisions.verdict, ExactSet.not_mem_empty,
        if_false] at decided
      split at decided
      · assumption
      · cases decided
    · cases decided
  · obtain ⟨captures, inside⟩ := both
    have captured : capturedEnd is_ingress x ∈ (Policy.k8s p).captured is_ingress :=
      (k8sCalico_captured (isK8sCalico_layer (.k8s p))).mpr captures
    unfold Policy.verdictOn
    rw [if_pos (Finset.ne_empty_of_mem captured)]
    simp [Policy.syncProps, K8sNetworkPolicy.syncProps, Decisions.verdict, inside]

omit [NamedPorts E] in
/-- The first verdict of K8s policies is to allow, or there is none. -/
theorem firstVerdict_k8s {policies_list : List (Policy P)} (all : ∀ policy ∈ policies_list, ∃ p, policy = .k8s p) :
    firstVerdict policies_list is_ingress x ≠ some .pass ∧
      (firstVerdict policies_list is_ingress x = some .allow ↔
        ∃ p, .k8s p ∈ policies_list ∧ Captures (.k8s p) is_ingress (capturedEnd is_ingress x) ∧
          x ∈ unionProps K8sPolicyRule.props (p.rules is_ingress)) := by
  have layered : ∀ policy ∈ policies_list, IsK8sCalico policy := by
    intro policy listed
    obtain ⟨p, rfl⟩ := all policy listed
    exact isK8sCalico_layer (.k8s p)
  have allows : ∀ v, firstVerdict policies_list is_ingress x = some v →
      v = .allow ∧ ∃ p, .k8s p ∈ policies_list ∧ (Policy.k8s p).verdictOn is_ingress x = some .allow := by
    intro v found
    rw [← findSome_verdictOn layered] at found
    obtain ⟨policy, listed, said⟩ := List.exists_of_findSome?_eq_some found
    obtain ⟨p, rfl⟩ := all policy listed
    obtain rfl := verdictOn_k8s said
    exact ⟨rfl, p, listed, said⟩
  refine ⟨?_, ?_, ?_⟩
  · intro found
    cases (allows _ found).1
  · intro found
    obtain ⟨-, p, listed, said⟩ := allows _ found
    exact ⟨p, listed, verdictOn_k8s_iff.mp said⟩
  · intro ⟨p, listed, granted⟩
    cases found : firstVerdict policies_list is_ingress x with
    | none =>
      rw [← findSome_verdictOn layered, List.findSome?_eq_none_iff] at found
      cases (found _ listed).symm.trans (verdictOn_k8s_iff.mpr granted)
    | some v => rw [(allows v found).1]

variable {policies_list : List (Policy P)}

/-- The policies of a list are those that were parsed. -/
def AreParsed (policies_list : List (Policy P)) (parsed : List (Option (K8sNetworkPolicy P))) : Prop :=
  ∀ policy, policy ∈ policies_list ↔ policy ∈ k8sPolicies parsed

omit [Fintype E] [DecidableEq E] [NamedPorts E] in
theorem AreParsed.mem (are : AreParsed policies_list parsed) {p : K8sNetworkPolicy P} :
    .k8s p ∈ policies_list ↔ some p ∈ parsed := by
  rw [are, mem_k8sPolicies]
  exact ⟨fun ⟨_, listed, same⟩ => Policy.k8s.inj same ▸ listed, fun listed => ⟨p, listed, rfl⟩⟩

omit [Fintype E] [DecidableEq E] [NamedPorts E] in
theorem AreParsed.all (are : AreParsed policies_list parsed) : ∀ policy ∈ policies_list, ∃ p, policy = .k8s p := by
  intro policy listed
  obtain ⟨p, -, same⟩ := mem_k8sPolicies.mp ((are policy).mp listed)
  exact ⟨p, same⟩

/-- Between peers that are not host endpoints a direction admits what Kubernetes allows. -/
theorem admits_iff (made : List.Forall₂ (Made parse_ip_block peer_container namespaces) docs parsed)
    (are : AreParsed policies_list parsed)
    (known : otherEnd is_ingress x ∈ peer_container.getAllPeersGroup true true)
    (captured : Peers.kind (capturedEnd is_ingress x) ≠ .hostEP)
    (other : Peers.kind (otherEnd is_ingress x) ≠ .hostEP) :
    Admits policies_list is_ingress x ↔
      DirectionAllows P peer_container namespaces parse_ip_block docs is_ingress x := by
  obtain ⟨noPass, allows⟩ := firstVerdict_k8s are.all (x := x)
  have isolated : (∃ doc ∈ docs, AppliesTo peer_container namespaces is_ingress doc (capturedEnd is_ingress x)) ↔
      ∃ p, some p ∈ parsed ∧ Captures (.k8s p) is_ingress (capturedEnd is_ingress x) :=
    forall₂_made made (fun _ applies => applies.1) fun _ _ policy => (policyOf_captures policy).symm
  have granted : (∃ doc ∈ docs, AppliesTo peer_container namespaces is_ingress doc (capturedEnd is_ingress x) ∧
      Grants P peer_container (namespaces.getNamespace (documentNamespace doc)) parse_ip_block
        (doc.field "spec") is_ingress x) ↔
      ∃ p, some p ∈ parsed ∧ Captures (.k8s p) is_ingress (capturedEnd is_ingress x) ∧
        x ∈ unionProps K8sPolicyRule.props (p.rules is_ingress) := by
    apply forall₂_made made (fun _ wanted => wanted.1.1)
    intro doc p policy
    rw [policyOf_captures policy]
    refine and_congr_right fun applies => ?_
    have reads := policy.reads applies.2.1
    have selected := (reads.selected _).mpr applies.2.2.2
    rw [reads.rules is_ingress x known other, and_iff_right selected]
  unfold Admits DirectionAllows
  rw [granted, allows]
  simp only [are.mem, captured, noPass, ne_eq, not_false_iff, true_and, false_and, or_false]
  refine or_congr_left ?_
  have some_policy : (∃ policy ∈ policies_list, Captures policy is_ingress (capturedEnd is_ingress x)) ↔
      ∃ doc ∈ docs, AppliesTo peer_container namespaces is_ingress doc (capturedEnd is_ingress x) := by
    rw [isolated]
    refine ⟨?_, fun ⟨p, listed, captures⟩ => ⟨_, are.mem.mpr listed, captures⟩⟩
    intro ⟨policy, listed, captures⟩
    obtain ⟨p, rfl⟩ := are.all policy listed
    exact ⟨p, are.mem.mp listed, captures⟩
  simpa only [not_exists, not_and] using not_congr some_policy

/-- Host endpoints are not let through by K8s policies, which do not select them. -/
theorem hep_not_admitted (made : List.Forall₂ (Made parse_ip_block peer_container namespaces) docs parsed)
    (are : AreParsed policies_list parsed) (hep : Peers.kind (capturedEnd is_ingress x) = .hostEP) :
    ¬ Admits policies_list is_ingress x := by
  intro admits
  rcases admits with ⟨noHep, -⟩ | found | ⟨-, noHep, -⟩
  · exact noHep hep
  · obtain ⟨p, listed, captures, -⟩ := (firstVerdict_k8s are.all).2.mp found
    obtain ⟨doc, -, own⟩ := forall₂_source made (are.mem.mp listed)
    obtain ⟨-, -, -, pod, -⟩ := (policyOf_captures (own.2 p rfl)).mp captures
    cases pod.symm.trans hep
  · exact noHep hep

/-- The K8s_Calico layer allows what Kubernetes makes of the resources of its policies, and nothing with
host endpoints. -/
theorem k8sLayer_allows {self : NetworkConfig P}
    (made : List.Forall₂ (Made parse_ip_block self.peer_container namespaces) docs parsed)
    (are : AreParsed policies_list parsed) (possible : Possible self.peer_container x) :
    layerAllows self .K8s_Calico policies_list x ↔
      WithoutHep x ∧ KubernetesAllows P self.peer_container namespaces parse_ip_block docs x := by
  have directions : layerAllows self .K8s_Calico policies_list x ↔
      ∀ is_ingress, Peers.kind (capturedEnd is_ingress x) ≠ .ipBlock → Admits policies_list is_ingress x := by
    have layered : ∀ policy ∈ policies_list, IsK8sCalico policy := by
      intro policy listed
      obtain ⟨p, rfl⟩ := are.all policy listed
      exact isK8sCalico_layer (.k8s p)
    unfold layerAllows
    rw [mem_layer_possible possible rfl, Bool.forall_bool, and_comm]
    refine and_congr (imp_congr_right fun noIp => ?_) (imp_congr_right fun noIp => ?_)
    · exact k8sCalico_xgress layered rfl possible.dst (PeerContainer.mem_group.mp (possible.src_pod noIp)).1
    · exact k8sCalico_xgress layered rfl possible.src_all (possible.dst_peer noIp)
  have known : ∀ is_ingress, otherEnd is_ingress x ∈ self.peer_container.getAllPeersGroup true true := by
    intro is_ingress
    cases is_ingress with
    | true => exact possible.src_all
    | false => exact possible.dst
  rw [directions]
  refine ⟨?_, ?_⟩
  · intro admits
    have captured : ∀ is_ingress, Peers.kind (capturedEnd is_ingress x) ≠ .hostEP := by
      intro is_ingress hep
      exact hep_not_admitted made are hep (admits is_ingress (by simp [hep]))
    refine ⟨⟨captured false, captured true⟩, ?_⟩
    intro is_ingress
    by_cases ip : Peers.kind (capturedEnd is_ingress x) = .ipBlock
    · refine Or.inl fun doc _ applies => ?_
      obtain ⟨-, -, -, pod, -⟩ := applies
      cases pod.symm.trans ip
    · exact (admits_iff made are (known is_ingress) (captured is_ingress)
        (by cases is_ingress; exacts [captured true, captured false])).mp (admits is_ingress ip)
  · intro ⟨noHep, allows⟩ is_ingress _
    cases is_ingress with
    | true => exact (admits_iff made are (known true) noHep.2 noHep.1).mpr (allows true)
    | false => exact (admits_iff made are (known false) noHep.1 noHep.2).mpr (allows false)

/-- Resources with different titles make policies with different keys. -/
theorem k8sPolicies_distinct (cluster : Cluster parse_ip_block peer_container namespaces docs)
    (made : List.Forall₂ (Made parse_ip_block peer_container namespaces) docs parsed) :
    ((k8sPolicies parsed).map PoliciesContainer.key).Nodup := by
  have apart := forall₂_made_apart made cluster.distinct fun _ _ own => ⟨own.kind, own.name⟩
  unfold List.Nodup k8sPolicies
  rw [List.pairwise_map, List.pairwise_filterMap]
  refine apart.imp ?_
  intro res res' differ policy first policy' second same
  obtain ⟨p, rfl, rfl⟩ := Option.map_eq_some_iff.mp first
  obtain ⟨p', rfl, rfl⟩ := Option.map_eq_some_iff.mp second
  exact differ p rfl p' rfl (congrArg Prod.fst same)

variable {f : PolicyConnectionsFilter}

/-- A configuration of K8s network policies allows between peers that can be connected exactly what
Kubernetes makes of the resources of its policies, and nothing with host endpoints. -/
theorem kubernetes_semantics (cluster : Cluster parse_ip_block peer_container namespaces docs)
    (run : docs.mapM (parsePolicy unicode peer_container namespaces parse_ip_block) = .ok parsed)
    (asked : f.calc_all_allowed = true) (possible : Possible peer_container x) :
    x ∈ ((configOf peer_container (k8sPolicies parsed)).allowedConnections none f).all_allowed_conns ↔
      WithoutHep x ∧ KubernetesAllows P peer_container namespaces parse_ip_block docs x := by
  have made := parsed_made cluster run
  let config := configOf peer_container (k8sPolicies parsed)
  let policies_list := config.layerPolicies .K8s_Calico
  have all : ∀ policy ∈ k8sPolicies parsed, IsK8sCalico policy := by
    intro policy listed
    obtain ⟨p, -, rfl⟩ := mem_k8sPolicies.mp listed
    exact isK8sCalico_layer (.k8s p)
  have layers : config.policies_container.layers = [(.K8s_Calico, policies_list)] :=
    only_k8sCalico peer_container all
  have are : AreParsed policies_list parsed := by
    have placed : WellPlaced config.policies_container (k8sPolicies parsed) := appendAll_wellPlaced _
    intro policy
    show policy ∈ PoliciesContainer.layerPolicies _ _ ↔ _
    rw [placed.mem_layer_iff, placed.values_eq (k8sPolicies_distinct cluster made)]
    exact and_iff_left_of_imp (all policy)
  have handled : ¬ Unhandled config := by
    simp [Unhandled, layers, Dict.get]
  have everywhere : x ∈ config.allConnsPropsPerConfigPeers := by
    rw [NetworkConfig.allConnsPropsPerConfigPeers, CoreDS.mem_makeConnProps]
    simp [ConnectivityCube.Admits, config, configOf, possible.src_all, possible.dst]
  have one_layer : AllowedByAll config x ↔ layerAllows config .K8s_Calico policies_list x := by
    unfold AllowedByAll
    rw [layers]
    simp [handled, everywhere]
  rw [mem_all_allowed asked, and_iff_left fun _ => not_cut_of_k8s layers, one_layer]
  exact k8sLayer_allows made are possible

end Config

section OnePod

/-- Addresses may reach the pods of the namespace over port 80. -/
def webDocument : Yaml := .dict [("apiVersion", .str "networking.k8s.io/v1"), ("kind", .str "NetworkPolicy"),
  ("metadata", .dict [("name", .str "web")]),
  ("spec", .dict [("podSelector", .dict []), ("ingress", .list [.dict
    [("from", .list [.dict [("ipBlock", .dict [("cidr", .str "0.0.0.0/0")])]]),
      ("ports", .list [.dict [("port", .int 80)]])]])])]

def serviceDocument : Yaml := .dict [("apiVersion", .str "v1"), ("kind", .str "Service")]

/-- All addresses, as they are in the block of the resource. -/
def allAddresses (_ : Yaml) : Except ParseError (PeerSet PeerKind) := .ok {.ipBlock}

def noNamespaces : Namespaces := ⟨[], List.forall_mem_nil _⟩

theorem serviceDocument_kind : ¬ IsNetworkPolicy serviceDocument := by
  intro ⟨kind, _⟩
  have same : "Service" = "NetworkPolicy" := Yaml.str.inj kind
  exact absurd same (by decide)

theorem webDocuments_cluster : Cluster allAddresses onePod noNamespaces [webDocument, serviceDocument] where
  topology :=
    { no_ips := by decide
      outside := by decide
      blocks := by
        intro _ set same
        obtain rfl := Except.ok.inj same
        decide }
  regular := by
    intro doc listed kind is_ingress rule among peer entry noBlock
    simp only [List.mem_cons, List.not_mem_nil, or_false] at listed
    rcases listed with rfl | rfl
    · cases is_ingress with
      | true =>
        have rules : (webDocument.field "spec").field (rulesKey true) = .list [_] := rfl
        rw [rules] at among
        obtain rfl := List.mem_singleton.mp among
        obtain rfl := List.mem_singleton.mp entry
        cases noBlock
      | false => cases among
    · exact absurd kind serviceDocument_kind
  distinct := by
    refine List.pairwise_pair.mpr ?_
    exact fun _ kind => absurd kind serviceDocument_kind

theorem webDocuments_semantics : ∃ parsed : List (Option (K8sNetworkPolicy (FlowSet PeerKind (Fin 65535)))),
    [webDocument, serviceDocument].mapM (parsePolicy (fun _ => false) onePod noNamespaces allAddresses) =
      .ok parsed ∧
    ((⟨.ipBlock, .pod, tcp, 79⟩ : Flow PeerKind (Fin 65535)) ∈ ((configOf onePod (k8sPolicies parsed)).allowedConnections
      none .onlyAllAllowedConnections).all_allowed_conns ↔
      WithoutHep (⟨.ipBlock, .pod, tcp, 79⟩ : Flow PeerKind (Fin 65535)) ∧
        KubernetesAllows (FlowSet PeerKind (Fin 65535)) onePod noNamespaces allAddresses
          [webDocument, serviceDocument] ⟨.ipBlock, .pod, tcp, 79⟩) := by
  have run : ∃ parsed : List (Option (K8sNetworkPolicy (FlowSet PeerKind (Fin 65535)))),
      [webDocument, serviceDocument].mapM (parsePolicy (fun _ => false) onePod noNamespaces allAddresses) =
        .ok parsed := ⟨_, rfl⟩
  obtain ⟨parsed, run⟩ := run
  exact ⟨parsed, run, kubernetes_semantics webDocuments_cluster run rfl ⟨by decide, by decide, by decide⟩⟩

end OnePod
end Nca.NetworkConfig
