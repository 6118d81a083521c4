import Nca.NetworkConfig.IstioOrder
import Nca.NetworkConfig.KubernetesSemantics
import Nca.NetworkConfig.PoliciesFinder

/-!
Configurations of K8s network policies and Istio resources, from the resources to the connections. A
connection is allowed if Kubernetes allows it and, over TCP, the authorization policies and the Sidecars
do too. Sidecars are added last, so that they never keep policies that deny from coming first.
-/

namespace Nca.NetworkConfig
open CoreDS Lib Resources Parsers IstioPolicyYamlParser
open K8sPolicyYamlParser (IsNetworkPolicy documentName)

section Semantics

variable {P E κ : Type} [Fintype E] [DecidableEq E] [TopologyPeers E] [ConnectivityProperties P E κ]
  (self : Components P E) (peer_container : PeerContainer E) (docs : List Yaml) (action : ActionType)

/-- The resource is an authorization policy of the action for the peer. -/
def Guards (doc : Yaml) (e : E) : Prop :=
  IsAuthorizationPolicy doc ∧ (doc.field "spec").isNull = false ∧ actionOf (doc.field "spec") = action ∧
    SelectsWorkload peer_container doc e

/-- An authorization policy of the action for the destination matches the request. -/
def Decided (x : Flow E κ) : Prop :=
  ∃ doc ∈ docs, Guards peer_container action doc x.dst ∧ MatchesRequest self peer_container (doc.field "spec") x

/-- No policy denies the request; and if there are policies that allow something to its destination, one of
them allows the request. -/
def MeshAllows (x : Flow E κ) : Prop :=
  ¬ Decided self peer_container docs .Deny x ∧
    ((∀ doc ∈ docs, ¬ Guards peer_container .Allow doc x.dst) ∨ Decided self peer_container docs .Allow x)

end Semantics

section Layer

variable {P E κ : Type} [Fintype E] [DecidableEq E] [TopologyPeers E] [ConnectivityProperties P E κ]
  {components : Components P E} {docs : List Yaml} {parsed : List (Option (IstioNetworkPolicy P))}
  {policies_list : List (Policy P)} {self : NetworkConfig P} {x : Flow E κ} {action : ActionType} {e : E}

/-- No policy that denies matches the connection, and one that allows does if there is any for its
destination. -/
def IngressAllows (policies_list : List (Policy P)) (x : Flow E κ) : Prop :=
  (¬ ∃ policy ∈ policies_list, IsDeny policy ∧ Matches policy x) ∧
    ((¬ ∃ policy ∈ policies_list, IsAllow policy ∧ x.dst ∈ policy.base.selected_peers) ∨
      ∃ policy ∈ policies_list, IsAllow policy ∧ Matches policy x)

/-- The authorization policies are asked about TCP to pods. -/
theorem istioIngress_allows (istio : ∀ policy ∈ policies_list, IsIstio policy) (ordered : DenyFirst policies_list)
    (possible : Possible self.peer_container x) (dst : x.dst ∈ self.peer_container.getAllPeersGroup) :
    x ∈ (IstioNetworkLayer.allowedXgressConns policies_list true self.peer_container
        .onlyAllAllowedConnections).all_allowed_conns ↔ (x.protocol = tcp → IngressAllows policies_list x) := by
  obtain ⟨disjoint, verdict⟩ : (NetworkLayer.collectPoliciesConnsOptimized policies_list true
    IstioNetworkLayer.capturedCondFunc).decisions.Disjoint ∧ _ := NetworkLayer.collected_verdict
  have denied : x ∈ (NetworkLayer.collectPoliciesConnsOptimized policies_list true
      IstioNetworkLayer.capturedCondFunc).denied_conns ↔ ∃ policy ∈ policies_list, IsDeny policy ∧ Matches policy x := by
    rw [← (denyFirst_verdict istio ordered).1, ← verdict x, Decisions.verdict_deny disjoint]
    rfl
  have allowed : x ∈ (NetworkLayer.collectPoliciesConnsOptimized policies_list true
      IstioNetworkLayer.capturedCondFunc).allowed_conns ↔
      (¬ ∃ policy ∈ policies_list, IsDeny policy ∧ Matches policy x) ∧
        ∃ policy ∈ policies_list, IsAllow policy ∧ Matches policy x := by
    rw [← (denyFirst_verdict istio ordered).2, ← verdict x, Decisions.verdict_allow]
    rfl
  have known := PeerContainer.mem_group_ips.mpr (Or.inl dst)
  rw [mem_istio_ingress rfl]
  dsimp only
  rw [allowed, denied, mem_istio_captured istio]
  by_cases overTcp : x.protocol = tcp
  · rw [imp_iff_right overTcp]
    unfold IngressAllows
    refine Iff.trans (or_comm.trans (or_congr_left ⟨?_, ?_⟩)) and_or_left.symm
    · intro found
      rcases found with ⟨-, -, other⟩ | ⟨-, -, unguarded, undenied, -⟩
      · exact absurd overTcp other
      · exact ⟨undenied, unguarded⟩
    · intro ⟨undenied, unguarded⟩
      exact Or.inr ⟨⟨x.dst, dst, mt (mem_istio_captured istio).mp unguarded⟩, possible.src, unguarded, undenied,
        Or.inl dst⟩
  · exact iff_of_true (Or.inr (Or.inl ⟨possible.src, known, overTcp⟩)) fun same => absurd same overTcp

/-- The Sidecars are asked about TCP from pods. -/
theorem istioEgress_allows (istio : ∀ policy ∈ policies_list, IsIstio policy)
    (possible : Possible self.peer_container x) (pod : Peers.kind x.src ≠ .ipBlock)
    (dst : x.dst ∈ self.peer_container.getAllPeersGroup true) :
    x ∈ (IstioNetworkLayer.allowedXgressConns policies_list false self.peer_container
        .onlyAllAllowedConnections).all_allowed_conns ↔ (x.protocol = tcp → SidecarsAllow policies_list x) := by
  obtain ⟨disjoint, verdict⟩ : (NetworkLayer.collectPoliciesConnsOptimized policies_list false
    IstioNetworkLayer.capturedCondFunc).decisions.Disjoint ∧ _ := NetworkLayer.collected_verdict
  have allowed : x ∈ (NetworkLayer.collectPoliciesConnsOptimized policies_list false
      IstioNetworkLayer.capturedCondFunc).allowed_conns ↔ ∃ policy ∈ policies_list,
        SidecarCaptures policy x.src ∧ x ∈ (policy.syncProps false).allow := by
    rw [← (egress_verdict istio).2, ← verdict x, Decisions.verdict_allow]
    rfl
  have undenied : x ∉ (NetworkLayer.collectPoliciesConnsOptimized policies_list false
      IstioNetworkLayer.capturedCondFunc).denied_conns := fun denied =>
    (egress_verdict istio).1 ((verdict x).symm.trans ((Decisions.verdict_deny disjoint).mpr denied))
  rw [mem_istio_egress rfl]
  simp only [allowed, undenied, mem_sidecar_captured istio, possible.src, possible.src_pod pod, dst,
    not_false_eq_true, true_and, true_or, and_true, SidecarsAllow, not_exists, not_and, imp_iff_not_or]
  exact or_comm.trans or_assoc

/-- Where TCP does not lead to DNS entries, the Istio layer asks the authorization policies about it and
then the Sidecars; all else it lets through. -/
theorem istioLayer_allows (istio : ∀ policy ∈ policies_list, IsIstio policy) (ordered : DenyFirst policies_list)
    (possible : Possible self.peer_container x) (noDns : Peers.kind x.dst ≠ .dnsEntry) :
    layerAllows self .Istio policies_list x ↔ (x.protocol = tcp →
      (Peers.kind x.dst ≠ .ipBlock → IngressAllows policies_list x) ∧
      (Peers.kind x.src ≠ .ipBlock → SidecarsAllow policies_list x)) := by
  have group : Peers.kind x.dst ≠ .ipBlock → x.dst ∈ self.peer_container.getAllPeersGroup := fun pod =>
    PeerContainer.mem_group.mpr ⟨possible.dst_peer pod, noDns⟩
  have dst : x.dst ∈ self.peer_container.getAllPeersGroup true := by
    refine PeerContainer.mem_group_ips.mpr ?_
    by_cases ip : Peers.kind x.dst = .ipBlock
    · exact Or.inr ip
    · exact Or.inl (group ip)
  unfold layerAllows
  rw [mem_layer_possible possible rfl, imp_and]
  refine and_congr ?_ ?_
  · exact (imp_congr_right fun pod => istioIngress_allows istio ordered possible (group pod)).trans forall_comm
  · exact (imp_congr_right fun pod => istioEgress_allows istio possible pod dst).trans forall_comm

/-- The authorization policies of resources, next to them. -/
abbrev Authorized (components : Components P E) (peer_container : PeerContainer E) :
    Yaml → Option (IstioNetworkPolicy P) → Prop :=
  MadeOf IsAuthorizationPolicy (AuthorizationOf components peer_container)

variable {peer_container : PeerContainer E} {doc : Yaml} {policy : IstioNetworkPolicy P}

theorem guards_iff (own : AuthorizationOf components peer_container doc policy) :
    Guards peer_container action doc e ↔ policy.action = action ∧ e ∈ policy.selected_peers := by
  unfold Guards
  rw [and_iff_right own.kind]
  cases given : (doc.field "spec").isNull with
  | true =>
    rw [own.idle given]
    simp
  | false => rw [own.action given, own.selected given, and_iff_right rfl]

theorem decided_iff (own : AuthorizationOf components peer_container doc policy) (overTcp : x.protocol = tcp) :
    Guards peer_container action doc x.dst ∧ MatchesRequest components peer_container (doc.field "spec") x ↔
      policy.action = action ∧ Matches (.istio policy) x := by
  rw [guards_iff own, and_assoc]
  refine and_congr_right fun _ => ?_
  cases given : (doc.field "spec").isNull with
  | true =>
    have none := own.idle given
    refine iff_of_false (fun inside => ?_) fun matched => ?_
    · rw [none] at inside
      exact Finset.notMem_empty _ inside.1
    · have selected : x.dst ∈ policy.selected_peers := (matches_inside matched).1
      rw [none] at selected
      exact Finset.notMem_empty _ selected
  | false => exact (own.rules given x overTcp).symm

omit [Fintype E] [DecidableEq E] in
theorem exists_istio {q : Policy P → Prop} (are : ∀ p, .istio p ∈ policies_list ↔ some p ∈ parsed)
    (only : ∀ policy, q policy → ∃ p, policy = .istio p) :
    (∃ policy ∈ policies_list, q policy) ↔ ∃ p, some p ∈ parsed ∧ q (.istio p) := by
  refine ⟨?_, fun ⟨p, listed, found⟩ => ⟨_, (are p).mpr listed, found⟩⟩
  intro ⟨policy, listed, found⟩
  obtain ⟨p, rfl⟩ := only policy found
  exact ⟨p, (are p).mp listed, found⟩

omit [Fintype E] [DecidableEq E] in
theorem istio_of_action {policy : Policy P} (acts : IsDeny policy ∨ IsAllow policy) : ∃ p, policy = .istio p := by
  cases policy with
  | istio p => exact ⟨p, rfl⟩
  | _ => exact absurd acts (by simp [IsDeny, IsAllow])

/-- The authorization policies of the layer decide what their resources say. -/
theorem meshAllows_iff (made : List.Forall₂ (Authorized components peer_container) docs parsed)
    (are : ∀ p, .istio p ∈ policies_list ↔ some p ∈ parsed) (overTcp : x.protocol = tcp) :
    IngressAllows policies_list x ↔ MeshAllows components peer_container docs x := by
  have denied : (∃ policy ∈ policies_list, IsDeny policy ∧ Matches policy x) ↔
      Decided components peer_container docs .Deny x := by
    rw [exists_istio are fun _ found => istio_of_action (Or.inl found.1)]
    exact (forall₂_made made (fun _ wanted => wanted.1.1) fun _ _ own => decided_iff own overTcp).symm
  have allowed : (∃ policy ∈ policies_list, IsAllow policy ∧ Matches policy x) ↔
      Decided components peer_container docs .Allow x := by
    rw [exists_istio are fun _ found => istio_of_action (Or.inr found.1)]
    exact (forall₂_made made (fun _ wanted => wanted.1.1) fun _ _ own => decided_iff own overTcp).symm
  have guarded : (∃ policy ∈ policies_list, IsAllow policy ∧ x.dst ∈ policy.base.selected_peers) ↔
      ∃ doc ∈ docs, Guards peer_container .Allow doc x.dst := by
    rw [exists_istio are fun _ found => istio_of_action (Or.inr found.1)]
    exact (forall₂_made made (fun _ wanted => wanted.1) fun _ _ own => guards_iff own).symm
  unfold IngressAllows MeshAllows
  rw [denied, allowed, guarded]
  simp only [not_exists, not_and]

end Layer

section Containers

variable {P E κ : Type} [Fintype E] [DecidableEq E] [Peers E] [ConnectivityProperties P E κ]
  {appended policies late : List (Policy P)} {peer_container : PeerContainer E} {policy : Policy P} {x : Flow E κ}

omit [Fintype E] [DecidableEq E] in
/-- A policy is kept if no other one has its name and kind. -/
theorem stored_of_only (listed : policy ∈ appended)
    (only : ∀ other ∈ appended, PoliciesContainer.key other = PoliciesContainer.key policy → other = policy) :
    policy ∈ (configOf peer_container appended).policies_container.policies.map Prod.snd := by
  have placed : WellPlaced (configOf peer_container appended).policies_container appended := appendAll_wellPlaced _
  obtain ⟨entry, stored, same⟩ := List.mem_map.mp (placed.complete policy listed)
  have among := List.mem_map_of_mem (f := Prod.snd) stored
  rw [placed.keys entry stored] at same
  rwa [only _ (placed.inOrder.subset among) same] at among

omit [Fintype E] [DecidableEq E] in
theorem plain_ordered (plain : ∀ policy ∈ policies, ¬ IsSidecar policy) :
    Ordered (configOf peer_container policies) := by
  induction policies using List.reverseRecOn with
  | nil => exact empty_ordered peer_container
  | append_singleton policies policy ih =>
    obtain ⟨others, -⟩ := List.forall_mem_append.mp plain
    have last : configOf peer_container (policies ++ [policy]) =
        (configOf peer_container policies).appendPolicyToConfig policy := by
      simp [configOf, NetworkConfig.appendPolicyToConfig]
    rw [last]
    refine append_ordered (ih others) fun _ _ late => ?_
    -- a late Sidecar would be among the policies
    obtain ⟨i, -, ⟨q, found, sidecar⟩, -⟩ := late
    have placed : WellPlaced (configOf peer_container policies).policies_container policies := appendAll_wellPlaced _
    have stored := (placed.mem_layer_iff.mp (List.mem_of_getElem? found)).1
    exact others q (placed.inOrder.subset stored) sidecar

omit [Fintype E] [DecidableEq E] in
/-- Sidecars that are added last leave the policies that deny before those that allow. -/
theorem lateSidecars_ordered (plain : ∀ policy ∈ policies, ¬ IsSidecar policy)
    (sidecars : ∀ policy ∈ late, IsSidecar policy) : Ordered (configOf peer_container (policies ++ late)) := by
  induction late using List.reverseRecOn with
  | nil =>
    rw [List.append_nil]
    exact plain_ordered plain
  | append_singleton late policy ih =>
    obtain ⟨others, own⟩ := List.forall_mem_append.mp sidecars
    have last : configOf peer_container (policies ++ (late ++ [policy])) =
        (configOf peer_container (policies ++ late)).appendPolicyToConfig policy := by
      simp [configOf, NetworkConfig.appendPolicyToConfig]
    rw [last]
    refine append_ordered (ih others) fun deny _ _ => ?_
    have sidecar := List.forall_mem_singleton.mp own
    cases policy with
    | sidecar p => exact deny
    | _ => exact sidecar

theorem some_hep (possible : Possible peer_container x) (hep : ¬ WithoutHep x) :
    ∃ e ∈ peer_container.peer_set, Peers.kind e = .hostEP := by
  by_cases src : Peers.kind x.src = .hostEP
  · exact ⟨x.src, (PeerContainer.mem_group.mp (possible.src_pod (by simp [src]))).1, src⟩
  · have dst : Peers.kind x.dst = .hostEP := by_contra fun noHep => hep ⟨src, noHep⟩
    exact ⟨x.dst, possible.dst_peer (by simp [dst]), dst⟩

/-- Where there are only the K8s_Calico and the Istio layer, both are asked, or would allow everything
without host endpoints. -/
theorem two_layers (kinds : ∀ policy ∈ appended, IsK8sCalico policy ∨ IsIstio policy)
    (possible : Possible peer_container x) (noDns : Peers.kind x.dst ≠ .dnsEntry) :
    AllowedByAll (configOf peer_container appended) x ↔
      layerAllows (configOf peer_container appended) .K8s_Calico
        ((configOf peer_container appended).layerPolicies .K8s_Calico) x ∧
      layerAllows (configOf peer_container appended) .Istio
        ((configOf peer_container appended).layerPolicies .Istio) x := by
  let config : NetworkConfig P := configOf peer_container appended
  have placed : WellPlaced config.policies_container appended := appendAll_wellPlaced _
  have own : ∀ entry ∈ config.policies_container.layers, entry.1 = .K8s_Calico ∨ entry.1 = .Istio := by
    intro entry listed
    cases placed.occupied with
    | inl empty =>
      rw [empty.2, List.mem_singleton] at listed
      exact Or.inl (listed ▸ rfl)
    | inr occupied =>
      obtain ⟨policy, member⟩ := List.exists_mem_of_ne_nil _ (occupied entry listed)
      have belongs := placed.own entry listed policy member
      have stored := placed.once.mem_iff.mp (List.mem_flatMap.mpr ⟨entry, listed, member⟩)
      exact (kinds policy (placed.inOrder.subset stored)).imp
        (fun k8s => (Option.some.inj (k8s.symm.trans belongs)).symm)
        fun istio => (Option.some.inj (istio.symm.trans belongs)).symm
  have silent : ∀ layer, (IstioLike layer → (layerAllows config layer [] x ↔ DnsOverTcp x)) ∧
      (¬ IstioLike layer → (layerAllows config layer [] x ↔ WithoutHep x)) := fun layer =>
    layer_silent possible (List.forall_mem_nil _) (List.forall_mem_nil _)
  have k8sEmpty : layerAllows config .K8s_Calico [] x ↔ WithoutHep x := (silent _).2 (by simp [IstioLike])
  have istioEmpty : layerAllows config .Istio [] x :=
    ((silent _).1 (by simp [IstioLike])).mpr fun dns => absurd dns noDns
  have each : (∀ entry ∈ config.policies_container.layers, layerAllows config entry.1 entry.2 x) ↔
      (∀ policies_list, Dict.get config.policies_container.layers .K8s_Calico = some policies_list →
        layerAllows config .K8s_Calico policies_list x) ∧
      ∀ policies_list, Dict.get config.policies_container.layers .Istio = some policies_list →
        layerAllows config .Istio policies_list x := by
    refine ⟨fun all => ⟨fun _ found => all _ (Dict.get_mem found), fun _ found => all _ (Dict.get_mem found)⟩, ?_⟩
    intro both entry listed
    have found := Dict.get_of_mem placed.oneLayer listed
    cases own _ listed with
    | inl calico => exact calico ▸ both.1 entry.2 (calico ▸ found)
    | inr mesh => exact mesh ▸ both.2 entry.2 (mesh ▸ found)
  have everywhere : x ∈ config.allConnsPropsPerConfigPeers := by
    rw [NetworkConfig.allConnsPropsPerConfigPeers, CoreDS.mem_makeConnProps]
    simp [ConnectivityCube.Admits, config, configOf, possible.src_all, possible.dst]
  have k8s : (Unhandled config → layerAllows config .K8s_Calico [] x) ∧
      (∀ policies_list, Dict.get config.policies_container.layers .K8s_Calico = some policies_list →
        layerAllows config .K8s_Calico policies_list x) ↔
      layerAllows config .K8s_Calico (config.layerPolicies .K8s_Calico) x := by
    unfold NetworkConfig.layerPolicies PoliciesContainer.layerPolicies
    cases found : Dict.get config.policies_container.layers .K8s_Calico with
    | some policies_list => simp [Unhandled, found]
    | none =>
      refine ⟨fun both => ?_, fun empty => ⟨fun _ => empty, by simp⟩⟩
      refine k8sEmpty.mpr (by_contra fun hep => hep (k8sEmpty.mp (both.1 ⟨?_, by simp [found]⟩)))
      exact some_hep possible hep
  have istio : (∀ policies_list, Dict.get config.policies_container.layers .Istio = some policies_list →
        layerAllows config .Istio policies_list x) ↔
      layerAllows config .Istio (config.layerPolicies .Istio) x := by
    unfold NetworkConfig.layerPolicies PoliciesContainer.layerPolicies
    cases Dict.get config.policies_container.layers .Istio with
    | some policies_list => simp
    | none => exact iff_of_true (by simp) istioEmpty
  show AllowedByAll config x ↔ _
  unfold AllowedByAll
  rw [each, and_iff_right fun _ => everywhere, ← and_assoc, k8s, istio]

end Containers

section Types

variable {doc : Yaml}

theorem type_k8s (kind : IsNetworkPolicy doc) : getPolicyTypeFromDict doc = .K8sNetworkPolicy := by
  unfold getPolicyTypeFromDict
  obtain ⟨kind, version⟩ := kind
  rw [kind]
  rcases version with version | version
  · rw [version]
    decide
  · rw [version]
    decide

theorem type_istio (kind : IsAuthorizationPolicy doc) : getPolicyTypeFromDict doc = .IstioAuthorizationPolicy := by
  unfold getPolicyTypeFromDict
  obtain ⟨kind, version⟩ := kind
  rw [kind]
  rcases version with version | version
  · rw [version]
    decide
  · rw [version]
    decide

end Types

section Found

variable {P E κ : Type} [Fintype E] [DecidableEq E] [TopologyPeers E] [NamedPorts E] [PortProperties P E κ]
  {context : ParsingContext P E} {others : OtherParsers P} {code : List Yaml} {container : PoliciesContainer P}
  {results : List (Option (Policy P))} {late : List (Policy P)} {x : Flow E κ} {f : PolicyConnectionsFilter}

def k8sResult : Option (Policy P) → Option (K8sNetworkPolicy P)
  | some (.k8s policy) => some policy
  | _ => none

def istioResult : Option (Policy P) → Option (IstioNetworkPolicy P)
  | some (.istio policy) => some policy
  | _ => none

def meshTitle (doc : Yaml) : String := meshNamespace doc ++ "/" ++ documentName doc

/-- Files with network policies, authorization policies and Sidecars only. -/
structure PlainMesh (context : ParsingContext P E) (others : OtherParsers P) (code : List Yaml) : Prop where
  cluster : Cluster context.parse_ip_block context.peer_container context.namespaces (allResources code)
  apart : (allResources code).Pairwise fun doc doc' => IsAuthorizationPolicy doc → IsAuthorizationPolicy doc' →
    meshTitle doc ≠ meshTitle doc'
  types : ∀ doc ∈ allResources code, getPolicyTypeFromDict doc = .K8sNetworkPolicy ∨
    getPolicyTypeFromDict doc = .IstioAuthorizationPolicy ∨ getPolicyTypeFromDict doc = .IstioSidecar
  sidecars : ∀ entries made, (∀ entry ∈ entries, entry.2 = .IstioSidecar) → others.late_policies entries = .ok made →
    ∀ policy ∈ made, IsSidecar policy

/-- What becomes of a resource of such files. -/
structure FoundFor (context : ParsingContext P E) (doc : Yaml) (result : Option (Policy P)) : Prop where
  k8s : Made context.parse_ip_block context.peer_container context.namespaces doc (k8sResult result)
  istio : Authorized context.components context.peer_container doc (istioResult result)
  kinds : ∀ policy, result = some policy → (∃ p, policy = .k8s p) ∨ ∃ p, policy = .istio p

theorem foundFor_typed (mesh : PlainMesh context others code) {doc : Yaml} (listed : doc ∈ allResources code)
    {result : Option (Policy P)} (parsed : parsedPolicy context others (typed doc) = .ok result) :
    FoundFor context doc result := by
  have noK8s : getPolicyTypeFromDict doc ≠ .K8sNetworkPolicy → ¬ IsNetworkPolicy doc := mt type_k8s
  have noIstio : getPolicyTypeFromDict doc ≠ .IstioAuthorizationPolicy → ¬ IsAuthorizationPolicy doc := mt type_istio
  unfold parsedPolicy typed at parsed
  rcases mesh.types doc listed with type | type | type
  · simp only [type] at parsed noIstio
    obtain ⟨policy, read, rfl⟩ := map_ok.mp parsed
    have own := K8sPolicyYamlParser.parsePolicy_ok mesh.cluster.topology (mesh.cluster.regular doc listed) read
    have same : k8sResult (policy.map Policy.k8s) = policy := by cases policy <;> rfl
    have none : istioResult (policy.map Policy.k8s) = none := by cases policy <;> rfl
    refine ⟨?_, ?_, ?_⟩
    · rwa [same]
    · rw [none]
      exact ⟨fun _ => noIstio (by decide), nofun⟩
    · intro p equal
      obtain ⟨q, -, rfl⟩ := Option.map_eq_some_iff.mp equal
      exact Or.inl ⟨q, rfl⟩
  · simp only [type] at parsed noK8s
    obtain ⟨policy, read, rfl⟩ := map_ok.mp parsed
    have own := IstioPolicyYamlParser.parsePolicy_ok read
    have same : istioResult (policy.map Policy.istio) = policy := by cases policy <;> rfl
    have none : k8sResult (policy.map Policy.istio) = none := by cases policy <;> rfl
    refine ⟨?_, ?_, ?_⟩
    · rw [none]
      exact ⟨fun _ => noK8s (by decide), nofun⟩
    · rwa [same]
    · intro p equal
      obtain ⟨q, -, rfl⟩ := Option.map_eq_some_iff.mp equal
      exact Or.inr ⟨q, rfl⟩
  · simp only [type] at parsed noK8s noIstio
    obtain rfl := Except.ok.inj parsed
    exact ⟨⟨fun _ => noK8s (by decide), nofun⟩, ⟨fun _ => noIstio (by decide), nofun⟩, nofun⟩

/-- The policies of such files, in the order in which they are added. -/
structure Found (context : ParsingContext P E) (others : OtherParsers P) (code : List Yaml)
    (container : PoliciesContainer P) (results : List (Option (Policy P))) (late : List (Policy P)) : Prop where
  aligned : List.Forall₂ (FoundFor context) (allResources code) results
  sidecars : ∀ policy ∈ late, IsSidecar policy
  container : container = (results.filterMap id ++ late).foldl PoliciesContainer.appendPolicy .init

theorem findPolicies_found (mesh : PlainMesh context others code)
    (run : findPolicies context others code = .ok container) : ∃ results late, Found context others code container
      results late := by
  obtain ⟨results, late, parsed, made, same⟩ := findPolicies_ok run
  have noProfile : ∀ doc ∈ allResources code, isProfile doc = false := by
    intro doc listed
    rcases mesh.types doc listed with type | type | type <;> simp [isProfile, type]
  have queue : (allResources code).foldl enqueue [] = (allResources code).map typed := by
    rw [enqueue_all, List.filter_eq_nil_iff.mpr fun doc listed => Bool.not_eq_true _ ▸ noProfile doc listed,
      List.filter_eq_self.mpr fun doc listed => by simp [noProfile doc listed]]
    simp
  rw [queue] at parsed made
  rw [List.forall₂_map_left_iff] at parsed
  refine ⟨results, late, ?_, ?_, same⟩
  · apply (forall₂_members parsed).imp
    exact fun doc result read => foundFor_typed mesh read.1 read.2
  · refine mesh.sidecars _ late ?_ made
    intro entry listed
    obtain ⟨listed, late⟩ := List.mem_filter.mp listed
    obtain ⟨doc, among, rfl⟩ := List.mem_map.mp listed
    rcases mesh.types doc among with type | type | type
    · simp [typed, type, isLate] at late
    · simp [typed, type, isLate] at late
    · exact type

variable (found : Found context others code container results late)
include found

theorem Found.config : (⟨context.peer_container, container⟩ : NetworkConfig P) =
    configOf context.peer_container (results.filterMap id ++ late) := by
  rw [found.container]
  rfl

theorem Found.result {policy : Policy P} (listed : policy ∈ results.filterMap id) :
    some policy ∈ results ∧ ((∃ p, policy = .k8s p) ∨ ∃ p, policy = .istio p) := by
  have among : some policy ∈ results := by simpa using listed
  obtain ⟨doc, -, own⟩ := forall₂_source found.aligned among
  exact ⟨among, own.kinds policy rfl⟩

theorem Found.k8s_iff {p : K8sNetworkPolicy P} :
    .k8s p ∈ results.filterMap id ++ late ↔ some p ∈ results.map k8sResult := by
  rw [List.mem_append, List.mem_map]
  refine ⟨?_, ?_⟩
  · intro listed
    cases listed with
    | inl listed => exact ⟨_, (found.result listed).1, rfl⟩
    | inr listed => exact (found.sidecars _ listed).elim
  · intro ⟨result, listed, same⟩
    unfold k8sResult at same
    split at same
    · obtain rfl := Option.some.inj same
      exact Or.inl (by simpa using listed)
    · cases same

theorem Found.istio_iff {p : IstioNetworkPolicy P} :
    .istio p ∈ results.filterMap id ++ late ↔ some p ∈ results.map istioResult := by
  rw [List.mem_append, List.mem_map]
  refine ⟨?_, ?_⟩
  · intro listed
    cases listed with
    | inl listed => exact ⟨_, (found.result listed).1, rfl⟩
    | inr listed => exact (found.sidecars _ listed).elim
  · intro ⟨result, listed, same⟩
    unfold istioResult at same
    split at same
    · obtain rfl := Option.some.inj same
      exact Or.inl (by simpa using listed)
    · cases same

theorem Found.kinds : ∀ policy ∈ results.filterMap id ++ late, IsK8sCalico policy ∨ IsIstio policy := by
  intro policy listed
  cases List.mem_append.mp listed with
  | inl listed =>
    rcases (found.result listed).2 with ⟨p, rfl⟩ | ⟨p, rfl⟩
    · exact Or.inl (isK8sCalico_layer (.k8s p))
    · exact Or.inr (by simp [IsIstio, Policy.base, p.kind, NetworkLayerName.policyTypeToLayer])
  | inr listed =>
    have sidecar := found.sidecars policy listed
    cases policy with
    | sidecar p => exact Or.inr (by simp [IsIstio, Policy.base, p.kind, NetworkLayerName.policyTypeToLayer])
    | _ => exact sidecar.elim

/-- The K8s_Calico layer holds the policies of the network policies. -/
theorem Found.k8sLayer (mesh : PlainMesh context others code) :
    AreParsed ((configOf context.peer_container (results.filterMap id ++ late)).layerPolicies .K8s_Calico)
      (results.map k8sResult) := by
  have placed : WellPlaced (configOf context.peer_container (results.filterMap id ++ late)).policies_container
    (results.filterMap id ++ late) := appendAll_wellPlaced _
  have made : List.Forall₂ (Made context.parse_ip_block context.peer_container context.namespaces)
      (allResources code) (results.map k8sResult) :=
    List.forall₂_map_right_iff.mpr (found.aligned.imp fun _ _ own => own.k8s)
  have apart := forall₂_made_apart made mesh.cluster.distinct fun _ _ own => ⟨own.kind, own.name⟩
  intro policy
  rw [mem_k8sPolicies]
  show policy ∈ PoliciesContainer.layerPolicies _ _ ↔ _
  rw [placed.mem_layer_iff]
  refine ⟨?_, ?_⟩
  · intro ⟨stored, layer⟩
    have listed := placed.inOrder.subset stored
    obtain ⟨p, rfl⟩ | ⟨p, rfl⟩ := k8sCalico_cases layer
    · exact ⟨p, found.k8s_iff.mp listed, rfl⟩
    · cases List.mem_append.mp listed with
      | inl listed => rcases (found.result listed).2 with ⟨_, same⟩ | ⟨_, same⟩ <;> cases same
      | inr listed => exact (found.sidecars _ listed).elim
  · intro ⟨p, listed, same⟩
    subst same
    refine ⟨stored_of_only (found.k8s_iff.mpr listed) ?_, isK8sCalico_layer (.k8s p)⟩
    intro other among key
    obtain ⟨name, kind⟩ := Prod.mk.inj key
    have layer : IsK8sCalico other := by
      unfold IsK8sCalico
      rw [kind]
      exact isK8sCalico_layer (.k8s p)
    obtain ⟨q, rfl⟩ | ⟨q, rfl⟩ := k8sCalico_cases layer
    · rw [made_of_name apart (found.k8s_iff.mp among) listed name]
    · have calico := q.kind
      rw [show q.policy_kind = p.policy_kind from kind, p.kind] at calico
      simp at calico

/-- The Istio layer holds the policies of the authorization policies, and Sidecars. -/
theorem Found.istioLayer (mesh : PlainMesh context others code) (p : IstioNetworkPolicy P) :
    .istio p ∈ (configOf context.peer_container (results.filterMap id ++ late)).layerPolicies .Istio ↔
      some p ∈ results.map istioResult := by
  have placed : WellPlaced (configOf context.peer_container (results.filterMap id ++ late)).policies_container
    (results.filterMap id ++ late) := appendAll_wellPlaced _
  have made : List.Forall₂ (Authorized context.components context.peer_container)
      (allResources code) (results.map istioResult) :=
    List.forall₂_map_right_iff.mpr (found.aligned.imp fun _ _ own => own.istio)
  have apart := forall₂_made_apart made mesh.apart fun _ _ own => ⟨own.kind, own.name⟩
  have layer : IsIstio (.istio p) := by simp [IsIstio, Policy.base, p.kind, NetworkLayerName.policyTypeToLayer]
  show _ ∈ PoliciesContainer.layerPolicies _ _ ↔ _
  rw [placed.mem_layer_iff, ← found.istio_iff]
  refine ⟨fun stored => placed.inOrder.subset stored.1, fun listed => ⟨stored_of_only listed ?_, layer⟩⟩
  intro other among key
  obtain ⟨name, kind⟩ := Prod.mk.inj key
  have mesh : IsIstio other := by
    unfold IsIstio
    rw [kind]
    exact layer
  obtain ⟨q, rfl⟩ | ⟨q, rfl⟩ := istio_cases mesh
  · rw [made_of_name apart (found.istio_iff.mp among) (found.istio_iff.mp listed) name]
  · cases q.kind.symm.trans (kind.trans p.kind)

omit found [NamedPorts E] in
/-- IP addresses are not workloads. -/
theorem meshAllows_ip (topology : K8sPolicyYamlParser.Topology context.peer_container context.parse_ip_block)
    (ip : Peers.kind x.dst = .ipBlock) (docs : List Yaml) :
    MeshAllows context.components context.peer_container docs x := by
  have unguarded : ∀ action doc, ¬ Guards context.peer_container action doc x.dst :=
    fun _ _ ⟨_, _, _, known, _⟩ => topology.no_ips _ known ip
  exact ⟨fun ⟨doc, _, guards, _⟩ => unguarded .Deny doc guards, Or.inl fun doc _ => unguarded .Allow doc⟩

end Found

section OnePod

/-- Nobody may reach the pods of the namespace. -/
def guardDocument : Yaml := .dict [("apiVersion", .str "security.istio.io/v1"), ("kind", .str "AuthorizationPolicy"),
  ("metadata", .dict [("name", .str "guard")]),
  ("spec", .dict [("action", .str "DENY"), ("rules", .list [.dict []])])]

def sidecarDocument : Yaml := .dict [("apiVersion", .str "networking.istio.io/v1"), ("kind", .str "Sidecar")]

/-- A list of resources, and a Sidecar. -/
def meshFiles : List Yaml := [.dict [("apiVersion", .str "v1"), ("kind", .str "List"),
  ("items", .list [webDocument, guardDocument, serviceDocument])], sidecarDocument]

/-- A Sidecar that lets nothing out of the pod. -/
def silentSidecar : Policy (FlowSet PeerKind (Fin 65535)) :=
  .sidecar
    { name := "sidecar"
      policy_namespace := some "default"
      selected_peers := {.pod}
      affects_ingress := false
      affects_egress := true
      policy_kind := .IstioSidecar
      default_sidecar := true
      egress_rules := []
      kind := rfl
      egress_inside := List.forall_mem_nil _ }

def onePodContext : ParsingContext (FlowSet PeerKind (Fin 65535)) PeerKind where
  unicode _ := false
  peer_container := onePod
  namespaces := noNamespaces
  parse_ip_block := allAddresses
  components :=
    { parse_ip_block := fun _ _ => .ok ∅
      parse_namespaces := fun _ _ => .ok {.pod}
      parse_principals := fun _ _ => .ok {.pod}
      parse_port_props := fun _ _ => .ok ∅
      parse_operation := fun _ => .ok ∅ }

def sidecarParsers : OtherParsers (FlowSet PeerKind (Fin 65535)) where
  parse_policy _ _ := .ok none
  late_policies entries := .ok (entries.map fun _ => silentSidecar)

theorem meshFiles_plain : PlainMesh onePodContext sidecarParsers meshFiles := by
  have listed : allResources meshFiles = [webDocument, guardDocument, sidecarDocument] := rfl
  have guard : ¬ IsNetworkPolicy guardDocument := fun policy => absurd (type_k8s policy) (by decide)
  have sidecar : ¬ IsNetworkPolicy sidecarDocument := fun policy => absurd (type_k8s policy) (by decide)
  have web : ¬ IsAuthorizationPolicy webDocument := fun policy => absurd (type_istio policy) (by decide)
  have sidecar' : ¬ IsAuthorizationPolicy sidecarDocument := fun policy => absurd (type_istio policy) (by decide)
  refine ⟨⟨webDocuments_cluster.topology, ?_, ?_⟩, ?_, ?_, ?_⟩
  · rw [listed]
    intro doc among kind
    simp only [List.mem_cons, List.not_mem_nil, or_false] at among
    rcases among with rfl | rfl | rfl
    · exact webDocuments_cluster.regular _ List.mem_cons_self kind
    · exact absurd kind guard
    · exact absurd kind sidecar
  · rw [listed]
    simp [guard, sidecar]
  · rw [listed]
    simp [web, sidecar']
  · rw [listed]
    decide
  · intro entries made _ same policy among
    obtain rfl := Except.ok.inj same
    obtain ⟨_, _, rfl⟩ := List.mem_map.mp among
    exact trivial

/-- An address reaches the pod over port 80. -/
def visit : Flow PeerKind (Fin 65535) := ⟨.ipBlock, .pod, tcp, 79⟩

end OnePod
end Nca.NetworkConfig
