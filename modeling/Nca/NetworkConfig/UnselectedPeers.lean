import Nca.NetworkConfig.FilterIndependence
import Nca.NetworkConfig.PolicyInsertion

/-!
Peers that no policy selects. What a configuration allows between two of them depends only on their
kinds and on whether one of its layers is an Istio layer, which cuts them off from DNS entries but
for TCP.
-/

namespace Nca.NetworkConfig
open CoreDS Lib Resources

variable {P E κ : Type} [Fintype E] [DecidableEq E] [Peers E] [ConnectivityProperties P E κ]
  {policies_list : List (Policy P)} {is_ingress : Bool} {peer_container : PeerContainer E}
  {f : PolicyConnectionsFilter} {x : Flow E κ}

/-- The rules concern only the peers that the policy selects; parsed gateway policies keep to this
too. -/
def Selective : Policy P → Prop
  | .gateway policy => ∀ is_ingress, ∀ rule ∈ policy.rules is_ingress,
      Inside policy.selected_peers is_ingress rule.props
  | _ => True

/-- No policy of the list selects the peer. -/
def Silent (policies_list : List (Policy P)) (e : E) : Prop :=
  ∀ policy ∈ policies_list, Selective policy ∧ e ∉ policy.base.selected_peers

section Policies

omit [DecidableEq E] in
theorem captured_selected {policy : Policy P} {e : E} (captured : e ∈ policy.captured is_ingress) :
    e ∈ policy.base.selected_peers := by
  have guarded : ∀ (c : Bool) (selected : PeerSet E), e ∈ (if c then selected else ∅) →
      e ∈ selected := by
    intro c selected
    cases c <;> simp
  cases policy with
  | k8s p | calico p | gateway p => exact guarded _ _ captured
  | istio p => exact guarded is_ingress _ captured
  | sidecar p =>
    cases is_ingress with
    | true => simp [Policy.captured, Policy.allowedConnections, IstioSidecar.allowedConnections,
        connectionsOf] at captured
    | false => exact guarded p.affects_egress _ captured

omit [Fintype E] [DecidableEq E] [Peers E] in
theorem unionProps_inside {R : Type} {props : R → P} {rules : List R} {selected : PeerSet E}
    (inside : ∀ rule ∈ rules, Inside selected is_ingress (props rule))
    (member : x ∈ unionProps props rules) : capturedEnd is_ingress x ∈ selected := by
  obtain ⟨rule, among, matched⟩ := mem_unionProps.mp member
  exact inside rule among x matched

theorem verdictOn_inside {policy : Policy P} (selective : Selective policy) {v : Verdict}
    (decided : policy.verdictOn is_ingress x = some v) :
    capturedEnd is_ingress x ∈ policy.base.selected_peers := by
  have asked : policy.captured is_ingress ≠ ∅ := by
    intro idle
    simp [Policy.verdictOn, idle] at decided
  rw [Policy.verdictOn, if_pos asked] at decided
  have mentioned : x ∈ (policy.syncProps is_ingress).allow ∨
      x ∈ (policy.syncProps is_ingress).deny ∨ x ∈ (policy.syncProps is_ingress).pass := by
    by_contra silent
    simp only [not_or] at silent
    rw [Decisions.verdict_eq_none.mpr silent] at decided
    cases decided
  cases policy with
  | k8s p => exact k8sCalico_inside (by simp [IsK8sCalico, Policy.base, p.kind,
      NetworkLayerName.policyTypeToLayer]) decided
  | calico p =>
    refine k8sCalico_inside ?_ decided
    have kind := p.kind
    simp only [List.mem_cons, List.not_mem_nil, or_false] at kind
    rcases kind with kind | kind | kind <;>
      simp [IsK8sCalico, Policy.base, kind, NetworkLayerName.policyTypeToLayer]
  | istio p =>
    cases is_ingress with
    | true =>
      refine unionProps_inside p.ingress_inside ?_
      simp only [Policy.syncProps, IstioNetworkPolicy.syncProps, if_true] at mentioned
      cases action : p.action <;> simpa [action] using mentioned
    | false => simp [Policy.syncProps, IstioNetworkPolicy.syncProps, Decisions.none] at mentioned
  | sidecar p =>
    cases is_ingress with
    | true => exact (asked rfl).elim
    | false =>
      refine unionProps_inside p.egress_inside ?_
      simpa [Policy.syncProps, IstioSidecar.syncProps] using mentioned
  | gateway p =>
    refine unionProps_inside (selective is_ingress) ?_
    simp only [Policy.syncProps, GatewayPolicy.syncProps] at mentioned
    cases action : p.action <;> simpa [action] using mentioned

theorem silent_uncaptured {captured_func : Policy P → Bool} {e : E}
    (silent : Silent policies_list e) : e ∉ (NetworkLayer.collectPoliciesConnsOptimized policies_list
      is_ingress captured_func).captured := by
  intro captured
  obtain ⟨policy, member, _, captured⟩ := NetworkLayer.mem_collected_captured.mp captured
  exact (silent policy member).2 (captured_selected captured)

theorem collected_silent (is_ingress : Bool) (captured_func : Policy P → Bool)
    (silent : Silent policies_list (capturedEnd is_ingress x)) :
    let collected := NetworkLayer.collectPoliciesConnsOptimized policies_list is_ingress captured_func
    x ∉ collected.allowed_conns ∧ x ∉ collected.denied_conns ∧ x ∉ collected.pass_conns := by
  intro collected
  obtain ⟨_, verdict⟩ : collected.decisions.Disjoint ∧ ∀ x : Flow E κ,
      collected.decisions.verdict x = policies_list.findSome? (Policy.verdictOn · is_ingress x) :=
    NetworkLayer.collected_verdict
  have none : policies_list.findSome? (Policy.verdictOn · is_ingress x) = none := by
    refine List.findSome?_eq_none_iff.mpr fun policy member => ?_
    cases decided : policy.verdictOn is_ingress x with
    | none => rfl
    | some v => exact ((silent policy member).2
        (verdictOn_inside (silent policy member).1 decided)).elim
  exact Decisions.verdict_eq_none.mp ((verdict x).trans none)

end Policies

section Layer

/-- A connection between peers of the configuration or IP addresses, of a kind that is not never
allowed. -/
structure Possible (peer_container : PeerContainer E) (x : Flow E κ) : Prop where
  src : x.src ∈ peer_container.getAllPeersGroup true
  dst : x.dst ∈ peer_container.getAllPeersGroup true true
  kinds : Peers.kind x.src = .ipBlock → Peers.kind x.dst ≠ .ipBlock ∧ Peers.kind x.dst ≠ .dnsEntry

variable (possible : Possible peer_container x)
include possible

theorem Possible.src_pod : Peers.kind x.src ≠ .ipBlock → x.src ∈ peer_container.getAllPeersGroup :=
  fun inside => (PeerContainer.mem_group_ips.mp possible.src).resolve_right inside

theorem Possible.dst_peer : Peers.kind x.dst ≠ .ipBlock → x.dst ∈ peer_container.peer_set :=
  fun inside => (PeerContainer.mem_group_all.mp possible.dst).resolve_right inside

theorem Possible.src_all : x.src ∈ peer_container.getAllPeersGroup true true := by
  rw [PeerContainer.mem_group_all]
  rcases PeerContainer.mem_group_ips.mp possible.src with inside | ip
  · exact Or.inl (PeerContainer.mem_group.mp inside).1
  · exact Or.inr ip

/-- Both sides of a layer: IP addresses are not subject to policies. -/
theorem mem_layer_possible {layer : NetworkLayerName} (asked : f.calc_all_allowed = true) :
    x ∈ (NetworkLayer.allowedConnections layer policies_list peer_container f).all_allowed_conns ↔
      (Peers.kind x.dst ≠ .ipBlock → x ∈ (NetworkLayer.allowedXgressConns layer policies_list true
        peer_container f).all_allowed_conns) ∧
      (Peers.kind x.src ≠ .ipBlock → x ∈ (NetworkLayer.allowedXgressConns layer policies_list false
        peer_container f).all_allowed_conns) := by
  have toIp : Peers.kind x.dst = .ipBlock → x.src ∈ peer_container.getAllPeersGroup :=
    fun ip => possible.src_pod fun src => (possible.kinds src).1 ip
  have fromIp : Peers.kind x.src = .ipBlock → x.dst ∈ peer_container.getAllPeersGroup := by
    intro ip
    obtain ⟨inside, noDns⟩ := possible.kinds ip
    exact PeerContainer.mem_group.mpr ⟨possible.dst_peer inside, noDns⟩
  rw [NetworkLayer.mem_layer_all asked]
  by_cases dst : Peers.kind x.dst = .ipBlock <;> by_cases src : Peers.kind x.src = .ipBlock <;>
    simp_all

/-- A layer of the K8s kind lets peers that it does not select talk unless they are host
endpoints. -/
theorem k8sCalico_silent (asked : f.calc_all_allowed = true)
    (src : Silent policies_list x.src) (dst : Silent policies_list x.dst) :
    (Peers.kind x.dst ≠ .ipBlock → x ∈ (K8sCalicoNetworkLayer.allowedXgressConns policies_list true
        peer_container f).all_allowed_conns) ∧
      (Peers.kind x.src ≠ .ipBlock → x ∈ (K8sCalicoNetworkLayer.allowedXgressConns policies_list
        false peer_container f).all_allowed_conns) ↔
    Peers.kind x.src ≠ .hostEP ∧ Peers.kind x.dst ≠ .hostEP := by
  have direction : ∀ is_ingress, Silent policies_list (capturedEnd is_ingress x) →
      otherEnd is_ingress x ∈ peer_container.getAllPeersGroup true true →
      capturedEnd is_ingress x ∈ peer_container.peer_set →
      (x ∈ (K8sCalicoNetworkLayer.allowedXgressConns policies_list is_ingress peer_container
        f).all_allowed_conns ↔ Peers.kind (capturedEnd is_ingress x) ≠ .hostEP) := by
    intro is_ingress silent other captured
    obtain ⟨noAllow, _, noPass⟩ := collected_silent is_ingress (fun _ => true) silent
    rw [mem_k8sCalico_xgress asked other captured]
    simp only [silent_uncaptured silent, noAllow, noPass, not_false_eq_true, and_true, false_and, or_false]
  have ingress : Peers.kind x.dst ≠ .ipBlock → (x ∈ (K8sCalicoNetworkLayer.allowedXgressConns
      policies_list true peer_container f).all_allowed_conns ↔ Peers.kind x.dst ≠ .hostEP) :=
    fun inside => direction true dst possible.src_all (possible.dst_peer inside)
  have egress : Peers.kind x.src ≠ .ipBlock → (x ∈ (K8sCalicoNetworkLayer.allowedXgressConns
      policies_list false peer_container f).all_allowed_conns ↔ Peers.kind x.src ≠ .hostEP) :=
    fun inside => direction false src possible.dst
      (PeerContainer.mem_group.mp (possible.src_pod inside)).1
  by_cases dstIp : Peers.kind x.dst = .ipBlock <;> by_cases srcIp : Peers.kind x.src = .ipBlock
  · simp [dstIp, srcIp]
  · simp [dstIp, srcIp, egress srcIp]
  · simp [dstIp, srcIp, ingress dstIp]
  · simp [dstIp, srcIp, ingress dstIp, egress srcIp, and_comm]

/-- A layer of the Istio kind lets peers that it does not select talk, but to DNS entries only over
TCP. -/
theorem istio_silent (asked : f.calc_all_allowed = true)
    (src : Silent policies_list x.src) (dst : Silent policies_list x.dst) :
    (Peers.kind x.dst ≠ .ipBlock → x ∈ (IstioNetworkLayer.allowedXgressConns policies_list true
        peer_container f).all_allowed_conns) ∧
      (Peers.kind x.src ≠ .ipBlock → x ∈ (IstioNetworkLayer.allowedXgressConns policies_list
        false peer_container f).all_allowed_conns) ↔
    (Peers.kind x.dst = .dnsEntry → x.protocol = tcp) := by
  obtain ⟨noAllowIn, noDenyIn, _⟩ := collected_silent true
    IstioNetworkLayer.capturedCondFunc dst
  obtain ⟨noAllowEg, noDenyEg, _⟩ := collected_silent false
    IstioNetworkLayer.capturedCondFunc src
  rw [mem_istio_ingress asked, mem_istio_egress asked]
  have isDns : x.dst ∈ peer_container.getAllDnsEntries ↔ Peers.kind x.dst = .dnsEntry := by
    rw [PeerContainer.mem_dns]
    exact ⟨And.right, fun dns => ⟨possible.dst_peer (by simp [dns]), dns⟩⟩
  by_cases dns : Peers.kind x.dst = .dnsEntry
  · have srcPod : Peers.kind x.src ≠ .ipBlock := fun ip => (possible.kinds ip).2 dns
    have inside := possible.src_pod srcPod
    have outside : x.dst ∉ peer_container.getAllPeersGroup true := by
      simp [PeerContainer.mem_group_ips, PeerContainer.mem_group, dns]
    have outside' : x.dst ∉ peer_container.getAllPeersGroup := by
      simp [PeerContainer.mem_group, dns]
    have free : ∃ e ∈ peer_container.getAllPeersGroup,
        e ∉ (NetworkLayer.collectPoliciesConnsOptimized policies_list true
          IstioNetworkLayer.capturedCondFunc).captured := ⟨x.src, inside, silent_uncaptured src⟩
    simp [isDns, dns, srcPod, inside, outside, outside', free, possible.src, noAllowIn, noDenyIn,
      noAllowEg, noDenyEg, silent_uncaptured src, silent_uncaptured dst]
  · have within : x.dst ∈ peer_container.getAllPeersGroup true := by
      rw [PeerContainer.mem_group_ips, PeerContainer.mem_group]
      exact (PeerContainer.mem_group_all.mp possible.dst).imp_left fun inside => ⟨inside, dns⟩
    have inside : Peers.kind x.dst ≠ .ipBlock → x.dst ∈ peer_container.getAllPeersGroup :=
      (PeerContainer.mem_group_ips.mp within).resolve_right
    simp only [dns, false_implies, iff_true]
    refine ⟨fun pod => Or.inr (Or.inr ?_), fun pod => Or.inr (Or.inr ?_)⟩
    · exact ⟨⟨x.dst, inside pod, silent_uncaptured dst⟩, possible.src, silent_uncaptured dst,
        noDenyIn, Or.inl (inside pod)⟩
    · exact ⟨possible.src_pod pod, silent_uncaptured src, noDenyEg, Or.inl within⟩

end Layer

section Config

variable {self : NetworkConfig P} {appended : List (Policy P)}

/-- The connection does not involve host endpoints. -/
def WithoutHep (x : Flow E κ) : Prop :=
  Peers.kind x.src ≠ .hostEP ∧ Peers.kind x.dst ≠ .hostEP

/-- If it leads to a DNS entry, then over TCP. -/
def DnsOverTcp (x : Flow E κ) : Prop := Peers.kind x.dst = .dnsEntry → x.protocol = tcp

/-- The layers that `does_contain_istio_layers` looks for. -/
def IstioLike (layer : NetworkLayerName) : Prop := layer = .Istio ∨ layer = .IstioGateway

theorem layer_silent (possible : Possible self.peer_container x) {layer : NetworkLayerName}
    (src : Silent policies_list x.src) (dst : Silent policies_list x.dst) :
    (IstioLike layer → (layerAllows self layer policies_list x ↔ DnsOverTcp x)) ∧
      (¬ IstioLike layer → (layerAllows self layer policies_list x ↔ WithoutHep x)) := by
  unfold layerAllows
  rw [mem_layer_possible possible rfl]
  cases layer with
  | K8s_Calico | K8sGateway =>
    exact ⟨by simp [IstioLike], fun _ => k8sCalico_silent possible rfl src dst⟩
  | Istio | IstioGateway =>
    exact ⟨fun _ => istio_silent possible rfl src dst, by simp [IstioLike]⟩

omit [Fintype E] [DecidableEq E] in
theorem containIstio_iff {layers : NetworkLayersContainer P} :
    layers.doesContainIstioLayers = true ↔ ∃ entry ∈ layers, IstioLike entry.1 := by
  simp [NetworkLayersContainer.doesContainIstioLayers, IstioLike]

omit [Fintype E] in
theorem mem_capturedPods {e : E} : e ∈ self.getCapturedPods ↔
    ∃ policy ∈ self.policies_container.policies.map Prod.snd, e ∈ policy.base.selected_peers := by
  have walk : ∀ (policies_list : List (Policy P)) (acc : PeerSet E), e ∈ policies_list.foldl
      (fun captured_pods policy => captured_pods ∪ policy.base.selected_peers) acc ↔
      e ∈ acc ∨ ∃ policy ∈ policies_list, e ∈ policy.base.selected_peers := by
    intro policies_list
    induction policies_list with
    | nil => simp
    | cons policy rest ih =>
      intro acc
      rw [List.foldl_cons, ih, Finset.mem_union, or_assoc, List.exists_mem_cons_iff]
  unfold NetworkConfig.getCapturedPods
  rw [walk]
  simp

omit [Fintype E] in
theorem silent_layer (placed : WellPlaced self.policies_container appended)
    (selective : ∀ policy ∈ appended, Selective policy) {e : E}
    (unselected : e ∉ self.getCapturedPods) :
    ∀ layer ∈ self.policies_container.layers, Silent layer.2 e := by
  intro layer among policy member
  have stored : policy ∈ self.policies_container.policies.map Prod.snd :=
    placed.once.subset (List.mem_flatMap.mpr ⟨layer, among, member⟩)
  refine ⟨selective policy (placed.inOrder.subset stored), fun selected => ?_⟩
  exact unselected (mem_capturedPods.mpr ⟨policy, stored, selected⟩)

/-- What a configuration allows between peers that no policy selects. -/
theorem allowed_unselected (placed : WellPlaced self.policies_container appended)
    (selective : ∀ policy ∈ appended, Selective policy) (possible : Possible self.peer_container x)
    (src : x.src ∉ self.getCapturedPods) (dst : x.dst ∉ self.getCapturedPods) :
    AllowedByAll self x ↔ WithoutHep x ∧
      (self.policies_container.layers.doesContainIstioLayers = true → DnsOverTcp x) := by
  have each : ∀ layer ∈ self.policies_container.layers,
      (IstioLike layer.1 → (layerAllows self layer.1 layer.2 x ↔ DnsOverTcp x)) ∧
      (¬ IstioLike layer.1 → (layerAllows self layer.1 layer.2 x ↔ WithoutHep x)) :=
    fun layer among => layer_silent possible (silent_layer placed selective src layer among)
      (silent_layer placed selective dst layer among)
  have empty : layerAllows self .K8s_Calico [] x ↔ WithoutHep x :=
    (layer_silent possible (List.forall_mem_nil _) (List.forall_mem_nil _)).2 (by simp [IstioLike])
  rw [containIstio_iff]
  constructor
  · rintro ⟨unhandled, handled, layers⟩
    have overTcp : (∃ layer ∈ self.policies_container.layers, IstioLike layer.1) → DnsOverTcp x := by
      rintro ⟨layer, among, istio⟩
      exact ((each layer among).1 istio).mp (layers layer among)
    refine ⟨?_, overTcp⟩
    cases found : Dict.get self.policies_container.layers .K8s_Calico with
    | some policies_list =>
      have among := Dict.get_mem found
      exact ((each _ among).2 (by simp [IstioLike])).mp (layers _ among)
    | none =>
      -- without host endpoints there is nothing to show, and with them the empty layer is asked
      by_contra hep
      have some : ∃ e ∈ self.peer_container.peer_set, Peers.kind e = .hostEP := by
        by_cases srcHep : Peers.kind x.src = .hostEP
        · exact ⟨x.src, (PeerContainer.mem_group.mp (possible.src_pod (by simp [srcHep]))).1, srcHep⟩
        · have dstHep : Peers.kind x.dst = .hostEP := by
            by_contra noHep
            exact hep ⟨srcHep, noHep⟩
          exact ⟨x.dst, possible.dst_peer (by simp [dstHep]), dstHep⟩
      exact hep (empty.mp (unhandled ⟨some, by simp [found]⟩))
  · rintro ⟨noHep, overTcp⟩
    refine ⟨fun _ => empty.mpr noHep, fun _ => ?_, fun layer among => ?_⟩
    · rw [NetworkConfig.allConnsPropsPerConfigPeers, mem_makeConnProps]
      simp [ConnectivityCube.Admits, possible.src_all, possible.dst]
    · by_cases istio : IstioLike layer.1
      · exact ((each layer among).1 istio).mpr (overTcp ⟨layer, among, istio⟩)
      · exact ((each layer among).2 istio).mpr noHep

theorem emptyLayer_ends (asked : f.calc_all_allowed = true)
    (allowed : x ∈ (K8sCalicoNetworkLayer.allowedXgressConns ([] : List (Policy P)) is_ingress
      peer_container f).all_allowed_conns) :
    otherEnd is_ingress x ∈ peer_container.getAllPeersGroup true true ∧
      capturedEnd is_ingress x ∈ peer_container.peer_set := by
  simp only [K8sCalicoNetworkLayer.allowedXgressConns, NetworkLayer.collectPoliciesConnsOptimized,
    List.foldl_nil, PolicyConnections.init, ne_eq, asked, and_true, if_true, apply_ite PolicyConnections.all_allowed_conns,
    apply_ite PolicyConnections.allowed_conns, apply_ite PolicyConnections.pass_conns, ite_self,
    ExactSet.mem_union, ExactSet.mem_inter, ExactSet.not_mem_empty, false_and, and_false, or_false,
    mem_ite_union, false_or, mem_xgressCube, Finset.mem_sdiff, Finset.mem_filter,
    PeerContainer.mem_group_dns] at allowed
  exact ⟨allowed.2.1, allowed.2.2.1.1⟩

/-- Only peers of the configuration and IP addresses are allowed anything. -/
theorem allowed_ends (allowed : AllowedByAll self x) :
    x.src ∈ self.peer_container.getAllPeersGroup true true ∧
      x.dst ∈ self.peer_container.getAllPeersGroup true true := by
  have pods : ∀ e, e ∈ self.peer_container.getAllPeersGroup →
      e ∈ self.peer_container.getAllPeersGroup true true := fun e inside =>
    PeerContainer.mem_group_all.mpr (Or.inl (PeerContainer.mem_group.mp inside).1)
  have ips : ∀ e, Peers.kind e = .ipBlock → e ∈ self.peer_container.getAllPeersGroup true true :=
    fun e ip => PeerContainer.mem_group_all.mpr (Or.inr ip)
  by_cases unhandled : Unhandled self
  · obtain ⟨ingress, _⟩ := (NetworkLayer.mem_layer_all rfl).mp (allowed.1 unhandled)
    rcases ingress with ingress | ⟨src, dst⟩
    · obtain ⟨src, dst⟩ := emptyLayer_ends rfl ingress
      exact ⟨src, PeerContainer.mem_group_all.mpr (Or.inl dst)⟩
    · exact ⟨pods _ src, ips _ dst⟩
  · have inside := allowed.2.1 unhandled
    rw [NetworkConfig.allConnsPropsPerConfigPeers, mem_makeConnProps] at inside
    exact ⟨inside.1 _ rfl, inside.2.1 _ rfl⟩

end Config
end Nca.NetworkConfig
