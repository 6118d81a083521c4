import Nca.NetworkConfig.NetworkConfig
import Nca.NetworkConfig.K8sCalicoSemantics
import Nca.NetworkConfig.IstioSemantics

/-!
What a query asks for besides. The allowed and the denied connections of a configuration do not
depend on which other components the filter asks for. All allowed connections do: the cuts for
host endpoints apply to them only if the allowed connections are wanted too.
-/

namespace Nca.NetworkConfig
open CoreDS Lib Resources

variable {P E κ : Type} [Fintype E] [DecidableEq E] [Peers E] [ConnectivityProperties P E κ]

/-- The parts of an answer that a filter can ask for. -/
inductive Component where
  | allowed_conns
  | denied_conns
  | all_allowed_conns
  deriving DecidableEq, Repr

/-- The part of an answer. -/
def Component.of (component : Component) (conns : PolicyConnections P E) : P :=
  match component with
  | allowed_conns => conns.allowed_conns
  | denied_conns => conns.denied_conns
  | all_allowed_conns => conns.all_allowed_conns

/-- The filter asks for the part. -/
def Component.asked (component : Component) (the_filter : PolicyConnectionsFilter) : Bool :=
  match component with
  | allowed_conns => the_filter.calc_allowed
  | denied_conns => the_filter.calc_denied
  | all_allowed_conns => the_filter.calc_all_allowed

section Layer

variable {layer : NetworkLayerName} {policies_list : List (Policy P)} {is_ingress : Bool}
  {peer_container : PeerContainer E} {f g : PolicyConnectionsFilter}

theorem xgress_congr (same : f.calc_all_allowed = g.calc_all_allowed) :
    NetworkLayer.allowedXgressConns layer policies_list is_ingress peer_container f =
      NetworkLayer.allowedXgressConns layer policies_list is_ingress peer_container g := by
  cases layer <;>
    simp only [NetworkLayer.allowedXgressConns, K8sCalicoNetworkLayer.allowedXgressConns,
      IstioNetworkLayer.allowedXgressConns, same]

theorem xgress_denied (f : PolicyConnectionsFilter) :
    (NetworkLayer.allowedXgressConns layer policies_list is_ingress peer_container f).denied_conns =
      (NetworkLayer.allowedXgressConns layer policies_list is_ingress peer_container
        .onlyDeniedConnections).denied_conns := by
  have calico : ∀ f : PolicyConnectionsFilter,
      (K8sCalicoNetworkLayer.allowedXgressConns policies_list is_ingress peer_container
        f).denied_conns = (NetworkLayer.collectPoliciesConnsOptimized policies_list is_ingress
          fun _ => true).denied_conns := by
    intro f
    simp only [K8sCalicoNetworkLayer.allowedXgressConns, apply_ite PolicyConnections.denied_conns,
      ite_self]
  have istio : ∀ f : PolicyConnectionsFilter,
      (IstioNetworkLayer.allowedXgressConns policies_list is_ingress peer_container
        f).denied_conns = (NetworkLayer.collectPoliciesConnsOptimized policies_list is_ingress
          IstioNetworkLayer.capturedCondFunc).denied_conns := by
    intro f
    simp only [IstioNetworkLayer.allowedXgressConns, apply_ite PolicyConnections.denied_conns,
      ite_self]
  cases layer with
  | K8s_Calico | K8sGateway => exact (calico f).trans (calico _).symm
  | Istio | IstioGateway => exact (istio f).trans (istio _).symm

theorem layer_component (component : Component) (askedF : component.asked f = true)
    (askedG : component.asked g = true) :
    component.of (NetworkLayer.allowedConnections layer policies_list peer_container f) =
      component.of (NetworkLayer.allowedConnections layer policies_list peer_container g) := by
  cases component with
  | allowed_conns =>
    have askedF : f.calc_allowed = true := askedF
    have askedG : g.calc_allowed = true := askedG
    have allF := f.needed askedF
    have allG := g.needed askedG
    simp only [Component.of, NetworkLayer.allowedConnections, askedF, askedG, allF, allG,
      xgress_congr (allF.trans allG.symm)]
  | denied_conns =>
    have askedF : f.calc_denied = true := askedF
    have askedG : g.calc_denied = true := askedG
    simp only [Component.of, NetworkLayer.allowedConnections, askedF, askedG, xgress_denied f,
      xgress_denied g]
  | all_allowed_conns =>
    have askedF : f.calc_all_allowed = true := askedF
    have askedG : g.calc_all_allowed = true := askedG
    simp only [Component.of, NetworkLayer.allowedConnections, askedF, askedG,
      xgress_congr (askedF.trans askedG.symm)]

end Layer

section Config

variable {self : NetworkConfig P} {f g : PolicyConnectionsFilter} {x : Flow E κ}
  {layers : NetworkLayersContainer P} {start : PolicyConnections P E}

/-- All connections that the layer of this name allows. -/
def layerAllows (self : NetworkConfig P) (layer : NetworkLayerName) (policies_list : List (Policy P))
    (x : Flow E κ) : Prop :=
  x ∈ (NetworkLayer.allowedConnections layer policies_list self.peer_container
    .onlyAllAllowedConnections).all_allowed_conns

/-- The configuration has host endpoints but no layer that handles them. -/
def Unhandled (self : NetworkConfig P) : Prop :=
  (∃ e ∈ self.peer_container.peer_set, Peers.kind e = .hostEP) ∧
    (Dict.get self.policies_container.layers .K8s_Calico).isNone

/-- A connection from or to a host endpoint of the configuration. -/
def InvolvesHep (self : NetworkConfig P) (x : Flow E κ) : Prop :=
  (x.src ∈ self.peer_container.peer_set ∧ Peers.kind x.src = .hostEP) ∨
    (x.dst ∈ self.peer_container.peer_set ∧ Peers.kind x.dst = .hostEP)

/-- What every layer allows; an empty K8s_Calico layer handles host endpoints where none does. -/
def AllowedByAll (self : NetworkConfig P) (x : Flow E κ) : Prop :=
  (Unhandled self → layerAllows self .K8s_Calico [] x) ∧
  (¬ Unhandled self → x ∈ self.allConnsPropsPerConfigPeers) ∧
  ∀ layer ∈ self.policies_container.layers, layerAllows self layer.1 layer.2 x

/-- What is cut for the sake of host endpoints: connections without them where no layer handles
them, and connections with them in the other layers. -/
def CutForHep (self : NetworkConfig P) (x : Flow E κ) : Prop :=
  (Unhandled self ∧ ¬ InvolvesHep self x) ∨
    ((∃ layer ∈ self.policies_container.layers, layer.1 ≠ .K8s_Calico) ∧ InvolvesHep self x)

theorem mem_connHep : x ∈ self.connHep ↔ InvolvesHep self x := by
  have isCluster : ∀ e : E, (e ∈ self.peer_container.getAllPeersGroup ∧ Peers.kind e = .hostEP) ↔
      (e ∈ self.peer_container.peer_set ∧ Peers.kind e = .hostEP) := by
    intro e
    rw [PeerContainer.mem_group]
    exact ⟨fun ⟨⟨member, _⟩, hep⟩ => ⟨member, hep⟩,
      fun ⟨member, hep⟩ => ⟨⟨member, by simp [hep]⟩, hep⟩⟩
  simp [NetworkConfig.connHep, ConnectivityCube.Admits, InvolvesHep, isCluster]

theorem unhandled_iff : Unhandled self ↔
    ((self.peer_container.getAllPeersGroup.filter fun peer => Peers.kind peer = .hostEP) ≠ ∅ ∧
      (Dict.get self.policies_container.layers .K8s_Calico).isNone = true) := by
  refine and_congr_left fun _ => ?_
  rw [← Finset.nonempty_iff_ne_empty]
  constructor
  · intro ⟨e, member, hep⟩
    exact ⟨e, Finset.mem_filter.mpr ⟨PeerContainer.mem_group.mpr ⟨member, by simp [hep]⟩, hep⟩⟩
  · intro ⟨e, member⟩
    obtain ⟨member, hep⟩ := Finset.mem_filter.mp member
    exact ⟨e, (PeerContainer.mem_group.mp member).1, hep⟩

/-- The cuts that two filters make in a component are the same. -/
def SameCut (component : Component) (f g : PolicyConnectionsFilter) : Prop :=
  component = .all_allowed_conns → f.calc_allowed = g.calc_allowed

omit [Fintype E] [DecidableEq E] [Peers E] in
theorem and_component {component : Component} {conns conns' : PolicyConnections P E} {props : P}
    (askedF : component.asked f = true) (askedG : component.asked g = true)
    (cut : SameCut component f g) (same : component.of conns = component.of conns') :
    component.of (conns.andByFilter props f.withoutAllAllowed) =
      component.of (conns'.andByFilter props g.withoutAllAllowed) := by
  cases component <;>
    simp_all [Component.of, Component.asked, SameCut, PolicyConnections.andByFilter,
      PolicyConnectionsFilter.withoutAllAllowed, PolicyConnectionsFilter.init]

omit [Fintype E] [DecidableEq E] [Peers E] in
theorem sub_component {component : Component} {conns conns' : PolicyConnections P E} {props : P}
    (askedF : component.asked f = true) (askedG : component.asked g = true)
    (cut : SameCut component f g) (same : component.of conns = component.of conns') :
    component.of (conns.subByFilter props f.withoutAllAllowed) =
      component.of (conns'.subByFilter props g.withoutAllAllowed) := by
  cases component <;>
    simp_all [Component.of, Component.asked, SameCut, PolicyConnections.subByFilter,
      PolicyConnectionsFilter.withoutAllAllowed, PolicyConnectionsFilter.init]

theorem start_component {component : Component} (askedF : component.asked f = true)
    (askedG : component.asked g = true) (cut : SameCut component f g) :
    component.of (self.startConnections f) = component.of (self.startConnections g) := by
  unfold NetworkConfig.startConnections
  dsimp only
  split
  · exact and_component askedF askedG cut (layer_component component askedF askedG)
  · cases component with
    | allowed_conns =>
      simp only [Component.asked] at askedF askedG
      simp only [f.needed askedF, g.needed askedG]
    | denied_conns =>
      simp only [Component.of, apply_ite PolicyConnections.denied_conns, ite_self]
    | all_allowed_conns =>
      simp only [Component.asked] at askedF askedG
      simp only [askedF, askedG]

theorem perLayer_component {component : Component} (askedF : component.asked f = true)
    (askedG : component.asked g = true) (cut : SameCut component f g)
    (layer : NetworkLayerName × List (Policy P)) :
    component.of (self.connsPerLayer f layer) = component.of (self.connsPerLayer g layer) := by
  unfold NetworkConfig.connsPerLayer
  dsimp only
  split
  · exact sub_component askedF askedG cut (layer_component component askedF askedG)
  · exact layer_component component askedF askedG

/-- The loop over the layers treats every component apart from the others. -/
theorem layers_component {component : Component} (askedF : component.asked f = true)
    (askedG : component.asked g = true) (cut : SameCut component f g)
    {acc acc' : PolicyConnections P E} (same : component.of acc = component.of acc') :
    component.of (layers.foldl (self.addLayer f) acc) =
      component.of (layers.foldl (self.addLayer g) acc') := by
  induction layers generalizing acc acc' with
  | nil => exact same
  | cons layer rest ih =>
    apply ih
    have perLayer : component.of (self.connsPerLayer f layer) =
        component.of (self.connsPerLayer g layer) := perLayer_component askedF askedG cut layer
    cases component with
    | allowed_conns | denied_conns | all_allowed_conns =>
      simp only [Component.asked] at askedF askedG
      simp only [Component.of] at same perLayer
      simp only [Component.of, NetworkConfig.addLayer, askedF, askedG, same, perLayer]

theorem config_component {component : Component} (askedF : component.asked f = true)
    (askedG : component.asked g = true) (cut : SameCut component f g) :
    component.of (self.allowedConnections none f) =
      component.of (self.allowedConnections none g) := by
  have each : ∀ component : Component, component.asked f = true → component.asked g = true →
      SameCut component f g →
      component.of (self.policies_container.layers.foldl (self.addLayer f)
        (self.startConnections f)) =
      component.of (self.policies_container.layers.foldl (self.addLayer g)
        (self.startConnections g)) :=
    fun component askedF askedG cut =>
      layers_component askedF askedG cut (start_component askedF askedG cut)
  cases component with
  | allowed_conns =>
    have askedF : f.calc_allowed = true := askedF
    have askedG : g.calc_allowed = true := askedG
    have allowed := each .allowed_conns askedF askedG nofun
    have all := each .all_allowed_conns (f.needed askedF) (g.needed askedG)
      fun _ => askedF.trans askedG.symm
    simp only [Component.of] at allowed all
    simp only [Component.of, NetworkConfig.allowedConnections, askedF, askedG, ↓reduceIte, allowed,
      all]
  | denied_conns =>
    simpa only [Component.of, NetworkConfig.allowedConnections,
      apply_ite PolicyConnections.denied_conns, ite_self] using each .denied_conns askedF askedG cut
  | all_allowed_conns =>
    simpa only [Component.of, NetworkConfig.allowedConnections,
      apply_ite PolicyConnections.all_allowed_conns, ite_self] using
      each .all_allowed_conns askedF askedG cut

theorem mem_layer (asked : f.calc_all_allowed = true)
    (layer : NetworkLayerName × List (Policy P)) :
    x ∈ (NetworkLayer.allowedConnections layer.1 layer.2 self.peer_container f).all_allowed_conns ↔
      layerAllows self layer.1 layer.2 x := by
  have same : (NetworkLayer.allowedConnections layer.1 layer.2 self.peer_container
      f).all_allowed_conns = (NetworkLayer.allowedConnections layer.1 layer.2 self.peer_container
      .onlyAllAllowedConnections).all_allowed_conns :=
    layer_component .all_allowed_conns asked rfl
  rw [same, layerAllows]

theorem mem_perLayer (asked : f.calc_all_allowed = true)
    (layer : NetworkLayerName × List (Policy P)) :
    x ∈ (self.connsPerLayer f layer).all_allowed_conns ↔ layerAllows self layer.1 layer.2 x ∧
      (f.calc_allowed = true → layer.1 ≠ .K8s_Calico → ¬ InvolvesHep self x) := by
  unfold NetworkConfig.connsPerLayer
  dsimp only
  by_cases k8s : layer.1 = .K8s_Calico
  · simp only [k8s, ne_eq, not_true, if_false, false_implies, implies_true, and_true]
    exact k8s ▸ mem_layer asked layer
  · have cut : f.withoutAllAllowed.calc_all_allowed = f.calc_allowed := by
      simp [PolicyConnectionsFilter.withoutAllAllowed, PolicyConnectionsFilter.init]
    simp only [ne_eq, k8s, not_false_eq_true, if_true, PolicyConnections.subByFilter, cut,
      true_implies]
    cases f.calc_allowed with
    | false => simp [mem_layer asked layer]
    | true => simp [mem_layer asked layer, mem_connHep]

theorem mem_layers (asked : f.calc_all_allowed = true) {acc : PolicyConnections P E} :
    x ∈ (layers.foldl (self.addLayer f) acc).all_allowed_conns ↔ x ∈ acc.all_allowed_conns ∧
      ∀ layer ∈ layers, x ∈ (self.connsPerLayer f layer).all_allowed_conns := by
  induction layers generalizing acc with
  | nil => simp
  | cons layer rest ih =>
    rw [List.foldl_cons, ih]
    simp [NetworkConfig.addLayer, asked, and_assoc]

theorem mem_start (asked : f.calc_all_allowed = true) :
    x ∈ (self.startConnections f).all_allowed_conns ↔
      (Unhandled self → layerAllows self .K8s_Calico [] x ∧
        (f.calc_allowed = true → InvolvesHep self x)) ∧
      (¬ Unhandled self → x ∈ self.allConnsPropsPerConfigPeers) := by
  have cut : f.withoutAllAllowed.calc_all_allowed = f.calc_allowed := by
    simp [PolicyConnectionsFilter.withoutAllAllowed, PolicyConnectionsFilter.init]
  have empty : x ∈ (NetworkLayersContainer.emptyLayerAllowedConnections self.peer_container
      .K8s_Calico f).all_allowed_conns ↔ layerAllows self .K8s_Calico [] x :=
    mem_layer asked (.K8s_Calico, [])
  unfold NetworkConfig.startConnections
  by_cases unhandled : Unhandled self
  · rw [if_pos (unhandled_iff.mp unhandled)]
    simp only [unhandled, PolicyConnections.andByFilter, cut, true_implies, not_true,
      false_implies, and_true]
    cases f.calc_allowed with
    | false => simp [empty]
    | true => simp [empty, mem_connHep]
  · rw [if_neg (mt unhandled_iff.mpr unhandled)]
    simp [unhandled, asked]

/-- All allowed connections, and what asking for the allowed ones takes from them. -/
theorem mem_all_allowed (asked : f.calc_all_allowed = true) :
    x ∈ (self.allowedConnections none f).all_allowed_conns ↔
      AllowedByAll self x ∧ (f.calc_allowed = true → ¬ CutForHep self x) := by
  have same : (self.allowedConnections none f).all_allowed_conns =
      (self.policies_container.layers.foldl (self.addLayer f)
        (self.startConnections f)).all_allowed_conns := by
    simp only [NetworkConfig.allowedConnections, apply_ite PolicyConnections.all_allowed_conns,
      ite_self]
  rw [same, mem_layers asked, mem_start asked]
  simp only [mem_perLayer asked, AllowedByAll, CutForHep]
  by_cases cut : f.calc_allowed = true <;> by_cases unhandled : Unhandled self
  · simp only [cut, unhandled, true_implies]
    grind
  · simp only [cut, unhandled, true_implies]
    grind
  · simp only [cut, unhandled]
    grind
  · simp only [cut, unhandled]
    grind

end Config

section Main

omit [Fintype E] [DecidableEq E] in
theorem not_cut_of_no_hep {self : NetworkConfig P} {x : Flow E κ}
    (noHep : ∀ e ∈ self.peer_container.peer_set, Peers.kind e ≠ .hostEP) : ¬ CutForHep self x := by
  intro cut
  obtain ⟨⟨⟨e, member, hep⟩, _⟩, _⟩ | ⟨_, ⟨member, hep⟩ | ⟨member, hep⟩⟩ := cut
  · exact noHep e member hep
  · exact noHep _ member hep
  · exact noHep _ member hep

omit [Fintype E] [DecidableEq E] in
theorem not_cut_of_k8s {self : NetworkConfig P} {x : Flow E κ} {policies_list : List (Policy P)}
    (only : self.policies_container.layers = [(.K8s_Calico, policies_list)]) :
    ¬ CutForHep self x := by
  simp [CutForHep, Unhandled, only, Dict.get]

variable (self : NetworkConfig P) (layer_name : Option NetworkLayerName) (component : Component)
  {f g : PolicyConnectionsFilter}

/-- Two filters that ask for a component get the same value of it, unless it is that of all
allowed connections over all layers, only one of them asks for the allowed connections too, and a
connection that every layer allows is cut for the sake of host endpoints. -/
theorem component_eq_iff (askedF : component.asked f = true) (askedG : component.asked g = true) :
    component.of (self.allowedConnections layer_name f) =
        component.of (self.allowedConnections layer_name g) ↔
      layer_name ≠ none ∨ component ≠ .all_allowed_conns ∨ f.calc_allowed = g.calc_allowed ∨
        ∀ x, AllowedByAll self x → ¬ CutForHep self x := by
  match layer_name with
  | some name =>
    simp only [NetworkConfig.allowedConnections, ne_eq, reduceCtorEq, not_false_eq_true, true_or,
      iff_true]
    split
    · exact layer_component component askedF askedG
    · exact layer_component component askedF askedG
  | none =>
    by_cases cut : SameCut component f g
    · simp only [config_component askedF askedG cut, ne_eq, not_true, false_or, true_iff]
      by_cases all : component = .all_allowed_conns
      · exact Or.inr (Or.inl (cut all))
      · exact Or.inl all
    · obtain ⟨rfl, differ⟩ := Classical.not_imp.mp cut
      have askedF : f.calc_all_allowed = true := askedF
      have askedG : g.calc_all_allowed = true := askedG
      simp only [Component.of, ne_eq, not_true, false_or, differ]
      rw [ExactSet.eq_iff]
      simp only [mem_all_allowed askedF, mem_all_allowed askedG]
      refine forall_congr' fun x => ?_
      cases askF : f.calc_allowed <;> cases askG : g.calc_allowed <;> simp_all

/-- A pod and a host endpoint under an authorization policy. -/
def hepConfig : NetworkConfig (FlowSet PeerKind Unit) :=
  (NetworkConfig.cloneWithoutPolicies ⟨⟨{.pod, .hostEP}⟩, .init⟩).appendPolicyToConfig
    (podPolicy .Deny {.ipBlock})

theorem component_eq_iff_denied :
    Component.denied_conns.of (hepConfig.allowedConnections none .everything) =
      Component.denied_conns.of (hepConfig.allowedConnections none .onlyDeniedConnections) :=
  (component_eq_iff hepConfig none .denied_conns rfl rfl).mpr (Or.inr (Or.inl nofun))

/-- If the allowed connections are wanted too, those between pods vanish from all allowed ones. -/
theorem all_allowed_differs :
    Component.all_allowed_conns.of (hepConfig.allowedConnections none .everything) ≠
      Component.all_allowed_conns.of (hepConfig.allowedConnections none
        .onlyAllAllowedConnections) := by
  intro same
  let udp : Flow PeerKind Unit := ⟨.pod, .pod, 17, ()⟩
  have layers : hepConfig.policies_container.layers =
    [(.Istio, [podPolicy .Deny {.ipBlock}])] := rfl
  have unhandled : Unhandled hepConfig := ⟨⟨.hostEP, by decide, rfl⟩, by rw [layers]; rfl⟩
  have allowed : AllowedByAll hepConfig udp := by
    refine ⟨fun _ => ?_, fun handled => (handled unhandled).elim, ?_⟩
    · have free : ∀ is_ingress, udp ∈ (K8sCalicoNetworkLayer.allowedXgressConns
          ([] : List (Policy (FlowSet PeerKind Unit))) is_ingress
          hepConfig.peer_container .onlyAllAllowedConnections).all_allowed_conns := by
        intro is_ingress
        rw [k8sCalico_xgress (List.forall_mem_nil _) rfl (by cases is_ingress <;> decide)
          (by cases is_ingress <;> decide)]
        exact Or.inl ⟨by cases is_ingress <;> decide, List.forall_mem_nil _⟩
      exact (NetworkLayer.mem_layer_all rfl).mpr ⟨Or.inl (free true), Or.inl (free false)⟩
    · rw [layers, List.forall_mem_singleton]
      refine (NetworkLayer.mem_layer_all rfl).mpr ⟨Or.inl ?_, Or.inl ?_⟩
      · exact (mem_istio_ingress rfl).mpr (Or.inr (Or.inl ⟨by decide, by decide, by decide⟩))
      · exact (mem_istio_egress rfl).mpr (Or.inr (Or.inl ⟨by decide, by decide, by decide⟩))
  have kept : udp ∈ (hepConfig.allowedConnections none .onlyAllAllowedConnections).all_allowed_conns :=
    (mem_all_allowed rfl).mpr ⟨allowed, nofun⟩
  have kept' : udp ∈ (hepConfig.allowedConnections none .everything).all_allowed_conns := by
    rw [show (hepConfig.allowedConnections none .everything).all_allowed_conns = _ from same]
    exact kept
  exact ((mem_all_allowed rfl).mp kept').2 rfl (Or.inl ⟨unhandled, by simp [InvolvesHep, udp, Peers.kind]⟩)

end Main
end Nca.NetworkConfig
