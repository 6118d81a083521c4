import Nca.NetworkConfig.SemanticDiff

/-!
The verdicts of the queries about two configurations, against each other. Equivalence is containment
both ways. The semantic diff reports nothing for equivalent configurations; what it leaves out of
account are connections from a peer to itself.
-/

namespace Nca.NetworkConfig
open CoreDS Lib Resources

/-- Unless the policies are the same, to be equivalent is to allow the same connections. -/
theorem equivalence_points {P E κ : Type} [Fintype E] [DecidableEq E] [Peers E]
    [ConnectivityProperties P E κ] {self : TwoNetworkConfigsQuery P}
    (same : self.identicalTopologies = true) (differ : self.samePolicies = false) :
    EquivalenceQuery.exec self none = true ↔
      ∀ x, x ∈ (self.filteredConns none).1 ↔ x ∈ (self.filteredConns none).2 := by
  simp [EquivalenceQuery.exec, EquivalenceQuery.checkEquivalence, same, differ, ExactSet.eq_iff]

section Containment

variable {P E κ : Type} [Fintype E] [DecidableEq E] [Peers E] [ContainedIn P E κ]

omit [Fintype E] [DecidableEq E] in
theorem excludeIpv6_swap (self : TwoNetworkConfigsQuery P) :
    TwoNetworkConfigsQuery.excludeIpv6 ⟨self.config2, self.config1, self.excludeIPv6Range⟩ =
      self.excludeIpv6 := Bool.and_comm _ _

theorem filteredConns_swap (self : TwoNetworkConfigsQuery P) (layer_name : Option NetworkLayerName) :
    TwoNetworkConfigsQuery.filteredConns ⟨self.config2, self.config1, self.excludeIPv6Range⟩
      layer_name = (self.filteredConns layer_name).swap := by
  unfold TwoNetworkConfigsQuery.filteredConns
    TwoNetworkConfigsQuery.filterConnsByInputOrInternalConstraints
  simp only [excludeIpv6_swap, Finset.union_comm (getAllPeers (self.config2.allowedConnections
    layer_name .onlyAllAllowedConnections).all_allowed_conns), Prod.swap_prod_mk]

variable {self : TwoNetworkConfigsQuery P}

/-- Between configurations with the same peers containment is decided by the filtered connections. -/
theorem containment_result (peers : self.config1.peer_container.peer_set =
    self.config2.peer_container.peer_set) (cmd_line_flag : Bool) :
    (ContainmentQuery.exec self cmd_line_flag).bool_result =
      containedIn (self.filteredConns none).1 (self.filteredConns none).2 := by
  have known : self.config1.peer_container.getAllPeersGroup false true \
      self.config2.peer_container.getAllPeersGroup false true = ∅ := by
    simp [PeerContainer.getAllPeersGroup, peers]
  unfold ContainmentQuery.exec
  simp only [known, ne_eq, not_true, if_false]
  show QueryAnswer.bool_result (ite (containedIn (self.filteredConns none).1
    (self.filteredConns none).2 = true) _ _) = _
  cases containedIn (self.filteredConns none).1 (self.filteredConns none).2 <;> rfl

theorem twoWay_result (cmd_line_flag : Bool)
    (checked : (self.identicalTopologies && self.samePolicies) = false) :
    (TwoWayContainmentQuery.exec self cmd_line_flag).bool_result =
      ((ContainmentQuery.exec self cmd_line_flag).bool_result &&
        (ContainmentQuery.exec ⟨self.config2, self.config1, self.excludeIPv6Range⟩
          cmd_line_flag).bool_result) := by
  unfold TwoWayContainmentQuery.exec
  simp only [checked, Bool.false_eq_true, if_false]
  cases (ContainmentQuery.exec self cmd_line_flag).bool_result <;>
    cases (ContainmentQuery.exec ⟨self.config2, self.config1, self.excludeIPv6Range⟩
      cmd_line_flag).bool_result <;> simp

end Containment

section Diff

variable {P E κ : Type} [Fintype E] [DecidableEq E] [Peers E] [ConnectivityProperties P E κ]
  {self : TwoNetworkConfigsQuery P}

omit [Fintype E] [DecidableEq E] [Peers E] in
theorem differs_iff {props : Option P} : SemanticDiffQuery.Category.differs props = true ↔
    ∃ x : Flow E κ, props.any (fun props => decide (x ∈ props)) = true := by
  cases props with
  | none => simp [SemanticDiffQuery.Category.differs]
  | some props => simp [SemanticDiffQuery.Category.differs, ExactSet.bool_iff]

omit [Fintype E] [DecidableEq E] [Peers E] in
theorem getResults_eq_zero {categories : List (SemanticDiffQuery.Category P)} :
    SemanticDiffQuery.getResults categories = 0 ↔ ∀ x : Flow E κ,
      categories.countP (removes x) = 0 ∧ categories.countP (adds x) = 0 := by
  have walk : ∀ acc, categories.foldl (fun res category =>
      let res := if SemanticDiffQuery.Category.differs category.added_props then res + 1 else res
      if SemanticDiffQuery.Category.differs category.removed_props then res + 1 else res) acc = 0 ↔
      acc = 0 ∧ ∀ category ∈ categories, ∀ x : Flow E κ,
        ¬ removes x category = true ∧ ¬ adds x category = true := by
    induction categories with
    | nil => simp
    | cons category rest ih =>
      intro acc
      rw [List.foldl_cons, ih, List.forall_mem_cons, ← and_assoc]
      refine and_congr_left' ?_
      by_cases added : SemanticDiffQuery.Category.differs category.added_props = true
      · obtain ⟨x, member⟩ := differs_iff.mp added
        have lost : ¬ ∀ x : Flow E κ, ¬ removes x category = true ∧ ¬ adds x category = true :=
          fun none => (none x).2 member
        simp only [added, if_true, lost, and_false, iff_false]
        split <;> simp
      · by_cases removed : SemanticDiffQuery.Category.differs category.removed_props = true
        · obtain ⟨x, member⟩ := differs_iff.mp removed
          have lost : ¬ ∀ x : Flow E κ, ¬ removes x category = true ∧ ¬ adds x category = true :=
            fun none => (none x).1 member
          simp only [added, removed, if_true, lost, and_false, iff_false]
          split <;> simp
        · have none : ∀ x : Flow E κ, ¬ removes x category = true ∧ ¬ adds x category = true :=
            fun x => ⟨fun member => removed (differs_iff.mpr ⟨x, member⟩),
              fun member => added (differs_iff.mpr ⟨x, member⟩)⟩
          simp [added, removed, none]
  unfold SemanticDiffQuery.getResults
  rw [walk]
  simp only [true_and, List.countP_eq_zero]
  exact ⟨fun none x => ⟨fun c member => (none c member x).1, fun c member => (none c member x).2⟩,
    fun none c member x => ⟨(none x).1 c member, (none x).2 c member⟩⟩

/-- The report of the diff is empty exactly if the policies are the same or no category reports a
connection. -/
theorem diff_eq_zero (same : self.identicalTopologies = true) (cmd_line_flag : Bool) :
    (SemanticDiffQuery.exec self cmd_line_flag).numerical_result = 0 ↔ self.samePolicies = true ∨
      ∀ x : Flow E κ, (SemanticDiffQuery.computeDiff self).countP (removes x) = 0 ∧
        (SemanticDiffQuery.computeDiff self).countP (adds x) = 0 := by
  rw [← getResults_eq_zero]
  unfold SemanticDiffQuery.exec
  cases policies : self.samePolicies with
  | true => simp [same]
  | false =>
    simp only [same, Bool.and_false, Bool.false_eq_true, if_false, false_or]
    by_cases differs : SemanticDiffQuery.getResults (SemanticDiffQuery.computeDiff self) = 0
    · simp [differs]
    · cases cmd_line_flag <;> simp [Nat.pos_of_ne_zero differs, differs]

/-- Nothing is reported if the connections between distinct peers are the same. -/
theorem unreported (parsed1 : ParsedConfig self.config1) (parsed2 : ParsedConfig self.config2)
    (same : ∀ x : Flow E κ, x.src ≠ x.dst →
      (Keeps self self.config1 x ↔ Keeps self self.config2 x)) (x : Flow E κ) :
    (SemanticDiffQuery.computeDiff self).countP (removes x) = 0 ∧
      (SemanticDiffQuery.computeDiff self).countP (adds x) = 0 := by
  by_cases loop : x.src = x.dst
  · exact loop_unreported parsed1 parsed2 loop
  · by_cases overlooked : Overlooked self x
    · exact (overlooked_unreported parsed1 parsed2 overlooked).2.2
    · obtain ⟨removed, added⟩ := reported_once parsed1 parsed2 loop overlooked
      rw [removed, added]
      simp [tally, Lost, Gained, same x loop]

/-- A policy that lets the pod have connections from IP addresses only. -/
def looplessPolicy : Policy (FlowSet PeerKind Unit) := .k8s
  { name := "loopless"
    policy_namespace := some "default"
    selected_peers := {.pod}
    affects_ingress := true
    affects_egress := false
    policy_kind := .K8sNetworkPolicy
    ingress_rules := [⟨makeConnProps { src_peers := some {.ipBlock}, dst_peers := some {.pod} }⟩]
    egress_rules := []
    kind := rfl
    ingress_inside := by simp [Inside, ConnectivityCube.Admits, capturedEnd]
    egress_inside := noEgress_inside }

theorem loopless_verdict {x : Flow PeerKind Unit} : firstVerdict [looplessPolicy] true x =
    if x.src = .ipBlock ∧ x.dst = .pod then some .allow else none := by
  simp [firstVerdict, looplessPolicy, Policy.base, NetworkPolicy.affects,
    Policy.allowedConnections, K8sNetworkPolicy.allowedConnections, connectionsOf,
    K8sNetworkPolicy.syncProps, K8sNetworkPolicy.rules, unionProps, Decisions.verdict,
    PolicyConnections.decisions, ConnectivityCube.Admits]

theorem loopless_ingress {x : Flow PeerKind Unit} (pod : x.dst = .pod) :
    Admits [looplessPolicy] true x ↔ x.src = .ipBlock := by
  rw [Admits, loopless_verdict]
  simp [pod, capturedEnd, Captures, looplessPolicy, Policy.base, NetworkPolicy.affects]

theorem loopless_egress {x : Flow PeerKind Unit} (pod : x.src = .pod) :
    Admits [looplessPolicy] false x := by
  refine Or.inl ⟨by simp [capturedEnd, pod, Peers.kind], ?_⟩
  simp [Captures, looplessPolicy, Policy.base, NetworkPolicy.affects]

/-- A cluster with one pod. -/
def onePod : PeerContainer PeerKind := ⟨{.pod}⟩

theorem loopless_allowed {x : Flow PeerKind Unit} (possible : Possible onePod x) :
    AllowedByAll (configOf onePod [looplessPolicy]) x ↔ (x.dst = .pod → x.src = .ipBlock) := by
  have known : ∀ e ∈ onePod.peer_set, e = .pod := by decide
  have handled : ¬ Unhandled (configOf onePod [looplessPolicy]) := fun ⟨⟨e, member, hep⟩, _⟩ => by
    rw [known e member] at hep
    cases hep
  have all : x ∈ (configOf onePod [looplessPolicy]).allConnsPropsPerConfigPeers := by
    rw [NetworkConfig.allConnsPropsPerConfigPeers, mem_makeConnProps]
    simp only [ConnectivityCube.Admits, Option.some.injEq, forall_eq', reduceCtorEq, false_implies,
      implies_true, and_true]
    exact ⟨possible.src_all, possible.dst⟩
  have layers : (configOf onePod [looplessPolicy]).policies_container.layers =
      [(.K8s_Calico, [looplessPolicy])] := rfl
  have layered : ∀ policy ∈ [looplessPolicy], IsK8sCalico policy := by
    simp [looplessPolicy, IsK8sCalico, Policy.base, NetworkLayerName.policyTypeToLayer]
  have ingress : x.dst ≠ .ipBlock → (x ∈ (K8sCalicoNetworkLayer.allowedXgressConns [looplessPolicy]
      true onePod .onlyAllAllowedConnections).all_allowed_conns ↔
      (x.dst = .pod → x.src = .ipBlock)) := by
    intro inside
    have member := possible.dst_peer inside
    rw [k8sCalico_xgress layered rfl possible.src_all member, loopless_ingress (known _ member)]
    simp [known _ member]
  have egress : x.src ≠ .ipBlock → x ∈ (K8sCalicoNetworkLayer.allowedXgressConns [looplessPolicy]
      false onePod .onlyAllAllowedConnections).all_allowed_conns := by
    intro inside
    have member := (PeerContainer.mem_group.mp (possible.src_pod inside)).1
    exact (k8sCalico_xgress layered rfl possible.dst member).mpr (loopless_egress (known _ member))
  have layer : layerAllows (configOf onePod [looplessPolicy]) .K8s_Calico [looplessPolicy] x ↔
      (x.dst = .pod → x.src = .ipBlock) := by
    refine (mem_layer_possible possible rfl).trans ((and_iff_left egress).trans ?_)
    by_cases dst : x.dst = .ipBlock
    · simp [dst, Peers.kind]
    · exact (forall_prop_of_true dst).trans (ingress dst)
  simp [AllowedByAll, handled, all, layers, layer]

theorem onePod_parsed {appended : List (Policy (FlowSet PeerKind Unit))}
    (only : ∀ policy ∈ appended, policy = looplessPolicy) :
    ParsedConfig (configOf onePod appended) := by
  have noIps : ∀ e ∈ onePod.peer_set, Peers.kind e ≠ .ipBlock := by decide
  refine ⟨appended, appendAll_wellPlaced appended, noIps, ?_, ?_⟩
  · intro policy member
    rw [only policy member]
    exact trivial
  · intro policy member
    rw [only policy member]
    exact fun e => id

theorem noPolicy_allowed {x : Flow PeerKind Unit} (possible : Possible onePod x) :
    AllowedByAll (configOf (P := FlowSet PeerKind Unit) onePod []) x := by
  have free : ∀ e, e ∉ (configOf (P := FlowSet PeerKind Unit) onePod []).getCapturedPods :=
    fun e captured => Finset.notMem_empty e captured
  have noHep : ∀ e ∈ onePod.getAllPeersGroup true true, Peers.kind e ≠ .hostEP := by decide
  refine ((onePod_parsed (List.forall_mem_nil _)).allowed_iff possible (free _) (free _)).mpr ?_
  exact ⟨⟨noHep _ possible.src_all, noHep _ possible.dst⟩, nofun⟩

end Diff
end Nca.NetworkConfig
