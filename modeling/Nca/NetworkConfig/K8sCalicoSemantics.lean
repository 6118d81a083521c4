import Nca.NetworkConfig.PolicyCollection

/-!
The K8s_Calico layer, connection by connection. Peers that no policy captures are free unless they
are host endpoints; for the others the first policy that decides is followed, and what it passes on
is left to the default profiles, which allow everything to peers that are not host endpoints.
-/

namespace Nca.NetworkConfig
open CoreDS Lib Resources

variable {P E κ : Type} [Fintype E] [DecidableEq E] [Peers E] [ConnectivityProperties P E κ]
  {policies_list : List (Policy P)} {is_ingress : Bool} {peer_container : PeerContainer E}
  {f : PolicyConnectionsFilter} {x : Flow E κ}

/-- A policy of the K8s_Calico layer. -/
def IsK8sCalico (policy : Policy P) : Prop :=
  NetworkLayerName.policyTypeToLayer policy.base.policy_kind = some .K8s_Calico

/-- The policy affects the direction and selects the peer. -/
def Captures (policy : Policy P) (is_ingress : Bool) (e : E) : Prop :=
  policy.base.affects is_ingress = true ∧ e ∈ policy.base.selected_peers

/-- What the first policy that affects the direction and decides about the connection says. -/
def firstVerdict (policies_list : List (Policy P)) (is_ingress : Bool) (x : Flow E κ) :
    Option Verdict :=
  (policies_list.filter (·.base.affects is_ingress)).findSome? fun policy =>
    (policy.allowedConnections is_ingress).decisions.verdict x

/-- The direction admits the connection. -/
def Admits (policies_list : List (Policy P)) (is_ingress : Bool) (x : Flow E κ) : Prop :=
  (Peers.kind (capturedEnd is_ingress x) ≠ .hostEP ∧
    ∀ policy ∈ policies_list, ¬ Captures policy is_ingress (capturedEnd is_ingress x)) ∨
  firstVerdict policies_list is_ingress x = some .allow ∨
  (firstVerdict policies_list is_ingress x = some .pass ∧
    Peers.kind (capturedEnd is_ingress x) ≠ .hostEP ∧
    ∃ policy ∈ policies_list, Captures policy is_ingress (capturedEnd is_ingress x))

omit [Fintype E] [DecidableEq E] in
theorem k8sCalico_cases {policy : Policy P} (layer : IsK8sCalico policy) :
    (∃ p, policy = .k8s p) ∨ ∃ p, policy = .calico p := by
  cases policy with
  | k8s p => exact Or.inl ⟨p, rfl⟩
  | calico p => exact Or.inr ⟨p, rfl⟩
  | istio p | sidecar p =>
    simp [IsK8sCalico, Policy.base, p.kind, NetworkLayerName.policyTypeToLayer] at layer
  | gateway p =>
    have kind := p.kind
    simp only [List.mem_cons, List.not_mem_nil, or_false] at kind
    rcases kind with kind | kind <;>
      simp [IsK8sCalico, Policy.base, kind, NetworkLayerName.policyTypeToLayer] at layer

omit [DecidableEq E] in
/-- A policy decides only about connections of the peers that it selects. -/
theorem k8sCalico_inside {policy : Policy P} (layer : IsK8sCalico policy) {v : Verdict}
    (decided : (policy.syncProps is_ingress).verdict x = some v) :
    capturedEnd is_ingress x ∈ policy.base.selected_peers := by
  obtain ⟨p, rfl⟩ | ⟨p, rfl⟩ := k8sCalico_cases layer
  · have matched : x ∈ unionProps K8sPolicyRule.props (p.rules is_ingress) := by
      simpa [Policy.syncProps, K8sNetworkPolicy.syncProps, Decisions.verdict] using
        Option.isSome_iff_exists.mpr ⟨v, decided⟩
    obtain ⟨rule, member, inside⟩ := mem_unionProps.mp matched
    cases is_ingress with
    | true => exact p.ingress_inside rule member x inside
    | false => exact p.egress_inside rule member x inside
  · rw [show (Policy.calico p).syncProps is_ingress = updateOptPropsByOrder (p.rules is_ingress)
      from rfl, (updateOptProps_firstMatch _).2 x] at decided
    obtain ⟨rule, member, matched⟩ := List.exists_of_findSome?_eq_some decided
    have inside : x ∈ rule.props := by
      by_contra outside
      simp [outside] at matched
    cases is_ingress with
    | true => exact p.ingress_inside rule member x inside
    | false => exact p.egress_inside rule member x inside

omit [DecidableEq E] in
theorem k8sCalico_captured {policy : Policy P} (layer : IsK8sCalico policy) {e : E} :
    e ∈ policy.captured is_ingress ↔ Captures policy is_ingress e := by
  unfold Captures
  obtain ⟨p, rfl⟩ | ⟨p, rfl⟩ := k8sCalico_cases layer
  · show e ∈ (if p.affects is_ingress then p.selected_peers else ∅) ↔ _
    split <;> simp_all [Policy.base]
  · show e ∈ (if p.affects is_ingress then p.selected_peers else ∅) ↔ _
    split <;> simp_all [Policy.base]

/-- A policy without selected peers decides nothing, so it makes no difference not to ask it. -/
theorem k8sCalico_verdictOn {policy : Policy P} (layer : IsK8sCalico policy) :
    policy.verdictOn is_ingress x = if policy.base.affects is_ingress
      then (policy.allowedConnections is_ingress).decisions.verdict x else none := by
  unfold Policy.verdictOn
  rw [policy.allowedConnections_decisions]
  by_cases affects : policy.base.affects is_ingress = true
  · by_cases idle : policy.captured is_ingress = ∅
    · cases decided : (policy.syncProps is_ingress).verdict x with
      | none => simp
      | some v =>
        have inside : capturedEnd is_ingress x ∈ policy.captured is_ingress :=
          (k8sCalico_captured layer).mpr ⟨affects, k8sCalico_inside layer decided⟩
        simp [idle] at inside
    · simp [affects, idle]
  · have idle : policy.captured is_ingress = ∅ := by
      refine Finset.eq_empty_of_forall_notMem fun e member => ?_
      exact affects ((k8sCalico_captured layer).mp member).1
    simp [affects, idle]

theorem findSome_verdictOn (layered : ∀ policy ∈ policies_list, IsK8sCalico policy) :
    policies_list.findSome? (Policy.verdictOn · is_ingress x) =
      firstVerdict policies_list is_ingress x := by
  unfold firstVerdict
  induction policies_list with
  | nil => rfl
  | cons policy rest ih =>
    obtain ⟨first, others⟩ := List.forall_mem_cons.mp layered
    rw [List.findSome?_cons, ih others, k8sCalico_verdictOn first, List.filter_cons]
    by_cases affects : policy.base.affects is_ingress = true
    · simp only [affects, if_true, List.findSome?_cons]
    · simp only [affects, Bool.false_eq_true, if_false]

omit [Fintype E] [DecidableEq E] [Peers E] in
theorem mem_xgressCube {others captured : PeerSet E} :
    x ∈ (makeConnProps (xgressCube is_ingress others captured) : P) ↔
      otherEnd is_ingress x ∈ others ∧ capturedEnd is_ingress x ∈ captured := by
  cases is_ingress <;> simp [xgressCube, ConnectivityCube.Admits, otherEnd, capturedEnd, and_comm]

theorem mem_k8sCalico_xgress (asked : f.calc_all_allowed = true)
    (other : otherEnd is_ingress x ∈ peer_container.getAllPeersGroup true true)
    (captured : capturedEnd is_ingress x ∈ peer_container.peer_set) :
    x ∈ (K8sCalicoNetworkLayer.allowedXgressConns policies_list is_ingress peer_container
      f).all_allowed_conns ↔
    let collected := NetworkLayer.collectPoliciesConnsOptimized policies_list is_ingress
      fun _ => true
    let noHep := Peers.kind (capturedEnd is_ingress x) ≠ .hostEP
    (noHep ∧ capturedEnd is_ingress x ∉ collected.captured) ∨ x ∈ collected.allowed_conns ∨
      (x ∈ collected.pass_conns ∧ noHep ∧ capturedEnd is_ingress x ∈ collected.captured) := by
  unfold K8sCalicoNetworkLayer.allowedXgressConns
  generalize built :
    NetworkLayer.collectPoliciesConnsOptimized policies_list is_ingress (fun _ => true) = collected
  have fresh : collected.all_allowed_conns = ∅ := built ▸ NetworkLayer.collected_all_allowed
  have cube : ∀ peers : PeerSet E, x ∈ (makeConnProps (xgressCube is_ingress
      (peer_container.getAllPeersGroup true true) peers) : P) ↔ capturedEnd is_ingress x ∈ peers :=
    fun peers => mem_xgressCube.trans (and_iff_right other)
  have guard : ∀ peers : PeerSet E, x ∈ (makeConnProps (xgressCube is_ingress
      (peer_container.getAllPeersGroup true true) peers) : P) → peers ≠ ∅ :=
    fun peers member => Finset.ne_empty_of_mem ((cube peers).mp member)
  simp only [asked, and_true, if_true, apply_ite PolicyConnections.all_allowed_conns,
    apply_ite PolicyConnections.allowed_conns, apply_ite PolicyConnections.captured,
    apply_ite PolicyConnections.pass_conns, ite_self, ExactSet.mem_union]
  rw [mem_guarded (guard _), mem_guarded ?passed, fresh, ExactSet.mem_inter, cube, cube]
  case passed =>
    intro member
    obtain ⟨passed, inside⟩ := ExactSet.mem_inter.mp member
    exact ⟨guard _ inside, ExactSet.bool_iff.mpr ⟨x, passed⟩⟩
  simp only [ExactSet.not_mem_empty, false_or, Finset.mem_sdiff, Finset.mem_inter,
    Finset.mem_filter, PeerContainer.mem_group_dns, captured, true_and]

/-- A direction admits what its policies, asked one after the other, admit. -/
theorem k8sCalico_xgress (layered : ∀ policy ∈ policies_list, IsK8sCalico policy)
    (asked : f.calc_all_allowed = true)
    (other : otherEnd is_ingress x ∈ peer_container.getAllPeersGroup true true)
    (captured : capturedEnd is_ingress x ∈ peer_container.peer_set) :
    x ∈ (K8sCalicoNetworkLayer.allowedXgressConns policies_list is_ingress peer_container
      f).all_allowed_conns ↔ Admits policies_list is_ingress x := by
  obtain ⟨disjoint, verdict⟩ :
      (NetworkLayer.collectPoliciesConnsOptimized policies_list is_ingress
        fun _ => true).decisions.Disjoint ∧ _ := NetworkLayer.collected_verdict
  have decided := (verdict x).trans (findSome_verdictOn layered)
  rw [mem_k8sCalico_xgress asked other captured, Admits, ← decided, Decisions.verdict_allow,
    Decisions.verdict_pass disjoint]
  have capturing : ∀ e, e ∈ (NetworkLayer.collectPoliciesConnsOptimized policies_list is_ingress
      fun _ => true).captured ↔ ∃ policy ∈ policies_list, Captures policy is_ingress e := by
    intro e
    rw [NetworkLayer.mem_collected_captured]
    refine exists_congr fun policy => and_congr_right fun member => ?_
    exact (and_iff_right rfl).trans (k8sCalico_captured (layered policy member))
  simp only [capturing, PolicyConnections.decisions, not_exists, not_and]

theorem noIngress_inside : ∀ rule ∈ ([] : List (K8sPolicyRule (FlowSet PeerKind Unit))),
    Inside ({.pod} : PeerSet PeerKind) true rule.props := nofun

theorem noEgress_inside : ∀ rule ∈ ([] : List (K8sPolicyRule (FlowSet PeerKind Unit))),
    Inside ({.pod} : PeerSet PeerKind) false rule.props := nofun

/-- A policy that isolates the pod for ingress. -/
def isolatingPolicy : Policy (FlowSet PeerKind Unit) := .k8s
  { name := "isolate"
    policy_namespace := some "default"
    selected_peers := {.pod}
    affects_ingress := true
    affects_egress := false
    policy_kind := .K8sNetworkPolicy
    ingress_rules := []
    egress_rules := []
    kind := rfl
    ingress_inside := noIngress_inside
    egress_inside := noEgress_inside }

end Nca.NetworkConfig
