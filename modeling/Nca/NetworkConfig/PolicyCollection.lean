import Nca.Resources.PolicyDecisions
import Nca.NetworkConfig.NetworkLayer

/-!
What the policies of a layer collect. In bulk they decide about each connection what the first
policy says that says something about it.
-/

namespace Nca.NetworkConfig
open CoreDS Lib Resources

variable {P E κ : Type} [Fintype E] [DecidableEq E] [Peers E] [ConnectivityProperties P E κ]
  {policies_list : List (Policy P)} {is_ingress : Bool} {captured_func : Policy P → Bool}

section Guards

variable {c : Prop} [Decidable c] {s t : P} {x : Flow E κ}
omit [Fintype E] [DecidableEq E] [Peers E]

theorem mem_ite_union : x ∈ (if c then s ∪ t else s) ↔ x ∈ s ∨ (c ∧ x ∈ t) := by
  split <;> simp_all

theorem mem_guarded (guard : x ∈ t → c) : x ∈ (if c then s ∪ t else s) ↔ x ∈ s ∨ x ∈ t := by
  rw [mem_ite_union, and_iff_right_of_imp guard]

end Guards

namespace NetworkLayer

/-- The decisions of a policy that is asked. -/
def askedDecisions (is_ingress : Bool) (policy : Policy P) : Decisions P :=
  if policy.captured is_ingress ≠ ∅ then policy.syncProps is_ingress else .none

theorem asked_disjoint (policy : Policy P) : (askedDecisions is_ingress policy).Disjoint := by
  unfold askedDecisions
  split
  · exact policy.syncProps_disjoint is_ingress
  · exact Decisions.none_disjoint

theorem asked_verdict (policy : Policy P) (x : Flow E κ) :
    (askedDecisions is_ingress policy).verdict x = policy.verdictOn is_ingress x := by
  unfold askedDecisions Policy.verdictOn
  split
  · rfl
  · exact Decisions.verdict_none

theorem collectPolicy_step (is_ingress : Bool) (captured_func : Policy P → Bool)
    (acc : PolicyConnections P E) (policy : Policy P) :
    (collectPolicy is_ingress captured_func acc policy).decisions =
        acc.decisions.combine (askedDecisions is_ingress policy) ∧
      (∀ e, e ∈ (collectPolicy is_ingress captured_func acc policy).captured ↔
        e ∈ acc.captured ∨ captured_func policy = true ∧ e ∈ policy.captured is_ingress) ∧
      (collectPolicy is_ingress captured_func acc policy).all_allowed_conns =
        acc.all_allowed_conns := by
  unfold collectPolicy askedDecisions Policy.captured
  dsimp only
  split
  case isTrue asked =>
    refine ⟨?_, fun e => ?_, rfl⟩
    · rw [← policy.allowedConnections_decisions]
      rfl
    · split <;> simp_all
  case isFalse idle =>
    rw [ne_eq, not_not] at idle
    refine ⟨?_, fun e => ?_, rfl⟩
    · have keep : ∀ s t u : P, s ∪ ((∅ \ t) \ u) = s := by
        intro s t u
        simp [ExactSet.eq_iff]
      simp only [Decisions.combine, Decisions.none, keep]
    · simp [idle]

theorem collect_run (policies_list : List (Policy P)) (acc : PolicyConnections P E) :
    (policies_list.foldl (collectPolicy is_ingress captured_func) acc).decisions =
        (policies_list.map (askedDecisions is_ingress)).foldl .combine acc.decisions ∧
      (∀ e, e ∈ (policies_list.foldl (collectPolicy is_ingress captured_func) acc).captured ↔
        e ∈ acc.captured ∨ ∃ policy ∈ policies_list,
          captured_func policy = true ∧ e ∈ policy.captured is_ingress) ∧
      (policies_list.foldl (collectPolicy is_ingress captured_func) acc).all_allowed_conns =
        acc.all_allowed_conns := by
  induction policies_list generalizing acc with
  | nil => simp
  | cons policy rest ih =>
    obtain ⟨decided, captured, all⟩ := collectPolicy_step is_ingress captured_func acc policy
    obtain ⟨decided', captured', all'⟩ :=
      ih (collectPolicy is_ingress captured_func acc policy)
    refine ⟨?_, fun e => ?_, all'.trans all⟩
    · rw [List.foldl_cons, decided', decided, List.map_cons, List.foldl_cons]
    · rw [List.foldl_cons, captured', captured, or_assoc, List.exists_mem_cons_iff]

/-- The first policy that says something about a connection decides. -/
theorem collected_verdict :
    (collectPoliciesConnsOptimized policies_list is_ingress captured_func).decisions.Disjoint ∧
      ∀ x, (collectPoliciesConnsOptimized policies_list is_ingress captured_func).decisions.verdict
        x = policies_list.findSome? (Policy.verdictOn · is_ingress x) := by
  have each : ∀ d ∈ policies_list.map (askedDecisions is_ingress), Decisions.Disjoint d := by
    intro d member
    obtain ⟨policy, _, rfl⟩ := List.mem_map.mp member
    exact asked_disjoint policy
  have run : (collectPoliciesConnsOptimized policies_list is_ingress captured_func).decisions =
      (policies_list.map (askedDecisions is_ingress)).foldl .combine .none :=
    (collect_run policies_list .init).1
  obtain ⟨disjoint, verdict⟩ := Decisions.foldl_combine _ Decisions.none_disjoint each
  rw [run]
  refine ⟨disjoint, fun x => (verdict x).trans ?_⟩
  rw [Decisions.verdict_none, Option.none_or, List.findSome?_map]
  congr 1
  funext policy
  exact asked_verdict policy x

theorem mem_collected_captured {e : E} :
    e ∈ (collectPoliciesConnsOptimized policies_list is_ingress captured_func).captured ↔
      ∃ policy ∈ policies_list, captured_func policy = true ∧ e ∈ policy.captured is_ingress := by
  rw [collectPoliciesConnsOptimized, (collect_run policies_list _).2.1]
  simp [PolicyConnections.init]

theorem collected_all_allowed :
    (collectPoliciesConnsOptimized policies_list is_ingress captured_func).all_allowed_conns = ∅ :=
  (collect_run policies_list .init).2.2

/-- The policy is asked, and allows, denies or passes the connection. -/
def Mentions (is_ingress : Bool) (x : Flow E κ) (policy : Policy P) : Prop :=
  (policy.allowedConnections is_ingress).captured ≠ ∅ ∧
    (x ∈ (policy.allowedConnections is_ingress).allowed_conns ∨
      x ∈ (policy.allowedConnections is_ingress).denied_conns ∨
      x ∈ (policy.allowedConnections is_ingress).pass_conns)

instance (x : Flow E κ) (policy : Policy P) : Decidable (Mentions is_ingress x policy) :=
  inferInstanceAs (Decidable (_ ∧ _))

/-- The first policy of the list that mentions the connection. -/
def firstMention (policies_list : List (Policy P)) (is_ingress : Bool) (x : Flow E κ) :
    Option (Policy P) :=
  policies_list.find? fun policy => decide (Mentions is_ingress x policy)

theorem mentions_iff {policy : Policy P} {x : Flow E κ} :
    Mentions is_ingress x policy ↔ (policy.verdictOn is_ingress x).isSome = true := by
  unfold Mentions Policy.verdictOn Policy.captured
  rw [← policy.allowedConnections_decisions]
  unfold Decisions.verdict PolicyConnections.decisions
  by_cases asked : (policy.allowedConnections is_ingress).captured = ∅
  · simp [asked]
  · simp only [ne_eq, asked, not_false_eq_true, true_and, if_true]
    split_ifs <;> simp_all

theorem first_verdict (x : Flow E κ) :
    policies_list.findSome? (Policy.verdictOn · is_ingress x) =
      (firstMention policies_list is_ingress x).bind (Policy.verdictOn · is_ingress x) := by
  unfold firstMention
  induction policies_list with
  | nil => rfl
  | cons policy rest ih =>
    rw [List.findSome?_cons, List.find?_cons, ih]
    by_cases mentioned : Mentions is_ingress x policy
    · obtain ⟨verdict, said⟩ := Option.isSome_iff_exists.mp (mentions_iff.mp mentioned)
      simp [mentioned, said]
    · have silent : policy.verdictOn is_ingress x = none := by
        simpa [mentions_iff] using mentioned
      simp [mentioned, silent]

theorem asked_verdicts {policy : Policy P} {x : Flow E κ}
    (asked : (policy.allowedConnections is_ingress).captured ≠ ∅) :
    (policy.verdictOn is_ingress x = some .allow ↔
        x ∈ (policy.allowedConnections is_ingress).allowed_conns) ∧
      (policy.verdictOn is_ingress x = some .deny ↔
        x ∈ (policy.allowedConnections is_ingress).denied_conns) ∧
      (policy.verdictOn is_ingress x = some .pass ↔
        x ∈ (policy.allowedConnections is_ingress).pass_conns) := by
  have disjoint := policy.syncProps_disjoint is_ingress
  have said : policy.verdictOn is_ingress x = (policy.syncProps is_ingress).verdict x :=
    if_pos asked
  rw [said]
  rw [← policy.allowedConnections_decisions] at disjoint ⊢
  exact ⟨Decisions.verdict_allow, Decisions.verdict_deny disjoint, Decisions.verdict_pass disjoint⟩

theorem bind_first {found : Option (Policy P)} {x : Flow E κ} {verdict : Verdict}
    {conns : Policy P → P}
    (each : ∀ policy ∈ found, policy.verdictOn is_ingress x = some verdict ↔ x ∈ conns policy) :
    found.bind (Policy.verdictOn · is_ingress x) = some verdict ↔
      ∃ policy ∈ found, x ∈ conns policy := by
  cases found with
  | none => simp
  | some policy => simpa using each policy rfl

/-- What a layer allows: connections to IP addresses are free for ingress, and those from them for
egress. -/
theorem mem_layer_all {layer : NetworkLayerName} {peer_container : PeerContainer E}
    {f : PolicyConnectionsFilter} {x : Flow E κ} (asked : f.calc_all_allowed = true) :
    x ∈ (allowedConnections layer policies_list peer_container f).all_allowed_conns ↔
      (x ∈ (allowedXgressConns layer policies_list true peer_container f).all_allowed_conns ∨
        (x.src ∈ peer_container.getAllPeersGroup ∧ Peers.kind x.dst = .ipBlock)) ∧
      (x ∈ (allowedXgressConns layer policies_list false peer_container f).all_allowed_conns ∨
        (Peers.kind x.src = .ipBlock ∧ x.dst ∈ peer_container.getAllPeersGroup)) := by
  simp [allowedConnections, asked, ConnectivityCube.Admits, mem_allIps]

/-- How the layers choose the policies that count as capturing peers. -/
def CapturedFunc (captured_func : Policy P → Bool) : Prop :=
  captured_func = (fun _ => true) ∨ captured_func = IstioNetworkLayer.capturedCondFunc

/-- The policies of both lists decide the same and capture the same peers. -/
structure SameDecisions (policies_list policies_list' : List (Policy P)) : Prop where
  verdicts : ∀ is_ingress (x : Flow E κ), policies_list.findSome? (Policy.verdictOn · is_ingress x) =
    policies_list'.findSome? (Policy.verdictOn · is_ingress x)
  captured : ∀ captured_func : Policy P → Bool, CapturedFunc captured_func → ∀ is_ingress e,
    (∃ policy ∈ policies_list, captured_func policy = true ∧ e ∈ policy.captured is_ingress) ↔
      ∃ policy ∈ policies_list', captured_func policy = true ∧ e ∈ policy.captured is_ingress

variable {policies_list' : List (Policy P)}

theorem collect_congr (same : SameDecisions policies_list policies_list') (is_ingress : Bool)
    {captured_func : Policy P → Bool} (used : CapturedFunc captured_func) :
    collectPoliciesConnsOptimized policies_list is_ingress captured_func =
      collectPoliciesConnsOptimized policies_list' is_ingress captured_func := by
  have verdicts := same.verdicts is_ingress
  have captured := same.captured captured_func used is_ingress
  have collected : ∀ policies_list : List (Policy P), ∃ collected : PolicyConnections P E,
      collectPoliciesConnsOptimized policies_list is_ingress captured_func = collected ∧
      (collected.decisions.Disjoint ∧ ∀ x : Flow E κ, collected.decisions.verdict x =
        policies_list.findSome? (Policy.verdictOn · is_ingress x)) ∧
      (∀ e, e ∈ collected.captured ↔ ∃ policy ∈ policies_list,
        captured_func policy = true ∧ e ∈ policy.captured is_ingress) ∧
      collected.all_allowed_conns = ∅ := fun policies_list =>
    ⟨_, rfl, collected_verdict, fun _ => mem_collected_captured, collected_all_allowed⟩
  obtain ⟨⟨peers, _, _, _, all⟩, found, ⟨disjoint, verdict⟩, members, rfl⟩ := collected policies_list
  obtain ⟨⟨peers', _, _, _, all'⟩, found', ⟨disjoint', verdict'⟩, members', rfl⟩ :=
    collected policies_list'
  have decisions := Decisions.eq_of_verdicts disjoint disjoint' fun x =>
    (verdict x).trans ((verdicts x).trans (verdict' x).symm)
  have equal : peers = peers' := Finset.ext fun e =>
    (members e).trans ((captured e).trans (members' e).symm)
  rw [found, found', equal]
  cases decisions
  rfl

/-- A layer allows the same whichever of the lists it has. -/
theorem allowedConnections_congr (same : SameDecisions policies_list policies_list')
    (layer : NetworkLayerName) (peer_container : PeerContainer E) (f : PolicyConnectionsFilter) :
    allowedConnections layer policies_list peer_container f =
      allowedConnections layer policies_list' peer_container f := by
  have k8sCalico : ∀ is_ingress, K8sCalicoNetworkLayer.allowedXgressConns policies_list is_ingress
      peer_container f = K8sCalicoNetworkLayer.allowedXgressConns policies_list' is_ingress
      peer_container f := by
    intro is_ingress
    unfold K8sCalicoNetworkLayer.allowedXgressConns
    rw [collect_congr same is_ingress (Or.inl rfl)]
  have istio : ∀ is_ingress, IstioNetworkLayer.allowedXgressConns policies_list is_ingress
      peer_container f = IstioNetworkLayer.allowedXgressConns policies_list' is_ingress
      peer_container f := by
    intro is_ingress
    unfold IstioNetworkLayer.allowedXgressConns
    rw [collect_congr same is_ingress (Or.inr rfl)]
  have xgress : ∀ is_ingress, allowedXgressConns layer policies_list is_ingress peer_container f =
      allowedXgressConns layer policies_list' is_ingress peer_container f := by
    cases layer with
    | K8s_Calico | K8sGateway => exact k8sCalico
    | Istio | IstioGateway => exact istio
  unfold allowedConnections
  rw [xgress true, xgress false]

end NetworkLayer
end Nca.NetworkConfig
