import Nca.NetworkConfig.SanityQuery
import Nca.NetworkConfig.QueryAgreement
import Nca.NetworkConfig.IstioOrder

/-!
What the sanity check for conflicting policies is good for. Policies of one order are evaluated as they
were appended. Where the check finds no conflict, and policies of one order neither pass nor, next to
Kubernetes policies, deny, what the K8s_Calico layer allows does not depend on that.
-/

namespace Nca.NetworkConfig
open CoreDS Lib Resources SanityQuery

variable {P E κ : Type} [DecidableEq E] [Peers E] [ConnectivityProperties P E κ]

section Ties

/-- What policies of one order may do besides what the check looks at. The connections of the rules are
between the peers that were named for them; no policy passes connections if another one has its order,
and none denies if a Kubernetes policy has its order. -/
structure PlainTies (policies : List (LayerPolicy P)) : Prop where
  named : ∀ p, .calico p ∈ policies → ∀ is_ingress, ∀ rule ∈ p.rules is_ingress, ∀ x : Flow E κ,
    x ∈ rule.props → x.src ∈ rule.src_peers ∧ x.dst ∈ rule.dst_peers
  pass : ∀ p, .calico p ∈ policies → ∀ other ∈ policies, other ≠ .calico p →
    orderKey p.toPolicy = orderKey other.toPolicy →
    ∀ is_ingress, ∀ rule ∈ p.rules is_ingress, rule.action ≠ .Pass
  k8s : ∀ p, .calico p ∈ policies → ∀ q, .k8s q ∈ policies →
    orderKey p.toPolicy = orderKey (LayerPolicy.k8s q).toPolicy →
    ∀ is_ingress, ∀ rule ∈ p.rules is_ingress, rule.action ≠ .Deny

omit [DecidableEq E] in
theorem PlainTies.perm {policies policies' : List (LayerPolicy P)} (perm : policies.Perm policies')
    (plain : PlainTies policies) : PlainTies policies' where
  named p listed := plain.named p (perm.mem_iff.mpr listed)
  pass p listed other listed' := plain.pass p (perm.mem_iff.mpr listed) other (perm.mem_iff.mpr listed')
  k8s p listed q listed' := plain.k8s p (perm.mem_iff.mpr listed) q (perm.mem_iff.mpr listed')

variable [Fintype E] {x : Flow E κ} {is_ingress : Bool}

omit [DecidableEq E] [Fintype E] in
theorem isK8sCalico_layer (a : LayerPolicy P) : IsK8sCalico a.toPolicy := by
  unfold IsK8sCalico
  cases a with
  | k8s p =>
    show NetworkLayerName.policyTypeToLayer p.policy_kind = _
    rw [p.kind]
    rfl
  | calico p =>
    have kind := p.policy.kind
    simp only [List.mem_cons, List.not_mem_nil, or_false] at kind
    show NetworkLayerName.policyTypeToLayer p.policy.policy_kind = _
    rcases kind with kind | kind | kind <;> rw [kind] <;> rfl

/-- A policy that decides affects the direction and selects the end that it captures. -/
theorem verdictOn_captures {policy : Policy P} (layer : IsK8sCalico policy) {v : Verdict}
    (decided : policy.verdictOn is_ingress x = some v) :
    policy.base.affects is_ingress = true ∧ capturedEnd is_ingress x ∈ policy.base.selected_peers := by
  unfold Policy.verdictOn at decided
  split at decided
  case isTrue some =>
    obtain ⟨e, member⟩ := Finset.nonempty_of_ne_empty some
    exact ⟨((k8sCalico_captured layer).mp member).1, k8sCalico_inside layer decided⟩
  case isFalse => cases decided

theorem verdictOn_k8s {p : K8sNetworkPolicy P} {v : Verdict}
    (decided : (LayerPolicy.k8s p).toPolicy.verdictOn is_ingress x = some v) : v = .allow := by
  unfold Policy.verdictOn at decided
  split at decided
  case isTrue =>
    simp only [LayerPolicy.toPolicy, Policy.syncProps, K8sNetworkPolicy.syncProps, Decisions.verdict,
      ExactSet.not_mem_empty, if_false] at decided
    split at decided
    · exact (Option.some.inj decided).symm
    · cases decided
  case isFalse => cases decided

/-- A Calico policy decides by one of its rules. -/
theorem verdictOn_calico {p : CalicoPolicyWithPeers P} {v : Verdict}
    (decided : p.toPolicy.verdictOn is_ingress x = some v) :
    ∃ rule ∈ p.rules is_ingress, x ∈ rule.props ∧ rule.action.verdict = some v := by
  unfold Policy.verdictOn at decided
  split at decided
  case isTrue =>
    have found : (p.policy.rules is_ingress).findSome?
        (fun rule => if x ∈ rule.props then rule.action.verdict else none) = some v :=
      ((updateOptProps_firstMatch _).2 x).symm.trans decided
    obtain ⟨rule, listed, said⟩ := List.exists_of_findSome?_eq_some found
    have same : p.policy.rules is_ingress = (p.rules is_ingress).map (·.toCalicoPolicyRule) := by
      cases is_ingress with
      | true => exact p.same_ingress.symm
      | false => exact p.same_egress.symm
    rw [same] at listed
    obtain ⟨named, inside, rfl⟩ := List.mem_map.mp listed
    split at said
    case isTrue matched => exact ⟨named, inside, matched, said⟩
    case isFalse => cases said
  case isFalse => cases decided

omit [DecidableEq E] [Fintype E] in
theorem order_of_orderKey {p q : CalicoPolicyWithPeers P} (level : orderKey p.toPolicy = orderKey q.toPolicy) :
    p.policy.order = q.policy.order := by
  have orders : ∀ r : CalicoPolicyWithPeers P, orderKey r.toPolicy = (r.policy.order : WithTop ℚ) := by
    intro r
    have order : r.toPolicy.getOrder = r.policy.order := rfl
    rw [orderKey, order]
    cases r.policy.order <;> rfl
  rw [orders, orders] at level
  exact level

/-- Policies of one order that do not conflict say the same of a connection, if both say something. -/
theorem ties_agree {policies : List (LayerPolicy P)} (plain : PlainTies policies)
    (free : ConflictFree (policies.filterMap LayerPolicy.asCalico)) {a b : LayerPolicy P}
    (listed : a ∈ policies) (listed' : b ∈ policies)
    (level : orderKey a.toPolicy = orderKey b.toPolicy) {v w : Verdict}
    (said : a.toPolicy.verdictOn is_ingress x = some v)
    (said' : b.toPolicy.verdictOn is_ingress x = some w) : v = w := by
  by_cases same : a = b
  · subst same
    exact Option.some.inj (said.symm.trans said')
  have calico_allows : ∀ (p : CalicoPolicyWithPeers P) (q : K8sNetworkPolicy P), .calico p ∈ policies →
      .k8s q ∈ policies → orderKey p.toPolicy = orderKey (LayerPolicy.k8s q).toPolicy → ∀ v,
      p.toPolicy.verdictOn is_ingress x = some v → v = .allow := by
    intro p q first second tied v decided
    obtain ⟨rule, inside, -, action⟩ := verdictOn_calico decided
    have noDeny := plain.k8s p first q second tied is_ingress rule inside
    have noPass := plain.pass p first (.k8s q) second (by simp) tied is_ingress rule inside
    cases acted : rule.action <;> rw [acted] at action noDeny noPass <;>
      simp_all [CalicoActionType.verdict]
  cases a with
  | k8s p =>
    cases b with
    | k8s q => exact (verdictOn_k8s said).trans (verdictOn_k8s said').symm
    | calico q => exact (verdictOn_k8s said).trans (calico_allows q p listed' listed level.symm w said').symm
  | calico p =>
    cases b with
    | k8s q => exact (calico_allows p q listed listed' level v said).trans (verdictOn_k8s said').symm
    | calico q =>
      have apart : p ≠ q := fun equal => same (congrArg LayerPolicy.calico equal)
      have conflict_free : ¬ Conflict p q := by
        have either : Std.Symm fun p q : CalicoPolicyWithPeers P => q.isConflicting p = false := by
          refine ⟨fun p q quiet => ?_⟩
          rw [← Bool.not_eq_true, isConflicting_iff] at quiet ⊢
          exact fun conflict => quiet conflict.symm
        have first : p ∈ policies.filterMap LayerPolicy.asCalico :=
          List.mem_filterMap.mpr ⟨.calico p, listed, rfl⟩
        have second : q ∈ policies.filterMap LayerPolicy.asCalico :=
          List.mem_filterMap.mpr ⟨.calico q, listed', rfl⟩
        have quiet := free.forall second first apart.symm
        rw [← Bool.not_eq_true, isConflicting_iff] at quiet
        exact quiet
      obtain ⟨rule, inside, matched, action⟩ := verdictOn_calico said
      obtain ⟨rule', inside', matched', action'⟩ := verdictOn_calico said'
      have noPass := plain.pass p listed _ listed' (Ne.symm same) level is_ingress rule inside
      have noPass' := plain.pass q listed' _ listed same level.symm is_ingress rule' inside'
      by_contra differ
      apply conflict_free
      obtain ⟨affects, selects⟩ := verdictOn_captures (isK8sCalico_layer (.calico p)) said
      obtain ⟨affects', selects'⟩ := verdictOn_captures (isK8sCalico_layer (.calico q)) said'
      have peers := plain.named p listed is_ingress rule inside x matched
      have peers' := plain.named q listed' is_ingress rule' inside' x matched'
      refine ⟨order_of_orderKey level, ⟨_, selects, selects'⟩, is_ingress, affects, affects', rule, inside,
        rule', inside', ⟨Finset.ne_empty_of_mem peers.1, Finset.ne_empty_of_mem peers.2⟩,
        ⟨Finset.ne_empty_of_mem peers'.1, Finset.ne_empty_of_mem peers'.2⟩, ?_⟩
      cases acted : rule.action <;> cases acted' : rule'.action <;>
        simp_all [CalicoActionType.verdict]

end Ties

section Layer

variable [Fintype E] {appended appended' : List (Policy P)} {peer_container : PeerContainer E}

omit [DecidableEq E] [Fintype E] in
/-- Policies of different names or kinds are in the layers, in whatever order they are appended. -/
theorem layer_perm (peer_container : PeerContainer E) (perm : appended.Perm appended')
    (distinct : (appended.map PoliciesContainer.key).Nodup) (layer : NetworkLayerName) :
    ((configOf peer_container appended).layerPolicies layer).Perm
      ((configOf peer_container appended').layerPolicies layer) := by
  have placed := appendAll_wellPlaced appended
  have placed' := appendAll_wellPlaced appended'
  have distinct' : (appended'.map PoliciesContainer.key).Nodup := (perm.map _).nodup_iff.mp distinct
  refine (List.perm_ext_iff_of_nodup ((placed.layer_nodup layer).of_map _)
    ((placed'.layer_nodup layer).of_map _)).mpr ?_
  intro policy
  rw [placed.mem_layer_iff, placed'.mem_layer_iff, placed.values_eq distinct, placed'.values_eq distinct',
    perm.mem_iff]

/-- Sorted lists of the same policies, without conflicts, decide the same. -/
theorem sorted_sameDecisions {policies_list policies_list' : List (Policy P)}
    (perm : policies_list.Perm policies_list')
    (sorted : policies_list.Pairwise fun p q => orderKey p ≤ orderKey q)
    (sorted' : policies_list'.Pairwise fun p q => orderKey p ≤ orderKey q) {layered : List (LayerPolicy P)}
    (layer : layered.map LayerPolicy.toPolicy = policies_list) (plain : PlainTies layered)
    (sane : (hasConflictingPoliciesWithSameOrder (some layered)).1 = false) :
    NetworkLayer.SameDecisions policies_list policies_list' where
  verdicts := by
    intro is_ingress x
    have free : ConflictFree (layered.filterMap LayerPolicy.asCalico) := by
      refine (hasConflictingPolicies_false ?_).mp sane
      rw [← layer, List.pairwise_map] at sorted
      exact sorted
    apply findSome?_sorted_perm sorted sorted' perm
    intro p listed q listed' level v w said said'
    rw [← layer] at listed listed'
    obtain ⟨a, inside, rfl⟩ := List.mem_map.mp listed
    obtain ⟨b, inside', rfl⟩ := List.mem_map.mp listed'
    exact ties_agree plain free inside inside' level said said'
  captured := by
    intro captured_func _ is_ingress e
    simp only [perm.mem_iff]

omit [DecidableEq E] [Fintype E] in
/-- Where all policies are of the K8s_Calico layer, there is no other layer. -/
theorem only_k8sCalico (peer_container : PeerContainer E) (all : ∀ policy ∈ appended, IsK8sCalico policy) :
    (configOf peer_container appended).policies_container.layers =
      [(.K8s_Calico, (configOf peer_container appended).layerPolicies .K8s_Calico)] := by
  have placed := appendAll_wellPlaced appended
  let container := appended.foldl PoliciesContainer.appendPolicy (.init : PoliciesContainer P)
  show container.layers = [(.K8s_Calico, container.layerPolicies .K8s_Calico)]
  cases placed.occupied with
  | inl empty =>
    rw [PoliciesContainer.layerPolicies, empty.2]
    rfl
  | inr occupied =>
    have own : ∀ entry ∈ container.layers, entry.1 = .K8s_Calico := by
      intro entry listed
      obtain ⟨policy, member⟩ := List.exists_mem_of_ne_nil _ (occupied entry listed)
      have belongs := placed.own entry listed policy member
      have stored := placed.once.mem_iff.mp (List.mem_flatMap.mpr ⟨entry, listed, member⟩)
      exact (Option.some.inj ((all policy (placed.inOrder.subset stored)).symm.trans belongs)).symm
    have unique := placed.oneLayer
    change (Dict.keys container.layers).Nodup at unique
    unfold PoliciesContainer.layerPolicies
    cases layers : container.layers with
    | nil =>
      -- a container that has a policy has a layer, and the empty one has the default layer
      cases appended with
      | nil => cases layers
      | cons policy rest =>
        obtain ⟨entry, stored, -⟩ := List.mem_map.mp (placed.complete policy List.mem_cons_self)
        have layered := placed.once.mem_iff.mpr (List.mem_map_of_mem stored)
        change entry.2 ∈ container.layers.flatMap Prod.snd at layered
        rw [layers] at layered
        cases layered
    | cons first rest =>
      have one := own first (by simp [layers])
      cases rest with
      | nil =>
        obtain ⟨layer, policies_list⟩ := first
        obtain rfl : layer = .K8s_Calico := one
        rfl
      | cons second others =>
        have other := own second (by simp [layers])
        rw [layers] at unique
        simp [Dict.keys, one, other] at unique

end Layer

section Istio

variable [Fintype E] {policies_list policies_list' : List (Policy P)} {is_ingress : Bool} {x : Flow E κ}

/-- Only Sidecars decide about egress, and they only allow. -/
theorem istio_egress_verdict {policy : Policy P} (istio : IsIstio policy) {v : Verdict}
    (decided : policy.verdictOn false x = some v) : v = .allow := by
  unfold Policy.verdictOn at decided
  split at decided
  case isTrue =>
    obtain ⟨p, rfl⟩ | ⟨p, rfl⟩ := istio_cases istio
    · exact absurd (decided.symm.trans Decisions.verdict_none) (Option.some_ne_none v)
    · simp only [Policy.syncProps, IstioSidecar.syncProps, Decisions.verdict, ExactSet.not_mem_empty, if_false,
        Bool.false_eq_true] at decided
      split at decided
      · exact (Option.some.inj decided).symm
      · cases decided
  case isFalse => cases decided

theorem istio_ingress_verdict {policy : Policy P} (istio : IsIstio policy) {v : Verdict}
    (decided : policy.verdictOn true x = some v) : v = .allow ∨ v = .deny := by
  classical
  obtain ⟨p, rfl⟩ | ⟨p, rfl⟩ := istio_cases istio
  · rw [istio_verdictOn] at decided
    split at decided
    · cases action : p.action with
      | Allow => simp_all
      | Deny => simp_all
    · cases decided
  · rw [sidecar_verdictOn] at decided
    cases decided

/-- Lists of the same Istio policies decide the same if `Deny` policies come first in both. -/
theorem denyFirst_sameDecisions (perm : policies_list.Perm policies_list')
    (istio : ∀ policy ∈ policies_list, IsIstio policy) (ordered : DenyFirst policies_list)
    (ordered' : DenyFirst policies_list') : NetworkLayer.SameDecisions policies_list policies_list' where
  verdicts := by
    have istio' : ∀ policy ∈ policies_list', IsIstio policy := fun policy listed =>
      istio policy (perm.mem_iff.mpr listed)
    intro is_ingress x
    cases is_ingress with
    | false =>
      -- all verdicts are the same, so any order will do
      let key : Policy P → Unit := fun _ => ()
      have sorted : ∀ policies : List (Policy P), policies.Pairwise fun p q => key p ≤ key q :=
        fun _ => List.pairwise_of_forall fun _ _ => le_refl _
      apply findSome?_sorted_perm (sorted _) (sorted _) perm
      intro p listed q listed' _ v w said said'
      exact (istio_egress_verdict (istio p listed) said).trans
        (istio_egress_verdict (istio q listed') said').symm
    | true =>
      have neverPasses : ∀ policies : List (Policy P), (∀ policy ∈ policies, IsIstio policy) →
          policies.findSome? (Policy.verdictOn · true x) ≠ some .pass := by
        intro policies all found
        obtain ⟨policy, listed, said⟩ := List.exists_of_findSome?_eq_some found
        cases istio_ingress_verdict (all policy listed) said with
        | inl allows => cases allows
        | inr denies => cases denies
      obtain ⟨denied, allowed⟩ := denyFirst_verdict (x := x) istio ordered
      obtain ⟨denied', allowed'⟩ := denyFirst_verdict (x := x) istio' ordered'
      apply Option.ext
      intro v
      cases v with
      | allow =>
        rw [allowed, allowed']
        simp only [perm.mem_iff]
      | deny =>
        rw [denied, denied']
        simp only [perm.mem_iff]
      | pass => exact iff_of_false (neverPasses _ istio) (neverPasses _ istio')
  captured := by
    intro captured_func _ is_ingress e
    simp only [perm.mem_iff]

end Istio

section Config

variable [Fintype E] {appended appended' : List (Policy P)} {peer_container : PeerContainer E}

omit [DecidableEq E] [Fintype E] in
/-- Where there are policies, the layers are those that hold some of them. -/
theorem mem_layers_iff (some : appended ≠ []) {layer : NetworkLayerName} {policies_list : List (Policy P)} :
    (layer, policies_list) ∈ (configOf peer_container appended).policies_container.layers ↔
      policies_list = (configOf peer_container appended).layerPolicies layer ∧ policies_list ≠ [] := by
  have placed := appendAll_wellPlaced appended
  let container := appended.foldl PoliciesContainer.appendPolicy (.init : PoliciesContainer P)
  show _ ∈ container.layers ↔ policies_list = container.layerPolicies layer ∧ _
  have occupied : ∀ entry ∈ container.layers, entry.2 ≠ [] := by
    refine placed.occupied.resolve_left fun empty => ?_
    obtain ⟨policy, listed⟩ := List.exists_mem_of_ne_nil _ some
    have known := placed.complete policy listed
    rw [empty.1] at known
    cases known
  unfold PoliciesContainer.layerPolicies
  constructor
  · intro listed
    rw [Dict.get_of_mem placed.oneLayer listed]
    exact ⟨rfl, occupied _ listed⟩
  · intro ⟨same, filled⟩
    cases found : Dict.get container.layers layer with
    | none =>
      rw [found] at same
      exact absurd same filled
    | some policies =>
      rw [found] at same
      rw [same]
      exact Dict.get_mem found

/-- What is appended: policies of the K8s_Calico and the Istio layer, of different names or kinds; no
conflicts in the first and `Deny` policies first in the second. -/
structure Sane (peer_container : PeerContainer E) (appended : List (Policy P)) (layered : List (LayerPolicy P)) :
    Prop where
  kinds : ∀ policy ∈ appended, IsK8sCalico policy ∨ IsIstio policy
  distinct : (appended.map PoliciesContainer.key).Nodup
  layer : layered.map LayerPolicy.toPolicy = (configOf peer_container appended).layerPolicies .K8s_Calico
  plain : PlainTies layered
  sane : (hasConflictingPoliciesWithSameOrder (some layered)).1 = false
  denyFirst : DenyFirst ((configOf peer_container appended).layerPolicies .Istio)

theorem sane_sameDecisions {layered : List (LayerPolicy P)} (sane : Sane peer_container appended layered)
    (perm : appended.Perm appended')
    (denyFirst : DenyFirst ((configOf peer_container appended').layerPolicies .Istio))
    (layer : NetworkLayerName) :
    NetworkLayer.SameDecisions ((configOf peer_container appended).layerPolicies layer)
      ((configOf peer_container appended').layerPolicies layer) := by
  have placed := appendAll_wellPlaced appended
  have perm' := layer_perm peer_container perm sane.distinct layer
  have own : ∀ policy ∈ (configOf peer_container appended).layerPolicies layer, layerOf policy = some layer :=
    fun _ => placed.mem_layer
  have empty : layer ≠ .K8s_Calico → layer ≠ .Istio →
      (configOf peer_container appended).layerPolicies layer = [] := by
    intro noK8s noIstio
    refine List.eq_nil_iff_forall_not_mem.mpr fun policy listed => ?_
    have belongs := own policy listed
    have stored := (placed.mem_layer_iff.mp listed).1
    cases sane.kinds policy (placed.inOrder.subset stored) with
    | inl k8s => exact noK8s (Option.some.inj (belongs.symm.trans k8s))
    | inr istio => exact noIstio (Option.some.inj (belongs.symm.trans istio))
  have idle : layer ≠ .K8s_Calico → layer ≠ .Istio → NetworkLayer.SameDecisions
      ((configOf peer_container appended).layerPolicies layer)
      ((configOf peer_container appended').layerPolicies layer) := by
    intro noK8s noIstio
    rw [empty noK8s noIstio] at perm' ⊢
    rw [perm'.nil_eq.symm]
    exact ⟨fun _ _ => rfl, fun _ _ _ _ => Iff.rfl⟩
  cases layer with
  | K8s_Calico =>
    exact sorted_sameDecisions perm' placed.sorted (appendAll_wellPlaced appended').sorted sane.layer sane.plain
      sane.sane
  | Istio => exact denyFirst_sameDecisions perm' own sane.denyFirst denyFirst
  | K8sGateway => exact idle (by decide) (by decide)
  | IstioGateway => exact idle (by decide) (by decide)

theorem allowed_transfer (some : appended ≠ []) (some' : appended' ≠ [])
    (perm : ∀ layer, ((configOf peer_container appended).layerPolicies layer).Perm
      ((configOf peer_container appended').layerPolicies layer))
    (same : ∀ layer, NetworkLayer.SameDecisions ((configOf peer_container appended).layerPolicies layer)
      ((configOf peer_container appended').layerPolicies layer)) {x : Flow E κ}
    (allowed : AllowedByAll (configOf peer_container appended) x) :
    AllowedByAll (configOf peer_container appended') x := by
  have missing : ∀ {policies : List (Policy P)}, policies ≠ [] →
      ((Dict.get (configOf peer_container policies).policies_container.layers .K8s_Calico).isNone = true ↔
        (configOf peer_container policies).layerPolicies .K8s_Calico = []) := by
    intro policies filled
    unfold NetworkConfig.layerPolicies PoliciesContainer.layerPolicies
    cases found : Dict.get (configOf peer_container policies).policies_container.layers .K8s_Calico with
    | none => simp
    | some policies_list =>
      have present := (mem_layers_iff filled).mp (Dict.get_mem found)
      simp [present.2]
  have empty : (configOf peer_container appended).layerPolicies .K8s_Calico = [] ↔
      (configOf peer_container appended').layerPolicies .K8s_Calico = [] := by
    have lengths := (perm .K8s_Calico).length_eq
    rw [← List.length_eq_zero_iff, ← List.length_eq_zero_iff, lengths]
  have unhandled : Unhandled (configOf peer_container appended) ↔ Unhandled (configOf peer_container appended') :=
    and_congr_right fun _ => (missing some).trans (empty.trans (missing some').symm)
  obtain ⟨default, all, layers⟩ := allowed
  refine ⟨fun left => default (unhandled.mpr left), fun left => all fun right => left (unhandled.mp right), ?_⟩
  intro (layer, policies_list) listed
  obtain ⟨rfl, filled⟩ := (mem_layers_iff some').mp listed
  have filled' : (configOf peer_container appended).layerPolicies layer ≠ [] :=
    fun none => filled (none ▸ perm layer).nil_eq.symm
  have decided := layers (layer, _) ((mem_layers_iff some).mpr ⟨rfl, filled'⟩)
  unfold layerAllows at decided ⊢
  rw [NetworkLayer.allowedConnections_congr (same layer)] at decided
  exact decided

theorem allowed_any_order {layered : List (LayerPolicy P)} (sane : Sane peer_container appended layered)
    (perm : appended.Perm appended')
    (denyFirst : DenyFirst ((configOf peer_container appended').layerPolicies .Istio)) {x : Flow E κ} :
    AllowedByAll (configOf peer_container appended) x ↔ AllowedByAll (configOf peer_container appended') x := by
  by_cases none : appended = []
  · rw [none] at perm ⊢
    rw [perm.nil_eq]
  · have some' : appended' ≠ [] := fun empty => none (empty ▸ perm).eq_nil
    have same := sane_sameDecisions sane perm denyFirst
    have perm' := layer_perm peer_container perm sane.distinct
    refine ⟨allowed_transfer none some' perm' same, ?_⟩
    exact allowed_transfer some' none (fun layer => (perm' layer).symm) fun layer =>
      ⟨fun is_ingress x => ((same layer).verdicts is_ingress x).symm,
        fun captured_func used is_ingress e => ((same layer).captured captured_func used is_ingress e).symm⟩

end Config

section Example

/-- Two policies of the order of Kubernetes policies that both allow. -/
def alliedPolicies : List (LayerPolicy (FlowSet PeerKind Unit)) :=
  [.calico (tiedPolicy "web" .Allow), .calico (tiedPolicy "database" .Allow)]

theorem alliedPolicies_plain : PlainTies alliedPolicies := by
  have allied : ∀ p, LayerPolicy.calico p ∈ alliedPolicies → ∃ name, p = tiedPolicy name .Allow := by
    intro p listed
    simp only [alliedPolicies, List.mem_cons, List.not_mem_nil, or_false, LayerPolicy.calico.injEq] at listed
    rcases listed with same | same
    · exact ⟨_, same⟩
    · exact ⟨_, same⟩
  have allows : ∀ p, LayerPolicy.calico p ∈ alliedPolicies → ∀ is_ingress, ∀ rule ∈ p.rules is_ingress,
      rule.action = .Allow := by
    intro p listed is_ingress rule member
    obtain ⟨name, rfl⟩ := allied p listed
    cases is_ingress with
    | true => exact (List.mem_singleton.mp member) ▸ rfl
    | false => cases member
  exact {
    named := by
      intro p listed is_ingress rule member x inside
      obtain ⟨name, rfl⟩ := allied p listed
      cases is_ingress with
      | true =>
        rw [List.mem_singleton.mp member] at inside ⊢
        exact ⟨(mem_makeConnProps.mp inside).1 _ rfl, (mem_makeConnProps.mp inside).2.1 _ rfl⟩
      | false => cases member
    pass := by
      intro p listed _ _ _ _ is_ingress rule member
      rw [allows p listed is_ingress rule member]
      decide
    k8s := by
      intro p listed _ _ _ is_ingress rule member
      rw [allows p listed is_ingress rule member]
      decide }

/-- The policies, between two that guard the pod. -/
def guardedPolicies : List (Policy (FlowSet PeerKind Unit)) :=
  podPolicy .Allow {.pod} :: alliedPolicies.map LayerPolicy.toPolicy ++ [podPolicy .Deny {.ipBlock}]

theorem guardedPolicies_sane : Sane onePod guardedPolicies alliedPolicies where
  kinds := by
    simp only [guardedPolicies, List.cons_append, List.forall_mem_cons, List.forall_mem_append,
      List.forall_mem_map]
    exact ⟨Or.inr rfl, fun a _ => Or.inl (isK8sCalico_layer a), Or.inr rfl, List.forall_mem_nil _⟩
  distinct := by decide
  layer := rfl
  plain := alliedPolicies_plain
  sane := by decide
  denyFirst := by
    have placed : (configOf onePod guardedPolicies).layerPolicies .Istio =
        [podPolicy .Deny {.ipBlock}, podPolicy .Allow {.pod}] := rfl
    rw [placed]
    simp [DenyFirst, podPolicy, IsAllow, IsDeny]

end Example
end Nca.NetworkConfig
