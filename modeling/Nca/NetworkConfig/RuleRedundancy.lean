import Nca.NetworkConfig.IstioOrder
import Nca.NetworkConfig.SemanticDiff

/-!
Redundant rules. The query compares the configuration with a clone in which a clone of the policy
lacks the rule. The clone of the policy lacks every equal rule, and it is appended behind the other
policies; where neither makes a difference, the answer is about the policies without that one rule.
-/

namespace Nca.NetworkConfig
open CoreDS Lib Resources

variable {P E κ : Type} [Fintype E] [DecidableEq E] [Peers E] [ConnectivityProperties P E κ]
  {policy : Policy P} {is_ingress : Bool} {i : Nat} {policies_list policies_list' : List (Policy P)}

section Statement

/-- The policies with the one rule left out of the policy, which keeps its place. -/
def withoutRule (policies_list : List (Policy P)) (policy : Policy P) (is_ingress : Bool) (i : Nat) :
    List (Policy P) :=
  policies_list.map fun p =>
    if PoliciesContainer.key p = PoliciesContainer.key policy then policy.eraseRule is_ingress i
    else p

/-- The layer allows the same with either list of policies. What is never allowed and the addresses
that queries about the configuration exclude are out of account. -/
def SameAllowed (self : NetworkConfig P) (layer_name : NetworkLayerName)
    (policies_list policies_list' : List (Policy P)) : Prop :=
  ∀ x : Flow E κ, ¬ NeverAllowed self x →
    (self.checkForExcludingIpv6Addresses true = true → ¬ IsIpv6 x.src ∧ ¬ IsIpv6 x.dst) →
    (x ∈ (NetworkLayer.allowedConnections layer_name policies_list self.peer_container
        .onlyAllAllowedConnections).all_allowed_conns ↔
      x ∈ (NetworkLayer.allowedConnections layer_name policies_list' self.peer_container
        .onlyAllAllowedConnections).all_allowed_conns)

/-- The policies never contradict each other. -/
def Agree (p q : Policy P) : Prop :=
  ∀ is_ingress (x : Flow E κ) v w, p.verdictOn is_ingress x = some v →
    q.verdictOn is_ingress x = some w → v = w

/-- Equal rules do not matter: without the one rule the policy decides as before. -/
def Doubled (policy : Policy P) (is_ingress : Bool) (i : Nat) : Prop :=
  policy.unordered = true ∨
    ∀ direction, (policy.eraseRule is_ingress i).syncProps direction = policy.syncProps direction

/-- The place of the policy does not matter: no other policy equals it; in the K8s_Calico layer the
policies of its order behind it agree with it when it lacks the rule; and in the Istio layer all
`Deny` policies find their places. -/
structure Movable (peer_container : PeerContainer E) (appended : List (Policy P)) (policy : Policy P)
    (is_ingress : Bool) (i : Nat) : Prop where
  alone : ∀ p ∈ (configOf peer_container appended).policies_container.policies.map Prod.snd,
    p.eq policy = true → PoliciesContainer.key p = PoliciesContainer.key policy
  k8sCalico : layerOf policy = some .K8s_Calico → ∀ before after,
    (configOf peer_container appended).layerPolicies .K8s_Calico = before ++ policy :: after →
    ∀ q ∈ after, orderKey q = orderKey policy → Agree (policy.eraseRule is_ingress i) q
  istio : layerOf policy = some .Istio → EveryStepFits ⟨peer_container, .init⟩
    (appended.map .append ++ [.replace policy (policy.eraseRule is_ingress i)])

end Statement

section Erased

omit [Fintype E] [DecidableEq E]

@[simp] theorem key_eraseRule : PoliciesContainer.key (policy.eraseRule is_ingress i) =
    PoliciesContainer.key policy := by
  cases policy <;> rfl

@[simp] theorem layerOf_eraseRule :
    layerOf (policy.eraseRule is_ingress i) = layerOf policy := by
  cases policy <;> rfl

@[simp] theorem orderKey_eraseRule :
    orderKey (policy.eraseRule is_ingress i) = orderKey policy := by
  cases policy <;> rfl

theorem isAllow_eraseRule : IsAllow (policy.eraseRule is_ingress i) ↔ IsAllow policy := by
  cases policy <;> rfl

theorem isDeny_eraseRule : IsDeny (policy.eraseRule is_ingress i) ↔ IsDeny policy := by
  cases policy <;> rfl

theorem capturedFunc_eraseRule {captured_func : Policy P → Bool}
    (used : NetworkLayer.CapturedFunc captured_func) :
    captured_func (policy.eraseRule is_ingress i) = captured_func policy := by
  obtain rfl | rfl := used
  · rfl
  · cases policy <;> rfl

end Erased

section Doubled

/-- If the policy decides as before, then so do the policies of its layer. -/
theorem sameDecisions_erased
    (unique : ∀ p ∈ policies_list, PoliciesContainer.key p = PoliciesContainer.key policy → p = policy)
    (props : ∀ direction,
      (policy.eraseRule is_ingress i).syncProps direction = policy.syncProps direction) :
    NetworkLayer.SameDecisions policies_list (withoutRule policies_list policy is_ingress i) := by
  have verdict : ∀ direction (x : Flow E κ),
      (policy.eraseRule is_ingress i).verdictOn direction x = policy.verdictOn direction x := by
    intro direction x
    unfold Policy.verdictOn
    rw [Policy.eraseRule_captured, props]
  unfold withoutRule
  constructor
  · intro direction x
    rw [List.findSome?_map]
    induction policies_list with
    | nil => rfl
    | cons p rest ih =>
      obtain ⟨first, others⟩ := List.forall_mem_cons.mp unique
      rw [List.findSome?_cons, List.findSome?_cons, ih others, Function.comp_apply]
      by_cases same : PoliciesContainer.key p = PoliciesContainer.key policy
      · rw [if_pos same, first same, verdict]
      · rw [if_neg same]
  · intro captured_func used direction e
    simp only [List.mem_map, exists_exists_and_eq_and]
    refine exists_congr fun p => and_congr_right fun member => ?_
    by_cases same : PoliciesContainer.key p = PoliciesContainer.key policy
    · rw [if_pos same, capturedFunc_eraseRule used, Policy.eraseRule_captured, unique p member same]
    · rw [if_neg same]

end Doubled

section Clone

variable {peer_container : PeerContainer E} {appended : List (Policy P)} {layer : NetworkLayerName}

omit [Fintype E] [DecidableEq E] in
theorem foldl_appendPolicyToConfig (self : NetworkConfig P) (policies : List (Policy P)) :
    policies.foldl NetworkConfig.appendPolicyToConfig self =
      ⟨self.peer_container, policies.foldl PoliciesContainer.appendPolicy self.policies_container⟩ := by
  induction policies generalizing self with
  | nil => rfl
  | cons policy rest ih => exact ih (self.appendPolicyToConfig policy)

/-- The policies of the configuration without those of the policy's name and kind. -/
def others (self : NetworkConfig P) (policy : Policy P) : List (Policy P) :=
  (self.policies_container.policies.map Prod.snd).filter fun p =>
    decide (PoliciesContainer.key p ≠ PoliciesContainer.key policy)

omit [Fintype E] [DecidableEq E] in
theorem configOf_append (peer_container : PeerContainer E) (appended : List (Policy P))
    (policy : Policy P) : configOf peer_container (appended ++ [policy]) =
      (configOf peer_container appended).appendPolicyToConfig policy := by
  simp [configOf, NetworkConfig.appendPolicyToConfig]

omit [Fintype E] [DecidableEq E] in
theorem configOf_wellPlaced (peer_container : PeerContainer E) (appended : List (Policy P)) :
    WellPlaced (configOf peer_container appended).policies_container appended :=
  appendAll_wellPlaced appended

omit [Fintype E] [DecidableEq E] in
theorem policy_unique {p : Policy P}
    (member : policy ∈ (configOf peer_container appended).policies_container.policies.map Prod.snd)
    (inside : p ∈ (configOf peer_container appended).policies_container.policies.map Prod.snd)
    (same : PoliciesContainer.key p = PoliciesContainer.key policy) : p = policy :=
  List.inj_on_of_nodup_map (appendAll_wellPlaced appended).values_nodup inside member same

/-- If no other policy equals the policy, then the clone has all the others. -/
theorem cloneWithoutPolicy_others
    (member : policy ∈ (configOf peer_container appended).policies_container.policies.map Prod.snd)
    (alone : ∀ p ∈ (configOf peer_container appended).policies_container.policies.map Prod.snd,
      p.eq policy = true → PoliciesContainer.key p = PoliciesContainer.key policy) :
    (configOf peer_container appended).cloneWithoutPolicy policy =
      configOf peer_container (others (configOf peer_container appended) policy) := by
  rw [cloneWithoutPolicy_eq, foldl_appendPolicyToConfig]
  unfold configOf others
  dsimp only [NetworkConfig.cloneWithoutPolicies]
  rw [List.filter_map]
  congr 3
  refine List.filter_congr fun entry inside => ?_
  have among := List.mem_map_of_mem (f := Prod.snd) inside
  rw [Function.comp_apply, Bool.eq_iff_iff, Bool.not_eq_true', ← Bool.not_eq_true, decide_eq_true_eq]
  refine not_congr ⟨alone _ among, fun same => ?_⟩
  rw [policy_unique member among same]
  exact policy.eq_refl

omit [Fintype E] [DecidableEq E] in
theorem values_others : (configOf peer_container (others (configOf peer_container appended)
    policy)).policies_container.policies.map Prod.snd =
      others (configOf peer_container appended) policy := by
  refine (configOf_wellPlaced peer_container _).values_eq ?_
  exact (configOf_wellPlaced peer_container appended).values_nodup.sublist (List.filter_sublist.map _)

omit [Fintype E] [DecidableEq E] in
theorem clone_k8sCalico : (configOf peer_container (others (configOf peer_container appended)
    policy)).layerPolicies .K8s_Calico =
      ((configOf peer_container appended).layerPolicies .K8s_Calico).filter fun p =>
        decide (PoliciesContainer.key p ≠ PoliciesContainer.key policy) := by
  have placed := configOf_wellPlaced peer_container appended
  have placed' := configOf_wellPlaced peer_container (others (configOf peer_container appended) policy)
  refine Python.eq_of_sorted placed'.sorted (placed.sorted.filter _) fun order => ?_
  refine (placed'.stable order).trans ?_
  have stable := congrArg (List.filter fun p =>
    decide (PoliciesContainer.key p ≠ PoliciesContainer.key policy)) (placed.stable order)
  rw [values_others, others, List.filter_comm, ← stable, List.filter_comm]
  rfl

end Clone

section Place

omit [Fintype E] [DecidableEq E] in
theorem layer_split (unique : (policies_list.map PoliciesContainer.key).Nodup)
    (member : policy ∈ policies_list) : ∃ before after, policies_list = before ++ policy :: after ∧
      withoutRule policies_list policy is_ingress i =
        before ++ policy.eraseRule is_ingress i :: after ∧
      (policies_list.filter fun p =>
        decide (PoliciesContainer.key p ≠ PoliciesContainer.key policy)) = before ++ after := by
  obtain ⟨before, after, rfl⟩ := List.append_of_mem member
  rw [List.map_append, List.map_cons] at unique
  obtain ⟨_, unique, apart⟩ := List.nodup_append.mp unique
  have other : ∀ p ∈ before, PoliciesContainer.key p ≠ PoliciesContainer.key policy := fun p inside =>
    apart _ (List.mem_map_of_mem inside) _ List.mem_cons_self
  have other' : ∀ p ∈ after, PoliciesContainer.key p ≠ PoliciesContainer.key policy :=
    fun p inside same => (List.nodup_cons.mp unique).1 (same ▸ List.mem_map_of_mem inside)
  refine ⟨before, after, rfl, ?_, ?_⟩
  · have keep : ∀ {list : List (Policy P)}, (∀ p ∈ list, PoliciesContainer.key p ≠
        PoliciesContainer.key policy) → list.map (fun p => if PoliciesContainer.key p =
          PoliciesContainer.key policy then policy.eraseRule is_ingress i else p) = list :=
      fun apart => (List.map_congr_left fun p inside => if_neg (apart p inside)).trans
        (List.map_id' _)
    rw [withoutRule, List.map_append, List.map_cons, keep other, keep other', if_pos rfl]
  · rw [List.filter_append, List.filter_cons_of_neg (by simp),
      List.filter_eq_self.mpr fun p inside => decide_eq_true (other p inside),
      List.filter_eq_self.mpr fun p inside => decide_eq_true (other' p inside)]

/-- In the K8s_Calico layer the clone of the policy goes behind the policies of its order. -/
theorem sameDecisions_k8sCalico {before after : List (Policy P)} {erased : Policy P}
    (layer : IsK8sCalico erased)
    (sorted : (before ++ erased :: after).Pairwise fun p q => orderKey p ≤ orderKey q)
    (agree : ∀ q ∈ after, orderKey q = orderKey erased → Agree erased q) :
    NetworkLayer.SameDecisions (before ++ erased :: after)
      (Python.insort Policy.lt (before ++ after) erased) := by
  obtain ⟨_, sortedAfter, across⟩ := List.pairwise_append.mp sorted
  have low : ∀ p ∈ before, orderKey p ≤ orderKey erased := fun p inside =>
    across p inside erased List.mem_cons_self
  have high : ∀ q ∈ after, orderKey erased ≤ orderKey q := (List.pairwise_cons.mp sortedAfter).1
  obtain ⟨before', after', whole, inserted, low', high'⟩ := Python.insort_sorted orderKey
    (fun _ _ => lt_k8sCalico layer)
    (sorted.sublist ((List.sublist_cons_self erased after).append_left before))
  obtain ⟨same, rfl, rfl⟩ : ∃ same, before' = before ++ same ∧ after = same ++ after' := by
    rcases List.append_eq_append_iff.mp whole with ⟨same, first, second⟩ | ⟨same, first, second⟩
    · exact ⟨same, first, second⟩
    · have none : same = [] := List.eq_nil_iff_forall_not_mem.mpr fun q inside =>
        absurd (low q (by simp [first, inside])) (not_le_of_gt (high' q (by simp [second, inside])))
      exact ⟨[], by simp [first, none], by simp [second, none]⟩
  rw [inserted, List.append_assoc]
  constructor
  · intro direction x
    refine findSome?_move fun q inside v w => ?_
    have equal : orderKey q = orderKey erased := le_antisymm
      (low' q (List.mem_append_right _ inside)) (high q (List.mem_append_left _ inside))
    exact agree q (List.mem_append_left _ inside) equal direction x v w
  · intro captured_func _ direction e
    have perm : (before ++ erased :: (same ++ after')).Perm (before ++ (same ++ erased :: after')) :=
      List.Perm.append_left before List.perm_middle.symm
    exact exists_congr fun p => and_congr_left fun _ => perm.mem_iff

theorem istio_not_pass (istio : ∀ p ∈ policies_list, IsIstio p) (direction : Bool) (x : Flow E κ) :
    policies_list.findSome? (Policy.verdictOn · direction x) ≠ some .pass := by
  classical
  intro passed
  obtain ⟨p, member, passed⟩ := List.exists_of_findSome?_eq_some passed
  cases direction with
  | false =>
    rw [egress_verdictOn (istio p member)] at passed
    split at passed <;> cases passed
  | true =>
    obtain ⟨p, rfl⟩ | ⟨p, rfl⟩ := istio_cases (istio p member)
    · rw [istio_verdictOn p] at passed
      split at passed
      · cases action : p.action <;> simp [action] at passed
      · cases passed
    · rw [sidecar_verdictOn] at passed
      cases passed

/-- In the Istio layer the places do not matter as long as `Deny` policies come first. -/
theorem sameDecisions_istio (istio : ∀ p ∈ policies_list, IsIstio p)
    (ordered : DenyFirst policies_list) (ordered' : DenyFirst policies_list')
    (members : ∀ p, p ∈ policies_list ↔ p ∈ policies_list') :
    NetworkLayer.SameDecisions policies_list policies_list' := by
  have istio' : ∀ p ∈ policies_list', IsIstio p := fun p member => istio p ((members p).mpr member)
  have equal : ∀ o o' : Option Verdict, o ≠ some .pass → o' ≠ some .pass →
      (o = some .deny ↔ o' = some .deny) → (o = some .allow ↔ o' = some .allow) → o = o' := by
    rintro (_ | _ | _ | _) (_ | _ | _ | _) <;> simp
  constructor
  · intro direction x
    refine equal _ _ (istio_not_pass istio direction x) (istio_not_pass istio' direction x) ?_ ?_
    · cases direction with
      | false => exact iff_of_false (egress_verdict istio).1 (egress_verdict istio').1
      | true =>
        rw [(denyFirst_verdict istio ordered).1, (denyFirst_verdict istio' ordered').1]
        simp only [members]
    · cases direction with
      | false =>
        rw [(egress_verdict istio).2, (egress_verdict istio').2]
        simp only [members]
      | true =>
        rw [(denyFirst_verdict istio ordered).2, (denyFirst_verdict istio' ordered').2]
        simp only [members]
  · intro captured_func _ direction e
    simp only [members]

end Place

section Comparison

theorem allowedConnections_layer (self : NetworkConfig P) (layer_name : NetworkLayerName)
    (f : PolicyConnectionsFilter) : self.allowedConnections (some layer_name) f =
      NetworkLayer.allowedConnections layer_name (self.layerPolicies layer_name)
        self.peer_container f := by
  unfold NetworkConfig.allowedConnections NetworkConfig.layerPolicies
    PoliciesContainer.layerPolicies NetworkLayersContainer.emptyLayerAllowedConnections
  dsimp only
  cases Dict.get self.policies_container.layers layer_name <;> rfl

theorem exec_iff {config config' : NetworkConfig P} {layer_name : NetworkLayerName}
    (peers : config'.peer_container = config.peer_container)
    (differ : (⟨config, config', true⟩ : TwoNetworkConfigsQuery P).samePolicies = false)
    (exclude : config.checkForExcludingIpv6Addresses true = true →
      config'.checkForExcludingIpv6Addresses true = true) :
    EquivalenceQuery.exec ⟨config, config', true⟩ (some layer_name) = true ↔
      SameAllowed config layer_name (config.layerPolicies layer_name)
        (config'.layerPolicies layer_name) := by
  have topologies : (⟨config, config', true⟩ : TwoNetworkConfigsQuery P).identicalTopologies = true :=
    decide_eq_true (by rw [peers])
  have excluded : (⟨config, config', true⟩ : TwoNetworkConfigsQuery P).excludeIpv6 = true ↔
      config.checkForExcludingIpv6Addresses true = true :=
    (Bool.and_eq_true _ _).to_iff.trans (and_iff_left_of_imp exclude)
  have never : ∀ x : Flow E κ, NeverAllowed config' x ↔ NeverAllowed config x := fun x => by
    unfold NeverAllowed
    rw [peers]
  unfold EquivalenceQuery.exec EquivalenceQuery.checkEquivalence TwoNetworkConfigsQuery.filteredConns
    SameAllowed
  simp only [topologies, differ, if_true, Bool.false_eq_true, if_false, decide_eq_true_eq,
    ExactSet.eq_iff, mem_filtered, excluded, never, allowedConnections_layer, peers]
  refine forall_congr' fun x => ?_
  tauto

end Comparison

section Redundancy

variable {peer_container : PeerContainer E} {appended : List (Policy P)} {layer : NetworkLayerName}

theorem mem_redundantRules {config : NetworkConfig P} :
    i + 1 ∈ RedundancyQuery.redundantRules config policy layer is_ingress ↔
      i < policy.ruleCount is_ingress ∧
        RedundancyQuery.isRedundantRule config policy layer is_ingress i = true := by
  simp [RedundancyQuery.redundantRules]

omit [Fintype E] [DecidableEq E] in
/-- With the erased policy behind the others, all names and kinds are still different. -/
theorem values_replaced : (configOf peer_container (others (configOf peer_container appended) policy ++
    [policy.eraseRule is_ingress i])).policies_container.policies.map Prod.snd =
      others (configOf peer_container appended) policy ++ [policy.eraseRule is_ingress i] := by
  refine (configOf_wellPlaced peer_container _).values_eq ?_
  rw [List.map_append, List.nodup_append]
  refine ⟨(configOf_wellPlaced peer_container appended).values_nodup.sublist
    (List.filter_sublist.map _), List.nodup_singleton _, ?_⟩
  intro key member last single same
  obtain ⟨p, inside, rfl⟩ := List.mem_map.mp member
  obtain rfl := List.mem_singleton.mp single
  rw [key_eraseRule] at same
  exact of_decide_eq_true (List.mem_filter.mp inside).2 same

theorem replaced_differs
    (member : policy ∈ (configOf peer_container appended).policies_container.policies.map Prod.snd)
    (fewer : (policy.eraseRule is_ingress i).ruleCount is_ingress ≠ policy.ruleCount is_ingress) :
    (⟨configOf peer_container appended, configOf peer_container
      (others (configOf peer_container appended) policy ++ [policy.eraseRule is_ingress i]), true⟩ :
      TwoNetworkConfigsQuery P).samePolicies = false := by
  have placed := configOf_wellPlaced peer_container appended
  have placed' := configOf_wellPlaced peer_container
    (others (configOf peer_container appended) policy ++ [policy.eraseRule is_ingress i])
  have last : policy.eraseRule is_ingress i ∈ (configOf peer_container (others
      (configOf peer_container appended) policy ++
        [policy.eraseRule is_ingress i])).policies_container.policies.map Prod.snd := by
    rw [values_replaced]
    exact List.mem_append_right _ (List.mem_singleton_self _)
  obtain ⟨entry, inside, known⟩ := List.mem_map.mp member
  obtain ⟨entry', inside', replaced⟩ := List.mem_map.mp last
  have found : Dict.get (configOf peer_container (others (configOf peer_container appended) policy ++
      [policy.eraseRule is_ingress i])).policies_container.policies entry.1 =
        some (policy.eraseRule is_ingress i) := by
    have name := placed'.keys entry' inside'
    rw [replaced, key_eraseRule] at name
    rw [placed.keys entry inside, known, ← name]
    exact Dict.get_of_mem placed'.unique (replaced ▸ inside')
  refine Bool.and_eq_false_iff.mpr (Or.inr (List.all_eq_false.mpr ⟨entry, inside, ?_⟩))
  rw [found, known]
  exact fun same => fewer (Policy.ruleCount_of_eq same is_ingress).symm

omit [Fintype E] [DecidableEq E] in
theorem excludes_iff {config : NetworkConfig P} :
    config.checkForExcludingIpv6Addresses true = true ↔
      ∀ p ∈ config.policies_container.policies.map Prod.snd, p.base.has_ipv6_addresses = false := by
  unfold NetworkConfig.checkForExcludingIpv6Addresses
  rw [Bool.true_and, List.all_eq_true, List.forall_mem_map]
  simp only [Bool.not_eq_true']

/-- What the query decides about a rule that no other rule equals. -/
theorem isRedundantRule_iff
    (member : policy ∈ (configOf peer_container appended).policies_container.policies.map Prod.snd)
    (notGateway : ∀ p, policy ≠ .gateway p) (bound : i < policy.ruleCount is_ingress)
    (single : policy.equalRules is_ingress i = 1)
    (alone : ∀ p ∈ (configOf peer_container appended).policies_container.policies.map Prod.snd,
      p.eq policy = true → PoliciesContainer.key p = PoliciesContainer.key policy) :
    RedundancyQuery.isRedundantRule (configOf peer_container appended) policy layer is_ingress i =
        true ↔
      SameAllowed (configOf peer_container appended) layer
        ((configOf peer_container appended).layerPolicies layer)
        ((configOf peer_container (others (configOf peer_container appended) policy ++
          [policy.eraseRule is_ingress i])).layerPolicies layer) := by
  obtain ⟨modified, cloned, count, _, erased⟩ := Policy.clone_spec notGateway bound
  obtain rfl := erased single
  have base := Policy.clone_base cloned
  rw [single] at count
  have together : ((configOf peer_container appended).cloneWithoutPolicy policy).appendPolicyToConfig
      (policy.eraseRule is_ingress i) = configOf peer_container
        (others (configOf peer_container appended) policy ++ [policy.eraseRule is_ingress i]) := by
    rw [cloneWithoutPolicy_others member alone, configOf_append]
  unfold RedundancyQuery.isRedundantRule
  rw [cloned]
  dsimp only
  rw [if_neg (by omega), together]
  refine exec_iff rfl (replaced_differs member (by omega)) fun exclude => ?_
  rw [excludes_iff] at exclude ⊢
  rw [values_replaced]
  intro p among
  rcases List.mem_append.mp among with old | last
  · exact exclude p (List.mem_of_mem_filter old)
  · rw [List.mem_singleton.mp last, base]

omit [Fintype E] [DecidableEq E] in
theorem mem_others {p : Policy P} : p ∈ others (configOf peer_container appended) policy ↔
    p ∈ (configOf peer_container appended).policies_container.policies.map Prod.snd ∧
      PoliciesContainer.key p ≠ PoliciesContainer.key policy := by
  rw [others, List.mem_filter, decide_eq_true_eq]

theorem movable_k8sCalico
    (member : policy ∈ (configOf peer_container appended).policies_container.policies.map Prod.snd)
    (belongs : layerOf policy = some .K8s_Calico)
    (movable : Movable peer_container appended policy is_ingress i) :
    NetworkLayer.SameDecisions
      (withoutRule ((configOf peer_container appended).layerPolicies .K8s_Calico) policy is_ingress i)
      ((configOf peer_container (others (configOf peer_container appended) policy ++
        [policy.eraseRule is_ingress i])).layerPolicies .K8s_Calico) := by
  have placed := configOf_wellPlaced peer_container appended
  have own : policy ∈ (configOf peer_container appended).layerPolicies .K8s_Calico :=
    placed.mem_layer_iff.mpr ⟨member, belongs⟩
  have nodup : (((configOf peer_container appended).layerPolicies .K8s_Calico).map
      PoliciesContainer.key).Nodup := placed.layer_nodup .K8s_Calico
  have sorted : ((configOf peer_container appended).layerPolicies .K8s_Calico).Pairwise
      fun p q => orderKey p ≤ orderKey q := placed.sorted
  obtain ⟨before, after, whole, erased, rest⟩ : ∃ before after, _ ∧
      withoutRule _ policy is_ingress i = _ ∧ _ := layer_split nodup own
  have absent : (Dict.get (configOf peer_container (others (configOf peer_container appended)
      policy)).policies_container.policies (PoliciesContainer.key policy)).isNone = true := by
    rw [Option.isNone_iff_eq_none, ← Option.not_isSome_iff_eq_none, Dict.get_isSome,
      ← (configOf_wellPlaced _ _).values_keys, values_others]
    intro inside
    obtain ⟨p, other, same⟩ := List.mem_map.mp inside
    exact (mem_others.mp other).2 same
  have last : (configOf peer_container (others (configOf peer_container appended) policy ++
      [policy.eraseRule is_ingress i])).layerPolicies .K8s_Calico =
      Python.insort Policy.lt (before ++ after) (policy.eraseRule is_ingress i) := by
    rw [configOf_append, layerPolicies_append, clone_k8sCalico, rest, key_eraseRule,
      layerOf_eraseRule, if_pos ⟨absent, belongs⟩]
  rw [erased, last]
  refine sameDecisions_k8sCalico (layerOf_eraseRule.trans belongs) ?_ ?_
  · rw [whole] at sorted
    simpa [List.pairwise_append] using sorted
  · intro q inside equal
    exact movable.k8sCalico belongs before after whole q inside (equal.trans orderKey_eraseRule)

theorem configOf_insertions (peer_container : PeerContainer E)
    (appended : List (Policy P)) :
    (appended.map Insertion.append).foldl insertionStep ⟨peer_container, .init⟩ =
      configOf peer_container appended := by
  rw [List.foldl_map]
  exact foldl_appendPolicyToConfig _ appended

theorem movable_istio
    (member : policy ∈ (configOf peer_container appended).policies_container.policies.map Prod.snd)
    (belongs : layerOf policy = some .Istio)
    (movable : Movable peer_container appended policy is_ingress i) :
    NetworkLayer.SameDecisions
      (withoutRule ((configOf peer_container appended).layerPolicies .Istio) policy is_ingress i)
      ((configOf peer_container (others (configOf peer_container appended) policy ++
        [policy.eraseRule is_ingress i])).layerPolicies .Istio) := by
  have placed := configOf_wellPlaced peer_container appended
  have own : policy ∈ (configOf peer_container appended).layerPolicies .Istio :=
    placed.mem_layer_iff.mpr ⟨member, belongs⟩
  have nodup : (((configOf peer_container appended).layerPolicies .Istio).map
      PoliciesContainer.key).Nodup := placed.layer_nodup .Istio
  obtain ⟨before, after, whole, erased, rest⟩ : ∃ before after, _ ∧
      withoutRule _ policy is_ingress i = _ ∧ _ := layer_split nodup own
  have fits := movable.istio belongs
  have first : Ordered (configOf peer_container appended) := by
    have run := run_ordered (empty_ordered peer_container) (everyStepFits_take fits appended.length)
    rwa [List.take_left' (List.length_map _), configOf_insertions] at run
  have second : Ordered (configOf peer_container (others (configOf peer_container appended) policy ++
      [policy.eraseRule is_ingress i])) := by
    have run := run_ordered (empty_ordered peer_container) fits
    rwa [List.foldl_append, configOf_insertions, List.foldl_cons, List.foldl_nil, insertionStep,
      cloneWithoutPolicy_others member movable.alone, ← configOf_append] at run
  have istio : ∀ p ∈ before ++ policy.eraseRule is_ingress i :: after, IsIstio p := by
    intro p inside
    rcases List.mem_append.mp inside with left | right
    · exact placed.mem_layer (List.mem_of_mem_filter (rest ▸ List.mem_append_left _ left))
    · rcases List.mem_cons.mp right with rfl | right
      · exact layerOf_eraseRule.trans belongs
      · exact placed.mem_layer (List.mem_of_mem_filter (rest ▸ List.mem_append_right _ right))
  rw [erased]
  refine sameDecisions_istio istio ?_ second.2 fun p => ?_
  · have ordered : DenyFirst (before ++ policy :: after) := whole ▸ first.2
    simpa [DenyFirst, List.pairwise_append, isAllow_eraseRule, isDeny_eraseRule] using ordered
  · have inLayer : p ∈ before ++ after ↔ p ∈ others (configOf peer_container appended) policy ∧
        layerOf p = some .Istio := by
      rw [← rest, List.mem_filter, decide_eq_true_eq, mem_others, and_right_comm]
      exact and_congr_left' placed.mem_layer_iff
    refine Iff.trans ?_ (configOf_wellPlaced _ _).mem_layer_iff.symm
    rw [values_replaced, List.perm_middle.mem_iff, List.mem_cons, inLayer, List.mem_append,
      List.mem_singleton, or_and_right, or_comm]
    refine or_congr_right (and_iff_left_of_imp ?_).symm
    rintro rfl
    exact layerOf_eraseRule.trans belongs

omit [Fintype E] [DecidableEq E] in
theorem notGateway_layer (notGateway : ∀ p, policy ≠ .gateway p)
    (belongs : layerOf policy = some layer) : layer = .K8s_Calico ∨ layer = .Istio := by
  cases policy with
  | gateway p => exact (notGateway p rfl).elim
  | k8s p =>
    simp [layerOf, Policy.base, p.kind, NetworkLayerName.policyTypeToLayer] at belongs
    exact Or.inl belongs.symm
  | istio p | sidecar p =>
    simp [layerOf, Policy.base, p.kind, NetworkLayerName.policyTypeToLayer] at belongs
    exact Or.inr belongs.symm
  | calico p =>
    have kind := p.kind
    simp only [List.mem_cons, List.not_mem_nil, or_false] at kind
    rcases kind with kind | kind | kind <;>
      simp [layerOf, Policy.base, kind, NetworkLayerName.policyTypeToLayer] at belongs <;>
      exact Or.inl belongs.symm

theorem movable_sameDecisions
    (member : policy ∈ (configOf peer_container appended).policies_container.policies.map Prod.snd)
    (notGateway : ∀ p, policy ≠ .gateway p) (belongs : layerOf policy = some layer)
    (movable : Movable peer_container appended policy is_ingress i) :
    NetworkLayer.SameDecisions
      (withoutRule ((configOf peer_container appended).layerPolicies layer) policy is_ingress i)
      ((configOf peer_container (others (configOf peer_container appended) policy ++
        [policy.eraseRule is_ingress i])).layerPolicies layer) := by
  obtain rfl | rfl := notGateway_layer notGateway belongs
  · exact movable_k8sCalico member belongs movable
  · exact movable_istio member belongs movable

/-- A Sidecar that lets the pod reach the DNS entry by one rule and itself by another. -/
def twoHosts : Policy (FlowSet PeerKind Unit) :=
  .sidecar
    { name := "sidecar"
      policy_namespace := some "default"
      selected_peers := {.pod}
      affects_ingress := false
      affects_egress := true
      policy_kind := .IstioSidecar
      default_sidecar := false
      egress_rules := [⟨makeConnProps { src_peers := some {.pod}, dst_peers := some {.dnsEntry} }⟩,
        ⟨makeConnProps { src_peers := some {.pod}, dst_peers := some {.pod} }⟩]
      kind := rfl
      egress_inside := by simp +contextual [Inside, ConnectivityCube.Admits, capturedEnd] }

end Redundancy
end Nca.NetworkConfig
