import Nca.NetworkConfig.RedundancyFindings
import Nca.Lib.RunScan

/-!
Conflicting policies of one order. The sanity query goes once over the Calico policies of the sorted
layer; Kubernetes policies, which have the order 1000, stand between them.
-/

namespace Nca.NetworkConfig
open CoreDS Lib Resources

variable {P E κ : Type} [DecidableEq E] [ConnectivityProperties P E κ]

/-- A rule with the peers that were named for it. -/
structure CalicoRuleWithPeers (P E : Type) extends CalicoPolicyRule P where
  src_peers : PeerSet E
  dst_peers : PeerSet E

/-- A policy with the peers of its rules. -/
structure CalicoPolicyWithPeers (P : Type) {E κ : Type} [ConnectivityProperties P E κ] where
  policy : CalicoNetworkPolicy P
  ingress_rules : List (CalicoRuleWithPeers P E)
  egress_rules : List (CalicoRuleWithPeers P E)
  same_ingress : ingress_rules.map CalicoRuleWithPeers.toCalicoPolicyRule = policy.ingress_rules
  same_egress : egress_rules.map CalicoRuleWithPeers.toCalicoPolicyRule = policy.egress_rules

def hasRulesWithAction (rule_set : List (CalicoRuleWithPeers P E)) (action : CalicoActionType) : Bool :=
  rule_set.any fun rule =>
    decide (rule.src_peers ≠ ∅) && decide (rule.dst_peers ≠ ∅) && decide (rule.action = action)

def rulesContainConflictingActions (ruleset1 ruleset2 : List (CalicoRuleWithPeers P E)) : Bool :=
  if hasRulesWithAction ruleset1 .Allow && hasRulesWithAction ruleset2 .Deny then true
  else hasRulesWithAction ruleset1 .Deny && hasRulesWithAction ruleset2 .Allow

namespace CalicoPolicyWithPeers
variable (self other : CalicoPolicyWithPeers P)

def rules (is_ingress : Bool) : List (CalicoRuleWithPeers P E) :=
  if is_ingress then self.ingress_rules else self.egress_rules


def isConflicting : Bool :=
  if self.policy.order ≠ other.policy.order then false
  else if !((self.policy.affects_ingress && other.policy.affects_ingress) ||
      (self.policy.affects_egress && other.policy.affects_egress)) then false
  else if self.policy.selected_peers ∩ other.policy.selected_peers = ∅ then false
  else if self.policy.affects_ingress && other.policy.affects_ingress &&
      rulesContainConflictingActions self.ingress_rules other.ingress_rules then true
  else if self.policy.affects_egress && other.policy.affects_egress &&
      rulesContainConflictingActions self.egress_rules other.egress_rules then true
  else false

variable [Peers E]

def toPolicy (self : CalicoPolicyWithPeers P) : Policy P := .calico self.policy

def lt (self other : CalicoPolicyWithPeers P) : Bool := self.toPolicy.lt other.toPolicy

end CalicoPolicyWithPeers

section Conflicts

variable {p q : CalicoPolicyWithPeers P}

/-- One of the lists has a rule that allows where the other one has a rule that denies; both rules
are for some peers. -/
def OppositeRules (rules others : List (CalicoRuleWithPeers P E)) : Prop :=
  ∃ rule ∈ rules, ∃ other ∈ others,
    (rule.src_peers ≠ ∅ ∧ rule.dst_peers ≠ ∅) ∧ (other.src_peers ≠ ∅ ∧ other.dst_peers ≠ ∅) ∧
    ((rule.action = .Allow ∧ other.action = .Deny) ∨ (rule.action = .Deny ∧ other.action = .Allow))

/-- The policies have one order and select a common peer, and in a direction that both affect their
rules are opposite. -/
structure Conflict (p q : CalicoPolicyWithPeers P) : Prop where
  order : p.policy.order = q.policy.order
  selected : ∃ e, e ∈ p.policy.selected_peers ∧ e ∈ q.policy.selected_peers
  opposite : ∃ is_ingress, p.policy.affects is_ingress = true ∧ q.policy.affects is_ingress = true ∧
    OppositeRules (p.rules is_ingress) (q.rules is_ingress)

theorem hasRulesWithAction_iff {rule_set : List (CalicoRuleWithPeers P E)} {action : CalicoActionType} :
    hasRulesWithAction rule_set action = true ↔
      ∃ rule ∈ rule_set, (rule.src_peers ≠ ∅ ∧ rule.dst_peers ≠ ∅) ∧ rule.action = action := by
  simp [hasRulesWithAction]

theorem rulesContainConflictingActions_iff {ruleset1 ruleset2 : List (CalicoRuleWithPeers P E)} :
    rulesContainConflictingActions ruleset1 ruleset2 = true ↔ OppositeRules ruleset1 ruleset2 := by
  have either : rulesContainConflictingActions ruleset1 ruleset2 = true ↔
      (hasRulesWithAction ruleset1 .Allow = true ∧ hasRulesWithAction ruleset2 .Deny = true) ∨
        (hasRulesWithAction ruleset1 .Deny = true ∧ hasRulesWithAction ruleset2 .Allow = true) := by
    simp [rulesContainConflictingActions]
  rw [either]
  simp only [hasRulesWithAction_iff]
  constructor
  · intro found
    obtain ⟨⟨rule, listed, peers, allows⟩, other, listed', peers', denies⟩ |
      ⟨⟨rule, listed, peers, denies⟩, other, listed', peers', allows⟩ := found
    · exact ⟨rule, listed, other, listed', peers, peers', Or.inl ⟨allows, denies⟩⟩
    · exact ⟨rule, listed, other, listed', peers, peers', Or.inr ⟨denies, allows⟩⟩
  · intro ⟨rule, listed, other, listed', peers, peers', opposite⟩
    cases opposite with
    | inl first =>
      exact Or.inl ⟨⟨rule, listed, peers, first.1⟩, other, listed', peers', first.2⟩
    | inr second =>
      exact Or.inr ⟨⟨rule, listed, peers, second.1⟩, other, listed', peers', second.2⟩

/-- The common direction that is asked for first follows from the one of the rules. -/
theorem isConflicting_iff : p.isConflicting q = true ↔ Conflict p q := by
  have common : p.policy.selected_peers ∩ q.policy.selected_peers = ∅ ↔
      ¬ ∃ e, e ∈ p.policy.selected_peers ∧ e ∈ q.policy.selected_peers := by
    simp [Finset.eq_empty_iff_forall_notMem]
  have direction : (∃ is_ingress, p.policy.affects is_ingress = true ∧
      q.policy.affects is_ingress = true ∧ OppositeRules (p.rules is_ingress) (q.rules is_ingress)) ↔
      (p.policy.affects_egress = true ∧ q.policy.affects_egress = true ∧
        rulesContainConflictingActions p.egress_rules q.egress_rules = true) ∨
      (p.policy.affects_ingress = true ∧ q.policy.affects_ingress = true ∧
        rulesContainConflictingActions p.ingress_rules q.ingress_rules = true) := by
    simp only [Bool.exists_bool, rulesContainConflictingActions_iff]
    rfl
  constructor
  · intro conflicting
    unfold CalicoPolicyWithPeers.isConflicting at conflicting
    simp only [common] at conflicting
    refine ⟨?_, ?_, direction.mpr ?_⟩ <;> grind
  · intro conflict
    have opposite := direction.mp conflict.opposite
    unfold CalicoPolicyWithPeers.isConflicting
    rw [if_neg (not_not_intro conflict.order), if_neg (not_not_intro conflict.selected ∘ common.mp)]
    grind

omit [DecidableEq E] in
theorem Conflict.symm (conflict : Conflict p q) : Conflict q p := by
  obtain ⟨e, first, second⟩ := conflict.selected
  obtain ⟨is_ingress, affects, affects', rule, listed, other, listed', peers, peers', actions⟩ :=
    conflict.opposite
  have turned : (other.action = .Allow ∧ rule.action = .Deny) ∨
      (other.action = .Deny ∧ rule.action = .Allow) :=
    actions.elim (fun both => Or.inr both.symm) fun both => Or.inl both.symm
  exact ⟨conflict.order.symm, ⟨e, second, first⟩, is_ingress, affects', affects, other, listed', rule,
    listed, peers', peers, turned⟩

end Conflicts

variable [Peers E]

/-- A policy of the K8s_Calico layer. -/
inductive LayerPolicy (P : Type) {E κ : Type} [ConnectivityProperties P E κ] where
  | k8s (policy : K8sNetworkPolicy P)
  | calico (policy : CalicoPolicyWithPeers P)

namespace LayerPolicy

def toPolicy : LayerPolicy P → Policy P
  | k8s policy => .k8s policy
  | calico policy => policy.toPolicy

def asCalico : LayerPolicy P → Option (CalicoPolicyWithPeers P)
  | k8s _ => none
  | calico policy => some policy

end LayerPolicy

namespace SanityQuery

def conflictStr (policy other_policy : CalicoPolicyWithPeers P) : String :=
  policyTitle policy.toPolicy ++ " and " ++ policyTitle other_policy.toPolicy ++
    " have same order but conflicting rules. Behavior is undefined."

/-- The argument is the K8s_Calico layer, where there is one. -/
def hasConflictingPoliciesWithSameOrder : Option (List (LayerPolicy P)) → Bool × String
  | none => (false, "")
  | some policies_list =>
    let calico_policies := policies_list.filterMap LayerPolicy.asCalico
    if calico_policies.length ≤ 1 then (false, "")
    else match scanRuns CalicoPolicyWithPeers.lt CalicoPolicyWithPeers.isConflicting []
        calico_policies with
      | some (policy, other_policy) => (true, conflictStr policy other_policy)
      | none => (false, "")

end SanityQuery

section Layer

open SanityQuery

omit [DecidableEq E] in
theorem sameOrder_of_conflict {p q : CalicoPolicyWithPeers P} (conflict : Conflict p q) :
    orderKey p.toPolicy = orderKey q.toPolicy := by
  have same : p.toPolicy.getOrder = q.toPolicy.getOrder := conflict.order
  unfold orderKey
  rw [same]

omit [DecidableEq E] in
theorem lt_calico (p q : CalicoPolicyWithPeers P) :
    p.lt q = decide (orderKey p.toPolicy < orderKey q.toPolicy) := by
  apply lt_k8sCalico
  have kind := p.policy.kind
  simp only [List.mem_cons, List.not_mem_nil, or_false] at kind
  unfold IsK8sCalico
  show NetworkLayerName.policyTypeToLayer p.policy.policy_kind = some .K8s_Calico
  rcases kind with kind | kind | kind <;> rw [kind] <;> rfl

/-- No two Calico policies conflict. -/
def ConflictFree (calico_policies : List (CalicoPolicyWithPeers P)) : Prop :=
  calico_policies.Pairwise fun p q => q.isConflicting p = false

/-- The answer in a sorted layer. -/
theorem hasConflictingPolicies_false {policies_list : List (LayerPolicy P)}
    (sorted : policies_list.Pairwise fun a b => orderKey a.toPolicy ≤ orderKey b.toPolicy) :
    (hasConflictingPoliciesWithSameOrder (some policies_list)).1 = false ↔
      ConflictFree (policies_list.filterMap LayerPolicy.asCalico) := by
  have calico : (policies_list.filterMap LayerPolicy.asCalico).Pairwise
      fun p q => orderKey p.toPolicy ≤ orderKey q.toPolicy := by
    apply List.pairwise_filterMap.mpr
    apply sorted.imp
    intro a b ordered p first q second
    cases a with
    | k8s policy => cases first
    | calico policy =>
      obtain rfl := Option.some.inj first
      cases b with
      | k8s policy => cases second
      | calico policy =>
        obtain rfl := Option.some.inj second
        exact ordered
  have scanned : scanRuns CalicoPolicyWithPeers.lt CalicoPolicyWithPeers.isConflicting []
      (policies_list.filterMap LayerPolicy.asCalico) = none ↔
      ConflictFree (policies_list.filterMap LayerPolicy.asCalico) :=
    scanRuns_eq_none_iff lt_calico
      (fun p q holds => sameOrder_of_conflict (isConflicting_iff.mp holds)) calico
  rw [← scanned]
  unfold hasConflictingPoliciesWithSameOrder
  dsimp only
  generalize policies_list.filterMap LayerPolicy.asCalico = calico_policies
  by_cases few : calico_policies.length ≤ 1
  · -- the scan of a single policy does not stop
    rw [if_pos few]
    apply iff_of_true rfl
    cases calico_policies with
    | nil => rfl
    | cons p rest =>
      have alone : rest = [] := List.length_eq_zero_iff.mp (Nat.le_zero.mp (Nat.le_of_succ_le_succ few))
      rw [alone, scanRuns, scanRuns]
  · rw [if_neg few]
    generalize scanRuns CalicoPolicyWithPeers.lt CalicoPolicyWithPeers.isConflicting []
      calico_policies = answer
    cases answer with
    | none => exact iff_of_true rfl rfl
    | some pair => exact iff_of_false Bool.noConfusion (Option.some_ne_none pair)

omit [DecidableEq E] [Peers E] in
theorem asCalico_eq_some {a : LayerPolicy P} {p : CalicoPolicyWithPeers P} :
    a.asCalico = some p ↔ a = .calico p := by
  cases a <;> simp [LayerPolicy.asCalico]

/-- Wherever in the sorted layer two Calico policies conflict, the query says so. -/
theorem hasConflictingPolicies_iff {policies_list : List (LayerPolicy P)}
    (sorted : policies_list.Pairwise fun a b => orderKey a.toPolicy ≤ orderKey b.toPolicy) :
    ((hasConflictingPoliciesWithSameOrder (some policies_list)).1 = true ↔
      ∃ (i j : Nat) (p q : CalicoPolicyWithPeers P), i ≠ j ∧ policies_list[i]? = some (.calico p) ∧
        policies_list[j]? = some (.calico q) ∧ p.isConflicting q = true) ∧
      ∀ p q : CalicoPolicyWithPeers P, p.isConflicting q = true ↔ Conflict p q := by
  refine ⟨?_, fun _ _ => isConflicting_iff⟩
  rw [← Bool.not_eq_false, hasConflictingPolicies_false sorted, ConflictFree, List.pairwise_filterMap,
    List.pairwise_iff_getElem]
  constructor
  · intro found
    by_contra! absent
    apply found
    intro i j inside inside' earlier p first q second
    rw [asCalico_eq_some] at first second
    have unrelated := absent j i q p (Nat.ne_of_gt earlier)
      (by rw [List.getElem?_eq_getElem inside', second]) (by rw [List.getElem?_eq_getElem inside, first])
    simpa using unrelated
  · intro ⟨i, j, p, q, different, first, second, conflicting⟩ free
    obtain ⟨inside, at_i⟩ := List.getElem?_eq_some_iff.mp first
    obtain ⟨inside', at_j⟩ := List.getElem?_eq_some_iff.mp second
    have turned : q.isConflicting p = true := isConflicting_iff.mpr (isConflicting_iff.mp conflicting).symm
    cases Nat.lt_or_gt_of_ne different with
    | inl earlier =>
      have apart := free i j inside inside' earlier p (asCalico_eq_some.mpr at_i) q
        (asCalico_eq_some.mpr at_j)
      rw [turned] at apart
      cases apart
    | inr later =>
      have apart := free j i inside' inside later q (asCalico_eq_some.mpr at_j) p
        (asCalico_eq_some.mpr at_i)
      rw [conflicting] at apart
      cases apart

/-- The text is about two policies of the layer that conflict. -/
theorem hasConflictingPolicies_text {policies_list : List (LayerPolicy P)} {text : String}
    (found : hasConflictingPoliciesWithSameOrder (some policies_list) = (true, text)) :
    ∃ p q, .calico p ∈ policies_list ∧ .calico q ∈ policies_list ∧ Conflict p q ∧
      text = conflictStr p q := by
  unfold hasConflictingPoliciesWithSameOrder at found
  dsimp only at found
  split at found
  case isTrue => cases found
  case isFalse =>
    split at found
    case h_2 => cases found
    case h_1 p q stopped =>
      have listed : ∀ r ∈ policies_list.filterMap LayerPolicy.asCalico, .calico r ∈ policies_list := by
        intro r member
        obtain ⟨a, inside, same⟩ := List.mem_filterMap.mp member
        exact asCalico_eq_some.mp same ▸ inside
      obtain ⟨first, rest, split, earlier, conflicting⟩ := scanRuns_related stopped
      rw [split] at listed
      exact ⟨p, q, listed p (by simp), listed q (List.mem_append_left _ earlier),
        isConflicting_iff.mp conflicting, (Prod.mk.inj found).2.symm⟩

/-- A Calico policy of the order of Kubernetes policies, with a rule for what reaches the pod. -/
def tiedPolicy (name : String) (action : CalicoActionType) :
    CalicoPolicyWithPeers (FlowSet PeerKind Unit) :=
  let props := makeConnProps { src_peers := some {.ipBlock}, dst_peers := some {.pod} }
  { policy := {
      name := name
      policy_namespace := some "default"
      selected_peers := {.pod}
      affects_ingress := true
      affects_egress := false
      policy_kind := .CalicoNetworkPolicy
      order := some 1000
      ingress_rules := [⟨action, props⟩]
      egress_rules := []
      kind := by decide
      ingress_inside := by simp +contextual [props, Inside, ConnectivityCube.Admits, capturedEnd]
      egress_inside := nofun }
    ingress_rules := [⟨⟨action, props⟩, {.ipBlock}, {.pod}⟩]
    egress_rules := []
    same_ingress := rfl
    same_egress := rfl }

/-- The policy of Kubernetes stands between the two Calico policies. -/
def tiedLayer : List (LayerPolicy (FlowSet PeerKind Unit)) :=
  [.calico (tiedPolicy "allow" .Allow), .k8s {
    name := "isolate"
    policy_namespace := some "default"
    selected_peers := {.pod}
    affects_ingress := true
    affects_egress := false
    policy_kind := .K8sNetworkPolicy
    ingress_rules := []
    egress_rules := []
    kind := rfl
    ingress_inside := noIngress_inside
    egress_inside := noEgress_inside }, .calico (tiedPolicy "deny" .Deny)]

theorem tiedLayer_conflicting : (hasConflictingPoliciesWithSameOrder (some tiedLayer)).1 = true := by
  have sorted : tiedLayer.Pairwise fun a b => orderKey a.toPolicy ≤ orderKey b.toPolicy := by
    have level : ∀ a ∈ tiedLayer, orderKey a.toPolicy = (1000 : ℚ) := by
      simp only [tiedLayer, List.forall_mem_cons]
      exact ⟨rfl, rfl, rfl, List.forall_mem_nil _⟩
    apply List.pairwise_of_forall_mem_list
    exact fun a first b second => le_of_eq ((level a first).trans (level b second).symm)
  apply (hasConflictingPolicies_iff sorted).1.mpr
  exact ⟨0, 2, tiedPolicy "allow" .Allow, tiedPolicy "deny" .Deny, by decide, rfl, rfl, by decide⟩

end Layer
end Nca.NetworkConfig
