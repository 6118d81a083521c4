import Nca.Resources.PolicyDecisions

/-!
Leaving rules out of policies. A clone leaves out all rules that equal the given one, by the
comparison of the rule's class; this is the one rule alone unless another rule equals it.
-/

namespace Nca.Resources
open CoreDS Lib

section Lists

variable {R : Type} {eq : R → R → Bool} {rules : List R} {i : Nat}

/-- The number of rules that equal the rule at the index, itself included. -/
def equalCount (eq : R → R → Bool) (rules : List R) (i : Nat) : Nat :=
  match rules[i]? with
  | some rule => rules.countP fun other => eq other rule
  | none => 0

theorem length_without (rule : R) :
    (rules.filter fun other => !eq other rule).length + rules.countP (fun other => eq other rule) =
      rules.length := by
  induction rules with
  | nil => rfl
  | cons first rest ih =>
    cases same : eq first rule <;> simp [same] <;> omega

theorem filter_not_eq_eraseIdx {p : R → Bool} (h : rules.countP p ≤ 1) {rule : R}
    (found : rules[i]? = some rule) (holds : p rule = true) :
    (rules.filter fun other => !p other) = rules.eraseIdx i := by
  induction rules generalizing i with
  | nil => cases found
  | cons first rest ih =>
    cases i with
    | zero =>
      obtain rfl := Option.some.inj found
      rw [List.countP_cons_of_pos holds] at h
      have none : ∀ other ∈ rest, ¬ p other = true := List.countP_eq_zero.mp (by omega)
      rw [List.filter_cons_of_neg (by simp [holds]), List.eraseIdx_cons_zero]
      exact List.filter_eq_self.mpr fun other member => by simpa using none other member
    | succ i =>
      rw [List.getElem?_cons_succ] at found
      have later : 0 < rest.countP p :=
        List.countP_pos_iff.mpr ⟨rule, List.mem_of_getElem? found, holds⟩
      have fails : ¬ p first = true := by
        intro first
        rw [List.countP_cons_of_pos first] at h
        omega
      rw [List.countP_cons_of_neg fails] at h
      rw [List.filter_cons_of_pos (by simpa using fails), List.eraseIdx_cons_succ, ih h found]

theorem without_equal (eq : R → R → Bool) (reflexive : ∀ rule, eq rule rule = true) {rule : R}
    (found : rules[i]? = some rule) :
    (rules.filter fun other => !eq other rule).length + equalCount eq rules i = rules.length ∧
      0 < equalCount eq rules i ∧ (equalCount eq rules i = 1 →
        (rules.filter fun other => !eq other rule) = rules.eraseIdx i) := by
  have count : equalCount eq rules i = rules.countP fun other => eq other rule := by
    rw [equalCount, found]
  rw [count]
  refine ⟨length_without rule, ?_, fun alone => ?_⟩
  · exact List.countP_pos_iff.mpr ⟨rule, List.mem_of_getElem? found, reflexive rule⟩
  · exact filter_not_eq_eraseIdx (Nat.le_of_eq alone) found (reflexive rule)

theorem cons_eraseIdx_perm {rule : R} (found : rules[i]? = some rule) :
    (rule :: rules.eraseIdx i).Perm rules := by
  obtain ⟨bound, rfl⟩ := List.getElem?_eq_some_iff.mp found
  exact List.getElem_cons_eraseIdx_perm bound

end Lists

variable {P E κ : Type} [ConnectivityProperties P E κ]

/-- A rule adds nothing to a union that another rule with the same connections is part of. -/
theorem unionProps_eraseIdx {R : Type} {eq : R → R → Bool} {props : R → P} {rules : List R} {i : Nat}
    (reflexive : ∀ rule, eq rule rule = true)
    (sameProps : ∀ rule other, eq other rule = true → props other = props rule)
    (equal : 1 < equalCount eq rules i) :
    unionProps props (rules.eraseIdx i) = unionProps props rules := by
  cases found : rules[i]? with
  | none => simp [equalCount, found] at equal
  | some rule =>
    have perm := cons_eraseIdx_perm found
    have count : equalCount eq rules i = rules.countP fun other => eq other rule := by
      rw [equalCount, found]
    rw [count, ← perm.countP_eq,
      List.countP_cons_of_pos (p := fun other => eq other rule) (reflexive rule)] at equal
    have others : 0 < (rules.eraseIdx i).countP fun other => eq other rule := by omega
    obtain ⟨twin, inside, same⟩ := List.countP_pos_iff.mp others
    refine ExactSet.eq_iff.mpr fun x => ?_
    rw [mem_unionProps, mem_unionProps]
    constructor
    · rintro ⟨other, member, matched⟩
      exact ⟨other, List.mem_of_mem_eraseIdx member, matched⟩
    · rintro ⟨other, member, matched⟩
      rcases List.mem_cons.mp (perm.mem_iff.mpr member) with rfl | kept
      · exact ⟨twin, inside, sameProps _ twin same ▸ matched⟩
      · exact ⟨other, kept, matched⟩

namespace K8sNetworkPolicy

/-- The policy without the one rule. -/
def eraseRule (self : K8sNetworkPolicy P) (ingress_rule : Bool) (i : Nat) : K8sNetworkPolicy P where
  toNetworkPolicy := { self.toNetworkPolicy with has_ipv6_addresses := false }
  ingress_rules := if ingress_rule then self.ingress_rules.eraseIdx i else self.ingress_rules
  egress_rules := if ingress_rule then self.egress_rules else self.egress_rules.eraseIdx i
  kind := self.kind
  ingress_inside := by
    intro rule member
    refine self.ingress_inside rule ?_
    cases ingress_rule
    · exact member
    · exact List.mem_of_mem_eraseIdx member
  egress_inside := by
    intro rule member
    refine self.egress_inside rule ?_
    cases ingress_rule
    · exact List.mem_of_mem_eraseIdx member
    · exact member

end K8sNetworkPolicy

namespace CalicoNetworkPolicy

/-- The policy without the one rule. -/
def eraseRule (self : CalicoNetworkPolicy P) (ingress_rule : Bool) (i : Nat) :
    CalicoNetworkPolicy P where
  toNetworkPolicy := { self.toNetworkPolicy with has_ipv6_addresses := false }
  order := self.order
  ingress_rules := if ingress_rule then self.ingress_rules.eraseIdx i else self.ingress_rules
  egress_rules := if ingress_rule then self.egress_rules else self.egress_rules.eraseIdx i
  kind := self.kind
  ingress_inside := by
    intro rule member
    refine self.ingress_inside rule ?_
    cases ingress_rule
    · exact member
    · exact List.mem_of_mem_eraseIdx member
  egress_inside := by
    intro rule member
    refine self.egress_inside rule ?_
    cases ingress_rule
    · exact List.mem_of_mem_eraseIdx member
    · exact member

end CalicoNetworkPolicy

namespace IstioNetworkPolicy
variable [Peers E]

/-- Authorization policies have ingress rules only. -/
def rules (self : IstioNetworkPolicy P) (is_ingress : Bool) : List (IstioPolicyRule P) :=
  if is_ingress then self.ingress_rules else []

/-- The policy without the one rule. -/
def eraseRule (self : IstioNetworkPolicy P) (i : Nat) : IstioNetworkPolicy P where
  toNetworkPolicy := { self.toNetworkPolicy with has_ipv6_addresses := false }
  action := self.action
  ingress_rules := self.ingress_rules.eraseIdx i
  kind := self.kind
  ingress_inside := fun rule member => self.ingress_inside rule (List.mem_of_mem_eraseIdx member)
  no_dns := self.no_dns

end IstioNetworkPolicy

namespace IstioSidecar

/-- Sidecars have egress rules only. -/
def rules (self : IstioSidecar P) (is_ingress : Bool) : List (IstioSidecarRule P) :=
  if is_ingress then [] else self.egress_rules

/-- The policy without the one rule. -/
def eraseRule (self : IstioSidecar P) (i : Nat) : IstioSidecar P where
  toNetworkPolicy := { self.toNetworkPolicy with has_ipv6_addresses := false }
  default_sidecar := self.default_sidecar
  egress_rules := self.egress_rules.eraseIdx i
  kind := self.kind
  egress_inside := fun rule member => self.egress_inside rule (List.mem_of_mem_eraseIdx member)

end IstioSidecar

namespace Policy
variable [Peers E]

/-- The number of rules of a direction. -/
def ruleCount (self : Policy P) (is_ingress : Bool) : Nat :=
  match self with
  | k8s policy => (policy.rules is_ingress).length
  | calico policy => (policy.rules is_ingress).length
  | istio policy => (policy.rules is_ingress).length
  | sidecar policy => (policy.rules is_ingress).length
  | gateway policy => (policy.rules is_ingress).length

/-- `clone_without_rule` for the rule at an index; gateway layers are never asked for it. -/
def cloneWithoutRule (self : Policy P) (is_ingress : Bool) (i : Nat) : Option (Policy P) :=
  match self with
  | k8s policy => (policy.rules is_ingress)[i]?.map fun rule =>
      k8s (policy.cloneWithoutRule rule is_ingress)
  | calico policy => (policy.rules is_ingress)[i]?.map fun rule =>
      calico (policy.cloneWithoutRule rule is_ingress)
  | istio policy => (policy.rules is_ingress)[i]?.map fun rule =>
      istio (policy.cloneWithoutRule rule)
  | sidecar policy => (policy.rules is_ingress)[i]?.map fun rule =>
      sidecar (policy.cloneWithoutRule rule)
  | gateway _ => none

/-- The policy without the one rule of the direction. -/
def eraseRule (self : Policy P) (is_ingress : Bool) (i : Nat) : Policy P :=
  match self with
  | k8s policy => k8s (policy.eraseRule is_ingress i)
  | calico policy => calico (policy.eraseRule is_ingress i)
  | istio policy => istio (policy.eraseRule i)
  | sidecar policy => sidecar (policy.eraseRule i)
  | gateway policy => gateway policy

/-- The number of rules of the direction that equal the one at the index. -/
def equalRules (self : Policy P) (is_ingress : Bool) (i : Nat) : Nat :=
  match self with
  | k8s policy => equalCount K8sPolicyRule.eq (policy.rules is_ingress) i
  | calico policy => equalCount CalicoPolicyRule.eq (policy.rules is_ingress) i
  | istio policy => equalCount IstioPolicyRule.eq (policy.rules is_ingress) i
  | sidecar policy => equalCount IstioSidecarRule.eq (policy.rules is_ingress) i
  | gateway policy => equalCount GatewayPolicyRule.eq (policy.rules is_ingress) i

/-- A clone lacks the rules that equal the given one; if that is the rule alone, it is the policy
without the one rule. -/
theorem clone_spec {policy : Policy P} {is_ingress : Bool} {i : Nat}
    (notGateway : ∀ p, policy ≠ gateway p) (bound : i < policy.ruleCount is_ingress) :
    ∃ modified, policy.cloneWithoutRule is_ingress i = some modified ∧
      modified.ruleCount is_ingress + policy.equalRules is_ingress i =
        policy.ruleCount is_ingress ∧
      0 < policy.equalRules is_ingress i ∧
      (policy.equalRules is_ingress i = 1 → modified = policy.eraseRule is_ingress i) := by
  cases policy with
  | gateway p => exact (notGateway p rfl).elim
  | k8s p =>
    obtain ⟨rule, found⟩ : ∃ rule, (p.rules is_ingress)[i]? = some rule :=
      ⟨_, List.getElem?_eq_getElem bound⟩
    obtain ⟨count, positive, alone⟩ :=
      without_equal K8sPolicyRule.eq (by simp [K8sPolicyRule.eq]) found
    have kept : (p.cloneWithoutRule rule is_ingress).rules is_ingress =
        (p.rules is_ingress).filter fun other => !other.eq rule := by
      cases is_ingress <;> simp [K8sNetworkPolicy.cloneWithoutRule, K8sNetworkPolicy.rules]
    refine ⟨k8s (p.cloneWithoutRule rule is_ingress), by simp [cloneWithoutRule, found],
      (congrArg (List.length · + _) kept).trans count, positive, fun one => ?_⟩
    have erased := kept.trans (alone one)
    cases is_ingress <;>
      simp_all [eraseRule, K8sNetworkPolicy.eraseRule, K8sNetworkPolicy.cloneWithoutRule,
        K8sNetworkPolicy.rules]
  | calico p =>
    obtain ⟨rule, found⟩ : ∃ rule, (p.rules is_ingress)[i]? = some rule :=
      ⟨_, List.getElem?_eq_getElem bound⟩
    obtain ⟨count, positive, alone⟩ :=
      without_equal CalicoPolicyRule.eq (by simp [CalicoPolicyRule.eq]) found
    have kept : (p.cloneWithoutRule rule is_ingress).rules is_ingress =
        (p.rules is_ingress).filter fun other => !other.eq rule := by
      cases is_ingress <;> simp [CalicoNetworkPolicy.cloneWithoutRule, CalicoNetworkPolicy.rules]
    refine ⟨calico (p.cloneWithoutRule rule is_ingress), by simp [cloneWithoutRule, found],
      (congrArg (List.length · + _) kept).trans count, positive, fun one => ?_⟩
    have erased := kept.trans (alone one)
    cases is_ingress <;>
      simp_all [eraseRule, CalicoNetworkPolicy.eraseRule, CalicoNetworkPolicy.cloneWithoutRule,
        CalicoNetworkPolicy.rules]
  | istio p =>
    obtain ⟨rule, found⟩ : ∃ rule, (p.rules is_ingress)[i]? = some rule :=
      ⟨_, List.getElem?_eq_getElem bound⟩
    obtain ⟨count, positive, alone⟩ :=
      without_equal IstioPolicyRule.eq (by simp [IstioPolicyRule.eq]) found
    have kept : (p.cloneWithoutRule rule).rules is_ingress =
        (p.rules is_ingress).filter fun other => !other.eq rule := by
      cases is_ingress <;> simp [IstioNetworkPolicy.cloneWithoutRule, IstioNetworkPolicy.rules]
    refine ⟨istio (p.cloneWithoutRule rule), by simp [cloneWithoutRule, found],
      (congrArg (List.length · + _) kept).trans count, positive, fun one => ?_⟩
    have erased := kept.trans (alone one)
    cases is_ingress with
    | false => cases found
    | true =>
      simp_all [eraseRule, IstioNetworkPolicy.eraseRule, IstioNetworkPolicy.cloneWithoutRule,
        IstioNetworkPolicy.rules]
  | sidecar p =>
    obtain ⟨rule, found⟩ : ∃ rule, (p.rules is_ingress)[i]? = some rule :=
      ⟨_, List.getElem?_eq_getElem bound⟩
    obtain ⟨count, positive, alone⟩ :=
      without_equal IstioSidecarRule.eq (fun _ => rfl) found
    have kept : (p.cloneWithoutRule rule).rules is_ingress =
        (p.rules is_ingress).filter fun other => !other.eq rule := by
      cases is_ingress <;> simp [IstioSidecar.cloneWithoutRule, IstioSidecar.rules]
    refine ⟨sidecar (p.cloneWithoutRule rule), by simp [cloneWithoutRule, found],
      (congrArg (List.length · + _) kept).trans count, positive, fun one => ?_⟩
    have erased := kept.trans (alone one)
    cases is_ingress with
    | true => cases found
    | false =>
      simp_all [eraseRule, IstioSidecar.eraseRule, IstioSidecar.cloneWithoutRule,
        IstioSidecar.rules]

/-- Whether the rules decide as a union, and equal rules have the same connections. -/
def unordered : Policy P → Bool
  | k8s _ | istio _ => true
  | calico _ | sidecar _ | gateway _ => false

theorem eraseRule_unordered [Fintype E] {policy : Policy P} {is_ingress : Bool} {i : Nat}
    (unordered : policy.unordered = true) (equal : 1 < policy.equalRules is_ingress i)
    (direction : Bool) :
    (policy.eraseRule is_ingress i).syncProps direction = policy.syncProps direction := by
  cases policy with
  | calico p | sidecar p | gateway p => cases unordered
  | k8s p =>
    have union : unionProps K8sPolicyRule.props ((p.rules is_ingress).eraseIdx i) =
        unionProps K8sPolicyRule.props (p.rules is_ingress) :=
      unionProps_eraseIdx (fun _ => decide_eq_true rfl) (fun _ _ => of_decide_eq_true) equal
    cases is_ingress <;> cases direction <;>
      simp_all [eraseRule, syncProps, K8sNetworkPolicy.eraseRule, K8sNetworkPolicy.syncProps,
        K8sNetworkPolicy.rules]
  | istio p =>
    cases is_ingress with
    | false => simp [equalRules, IstioNetworkPolicy.rules, equalCount] at equal
    | true =>
      have union : unionProps IstioPolicyRule.props (p.ingress_rules.eraseIdx i) =
          unionProps IstioPolicyRule.props p.ingress_rules :=
        unionProps_eraseIdx (fun _ => decide_eq_true rfl) (fun _ _ => of_decide_eq_true) equal
      simp [eraseRule, syncProps, IstioNetworkPolicy.eraseRule, IstioNetworkPolicy.syncProps, union]

theorem eraseRule_captured [Fintype E] (policy : Policy P) (is_ingress direction : Bool) (i : Nat) :
    (policy.eraseRule is_ingress i).captured direction = policy.captured direction := by
  cases policy <;> rfl

theorem clone_base {policy modified : Policy P} {is_ingress : Bool} {i : Nat}
    (cloned : policy.cloneWithoutRule is_ingress i = some modified) :
    modified.base = { policy.base with has_ipv6_addresses := false } := by
  cases policy with
  | gateway p => cases cloned
  | k8s p | calico p | istio p | sidecar p =>
    obtain ⟨rule, _, rfl⟩ := Option.map_eq_some_iff.mp cloned
    rfl

theorem listEq_refl {R : Type} {eq : R → R → Bool} (reflexive : ∀ rule, eq rule rule = true)
    (rules : List R) : listEq eq rules rules = true := by
  induction rules with
  | nil => rfl
  | cons rule rest ih => simp [listEq, reflexive, ih]

theorem length_of_listEq {R : Type} {eq : R → R → Bool} {rules rules' : List R}
    (same : listEq eq rules rules' = true) : rules.length = rules'.length := by
  induction rules generalizing rules' with
  | nil =>
    cases rules' with
    | nil => rfl
    | cons _ _ => cases same
  | cons rule rest ih =>
    cases rules' with
    | nil => cases same
    | cons rule' rest' =>
      simp only [listEq, Bool.and_eq_true] at same
      rw [List.length_cons, List.length_cons, ih same.2]

variable [Fintype E] [DecidableEq E]

theorem eq_refl (policy : Policy P) : policy.eq policy = true := by
  cases policy with
  | k8s p =>
    simp [eq, baseEq, listEq_refl, K8sPolicyRule.eq]
  | calico p =>
    simp [eq, baseEq, listEq_refl, CalicoPolicyRule.eq]
  | istio p =>
    simp [eq, baseEq, listEq_refl, IstioPolicyRule.eq]
  | sidecar p =>
    have rules : listEq IstioSidecarRule.eq p.egress_rules p.egress_rules = true :=
      listEq_refl (fun _ => rfl) _
    simp [eq, baseEq, rules]
  | gateway p =>
    simp [eq, baseEq, listEq_refl, GatewayPolicyRule.eq]

theorem ruleCount_of_eq {policy other : Policy P} (same : policy.eq other = true)
    (is_ingress : Bool) : policy.ruleCount is_ingress = other.ruleCount is_ingress := by
  cases policy <;> cases other <;> simp only [eq, Bool.false_eq_true, Bool.and_eq_true] at same
  case k8s.k8s p q =>
    cases is_ingress
    · exact length_of_listEq same.2
    · exact length_of_listEq same.1.2
  case calico.calico p q =>
    cases is_ingress
    · exact length_of_listEq same.1.2
    · exact length_of_listEq same.1.1.2
  case istio.istio p q =>
    cases is_ingress
    · rfl
    · exact length_of_listEq same.1.2
  case sidecar.sidecar p q =>
    cases is_ingress
    · exact length_of_listEq same.1.2
    · rfl
  case gateway.gateway p q =>
    cases is_ingress
    · exact length_of_listEq same.1.2
    · exact length_of_listEq same.1.1.2

end Policy
end Nca.Resources
