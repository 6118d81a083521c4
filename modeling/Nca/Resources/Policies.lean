import Nca.Resources.NetworkPolicy
import Mathlib.Algebra.Order.Ring.Rat

/-!
The policy classes. Each keeps rules in order and derives from them the connections it allows,
denies and passes. The rules of a parsed policy concern only the peers that the policy selects,
and its kind is one of its class.
-/

namespace Nca.Resources
open CoreDS Lib

variable {P E κ : Type} [DecidableEq E] [ConnectivityProperties P E κ]

/-- The connections of the rule concern peers that are selected. -/
def Inside (selected_peers : PeerSet E) (is_ingress : Bool) (props : P) : Prop :=
  ∀ x : Flow E κ, x ∈ props → capturedEnd is_ingress x ∈ selected_peers

/-- The union of the properties of some rules. -/
def unionProps {R : Type} (props : R → P) (rules : List R) : P :=
  rules.foldl (fun acc rule => acc ∪ props rule) ∅

omit [DecidableEq E] in
theorem mem_unionProps {R : Type} {props : R → P} {rules : List R} {x : Flow E κ} :
    x ∈ unionProps props rules ↔ ∃ rule ∈ rules, x ∈ props rule := by
  have walk : ∀ acc : P, x ∈ rules.foldl (fun acc rule => acc ∪ props rule) acc ↔
      x ∈ acc ∨ ∃ rule ∈ rules, x ∈ props rule := by
    induction rules with
    | nil => simp
    | cons rule rest ih =>
      intro acc
      rw [List.foldl_cons, ih, ExactSet.mem_union, or_assoc, List.exists_mem_cons_iff]
  unfold unionProps
  rw [walk]
  simp

/-- `NetworkPolicy.allowed_connections` of the derived classes. -/
def connectionsOf (decisions : Decisions P) (captured : PeerSet E) : PolicyConnections P E where
  captured := captured
  allowed_conns := decisions.allow
  denied_conns := decisions.deny
  pass_conns := decisions.pass
  all_allowed_conns := ∅

section K8s

structure K8sPolicyRule (P : Type) where
  props : P

def K8sPolicyRule.eq (self other : K8sPolicyRule P) : Bool := decide (self.props = other.props)

structure K8sNetworkPolicy (P : Type) {E κ : Type} [ConnectivityProperties P E κ] extends
    NetworkPolicy E where
  ingress_rules : List (K8sPolicyRule P)
  egress_rules : List (K8sPolicyRule P)
  kind : policy_kind = .K8sNetworkPolicy
  ingress_inside : ∀ rule ∈ ingress_rules, Inside selected_peers true rule.props
  egress_inside : ∀ rule ∈ egress_rules, Inside selected_peers false rule.props

namespace K8sNetworkPolicy
variable (self other : K8sNetworkPolicy P)

def rules (is_ingress : Bool) : List (K8sPolicyRule P) :=
  if is_ingress then self.ingress_rules else self.egress_rules

def syncProps (is_ingress : Bool) : Decisions P :=
  ⟨unionProps K8sPolicyRule.props (self.rules is_ingress), ∅, ∅⟩

def allowedConnections (is_ingress : Bool) : PolicyConnections P E :=
  connectionsOf (self.syncProps is_ingress)
    (if self.affects is_ingress then self.selected_peers else ∅)

def cloneWithoutRule (rule_to_exclude : K8sPolicyRule P) (ingress_rule : Bool) :
    K8sNetworkPolicy P where
  toNetworkPolicy := { self.toNetworkPolicy with has_ipv6_addresses := false }
  egress_rules := self.egress_rules.filter fun rule => ingress_rule || !rule.eq rule_to_exclude
  ingress_rules := self.ingress_rules.filter fun rule => !ingress_rule || !rule.eq rule_to_exclude
  kind := self.kind
  ingress_inside := fun rule member => self.ingress_inside rule (List.mem_of_mem_filter member)
  egress_inside := fun rule member => self.egress_inside rule (List.mem_of_mem_filter member)

def getOrder (_self : K8sNetworkPolicy P) : Option ℚ := some 1000

end K8sNetworkPolicy
end K8s

section Calico

inductive CalicoActionType where
  | Deny
  | Allow
  | Log
  | Pass
  deriving DecidableEq, Repr

structure CalicoPolicyRule (P : Type) where
  action : CalicoActionType
  props : P

def CalicoPolicyRule.eq (self other : CalicoPolicyRule P) : Bool :=
  decide (self.props = other.props) && decide (self.action = other.action)

structure CalicoNetworkPolicy (P : Type) {E κ : Type} [ConnectivityProperties P E κ] extends
    NetworkPolicy E where
  order : Option ℚ
  ingress_rules : List (CalicoPolicyRule P)
  egress_rules : List (CalicoPolicyRule P)
  kind : policy_kind ∈ [.CalicoNetworkPolicy, .CalicoGlobalNetworkPolicy, .CalicoProfile]
  ingress_inside : ∀ rule ∈ ingress_rules, Inside selected_peers true rule.props
  egress_inside : ∀ rule ∈ egress_rules, Inside selected_peers false rule.props

/-- One turn of the loop of `_update_opt_props_by_order`. -/
def updateByRule (acc : Decisions P) (rule : CalicoPolicyRule P) : Decisions P :=
  match rule.action with
  | .Allow => { acc with allow := acc.allow ∪ ((rule.props \ acc.deny) \ acc.pass) }
  | .Deny => { acc with deny := acc.deny ∪ ((rule.props \ acc.allow) \ acc.pass) }
  | .Pass => { acc with pass := acc.pass ∪ ((rule.props \ acc.allow) \ acc.deny) }
  | .Log => acc

def updateOptPropsByOrder (rules : List (CalicoPolicyRule P)) : Decisions P :=
  rules.foldl updateByRule .none

namespace CalicoNetworkPolicy
variable (self other : CalicoNetworkPolicy P)

def rules (is_ingress : Bool) : List (CalicoPolicyRule P) :=
  if is_ingress then self.ingress_rules else self.egress_rules

def syncProps (is_ingress : Bool) : Decisions P := updateOptPropsByOrder (self.rules is_ingress)

def allowedConnections (is_ingress : Bool) : PolicyConnections P E :=
  connectionsOf (self.syncProps is_ingress)
    (if self.affects is_ingress then self.selected_peers else ∅)

def cloneWithoutRule (rule_to_exclude : CalicoPolicyRule P) (ingress_rule : Bool) :
    CalicoNetworkPolicy P where
  toNetworkPolicy := { self.toNetworkPolicy with has_ipv6_addresses := false }
  order := self.order
  egress_rules := self.egress_rules.filter fun rule => ingress_rule || !rule.eq rule_to_exclude
  ingress_rules := self.ingress_rules.filter fun rule => !ingress_rule || !rule.eq rule_to_exclude
  kind := self.kind
  ingress_inside := fun rule member => self.ingress_inside rule (List.mem_of_mem_filter member)
  egress_inside := fun rule member => self.egress_inside rule (List.mem_of_mem_filter member)

def getOrder : Option ℚ := self.order

end CalicoNetworkPolicy
end Calico

section Istio

/-- The actions of Istio authorization policies and of gateway policies. -/
inductive ActionType where
  | Deny
  | Allow
  deriving DecidableEq, Repr

structure IstioPolicyRule (P : Type) where
  props : P

def IstioPolicyRule.eq (self other : IstioPolicyRule P) : Bool := decide (self.props = other.props)

/-- An authorization policy; it selects cluster peers, never DNS entries. -/
structure IstioNetworkPolicy (P : Type) {E κ : Type} [Peers E] [ConnectivityProperties P E κ] extends
    NetworkPolicy E where
  action : ActionType
  ingress_rules : List (IstioPolicyRule P)
  kind : policy_kind = .IstioAuthorizationPolicy
  ingress_inside : ∀ rule ∈ ingress_rules, Inside selected_peers true rule.props
  no_dns : ∀ e ∈ selected_peers, Peers.kind e ≠ .dnsEntry

namespace IstioNetworkPolicy
variable [Peers E] (self other : IstioNetworkPolicy P)

def syncProps (is_ingress : Bool) : Decisions P :=
  if is_ingress then
    match self.action with
    | .Allow => ⟨unionProps IstioPolicyRule.props self.ingress_rules, ∅, ∅⟩
    | .Deny => ⟨∅, unionProps IstioPolicyRule.props self.ingress_rules, ∅⟩
  else .none

def allowedConnections (is_ingress : Bool) : PolicyConnections P E :=
  connectionsOf (self.syncProps is_ingress) (if is_ingress then self.selected_peers else ∅)

/-- The direction of the rule is not looked at. -/
def cloneWithoutRule (rule_to_exclude : IstioPolicyRule P) : IstioNetworkPolicy P where
  toNetworkPolicy := { self.toNetworkPolicy with has_ipv6_addresses := false }
  action := self.action
  ingress_rules := self.ingress_rules.filter fun rule => !rule.eq rule_to_exclude
  kind := self.kind
  ingress_inside := fun rule member => self.ingress_inside rule (List.mem_of_mem_filter member)
  no_dns := self.no_dns

end IstioNetworkPolicy

structure IstioSidecarRule (P : Type) where
  props : P

/-- The comparison that `@dataclass` makes of a class without fields. -/
def IstioSidecarRule.eq (_self _other : IstioSidecarRule P) : Bool := true

structure IstioSidecar (P : Type) {E κ : Type} [ConnectivityProperties P E κ] extends
    NetworkPolicy E where
  default_sidecar : Bool
  egress_rules : List (IstioSidecarRule P)
  kind : policy_kind = .IstioSidecar
  egress_inside : ∀ rule ∈ egress_rules, Inside selected_peers false rule.props

namespace IstioSidecar
variable [Fintype E] (self other : IstioSidecar P)

def syncProps (is_ingress : Bool) : Decisions P :=
  if is_ingress then
    ⟨makeConnProps { src_peers := some Finset.univ, dst_peers := some Finset.univ }, ∅, ∅⟩
  else ⟨unionProps IstioSidecarRule.props self.egress_rules, ∅, ∅⟩

def allowedConnections (is_ingress : Bool) : PolicyConnections P E :=
  connectionsOf (self.syncProps is_ingress)
    (if is_ingress then ∅ else if self.affects_egress then self.selected_peers else ∅)

/-- The rule is an egress rule. -/
def cloneWithoutRule (rule_to_exclude : IstioSidecarRule P) : IstioSidecar P where
  toNetworkPolicy := { self.toNetworkPolicy with has_ipv6_addresses := false }
  default_sidecar := self.default_sidecar
  egress_rules := self.egress_rules.filter fun rule => !rule.eq rule_to_exclude
  kind := self.kind
  egress_inside := fun rule member => self.egress_inside rule (List.mem_of_mem_filter member)

end IstioSidecar
end Istio

section Gateway

structure GatewayPolicyRule (P : Type) where
  props : P

def GatewayPolicyRule.eq (self other : GatewayPolicyRule P) : Bool :=
  decide (self.props = other.props)

structure GatewayPolicy (P E : Type) extends NetworkPolicy E where
  action : ActionType
  ingress_rules : List (GatewayPolicyRule P)
  egress_rules : List (GatewayPolicyRule P)
  kind : policy_kind ∈ [.Ingress, .GatewayPolicy]

namespace GatewayPolicy
variable (self other : GatewayPolicy P E)

def rules (is_ingress : Bool) : List (GatewayPolicyRule P) :=
  if is_ingress then self.ingress_rules else self.egress_rules

def syncProps (is_ingress : Bool) : Decisions P :=
  match self.action with
  | .Allow => ⟨unionProps GatewayPolicyRule.props (self.rules is_ingress), ∅, ∅⟩
  | .Deny => ⟨∅, unionProps GatewayPolicyRule.props (self.rules is_ingress), ∅⟩

def allowedConnections (is_ingress : Bool) : PolicyConnections P E :=
  connectionsOf (self.syncProps is_ingress)
    (if self.affects is_ingress then self.selected_peers else ∅)

end GatewayPolicy
end Gateway

/-- A policy of any class. -/
inductive Policy (P : Type) {E κ : Type} [Peers E] [ConnectivityProperties P E κ] where
  | k8s (policy : K8sNetworkPolicy P)
  | calico (policy : CalicoNetworkPolicy P)
  | istio (policy : IstioNetworkPolicy P)
  | sidecar (policy : IstioSidecar P)
  | gateway (policy : GatewayPolicy P E)

namespace Policy
variable [Fintype E] [Peers E]

/-- The members of the base class. -/
def base : Policy P → NetworkPolicy E
  | k8s policy => policy.toNetworkPolicy
  | calico policy => policy.toNetworkPolicy
  | istio policy => policy.toNetworkPolicy
  | sidecar policy => policy.toNetworkPolicy
  | gateway policy => policy.toNetworkPolicy

def syncProps (self : Policy P) (is_ingress : Bool) : Decisions P :=
  match self with
  | k8s policy => policy.syncProps is_ingress
  | calico policy => policy.syncProps is_ingress
  | istio policy => policy.syncProps is_ingress
  | sidecar policy => policy.syncProps is_ingress
  | gateway policy => policy.syncProps is_ingress

def allowedConnections (self : Policy P) (is_ingress : Bool) : PolicyConnections P E :=
  match self with
  | k8s policy => policy.allowedConnections is_ingress
  | calico policy => policy.allowedConnections is_ingress
  | istio policy => policy.allowedConnections is_ingress
  | sidecar policy => policy.allowedConnections is_ingress
  | gateway policy => policy.allowedConnections is_ingress

/-- `get_order`; only K8s and Calico policies override it. -/
def getOrder : Policy P → Option ℚ
  | k8s policy => policy.getOrder
  | calico policy => policy.getOrder
  | _ => none

/-- `NetworkPolicy.__lt__`. -/
def orderLt (self other : Policy P) : Bool :=
  match self.getOrder, other.getOrder with
  | none, _ => false
  | some _, none => true
  | some a, some b => decide (a < b)

/-- `__lt__`, which authorization policies override. -/
def lt (self other : Policy P) : Bool :=
  match self, other with
  | istio policy, istio _ => decide (policy.action = .Deny)
  | istio _, _ => false
  | _, _ => orderLt self other

/-- Comparison of two lists with the `__eq__` of their elements. -/
def listEq {R : Type} (eq : R → R → Bool) : List R → List R → Bool
  | [], [] => true
  | x :: xs, y :: ys => eq x y && listEq eq xs ys
  | _, _ => false

/-- The part of `NetworkPolicy.__eq__` that is about the base class and the properties. -/
def baseEq (self other : Policy P) : Bool :=
  decide (self.base.name = other.base.name) &&
  decide (self.base.policy_namespace = other.base.policy_namespace) &&
  decide (self.base.affects_egress = other.base.affects_egress) &&
  decide (self.base.affects_ingress = other.base.affects_ingress) &&
  decide (self.base.selected_peers = other.base.selected_peers) &&
  [true, false].all fun is_ingress =>
    decide ((self.syncProps is_ingress).allow = (other.syncProps is_ingress).allow) &&
    decide ((self.syncProps is_ingress).deny = (other.syncProps is_ingress).deny) &&
    decide ((self.syncProps is_ingress).pass = (other.syncProps is_ingress).pass)

def eq (self other : Policy P) : Bool :=
  match self, other with
  | k8s p, k8s q => baseEq self other &&
    listEq K8sPolicyRule.eq p.ingress_rules q.ingress_rules &&
    listEq K8sPolicyRule.eq p.egress_rules q.egress_rules
  | calico p, calico q => baseEq self other &&
    listEq CalicoPolicyRule.eq p.ingress_rules q.ingress_rules &&
    listEq CalicoPolicyRule.eq p.egress_rules q.egress_rules && decide (p.order = q.order)
  | istio p, istio q => baseEq self other &&
    listEq IstioPolicyRule.eq p.ingress_rules q.ingress_rules && decide (p.action = q.action)
  | sidecar p, sidecar q => baseEq self other &&
    listEq IstioSidecarRule.eq p.egress_rules q.egress_rules &&
    decide (p.default_sidecar = q.default_sidecar)
  | gateway p, gateway q => baseEq self other &&
    listEq GatewayPolicyRule.eq p.ingress_rules q.ingress_rules &&
    listEq GatewayPolicyRule.eq p.egress_rules q.egress_rules && decide (p.action = q.action)
  | _, _ => false

end Policy
end Nca.Resources
