import Nca.CoreDS.ConnectivityProperties
import Nca.Lib.FirstMatch

/-!
What all network policies share: their kinds, the peers they select, and the connections that the
application of policies allows, denies and passes.
-/

namespace Nca.Resources
open CoreDS Lib

inductive PolicyType where
  | Unknown
  | K8sNetworkPolicy
  | CalicoNetworkPolicy
  | CalicoGlobalNetworkPolicy
  | CalicoProfile
  | IstioAuthorizationPolicy
  | IstioSidecar
  | Ingress
  | Gateway
  | VirtualService
  | GatewayPolicy
  | List
  deriving DecidableEq, Repr

/-- The members of the base class, without the rules. -/
structure NetworkPolicy (E : Type) where
  name : String
  policy_namespace : Option String
  selected_peers : PeerSet E
  affects_ingress : Bool
  affects_egress : Bool
  policy_kind : PolicyType
  has_ipv6_addresses : Bool := false
  deriving DecidableEq

namespace NetworkPolicy

variable {E : Type} (self : NetworkPolicy E)

def fullName : String :=
  match self.policy_namespace with
  | some ns => ns ++ "/" ++ self.name
  | none => self.name

/-- `affects_ingress` or `affects_egress`. -/
def affects (is_ingress : Bool) : Bool :=
  if is_ingress then self.affects_ingress else self.affects_egress

end NetworkPolicy

/-- The end of a connection that a policy captures: its destination for ingress, its source for
egress. -/
def capturedEnd {E κ : Type} (is_ingress : Bool) (x : Flow E κ) : E :=
  if is_ingress then x.dst else x.src

/-- The other end. -/
def otherEnd {E κ : Type} (is_ingress : Bool) (x : Flow E κ) : E :=
  if is_ingress then x.src else x.dst

/-- Which of the connections are wanted; `all_allowed_conns` is needed to compute
`allowed_conns`. -/
structure PolicyConnectionsFilter where
  calc_allowed : Bool
  calc_denied : Bool
  calc_pass : Bool
  calc_all_allowed : Bool
  needed : calc_allowed = true → calc_all_allowed = true

namespace PolicyConnectionsFilter

/-- The constructor with its `__post_init__`. -/
def init (calc_allowed calc_denied calc_pass calc_all_allowed : Bool) : PolicyConnectionsFilter where
  calc_allowed := calc_allowed
  calc_denied := calc_denied
  calc_pass := calc_pass
  calc_all_allowed := calc_all_allowed || calc_allowed
  needed := fun wanted => by simp [wanted]

/-- `replace(the_filter, calc_all_allowed=False)`, which runs `__post_init__` again. -/
def withoutAllAllowed (the_filter : PolicyConnectionsFilter) : PolicyConnectionsFilter :=
  init the_filter.calc_allowed the_filter.calc_denied the_filter.calc_pass false

def onlyAllowedConnections : PolicyConnectionsFilter := init true false false false

def onlyDeniedConnections : PolicyConnectionsFilter := init false true false false

def onlyAllAllowedConnections : PolicyConnectionsFilter := init false false false true

/-- The default filter asks for everything. -/
def everything : PolicyConnectionsFilter := init true true true true

end PolicyConnectionsFilter

variable {P E κ : Type} [DecidableEq E] [ConnectivityProperties P E κ]

/-- The effect of applying policies to all sources and destinations. -/
structure PolicyConnections (P E : Type) where
  captured : PeerSet E
  allowed_conns : P
  denied_conns : P
  pass_conns : P
  all_allowed_conns : P

namespace PolicyConnections

def init : PolicyConnections P E := ⟨∅, ∅, ∅, ∅, ∅⟩

/-- What the policies say about connections. -/
def decisions (self : PolicyConnections P E) : Decisions P :=
  ⟨self.allowed_conns, self.denied_conns, self.pass_conns⟩

def andByFilter (self : PolicyConnections P E) (props : P) (the_filter : PolicyConnectionsFilter) :
    PolicyConnections P E where
  captured := self.captured
  allowed_conns :=
    if the_filter.calc_allowed then self.allowed_conns ∩ props else self.allowed_conns
  denied_conns := if the_filter.calc_denied then self.denied_conns ∩ props else self.denied_conns
  pass_conns := if the_filter.calc_pass then self.pass_conns ∩ props else self.pass_conns
  all_allowed_conns :=
    if the_filter.calc_all_allowed then self.all_allowed_conns ∩ props else self.all_allowed_conns

def subByFilter (self : PolicyConnections P E) (props : P) (the_filter : PolicyConnectionsFilter) :
    PolicyConnections P E where
  captured := self.captured
  allowed_conns :=
    if the_filter.calc_allowed then self.allowed_conns \ props else self.allowed_conns
  denied_conns := if the_filter.calc_denied then self.denied_conns \ props else self.denied_conns
  pass_conns := if the_filter.calc_pass then self.pass_conns \ props else self.pass_conns
  all_allowed_conns :=
    if the_filter.calc_all_allowed then self.all_allowed_conns \ props else self.all_allowed_conns

end PolicyConnections
end Nca.Resources
