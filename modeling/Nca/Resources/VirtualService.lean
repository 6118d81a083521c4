import Nca.Parsers.IngressPolicyYamlParser

/-!
Virtual services as they are kept after parsing: their hosts, their gateways, and their routes with
the destinations and the conditions of the route.
-/

namespace Nca.Resources
open CoreDS Lib Parsers

inductive HttpMethod where
  | GET
  | HEAD
  | POST
  | PUT
  | DELETE
  | CONNECT
  | OPTIONS
  | TRACE
  | PATCH
  deriving DecidableEq, Repr

def all_methods_list : List HttpMethod :=
  [.GET, .HEAD, .POST, .PUT, .DELETE, .CONNECT, .OPTIONS, .TRACE, .PATCH]

def HttpMethod.text : HttpMethod → Str
  | GET => "GET".toList
  | HEAD => "HEAD".toList
  | POST => "POST".toList
  | PUT => "PUT".toList
  | DELETE => "DELETE".toList
  | CONNECT => "CONNECT".toList
  | OPTIONS => "OPTIONS".toList
  | TRACE => "TRACE".toList
  | PATCH => "PATCH".toList

abbrev MethodSet := Finset HttpMethod

/-- `MethodSet(True)`. -/
def allMethods : MethodSet := all_methods_list.toFinset

theorem mem_allMethods (m : HttpMethod) : m ∈ allMethods := by
  cases m <;> decide

/-- `add_methods_from_regex` on an empty set; `re_match` tells whether `re.match` matches. -/
def methodsFromRegex (re_match : Str → Str → Bool) (methods_regex : Str) : MethodSet :=
  (all_methods_list.filter fun method => re_match methods_regex method.text).toFinset

/-- A destination of a route; without a port its port set is empty. -/
structure Destination (E : Type) where
  name : Str
  pods : PeerSet E
  port : Option TargetPort

structure Route (E D : Type) where
  is_internal_dest : Option Bool := none
  destinations : List (Destination E) := []
  uri_dfa : Option D := none
  methods : Option MethodSet := none
  all_sni_hosts_dfa : Option D := none
  gateway_names : List String := []

def TargetPort.truthy : TargetPort → Bool
  | .number n => decide (n ≠ 0)
  | .named name => decide (name ≠ "")

def addMesh (gateway_names : List String) : List String :=
  if "mesh" ∈ gateway_names then gateway_names else gateway_names ++ ["mesh"]

namespace Destination

variable {E : Type}

def isEgressGateway (self : Destination E) : Bool :=
  self.name == "istio-egressgateway.istio-system.svc.cluster.local".toList

end Destination

namespace Route

variable {E D : Type} [MinDFA D] (self : Route E D)

def addDestination (name : Str) (pods : PeerSet E) (port : Option TargetPort)
    (is_internal_dest : Bool) : Except ParseError (Route E D) := do
  let destinations := self.destinations ++ [⟨name, pods, port.filter TargetPort.truthy⟩]
  match self.is_internal_dest with
  | none => return { self with destinations, is_internal_dest := some is_internal_dest }
  | some flow =>
    -- assuming no both ingress and egress flows in the same route
    if flow ≠ is_internal_dest then throw .AssertionError
    return { self with destinations }

def addUriDfa (uri_dfa : D) : Route E D :=
  { self with uri_dfa := some (addDfa self.uri_dfa uri_dfa) }

def addMethods (methods : MethodSet) : Route E D :=
  { self with methods := some (self.methods.getD ∅ ∪ methods) }

end Route

structure VirtualService (E D : Type) where
  name : String
  /-- The name of the namespace. -/
  «namespace» : String
  hosts_dfa : List D := []
  gateway_names : List String := []
  http_routes : List (Route E D) := []
  tls_routes : List (Route E D) := []
  tcp_routes : List (Route E D) := []

def VirtualService.fullName {E D : Type} (self : VirtualService E D) : String :=
  self.namespace ++ "/" ++ self.name

end Nca.Resources
