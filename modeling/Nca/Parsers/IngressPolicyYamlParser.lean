import Nca.CoreDS.Peer
import Nca.Parsers.PathMatching

/-!
The parser of Ingress resources. It turns the rules of a resource, with their hosts, paths and
backends, and the default backend into the connections that the Ingress allows.
-/

namespace Nca.Parsers
open CoreDS Lib

/-- A port of the pods behind a service, by its number or its name. -/
inductive TargetPort where
  | number (n : Int)
  | named (name : String)
  deriving DecidableEq, Repr

structure ServicePort where
  port_num : Int
  name : String
  target_port : TargetPort
  deriving DecidableEq, Repr

/-- A service, with the members that backends refer to. -/
structure K8sService (E : Type) where
  ports : List ServicePort
  target_pods : PeerSet E

namespace K8sService
variable {E : Type} (self : K8sService E)

def getPortByName (name : String) : Option ServicePort :=
  self.ports.find? fun port => port.name == name

def getPortByNumber (number : Option Int) : Option ServicePort :=
  self.ports.find? fun port => some port.port_num == number

end K8sService

/-- The port sets of backends: `PortSet(True)`, or one port. -/
inductive PortSet where
  | all
  | port (target_port : TargetPort)
  deriving DecidableEq, Repr

/-- The cluster as the parser sees it: the services of the namespace of the resource, the named
ports of pods, and which pod with a named port comes last among the peers of a cube. -/
structure Cluster (E : Type) where
  services : String → Option (K8sService E)
  named_ports : E → String → Option Int
  last_named : Option (PeerSet E) → String → Option E

/-- A request to a pod by way of the Ingress. -/
structure Request (E : Type) where
  dst : E
  dst_port : Int
  host : Str
  path : Str
  valid_port : 1 ≤ dst_port ∧ dst_port ≤ 65535
  valid_host : ∀ c ∈ host, MinDFA.isAlphabetChar c = true
  valid_path : MinDFA.IsPath path

/-- The dimensions of a cube that the parser sets; a dimension that is not set is full. -/
structure IngressCube (E D : Type) where
  dst_ports : Option PortSet := none
  dst_peers : Option (PeerSet E) := none
  hosts : Option D := none
  paths : Option D := none

section

variable {E D P : Type} [MinDFA D] (cluster : Cluster E)

/-- The pod has the port of the set. -/
def PortSet.Has (ports : PortSet) (x : Request E) : Prop :=
  match ports with
  | .all => True
  | .port (.number n) => x.dst_port = n
  | .port (.named name) => cluster.named_ports x.dst name = some x.dst_port

/-- The request lies in the cube, with its named port resolved. -/
def IngressCube.Admits (cube : IngressCube E D) (x : Request E) : Prop :=
  (∀ ports, cube.dst_ports = some ports → ports.Has cluster x) ∧
  (∀ peers, cube.dst_peers = some peers → x.dst ∈ peers) ∧
  (∀ hosts, cube.hosts = some hosts → x.host ∈ hosts) ∧
  ∀ paths, cube.paths = some paths → x.path ∈ paths

/-- `P` represents sets of requests to the pods of the cluster and has all cubes. -/
class IngressConns (P E D : Type) [MinDFA D] (cluster : outParam (Cluster E)) extends
    ExactSet P (Request E) where
  makeConnProps : IngressCube E D → P
  contains_make : ∀ cube x, contains (makeConnProps cube) x = true ↔ cube.Admits cluster x

export IngressConns (makeConnProps)

/-- All sets of requests to the pods of a cluster. -/
def RequestSet (_ : Cluster E) : Type := Set (Request E)

open Classical in
noncomputable instance (cluster : Cluster E) : IngressConns (RequestSet cluster) E D cluster where
  union s t := fun x => s x ∨ t x
  inter s t := fun x => s x ∧ t x
  sdiff s t := fun x => s x ∧ ¬ t x
  emptyCollection := fun _ => False
  decEq := inferInstance
  contains s x := decide (s x)
  contains_empty x := by simp
  contains_union s t x := by simp
  contains_inter s t x := by simp
  contains_sdiff s t x := by simp
  ext s t same := by
    funext x
    simpa using same x
  makeConnProps cube := fun x => cube.Admits cluster x
  contains_make cube x := by simp

end

section Resources

/-- The service that a backend names; a field that is missing is `none`. -/
structure ServiceBackend where
  name : Option String
  port : Option (Option String × Option Int)
  deriving DecidableEq, Repr

/-- A backend; only the truth value of a resource is looked at. -/
structure IngressBackend where
  resource : Bool := false
  service : Option ServiceBackend := none
  deriving DecidableEq, Repr

structure IngressPath where
  backend : IngressBackend
  path : Option Str
  pathType : PathType
  deriving DecidableEq, Repr

/-- A rule; `http` is its list of paths, or nothing where it has no such list. -/
structure IngressRule where
  host : Option Str
  http : Option (Option (List (Option IngressPath)))
  deriving DecidableEq, Repr

/-- The value of the key `rules`. -/
inductive IngressRules where
  | missing
  | null
  | list (rules : List (Option IngressRule))
  deriving DecidableEq, Repr

structure IngressSpec where
  defaultBackend : Option IngressBackend
  rules : IngressRules
  deriving DecidableEq, Repr

end Resources

section Parser

variable {E D P : Type} [DecidableEq E] [MinDFA D]

/-- Peers and ports of a backend; `None` where they are not known. -/
abbrev Target (E : Type) := Option (PeerSet E) × Option PortSet

/-- `bool` of a peer set that may be `None`. -/
def truthy (peers : Option (PeerSet E)) : Bool :=
  match peers with
  | none => false
  | some peers => decide (peers ≠ ∅)

/-- What `parse_backend` returns: the target, and whether the default may take its place. -/
def parseBackend (cluster : Cluster E) (backend : Option IngressBackend) (is_default : Bool := false) :
    Except ParseError (Target E × Bool) := do
  let unknown : Target E × Bool := if is_default then ((none, some .all), true) else ((none, none), true)
  match backend with
  | none => return unknown
  | some backend =>
    let kind := if is_default then "default" else ""
    if backend.resource && backend.service.any fun service =>
        service.name.isSome || service.port.isSome then
      throw (.SyntaxError
        s!"Resource and service are not mutually exclusivein the ingress {kind} backend")
    if backend.resource then return unknown
    match backend.service with
    | none => throw .TypeError
    | some service =>
      match service.name, service.port with
      | none, _ => throw (.SyntaxError "backend service must have name entry")
      | some _, none => throw (.SyntaxError "backend service must have port entry")
      | some service_name, some (port_name, port_number) =>
        let named := port_name.any (· ≠ "")
        let numbered := port_number.any (· ≠ 0)
        if named && numbered then
          throw (.SyntaxError
            s!"Port name and port number are mutually exclusivein the ingress {kind} backend")
        if numbered && !port_number.all fun n => decide (1 ≤ n ∧ n ≤ 65535) then
          throw (.SyntaxError "Port number must be in the range 1-65535")
        match cluster.services service_name with
        | none => return ((none, none), false)
        | some srv =>
          let service_port :=
            if named then srv.getPortByName (port_name.getD "") else srv.getPortByNumber port_number
          match service_port with
          | none => return ((none, none), false)
          | some service_port =>
            return ((some srv.target_pods, some (.port service_port.target_port)), true)

/-- The first part of `parse_ingress_path`: the target of the path, or `None` if it is ignored. -/
def parsePathTarget (cluster : Cluster E) (default_backend : Target E) (path : IngressPath) :
    Except ParseError (Option (Target E)) := do
  let (target, override_default) ← parseBackend cluster (some path.backend)
  if truthy target.1 then return some target
  else if override_default then return some default_backend
  else return none

def parseIngressPath (cluster : Cluster E) (unicode : Char → Bool) (default_backend : Target E)
    (path : Option IngressPath) : Except ParseError (Option (ParsedPath (Target E))) := do
  match path with
  | none => throw .TypeError
  | some path =>
    match ← parsePathTarget cluster default_backend path with
    | none => return none
    | some target => return some (← parsePathString unicode path.path path.pathType target)

/-- The host pattern of `parse_regex_host_value`; `None` where all hosts are meant. -/
def parseRegexHostValue (unicode : Char → Bool) (regex_value : Option Str) :
    Except ParseError (Option D) := do
  match regex_value with
  | none => return none
  | some regex_value =>
    if regex_value = ['*'] then return some MinDFA.hostDomain
    if !regex_value.all fun c => c == '*' || c == '.' || isReWord unicode c || c == '/' || c == '-' then
      throw (.SyntaxError s!"Illegal characters in host {String.ofList regex_value}")
    let escaped := regex_value.flatMap fun c => if c = '.' then "[.]".toList else [c]
    if '*' ∈ escaped then
      if escaped.head? ≠ some '*' then
        throw (.SyntaxError s!"Illegal host value pattern: {String.ofList escaped}")
      return some (MinDFA.dfaFromRegex (escaped.flatMap fun c =>
        if c = '*' then "[\\w]*".toList else [c]))
    return some (MinDFA.dfaFromRegex escaped)

/-- The value of a DFA dimension if it is given and not empty. -/
def ifNonEmpty (dfa : Option D) : Option D := dfa.filter ExactSet.bool

section Connections

variable (cluster : Cluster E) [IngressConns P E D cluster] (unicode : Char → Bool)

def makeDefaultConnections (default_backend : Target E) (hosts_dfa : Option D)
    (paths_dfa : Option D := none) : P :=
  if truthy default_backend.1 then
    makeConnProps
      { dst_ports := default_backend.2
        dst_peers := default_backend.1
        hosts := ifNonEmpty hosts_dfa
        paths := ifNonEmpty paths_dfa }
  else ∅

/-- `ConnectivityCube.update`, which ignores `None`. -/
def IngressCube.update (cube : IngressCube E D) (target : Target E) (paths : D) : IngressCube E D :=
  { cube with
    dst_ports := target.2 <|> cube.dst_ports
    dst_peers := target.1 <|> cube.dst_peers
    paths := some paths }

/-- The cube after connections are made of it: resolving a named port leaves the last pod there. -/
def IngressCube.resolved (cluster : Cluster E) (cube : IngressCube E D) : IngressCube E D :=
  match cube.dst_ports with
  | some (.port (.named name)) =>
    match cluster.last_named cube.dst_peers name with
    | none => cube
    | some peer =>
      { cube with
        dst_ports := (cluster.named_ports peer name).map (.port ∘ .number)
        dst_peers := some {peer} }
  | _ => cube

/-- `all_dfa | dfa` if `all_dfa` is given and not empty, else `dfa`. -/
def addDfa (all_dfa : Option D) (dfa : D) : D :=
  match ifNonEmpty all_dfa with
  | none => dfa
  | some all_dfa => all_dfa ∪ dfa

/-- One turn of the loop over the paths of a rule. -/
def addPath (state : IngressCube E D × P × Option D) (path : PathDfa D (Target E)) :
    IngressCube E D × P × Option D :=
  let conn_cube := state.1.update path.target path.path_dfa
  let conns : P := makeConnProps conn_cube
  (conn_cube.resolved cluster, state.2.1 ∪ conns, some (addDfa state.2.2 path.path_dfa))

def parseRule (default_backend : Target E) (rule : Option IngressRule) :
    Except ParseError (P × Option D) := do
  match rule with
  | none => throw (.SyntaxError "Ingress rule cannot be null. ")
  | some rule =>
    let hosts_dfa : Option D ← parseRegexHostValue unicode rule.host
    match rule.http with
    | none => throw .AttributeError
    | some none => return (∅ ∪ makeDefaultConnections cluster default_backend hosts_dfa, hosts_dfa)
    | some (some []) => throw (.SyntaxError "Key: 'paths' cannot be empty ")
    | some (some paths_array) =>
      let path_resources ← paths_array.mapM (parseIngressPath cluster unicode default_backend)
      let parsed_paths := path_resources.reduceOption
      let parsed_paths_with_dfa : List (PathDfa D (Target E)) :=
        segregateLongestPathsAndMakeDfa parsed_paths
      let (_, allowed_conns, all_paths_dfa) :=
        parsed_paths_with_dfa.foldl (addPath cluster) ({ hosts := hosts_dfa }, (∅ : P), none)
      match all_paths_dfa with
      | none => return (allowed_conns ∪ ∅, hosts_dfa)
      | some all_paths_dfa =>
        let paths_remainder_dfa := MinDFA.pathDomain \ all_paths_dfa
        return (allowed_conns ∪
          makeDefaultConnections cluster default_backend hosts_dfa (some paths_remainder_dfa), hosts_dfa)

/-- One turn of the loop over the rules. -/
def addRule (default_backend : Target E) (state : P × Option D) (ingress_rule : Option IngressRule) :
    Except ParseError (P × Option D) := do
  let (conns, hosts_dfa) ← parseRule cluster unicode default_backend ingress_rule
  let all_hosts_dfa :=
    match ifNonEmpty hosts_dfa with
    | none => MinDFA.hostDomain
    | some hosts_dfa => addDfa state.2 hosts_dfa
  return (state.1 ∪ conns, some all_hosts_dfa)

/-- `policy_spec.get('rules', [])`; iterating over `None` raises an error. -/
def IngressRules.iterated (rules : IngressRules) : Except ParseError (List (Option IngressRule)) :=
  match rules with
  | .missing => return []
  | .null => throw .TypeError
  | .list rules => return rules

variable (D) in
/-- The connections that `parse_policy` makes rules of. -/
def parsePolicy (policy_spec : IngressSpec) : Except ParseError P := do
  let (default_backend, _) ← parseBackend cluster policy_spec.defaultBackend true
  let rules ← policy_spec.rules.iterated
  let (allowed_conns, all_hosts_dfa) ←
    rules.foldlM (addRule (D := D) cluster unicode default_backend) (∅, none)
  if truthy default_backend.1 then
    match all_hosts_dfa with
    | none => throw .AttributeError
    | some all_hosts_dfa =>
      let hosts_remainder_dfa : D := MinDFA.hostDomain \ all_hosts_dfa
      return allowed_conns ∪ makeDefaultConnections cluster default_backend (some hosts_remainder_dfa)
  else return allowed_conns

end Connections
end Parser
end Nca.Parsers
