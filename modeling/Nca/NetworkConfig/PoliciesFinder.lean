import Nca.Parsers.IstioPolicies
import Nca.NetworkConfig.NetworkConfig

/-!
The finder of policies. Resources go into a queue by their kinds, Calico profiles in front, and lists
of resources item by item; then the queue is parsed. What gateways, virtual services and Sidecars make
is added after everything else.
-/

namespace Nca.NetworkConfig
open CoreDS Lib Resources Parsers

section Queue

/-- `NetworkPolicy.get_policy_type_from_dict`; what is no dictionary has no fields. -/
def getPolicyTypeFromDict (policy : Yaml) : PolicyType :=
  match policy.field "kind", policy.field "apiVersion" with
  | .str kind, .str api_version =>
    if kind = "" ∨ api_version = "" then .Unknown
    else if "List".toList <:+ kind.toList then .List
    else if "calico".toList <:+: api_version.toList then
      if kind = "Profile" then .CalicoProfile
      else if kind = "NetworkPolicy" then .CalicoNetworkPolicy
      else if kind = "GlobalNetworkPolicy" then .CalicoGlobalNetworkPolicy
      else .Unknown
    else if "istio".toList <:+: api_version.toList then
      if kind = "AuthorizationPolicy" then .IstioAuthorizationPolicy
      else if kind = "Sidecar" then .IstioSidecar
      else if kind = "Gateway" then .Gateway
      else if kind = "VirtualService" then .VirtualService
      else .Unknown
    else if kind = "NetworkPolicy" then .K8sNetworkPolicy
    else if kind = "Ingress" then .Ingress
    else .Unknown
  | _, _ => .Unknown

/-- `_parse_queue`, without the names of files. -/
abbrev ParseQueue := List (Yaml × PolicyType)

mutual

def parseYamlCodeForPolicy (queue : ParseQueue) : Yaml → Except ParseError ParseQueue
  | .dict entries =>
    match getPolicyTypeFromDict (.dict entries) with
    | .Unknown => .ok queue
    | .List => addItems queue entries
    | .CalicoProfile => .ok ((.dict entries, .CalicoProfile) :: queue)
    | policy_type => .ok (queue ++ [(.dict entries, policy_type)])
  | _ => .ok queue

/-- The loop over `policy_object.get('items', [])`. -/
def addItems (queue : ParseQueue) : List (String × Yaml) → Except ParseError ParseQueue
  | [] => .ok queue
  | (key, .list items) :: rest => if key = "items" then addPoliciesToParseQueue queue items else addItems queue rest
  -- keys and characters are no resources
  | (key, .dict _) :: rest | (key, .str _) :: rest => if key = "items" then .ok queue else addItems queue rest
  | (key, _) :: rest => if key = "items" then .error .TypeError else addItems queue rest

def addPoliciesToParseQueue (queue : ParseQueue) : List Yaml → Except ParseError ParseQueue
  | [] => .ok queue
  | policy :: rest => do addPoliciesToParseQueue (← parseYamlCodeForPolicy queue policy) rest

end

mutual

/-- The resources that are queued for a value of a file: itself, or those of its items, where these
are items of a list. -/
def resources : Yaml → List Yaml
  | .dict entries =>
    match getPolicyTypeFromDict (.dict entries) with
    | .Unknown => []
    | .List => itemResources entries
    | _ => [.dict entries]
  | _ => []

def itemResources : List (String × Yaml) → List Yaml
  | [] => []
  | (key, .list items) :: rest => if key = "items" then allResources items else itemResources rest
  | (key, _) :: rest => if key = "items" then [] else itemResources rest

def allResources : List Yaml → List Yaml
  | [] => []
  | policy :: rest => resources policy ++ allResources rest

end

/-- Profiles come to the front of the queue, and other resources to its end. -/
def enqueue (queue : ParseQueue) (policy : Yaml) : ParseQueue :=
  if getPolicyTypeFromDict policy = .CalicoProfile then (policy, .CalicoProfile) :: queue
  else queue ++ [(policy, getPolicyTypeFromDict policy)]

mutual

theorem parseYamlCode_queue (policy : Yaml) {queue next : ParseQueue}
    (run : parseYamlCodeForPolicy queue policy = .ok next) : next = (resources policy).foldl enqueue queue := by
  cases policy with
  | dict entries =>
    unfold parseYamlCodeForPolicy at run
    unfold resources
    cases type : getPolicyTypeFromDict (.dict entries) with
    | Unknown =>
      rw [type] at run
      exact (Except.ok.inj run).symm
    | List =>
      rw [type] at run
      exact addItems_queue entries run
    | _ =>
      rw [type] at run
      simp only [List.foldl_cons, List.foldl_nil, enqueue, type]
      exact (Except.ok.inj run).symm
  | _ => exact (Except.ok.inj run).symm

theorem addItems_queue (entries : List (String × Yaml)) {queue next : ParseQueue}
    (run : addItems queue entries = .ok next) : next = (itemResources entries).foldl enqueue queue := by
  match entries with
  | [] => exact (Except.ok.inj run).symm
  | (key, .list items) :: rest =>
    unfold addItems at run
    unfold itemResources
    split at run
    · rename_i named
      rw [if_pos named]
      exact addPolicies_queue items run
    · rename_i other
      rw [if_neg other]
      exact addItems_queue rest run
  | (key, .dict _) :: rest | (key, .str _) :: rest =>
    unfold addItems at run
    unfold itemResources
    split at run
    · rename_i named
      rw [if_pos named]
      exact (Except.ok.inj run).symm
    · rename_i other
      rw [if_neg other]
      exact addItems_queue rest run
  | (key, .null) :: rest | (key, .bool _) :: rest | (key, .int _) :: rest | (key, .other _) :: rest =>
    unfold addItems at run
    unfold itemResources
    split at run
    · cases run
    · rename_i other
      rw [if_neg other]
      exact addItems_queue rest run

theorem addPolicies_queue (policies : List Yaml) {queue next : ParseQueue}
    (run : addPoliciesToParseQueue queue policies = .ok next) :
    next = (allResources policies).foldl enqueue queue := by
  match policies with
  | [] => exact (Except.ok.inj run).symm
  | policy :: rest =>
    unfold addPoliciesToParseQueue at run
    obtain ⟨step, first, run⟩ := bind_ok.mp run
    unfold allResources
    rw [List.foldl_append, ← parseYamlCode_queue policy first]
    exact addPolicies_queue rest run

end

/-- A resource with its type. -/
def typed (policy : Yaml) : Yaml × PolicyType := (policy, getPolicyTypeFromDict policy)

def isProfile (policy : Yaml) : Bool := decide (getPolicyTypeFromDict policy = .CalicoProfile)

/-- The profiles are parsed first, the last one before the others. -/
theorem enqueue_all (policies : List Yaml) (queue : ParseQueue) :
    policies.foldl enqueue queue = (policies.filter isProfile).reverse.map typed ++ queue ++
      (policies.filter fun policy => !isProfile policy).map typed := by
  induction policies generalizing queue with
  | nil => simp
  | cons policy rest ih =>
    rw [List.foldl_cons, ih]
    unfold enqueue
    by_cases profile : getPolicyTypeFromDict policy = .CalicoProfile
    · simp [profile, isProfile, typed]
    · simp [profile, isProfile, typed]

end Queue

section Parsing

variable {P E κ : Type} [Fintype E] [DecidableEq E] [TopologyPeers E] [NamedPorts E] [PortProperties P E κ]

/-- What the parsers need to know. -/
structure ParsingContext (P E : Type) [TopologyPeers E] where
  unicode : Char → Bool
  peer_container : PeerContainer E
  namespaces : Namespaces
  parse_ip_block : Yaml → Except ParseError (PeerSet E)
  components : IstioPolicyYamlParser.Components P E

/-- The parsers of the other kinds of resources: those whose policies are added one by one, and those
that make their policies after the last resource, which are given all of theirs. -/
structure OtherParsers (P : Type) {E κ : Type} [Peers E] [ConnectivityProperties P E κ] where
  parse_policy : PolicyType → Yaml → Except ParseError (Option (Policy P))
  late_policies : List (Yaml × PolicyType) → Except ParseError (List (Policy P))

/-- The kinds of resources that make their policies in the end. -/
def isLate (policy_type : PolicyType) : Bool :=
  decide (policy_type = .Gateway ∨ policy_type = .VirtualService ∨ policy_type = .IstioSidecar)

variable (context : ParsingContext P E) (others : OtherParsers P)

/-- The policy that a resource of the queue gets. -/
def parsedPolicy (entry : Yaml × PolicyType) : Except ParseError (Option (Policy P)) :=
  match entry.2 with
  | .K8sNetworkPolicy => Option.map Policy.k8s <$> K8sPolicyYamlParser.parsePolicy context.unicode
      context.peer_container context.namespaces context.parse_ip_block entry.1
  | .IstioAuthorizationPolicy => Option.map Policy.istio <$> IstioPolicyYamlParser.parsePolicy
      context.components context.peer_container entry.1
  -- profiles only have labels for pods
  | .CalicoProfile => (fun _ => none) <$> others.parse_policy .CalicoProfile entry.1
  | policy_type => if isLate policy_type then return none else others.parse_policy policy_type entry.1

/-- `_add_policy` -/
def addPolicy (container : PoliciesContainer P) (policy : Option (Policy P)) : PoliciesContainer P :=
  policy.elim container container.appendPolicy

def parsePoliciesInParseQueue (queue : ParseQueue) : Except ParseError (PoliciesContainer P) := do
  let container ← queue.foldlM (fun container entry =>
    addPolicy container <$> parsedPolicy context others entry) .init
  let late ← others.late_policies (queue.filter fun entry => isLate entry.2)
  return late.foldl PoliciesContainer.appendPolicy container

/-- The policies of some files, whose values are given one after the other. -/
def findPolicies (code : List Yaml) : Except ParseError (PoliciesContainer P) := do
  let queue ← addPoliciesToParseQueue [] code
  parsePoliciesInParseQueue context others queue

variable {context others} {code : List Yaml} {container : PoliciesContainer P}

omit [Fintype E] [DecidableEq E] [NamedPorts E] in
theorem addPolicy_all (results : List (Option (Policy P))) (container : PoliciesContainer P) :
    results.foldl addPolicy container = (results.filterMap id).foldl PoliciesContainer.appendPolicy container := by
  induction results generalizing container with
  | nil => rfl
  | cons result rest ih =>
    rw [List.foldl_cons, ih]
    cases result with
    | none => rfl
    | some policy => rfl

/-- The policies of files are those of their resources, profiles aside, and then the late ones. -/
theorem findPolicies_ok (run : findPolicies context others code = .ok container) :
    ∃ results late, List.Forall₂ (fun entry result => parsedPolicy context others entry = .ok result)
        ((allResources code).foldl enqueue []) results ∧
      others.late_policies (((allResources code).foldl enqueue []).filter fun entry => isLate entry.2) = .ok late ∧
      container = (results.filterMap id ++ late).foldl PoliciesContainer.appendPolicy .init := by
  unfold findPolicies at run
  obtain ⟨queue, queued, run⟩ := bind_ok.mp run
  rw [addPolicies_queue code queued] at run
  unfold parsePoliciesInParseQueue at run
  obtain ⟨first, folded, run⟩ := bind_ok.mp run
  obtain ⟨late, made, run⟩ := bind_ok.mp run
  obtain ⟨results, parsed, rfl⟩ := foldlM_results folded
  obtain rfl := Except.ok.inj run
  exact ⟨results, late, parsed, made, by rw [addPolicy_all, List.foldl_append]⟩

end Parsing
end Nca.NetworkConfig
