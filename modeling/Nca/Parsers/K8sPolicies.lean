import Nca.Parsers.LabelSelectors
import Nca.Parsers.K8sPolicyRules

/-!
Whole K8s network policies: what the parser makes of the resource of a policy. The policy selects the
pods of its namespace that its selector selects, and its rules let in what one of its entries lets in.
-/

namespace Nca.Parsers
open CoreDS Lib NetworkConfig Resources TopologyPeers

/-- `parse_generic_yaml_objects_fields` with several keywords of the layer. -/
def parseObjectsFieldsOfKeywords (yaml_object : Yaml) (object_kind object_version layer_keywords : List String)
    (spec_required : Bool) : Except ParseError (Option (String × Option String)) := do
  syntaxErrorIf (!yaml_object.isInstance .dict) "type of Top ds is not a map"
  let kind ← yaml_object.get "kind"
  if !object_kind.any fun s => kind.isStr s then return none
  let api_version ← yaml_object.get "apiVersion"
  if !(← layer_keywords.anyM fun keyword => api_version.has keyword) then return none
  let valid_keys : List (String × KeyInfo) :=
    [("kind", ⟨1, some .str⟩), ("apiVersion", ⟨1, some .str⟩), ("metadata", ⟨1, some .dict⟩),
      ("spec", ⟨if spec_required then 1 else 0, some .dict⟩)]
  let status : List (String × KeyInfo) :=
    if "k8s" ∈ layer_keywords then [("status", ⟨0, some .dict⟩)] else []
  checkFieldsValidity yaml_object kind.toStr (valid_keys ++ status) [("apiVersion", object_version)]
  let metadata ← yaml_object.get "metadata"
  checkMetadataValidity metadata
  let name ← metadata.get "name"
  let ns := if !(← metadata.has "namespace") then some "default"
    else match metadata.field "namespace" with
      | .str ns => some ns
      | _ => none
  return some (name.toStr, ns)

/-- The name that passes the checks; `len` of no name raises an error. -/
def checkDnsLabelName (value : Option String) : Except ParseError String := do
  match value with
  | none => throw .TypeError
  | some value =>
    syntaxErrorIf (value.length > 63)
      s!"invalid label: \"{value}\" ,DNS label name must be no more than 63 characters"
    syntaxErrorIf (!dnsLabel.fullmatch value.toList)
      s!"invalid DNS label : \"{value}\", it must consist of lower case alphanumeric characters or \"-\", and must start and end with an alphanumeric character"
    return value

/-- The constructor of a namespace, which is labelled with its name. -/
def namespaceInit (name : String) : K8sNamespace :=
  ⟨if name = "" then "default" else name,
    fun key => if key = "kubernetes.io/metadata.name" then some name else none⟩

/-- The namespaces of a topology by their names. -/
structure Namespaces where
  namespaces : List (String × K8sNamespace)
  named : ∀ entry ∈ namespaces, entry.2.name = (namespaceInit entry.1).name

/-- `PeerContainer.get_namespace`. -/
def Namespaces.getNamespace (self : Namespaces) (ns : String) : K8sNamespace :=
  (Dict.get self.namespaces ns).getD (namespaceInit ns)

theorem Namespaces.getNamespace_name (self : Namespaces) {ns : String} (given : ns ≠ "") :
    (self.getNamespace ns).name = ns := by
  have made : (namespaceInit ns).name = ns := if_neg given
  unfold getNamespace
  cases found : Dict.get self.namespaces ns with
  | none => exact made
  | some own => exact (self.named _ (Dict.get_mem found)).trans made

/-- Among the parsed peers are IPv6 addresses. -/
def hasIpv6Addresses {E : Type} [Fintype E] [DecidableEq E] [Peers E]
    (parsed : Except ParseError (PeerSet E)) : Bool :=
  match parsed with
  | .ok peers => decide (∃ e ∈ peers, Peers.kind e = .ipBlock ∧ Peers.ipv6 e = true)
  | .error _ => false

namespace K8sPolicyYamlParser

section Spec

def specKeys : List (String × KeyInfo) :=
  [("podSelector", ⟨1, some .dict⟩), ("ingress", ⟨0, some .list⟩), ("egress", ⟨0, some .list⟩),
    ("policyTypes", ⟨0, some .list⟩)]

/-- `[['Ingress'], ['Egress'], ['Ingress', 'Egress']]` -/
def knownPolicyTypes : Yaml → Bool
  | .list [type] => type.isStr "Ingress" || type.isStr "Egress"
  | .list [first, second] => first.isStr "Ingress" && second.isStr "Egress"
  | _ => false

/-- The checks of the fields of `spec`; the allowed values of `policyTypes`, the last of the fields that
are gone over, are lists. -/
def checkSpecValidity (policy_spec : Yaml) : Except ParseError Unit := do
  specKeys.forM fun entry => checkField policy_spec "spec" [] entry.1 entry.2
  let policy_types ← policy_spec.get "policyTypes"
  syntaxErrorIf (policy_types.truthy && !knownPolicyTypes policy_types) "policyTypes has invalid value in spec"
  -- what is left are the entries that are not valid
  checkFieldsValidity policy_spec "spec" specKeys

/-- `'Ingress' in policy_types` or `'Egress' in policy_types` -/
def hasType (policy_spec : Yaml) (type : String) : Bool :=
  (policy_spec.field "policyTypes").toList.any (Yaml.isStr type)

def affectsIngress (policy_spec : Yaml) : Bool :=
  !(policy_spec.field "policyTypes").truthy || hasType policy_spec "Ingress"

def affectsEgress (policy_spec : Yaml) : Bool :=
  ((policy_spec.field "policyTypes").truthy && hasType policy_spec "Egress") ||
    (!(policy_spec.field "policyTypes").truthy && (Dict.get policy_spec.toDict "egress").isSome)

/-- The array of a rule that names its peers. -/
def peersKey (is_ingress : Bool) : String := if is_ingress then "from" else "to"

/-- The array of `spec` that holds the rules. -/
def rulesKey (is_ingress : Bool) : String := if is_ingress then "ingress" else "egress"

end Spec

section Policy

variable {P E κ : Type} [Fintype E] [DecidableEq E] [TopologyPeers E] [NamedPorts E] [PortProperties P E κ]
  (unicode : Char → Bool) (peer_container : PeerContainer E) (namespaces : Namespaces)
  (parse_ip_block : Yaml → Except ParseError (PeerSet E))

omit [TopologyPeers E] in
/-- The connections of a parsed rule: the policy selects the end that it is about, and the other end is
one of the peers of the rule. -/
theorem mem_parsedRule [Peers E] {peer_container : PeerContainer E}
    {parse_peer : Yaml → Except ParseError (PeerSet E)} {rule : Yaml} {is_ingress : Bool}
    {selected : PeerSet E} {res : K8sPolicyRule P}
    (parsed : parseIngressEgressRule unicode peer_container parse_peer rule (peersKey is_ingress) selected =
      .ok res) :
    ∃ res_pods, rulePeers peer_container parse_peer (rule.field (peersKey is_ingress)).toList = .ok res_pods ∧
      ∀ x : Flow E κ, x ∈ res.props ↔ capturedEnd is_ingress x ∈ selected ∧ otherEnd is_ingress x ∈ res_pods ∧
        ((rule.field "ports").toList = [] ∨ ∃ port ∈ (rule.field "ports").toList,
          EntryMatches port x.dst x.protocol (dst_port P x.rest)) := by
  unfold parseIngressEgressRule at parsed
  obtain ⟨_, -, parsed⟩ := bind_ok.mp parsed
  obtain ⟨_, peersRead, parsed⟩ := bind_ok.mp parsed
  obtain ⟨peer_array, peersListed, parsed⟩ := bind_ok.mp parsed
  obtain ⟨res_pods, pods, parsed⟩ := bind_ok.mp parsed
  obtain ⟨_, portsRead, parsed⟩ := bind_ok.mp parsed
  obtain ⟨ports_array, portsListed, parsed⟩ := bind_ok.mp parsed
  obtain ⟨props, read, parsed⟩ := bind_ok.mp parsed
  obtain rfl := Except.ok.inj parsed
  rw [(Yaml.get_ok.mp peersRead).2, Yaml.asList_toList peersListed]
  refine ⟨res_pods, pods, fun x => ?_⟩
  rw [mem_ruleProps read, (Yaml.get_ok.mp portsRead).2, Yaml.asList_toList portsListed, ← and_assoc]
  refine and_congr_left' ?_
  cases is_ingress with
  | true => exact and_comm
  | false => exact Iff.rfl

omit [TopologyPeers E] in
theorem parseRule_inside [Peers E] {peer_container : PeerContainer E}
    {parse_peer : Yaml → Except ParseError (PeerSet E)} {rule : Yaml} {is_ingress : Bool}
    {selected : PeerSet E} {res : K8sPolicyRule P}
    (parsed : parseIngressEgressRule unicode peer_container parse_peer rule (peersKey is_ingress) selected =
      .ok res) : Inside selected is_ingress res.props := by
  obtain ⟨_, -, own⟩ := mem_parsedRule unicode parsed
  exact fun x inside => ((own x).mp inside).1

/-- Rules about the selected peers. -/
abbrev SelectedRules (P : Type) {E κ : Type} [ConnectivityProperties P E κ] (selected_peers : PeerSet E)
    (is_ingress : Bool) : Type :=
  {rules : List (K8sPolicyRule P) // ∀ rule ∈ rules, Inside selected_peers is_ingress rule.props}

omit [Fintype E] [DecidableEq E] [TopologyPeers E] [NamedPorts E] in
theorem selectedRules_cons {selected_peers : PeerSet E} {is_ingress : Bool} {res : K8sPolicyRule P}
    {rules : List (K8sPolicyRule P)} (first : Inside selected_peers is_ingress res.props)
    (others : ∀ rule ∈ rules, Inside selected_peers is_ingress rule.props) :
    ∀ rule ∈ res :: rules, Inside selected_peers is_ingress rule.props :=
  List.forall_mem_cons.mpr ⟨first, others⟩

/-- The loop over `ingress` or `egress`. -/
def parseRules (ns : K8sNamespace) (selected_peers : PeerSet E) (is_ingress : Bool) :
    List Yaml → Except ParseError (SelectedRules P selected_peers is_ingress)
  | [] => .ok ⟨[], List.forall_mem_nil _⟩
  | rule :: rest =>
    match parsed : parseIngressEgressRule unicode peer_container (parsePeer peer_container ns parse_ip_block) rule
      (peersKey is_ingress) selected_peers with
    | .error e => .error e
    | .ok res => do
      let rules ← parseRules ns selected_peers is_ingress rest
      return ⟨res :: rules.1, selectedRules_cons (parseRule_inside unicode parsed) rules.2⟩

/-- One of the IP blocks of the rule has IPv6 addresses. -/
def mentionsIpv6 (rule : Yaml) (is_ingress : Bool) : Bool :=
  (rule.field (peersKey is_ingress)).toList.any fun peer =>
    !(peer.field "ipBlock").isNull && hasIpv6Addresses (parse_ip_block (peer.field "ipBlock"))

/-- The policy as the constructor makes it. -/
def initPolicy (policy_name : String) (ns : K8sNamespace) : K8sNetworkPolicy P where
  name := policy_name
  policy_namespace := some ns.name
  selected_peers := ∅
  affects_ingress := false
  affects_egress := false
  policy_kind := .K8sNetworkPolicy
  ingress_rules := []
  egress_rules := []
  kind := rfl
  ingress_inside := List.forall_mem_nil _
  egress_inside := List.forall_mem_nil _

/-- The code after the checks of the name. -/
def parseSpec (policy_name : String) (ns : K8sNamespace) (policy_spec : Yaml) :
    Except ParseError (K8sNetworkPolicy P) := do
  checkSpecValidity policy_spec
  let affects_ingress := affectsIngress policy_spec
  syntaxErrorIf (!affects_ingress && !(policy_spec.field "ingress").isNull)
    "A NetworkPolicy with ingress field but no \"Ingress\" in its policyTypes"
  let affects_egress := affectsEgress policy_spec
  syntaxErrorIf (!affects_egress && !(policy_spec.field "egress").isNull)
    "A NetworkPolicy with egress field but no \"Egress\" in its policyTypes"
  let pod_selector ← policy_spec.get "podSelector"
  let pods ← parseLabelSelector peer_container ns pod_selector
  let selected_peers := pods ∩ peer_container.getNamespacePods (some ns)
  let ingress_rules ← (← policy_spec.get "ingress").asList
  let ingress ← parseRules unicode peer_container parse_ip_block ns selected_peers true ingress_rules
  let egress_rules ← (← policy_spec.get "egress").asList
  let egress ← parseRules unicode peer_container parse_ip_block ns selected_peers false egress_rules
  return {
    name := policy_name
    policy_namespace := some ns.name
    selected_peers := selected_peers
    affects_ingress := affects_ingress
    affects_egress := affects_egress
    policy_kind := .K8sNetworkPolicy
    has_ipv6_addresses := ingress_rules.any (mentionsIpv6 parse_ip_block · true) ||
      egress_rules.any (mentionsIpv6 parse_ip_block · false)
    ingress_rules := ingress.1
    egress_rules := egress.1
    kind := rfl
    ingress_inside := ingress.2
    egress_inside := egress.2 }

/-- The policy, or nothing where the resource is not a K8s network policy. -/
def parsePolicy (policy : Yaml) : Except ParseError (Option (K8sNetworkPolicy P)) := do
  match ← parseObjectsFieldsOfKeywords policy ["NetworkPolicy"] ["networking.k8s.io/v1", "extensions/v1beta1"]
    ["k8s", "extensions"] false with
  | none => return none
  | some (policy_name, policy_ns) =>
    checkDnsSubdomainName policy_name
    let ns := namespaces.getNamespace (← checkDnsLabelName policy_ns)
    let policy_spec ← policy.get "spec"
    if policy_spec.isNull then return some (initPolicy policy_name ns)
    else return some (← parseSpec unicode peer_container parse_ip_block policy_name ns policy_spec)

end Policy

section Meaning

/-- The resource is a K8s network policy. -/
def IsNetworkPolicy (doc : Yaml) : Prop :=
  doc.field "kind" = .str "NetworkPolicy" ∧
    (doc.field "apiVersion" = .str "networking.k8s.io/v1" ∨ doc.field "apiVersion" = .str "extensions/v1beta1")

def documentName (doc : Yaml) : String := ((doc.field "metadata").field "name").toStr

def documentNamespace (doc : Yaml) : String :=
  match (doc.field "metadata").field "namespace" with
  | .str ns => ns
  | _ => "default"

def policyTypes (policy_spec : Yaml) : List String := (policy_spec.field "policyTypes").toList.map Yaml.toStr

/-- Without types a policy is about ingress, and about egress if it has an entry for it. -/
def AffectsDirection (policy_spec : Yaml) (is_ingress : Bool) : Prop :=
  if is_ingress then policyTypes policy_spec = [] ∨ "Ingress" ∈ policyTypes policy_spec
  else "Egress" ∈ policyTypes policy_spec ∨
    policyTypes policy_spec = [] ∧ (Dict.get policy_spec.toDict "egress").isSome = true

variable (P : Type) {E κ : Type} [TopologyPeers E] [NamedPorts E] [PortProperties P E κ]
  (peer_container : PeerContainer E) (ns : K8sNamespace) (parse_ip_block : Yaml → Except ParseError (PeerSet E))

/-- The pod is in the namespace of the policy and satisfies its selector. -/
def SelectsPod (policy_spec : Yaml) (e : E) : Prop :=
  Peers.kind e = .pod ∧ e ∈ peer_container.peer_set ∧
    (∃ own, peer_namespace e = some own ∧ own.name = ns.name) ∧
    (selectorOf (policy_spec.field "podSelector")).Selects (podCarries e)

/-- The entry is about the peer: an address of its block, or a pod that its selectors select. -/
def PeerMatches (peer : Yaml) (e : E) : Prop :=
  if (peer.field "ipBlock").isNull then Peers.kind e = .pod ∧ PeerSelects peer_container ns peer e
  else ∃ block, parse_ip_block (peer.field "ipBlock") = .ok block ∧ e ∈ block

/-- The rule lets the connection through; what it leaves out does not matter to it. -/
def RuleMatches (is_ingress : Bool) (rule : Yaml) (x : Flow E κ) : Prop :=
  ((rule.field (peersKey is_ingress)).toList = [] ∨ ∃ peer ∈ (rule.field (peersKey is_ingress)).toList,
    PeerMatches peer_container ns parse_ip_block peer (otherEnd is_ingress x)) ∧
  ((rule.field "ports").toList = [] ∨ ∃ port ∈ (rule.field "ports").toList,
    EntryMatches port x.dst x.protocol (dst_port P x.rest))

/-- One of the rules of the policy lets the connection through. -/
def Grants (policy_spec : Yaml) (is_ingress : Bool) (x : Flow E κ) : Prop :=
  ∃ rule ∈ (policy_spec.field (rulesKey is_ingress)).toList,
    RuleMatches P peer_container ns parse_ip_block is_ingress rule x

variable [Fintype E] [DecidableEq E]

/-- The selectors in the rules of the policy are read as they are meant. -/
def RegularRules (policy_spec : Yaml) : Prop :=
  ∀ is_ingress, ∀ rule ∈ (policy_spec.field (rulesKey is_ingress)).toList,
    ∀ peer ∈ (rule.field (peersKey is_ingress)).toList, (peer.field "ipBlock").isNull = true →
      Regular peer_container ns peer

/-- What holds of the peers of every topology. Host endpoints have no namespace. -/
structure Topology : Prop where
  no_ips : ∀ e ∈ peer_container.peer_set, Peers.kind e ≠ .ipBlock
  outside : ∀ e ∈ peer_container.peer_set, Peers.kind e = .hostEP → peer_namespace e = none
  blocks : ∀ block set, parse_ip_block block = .ok set → ∀ e ∈ set, Peers.kind e = .ipBlock

end Meaning

section Types

variable {policy_spec : Yaml}

theorem isStr_iff {item : Yaml} {s : String} (some : s ≠ "") : item.isStr s = true ↔ item.toStr = s := by
  cases item with
  | str t => simp [Yaml.isStr, Yaml.toStr]
  | _ => simpa [Yaml.isStr, Yaml.toStr] using some.symm

theorem hasType_iff {type : String} (some : type ≠ "") :
    hasType policy_spec type = true ↔ type ∈ policyTypes policy_spec := by
  unfold hasType policyTypes
  rw [List.any_eq_true, List.mem_map]
  exact exists_congr fun item => and_congr_right fun _ => isStr_iff some

/-- The checks leave a dictionary whose policy types are a list or null. -/
theorem checkSpecValidity_ok {u : Unit} (checked : checkSpecValidity policy_spec = .ok u) :
    (∃ entries, policy_spec = .dict entries) ∧ (policy_spec.field "podSelector").isNull = false ∧
      ((policy_spec.field "policyTypes").truthy = false ↔ policyTypes policy_spec = []) := by
  unfold checkSpecValidity at checked
  obtain ⟨_, -, checked⟩ := bind_ok.mp checked
  obtain ⟨_, -, checked⟩ := bind_ok.mp checked
  obtain ⟨_, -, checked⟩ := bind_ok.mp checked
  obtain ⟨entries, rfl, fields, -⟩ := checkFieldsValidity_ok.mp checked
  refine ⟨⟨entries, rfl⟩, ?_, ?_⟩
  · obtain ⟨value, present, proper⟩ := (fields ("podSelector", ⟨1, some .dict⟩) (by simp [specKeys])).mandatory rfl
    show ((Dict.get entries "podSelector").getD .null).isNull = false
    rw [present]
    exact proper
  · have typed := (fields ("policyTypes", ⟨0, some .list⟩) (by simp [specKeys])).typed .list rfl
    have read : (Yaml.dict entries).field "policyTypes" = (Dict.get entries "policyTypes").getD .null := rfl
    unfold policyTypes
    rw [read, List.map_eq_nil_iff]
    cases found : Dict.get entries "policyTypes" with
    | none => exact iff_of_true rfl rfl
    | some value =>
      cases value with
      | null => exact iff_of_true rfl rfl
      | list items => simp [Yaml.truthy, Yaml.toList]
      | _ => cases typed _ found rfl

theorem affects_iff {u : Unit} (checked : checkSpecValidity policy_spec = .ok u) (is_ingress : Bool) :
    (if is_ingress then affectsIngress policy_spec else affectsEgress policy_spec) = true ↔
      AffectsDirection policy_spec is_ingress := by
  obtain ⟨-, -, types⟩ := checkSpecValidity_ok checked
  unfold AffectsDirection
  rw [← types, ← hasType_iff (by decide), ← hasType_iff (by decide)]
  have egress : hasType policy_spec "Egress" = true → (policy_spec.field "policyTypes").truthy = true := by
    rw [hasType_iff (by decide), ← Bool.not_eq_false, types]
    exact fun listed => List.ne_nil_of_mem listed
  cases is_ingress with
  | true => simp [affectsIngress]
  | false =>
    simp only [Bool.false_eq_true, if_false, affectsEgress, Bool.or_eq_true, Bool.and_eq_true, Bool.not_eq_true']
    exact or_congr_left (and_iff_right_of_imp egress)

end Types

section Parsed

variable {E : Type} [Fintype E] [DecidableEq E] [TopologyPeers E] {peer_container : PeerContainer E}
  {ns : K8sNamespace} {parse_ip_block : Yaml → Except ParseError (PeerSet E)} {set : PeerSet E} {e : E}

/-- Selectors select no DNS entries. -/
theorem parseLabelSelector_group {label_selector : Yaml} {namespace_selector : Bool}
    (parsed : parseLabelSelector peer_container ns label_selector namespace_selector = .ok set)
    (member : e ∈ set) : e ∈ peer_container.getAllPeersGroup := by
  unfold parseLabelSelector at parsed
  split at parsed
  · rw [← Except.ok.inj parsed] at member
    simp at member
  · split at parsed
    · rwa [← Except.ok.inj parsed] at member
    · obtain ⟨_, -, parsed⟩ := bind_ok.mp parsed
      obtain ⟨_, -, parsed⟩ := bind_ok.mp parsed
      obtain ⟨match_labels, -, parsed⟩ := bind_ok.mp parsed
      obtain ⟨res, labels, parsed⟩ := bind_ok.mp parsed
      obtain ⟨_, -, parsed⟩ := bind_ok.mp parsed
      obtain ⟨match_expressions, -, parsed⟩ := bind_ok.mp parsed
      have first : ∀ e ∈ res, e ∈ peer_container.getAllPeersGroup := by
        refine foldlM_ok (fun _ acc => ∀ e ∈ acc, e ∈ peer_container.getAllPeersGroup) (fun _ inside => inside)
          ?_ labels
        intro before entry acc next kept run e inside
        obtain ⟨_, -, run⟩ := bind_ok.mp run
        obtain ⟨_, -, run⟩ := bind_ok.mp run
        apply kept
        cases namespace_selector with
        | true =>
          rw [← Except.ok.inj run] at inside
          exact (Finset.mem_inter.mp inside).1
        | false =>
          rw [← Except.ok.inj run] at inside
          exact (Finset.mem_inter.mp inside).1
      refine foldlM_ok (fun _ acc => ∀ e ∈ acc, e ∈ peer_container.getAllPeersGroup) first ?_ parsed e member
      intro before requirement acc next kept run e inside
      obtain ⟨_, -, rfl⟩ := map_ok.mp run
      exact kept e (Finset.mem_inter.mp inside).1

theorem parsePeer_group {peer : Yaml} (noBlock : (peer.field "ipBlock").isNull = true)
    (parsed : parsePeer peer_container ns parse_ip_block peer = .ok set) (member : e ∈ set) :
    e ∈ peer_container.getAllPeersGroup := by
  unfold parsePeer at parsed
  obtain ⟨_, -, parsed⟩ := bind_ok.mp parsed
  obtain ⟨pod_selector, -, parsed⟩ := bind_ok.mp parsed
  obtain ⟨ns_selector, -, parsed⟩ := bind_ok.mp parsed
  obtain ⟨ip_block, blockRead, parsed⟩ := bind_ok.mp parsed
  obtain ⟨_, given, parsed⟩ := bind_ok.mp parsed
  rw [(Yaml.get_ok.mp blockRead).2] at noBlock
  rw [syntaxErrorIf_ok, noBlock, Bool.and_true, Bool.and_eq_true, not_and] at given
  simp only [noBlock, Bool.not_true, Bool.false_eq_true, if_false] at parsed
  obtain ⟨res, namespaced, parsed⟩ := bind_ok.mp parsed
  split at parsed
  · rename_i missing
    rw [← Except.ok.inj parsed] at member
    unfold namespacePeers at namespaced
    rw [if_neg (given missing)] at namespaced
    exact parseLabelSelector_group namespaced member
  · obtain ⟨selected_pods, pods, parsed⟩ := bind_ok.mp parsed
    rw [← Except.ok.inj parsed] at member
    exact parseLabelSelector_group pods (Finset.mem_inter.mp member).1

theorem parsePeer_selects {peer : Yaml} (pod : Peers.kind e = .pod) (noBlock : (peer.field "ipBlock").isNull = true)
    (regular : Regular peer_container ns peer)
    (parsed : parsePeer peer_container ns parse_ip_block peer = .ok set) :
    e ∈ set ↔ PeerSelects peer_container ns peer e := by
  obtain ⟨own, inside⟩ := TopologyPeers.pod_namespace e pod
  have findable := regular.findable e own pod
  have read := regular.read e own pod
  have selects : PeerSelects peer_container ns peer e ↔ e ∈ peer_container.peer_set ∧
      PodSelected (peer.field "podSelector") e ∧ NamespaceSelected ns (peer.field "namespaceSelector") own := by
    simp [PeerSelects, inside]
  rw [mem_parsePeer pod inside noBlock parsed, selects]
  tauto

/-- A parsed entry has the peers that it is about, as long as these are not host endpoints. -/
theorem parsePeer_matches {peer : Yaml} (topology : Topology peer_container parse_ip_block)
    (regular : (peer.field "ipBlock").isNull = true → Regular peer_container ns peer)
    (noHep : Peers.kind e ≠ .hostEP)
    (parsed : parsePeer peer_container ns parse_ip_block peer = .ok set) :
    e ∈ set ↔ PeerMatches peer_container ns parse_ip_block peer e := by
  unfold PeerMatches
  cases noBlock : (peer.field "ipBlock").isNull with
  | true =>
    rw [if_pos rfl]
    refine ⟨?_, ?_⟩
    · intro member
      obtain ⟨known, noDns⟩ := PeerContainer.mem_group.mp (parsePeer_group noBlock parsed member)
      have noIp := topology.no_ips e known
      have pod : Peers.kind e = .pod := by
        cases kind : Peers.kind e <;> simp_all
      exact ⟨pod, (parsePeer_selects pod noBlock (regular noBlock) parsed).mp member⟩
    · exact fun selected => (parsePeer_selects selected.1 noBlock (regular noBlock) parsed).mpr selected.2
  | false =>
    rw [if_neg Bool.false_ne_true]
    unfold parsePeer at parsed
    obtain ⟨_, -, parsed⟩ := bind_ok.mp parsed
    obtain ⟨_, -, parsed⟩ := bind_ok.mp parsed
    obtain ⟨_, -, parsed⟩ := bind_ok.mp parsed
    obtain ⟨ip_block, blockRead, parsed⟩ := bind_ok.mp parsed
    obtain ⟨_, -, parsed⟩ := bind_ok.mp parsed
    rw [(Yaml.get_ok.mp blockRead).2] at noBlock ⊢
    simp only [noBlock, Bool.not_false, if_true] at parsed
    obtain ⟨_, -, parsed⟩ := bind_ok.mp parsed
    refine ⟨fun member => ⟨set, parsed, member⟩, fun found => ?_⟩
    obtain ⟨block, parsed', member⟩ := found
    rwa [Except.ok.inj (parsed.symm.trans parsed')]

/-- The selected pods of a policy. -/
theorem mem_selectedPods {pod_selector : Yaml} {pods : PeerSet E} (topology : Topology peer_container parse_ip_block)
    (given : pod_selector.isNull = false)
    (parsed : parseLabelSelector peer_container ns pod_selector = .ok pods) :
    e ∈ pods ∩ peer_container.getNamespacePods (some ns) ↔ Peers.kind e = .pod ∧ e ∈ peer_container.peer_set ∧
      (∃ own, peer_namespace e = some own ∧ own.name = ns.name) ∧ (selectorOf pod_selector).Selects (podCarries e) := by
  have here : e ∈ peer_container.getNamespacePods (some ns) ↔ e ∈ peer_container.peer_set ∧
      ∃ own, peer_namespace e = some own ∧ own.name = ns.name := by
    cases inside : peer_namespace e with
    | none =>
      unfold PeerContainer.getNamespacePods
      rw [Finset.mem_filter]
      simp [PeerContainer.considered, inside]
    | some own => simp [PeerContainer.mem_namespacePods inside]
  rw [Finset.mem_inter, here]
  refine ⟨fun both => ?_, fun meant => ?_⟩
  · obtain ⟨member, known, own, inside, same⟩ := both
    obtain ⟨-, noDns⟩ := PeerContainer.mem_group.mp (parseLabelSelector_group parsed member)
    have noIp := topology.no_ips e known
    have noHep : Peers.kind e ≠ .hostEP := by
      intro hep
      rw [topology.outside e known hep] at inside
      cases inside
    have pod : Peers.kind e = .pod := by
      cases kind : Peers.kind e <;> simp_all
    exact ⟨pod, known, ⟨own, inside, same⟩, ((mem_podSelector pod given parsed).mp member).2.1⟩
  · obtain ⟨pod, known, ⟨own, inside, same⟩, selects⟩ := meant
    refine ⟨(mem_podSelector pod given parsed).mpr ⟨known, selects, ?_⟩, known, own, inside, same⟩
    intro _
    simp [PeerContainer.considered, inside, same]

variable {P κ : Type} [NamedPorts E] [PortProperties P E κ] {unicode : Char → Bool} {is_ingress : Bool}
  {selected_peers : PeerSet E} {rule : Yaml} {res : K8sPolicyRule P} {x : Flow E κ}

omit [NamedPorts E] in
theorem rulePeers_parsed {parse_peer : Yaml → Except ParseError (PeerSet E)} {peer_array : List Yaml}
    (parsed : rulePeers peer_container parse_peer peer_array = .ok set) :
    ∀ peer ∈ peer_array, ∃ peers, parse_peer peer = .ok peers := by
  unfold rulePeers at parsed
  split at parsed
  · rename_i empty
    rw [empty]
    exact List.forall_mem_nil _
  · exact fun peer listed => foldlM_each parsed listed

/-- The connections of a parsed rule, between peers that may be on its other side. -/
theorem parseRule_matches (topology : Topology peer_container parse_ip_block)
    (regular : ∀ peer ∈ (rule.field (peersKey is_ingress)).toList, (peer.field "ipBlock").isNull = true →
      Regular peer_container ns peer)
    (known : otherEnd is_ingress x ∈ peer_container.getAllPeersGroup true true)
    (noHep : Peers.kind (otherEnd is_ingress x) ≠ .hostEP)
    (parsed : parseIngressEgressRule unicode peer_container (parsePeer peer_container ns parse_ip_block) rule
      (peersKey is_ingress) selected_peers = .ok res) :
    x ∈ res.props ↔ capturedEnd is_ingress x ∈ selected_peers ∧
      RuleMatches P peer_container ns parse_ip_block is_ingress rule x := by
  obtain ⟨res_pods, pods, own⟩ := mem_parsedRule unicode parsed
  rw [own x]
  refine and_congr_right fun _ => and_congr_left' ?_
  rw [mem_rulePeers pods, RulePeer, and_iff_left known]
  refine or_congr_right (exists_congr fun peer => and_congr_right fun listed => ?_)
  obtain ⟨set, made⟩ := rulePeers_parsed pods peer listed
  rw [← parsePeer_matches topology (regular peer listed) noHep made, made]
  exact ⟨fun ⟨_, same, member⟩ => Except.ok.inj same ▸ member, fun member => ⟨set, rfl, member⟩⟩

theorem parseRules_spec {rules : List Yaml} {made : SelectedRules P selected_peers is_ingress}
    (parsed : parseRules unicode peer_container parse_ip_block ns selected_peers is_ingress rules = .ok made) :
    List.Forall₂ (fun rule res => parseIngressEgressRule unicode peer_container
      (parsePeer peer_container ns parse_ip_block) rule (peersKey is_ingress) selected_peers = .ok res)
      rules made.1 := by
  induction rules generalizing made with
  | nil =>
    obtain rfl := Except.ok.inj parsed
    exact .nil
  | cons rule rest ih =>
    unfold parseRules at parsed
    split at parsed
    · cases parsed
    · rename_i res first
      obtain ⟨others, following, parsed⟩ := bind_ok.mp parsed
      obtain rfl := Except.ok.inj parsed
      exact .cons first (ih following)

/-- What the policy is in terms of the resource that it is parsed from. -/
structure Reads (parse_ip_block : Yaml → Except ParseError (PeerSet E)) (peer_container : PeerContainer E)
    (ns : K8sNamespace) (policy_spec : Yaml) (policy : K8sNetworkPolicy P) : Prop where
  affects : ∀ is_ingress, policy.affects is_ingress = true ↔ AffectsDirection policy_spec is_ingress
  selected : ∀ e, e ∈ policy.selected_peers ↔ SelectsPod peer_container ns policy_spec e
  rules : ∀ is_ingress, ∀ x : Flow E κ, otherEnd is_ingress x ∈ peer_container.getAllPeersGroup true true →
    Peers.kind (otherEnd is_ingress x) ≠ .hostEP → (x ∈ unionProps K8sPolicyRule.props (policy.rules is_ingress) ↔
      capturedEnd is_ingress x ∈ policy.selected_peers ∧
        Grants P peer_container ns parse_ip_block policy_spec is_ingress x)

theorem parseSpec_reads {policy_spec : Yaml} {policy_name : String} {policy : K8sNetworkPolicy P}
    (topology : Topology peer_container parse_ip_block) (regular : RegularRules peer_container ns policy_spec)
    (parsed : parseSpec unicode peer_container parse_ip_block policy_name ns policy_spec = .ok policy) :
    Reads parse_ip_block peer_container ns policy_spec policy := by
  unfold parseSpec at parsed
  obtain ⟨_, checked, parsed⟩ := bind_ok.mp parsed
  obtain ⟨_, -, parsed⟩ := bind_ok.mp parsed
  obtain ⟨_, -, parsed⟩ := bind_ok.mp parsed
  obtain ⟨pod_selector, selectorRead, parsed⟩ := bind_ok.mp parsed
  obtain ⟨pods, selected, parsed⟩ := bind_ok.mp parsed
  obtain ⟨_, ingressRead, parsed⟩ := bind_ok.mp parsed
  obtain ⟨ingress_rules, ingressListed, parsed⟩ := bind_ok.mp parsed
  obtain ⟨ingress, ingressMade, parsed⟩ := bind_ok.mp parsed
  obtain ⟨_, egressRead, parsed⟩ := bind_ok.mp parsed
  obtain ⟨egress_rules, egressListed, parsed⟩ := bind_ok.mp parsed
  obtain ⟨egress, egressMade, parsed⟩ := bind_ok.mp parsed
  obtain rfl := Except.ok.inj parsed
  obtain ⟨-, given, -⟩ := checkSpecValidity_ok checked
  rw [(Yaml.get_ok.mp selectorRead).2] at given
  have ingressKey : (policy_spec.field (rulesKey true)).toList = ingress_rules := by
    rw [show rulesKey true = "ingress" from rfl, (Yaml.get_ok.mp ingressRead).2, Yaml.asList_toList ingressListed]
  have egressKey : (policy_spec.field (rulesKey false)).toList = egress_rules := by
    rw [show rulesKey false = "egress" from rfl, (Yaml.get_ok.mp egressRead).2, Yaml.asList_toList egressListed]
  refine ⟨?_, ?_, ?_⟩
  · intro is_ingress
    rw [← affects_iff checked]
    cases is_ingress <;> rfl
  · intro e
    unfold SelectsPod
    rw [(Yaml.get_ok.mp selectorRead).2]
    exact mem_selectedPods topology given selected
  · intro is_ingress x known noHep
    have each : ∀ rules : List Yaml, (policy_spec.field (rulesKey is_ingress)).toList = rules →
        ∀ made : SelectedRules P (pods ∩ peer_container.getNamespacePods (some ns)) is_ingress,
        parseRules unicode peer_container parse_ip_block ns _ is_ingress rules = .ok made →
        (x ∈ unionProps K8sPolicyRule.props made.1 ↔
          capturedEnd is_ingress x ∈ pods ∩ peer_container.getNamespacePods (some ns) ∧
            Grants P peer_container ns parse_ip_block policy_spec is_ingress x) := by
      intro rules listed made run
      unfold Grants
      rw [mem_unionProps, listed]
      have aligned := forall₂_members (parseRules_spec run)
      have same : (∃ rule ∈ rules, capturedEnd is_ingress x ∈ pods ∩ peer_container.getNamespacePods (some ns) ∧
          RuleMatches P peer_container ns parse_ip_block is_ingress rule x) ↔ ∃ res ∈ made.1, x ∈ res.props := by
        apply forall₂_exists aligned
        intro rule res ⟨among, first⟩
        exact (parseRule_matches topology (regular is_ingress rule (listed ▸ among)) known noHep first).symm
      rw [← same]
      exact ⟨fun ⟨rule, among, captured, matched⟩ => ⟨captured, rule, among, matched⟩,
        fun ⟨captured, rule, among, matched⟩ => ⟨rule, among, captured, matched⟩⟩
    cases is_ingress with
    | true => exact each ingress_rules ingressKey ingress ingressMade
    | false => exact each egress_rules egressKey egress egressMade

end Parsed

section Documents

variable {doc : Yaml}

theorem version_keywords :
    (["k8s", "extensions"].anyM fun keyword => (Yaml.str "networking.k8s.io/v1").has keyword) = .ok true ∧
    (["k8s", "extensions"].anyM fun keyword => (Yaml.str "extensions/v1beta1").has keyword) = .ok true := ⟨rfl, rfl⟩

theorem version_ok {entries : List (String × Yaml)} (field : FieldValid entries
      [("apiVersion", ["networking.k8s.io/v1", "extensions/v1beta1"])] "apiVersion" ⟨1, some .str⟩)
    (keywords : (["k8s", "extensions"].anyM fun keyword => ((Yaml.dict entries).field "apiVersion").has keyword) =
      .ok true) :
    (Yaml.dict entries).field "apiVersion" = .str "networking.k8s.io/v1" ∨
      (Yaml.dict entries).field "apiVersion" = .str "extensions/v1beta1" := by
  have given : ((Yaml.dict entries).field "apiVersion").truthy = true := by
    obtain ⟨k8s, found, keywords⟩ := bind_ok.mp keywords
    cases k8s with
    | true => exact Yaml.truthy_of_has (by decide) found
    | false =>
      obtain ⟨extensions, found, keywords⟩ := bind_ok.mp keywords
      cases extensions with
      | true => exact Yaml.truthy_of_has (by decide) found
      | false => cases keywords
  obtain ⟨v, among, same⟩ := field.listed rfl given
  rw [same]
  simp only [List.mem_cons, List.not_mem_nil, or_false] at among
  exact among.imp (congrArg Yaml.str) (congrArg Yaml.str)

theorem namespace_ok {metadata : Yaml} {spaced : Bool} {own : String} (has : metadata.has "namespace" = .ok spaced)
    (read : (if !spaced then some "default" else match metadata.field "namespace" with
      | .str ns => some ns
      | _ => none) = some own) (same : doc.field "metadata" = metadata) : own = documentNamespace doc := by
  unfold documentNamespace
  rw [same]
  cases metadata with
  | dict entries =>
    obtain rfl := Except.ok.inj has
    have field : (Yaml.dict entries).field "namespace" = (Dict.get entries "namespace").getD .null := rfl
    rw [field] at read ⊢
    cases found : Dict.get entries "namespace" with
    | none =>
      rw [found] at read
      exact (Option.some.inj read).symm
    | some value =>
      rw [found] at read
      cases value with
      | str s => exact (Option.some.inj read).symm
      | _ => cases read
  | list items =>
    cases spaced with
    | false => exact (Option.some.inj read).symm
    | true => cases read
  | str s =>
    cases spaced with
    | false => exact (Option.some.inj read).symm
    | true => cases read
  | _ => cases has

theorem parseObjectsFields_ok {res : Option (String × Option String)}
    (parsed : parseObjectsFieldsOfKeywords doc ["NetworkPolicy"] ["networking.k8s.io/v1", "extensions/v1beta1"]
      ["k8s", "extensions"] false = .ok res) :
    (res.isSome = true ↔ IsNetworkPolicy doc) ∧ ∀ name ns, res = some (name, ns) →
      name = documentName doc ∧ ∀ own, ns = some own → own = documentNamespace doc := by
  unfold parseObjectsFieldsOfKeywords at parsed
  obtain ⟨_, -, parsed⟩ := bind_ok.mp parsed
  obtain ⟨kind, kindRead, parsed⟩ := bind_ok.mp parsed
  have kindRead := (Yaml.get_ok.mp kindRead).2
  simp only [List.any_cons, List.any_nil, Bool.or_false] at parsed
  split at parsed
  · rename_i other
    obtain rfl := Except.ok.inj parsed
    refine ⟨iff_of_false Bool.false_ne_true ?_, nofun⟩
    intro ⟨same, _⟩
    rw [← kindRead, same] at other
    simp [Yaml.isStr] at other
  · rename_i right
    obtain ⟨api_version, versionRead, parsed⟩ := bind_ok.mp parsed
    have versionRead := (Yaml.get_ok.mp versionRead).2
    obtain ⟨layered, keywords, parsed⟩ := bind_ok.mp parsed
    split at parsed
    · rename_i missing
      obtain rfl := Except.ok.inj parsed
      refine ⟨iff_of_false Bool.false_ne_true ?_, nofun⟩
      intro ⟨_, version⟩
      rw [versionRead] at version
      have found : (["k8s", "extensions"].anyM fun keyword => api_version.has keyword) = .ok true := by
        cases version with
        | inl first => exact first ▸ version_keywords.1
        | inr second => exact second ▸ version_keywords.2
      rw [Except.ok.inj (keywords.symm.trans found)] at missing
      cases missing
    · rename_i present
      obtain ⟨_, valid, parsed⟩ := bind_ok.mp parsed
      obtain ⟨metadata, metadataRead, parsed⟩ := bind_ok.mp parsed
      have metadataRead := (Yaml.get_ok.mp metadataRead).2
      obtain ⟨_, -, parsed⟩ := bind_ok.mp parsed
      obtain ⟨name, nameRead, parsed⟩ := bind_ok.mp parsed
      obtain ⟨spaced, spaceRead, parsed⟩ := bind_ok.mp parsed
      obtain rfl := Except.ok.inj parsed
      refine ⟨iff_of_true rfl ⟨?_, ?_⟩, ?_⟩
      · rw [kindRead]
        cases kind with
        | str s => simpa [Yaml.isStr] using right
        | _ => simp [Yaml.isStr] at right
      · obtain ⟨entries, rfl, fields, -⟩ := checkFieldsValidity_ok.mp valid
        rw [Bool.not_eq_true', Bool.not_eq_false] at present
        rw [present, ← versionRead] at keywords
        exact version_ok (fields ("apiVersion", ⟨1, some .str⟩) (by simp)) keywords
      · intro name' ns equal
        obtain ⟨rfl, rfl⟩ := Prod.mk.inj (Option.some.inj equal)
        refine ⟨?_, fun own read => namespace_ok spaceRead read metadataRead⟩
        unfold documentName
        rw [metadataRead, (Yaml.get_ok.mp nameRead).2]

variable {P E κ : Type} [Fintype E] [DecidableEq E] [TopologyPeers E] [NamedPorts E] [PortProperties P E κ]
  {unicode : Char → Bool} {peer_container : PeerContainer E} {namespaces : Namespaces}
  {parse_ip_block : Yaml → Except ParseError (PeerSet E)}

theorem checkDnsLabelName_ok {value : Option String} {s : String} (checked : checkDnsLabelName value = .ok s) :
    value = some s ∧ s ≠ "" := by
  unfold checkDnsLabelName at checked
  cases value with
  | none => cases checked
  | some own =>
    obtain ⟨_, -, checked⟩ := bind_ok.mp checked
    obtain ⟨_, label, checked⟩ := bind_ok.mp checked
    obtain rfl := Except.ok.inj checked
    refine ⟨rfl, ?_⟩
    rintro rfl
    cases label

/-- What is parsed from a resource: nothing unless it is a network policy, and otherwise a policy of its
name that says what its specification says. -/
structure PolicyOf (namespaces : Namespaces) (parse_ip_block : Yaml → Except ParseError (PeerSet E))
    (peer_container : PeerContainer E) (doc : Yaml) (policy : K8sNetworkPolicy P) : Prop where
  kind : IsNetworkPolicy doc
  name : policy.fullName = documentNamespace doc ++ "/" ++ documentName doc
  idle : (doc.field "spec").isNull = true → ∀ is_ingress, policy.affects is_ingress = false
  reads : (doc.field "spec").isNull = false →
    Reads parse_ip_block peer_container (namespaces.getNamespace (documentNamespace doc)) (doc.field "spec") policy

theorem parseSpec_name {ns : K8sNamespace} {policy_spec : Yaml} {policy_name : String} {policy : K8sNetworkPolicy P}
    (parsed : parseSpec unicode peer_container parse_ip_block policy_name ns policy_spec = .ok policy) :
    policy.fullName = ns.name ++ "/" ++ policy_name := by
  unfold parseSpec at parsed
  iterate 11 obtain ⟨_, -, parsed⟩ := bind_ok.mp parsed
  obtain rfl := Except.ok.inj parsed
  rfl

theorem parsePolicy_ok {res : Option (K8sNetworkPolicy P)} (topology : Topology peer_container parse_ip_block)
    (regular : IsNetworkPolicy doc →
      RegularRules peer_container (namespaces.getNamespace (documentNamespace doc)) (doc.field "spec"))
    (parsed : parsePolicy unicode peer_container namespaces parse_ip_block doc = .ok res) :
    (res = none → ¬ IsNetworkPolicy doc) ∧
      ∀ policy, res = some policy → PolicyOf namespaces parse_ip_block peer_container doc policy := by
  unfold parsePolicy at parsed
  obtain ⟨fields, named, parsed⟩ := bind_ok.mp parsed
  obtain ⟨kind, names⟩ := parseObjectsFields_ok named
  cases fields with
  | none =>
    obtain rfl := Except.ok.inj parsed
    exact ⟨fun _ policy => Bool.false_ne_true (kind.mpr policy), nofun⟩
  | some fields =>
    obtain ⟨policy_name, policy_ns⟩ := fields
    obtain ⟨_, -, parsed⟩ := bind_ok.mp parsed
    obtain ⟨own, spaced, parsed⟩ := bind_ok.mp parsed
    obtain ⟨policy_spec, specRead, parsed⟩ := bind_ok.mp parsed
    obtain ⟨rfl, space⟩ := names _ _ rfl
    obtain ⟨given, some⟩ := checkDnsLabelName_ok spaced
    obtain rfl := space own given
    rw [← (Yaml.get_ok.mp specRead).2] at parsed
    have full := namespaces.getNamespace_name some
    split at parsed
    · rename_i missing
      obtain rfl := Except.ok.inj parsed
      refine ⟨nofun, ?_⟩
      intro policy same
      obtain rfl := Option.some.inj same
      refine ⟨kind.mp rfl, ?_, ?_, fun given => absurd missing (Bool.not_eq_true _ ▸ given)⟩
      · show (namespaces.getNamespace (documentNamespace doc)).name ++ "/" ++ documentName doc = _
        rw [full]
      · intro _ is_ingress
        cases is_ingress <;> rfl
    · rename_i given
      obtain ⟨policy, made, parsed⟩ := bind_ok.mp parsed
      obtain rfl := Except.ok.inj parsed
      refine ⟨nofun, ?_⟩
      intro policy' same
      obtain rfl := Option.some.inj same
      refine ⟨kind.mp rfl, ?_, fun missing => absurd missing given, fun _ => parseSpec_reads topology (regular (kind.mp rfl)) made⟩
      rw [parseSpec_name made, full]

end Documents

end K8sPolicyYamlParser
end Nca.Parsers
