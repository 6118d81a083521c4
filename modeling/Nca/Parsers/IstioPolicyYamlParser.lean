import Nca.NetworkConfig.NetworkConfig
import Nca.Parsers.GenericYamlParser

/-!
The parser of Istio authorization policies: its rules. A rule has sources, operations and
conditions; a request matches it if it matches some source, some operation and all conditions.
-/

namespace Nca.Parsers
open CoreDS Lib NetworkConfig Resources

namespace IstioPolicyYamlParser

/-- What a condition is parsed to, depending on its key. -/
inductive ConditionRes (P E : Type) where
  | peers (peers : PeerSet E)
  | props (props : P)
  | notImplemented

/-- The parts of the parser that the rules are made of: the peers of `namespaces`, `principals` and
`ipBlocks`, each from its positive and its negative list, the connections of ports, and the
connections of one operation. -/
structure Components (P E : Type) where
  parse_ip_block : Yaml → Yaml → Except ParseError (PeerSet E)
  parse_namespaces : Yaml → Yaml → Except ParseError (PeerSet E)
  parse_principals : Yaml → Yaml → Except ParseError (PeerSet E)
  parse_port_props : Yaml → Yaml → Except ParseError P
  parse_operation : Yaml → Except ParseError P

section

variable {P E κ : Type} [Fintype E] [DecidableEq E] [Peers E] [ConnectivityProperties P E κ]
  (self : Components P E) (peer_container : PeerContainer E)

def parseKeyValues (key : Yaml) (values not_values : Yaml) :
    Except ParseError (ConditionRes P E) :=
  if key.isStr "source.ip" then .peers <$> self.parse_ip_block values not_values
  else if key.isStr "source.namespace" then .peers <$> self.parse_namespaces values not_values
  else if key.isStr "source.principal" then .peers <$> self.parse_principals values not_values
  else if key.isStr "destination.port" then .props <$> self.parse_port_props values not_values
  else return .notImplemented

def parseCondition (condition : Yaml) : Except ParseError (ConditionRes P E) := do
  checkFieldsValidity condition "authorization policy condition"
    [("key", ⟨1, some .str⟩), ("values", ⟨0, some .list⟩), ("notValues", ⟨0, some .list⟩)]
    [("key", ["source.ip", "source.namespace", "source.principal", "destination.port"])]
  ["key", "values", "notValues"].forM (validateExistingKeyIsNotNull condition)
  let key ← condition.get "key"
  let values ← condition.get "values"
  let not_values ← condition.get "notValues"
  syntaxErrorIf (!values.truthy && !not_values.truthy)
    "error parsing condition: at least one of values or not_values must be set. "
  parseKeyValues self key values not_values

/-- The values of a positive key and of its negative one, parsed. -/
def parseLists (parse : Yaml → Yaml → Except ParseError (PeerSet E)) (source_peer : Yaml)
    (key not_key : String) : Except ParseError (PeerSet E) := do
  parse (← source_peer.get key) (← source_peer.get not_key)

/-- `if present: res &= parsed`. -/
def restrict (present : Bool) (parsed : Except ParseError (PeerSet E)) (res : PeerSet E) :
    Except ParseError (PeerSet E) :=
  if present then (res ∩ ·) <$> parsed else return res

def parseSource (source_dict : Yaml) : Except ParseError (PeerSet E) := do
  checkFieldsValidity source_dict "authorization policy rule: from" [("source", ⟨1, some .dict⟩)]
  let source_peer ← source_dict.get "source"
  syntaxErrorIf source_peer.isNull "Authorization policy from.source cannot be null. "
  let allowed_elements : List (String × KeyInfo) :=
    [("namespaces", ⟨0, some .list⟩), ("notNamespaces", ⟨0, some .list⟩),
      ("ipBlocks", ⟨0, some .list⟩), ("notIpBlocks", ⟨0, some .list⟩),
      ("principals", ⟨0, some .list⟩), ("notPrincipals", ⟨0, some .list⟩),
      ("requestPrincipals", ⟨2, none⟩), ("notRequestPrincipals", ⟨2, none⟩),
      ("remoteIpBlocks", ⟨2, none⟩), ("notRemoteIpBlocks", ⟨2, none⟩)]
  checkFieldsValidity source_peer "authorization policy rule: source" allowed_elements
  (allowed_elements.map Prod.fst).forM (validateExistingKeyIsNotNull source_peer)
  validateDictElemHasNonEmptyArrayValue source_peer "from.source"
  let has_ns := (← source_peer.has "namespaces") || (← source_peer.has "notNamespaces")
  let has_ip := (← source_peer.has "ipBlocks") || (← source_peer.has "notIpBlocks")
  let has_principals := (← source_peer.has "principals") || (← source_peer.has "notPrincipals")
  if has_ip && (has_principals || has_ns) then return ∅
  else
    let res ← restrict has_principals
      (parseLists self.parse_principals source_peer "principals" "notPrincipals")
      (peer_container.getAllPeersGroup true)
    let res ← restrict has_ns
      (parseLists self.parse_namespaces source_peer "namespaces" "notNamespaces") res
    restrict (has_ip && !has_ns)
      (parseLists self.parse_ip_block source_peer "ipBlocks" "notIpBlocks") res

/-- The properties of all TCP connections. -/
def tcpProps : P :=
  ConnectivityProperties.makeConnProps { protocols := some (getProtocolSetWithSingleProtocol tcp) }

/-- The peers of the array `from`. -/
def parseFrom (from_array : Option (List Yaml)) : Except ParseError (PeerSet E) :=
  match from_array with
  | none => return peer_container.getAllPeersGroup true
  | some from_array => from_array.foldlM (fun res_peers source_dict =>
      (res_peers ∪ ·) <$> parseSource self peer_container source_dict) ∅

/-- The connections of the array `to`. -/
def parseTo (to_array : Option (List Yaml)) : Except ParseError P :=
  match to_array with
  | none => return NetworkConfig.allConnsPropsPerConfigPeers ⟨peer_container, .init⟩
  | some to_array => do
    let conn_props ← to_array.foldlM (fun conn_props operation_dict =>
      (conn_props ∪ ·) <$> self.parse_operation operation_dict) ∅
    return conn_props ∩ tcpProps

/-- One turn of the loop over the conditions: the peers and the connections left by them. -/
def applyCondition (acc : PeerSet E × P) (condition : Yaml) : Except ParseError (PeerSet E × P) := do
  match ← parseCondition self condition with
  | .peers peers => return (acc.1 ∩ peers, acc.2)
  | .props props => return (acc.1, acc.2 ∩ props)
  | .notImplemented => return acc

/-- The peers that the array `when` leaves of these, and its connections. -/
def parseWhen (condition_array : Yaml) (res_peers : PeerSet E) : Except ParseError (PeerSet E × P) :=
  match condition_array with
  | .null => return (res_peers, ConnectivityProperties.makeConnProps {})
  | .list conditions => do
    let (res_peers, condition_props) ← conditions.foldlM (applyCondition self)
      (res_peers, ConnectivityProperties.makeConnProps {})
    return (res_peers, condition_props ∩ tcpProps)
  | _ => throw .TypeError

def parseIngressRule (rule : Yaml) (selected_peers : PeerSet E) :
    Except ParseError (IstioPolicyRule P) := do
  syntaxErrorIf rule.isNull "Authorization policy rule cannot be null. "
  checkFieldsValidity rule "authorization policy rule"
    [("from", ⟨0, some .list⟩), ("to", ⟨0, some .list⟩), ("when", ⟨0, some .list⟩)]
  ["from", "to", "when"].forM (validateExistingKeyIsNotNull rule)
  let res_peers ← parseFrom self peer_container (← getKeyArrayAndValidateNotEmpty rule "from")
  let conn_props ← parseTo self peer_container (← getKeyArrayAndValidateNotEmpty rule "to")
  let (res_peers, condition_props) ← parseWhen self (← rule.get "when") res_peers
  let condition_props :=
    if res_peers = ∅ ∨ selected_peers = ∅ then ∅
    else condition_props ∩
      ConnectivityProperties.makeConnProps { src_peers := some res_peers, dst_peers := some selected_peers }
  return ⟨conn_props ∩ condition_props⟩

section Meaning

/-- The items of the array of a key; none where there is no such array. -/
def items (entries : List (String × Yaml)) (key : String) : List Yaml :=
  match Dict.get entries key with
  | some (.list items) => items
  | _ => []

def SourceAdmits (source : Yaml) (s : E) : Prop :=
  ∃ peers, parseSource self peer_container source = .ok peers ∧ s ∈ peers

def OperationAdmits (operation : Yaml) (x : Flow E κ) : Prop :=
  ∃ props : P, self.parse_operation operation = .ok props ∧ x ∈ props

/-- A condition is about the source or about the connection. -/
def ConditionRes.Admits (res : ConditionRes P E) (x : Flow E κ) : Prop :=
  match res with
  | .peers res_peers => x.src ∈ res_peers
  | .props condition_props => x ∈ condition_props
  | .notImplemented => True

def ConditionAdmits (condition : Yaml) (x : Flow E κ) : Prop :=
  ∃ res, parseCondition self condition = .ok res ∧ res.Admits x

/-- The connection matches the rule, up to its protocol. -/
@[mk_iff] structure RuleAdmits (entries : List (String × Yaml)) (selected_peers : PeerSet E)
    (x : Flow E κ) : Prop where
  dst : x.dst ∈ selected_peers
  src : (Dict.get entries "from" = none ∧ x.src ∈ peer_container.getAllPeersGroup true) ∨
    ∃ source ∈ items entries "from", SourceAdmits self peer_container source x.src
  operation : Dict.get entries "to" = none ∨
    ∃ operation ∈ items entries "to", OperationAdmits self operation x
  conditions : ∀ condition ∈ items entries "when", ConditionAdmits self condition x

end Meaning

section Parsed

variable {self peer_container} {s : E} {x : Flow E κ}

omit [Fintype E] [DecidableEq E] [Peers E] in
theorem mem_tcpProps : x ∈ (tcpProps : P) ↔ x.protocol = tcp := by
  simp [tcpProps, ConnectivityCube.Admits, getProtocolSetWithSingleProtocol]

theorem parseFrom_admits {from_array : List Yaml} {res_peers : PeerSet E}
    (parsed : parseFrom self peer_container (some from_array) = .ok res_peers) :
    s ∈ res_peers ↔ ∃ source ∈ from_array, SourceAdmits self peer_container source s :=
  ExactSet.mem_foldlM_finset parsed

theorem parseTo_admits {to_array : List Yaml} {conn_props : P}
    (parsed : parseTo self peer_container (some to_array) = .ok conn_props) :
    x ∈ conn_props ↔ x.protocol = tcp ∧ ∃ operation ∈ to_array, OperationAdmits self operation x := by
  unfold parseTo at parsed
  obtain ⟨union, folded, last⟩ := bind_ok.mp parsed
  rw [← Except.ok.inj last, ExactSet.mem_inter, mem_tcpProps, and_comm,
    ExactSet.mem_foldlM_union folded]
  rfl

omit [Fintype E] [DecidableEq E] [Peers E] in
theorem conditionAdmits_ok {condition : Yaml} {res : ConditionRes P E}
    (parsed : parseCondition self condition = .ok res) :
    ConditionAdmits self condition x ↔ res.Admits x := by
  unfold ConditionAdmits
  rw [parsed]
  simp

/-- The peers and the connections that are left are those that all conditions admit. -/
theorem parseWhen_admits {conditions : List Yaml} {res_peers : PeerSet E} {acc : PeerSet E × P}
    (parsed : parseWhen self (.list conditions) res_peers = .ok acc) :
    (x.src ∈ acc.1 ∧ x ∈ acc.2) ↔
      x.src ∈ res_peers ∧ x.protocol = tcp ∧
        ∀ condition ∈ conditions, ConditionAdmits self condition x := by
  unfold parseWhen at parsed
  obtain ⟨left, folded, last⟩ := bind_ok.mp parsed
  rw [← Except.ok.inj last]
  have all : (x.src ∈ left.1 ∧ x ∈ left.2) ↔
      x.src ∈ res_peers ∧ ∀ condition ∈ conditions, ConditionAdmits self condition x := by
    apply foldlM_ok (fun before acc => (x.src ∈ acc.1 ∧ x ∈ acc.2) ↔
      x.src ∈ res_peers ∧ ∀ condition ∈ before, ConditionAdmits self condition x) _ _ folded
    · simp [ConnectivityCube.Admits]
    · intro before condition acc next holds stepped
      obtain ⟨res, read, stepped⟩ := bind_ok.mp stepped
      rw [List.forall_mem_append, List.forall_mem_singleton, conditionAdmits_ok read, ← and_assoc,
        ← holds]
      cases res with
      | peers peers =>
        rw [← Except.ok.inj stepped, ConditionRes.Admits, Finset.mem_inter]
        tauto
      | props props =>
        rw [← Except.ok.inj stepped, ConditionRes.Admits, ExactSet.mem_inter]
        tauto
      | notImplemented =>
        rw [← Except.ok.inj stepped, ConditionRes.Admits, and_true]
  rw [ExactSet.mem_inter, mem_tcpProps, ← and_assoc, all]
  tauto

omit [Fintype E] [Peers E] in
theorem restrict_inside {present : Bool} {parsed : Except ParseError (PeerSet E)}
    {res peers : PeerSet E} (run : restrict present parsed res = .ok peers) : peers ⊆ res := by
  unfold restrict at run
  split at run
  · obtain ⟨_, _, rfl⟩ := map_ok.mp run
    exact Finset.inter_subset_left
  · rw [Except.ok.inj run]

theorem parseSource_inside {source : Yaml} {peers : PeerSet E}
    (parsed : parseSource self peer_container source = .ok peers) :
    peers ⊆ peer_container.getAllPeersGroup true := by
  unfold parseSource at parsed
  iterate 12 obtain ⟨_, _, parsed⟩ := bind_ok.mp parsed
  dsimp only at parsed
  split at parsed
  · rw [← Except.ok.inj parsed]
    exact Finset.empty_subset _
  · obtain ⟨_, principals, parsed⟩ := bind_ok.mp parsed
    obtain ⟨_, namespaces, parsed⟩ := bind_ok.mp parsed
    apply (restrict_inside parsed).trans
    exact (restrict_inside namespaces).trans (restrict_inside principals)

variable {entries : List (String × Yaml)} {selected_peers : PeerSet E}

omit [Fintype E] [DecidableEq E] [Peers E] in
theorem items_list {key : String} {found : List Yaml}
    (entry : Dict.get entries key = some (.list found)) : items entries key = found := by
  rw [items, entry]

theorem from_admits {from_array : Option (List Yaml)} {res_peers : PeerSet E}
    (entry : Dict.get entries "from" = from_array.map .list)
    (parsed : parseFrom self peer_container from_array = .ok res_peers) :
    s ∈ res_peers ↔ (Dict.get entries "from" = none ∧ s ∈ peer_container.getAllPeersGroup true) ∨
      ∃ source ∈ items entries "from", SourceAdmits self peer_container source s := by
  cases from_array with
  | none =>
    rw [← Except.ok.inj parsed]
    simp [show Dict.get entries "from" = none from entry, items]
  | some from_array =>
    rw [parseFrom_admits parsed, items_list entry]
    simp [entry]

theorem from_inside {from_array : Option (List Yaml)} {res_peers : PeerSet E}
    (parsed : parseFrom self peer_container from_array = .ok res_peers) (member : s ∈ res_peers) :
    s ∈ peer_container.getAllPeersGroup true := by
  cases from_array with
  | none =>
    rw [Except.ok.inj parsed]
    exact member
  | some from_array =>
    obtain ⟨source, _, peers, read, inside⟩ := (parseFrom_admits parsed).mp member
    exact parseSource_inside read inside

theorem to_admits {to_array : Option (List Yaml)} {conn_props : P}
    (entry : Dict.get entries "to" = to_array.map .list)
    (parsed : parseTo self peer_container to_array = .ok conn_props)
    (src : x.src ∈ peer_container.getAllPeersGroup true true)
    (dst : x.dst ∈ peer_container.getAllPeersGroup true true) :
    x ∈ conn_props ↔ (Dict.get entries "to" = none ∨
      x.protocol = tcp ∧ ∃ operation ∈ items entries "to", OperationAdmits self operation x) := by
  cases to_array with
  | none =>
    rw [← Except.ok.inj parsed, NetworkConfig.allConnsPropsPerConfigPeers, CoreDS.mem_makeConnProps]
    simp [show Dict.get entries "to" = none from entry, ConnectivityCube.Admits, src, dst]
  | some to_array =>
    rw [parseTo_admits parsed, items_list entry]
    simp [entry]

theorem when_admits {condition_array : Yaml} {res_peers : PeerSet E} {acc : PeerSet E × P}
    (proper : Dict.get entries "when" ≠ some .null)
    (entry : (Dict.get entries "when").getD .null = condition_array)
    (parsed : parseWhen self condition_array res_peers = .ok acc) :
    (x.src ∈ acc.1 ∧ x ∈ acc.2) ↔ x.src ∈ res_peers ∧
      (Dict.get entries "when" = none ∨ x.protocol = tcp) ∧
      ∀ condition ∈ items entries "when", ConditionAdmits self condition x := by
  cases found : Dict.get entries "when" with
  | none =>
    rw [found] at entry
    subst entry
    rw [← Except.ok.inj parsed]
    simp [ConnectivityCube.Admits, items, found]
  | some value =>
    rw [found] at entry proper
    subst entry
    cases value with
    | null => exact absurd rfl proper
    | list conditions =>
      rw [items_list found, parseWhen_admits parsed]
      simp
    | _ => cases parsed

theorem mem_limited {res_peers : PeerSet E} {condition_props : P} :
    x ∈ (if res_peers = ∅ ∨ selected_peers = ∅ then ∅
      else condition_props ∩ ConnectivityProperties.makeConnProps
        { src_peers := some res_peers, dst_peers := some selected_peers } : P) ↔
      (x.src ∈ res_peers ∧ x ∈ condition_props) ∧ x.dst ∈ selected_peers := by
  split
  · rename_i nothing
    rcases nothing with rfl | rfl <;> simp
  · simp [ConnectivityCube.Admits]
    tauto

end Parsed

end

section OnePod

/-- Sources and conditions name the pod; operations and ports allow everything. -/
def podComponents : Components (FlowSet PeerKind Unit) PeerKind where
  parse_ip_block _ _ := .ok ∅
  parse_namespaces _ _ := .ok {.pod}
  parse_principals _ _ := .ok {.pod}
  parse_port_props _ _ := .ok (ConnectivityProperties.makeConnProps {})
  parse_operation _ := .ok (ConnectivityProperties.makeConnProps {})

def podRule : Yaml := .dict
  [("from", .list [.dict [("source", .dict [("namespaces", .list [.str "default"])])]]),
    ("to", .list [.dict [("operation", .dict [("ports", .list [.str "80"])])]]),
    ("when", .list [.dict [("key", .str "source.principal"), ("values", .list [.str "*"])],
      .dict [("key", .str "destination.port"), ("notValues", .list [.str "90"])]])]

end OnePod
end IstioPolicyYamlParser
end Nca.Parsers
