import Nca.CoreDS.NamedPorts
import Nca.Parsers.K8sPolicyYamlParser
import Nca.Resources.Policies

/-!
The rules of K8s network policies. The connections of a rule are those between the selected pods
and its peers over one of its ports.
-/

namespace Nca.Parsers
open CoreDS Lib NetworkConfig Resources

namespace K8sPolicyYamlParser

/-- The order of the integers, by the instance that can be evaluated. -/
local instance intPreorder : Preorder Int := Int.instLinearOrder.toPreorder

section Ports

variable (unicode : Char → Bool)

/-- `[a-z\d]`; `\d` also matches digits beyond ASCII. -/
def isPortNameChar (c : Char) : Bool :=
  isLowerAlnum c || (decide (128 ≤ c.toNat) && unicode c)

/-- `[a-z\d]([-a-z\d]*[a-z\d])?` -/
def portName : Pattern :=
  .seq (.chars (isPortNameChar unicode))
    (.opt (.seq (.star (.chars fun c => c == '-' || isPortNameChar unicode c))
      (.chars (isPortNameChar unicode))))

/-- The integer that a value is an instance of. -/
def asNumber : Yaml → Option Int
  | .int n => some n
  | .bool b => some (if b then 1 else 0)
  | _ => none

def validatePortInDomain (value : Int) (value_name : String) : Except ParseError Unit :=
  syntaxErrorIf (¬ (1 ≤ value ∧ value ≤ 65535)) s!"{value_name} must be in the range 1-65535"

/-- The ports of an entry with a port and an end port. -/
def parsePortRange (port_id end_port_num : Yaml) : Except ParseError CoreDS.PortSet := do
  syntaxErrorIf (port_id.isInstance .str)
    "endPort cannot be defined if the port field is defined as a named (string) port"
  match asNumber port_id, asNumber end_port_num with
  | none, _ => syntaxError "type of port is not numerical in NetworkPolicyPort"
  | _, none => throw .TypeError
  | some first, some last =>
    validatePortInDomain first "Port number"
    validatePortInDomain last "endPort number"
    syntaxErrorIf (first > last) "endPort must be equal or greater than port"
    return (PortSet.init false).addPortRange first last

/-- The ports of an entry with a port alone. -/
def parseSinglePort (port_id : Yaml) : Except ParseError CoreDS.PortSet := do
  match asNumber port_id, port_id with
  | some number, _ =>
    validatePortInDomain number "Port number"
    return (PortSet.init false).addPort (.inl number)
  | none, .str name =>
    syntaxErrorIf (name.length > 15) "port name  must be no more than 15 characters"
    syntaxErrorIf (!(portName unicode).fullmatch name.toList)
      "port name should contain only lowercase alphanumeric characters or \"-\", and start and end with alphanumeric characters"
    return (PortSet.init false).addPort (.inr name)
  | none, _ =>
    syntaxError "type of port is not numerical or named (string) in NetworkPolicyPort"

/-- The number of a protocol of the allowed ones; TCP where there is none. -/
def protocolNumber (protocol : Yaml) : Fin 256 :=
  if protocol.isStr "UDP" then 17 else if protocol.isStr "SCTP" then 132 else tcp

def parsePort (port : Yaml) : Except ParseError (Fin 256 × CoreDS.PortSet) := do
  checkFieldsValidity port "NetworkPolicyPort"
    [("port", ⟨0, none⟩), ("protocol", ⟨0, some .str⟩), ("endPort", ⟨0, some .int⟩)]
    [("protocol", ["TCP", "UDP", "SCTP"])]
  let port_id ← port.get "port"
  let protocol ← port.get "protocol"
  let end_port_num ← port.get "endPort"
  if !port_id.isNull && !end_port_num.isNull then
    return (protocolNumber protocol, ← parsePortRange port_id end_port_num)
  else if !port_id.isNull then
    return (protocolNumber protocol, ← parseSinglePort unicode port_id)
  else
    syntaxErrorIf (end_port_num.truthy = true)
      "endPort cannot be defined if the port field is not defined "
    return (protocolNumber protocol, PortSet.init true)

end Ports

section Rules

variable {P E κ : Type} [Fintype E] [DecidableEq E] [Peers E] [NamedPorts E] [PortProperties P E κ]
  (unicode : Char → Bool) (peer_container : PeerContainer E)
  (parse_peer : Yaml → Except ParseError (PeerSet E))

/-- The peers of a rule: those of its array, or all peers where it has none. -/
def rulePeers (peer_array : List Yaml) : Except ParseError (PeerSet E) :=
  if peer_array = [] then return peer_container.getAllPeersGroup true true
  else peer_array.foldlM (fun res_pods peer => (res_pods ∪ ·) <$> parse_peer peer) ∅

/-- The connections that one entry of `ports` adds. -/
def portProps (src_pods dst_pods : PeerSet E) (port : Yaml) : Except ParseError P := do
  let (protocol, dest_port_set) ← parsePort unicode port
  let conn_cube : PortCube E :=
    { dst_ports := some dest_port_set
      protocols := some (getProtocolSetWithSingleProtocol protocol)
      src_peers := some src_pods
      dst_peers := some dst_pods }
  return if src_pods = ∅ ∨ dst_pods = ∅ then ∅ else makeConnPropsOfPorts conn_cube

def ruleProps (src_pods dst_pods : PeerSet E) (ports_array : List Yaml) : Except ParseError P :=
  if ports_array = [] then
    return makeConnPropsOfPorts { src_peers := some src_pods, dst_peers := some dst_pods }
  else ports_array.foldlM (fun res_props port =>
    (res_props ∪ ·) <$> portProps unicode src_pods dst_pods port) ∅

def parseIngressEgressRule (rule : Yaml) (peer_array_key : String)
    (policy_selected_pods : PeerSet E) : Except ParseError (K8sPolicyRule P) := do
  checkFieldsValidity rule "ingress/egress rule"
    [(peer_array_key, ⟨0, some .list⟩), ("ports", ⟨0, some .list⟩)]
  let peer_array ← (← rule.get peer_array_key).asList
  let res_pods ← rulePeers peer_container parse_peer peer_array
  let src_pods := if peer_array_key = "from" then res_pods else policy_selected_pods
  let dst_pods := if peer_array_key = "from" then policy_selected_pods else res_pods
  let ports_array ← (← rule.get "ports").asList
  return ⟨← ruleProps unicode src_pods dst_pods ports_array⟩

end Rules

section Meaning

/-- What an entry of `ports` says of destination ports. -/
inductive PortSpec where
  | all
  | number (port : Int)
  | range (port endPort : Int)
  | named (name : String)
  deriving DecidableEq, Repr

def portSpec (port : Yaml) : PortSpec :=
  match port.field "port", asNumber (port.field "port"), asNumber (port.field "endPort") with
  | .null, _, _ => .all
  | .str name, _, _ => .named name
  | _, some first, some last => .range first last
  | _, some number, none => .number number
  | _, none, _ => .all

variable {E κ : Type} [Peers E] [NamedPorts E]

/-- The destination port is one that the entry means at the destination. -/
def PortSpec.Matches (spec : PortSpec) (dst : E) (protocol : Fin 256) (dst_port : Int) : Prop :=
  match spec with
  | .all => True
  | .number port => dst_port = port
  | .range port endPort => port ≤ dst_port ∧ dst_port ≤ endPort
  | .named name => NamedPorts.named_ports dst name = some (dst_port, protocol)

/-- The entry has the protocol of the connection and matches its destination port. -/
def EntryMatches (port : Yaml) (dst : E) (protocol : Fin 256) (dst_port : Int) : Prop :=
  protocol = protocolNumber (port.field "protocol") ∧
  (portSpec port).Matches dst protocol dst_port

variable [Fintype E] [DecidableEq E] (peer_container : PeerContainer E)
  (parse_peer : Yaml → Except ParseError (PeerSet E))

/-- The peer is on the side of the rule that its array of peers describes. -/
def RulePeer (peer_array : List Yaml) (e : E) : Prop :=
  (peer_array = [] ∧ e ∈ peer_container.getAllPeersGroup true true) ∨
  ∃ peer ∈ peer_array, ∃ peers, parse_peer peer = .ok peers ∧ e ∈ peers

/-- The source and the destination are on their sides of the rule. -/
def OnSides (rule : Yaml) (peer_array_key : String) (selected : PeerSet E) (src dst : E) : Prop :=
  if peer_array_key = "from" then
    RulePeer peer_container parse_peer (rule.field peer_array_key).toList src ∧ dst ∈ selected
  else
    src ∈ selected ∧ RulePeer peer_container parse_peer (rule.field peer_array_key).toList dst

end Meaning

section Parsed

variable {unicode : Char → Bool} {port : Yaml}

theorem parsePortRange_ok {port_id end_port_num : Yaml} {set : CoreDS.PortSet}
    (parsed : parsePortRange port_id end_port_num = .ok set) :
    ∃ first last, asNumber port_id = some first ∧ asNumber end_port_num = some last ∧
      set = (PortSet.init false).addPortRange first last := by
  unfold parsePortRange at parsed
  obtain ⟨_, _, parsed⟩ := bind_ok.mp parsed
  cases first : asNumber port_id with
  | none =>
    rw [first] at parsed
    cases parsed
  | some first' =>
    cases last : asNumber end_port_num with
    | none =>
      rw [first, last] at parsed
      cases parsed
    | some last' =>
      rw [first, last] at parsed
      iterate 3 obtain ⟨_, _, parsed⟩ := bind_ok.mp parsed
      exact ⟨first', last', rfl, rfl, (Except.ok.inj parsed).symm⟩

theorem parseSinglePort_ok {port_id : Yaml} {set : CoreDS.PortSet}
    (parsed : parseSinglePort unicode port_id = .ok set) :
    (∃ number, asNumber port_id = some number ∧ set = (PortSet.init false).addPort (.inl number)) ∨
    ∃ name, port_id = .str name ∧ set = (PortSet.init false).addPort (.inr name) := by
  unfold parseSinglePort at parsed
  cases found : asNumber port_id with
  | some number =>
    rw [found] at parsed
    obtain ⟨_, _, parsed⟩ := bind_ok.mp parsed
    exact Or.inl ⟨number, rfl, (Except.ok.inj parsed).symm⟩
  | none =>
    rw [found] at parsed
    cases port_id with
    | str name =>
      iterate 2 obtain ⟨_, _, parsed⟩ := bind_ok.mp parsed
      exact Or.inr ⟨name, rfl, (Except.ok.inj parsed).symm⟩
    | _ => cases parsed

/-- What the port set of an entry has, by the meaning of the entry. -/
def PortSpec.Makes (spec : PortSpec) (set : CoreDS.PortSet) : Prop :=
  set.excluded_named_ports = ∅ ∧
  match spec with
  | .all => set.port_set = PortSet.allPortsInterval ∧ set.named_ports = ∅
  | .number port => set.port_set = {port} ∧ set.named_ports = ∅
  | .range port endPort => set.port_set = Finset.Icc port endPort ∧ set.named_ports = ∅
  | .named name => set.port_set = ∅ ∧ set.named_ports = {name}

theorem parsePort_ok {protocol : Fin 256} {dest_port_set : CoreDS.PortSet}
    (parsed : parsePort unicode port = .ok (protocol, dest_port_set)) :
    protocol = protocolNumber (port.field "protocol") ∧ (portSpec port).Makes dest_port_set := by
  unfold parsePort at parsed
  obtain ⟨_, _, parsed⟩ := bind_ok.mp parsed
  obtain ⟨port_id, portRead, parsed⟩ := bind_ok.mp parsed
  obtain ⟨protocolField, protocolRead, parsed⟩ := bind_ok.mp parsed
  obtain ⟨end_port_num, endRead, parsed⟩ := bind_ok.mp parsed
  unfold portSpec
  rw [(Yaml.get_ok.mp portRead).2, (Yaml.get_ok.mp protocolRead).2, (Yaml.get_ok.mp endRead).2]
  split at parsed
  · obtain ⟨set, ranged, parsed⟩ := bind_ok.mp parsed
    obtain ⟨first, last, firstRead, lastRead, rfl⟩ := parsePortRange_ok ranged
    obtain ⟨rfl, rfl⟩ := Prod.mk.inj (Except.ok.inj parsed)
    refine ⟨rfl, ?_⟩
    rw [firstRead, lastRead]
    cases port_id with
    | null => cases firstRead
    | str name => cases firstRead
    | _ => simp [PortSpec.Makes, PortSet.addPortRange, PortSet.init]
  · split at parsed
    · rename_i both given
      obtain ⟨set, single, parsed⟩ := bind_ok.mp parsed
      obtain ⟨rfl, rfl⟩ := Prod.mk.inj (Except.ok.inj parsed)
      rw [given, Bool.true_and, Bool.not_eq_true', Bool.not_eq_false] at both
      obtain rfl := Yaml.isNull_iff.mp both
      refine ⟨rfl, ?_⟩
      rcases parseSinglePort_ok single with ⟨number, read, rfl⟩ | ⟨name, rfl, rfl⟩
      · rw [read]
        cases port_id with
        | null => cases read
        | str name => cases read
        | _ => simp [PortSpec.Makes, PortSet.addPort, PortSet.init, asNumber]
      · simp [PortSpec.Makes, PortSet.addPort, PortSet.init]
    · rename_i both missing
      obtain ⟨_, _, parsed⟩ := bind_ok.mp parsed
      obtain ⟨rfl, rfl⟩ := Prod.mk.inj (Except.ok.inj parsed)
      rw [Bool.not_eq_true', Bool.not_eq_false] at missing
      obtain rfl := Yaml.isNull_iff.mp missing
      exact ⟨rfl, rfl, rfl, rfl⟩

variable {P E κ : Type} [Fintype E] [DecidableEq E] [Peers E] [NamedPorts E] [PortProperties P E κ]
  {x : Flow E κ}

omit [Fintype E] [DecidableEq E] [Peers E] in
/-- A port set of an entry means at a connection what the entry means. -/
theorem makes_matches {spec : PortSpec} {set : CoreDS.PortSet} (makes : spec.Makes set) :
    (dst_port P x.rest ∈ set.port_set ∨
      NamedAt P set.named_ports (getProtocolSetWithSingleProtocol x.protocol) x) ∧
    ¬ NamedAt P set.excluded_named_ports (getProtocolSetWithSingleProtocol x.protocol) x ↔
      spec.Matches x.dst x.protocol (dst_port P x.rest) := by
  obtain ⟨unexcluded, makes⟩ := makes
  have valid := PortProperties.dst_port_valid (P := P) x.rest
  rw [unexcluded]
  cases spec with
  | all =>
    rw [makes.1]
    simp [NamedAt, PortSpec.Matches, PortSet.allPortsInterval, valid]
  | number port =>
    rw [makes.1, makes.2]
    simp [NamedAt, PortSpec.Matches]
  | range port endPort =>
    rw [makes.1, makes.2]
    simp [NamedAt, PortSpec.Matches]
  | named name =>
    rw [makes.1, makes.2]
    simp [NamedAt, PortSpec.Matches, getProtocolSetWithSingleProtocol]

omit [Peers E] in
theorem mem_portProps {src_pods dst_pods : PeerSet E} {props : P}
    (parsed : portProps unicode src_pods dst_pods port = .ok props) :
    x ∈ props ↔ (x.src ∈ src_pods ∧ x.dst ∈ dst_pods) ∧
      EntryMatches port x.dst x.protocol (dst_port P x.rest) := by
  unfold portProps at parsed
  obtain ⟨⟨protocol, dest_port_set⟩, read, parsed⟩ := bind_ok.mp parsed
  obtain ⟨same, makes⟩ := parsePort_ok read
  rw [← Except.ok.inj parsed, EntryMatches, ← same]
  split
  · rename_i nothing
    rcases nothing with rfl | rfl <;> simp
  · rw [mem_makeConnPropsOfPorts]
    simp only [ConnectivityCube.Admits, Option.some.injEq, forall_eq', Option.getD_some]
    by_cases through : x.protocol = protocol
    · subst through
      rw [makes_matches makes]
      simp [getProtocolSetWithSingleProtocol]
    · have apart : x.protocol ∉ getProtocolSetWithSingleProtocol protocol := by
        simpa [getProtocolSetWithSingleProtocol] using through
      tauto

omit [Peers E] in
theorem mem_ruleProps {src_pods dst_pods : PeerSet E} {ports_array : List Yaml} {props : P}
    (parsed : ruleProps unicode src_pods dst_pods ports_array = .ok props) :
    x ∈ props ↔ (x.src ∈ src_pods ∧ x.dst ∈ dst_pods) ∧ (ports_array = [] ∨
      ∃ port ∈ ports_array, EntryMatches port x.dst x.protocol (dst_port P x.rest)) := by
  unfold ruleProps at parsed
  split at parsed
  · rename_i empty
    have valid := PortProperties.dst_port_valid (P := P) x.rest
    rw [← Except.ok.inj parsed, mem_makeConnPropsOfPorts, empty]
    simp [ConnectivityCube.Admits, PortSet.init, PortSet.allPortsInterval, NamedAt, valid]
  · rename_i given
    rw [ExactSet.mem_foldlM_union parsed, or_iff_right given]
    constructor
    · rintro ⟨port, listed, props, read, inside⟩
      obtain ⟨ends, matched⟩ := (mem_portProps read).mp inside
      exact ⟨ends, port, listed, matched⟩
    · rintro ⟨ends, port, listed, matched⟩
      obtain ⟨props, read⟩ := foldlM_each parsed listed
      exact ⟨port, listed, props, read, (mem_portProps read).mpr ⟨ends, matched⟩⟩

omit [NamedPorts E] in
theorem mem_rulePeers {peer_container : PeerContainer E}
    {parse_peer : Yaml → Except ParseError (PeerSet E)} {peer_array : List Yaml}
    {res_pods : PeerSet E} {e : E}
    (parsed : rulePeers peer_container parse_peer peer_array = .ok res_pods) :
    e ∈ res_pods ↔ RulePeer peer_container parse_peer peer_array e := by
  unfold rulePeers at parsed
  unfold RulePeer
  split at parsed
  · rename_i empty
    rw [← Except.ok.inj parsed, empty]
    simp
  · rename_i given
    rw [ExactSet.mem_foldlM_finset parsed]
    simp [given]

/-- The connections of a parsed rule are those between its two sides over one of its ports, or over
any port where it has no ports. -/
theorem parseRule_contains {peer_container : PeerContainer E}
    {parse_peer : Yaml → Except ParseError (PeerSet E)} {rule : Yaml} {peer_array_key : String}
    {selected : PeerSet E} {res : K8sPolicyRule P}
    (parsed : parseIngressEgressRule unicode peer_container parse_peer rule peer_array_key selected =
      .ok res) (x : Flow E κ) :
    x ∈ res.props ↔
      OnSides peer_container parse_peer rule peer_array_key selected x.src x.dst ∧
      ((rule.field "ports").toList = [] ∨ ∃ port ∈ (rule.field "ports").toList,
        EntryMatches port x.dst x.protocol (dst_port P x.rest)) := by
  unfold parseIngressEgressRule at parsed
  obtain ⟨_, _, parsed⟩ := bind_ok.mp parsed
  obtain ⟨_, peersRead, parsed⟩ := bind_ok.mp parsed
  obtain ⟨peer_array, peersListed, parsed⟩ := bind_ok.mp parsed
  obtain ⟨res_pods, pods, parsed⟩ := bind_ok.mp parsed
  obtain ⟨_, portsRead, parsed⟩ := bind_ok.mp parsed
  obtain ⟨ports_array, portsListed, parsed⟩ := bind_ok.mp parsed
  obtain ⟨props, read, parsed⟩ := bind_ok.mp parsed
  rw [← Except.ok.inj parsed, mem_ruleProps read, (Yaml.get_ok.mp portsRead).2,
    Yaml.asList_toList portsListed]
  apply and_congr_left'
  unfold OnSides
  rw [(Yaml.get_ok.mp peersRead).2, Yaml.asList_toList peersListed]
  by_cases ingress : peer_array_key = "from"
  · rw [if_pos ingress, if_pos ingress, if_pos ingress, mem_rulePeers pods]
  · rw [if_neg ingress, if_neg ingress, if_neg ingress, mem_rulePeers pods]

end Parsed

section OnePod

instance : NamedPorts PeerKind where
  named_ports peer name := if peer = .pod ∧ name = "http" then some (8080, tcp) else none

def mixedRule : Yaml := .dict [("from", .list [.dict [("podSelector", .dict [])]]),
  ("ports", .list [.dict [("port", .int 80), ("protocol", .str "UDP")],
    .dict [("port", .str "http")], .dict [("port", .int 1000), ("endPort", .int 2000)],
    .dict [("protocol", .str "SCTP")]])]

theorem mixedRule_contains : ∃ res, parseIngressEgressRule (fun _ => false) ⟨{.pod, .ipBlock}⟩
    (fun _ => .ok {.ipBlock}) mixedRule "from" {.pod} = .ok res ∧
    ∀ x : Flow PeerKind (Fin 65535), x ∈ (res.props : FlowSet PeerKind (Fin 65535)) ↔
      OnSides ⟨{.pod, .ipBlock}⟩ (fun _ => .ok {.ipBlock}) mixedRule "from" {.pod} x.src x.dst ∧
      ((mixedRule.field "ports").toList = [] ∨ ∃ port ∈ (mixedRule.field "ports").toList,
        EntryMatches port x.dst x.protocol
          (dst_port (FlowSet PeerKind (Fin 65535)) x.rest)) := by
  have run : ∃ res : K8sPolicyRule (FlowSet PeerKind (Fin 65535)),
      parseIngressEgressRule (fun _ => false) ⟨{.pod, .ipBlock}⟩ (fun _ => .ok {.ipBlock}) mixedRule
        "from" {.pod} = .ok res := ⟨_, rfl⟩
  obtain ⟨res, parsed⟩ := run
  exact ⟨res, parsed, parseRule_contains parsed⟩

end OnePod

end K8sPolicyYamlParser
end Nca.Parsers
