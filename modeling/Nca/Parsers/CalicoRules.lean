import Nca.CoreDS.RuleCubes
import Nca.Lib.Texts
import Nca.Parsers.K8sPolicyRules

/-!
The rules of Calico policies: their ports, ICMP data and protocols. The peers of an entity rule are
found by its selectors and nets.
-/

namespace Nca.CoreDS.PortSet

/-- `self |= other`. -/
def ior (self other : PortSet) : PortSet where
  port_set := self.port_set ∪ other.port_set
  named_ports := self.named_ports ∪ other.named_ports
  excluded_named_ports := self.excluded_named_ports \ other.named_ports

/-- `self -= other`. -/
def isub (self other : PortSet) : PortSet where
  port_set := self.port_set \ other.port_set
  named_ports := self.named_ports \ other.named_ports
  excluded_named_ports := self.excluded_named_ports ∪ other.named_ports

end Nca.CoreDS.PortSet

namespace Nca.Parsers.CalicoPolicyYamlParser
open CoreDS Lib Lib.Texts NetworkConfig Resources K8sPolicyYamlParser

section Ports

-- the values of decimal digits beyond ASCII
variable (digits : Char → Option Nat)

def digitValue (c : Char) : Option Nat := if c.isDigit then some (c.toNat - '0'.toNat) else digits c

/-- The digits behind the first one; a single underscore may stand between two digits. -/
def readDigits (found : Nat) : Str → Option Nat
  | [] => some found
  | '_' :: c :: s => (digitValue digits c).bind fun d => readDigits (10 * found + d) s
  | c :: s => (digitValue digits c).bind fun d => readDigits (10 * found + d) s

def readNat : Str → Option Nat
  | [] => none
  | c :: s => (digitValue digits c).bind fun d => readDigits digits d s

/-- `int(text)`. -/
def readInt (text : Str) : Option Int :=
  match strip text with
  | '-' :: s => (readNat digits s).map fun n => -(n : Int)
  | '+' :: s => (readNat digits s).map fun n => (n : Int)
  | s => (readNat digits s).map fun n => (n : Int)

/-- The ends of a port range that a text gives, if it gives one. -/
def readRange (port : Str) : Option (Int × Int) :=
  if port.count ':' = 1 then
    match readInt digits (port.takeWhile (· ≠ ':')), readInt digits (port.dropWhile (· ≠ ':')).tail with
    | some left_port, some right_port => some (left_port, right_port)
    | _, _ => none
  else none

def parsePort (port : Yaml) : Except ParseError CoreDS.PortSet :=
  match asNumber port, port with
  | some number, _ => do
    validatePortInDomain number "Port number"
    return (PortSet.init false).addPort (.inl number)
  | none, .str text =>
    match readRange digits text.toList with
    | some (left_port, right_port) => do
      validatePortInDomain left_port "Port number"
      validatePortInDomain right_port "Port number"
      syntaxErrorIf (right_port < left_port) ("Invalid port range: " ++ text)
      return (PortSet.init false).addPortRange left_port right_port
    | none => return (PortSet.init false).addPort (.inr text)
  | none, _ => return PortSet.init false

/-- The part of `_get_rule_ports` about `ports`. -/
def includedPorts (entity_rule : Yaml) (protocol_supports_ports : Bool) :
    Except ParseError CoreDS.PortSet := do
  let ports_array ← entity_rule.get "ports"
  if ports_array.isNull then return PortSet.init true else
    syntaxErrorIf (!protocol_supports_ports)
      "A rule specifying ports must specify a protocol supporting ports"
    (← ports_array.iterate).foldlM (fun rule_ports port => rule_ports.ior <$> parsePort digits port)
      (PortSet.init false)

/-- The part of `_get_rule_ports` about `notPorts`. -/
def withoutNotPorts (entity_rule : Yaml) (protocol_supports_ports : Bool)
    (rule_ports : CoreDS.PortSet) : Except ParseError CoreDS.PortSet := do
  let not_ports_array ← entity_rule.get "notPorts"
  if not_ports_array.isNull then return rule_ports else
    syntaxErrorIf (!protocol_supports_ports)
      "A rule specifying notPorts must specify a protocol supporting ports"
    (← not_ports_array.iterate).foldlM
      (fun rule_ports port => rule_ports.isub <$> parsePort digits port) rule_ports

def getRulePorts (entity_rule : Yaml) (protocol_supports_ports : Bool) :
    Except ParseError CoreDS.PortSet := do
  let rule_ports ← includedPorts digits entity_rule protocol_supports_ports
  withoutNotPorts digits entity_rule protocol_supports_ports rule_ports

end Ports

section Icmp

/-- `validate_value_by_domain` for a domain that starts at zero; the message if it is invalid. -/
def validateByDomain (value : Yaml) (last : Int) (value_name : String) :
    Except ParseError (Option String) :=
  match asNumber value with
  | none => throw .AssertionError
  | some number =>
    if 0 ≤ number ∧ number ≤ last then return none
    else return some (s!"{value_name} must be in the range 0-{last}")

/-- The message for an invalid pair. -/
def checkIcmpCodeTypeValidity (icmp_type icmp_code : Yaml) : Except ParseError (Option String) :=
  if !icmp_code.isNull && icmp_type.isNull then
    return some "ICMP code cannot be specified without a type"
  else do
    match ← validateByDomain icmp_type 254 "ICMP type" with
    | some message => return some message
    | none => if icmp_code.isNull then return none else validateByDomain icmp_code 255 "ICMP code"

/-- The checks of `icmp` and `notICMP`. -/
def checkIcmpData (icmp_data : Yaml) (dict_name : String) : Except ParseError Unit :=
  if icmp_data.isNull then return () else do
    checkFieldsValidity icmp_data dict_name [("type", ⟨0, none⟩), ("code", ⟨0, none⟩)]
    match ← checkIcmpCodeTypeValidity (icmp_data.field "type") (icmp_data.field "code") with
    | none => return ()
    | some err => syntaxError err

/-- `data.get(key) if data is not None else None`. -/
def icmpField (icmp_data : Yaml) (key : String) : Except ParseError Yaml :=
  if icmp_data.isNull then return .null else icmp_data.get key

variable {P E κ : Type} [Fintype E] [DecidableEq E] [NamedPorts E] [RuleProperties P E κ]

/-- The cube of ICMP data; a type or a code counts if it is true in Python. -/
def icmpCube (icmp_type icmp_code : Yaml) (protocol : Fin 256) (src_pods dst_pods : PeerSet E) :
    RuleCube E where
  src_peers := some src_pods
  dst_peers := some dst_pods
  protocols := some (getProtocolSetWithSingleProtocol protocol)
  icmp_type := if icmp_type.truthy then asNumber icmp_type else none
  icmp_code := if icmp_type.truthy && icmp_code.truthy then asNumber icmp_code else none

def parseIcmp (icmp_data not_icmp_data : Yaml) (protocol : Fin 256) (src_pods dst_pods : PeerSet E) :
    Except ParseError P := do
  let icmp_type ← icmpField icmp_data "type"
  let icmp_code ← icmpField icmp_data "code"
  let not_icmp_type ← icmpField not_icmp_data "type"
  let not_icmp_code ← icmpField not_icmp_data "code"
  checkIcmpData icmp_data "ICMP"
  checkIcmpData not_icmp_data "notICMP"
  let conn_props : P := makeConnPropsOfCube (icmpCube icmp_type icmp_code protocol src_pods dst_pods)
  let not_conn_props : P :=
    makeConnPropsOfCube (icmpCube not_icmp_type not_icmp_code protocol src_pods dst_pods)
  if !icmp_data.isNull then
    if !not_icmp_data.isNull then
      if asNumber icmp_type = asNumber not_icmp_type ∧ asNumber icmp_code = asNumber not_icmp_code then
        return conn_props
      else if asNumber icmp_type = asNumber not_icmp_type ∧ icmp_code.isNull then
        return conn_props \ not_conn_props
      else return conn_props
    else return conn_props
  else if !not_icmp_data.isNull then return conn_props \ not_conn_props
  else return conn_props

end Icmp

section Protocols

/-- The protocols that rules give by name. -/
def protocolNames : List (String × Fin 256) :=
  [("TCP", 6), ("UDP", 17), ("ICMP", 1), ("ICMPv6", 58), ("SCTP", 132), ("UDPLite", 136)]

def parseProtocol (protocol : Yaml) : Except ParseError (Option (Fin 256)) :=
  match asNumber protocol, protocol with
  | some number, _ =>
    if valid : 0 ≤ number ∧ number ≤ 255 then return some ⟨number.toNat, by omega⟩
    else syntaxError "protocol must be a string or an integer in the range 0-255"
  | none, .null => return none
  | none, .str name =>
    match Dict.get protocolNames name with
    | some number => return some number
    | none => syntaxError ("invalid protocol name: " ++ name)
  | none, _ => throw .TypeError

def protocolSupportsPorts (protocol : Option (Fin 256)) : Bool :=
  protocol == some 6 || protocol == some 17 || protocol == some 132

def protocolIsIcmp (protocol : Fin 256) : Bool := protocol == 1 || protocol == 58

end Protocols

section Rules

variable {P E κ : Type} [Fintype E] [DecidableEq E] [Peers E] [NamedPorts E] [RuleProperties P E κ]
  (digits : Char → Option Nat) (get_rule_peers : Yaml → Except ParseError (PeerSet E))
  (peer_container : PeerContainer E)

def parseEntityRule (entity_rule : Yaml) (protocol_supports_ports : Bool) :
    Except ParseError (PeerSet E × CoreDS.PortSet) := do
  checkFieldsValidity entity_rule "network policy peer"
    [("nets", ⟨0, none⟩), ("notNets", ⟨0, none⟩), ("selector", ⟨0, none⟩), ("notSelector", ⟨0, none⟩),
      ("namespaceSelector", ⟨0, none⟩), ("ports", ⟨0, none⟩), ("notPorts", ⟨0, none⟩),
      ("serviceAccounts", ⟨2, none⟩)]
  let res_pods ← get_rule_peers entity_rule
  return (res_pods, ← getRulePorts digits entity_rule protocol_supports_ports)

/-- The peers and ports of the source or the destination of a rule; all of them if it is missing. -/
def entityOf (entity_rule : Yaml) (protocol_supports_ports : Bool) :
    Except ParseError (PeerSet E × CoreDS.PortSet) :=
  if entity_rule.truthy then parseEntityRule digits get_rule_peers entity_rule protocol_supports_ports
  else return (peer_container.getAllPeersGroup true true, PortSet.init true)

/-- `rule['action']` as a type of actions. -/
def parseAction (action : Yaml) : Except ParseError CalicoActionType :=
  match action with
  | .str "Deny" => return .Deny
  | .str "Allow" => return .Allow
  | .str "Log" => return .Log
  | .str "Pass" => return .Pass
  | .str action => syntaxError ("Invalid rule action: " ++ action)
  | _ => throw .TypeError

/-- The connections of a rule between its peers. -/
def ruleConns (rule : Yaml) (protocol not_protocol : Option (Fin 256)) (src_res_pods dst_res_pods : PeerSet E)
    (src_res_ports dst_res_ports : CoreDS.PortSet) : Except ParseError P :=
  match protocol, not_protocol with
  | some _, some _ => return ∅
  | some protocol, none =>
    if protocolSupportsPorts (some protocol) then
      return makeConnPropsOfCube { src_ports := some src_res_ports, dst_ports := some dst_res_ports
                                   protocols := some (getProtocolSetWithSingleProtocol protocol)
                                   src_peers := some src_res_pods, dst_peers := some dst_res_pods }
    else if protocolIsIcmp protocol then do
      parseIcmp (← rule.get "icmp") (← rule.get "notICMP") protocol src_res_pods dst_res_pods
    else return makeConnPropsOfCube { protocols := some (getProtocolSetWithSingleProtocol protocol)
                                      src_peers := some src_res_pods, dst_peers := some dst_res_pods }
  | none, some not_protocol =>
    if src_res_pods ≠ ∅ ∧ dst_res_pods ≠ ∅ then
      return makeConnPropsOfCube { protocols := some (Finset.univ.erase not_protocol)
                                   src_peers := some src_res_pods, dst_peers := some dst_res_pods }
    else return ∅
  | none, none =>
    return makeConnPropsOfCube { src_peers := some src_res_pods, dst_peers := some dst_res_pods }

def parseXgressRule (rule : Yaml) (is_ingress : Bool) (policy_selected_eps : PeerSet E) :
    Except ParseError (CalicoPolicyRule P) := do
  checkFieldsValidity rule "ingress/egress rule"
    [("action", ⟨1, none⟩), ("protocol", ⟨0, none⟩), ("notProtocol", ⟨0, none⟩), ("icmp", ⟨0, none⟩),
      ("notICMP", ⟨0, none⟩), ("ipVersion", ⟨0, none⟩), ("source", ⟨0, none⟩),
      ("destination", ⟨0, none⟩), ("http", ⟨2, none⟩)]
  let action ← parseAction (rule.field "action")
  let protocol ← parseProtocol (← rule.get "protocol")
  let not_protocol ← parseProtocol (← rule.get "notProtocol")
  let (src_res_pods, src_res_ports) ← entityOf digits get_rule_peers peer_container
    (← rule.get "source") (protocolSupportsPorts protocol)
  let (dst_res_pods, dst_res_ports) ← entityOf digits get_rule_peers peer_container
    (← rule.get "destination") (protocolSupportsPorts protocol)
  let src_res_pods := if is_ingress then src_res_pods else src_res_pods ∩ policy_selected_eps
  let dst_res_pods := if is_ingress then dst_res_pods ∩ policy_selected_eps else dst_res_pods
  return ⟨action, ← ruleConns rule protocol not_protocol src_res_pods dst_res_pods src_res_ports
    dst_res_ports⟩

end Rules
end Nca.Parsers.CalicoPolicyYamlParser
