import Nca.Parsers.CalicoIcmp

/-!
The connections of Calico rules without ICMP data: those between the peers of the rule that have its
protocols and ports.
-/

namespace Nca.Parsers.CalicoPolicyYamlParser
open CoreDS Lib NetworkConfig Resources K8sPolicyYamlParser

section Fields

/-- The protocol that a field gives by its number or its name. -/
def protocolOf (protocol : Yaml) : Option (Fin 256) :=
  match asNumber protocol, protocol with
  | some number, _ => some (Fin.ofNat 256 number.toNat)
  | none, .str name => Dict.get protocolNames name
  | none, _ => none

theorem parseProtocol_ok {protocol : Yaml} {found : Option (Fin 256)}
    (parsed : parseProtocol protocol = .ok found) : protocolOf protocol = found := by
  unfold parseProtocol at parsed
  unfold protocolOf
  cases read : asNumber protocol with
  | some number =>
    rw [read] at parsed
    dsimp only at parsed ⊢
    split at parsed
    · rename_i valid
      rw [← Except.ok.inj parsed, Option.some.injEq]
      apply Fin.ext
      exact Nat.mod_eq_of_lt (by omega)
    · cases parsed
  | none =>
    rw [read] at parsed
    cases protocol with
    | null => exact Except.ok.inj parsed
    | str name =>
      dsimp only at parsed ⊢
      split at parsed
      · rename_i number known
        rw [known]
        exact Except.ok.inj parsed
      · cases parsed
    | _ => cases parsed

variable {digits : Char → Option Nat} {entity_rule : Yaml} {set : CoreDS.PortSet}

/-- Without a protocol that supports ports, all ports are left. -/
theorem getRulePorts_unsupported (parsed : getRulePorts digits entity_rule false = .ok set) :
    set = PortSet.init true := by
  obtain ⟨start, included, parsed⟩ := bind_ok.mp parsed
  obtain ⟨ports_array, _, included⟩ := bind_ok.mp included
  obtain ⟨not_ports_array, _, parsed⟩ := bind_ok.mp parsed
  split at included
  · split at parsed
    · rw [← Except.ok.inj parsed, ← Except.ok.inj included]
    · cases parsed
  · cases included

variable {E : Type} [Fintype E] [DecidableEq E] [Peers E]
  {get_rule_peers : Yaml → Except ParseError (PeerSet E)} {peer_container : PeerContainer E}

theorem entityOf_unsupported {peers : PeerSet E}
    (parsed : entityOf digits get_rule_peers peer_container entity_rule false = .ok (peers, set)) :
    set = PortSet.init true := by
  unfold entityOf at parsed
  split at parsed
  · obtain ⟨_, _, parsed⟩ := bind_ok.mp parsed
    obtain ⟨_, _, parsed⟩ := bind_ok.mp parsed
    obtain ⟨ports, read, parsed⟩ := bind_ok.mp parsed
    rw [← (Prod.mk.inj (Except.ok.inj parsed)).2]
    exact getRulePorts_unsupported read
  · exact (Prod.mk.inj (Except.ok.inj parsed)).2.symm

end Fields

section Meaning

variable {E κ : Type} [NamedPorts E]

/-- The peers and the ports of the two sides of a rule. -/
structure RuleSides (E : Type) where
  src_pods : PeerSet E
  dst_pods : PeerSet E
  src_ports : CoreDS.PortSet
  dst_ports : CoreDS.PortSet

/-- The sides of a rule; the selected peers are on the side that the policy is about. -/
def ruleSides [DecidableEq E] (is_ingress : Bool) (policy_selected_eps : PeerSet E)
    (src dst : PeerSet E × CoreDS.PortSet) : RuleSides E where
  src_pods := if is_ingress then src.1 else src.1 ∩ policy_selected_eps
  dst_pods := if is_ingress then dst.1 ∩ policy_selected_eps else dst.1
  src_ports := src.2
  dst_ports := dst.2

variable (P : Type) [RuleProperties P E κ] (sides : RuleSides E) (rule : Yaml) (x : Flow E κ)

/-- The connection is between the peers of the rule, over its protocols. -/
def ProtocolMatches : Prop :=
  (x.src ∈ sides.src_pods ∧ x.dst ∈ sides.dst_pods) ∧
  (∀ protocol, protocolOf (rule.field "protocol") = some protocol → x.protocol = protocol) ∧
  ∀ protocol, protocolOf (rule.field "notProtocol") = some protocol → x.protocol ≠ protocol

/-- The connection is one of the protocols and the ports of the rule. -/
def RuleMatches : Prop :=
  ProtocolMatches sides rule x ∧
  sides.src_ports.Holds x.src {x.protocol} (src_port P x.rest) ∧
  sides.dst_ports.Holds x.dst {x.protocol} (dst_port P x.rest)

/-- The rule does not have two different protocols, unless nothing matches it, and no name among its
source ports changes which connections match. -/
def RuleRead (P : Type) {E κ : Type} [NamedPorts E] [RuleProperties P E κ] (sides : RuleSides E)
    (rule : Yaml) : Prop :=
  match protocolOf (rule.field "protocol"), protocolOf (rule.field "notProtocol") with
  | some protocol, some not_protocol =>
      protocol ≠ not_protocol → ∀ x : Flow E κ, ¬ RuleMatches P sides rule x
  | _, _ => ∀ x : Flow E κ, ProtocolMatches sides rule x →
      sides.dst_ports.Holds x.dst {x.protocol} (dst_port P x.rest) →
      (sides.src_ports.Holds x.src {x.protocol} (src_port P x.rest) ↔
        src_port P x.rest ∈ sides.src_ports.port_set)

end Meaning

section Parsed

variable {P E κ : Type} [Fintype E] [DecidableEq E] [Peers E] [NamedPorts E] [RuleProperties P E κ]
  {digits : Char → Option Nat} {get_rule_peers : Yaml → Except ParseError (PeerSet E)}
  {peer_container : PeerContainer E} {rule : Yaml} {x : Flow E κ}

omit [DecidableEq E] [Peers E] in
theorem mem_cube {src_pods dst_pods : PeerSet E} {protocols : Option ProtocolSet} :
    x ∈ (makeConnPropsOfCube { src_peers := some src_pods, dst_peers := some dst_pods
                               protocols := protocols } : P) ↔
      (x.src ∈ src_pods ∧ x.dst ∈ dst_pods) ∧ ∀ found, protocols = some found → x.protocol ∈ found := by
  have ports : (PortSet.init true).Holds x.dst (protocols.getD Finset.univ) (dst_port P x.rest) :=
    holds_all (PortProperties.dst_port_valid x.rest)
  rw [mem_makeConnPropsOfCube]
  simp only [AdmitsRest, ConnectivityCube.Admits, Option.some.injEq, forall_eq', Option.getD_none,
    ports, and_true, reduceCtorEq, false_implies, implies_true, and_assoc]

omit [Peers E] in
/-- The connections of the branches that do not look at ICMP data. -/
theorem mem_ruleConns {protocol not_protocol : Option (Fin 256)} {sides : RuleSides E} {props : P}
    (icmp : rule.get "icmp" = .ok .null) (not_icmp : rule.get "notICMP" = .ok .null)
    (allPorts : protocolSupportsPorts protocol = false →
      sides.src_ports = PortSet.init true ∧ sides.dst_ports = PortSet.init true)
    (run : ruleConns rule protocol not_protocol sides.src_pods sides.dst_pods sides.src_ports
      sides.dst_ports = .ok props) :
    x ∈ props ↔ ¬ (protocol.isSome ∧ not_protocol.isSome) ∧
      (x.src ∈ sides.src_pods ∧ x.dst ∈ sides.dst_pods) ∧
      (∀ p, protocol = some p → x.protocol = p) ∧ (∀ p, not_protocol = some p → x.protocol ≠ p) ∧
      src_port P x.rest ∈ sides.src_ports.port_set ∧
      sides.dst_ports.Holds x.dst {x.protocol} (dst_port P x.rest) := by
  have free : protocolSupportsPorts protocol = false → src_port P x.rest ∈ sides.src_ports.port_set ∧
      sides.dst_ports.Holds x.dst {x.protocol} (dst_port P x.rest) := by
    intro unsupported
    obtain ⟨src_all, dst_all⟩ := allPorts unsupported
    rw [src_all, dst_all]
    exact ⟨Finset.mem_Icc.mpr (RuleProperties.src_port_valid x.rest),
      holds_all (PortProperties.dst_port_valid x.rest)⟩
  unfold ruleConns at run
  cases protocol with
  | none =>
    have ports := free rfl
    cases not_protocol with
    | none =>
      rw [← Except.ok.inj run, mem_cube]
      simp [ports]
    | some not_protocol =>
      dsimp only at run
      split at run
      · rw [← Except.ok.inj run, mem_cube]
        simp [ports]
      · rename_i empty
        have none : ¬ (x.src ∈ sides.src_pods ∧ x.dst ∈ sides.dst_pods) := fun ⟨inSrc, inDst⟩ =>
          empty ⟨Finset.ne_empty_of_mem inSrc, Finset.ne_empty_of_mem inDst⟩
        rw [← Except.ok.inj run]
        simp [none]
  | some protocol =>
    cases not_protocol with
    | some not_protocol =>
      rw [← Except.ok.inj run]
      simp
    | none =>
      dsimp only at run
      split at run
      · rw [← Except.ok.inj run, mem_makeConnPropsOfCube]
        simp only [AdmitsRest, ConnectivityCube.Admits, Option.some.injEq, forall_eq', Option.getD_some,
          getProtocolSetWithSingleProtocol, Finset.mem_singleton, reduceCtorEq, false_implies,
          implies_true, and_true, true_and, and_assoc, Option.isSome_some, Option.isSome_none,
          Bool.false_eq_true, and_false, not_false_eq_true]
        by_cases same : x.protocol = protocol
        · rw [same]
        · simp [same]
      · rename_i unsupported
        have ports := free (Bool.not_eq_true _ ▸ unsupported)
        split at run
        · rw [icmp, ok_bind, not_icmp, ok_bind] at run
          obtain ⟨res, parsed, taken⟩ : ∃ res : P, parseIcmp .null .null protocol sides.src_pods
            sides.dst_pods = .ok res ∧ _ := parseIcmp_taken (Or.inl rfl) (Or.inl rfl)
          rw [← Except.ok.inj (parsed.symm.trans run), taken]
          simp [ports, icmpItem, Yaml.isNull, IcmpTaken, and_assoc]
        · rw [← Except.ok.inj run, mem_cube]
          simp [ports, getProtocolSetWithSingleProtocol]

theorem field_get {value : Yaml} {key : String} {entries : List (String × Yaml)}
    (dict : value = .dict entries) : value.get key = .ok (value.field key) := by
  rw [dict]
  rfl

/-- The connections of a rule without ICMP data are those that match it, if and only if the rule is
read as it is meant. -/
theorem parseXgressRule_exact {is_ingress : Bool} {eps : PeerSet E} {res : CalicoPolicyRule P}
    (icmp : rule.field "icmp" = .null) (not_icmp : rule.field "notICMP" = .null)
    (parsed : parseXgressRule digits get_rule_peers peer_container rule is_ingress eps = .ok res) :
    ∃ src dst,
      entityOf digits get_rule_peers peer_container (rule.field "source")
        (protocolSupportsPorts (protocolOf (rule.field "protocol"))) = .ok src ∧
      entityOf digits get_rule_peers peer_container (rule.field "destination")
        (protocolSupportsPorts (protocolOf (rule.field "protocol"))) = .ok dst ∧
      ((∀ x : Flow E κ, x ∈ res.props ↔ RuleMatches P (ruleSides is_ingress eps src dst) rule x) ↔
        RuleRead P (ruleSides is_ingress eps src dst) rule) := by
  unfold parseXgressRule at parsed
  obtain ⟨_, checked, parsed⟩ := bind_ok.mp parsed
  obtain ⟨entries, dict, _⟩ := checkFieldsValidity_ok.mp checked
  obtain ⟨action, _, parsed⟩ := bind_ok.mp parsed
  rw [field_get dict, ok_bind] at parsed
  obtain ⟨protocol, protocolRead, parsed⟩ := bind_ok.mp parsed
  rw [field_get dict, ok_bind] at parsed
  obtain ⟨not_protocol, notProtocolRead, parsed⟩ := bind_ok.mp parsed
  rw [field_get dict, ok_bind] at parsed
  obtain ⟨⟨src_pods, src_ports⟩, srcRead, parsed⟩ := bind_ok.mp parsed
  dsimp only at parsed
  rw [field_get dict, ok_bind] at parsed
  obtain ⟨⟨dst_pods, dst_ports⟩, dstRead, parsed⟩ := bind_ok.mp parsed
  obtain ⟨props, run, parsed⟩ := bind_ok.mp parsed
  rw [parseProtocol_ok protocolRead]
  refine ⟨(src_pods, src_ports), (dst_pods, dst_ports), srcRead, dstRead, ?_⟩
  generalize whole : ruleSides is_ingress eps (src_pods, src_ports) (dst_pods, dst_ports) = sides
  have allPorts : protocolSupportsPorts protocol = false →
      sides.src_ports = PortSet.init true ∧ sides.dst_ports = PortSet.init true := by
    intro unsupported
    rw [unsupported] at srcRead dstRead
    rw [← whole]
    exact ⟨entityOf_unsupported srcRead, entityOf_unsupported dstRead⟩
  have run' : ruleConns rule protocol not_protocol sides.src_pods sides.dst_pods sides.src_ports
      sides.dst_ports = .ok props := by
    rw [← whole]
    exact run
  have inside : ∀ x : Flow E κ, x ∈ res.props ↔ ¬ (protocol.isSome ∧ not_protocol.isSome) ∧
      ProtocolMatches sides rule x ∧ src_port P x.rest ∈ sides.src_ports.port_set ∧
      sides.dst_ports.Holds x.dst {x.protocol} (dst_port P x.rest) := by
    intro x
    rw [← Except.ok.inj parsed, mem_ruleConns (icmp ▸ field_get dict) (not_icmp ▸ field_get dict)
      allPorts run', ProtocolMatches, parseProtocol_ok protocolRead, parseProtocol_ok notProtocolRead]
    simp only [and_assoc]
  simp only [inside, RuleMatches]
  unfold RuleRead
  rw [parseProtocol_ok protocolRead, parseProtocol_ok notProtocolRead]
  have one : ∀ x : Flow E κ, (ProtocolMatches sides rule x ∧ src_port P x.rest ∈ sides.src_ports.port_set ∧
      sides.dst_ports.Holds x.dst {x.protocol} (dst_port P x.rest) ↔ ProtocolMatches sides rule x ∧
        sides.src_ports.Holds x.src {x.protocol} (src_port P x.rest) ∧
        sides.dst_ports.Holds x.dst {x.protocol} (dst_port P x.rest)) ↔
      (ProtocolMatches sides rule x → sides.dst_ports.Holds x.dst {x.protocol} (dst_port P x.rest) →
        (sides.src_ports.Holds x.src {x.protocol} (src_port P x.rest) ↔
          src_port P x.rest ∈ sides.src_ports.port_set)) := by
    intro x
    tauto
  cases protocol with
  | none => simp [one]
  | some protocol =>
    cases not_protocol with
    | none => simp [one]
    | some not_protocol =>
      simp only [Option.isSome_some, and_self, not_true_eq_false, false_and, false_iff]
      show (∀ x : Flow E κ, ¬ RuleMatches P sides rule x) ↔ _
      apply Iff.intro (fun empty _ => empty)
      intro apart x inRule
      apply apart _ x inRule
      intro same
      obtain ⟨⟨_, isProtocol, notProtocol⟩, _⟩ := inRule
      rw [parseProtocol_ok protocolRead] at isProtocol
      rw [parseProtocol_ok notProtocolRead, ← same] at notProtocol
      exact notProtocol protocol rfl (isProtocol protocol rfl)

end Parsed

section OnePod

def protocolsRule (protocol not_protocol : Yaml) : Yaml :=
  .dict [("action", .str "Allow"), ("protocol", protocol), ("notProtocol", not_protocol)]

/-- All the peers are of interest, and all the ports. -/
def podSides : RuleSides PeerKind :=
  ruleSides true {.pod} ((⟨{.pod}⟩ : PeerContainer PeerKind).getAllPeersGroup true true, PortSet.init true)
    ((⟨{.pod}⟩ : PeerContainer PeerKind).getAllPeersGroup true true, PortSet.init true)

def tcpConns : CalicoPolicyRule (FlowSet PeerKind RestDims) where
  action := .Allow
  props := makeConnPropsOfCube {
    src_ports := some (PortSet.init true), dst_ports := some (PortSet.init true), protocols := some {6}
    src_peers := some podSides.src_pods, dst_peers := some podSides.dst_pods }

theorem tcp_exact : ∃ src dst,
    entityOf (fun _ => none) (fun _ => .ok ∅) ⟨{.pod}⟩ ((protocolsRule (.str "TCP") .null).field "source")
      (protocolSupportsPorts (protocolOf ((protocolsRule (.str "TCP") .null).field "protocol"))) = .ok src ∧
    entityOf (fun _ => none) (fun _ => .ok ∅) ⟨{.pod}⟩
      ((protocolsRule (.str "TCP") .null).field "destination")
      (protocolSupportsPorts (protocolOf ((protocolsRule (.str "TCP") .null).field "protocol"))) = .ok dst ∧
    ((∀ x : Flow PeerKind RestDims,
        x ∈ tcpConns.props ↔ RuleMatches (FlowSet PeerKind RestDims) (ruleSides true {.pod} src dst)
          (protocolsRule (.str "TCP") .null) x) ↔
      RuleRead (FlowSet PeerKind RestDims) (ruleSides true {.pod} src dst)
        (protocolsRule (.str "TCP") .null)) := by
  have parsed : parseXgressRule (fun _ => none) (fun _ => .ok ∅) ⟨{.pod}⟩ (protocolsRule (.str "TCP") .null)
      true {.pod} = .ok tcpConns := rfl
  exact parseXgressRule_exact rfl rfl parsed

/-- TCP matches a rule for TCP but not for UDP, which has no connections. -/
theorem tcpNotUdp_empty :
    parseXgressRule (fun _ => none) (fun _ => .ok ∅) ⟨{.pod}⟩ (protocolsRule (.str "TCP") (.str "UDP")) true
      {.pod} = .ok (⟨.Allow, ∅⟩ : CalicoPolicyRule (FlowSet PeerKind RestDims)) ∧
    ∃ x : Flow PeerKind RestDims, RuleMatches (FlowSet PeerKind RestDims) podSides
      (protocolsRule (.str "TCP") (.str "UDP")) x := by
  apply And.intro rfl
  have tcp : protocolOf ((protocolsRule (.str "TCP") (.str "UDP")).field "protocol") = some 6 := by decide
  have udp : protocolOf ((protocolsRule (.str "TCP") (.str "UDP")).field "notProtocol") = some 17 := by decide
  refine ⟨⟨.pod, .pod, 6, ⟨1, 1, 0, 0⟩⟩, ⟨by decide, ?_, ?_⟩, holds_all (by decide), holds_all (by decide)⟩
  · intro protocol isProtocol
    exact Option.some.inj (tcp.symm.trans isProtocol)
  · intro protocol notProtocol
    rw [← Option.some.inj (udp.symm.trans notProtocol)]
    decide

end OnePod
end Nca.Parsers.CalicoPolicyYamlParser
