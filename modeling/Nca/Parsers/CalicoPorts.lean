import Nca.Parsers.CalicoRules

/-!
The ports of Calico rules. Numbers and names of ports meet only when the names are resolved, and
numbers that `notPorts` excludes are not excluded from what the names of `ports` stand for.
-/

namespace Nca.Parsers.CalicoPolicyYamlParser
open CoreDS Lib NetworkConfig Resources K8sPolicyYamlParser

section Entries

variable {E : Type} [NamedPorts E] (digits : Char → Option Nat)

/-- The port is the number of the entry, or is in its range. -/
def NumberMatches (entry : Yaml) (port : Int) : Prop :=
  match asNumber entry, entry with
  | some number, _ => port = number
  | none, .str text => ∃ range, readRange digits text.toList = some range ∧
      range.1 ≤ port ∧ port ≤ range.2
  | none, _ => False

/-- The entry is a named port. -/
def IsPortName (entry : Yaml) (name : String) : Prop :=
  entry = .str name ∧ readRange digits name.toList = none

/-- The entry is a name that the peer defines with this number and protocol. -/
def NameMatches (entry : Yaml) (peer : E) (protocol : Fin 256) (port : Int) : Prop :=
  ∃ name, IsPortName digits entry name ∧
    NamedPorts.named_ports peer name = some (port, protocol)

def PortMatches (entry : Yaml) (peer : E) (protocol : Fin 256) (port : Int) : Prop :=
  NumberMatches digits entry port ∨ NameMatches digits entry peer protocol port

/-- A number or the ends of a range are port numbers, and a range is not empty. -/
def PortValid (entry : Yaml) : Prop :=
  (∃ number, asNumber entry = some number ∧ 1 ≤ number ∧ number ≤ 65535) ∨
  ∃ text, entry = .str text ∧ ∀ range, readRange digits text.toList = some range →
    (1 ≤ range.1 ∧ range.1 ≤ 65535) ∧ (1 ≤ range.2 ∧ range.2 ≤ 65535) ∧ range.1 ≤ range.2

variable {digits} {entry : Yaml}

theorem validatePort_ok {value : Int} {value_name : String} (inside : 1 ≤ value ∧ value ≤ 65535) :
    validatePortInDomain value value_name = .ok () := by
  unfold validatePortInDomain
  exact syntaxErrorIf_pass (not_not.mpr inside) _

/-- What the port set of an entry has. -/
theorem parsePort_makes (valid : PortValid digits entry) : ∃ set, parsePort digits entry = .ok set ∧
    (∀ port, port ∈ set.port_set ↔ NumberMatches digits entry port) ∧
    ∀ name, name ∈ set.named_ports ↔ IsPortName digits entry name := by
  rcases valid with ⟨number, read, inside⟩ | ⟨text, rfl, inside⟩
  · have unnamed : ∀ name, ¬ IsPortName digits entry name := by
      rintro name ⟨rfl, _⟩
      cases read
    unfold parsePort NumberMatches
    rw [read]
    dsimp only
    rw [validatePort_ok inside, ok_bind]
    refine ⟨_, rfl, ?_, ?_⟩
    · simp [PortSet.addPort, PortSet.init]
    · intro name
      simp [PortSet.addPort, PortSet.init, unnamed]
  · have read : asNumber (.str text) = none := rfl
    unfold parsePort NumberMatches IsPortName
    rw [read]
    dsimp only
    cases ranged : readRange digits text.toList with
    | none =>
      refine ⟨_, rfl, ?_, ?_⟩
      · simp [PortSet.addPort, PortSet.init]
      · intro name
        constructor
        · intro same
          obtain rfl : name = text := by simpa [PortSet.addPort, PortSet.init] using same
          exact ⟨rfl, ranged⟩
        · rintro ⟨same, _⟩
          cases same
          simp [PortSet.addPort, PortSet.init]
    | some range =>
      obtain ⟨left, right, ordered⟩ := inside range ranged
      dsimp only
      rw [validatePort_ok left, ok_bind, validatePort_ok right, ok_bind,
        syntaxErrorIf_pass (not_lt.mpr ordered), ok_bind]
      refine ⟨_, rfl, ?_, ?_⟩
      · simp [PortSet.addPortRange, PortSet.init]
      · intro name
        constructor
        · intro inside
          simp [PortSet.addPortRange, PortSet.init] at inside
        · rintro ⟨same, unread⟩
          cases same
          rw [ranged] at unread
          cases unread

end Entries

section Lists

variable {digits : Char → Option Nat} {items : List Yaml}

theorem foldlM_ior (start : CoreDS.PortSet) (valid : ∀ entry ∈ items, PortValid digits entry) :
    ∃ set, items.foldlM (fun ports port => ports.ior <$> parsePort digits port) start = .ok set ∧
      (∀ port, port ∈ set.port_set ↔
        port ∈ start.port_set ∨ ∃ entry ∈ items, NumberMatches digits entry port) ∧
      (∀ name, name ∈ set.named_ports ↔
        name ∈ start.named_ports ∨ ∃ entry ∈ items, IsPortName digits entry name) ∧
      ∀ name ∈ set.excluded_named_ports, name ∈ start.excluded_named_ports := by
  induction items generalizing start with
  | nil => exact ⟨start, rfl, by simp, by simp, by simp⟩
  | cons entry items ih =>
    obtain ⟨first, others⟩ := List.forall_mem_cons.mp valid
    obtain ⟨ports, parsed, numbers, names⟩ := parsePort_makes first
    obtain ⟨set, folded, numbers', names', excluded⟩ := ih (start.ior ports) others
    refine ⟨set, ?_, fun port => ?_, fun name => ?_, fun name listed => ?_⟩
    · rw [List.foldlM_cons, parsed]
      exact folded
    · rw [numbers']
      simp [PortSet.ior, numbers, or_assoc]
    · rw [names']
      simp [PortSet.ior, names, or_assoc]
    · exact (Finset.mem_sdiff.mp (excluded name listed)).1

theorem foldlM_isub (start : CoreDS.PortSet) (valid : ∀ entry ∈ items, PortValid digits entry) :
    ∃ set, items.foldlM (fun ports port => ports.isub <$> parsePort digits port) start = .ok set ∧
      (∀ port, port ∈ set.port_set ↔
        port ∈ start.port_set ∧ ¬ ∃ entry ∈ items, NumberMatches digits entry port) ∧
      (∀ name, name ∈ set.named_ports ↔
        name ∈ start.named_ports ∧ ¬ ∃ entry ∈ items, IsPortName digits entry name) ∧
      ∀ name, name ∈ set.excluded_named_ports ↔
        name ∈ start.excluded_named_ports ∨ ∃ entry ∈ items, IsPortName digits entry name := by
  induction items generalizing start with
  | nil => exact ⟨start, rfl, by simp, by simp, by simp⟩
  | cons entry items ih =>
    obtain ⟨first, others⟩ := List.forall_mem_cons.mp valid
    obtain ⟨ports, parsed, numbers, names⟩ := parsePort_makes first
    obtain ⟨set, folded, numbers', names', excluded⟩ := ih (start.isub ports) others
    refine ⟨set, ?_, fun port => ?_, fun name => ?_, fun name => ?_⟩
    · rw [List.foldlM_cons, parsed]
      exact folded
    · rw [numbers']
      simp [PortSet.isub, numbers, and_assoc]
    · rw [names']
      simp [PortSet.isub, names, and_assoc]
    · rw [excluded]
      simp [PortSet.isub, names, or_assoc]

/-- The value of a field that has a list or is missing. -/
def listField (items : Option (List Yaml)) : Yaml := items.elim .null .list

variable {entries : List (String × Yaml)} {ports notPorts : Option (List Yaml)}

theorem includedPorts_makes (given : (Yaml.dict entries).field "ports" = listField ports)
    (valid : ∀ entry ∈ ports.getD [], PortValid digits entry) :
    ∃ set, includedPorts digits (.dict entries) true = .ok set ∧
      (∀ port, port ∈ set.port_set ↔ ports = none ∧ port ∈ PortSet.allPortsInterval ∨
        ∃ entry ∈ ports.getD [], NumberMatches digits entry port) ∧
      (∀ name, name ∈ set.named_ports ↔ ∃ entry ∈ ports.getD [], IsPortName digits entry name) ∧
      ∀ name, name ∉ set.excluded_named_ports := by
  have read : (Yaml.dict entries).get "ports" = .ok (listField ports) := Yaml.get_ok.mpr ⟨⟨_, rfl⟩, given⟩
  unfold includedPorts
  rw [read, ok_bind]
  cases ports with
  | none => exact ⟨_, rfl, by simp [PortSet.init], by simp [PortSet.init], by simp [PortSet.init]⟩
  | some items =>
    obtain ⟨set, folded, numbers, names, excluded⟩ := foldlM_ior (PortSet.init false) valid
    refine ⟨set, folded, ?_, ?_, ?_⟩
    · simp [numbers, PortSet.init]
    · simp [names, PortSet.init]
    · intro name listed
      simpa [PortSet.init] using excluded name listed

/-- What the parsed port set of a rule has. -/
theorem getRulePorts_makes (given : (Yaml.dict entries).field "ports" = listField ports)
    (given' : (Yaml.dict entries).field "notPorts" = listField notPorts)
    (valid : ∀ entry ∈ ports.getD [], PortValid digits entry)
    (valid' : ∀ entry ∈ notPorts.getD [], PortValid digits entry) :
    ∃ set, getRulePorts digits (.dict entries) true = .ok set ∧
      (∀ port, port ∈ set.port_set ↔
        (ports = none ∧ port ∈ PortSet.allPortsInterval ∨
          ∃ entry ∈ ports.getD [], NumberMatches digits entry port) ∧
        ¬ ∃ entry ∈ notPorts.getD [], NumberMatches digits entry port) ∧
      (∀ name, name ∈ set.named_ports ↔
        (∃ entry ∈ ports.getD [], IsPortName digits entry name) ∧
        ¬ ∃ entry ∈ notPorts.getD [], IsPortName digits entry name) ∧
      ∀ name, name ∈ set.excluded_named_ports ↔
        ∃ entry ∈ notPorts.getD [], IsPortName digits entry name := by
  have read : (Yaml.dict entries).get "notPorts" = .ok (listField notPorts) :=
    Yaml.get_ok.mpr ⟨⟨_, rfl⟩, given'⟩
  obtain ⟨start, included, numbers, names, excluded⟩ := includedPorts_makes given valid
  unfold getRulePorts withoutNotPorts
  rw [included, ok_bind, read, ok_bind]
  cases notPorts with
  | none => exact ⟨start, rfl, by simpa using numbers, by simpa using names, by simpa using excluded⟩
  | some items =>
    obtain ⟨set, folded, numbers', names', excluded'⟩ := foldlM_isub start valid'
    refine ⟨set, folded, ?_, ?_, ?_⟩
    · simp [numbers', numbers]
    · simp [names', names]
    · simp [excluded', excluded]

end Lists

section Exact

variable {E : Type} [NamedPorts E]
  {digits : Char → Option Nat} {entries : List (String × Yaml)} {ports notPorts : Option (List Yaml)}

/-- A port is allowed at a peer by `ports` and `notPorts`. -/
def PortAllowed (digits : Char → Option Nat) (ports notPorts : Option (List Yaml)) (peer : E)
    (protocol : Fin 256) (port : Int) : Prop :=
  (ports = none ∨ ∃ entry ∈ ports.getD [], PortMatches digits entry peer protocol port) ∧
  ¬ ∃ entry ∈ notPorts.getD [], PortMatches digits entry peer protocol port

/-- A name among the ports stands for a port that is excluded by its number, and by no name. -/
def PortClash (digits : Char → Option Nat) (ports notPorts : Option (List Yaml)) (peer : E)
    (protocol : Fin 256) (port : Int) : Prop :=
  (∃ entry ∈ ports.getD [], NameMatches digits entry peer protocol port) ∧
  (∃ entry ∈ notPorts.getD [], NumberMatches digits entry port) ∧
  ¬ ∃ entry ∈ notPorts.getD [], NameMatches digits entry peer protocol port

theorem names_resolved (items : List Yaml) (peer : E) (protocol : Fin 256) (port : Int) :
    (∃ entry ∈ items, NameMatches digits entry peer protocol port) ↔
      ∃ name, (∃ entry ∈ items, IsPortName digits entry name) ∧
        NamedPorts.named_ports peer name = some (port, protocol) := by
  constructor
  · intro ⟨entry, listed, name, isName, resolved⟩
    exact ⟨name, ⟨entry, listed, isName⟩, resolved⟩
  · intro ⟨name, ⟨entry, listed, isName⟩, resolved⟩
    exact ⟨entry, listed, name, isName, resolved⟩

/-- The ports of the parsed port set: numbers are excluded before names are resolved. -/
theorem getRulePorts_holds (given : (Yaml.dict entries).field "ports" = listField ports)
    (given' : (Yaml.dict entries).field "notPorts" = listField notPorts)
    (valid : ∀ entry ∈ ports.getD [], PortValid digits entry)
    (valid' : ∀ entry ∈ notPorts.getD [], PortValid digits entry) :
    ∃ set, getRulePorts digits (.dict entries) true = .ok set ∧
      ∀ (peer : E) protocol port, 1 ≤ port ∧ port ≤ 65535 → (set.Holds peer {protocol} port ↔
        ((ports = none ∨ ∃ entry ∈ ports.getD [], NumberMatches digits entry port) ∧
          ¬ (∃ entry ∈ notPorts.getD [], NumberMatches digits entry port) ∨
          ∃ entry ∈ ports.getD [], NameMatches digits entry peer protocol port) ∧
        ¬ ∃ entry ∈ notPorts.getD [], NameMatches digits entry peer protocol port) := by
  obtain ⟨set, parsed, numbers, names, excluded⟩ := getRulePorts_makes given given' valid valid'
  refine ⟨set, parsed, fun peer protocol port inRange => ?_⟩
  have inAll : port ∈ PortSet.allPortsInterval := Finset.mem_Icc.mpr inRange
  have without : (∃ name ∈ set.excluded_named_ports, ∃ other ∈ ({protocol} : ProtocolSet),
      NamedPorts.named_ports peer name = some (port, other)) ↔
      ∃ entry ∈ notPorts.getD [], NameMatches digits entry peer protocol port := by
    rw [names_resolved]
    simp only [excluded, Finset.mem_singleton, exists_eq_left]
  unfold PortSet.Holds
  rw [without]
  apply and_congr_left
  intro unnamed
  rw [names_resolved] at unnamed
  apply or_congr
  · rw [numbers]
    simp [inAll]
  · rw [names_resolved]
    apply exists_congr
    intro name
    simp only [names, Finset.mem_singleton, exists_eq_left]
    constructor
    · exact fun ⟨⟨listed, _⟩, resolved⟩ => ⟨listed, resolved⟩
    · exact fun ⟨listed, resolved⟩ =>
        ⟨⟨listed, fun listed' => unnamed ⟨name, listed', resolved⟩⟩, resolved⟩

theorem clash_iff (all numbered numbered' named named' : Prop) :
    (((all ∨ numbered) ∧ ¬ numbered' ∨ named) ∧ ¬ named' ↔
      (all ∨ numbered ∨ named) ∧ ¬ (numbered' ∨ named')) ↔ ¬ (named ∧ numbered' ∧ ¬ named') := by
  by_cases named' <;> by_cases named <;> by_cases numbered' <;> simp_all

theorem portMatches_split (items : List Yaml) (peer : E) (protocol : Fin 256) (port : Int) :
    (∃ entry ∈ items, PortMatches digits entry peer protocol port) ↔
      (∃ entry ∈ items, NumberMatches digits entry port) ∨
        ∃ entry ∈ items, NameMatches digits entry peer protocol port := by
  simp only [PortMatches, and_or_left, exists_or]

variable {P κ : Type} [Fintype E] [RuleProperties P E κ]

/-- A destination port is allowed at a peer as the lists say, if and only if no name clashes with an
excluded number. -/
theorem getRulePorts_exact (given : (Yaml.dict entries).field "ports" = listField ports)
    (given' : (Yaml.dict entries).field "notPorts" = listField notPorts)
    (valid : ∀ entry ∈ ports.getD [], PortValid digits entry)
    (valid' : ∀ entry ∈ notPorts.getD [], PortValid digits entry) :
    ∃ set, getRulePorts digits (.dict entries) true = .ok set ∧
      ∀ (conn_cube : RuleCube E) (protocol : Fin 256) (x : Flow E κ),
        conn_cube.dst_ports = some set → conn_cube.protocols = some {protocol} →
        AdmitsRest P conn_cube x →
        ((x ∈ (makeConnPropsOfCube conn_cube : P) ↔
            PortAllowed digits ports notPorts x.dst protocol (dst_port P x.rest)) ↔
          ¬ PortClash digits ports notPorts x.dst protocol (dst_port P x.rest)) := by
  obtain ⟨set, parsed, holds⟩ : ∃ set, getRulePorts digits (.dict entries) true = .ok set ∧
    ∀ (peer : E) protocol port, _ := getRulePorts_holds given given' valid valid'
  refine ⟨set, parsed, ?_⟩
  intro conn_cube protocol x ports_eq protocols_eq admitted
  rw [mem_makeConnPropsOfCube, and_iff_right admitted, ports_eq, protocols_eq, Option.getD_some,
    Option.getD_some, holds _ _ _ (PortProperties.dst_port_valid x.rest), PortAllowed, PortClash,
    portMatches_split, portMatches_split]
  exact clash_iff _ _ _ _ _

end Exact

section OnePod

/-- The pod has a port `http`, whose number is 8080. -/
def httpBut (number : Int) : List (String × Yaml) :=
  [("ports", .list [.str "http"]), ("notPorts", .list [.int number])]

def podCube (set : CoreDS.PortSet) : RuleCube PeerKind :=
  { dst_ports := some set, protocols := some {6}, dst_peers := some {.pod} }

theorem httpBut_valid (number : Int) (inside : 1 ≤ number ∧ number ≤ 65535) :
    (∀ entry ∈ (some [Yaml.str "http"]).getD [], PortValid (fun _ => none) entry) ∧
    ∀ entry ∈ (some [Yaml.int number]).getD [], PortValid (fun _ => none) entry := by
  rw [Option.getD_some, Option.getD_some, List.forall_mem_singleton, List.forall_mem_singleton]
  constructor
  · refine Or.inr ⟨"http", rfl, fun range read => ?_⟩
    have unread : readRange (fun _ => none) "http".toList = none := by decide
    rw [unread] at read
    cases read
  · exact Or.inl ⟨number, rfl, inside⟩

theorem httpBut80_exact : ∃ set, getRulePorts (fun _ => none) (.dict (httpBut 80)) true = .ok set ∧
    ∀ (conn_cube : RuleCube PeerKind) (protocol : Fin 256) (x : Flow PeerKind RestDims),
      conn_cube.dst_ports = some set → conn_cube.protocols = some {protocol} →
      AdmitsRest (FlowSet PeerKind RestDims) conn_cube x →
      ((x ∈ (makeConnPropsOfCube conn_cube : FlowSet PeerKind RestDims) ↔
          PortAllowed (fun _ => none) (some [.str "http"]) (some [.int 80]) x.dst protocol
            (dst_port (FlowSet PeerKind RestDims) x.rest)) ↔
        ¬ PortClash (fun _ => none) (some [.str "http"]) (some [.int 80]) x.dst protocol
          (dst_port (FlowSet PeerKind RestDims) x.rest)) :=
  getRulePorts_exact rfl rfl (httpBut_valid 80 (by decide)).1 (httpBut_valid 80 (by decide)).2

/-- The port is allowed by its name although it is excluded by its number. -/
theorem http8080_allowed : ∃ set x,
    getRulePorts (fun _ => none) (.dict (httpBut 8080)) true = .ok set ∧
    x ∈ (makeConnPropsOfCube (podCube set) : FlowSet PeerKind RestDims) ∧
    ¬ PortAllowed (fun _ => none) (some [.str "http"]) (some [.int 8080]) x.dst 6
      (dst_port (FlowSet PeerKind RestDims) x.rest) := by
  obtain ⟨set, parsed, holds⟩ :
      ∃ set, getRulePorts (fun _ => none) (.dict (httpBut 8080)) true = .ok set ∧
      ∀ (peer : PeerKind) protocol port, _ :=
    getRulePorts_holds rfl rfl (httpBut_valid 8080 (by decide)).1 (httpBut_valid 8080 (by decide)).2
  have name : IsPortName (fun _ => none) (.str "http") "http" := ⟨rfl, by decide⟩
  refine ⟨set, ⟨.pod, .pod, 6, ⟨0, 8079, 0, 0⟩⟩, parsed, ?_, ?_⟩
  · rw [mem_makeConnPropsOfCube]
    refine ⟨by simp [AdmitsRest, podCube, ConnectivityCube.Admits], ?_⟩
    show set.Holds PeerKind.pod {6} 8080
    rw [holds _ _ _ (by decide)]
    refine ⟨Or.inr ⟨_, List.mem_singleton_self _, "http", name, rfl⟩, ?_⟩
    rintro ⟨entry, listed, name, isName, _⟩
    rw [List.mem_singleton.mp listed] at isName
    cases isName.1
  · intro ⟨_, unexcluded⟩
    exact unexcluded ⟨.int 8080, List.mem_singleton_self _, Or.inl rfl⟩

end OnePod
end Nca.Parsers.CalicoPolicyYamlParser
