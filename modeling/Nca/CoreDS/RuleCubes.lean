import Nca.CoreDS.NamedPorts

/-!
Connectivity properties of cubes with source ports, destination ports and ICMP data.
-/

namespace Nca.CoreDS
open Lib

/-- A `ConnectivityCube` of a policy rule; a dimension that is not set admits every value. -/
structure RuleCube (E : Type) extends ConnectivityCube E where
  src_ports : Option PortSet := none
  dst_ports : Option PortSet := none
  icmp_type : Option Int := none
  icmp_code : Option Int := none

/-- Properties with all dimensions that rules have; `makeCube` makes those of a cube, with the port
numbers of destinations given apart. -/
class RuleProperties (P : Type) (E κ : outParam Type) extends PortProperties P E κ where
  src_port : κ → Int
  icmp_type : κ → Int
  icmp_code : κ → Int
  src_port_valid : ∀ rest, 1 ≤ src_port rest ∧ src_port rest ≤ 65535
  icmp_valid : ∀ rest, (0 ≤ icmp_type rest ∧ icmp_type rest ≤ 254) ∧
    0 ≤ icmp_code rest ∧ icmp_code rest ≤ 255
  rest_of : ∀ src dst type code, 1 ≤ src ∧ src ≤ 65535 → 1 ≤ dst ∧ dst ≤ 65535 →
    0 ≤ type ∧ type ≤ 254 → 0 ≤ code ∧ code ≤ 255 →
    ∃ rest, src_port rest = src ∧ dst_port rest = dst ∧ icmp_type rest = type ∧ icmp_code rest = code
  makeCube : RuleCube E → Finset Int → P
  contains_cube : ∀ cube ports x, contains (makeCube cube ports) x = true ↔
    cube.Admits x ∧ (∀ src_ports, cube.src_ports = some src_ports → src_port x.rest ∈ src_ports.port_set) ∧
    (∀ type, cube.icmp_type = some type → icmp_type x.rest = type) ∧
    (∀ code, cube.icmp_code = some code → icmp_code x.rest = code) ∧ dst_port x.rest ∈ ports

export RuleProperties (src_port icmp_type icmp_code makeCube)

section Cubes

variable {P E κ : Type} [NamedPorts E] [RuleProperties P E κ]

/-- The cube admits the connection, whatever its destination ports are. -/
def AdmitsRest (P : Type) {E κ : Type} [RuleProperties P E κ] (cube : RuleCube E)
    (x : Flow E κ) : Prop :=
  cube.Admits x ∧
  (∀ src_ports, cube.src_ports = some src_ports → src_port P x.rest ∈ src_ports.port_set) ∧
  (∀ type, cube.icmp_type = some type → icmp_type P x.rest = type) ∧
  ∀ code, cube.icmp_code = some code → icmp_code P x.rest = code

/-- The properties of the cube with one destination and its ports. -/
def makePeerCube (cube : RuleCube E) (peer : E) (ports : Finset Int) : P :=
  makeCube { cube with dst_peers := some {peer} } ports

variable {cube : RuleCube E} {dst_ports : PortSet} {protocols : ProtocolSet} {x : Flow E κ}

omit [NamedPorts E] in
theorem mem_makeCube {ports : Finset Int} :
    x ∈ (makeCube cube ports : P) ↔ AdmitsRest P cube x ∧ dst_port P x.rest ∈ ports := by
  rw [ExactSet.mem_iff_contains, RuleProperties.contains_cube]
  unfold AdmitsRest
  tauto

omit [NamedPorts E] in
theorem mem_makePeerCube (peer : E) (ports : Finset Int) (x : Flow E κ) :
    x ∈ (makePeerCube cube peer ports : P) ↔
      (AdmitsRest P { cube with dst_peers := none } x ∧ x.dst = peer) ∧
        dst_port P x.rest ∈ ports := by
  unfold makePeerCube
  rw [mem_makeCube]
  unfold AdmitsRest
  simp [ConnectivityCube.Admits]
  tauto

instance : RightCommutative (resolvePeerWith (P := P) (makePeerCube cube) dst_ports protocols) :=
  resolvePeerWith_comm mem_makePeerCube

/-- `make_conn_props`. -/
def makeConnPropsOfCube [Fintype E] (conn_cube : RuleCube E) : P :=
  let dst_ports := conn_cube.dst_ports.getD (PortSet.init true)
  if dst_ports.named_ports = ∅ ∧ dst_ports.excluded_named_ports = ∅ then
    makeCube conn_cube dst_ports.port_set
  else
    let conn_properties : P :=
      if dst_ports.port_set ≠ ∅ then makeCube conn_cube dst_ports.port_set else ∅
    let protocols := conn_cube.protocols.getD Finset.univ
    let dst_peers := conn_cube.dst_peers.getD Finset.univ
    dst_peers.val.foldl (resolvePeerWith (makePeerCube conn_cube) dst_ports protocols) conn_properties

/-- The port is one of the set at a peer, by number or by name. -/
def PortSet.Holds (ports : PortSet) (peer : E) (protocols : ProtocolSet) (port : Int) : Prop :=
  (port ∈ ports.port_set ∨ ∃ name ∈ ports.named_ports, ∃ protocol ∈ protocols,
    NamedPorts.named_ports peer name = some (port, protocol)) ∧
  ¬ ∃ name ∈ ports.excluded_named_ports, ∃ protocol ∈ protocols,
    NamedPorts.named_ports peer name = some (port, protocol)

/-- The connection lies in the cube, and goes to a port of its port set. -/
theorem mem_makeConnPropsOfCube [Fintype E] {conn_cube : RuleCube E} :
    x ∈ (makeConnPropsOfCube conn_cube : P) ↔ AdmitsRest P conn_cube x ∧
      (conn_cube.dst_ports.getD (.init true)).Holds x.dst (conn_cube.protocols.getD Finset.univ)
        (dst_port P x.rest) := by
  have ends : AdmitsRest P { conn_cube with dst_peers := none } x ∧
      x.dst ∈ (conn_cube.dst_peers.getD Finset.univ).val ↔ AdmitsRest P conn_cube x := by
    rw [Finset.mem_val]
    unfold AdmitsRest ConnectivityCube.Admits
    cases conn_cube.dst_peers with
    | none => simp
    | some dst_peers =>
      simp
      tauto
  have holds : ∀ ports : PortSet, ∀ protocols, ports.Holds x.dst protocols (dst_port P x.rest) ↔
      (dst_port P x.rest ∈ ports.port_set ∨ NamedAt P ports.named_ports protocols x) ∧
        ¬ NamedAt P ports.excluded_named_ports protocols x := fun _ _ => Iff.rfl
  rw [holds]
  unfold makeConnPropsOfCube
  dsimp only
  split
  · rename_i unnamed
    rw [mem_makeCube, unnamed.1, unnamed.2]
    simp [NamedAt]
  · have start : ∀ ports, x ∈ (if ports ≠ ∅ then makeCube conn_cube ports else ∅ : P) ↔
        AdmitsRest P conn_cube x ∧ dst_port P x.rest ∈ ports := by
      intro ports
      split
      · exact mem_makeCube
      · rename_i empty
        rw [not_not.mp empty]
        simp
    rw [mem_foldl_resolvePeerWith mem_makePeerCube, start, ends]
    tauto

theorem holds_all {peer : E} {port : Int} (valid : 1 ≤ port ∧ port ≤ 65535) :
    (PortSet.init true).Holds peer protocols port := by
  simp [PortSet.Holds, PortSet.init, PortSet.allPortsInterval, valid]

end Cubes

section Concrete

/-- The dimensions of connections apart from peers and protocols. -/
structure RestDims where
  src_port : Fin 65535
  dst_port : Fin 65535
  icmp_type : Fin 255
  icmp_code : Fin 256
  deriving DecidableEq, Fintype

namespace RestDims

theorem dst_port_range (rest : RestDims) :
    1 ≤ ((rest.dst_port : Nat) : Int) + 1 ∧ ((rest.dst_port : Nat) : Int) + 1 ≤ 65535 := by
  omega

theorem src_port_range (rest : RestDims) :
    1 ≤ ((rest.src_port : Nat) : Int) + 1 ∧ ((rest.src_port : Nat) : Int) + 1 ≤ 65535 := by
  omega

theorem icmp_range (rest : RestDims) :
    (0 ≤ ((rest.icmp_type : Nat) : Int) ∧ ((rest.icmp_type : Nat) : Int) ≤ 254) ∧
      0 ≤ ((rest.icmp_code : Nat) : Int) ∧ ((rest.icmp_code : Nat) : Int) ≤ 255 := by
  omega

theorem exists_rest (src dst type code : Int) (inSrc : 1 ≤ src ∧ src ≤ 65535)
    (inDst : 1 ≤ dst ∧ dst ≤ 65535) (inType : 0 ≤ type ∧ type ≤ 254) (inCode : 0 ≤ code ∧ code ≤ 255) :
    ∃ rest : RestDims, ((rest.src_port : Nat) : Int) + 1 = src ∧ ((rest.dst_port : Nat) : Int) + 1 = dst ∧
      ((rest.icmp_type : Nat) : Int) = type ∧ ((rest.icmp_code : Nat) : Int) = code := by
  refine ⟨⟨⟨(src - 1).toNat, by omega⟩, ⟨(dst - 1).toNat, by omega⟩, ⟨type.toNat, by omega⟩,
    ⟨code.toNat, by omega⟩⟩, ?_⟩
  simp only
  omega

end RestDims

attribute [local instance] decidableDimension

instance {E : Type} [Fintype E] [DecidableEq E] : RuleProperties (FlowSet E RestDims) E RestDims where
  toConnectivityProperties := inferInstance
  dst_port rest := (rest.dst_port : Nat) + 1
  dst_port_valid := RestDims.dst_port_range
  makeNumbered cube ports := (Finset.univ.filter fun x =>
    (∀ peers ∈ cube.src_peers, x.src ∈ peers) ∧ (∀ peers ∈ cube.dst_peers, x.dst ∈ peers) ∧
    (∀ protocols ∈ cube.protocols, x.protocol ∈ protocols) ∧
    ((x.rest.dst_port : Nat) + 1 : Int) ∈ ports : Finset (Flow E RestDims))
  contains_numbered cube ports x := by
    show decide (x ∈ _) = true ↔ _
    simp [ConnectivityCube.Admits, and_assoc]
  src_port rest := (rest.src_port : Nat) + 1
  icmp_type rest := (rest.icmp_type : Nat)
  icmp_code rest := (rest.icmp_code : Nat)
  src_port_valid := RestDims.src_port_range
  icmp_valid := RestDims.icmp_range
  rest_of := RestDims.exists_rest
  makeCube cube ports := (Finset.univ.filter fun x =>
    (∀ peers ∈ cube.src_peers, x.src ∈ peers) ∧ (∀ peers ∈ cube.dst_peers, x.dst ∈ peers) ∧
    (∀ protocols ∈ cube.protocols, x.protocol ∈ protocols) ∧
    (∀ src_ports ∈ cube.src_ports, ((x.rest.src_port : Nat) + 1 : Int) ∈ src_ports.port_set) ∧
    (∀ type ∈ cube.icmp_type, ((x.rest.icmp_type : Nat) : Int) = type) ∧
    (∀ code ∈ cube.icmp_code, ((x.rest.icmp_code : Nat) : Int) = code) ∧
    ((x.rest.dst_port : Nat) + 1 : Int) ∈ ports : Finset (Flow E RestDims))
  contains_cube cube ports x := by
    show decide (x ∈ _) = true ↔ _
    simp [ConnectivityCube.Admits, and_assoc]

end Concrete
end Nca.CoreDS
