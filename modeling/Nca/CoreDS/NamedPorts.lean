import Nca.CoreDS.ConnectivityProperties
import Mathlib.Order.Interval.Finset.Basic
import Mathlib.Data.Int.Interval

/-!
Port sets with named ports, and connectivity properties made of them. The named ports of a cube are
resolved for each destination peer, by the numbers that its named ports have.
-/

namespace Nca.CoreDS
open Lib

/-- The order of the integers, by the instance that can be evaluated. -/
local instance intPreorder : Preorder Int := Int.instLinearOrder.toPreorder

/-- A set of ports, with named ports that are included or excluded. -/
structure PortSet where
  port_set : Finset Int := ∅
  named_ports : Finset String := ∅
  excluded_named_ports : Finset String := ∅
  deriving DecidableEq

namespace PortSet

def allPortsInterval : Finset Int := Finset.Icc 1 65535

/-- `PortSet(all_ports)`. -/
def init (all_ports : Bool := false) : PortSet :=
  { port_set := if all_ports then allPortsInterval else ∅ }

def addPort (self : PortSet) (port : Int ⊕ String) : PortSet :=
  match port with
  | .inl port => { self with port_set := self.port_set ∪ {port} }
  | .inr port => { self with
      named_ports := self.named_ports ∪ {port}
      excluded_named_ports := self.excluded_named_ports \ {port} }

def addPortRange (self : PortSet) (min_port max_port : Int) : PortSet :=
  { self with port_set := self.port_set ∪ Finset.Icc min_port max_port }

end PortSet

/-- A cube with destination ports. -/
structure PortCube (E : Type) extends ConnectivityCube E where
  dst_ports : Option PortSet := none

/-- The named ports of peers, with their numbers and protocols. -/
class NamedPorts (E : Type) where
  named_ports : E → String → Option (Int × Fin 256)

/-- Properties with destination ports; `makeNumbered` makes those of a cube and port numbers. -/
class PortProperties (P : Type) (E κ : outParam Type) extends ConnectivityProperties P E κ where
  dst_port : κ → Int
  dst_port_valid : ∀ rest, 1 ≤ dst_port rest ∧ dst_port rest ≤ 65535
  makeNumbered : ConnectivityCube E → Finset Int → P
  contains_numbered : ∀ cube ports x, contains (makeNumbered cube ports) x = true ↔
    cube.Admits x ∧ dst_port x.rest ∈ ports

export PortProperties (dst_port makeNumbered)

section Resolution

variable {P E κ : Type} [NamedPorts E] [PortProperties P E κ]

/-- The numbers of named ports of a peer, where their protocols are among these. -/
def resolveNamedPorts (named_ports : Finset String) (peer : E) (protocols : ProtocolSet) : Finset Int :=
  named_ports.biUnion fun named_port =>
    match NamedPorts.named_ports peer named_port with
    | none => ∅
    | some real_port => if real_port.2 ∈ protocols then {real_port.1} else ∅

/-- One turn of the loop over the destination peers; `make` makes the properties of a peer and
ports. -/
def resolvePeerWith (make : E → Finset Int → P) (dst_ports : PortSet) (protocols : ProtocolSet)
    (conn_properties : P) (peer : E) : P :=
  let real_ports := resolveNamedPorts dst_ports.named_ports peer protocols
  let conn_properties :=
    if real_ports ≠ ∅ then conn_properties ∪ make peer real_ports else conn_properties
  let excluded_real_ports := resolveNamedPorts dst_ports.excluded_named_ports peer protocols
  if excluded_real_ports ≠ ∅ then conn_properties \ make peer excluded_real_ports
  else conn_properties

/-- One turn of the loop over the destination peers. -/
def resolvePeer (cube : ConnectivityCube E) (dst_ports : PortSet) (protocols : ProtocolSet)
    (conn_properties : P) (peer : E) : P :=
  let real_ports := resolveNamedPorts dst_ports.named_ports peer protocols
  let conn_properties :=
    if real_ports ≠ ∅ then
      conn_properties ∪ makeNumbered { cube with dst_peers := some {peer} } real_ports
    else conn_properties
  let excluded_real_ports := resolveNamedPorts dst_ports.excluded_named_ports peer protocols
  if excluded_real_ports ≠ ∅ then
    conn_properties \ makeNumbered { cube with dst_peers := some {peer} } excluded_real_ports
  else conn_properties

variable {cube : ConnectivityCube E} {dst_ports : PortSet} {protocols : ProtocolSet} {peer : E}
  {names : Finset String} {x : Flow E κ}

/-- The connection goes to a port that one of the names stands for at its destination. -/
def NamedAt (P : Type) {E κ : Type} [NamedPorts E] [PortProperties P E κ] (names : Finset String)
    (protocols : ProtocolSet) (x : Flow E κ) : Prop :=
  ∃ name ∈ names, ∃ protocol ∈ protocols,
    NamedPorts.named_ports x.dst name = some (dst_port P x.rest, protocol)

theorem mem_resolveNamedPorts {port : Int} : port ∈ resolveNamedPorts names peer protocols ↔
    ∃ name ∈ names, ∃ protocol ∈ protocols,
      NamedPorts.named_ports peer name = some (port, protocol) := by
  rw [resolveNamedPorts, Finset.mem_biUnion]
  apply exists_congr
  intro name
  apply and_congr_right
  intro _
  cases found : NamedPorts.named_ports peer name with
  | none => simp
  | some real_port =>
    dsimp only
    split
    · rename_i listed
      rw [Finset.mem_singleton]
      constructor
      · intro same
        exact ⟨real_port.2, listed, by rw [same]⟩
      · intro ⟨_, _, same⟩
        rw [Option.some.inj same]
    · rename_i unlisted
      simp only [Finset.notMem_empty, false_iff, not_exists, not_and, Option.some.injEq]
      rintro protocol listed rfl
      exact unlisted listed

/-- The cube has the connection, whatever destinations the cube has. -/
def AdmitsBut (cube : ConnectivityCube E) (x : Flow E κ) : Prop :=
  ({ cube with dst_peers := none } : ConnectivityCube E).Admits x

omit [NamedPorts E] in
theorem mem_numbered_peer {ports : Finset Int} :
    x ∈ (makeNumbered { cube with dst_peers := some {peer} } ports : P) ↔
      (AdmitsBut cube x ∧ x.dst = peer) ∧ dst_port P x.rest ∈ ports := by
  rw [ExactSet.mem_iff_contains, PortProperties.contains_numbered]
  simp [AdmitsBut, ConnectivityCube.Admits]
  tauto

section General

variable {make : E → Finset Int → P} {admits : Flow E κ → Prop} {conn_properties : P}
  (law : ∀ peer ports x, x ∈ make peer ports ↔
    (admits x ∧ x.dst = peer) ∧ dst_port P x.rest ∈ ports)

include law

theorem mem_resolved (names : Finset String) :
    x ∈ make peer (resolveNamedPorts names peer protocols) ↔
      (admits x ∧ x.dst = peer) ∧ NamedAt P names protocols x := by
  rw [law, mem_resolveNamedPorts]
  apply and_congr_right
  intro ⟨_, same⟩
  rw [NamedAt, same]

theorem mem_resolvePeerWith :
    x ∈ resolvePeerWith make dst_ports protocols conn_properties peer ↔
      (x ∈ conn_properties ∨ (admits x ∧ x.dst = peer) ∧
        NamedAt P dst_ports.named_ports protocols x) ∧
      ¬ ((admits x ∧ x.dst = peer) ∧ NamedAt P dst_ports.excluded_named_ports protocols x) := by
  -- an empty set of ports makes properties that are empty
  have nothing : ∀ names, resolveNamedPorts names peer protocols = ∅ →
      ¬ ((admits x ∧ x.dst = peer) ∧ NamedAt P names protocols x) := by
    intro names empty
    rw [← mem_resolved law names, law, empty]
    simp
  unfold resolvePeerWith
  by_cases real : resolveNamedPorts dst_ports.named_ports peer protocols = ∅
  · have none := nothing _ real
    by_cases excluded : resolveNamedPorts dst_ports.excluded_named_ports peer protocols = ∅
    · have noneExcluded := nothing _ excluded
      simp only [real, excluded, ne_eq, not_true, if_false]
      tauto
    · simp only [real, excluded, ne_eq, not_true, not_false_iff, if_false, if_true,
        ExactSet.mem_sdiff, mem_resolved law]
      tauto
  · by_cases excluded : resolveNamedPorts dst_ports.excluded_named_ports peer protocols = ∅
    · have noneExcluded := nothing _ excluded
      simp only [real, excluded, ne_eq, not_true, not_false_iff, if_false, if_true,
        ExactSet.mem_union, mem_resolved law]
      tauto
    · simp only [real, excluded, ne_eq, not_false_iff, if_true, ExactSet.mem_sdiff,
        ExactSet.mem_union, mem_resolved law]

/-- The destination peers may come in any order. -/
theorem resolvePeerWith_comm :
    RightCommutative (resolvePeerWith (P := P) make dst_ports protocols) where
  right_comm acc p q := by
    rw [ExactSet.eq_iff]
    intro x
    simp only [mem_resolvePeerWith law]
    by_cases same : p = q
    · rw [same]
    · have apart : ¬ (x.dst = p ∧ x.dst = q) := fun both => same (both.1.symm.trans both.2)
      tauto

theorem mem_foldl_resolvePeerWith [RightCommutative (resolvePeerWith make dst_ports protocols)]
    {dst_peers : Multiset E} :
    x ∈ dst_peers.foldl (resolvePeerWith make dst_ports protocols) conn_properties ↔
      (x ∈ conn_properties ∨ (admits x ∧ x.dst ∈ dst_peers) ∧
        NamedAt P dst_ports.named_ports protocols x) ∧
      ¬ ((admits x ∧ x.dst ∈ dst_peers) ∧
        NamedAt P dst_ports.excluded_named_ports protocols x) := by
  induction dst_peers using Multiset.induction generalizing conn_properties with
  | empty => simp
  | cons peer rest ih =>
    rw [Multiset.foldl_cons, ih, mem_resolvePeerWith law]
    simp only [Multiset.mem_cons]
    tauto

end General

/-- The destination peers may come in any order. -/
instance : RightCommutative (resolvePeer (P := P) cube dst_ports protocols) :=
  resolvePeerWith_comm fun _ _ _ => mem_numbered_peer

/-- `make_conn_props`. -/
def makeConnPropsOfPorts [Fintype E] (conn_cube : PortCube E) : P :=
  let dst_ports := conn_cube.dst_ports.getD (PortSet.init true)
  if dst_ports.named_ports = ∅ ∧ dst_ports.excluded_named_ports = ∅ then
    makeNumbered conn_cube.toConnectivityCube dst_ports.port_set
  else
    let conn_properties : P :=
      if dst_ports.port_set ≠ ∅ then
        makeNumbered conn_cube.toConnectivityCube dst_ports.port_set
      else ∅
    let protocols := conn_cube.protocols.getD Finset.univ
    let dst_peers := conn_cube.dst_peers.getD Finset.univ
    dst_peers.val.foldl (resolvePeer conn_cube.toConnectivityCube dst_ports protocols) conn_properties

theorem mem_foldl_resolvePeer {dst_peers : Multiset E} {conn_properties : P} :
    x ∈ dst_peers.foldl (resolvePeer cube dst_ports protocols) conn_properties ↔
      (x ∈ conn_properties ∨ (AdmitsBut cube x ∧ x.dst ∈ dst_peers) ∧
        NamedAt P dst_ports.named_ports protocols x) ∧
      ¬ ((AdmitsBut cube x ∧ x.dst ∈ dst_peers) ∧
        NamedAt P dst_ports.excluded_named_ports protocols x) := by
  have law : ∀ (peer : E) ports (x : Flow E κ),
      x ∈ (makeNumbered { cube with dst_peers := some {peer} } ports : P) ↔ _ :=
    fun _ _ _ => mem_numbered_peer
  have commutes : RightCommutative (resolvePeerWith _ dst_ports protocols) := resolvePeerWith_comm law
  exact mem_foldl_resolvePeerWith law

/-- The connection lies in the cube, and goes to a port of its port set, by number or by name. -/
theorem mem_makeConnPropsOfPorts [Fintype E] {conn_cube : PortCube E} :
    x ∈ (makeConnPropsOfPorts conn_cube : P) ↔ conn_cube.Admits x ∧
      (dst_port P x.rest ∈ (conn_cube.dst_ports.getD (.init true)).port_set ∨
        NamedAt P (conn_cube.dst_ports.getD (.init true)).named_ports
          (conn_cube.protocols.getD Finset.univ) x) ∧
      ¬ NamedAt P (conn_cube.dst_ports.getD (.init true)).excluded_named_ports
        (conn_cube.protocols.getD Finset.univ) x := by
  have ends : AdmitsBut conn_cube.toConnectivityCube x ∧
      x.dst ∈ (conn_cube.dst_peers.getD Finset.univ).val ↔ conn_cube.Admits x := by
    rw [Finset.mem_val]
    unfold AdmitsBut ConnectivityCube.Admits
    cases conn_cube.dst_peers with
    | none => simp
    | some dst_peers =>
      simp
      tauto
  have numbered : ∀ ports, x ∈ (makeNumbered conn_cube.toConnectivityCube ports : P) ↔
      conn_cube.Admits x ∧ dst_port P x.rest ∈ ports := fun ports =>
    PortProperties.contains_numbered _ ports x
  unfold makeConnPropsOfPorts
  dsimp only
  split
  · rename_i unnamed
    rw [numbered, unnamed.1, unnamed.2]
    simp [NamedAt]
  · have start : ∀ ports, x ∈ (if ports ≠ ∅ then
        makeNumbered conn_cube.toConnectivityCube ports else ∅ : P) ↔
        conn_cube.Admits x ∧ dst_port P x.rest ∈ ports := by
      intro ports
      split
      · exact numbered _
      · rename_i empty
        rw [not_not.mp empty]
        simp
    rw [mem_foldl_resolvePeer, start, ends]
    tauto

end Resolution

attribute [local instance] decidableDimension

/-- Sets of connections to the ports from 1 on. -/
instance {E : Type} [Fintype E] [DecidableEq E] :
    PortProperties (FlowSet E (Fin 65535)) E (Fin 65535) where
  toConnectivityProperties := inferInstance
  dst_port rest := (rest : Nat) + 1
  dst_port_valid rest := by omega
  makeNumbered cube ports := (Finset.univ.filter fun x =>
    (∀ peers ∈ cube.src_peers, x.src ∈ peers) ∧ (∀ peers ∈ cube.dst_peers, x.dst ∈ peers) ∧
    (∀ protocols ∈ cube.protocols, x.protocol ∈ protocols) ∧
    ((x.rest : Nat) + 1 : Int) ∈ ports : Finset (Flow E (Fin 65535)))
  contains_numbered cube ports x := by
    show decide (x ∈ _) = true ↔ _
    simp [ConnectivityCube.Admits, and_assoc]

end Nca.CoreDS
