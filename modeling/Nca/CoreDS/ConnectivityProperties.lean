import Nca.CoreDS.Peer
import Nca.Lib.ExactSet
import Mathlib.Data.Finset.Fold
import Mathlib.Algebra.GroupWithZero.Nat
import Mathlib.Data.Fintype.Sigma
import Mathlib.Tactic.DeriveFintype

/-!
Connectivity properties as sets of connections. A connection has a source, a destination, a
protocol and the remaining dimensions (ports, methods, hosts, paths, ICMP data), about which the
policies say nothing in common. Connectivity properties represent sets of connections exactly.
-/

namespace Nca.CoreDS
open Lib

/-- One connection between two peers. -/
structure Flow (E κ : Type) where
  src : E
  dst : E
  protocol : Fin 256
  rest : κ
  deriving DecidableEq, Fintype

instance protocols_neZero : NeZero 256 := ⟨by decide⟩

/-- The protocol number of TCP. -/
def tcp : Fin 256 := 6

abbrev ProtocolSet := Finset (Fin 256)

def getNonTcpProtocols : ProtocolSet := Finset.univ.erase tcp

def getProtocolSetWithSingleProtocol (protocol : Fin 256) : ProtocolSet := {protocol}

/-- A `ConnectivityCube`; a dimension that is not set admits every value. -/
structure ConnectivityCube (E : Type) where
  src_peers : Option (PeerSet E) := none
  dst_peers : Option (PeerSet E) := none
  protocols : Option ProtocolSet := none

/-- The connection lies in the cube. -/
def ConnectivityCube.Admits {E κ : Type} (cube : ConnectivityCube E) (x : Flow E κ) : Prop :=
  (∀ peers, cube.src_peers = some peers → x.src ∈ peers) ∧
  (∀ peers, cube.dst_peers = some peers → x.dst ∈ peers) ∧
  ∀ protocols, cube.protocols = some protocols → x.protocol ∈ protocols

/-- `P` represents sets of connections, has all cubes, and knows the peers of its connections. -/
class ConnectivityProperties (P : Type) (E κ : outParam Type) extends ExactSet P (Flow E κ) where
  makeConnProps : ConnectivityCube E → P
  contains_make : ∀ cube x, contains (makeConnProps cube) x = true ↔ cube.Admits x
  getAllPeers : P → PeerSet E
  ends_mem : ∀ props x, contains props x = true →
    x.src ∈ getAllPeers props ∧ x.dst ∈ getAllPeers props

export ConnectivityProperties (makeConnProps getAllPeers)

variable {P E κ : Type} [ConnectivityProperties P E κ]

@[simp] theorem mem_makeConnProps {cube : ConnectivityCube E} {x : Flow E κ} :
    x ∈ (makeConnProps cube : P) ↔ cube.Admits x :=
  ConnectivityProperties.contains_make cube x

theorem src_mem_allPeers {props : P} {x : Flow E κ} (inside : x ∈ props) :
    x.src ∈ getAllPeers props := (ConnectivityProperties.ends_mem props x inside).1

theorem dst_mem_allPeers {props : P} {x : Flow E κ} (inside : x ∈ props) :
    x.dst ∈ getAllPeers props := (ConnectivityProperties.ends_mem props x inside).2

theorem mem_non_tcp {p : Fin 256} : p ∈ getNonTcpProtocols ↔ p ≠ tcp := by
  simp [getNonTcpProtocols]

section AutoConns

variable [DecidableEq E]

instance union_commutative : Std.Commutative (α := P) (· ∪ ·) :=
  ⟨fun s t => ExactSet.eq_iff.mpr fun x => by simp [or_comm]⟩

instance union_associative : Std.Associative (α := P) (· ∪ ·) :=
  ⟨fun s t u => ExactSet.eq_iff.mpr fun x => by simp [or_assoc]⟩

/-- All connections from a peer of these properties to itself; the peers come in any order. -/
def getAutoConnsFromPeers (props : P) : P :=
  (getAllPeers props).fold (· ∪ ·) ∅ fun peer =>
    makeConnProps { src_peers := some {peer}, dst_peers := some {peer} }

def propsWithoutAutoConns (props : P) : P := props \ getAutoConnsFromPeers props

theorem mem_autoConns {props : P} {x : Flow E κ} :
    x ∈ getAutoConnsFromPeers props ↔ x.src = x.dst ∧ x.src ∈ getAllPeers props := by
  unfold getAutoConnsFromPeers
  induction getAllPeers props using Finset.induction with
  | empty => simp
  | insert peer rest fresh ih =>
    rw [Finset.fold_insert fresh, ExactSet.mem_union, ih, Finset.mem_insert]
    simp only [mem_makeConnProps, ConnectivityCube.Admits, Option.some.injEq, forall_eq',
      Finset.mem_singleton, reduceCtorEq, false_implies, implies_true, and_true]
    constructor
    · rintro (⟨rfl, same⟩ | ⟨same, member⟩)
      · exact ⟨same.symm, Or.inl rfl⟩
      · exact ⟨same, Or.inr member⟩
    · rintro ⟨same, rfl | member⟩
      · exact Or.inl ⟨rfl, same.symm⟩
      · exact Or.inr ⟨same, member⟩

theorem mem_withoutAutoConns {props : P} {x : Flow E κ} :
    x ∈ propsWithoutAutoConns props ↔ x ∈ props ∧ x.src ≠ x.dst := by
  rw [propsWithoutAutoConns, ExactSet.mem_sdiff, mem_autoConns]
  exact and_congr_right fun inside => not_congr (and_iff_left (src_mem_allPeers inside))

end AutoConns

/-- Properties that decide containment by an algorithm of their own. -/
class ContainedIn (P : Type) (E κ : outParam Type) extends ConnectivityProperties P E κ where
  containedIn : P → P → Bool
  containedIn_iff : ∀ s t, containedIn s t = true ↔
    ∀ x, contains s x = true → contains t x = true

export ContainedIn (containedIn)

theorem eq_iff_containedIn {P E κ : Type} [ContainedIn P E κ] {s t : P} :
    s = t ↔ containedIn s t = true ∧ containedIn t s = true := by
  rw [ContainedIn.containedIn_iff, ContainedIn.containedIn_iff, ExactSet.eq_iff]
  constructor
  · intro same
    exact ⟨fun x => (same x).mp, fun x => (same x).mpr⟩
  · rintro ⟨left, right⟩ x
    exact ⟨left x, right x⟩

/-- Sets of connections, as finite sets. -/
def FlowSet (E κ : Type) : Type := Finset (Flow E κ)

/-- A dimension that may be missing is looked at, and not all of its values. -/
@[reducible] def decidableDimension {α : Type} {dim : Option α} {p : α → Prop} [DecidablePred p] :
    Decidable (∀ value ∈ dim, p value) :=
  Option.decidableForallMem dim

attribute [local instance] decidableDimension

instance {E κ : Type} [Fintype E] [DecidableEq E] [Fintype κ] [DecidableEq κ] :
    ConnectivityProperties (FlowSet E κ) E κ where
  toExactSet := inferInstanceAs (ExactSet (Finset (Flow E κ)) (Flow E κ))
  makeConnProps cube := (Finset.univ.filter fun x =>
    (∀ peers ∈ cube.src_peers, x.src ∈ peers) ∧ (∀ peers ∈ cube.dst_peers, x.dst ∈ peers) ∧
    ∀ protocols ∈ cube.protocols, x.protocol ∈ protocols : Finset (Flow E κ))
  contains_make cube x := by
    show decide (x ∈ _) = true ↔ _
    simp [ConnectivityCube.Admits]
  getAllPeers props :=
    let conns : Finset (Flow E κ) := props
    conns.image Flow.src ∪ conns.image Flow.dst
  ends_mem props x inside := by
    let conns : Finset (Flow E κ) := props
    have member : x ∈ conns := of_decide_eq_true inside
    exact ⟨Finset.mem_union_left _ (Finset.mem_image_of_mem Flow.src member),
      Finset.mem_union_right _ (Finset.mem_image_of_mem Flow.dst member)⟩

instance {E κ : Type} [Fintype E] [DecidableEq E] [Fintype κ] [DecidableEq κ] :
    ContainedIn (FlowSet E κ) E κ where
  containedIn s t := decide (∀ x, ExactSet.contains s x = true → ExactSet.contains t x = true)
  containedIn_iff s t := decide_eq_true_eq.to_iff

end Nca.CoreDS
