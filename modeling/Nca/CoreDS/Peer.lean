import Mathlib.Data.Fintype.Basic
import Mathlib.Data.Finset.Basic

/-!
Peers and peer sets. The peers of a system are its cluster endpoints, its DNS entries and the
single addresses that IP blocks are made of. A peer set is a set of these, in whichever blocks its
addresses come.
-/

namespace Nca.CoreDS

inductive PeerKind where
  | pod
  | hostEP
  | dnsEntry
  | ipBlock
  deriving DecidableEq, Repr

instance : Fintype PeerKind where
  elems := {.pod, .hostEP, .dnsEntry, .ipBlock}
  complete := by
    intro kind
    cases kind <;> decide

/-- All peers that `BasePeerSet` can hold, with their kinds; an address may be an IPv6 address. -/
class Peers (E : Type) where
  kind : E → PeerKind
  ipv6 : E → Bool

/-- A system with one peer of each kind. -/
instance : Peers PeerKind := ⟨id, fun _ => false⟩

abbrev PeerSet (E : Type) := Finset E

variable {E : Type} [Fintype E] [DecidableEq E] [Peers E]

def getAllIpsBlockPeerSet : PeerSet E :=
  Finset.univ.filter fun e => Peers.kind e = .ipBlock

/-- `filter_ip_blocks_by_mask` with all addresses that are not IPv6 addresses as the mask. -/
def filterIpBlocksByMask (peers : PeerSet E) : PeerSet E :=
  peers.filter fun e => ¬ (Peers.kind e = .ipBlock ∧ Peers.ipv6 e = true)

omit [Fintype E] [DecidableEq E] in
theorem mem_filterIpBlocks {peers : PeerSet E} {e : E} : e ∈ filterIpBlocksByMask peers ↔
    e ∈ peers ∧ ¬ (Peers.kind e = .ipBlock ∧ Peers.ipv6 e = true) := by
  simp [filterIpBlocksByMask]

omit [DecidableEq E] in
theorem mem_allIps {e : E} : e ∈ (getAllIpsBlockPeerSet : PeerSet E) ↔ Peers.kind e = .ipBlock := by
  simp [getAllIpsBlockPeerSet]

end Nca.CoreDS
