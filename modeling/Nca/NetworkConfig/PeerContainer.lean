import Nca.CoreDS.Peer

/-!
The peers of a configuration.
-/

namespace Nca.NetworkConfig
open CoreDS

variable {E : Type} [Fintype E] [DecidableEq E] [Peers E]

structure PeerContainer (E : Type) where
  peer_set : PeerSet E
  deriving DecidableEq

namespace PeerContainer
variable (self : PeerContainer E)

/-- `get_all_peers_group` with the global peers. -/
def getAllPeersGroup (add_external_ips include_dns_entries : Bool := false) : PeerSet E :=
  let res := self.peer_set.filter fun peer =>
    ¬ (Peers.kind peer = .dnsEntry ∧ include_dns_entries = false)
  if add_external_ips then res ∪ getAllIpsBlockPeerSet else res

def getAllDnsEntries : PeerSet E := self.peer_set.filter fun peer => Peers.kind peer = .dnsEntry

variable {self : PeerContainer E} {e : E}

theorem mem_group : e ∈ self.getAllPeersGroup ↔ e ∈ self.peer_set ∧ Peers.kind e ≠ .dnsEntry := by
  simp [getAllPeersGroup]

theorem mem_group_ips : e ∈ self.getAllPeersGroup true ↔
    e ∈ self.getAllPeersGroup ∨ Peers.kind e = .ipBlock := by
  simp [getAllPeersGroup, mem_allIps]

theorem mem_group_dns : e ∈ self.getAllPeersGroup false true ↔ e ∈ self.peer_set := by
  simp [getAllPeersGroup]

theorem mem_group_all : e ∈ self.getAllPeersGroup true true ↔
    e ∈ self.peer_set ∨ Peers.kind e = .ipBlock := by
  simp [getAllPeersGroup, mem_allIps]

omit [Fintype E] [DecidableEq E] in
theorem mem_dns : e ∈ self.getAllDnsEntries ↔ e ∈ self.peer_set ∧ Peers.kind e = .dnsEntry := by
  simp [getAllDnsEntries]

end PeerContainer
end Nca.NetworkConfig
