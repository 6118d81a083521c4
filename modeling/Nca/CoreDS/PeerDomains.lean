import Nca.CoreDS.HyperCubeDomains

/-!
Peers as indices. The domain of the dimensions of peers is an interval set of indices: by default
all of them, while a query runs those of its own peers.
-/

namespace Nca.CoreDS
open Lib Python

namespace BasePeerSet

def ipv4_highest_number : Int := 4294967295
def ipv6_highest_number : Int := 340282366920938463463374607431768211455
def max_num_of_pods : Int := 10000
def gap_width : Int := 5
def min_ipv4_index : Int := 0
def max_ipv4_index : Int := min_ipv4_index + ipv4_highest_number
def min_ipv6_index : Int := max_ipv4_index + gap_width
def max_ipv6_index : Int := min_ipv6_index + ipv6_highest_number
def min_pod_index : Int := max_ipv6_index + gap_width
def max_pod_index : Int := min_pod_index + max_num_of_pods - 1

end BasePeerSet

/-- A range of addresses. -/
structure Cidr where
  ipv6 : Bool
  start : Int
  end_ : Int
  proper : start ≤ end_

/-- A peer as it is indexed: an IP block by its ranges, every other peer by its place in
`ordered_peer_list`. -/
inductive IndexedPeer where
  | ipBlock (cidrs : List Cidr)
  | other (index : Nat)

namespace IndexedPeer
open BasePeerSet

/-- The intervals of indices of a peer. -/
def intervals : IndexedPeer → List Interval
  | ipBlock cidrs => cidrs.map fun cidr =>
    let shift := if cidr.ipv6 then min_ipv6_index else min_ipv4_index
    ⟨shift + cidr.start, shift + cidr.end_⟩
  | other index => [⟨min_pod_index + index, min_pod_index + index⟩]

/-- `IpBlock.get_all_ips_block()`. -/
def allIpsBlock : IndexedPeer :=
  ipBlock [⟨false, 0, ipv4_highest_number, by decide⟩, ⟨true, 0, ipv6_highest_number, by decide⟩]

theorem intervals_proper {peer : IndexedPeer} {interval : Interval}
    (member : interval ∈ peer.intervals) : interval.Proper := by
  cases peer with
  | other index =>
    obtain rfl := List.mem_singleton.mp member
    exact Int.le_refl _
  | ipBlock cidrs =>
    obtain ⟨cidr, _, rfl⟩ := List.mem_map.mp member
    have proper := cidr.proper
    unfold Interval.Proper
    dsimp only
    omega

end IndexedPeer

namespace BasePeerSet

def getPeerIntervalOf (peer_set : List IndexedPeer) : Except Failure CanonicalIntervalSet :=
  peer_set.foldlM (fun res peer => peer.intervals.foldlM CanonicalIntervalSet.addInterval res) {}

variable {s : CanonicalIntervalSet} {intervals : List Interval} {peer_set : List IndexedPeer}

theorem addIntervals_spec (canonical : s.Canonical) (proper : ∀ i ∈ intervals, i.Proper) :
    Returns (intervals.foldlM CanonicalIntervalSet.addInterval s) fun t =>
      t.Canonical ∧ ∀ n, n ∈ t ↔ n ∈ s ∨ ∃ i ∈ intervals, n ∈ i := by
  induction intervals generalizing s with
  | nil => exact returns_pure ⟨canonical, by simp⟩
  | cons i rest ih =>
    obtain ⟨first, others⟩ := List.forall_mem_cons.mp proper
    rw [List.foldlM_cons]
    refine returns_bind (CanonicalIntervalSet.addInterval_spec first canonical) ?_
    rintro t ⟨canonical', members⟩
    refine returns_mono (ih canonical' others) ?_
    rintro u ⟨canonical'', members'⟩
    refine ⟨canonical'', fun n => ?_⟩
    rw [members', members, or_assoc]
    simp

theorem getPeerIntervalOf_spec (peer_set : List IndexedPeer) :
    Returns (getPeerIntervalOf peer_set) fun t =>
      t.Canonical ∧ ∀ n, n ∈ t ↔ ∃ peer ∈ peer_set, ∃ i ∈ peer.intervals, n ∈ i := by
  have walk : ∀ (s : CanonicalIntervalSet), s.Canonical →
      Returns (peer_set.foldlM (fun res peer =>
        peer.intervals.foldlM CanonicalIntervalSet.addInterval res) s) fun t =>
        t.Canonical ∧ ∀ n, n ∈ t ↔ n ∈ s ∨ ∃ peer ∈ peer_set, ∃ i ∈ peer.intervals, n ∈ i := by
    induction peer_set with
    | nil => exact fun s canonical => returns_pure ⟨canonical, by simp⟩
    | cons peer rest ih =>
      intro s canonical
      rw [List.foldlM_cons]
      refine returns_bind (addIntervals_spec canonical fun i => IndexedPeer.intervals_proper) ?_
      rintro t ⟨canonical', members⟩
      refine returns_mono (ih t canonical') ?_
      rintro u ⟨canonical'', members'⟩
      refine ⟨canonical'', fun n => ?_⟩
      rw [members', members, or_assoc]
      simp
  refine returns_mono (walk {} CanonicalIntervalSet.canonical_empty) ?_
  rintro t ⟨canonical, members⟩
  exact ⟨canonical, fun n => by simp [members, CanonicalIntervalSet.not_mem_empty]⟩

end BasePeerSet

namespace Space

variable {L : Type} [ExactSet L String]

/-- `set_domain` for a dimension of intervals. -/
def setDomain (space : Space L) (dim_name : String) (domain : CanonicalIntervalSet)
    (canonical : domain.Canonical) (some : ∃ n, n ∈ domain) : Space L where
  manager := ⟨Dict.set space.manager.dim_dict dim_name (.IntervalSet, .intervals domain)⟩
  all_dimensions_list := space.all_dimensions_list
  nodup := space.nodup
  some_dimension := space.some_dimension
  domains d member := by
    rw [Dict.get_set]
    by_cases same : dim_name = d
    · obtain ⟨n, inside⟩ := some
      exact ⟨_, if_pos same, rfl, canonical, .int n, inside⟩
    · rw [if_neg same]
      exact space.domains d member

variable {space : Space L} {dim_name d : String} {domain : CanonicalIntervalSet}
  {canonical : domain.Canonical} {some : ∃ n, n ∈ domain}

@[simp] theorem setDomain_dimensions :
    (space.setDomain dim_name domain canonical some).all_dimensions_list =
      space.all_dimensions_list := rfl

theorem domain_setDomain : (space.setDomain dim_name domain canonical some).domain d =
    if dim_name = d then .intervals domain else space.domain d := by
  unfold Space.domain setDomain
  dsimp only
  rw [Dict.get_set]
  by_cases same : dim_name = d
  · rw [if_pos same, if_pos same]
  · rw [if_neg same, if_neg same]

end Space
end Nca.CoreDS
