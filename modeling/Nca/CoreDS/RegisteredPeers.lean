import Nca.CoreDS.PeerSetOperations
import Nca.Lib.Dict
import Mathlib.Algebra.Group.Int.Defs

/-!
The peers that the program knows, by index. A peer set becomes the set of the indices of its
addresses and of its other peers, and is made from such a set again.
-/

namespace Nca.CoreDS
open Lib Python BasePeerSet

/-- The state of `BasePeerSet`. -/
structure RegisteredPeers (K : Type) where
  ordered_peer_list : List K := []
  peer_to_index : List (K × Nat) := []

namespace RegisteredPeers
open Objects CanonicalIntervalSetOf

variable {K : Type} [DecidableEq K]

def addPeer (self : RegisteredPeers K) : PeerRef K → Except Failure (RegisteredPeers K)
  | .ipBlock _ => pure self
  | .other peer =>
    if (Dict.get self.peer_to_index peer).isSome then pure self
    else do
      assert ((self.ordered_peer_list.length : Int) < max_num_of_pods)
      pure { peer_to_index := Dict.set self.peer_to_index peer self.ordered_peer_list.length
             ordered_peer_list := self.ordered_peer_list ++ [peer] }

/-- The state after some registrations. -/
def Reachable (self : RegisteredPeers K) : Prop :=
  ∃ peers : List (PeerRef K), peers.foldlM addPeer {} = .ok self

/-- The interval of indices of a range of addresses. -/
def indexInterval (cidr : IntervalOf IPNetworkAddress) : Interval :=
  match cidr.start.version with
  | .v4 => ⟨min_ipv4_index + cidr.start.address, min_ipv4_index + cidr.end_.address⟩
  | .v6 => ⟨min_ipv6_index + cidr.start.address, min_ipv6_index + cidr.end_.address⟩

variable (self : RegisteredPeers K) (heap : Objects K)

/-- The intervals that `get_peer_interval_of` adds for one peer. -/
def intervalsOf : PeerRef K → Except Failure (List Interval)
  | .ipBlock ref => do pure ((← item heap.blocks ref).interval_set.map indexInterval)
  | .other peer =>
    match Dict.get self.peer_to_index peer with
    | some index => pure [⟨min_pod_index + index, min_pod_index + index⟩]
    | none => .error .assertion

def getPeerIntervalOf (peer_set : Nat) : Except Failure CanonicalIntervalSet := do
  (← item heap.sets peer_set).foldlM (fun res peer => do
    (← self.intervalsOf heap peer).foldlM CanonicalIntervalSet.addInterval res) {}

/-- `ipaddress.IPv4Address` and `ipaddress.IPv6Address` of a number. -/
def ipAddress (version : IpVersion) (address : Int) : Except Failure IPNetworkAddress :=
  if range : 0 ≤ address ∧ address.toNat < 2 ^ version.width then pure ⟨version, address.toNat, range.2⟩
  else .error (.raised "AddressValueError")

/-- The variables of `get_peer_set_by_indices`. -/
structure Decoding (K : Type) where
  peer_set : List (PeerRef K) := []
  ipv4block : IpBlock := {}
  ipv6block : IpBlock := {}

/-- The body of the loop of `get_peer_set_by_indices`. -/
def addIndices (acc : Decoding K) (interval : Interval) : Except Failure (Decoding K) :=
  if interval.end_ ≤ max_ipv4_index then do
    let start ← ipAddress .v4 (interval.start - min_ipv4_index)
    let end_ ← ipAddress .v4 (interval.end_ - min_ipv4_index)
    pure { acc with ipv4block := ← acc.ipv4block.addInterval ⟨start, end_⟩ }
  else if interval.end_ ≤ max_ipv6_index then do
    let start ← ipAddress .v6 (interval.start - min_ipv6_index)
    let end_ ← ipAddress .v6 (interval.end_ - min_ipv6_index)
    pure { acc with ipv6block := ← acc.ipv6block.addInterval ⟨start, end_⟩ }
  else do
    assert (interval.end_ ≤ max_pod_index)
    let curr_pods_max_ind := (self.ordered_peer_list.length : Int) - 1
    let inds := range (min (interval.start - min_pod_index) curr_pods_max_ind)
      (min (interval.end_ - min_pod_index) curr_pods_max_ind + 1)
    let peer_set ← inds.foldlM (fun peer_set ind => do
      pure (heap.setAdd peer_set (.other (← item self.ordered_peer_list ind)))) acc.peer_set
    pure { acc with peer_set := peer_set }

/-- `peer_set.add(block)` for a block that is not empty. -/
def addBlock (peer_set : List (PeerRef K)) (block : IpBlock) : List (PeerRef K) × Objects K :=
  if block.bool then
    let (ref, heap) := heap.newBlock block
    (heap.setAdd peer_set (.ipBlock ref), heap)
  else (peer_set, heap)

def getPeerSetByIndices (peer_interval_set : CanonicalIntervalSet) : Except Failure (Nat × Objects K) := do
  let acc ← peer_interval_set.interval_set.foldlM (self.addIndices heap) {}
  let (peer_set, heap) := addBlock heap acc.peer_set acc.ipv4block
  let (peer_set, heap) := addBlock heap peer_set acc.ipv6block
  pure (heap.newSet peer_set)

section Indices

/-- The dictionary is the inverse of the list, in which no peer occurs twice. -/
structure Indexed (peers : RegisteredPeers K) : Prop where
  nodup : peers.ordered_peer_list.Nodup
  index : ∀ peer i, Dict.get peers.peer_to_index peer = some i ↔ peers.ordered_peer_list[i]? = some peer
  bounded : (peers.ordered_peer_list.length : Int) ≤ max_num_of_pods

variable {self : RegisteredPeers K} {heap : Objects K} {S : PeersView K}

theorem addPeer_indexed {next : RegisteredPeers K} (indexed : Indexed self) {peer : PeerRef K}
    (added : self.addPeer peer = .ok next) : Indexed next := by
  cases peer with
  | ipBlock ref =>
    obtain rfl := Except.ok.inj added
    exact indexed
  | other peer =>
    simp only [addPeer] at added
    by_cases known : (Dict.get self.peer_to_index peer).isSome = true
    · rw [if_pos known] at added
      obtain rfl := Except.ok.inj added
      exact indexed
    · rw [if_neg known] at added
      obtain ⟨_, room, added⟩ := bind_ok.mp added
      obtain rfl := Except.ok.inj added
      have room : (self.ordered_peer_list.length : Int) < max_num_of_pods := by
        by_contra full
        rw [assert, if_neg full] at room
        cases room
      have fresh : peer ∉ self.ordered_peer_list := by
        intro listed
        obtain ⟨i, found⟩ := List.mem_iff_getElem?.mp listed
        rw [← indexed.index] at found
        rw [found] at known
        exact known rfl
      constructor
      · apply List.nodup_append.mpr
        refine ⟨indexed.nodup, List.nodup_singleton peer, ?_⟩
        intro a listed b new same
        rw [same, List.mem_singleton.mp new] at listed
        exact fresh listed
      · intro peer' i
        show Dict.get (Dict.set self.peer_to_index peer self.ordered_peer_list.length) peer' = some i ↔ _
        rw [Dict.get_set]
        by_cases same : peer = peer'
        · subst same
          rw [if_pos rfl]
          constructor
          · intro same
            rw [← Option.some.inj same]
            exact List.getElem?_concat_length
          · intro found
            by_cases before : i < self.ordered_peer_list.length
            · rw [List.getElem?_append_left before] at found
              exact absurd (List.mem_of_getElem? found) fresh
            · obtain ⟨here, _⟩ := List.getElem?_eq_some_iff.mp found
              rw [List.length_append, List.length_singleton] at here
              exact congrArg some (by omega)
        · rw [if_neg same, indexed.index]
          show _ ↔ (self.ordered_peer_list ++ [peer])[i]? = some peer'
          constructor
          · intro found
            obtain ⟨here, _⟩ := List.getElem?_eq_some_iff.mp found
            rwa [List.getElem?_append_left here]
          · intro found
            by_cases before : i < self.ordered_peer_list.length
            · rwa [List.getElem?_append_left before] at found
            · rw [List.getElem?_append_right (by omega)] at found
              exact absurd (List.mem_singleton.mp (List.mem_of_getElem? found)).symm same
      · show ((self.ordered_peer_list ++ [peer]).length : Int) ≤ max_num_of_pods
        rw [List.length_append, List.length_singleton]
        omega

theorem reachable_indexed (reachable : Reachable self) : Indexed self := by
  obtain ⟨peers, run⟩ := reachable
  apply foldlM_ok (fun _ => Indexed) _ _ run
  · exact ⟨List.nodup_nil, by simp [Dict.get], show ((0 : Nat) : Int) ≤ max_num_of_pods by decide⟩
  · exact fun _ _ _ _ indexed added => addPeer_indexed indexed added

theorem registered_iff (indexed : Indexed self) {peer : K} : peer ∈ self.ordered_peer_list ↔
    ∃ i, Dict.get self.peer_to_index peer = some i := by
  rw [List.mem_iff_getElem?]
  exact exists_congr fun i => (indexed.index peer i).symm

/-- The indices of what a peer set stands for. -/
def indicesOf (self : RegisteredPeers K) (S : PeersView K) : Set Int :=
  {n | (∃ peer ∈ S.others, ∃ i : Nat, self.ordered_peer_list[i]? = some peer ∧ n = min_pod_index + i) ∨
    ∃ a ∈ S.addresses, a.index = n}

theorem indexInterval_places {i : IntervalOf IPNetworkAddress} (same : i.start.version = i.end_.version) :
    indexInterval i = i.places := by
  unfold indexInterval
  have start : place i.start = i.start.index := rfl
  have end_ : place i.end_ = i.end_.index := rfl
  unfold IntervalOf.places
  rw [start, end_]
  unfold IPNetworkAddress.index
  rw [← same]
  cases i.start.version with
  | v4 => rfl
  | v6 => rfl

theorem intervalsOf_spec (indexed : Indexed self) (valid : heap.Valid) {peer : PeerRef K}
    (refers : heap.Refers [peer])
    (registered : ∀ k ∈ (heap.viewOf [peer]).others, k ∈ self.ordered_peer_list) :
    Returns (self.intervalsOf heap peer) fun intervals =>
      (∀ i ∈ intervals, i.Proper) ∧ {n | ∃ i ∈ intervals, n ∈ i} = self.indicesOf (heap.viewOf [peer]) := by
  cases peer with
  | other peer =>
    obtain ⟨index, found⟩ := (registered_iff indexed).mp (registered peer (List.mem_singleton_self _))
    simp only [intervalsOf, found]
    refine returns_pure ⟨List.forall_mem_singleton.mpr (Int.le_refl _), ?_⟩
    ext n
    constructor
    · rintro ⟨i, listed, inside⟩
      obtain rfl := List.mem_singleton.mp listed
      have inside : min_pod_index + index ≤ n ∧ n ≤ min_pod_index + index := inside
      exact Or.inl ⟨peer, List.mem_singleton_self _, index, (indexed.index peer index).mp found, by omega⟩
    · intro either
      rcases either with ⟨k, member, i, here, same⟩ | ⟨a, ⟨_, _, no, _⟩, _⟩
      · obtain rfl := PeerRef.other.inj (List.mem_singleton.mp member)
        rw [← indexed.index, found] at here
        obtain rfl := Option.some.inj here
        refine ⟨_, List.mem_singleton_self _, ?_⟩
        rw [same]
        exact ⟨Int.le_refl _, Int.le_refl _⟩
      · cases List.mem_singleton.mp no
  | ipBlock ref =>
    obtain ⟨block, found⟩ : ∃ block, heap.blocks[ref]? = some block :=
      ⟨_, List.getElem?_eq_getElem (refers ref (List.mem_singleton_self _))⟩
    have wellFormed := valid.blocks block (List.mem_of_getElem? found)
    have holds := IpBlock.wellFormed_holds wellFormed
    have same : block.interval_set.map indexInterval = block.places.interval_set :=
      List.map_congr_left fun i listed => indexInterval_places (wellFormed.one_family i listed)
    simp only [intervalsOf, item_found found, ok_bind, same]
    refine returns_pure ⟨holds.1.proper, ?_⟩
    have covered : ∀ a, heap.Covered [PeerRef.ipBlock ref] a ↔ a ∈ block :=
      Set.ext_iff.mp (PeerSetRef.covered_one found)
    ext n
    show n ∈ block.places ↔ _
    rw [holds.2]
    constructor
    · rintro ⟨a, inside, here⟩
      exact Or.inr ⟨a, covered a |>.mpr inside, here⟩
    · intro either
      rcases either with ⟨k, member, _⟩ | ⟨a, inside, here⟩
      · cases List.mem_singleton.mp member
      · exact ⟨a, (covered a).mp inside, here⟩

omit [DecidableEq K] in
theorem indicesOf_union {T : PeersView K} : self.indicesOf (S ∪ T) = self.indicesOf S ∪ self.indicesOf T := by
  ext n
  constructor
  · intro either
    rcases either with ⟨peer, left | right, here⟩ | ⟨a, left | right, here⟩
    · exact Or.inl (Or.inl ⟨peer, left, here⟩)
    · exact Or.inr (Or.inl ⟨peer, right, here⟩)
    · exact Or.inl (Or.inr ⟨a, left, here⟩)
    · exact Or.inr (Or.inr ⟨a, right, here⟩)
  · intro either
    rcases either with (⟨peer, member, here⟩ | ⟨a, member, here⟩) | ⟨peer, member, here⟩ | ⟨a, member, here⟩
    · exact Or.inl ⟨peer, Or.inl member, here⟩
    · exact Or.inr ⟨a, Or.inl member, here⟩
    · exact Or.inl ⟨peer, Or.inr member, here⟩
    · exact Or.inr ⟨a, Or.inr member, here⟩

theorem addPeers_spec (indexed : Indexed self) (valid : heap.Valid) {peers : List (PeerRef K)}
    (refers : heap.Refers peers)
    (registered : ∀ k ∈ (heap.viewOf peers).others, k ∈ self.ordered_peer_list)
    {res : CanonicalIntervalSet} (canonical : res.Canonical) :
    Returns (peers.foldlM (fun res peer => do
      (← self.intervalsOf heap peer).foldlM CanonicalIntervalSet.addInterval res) res) fun t =>
      t.Canonical ∧ {n | n ∈ t} = {n | n ∈ res} ∪ self.indicesOf (heap.viewOf peers) := by
  induction peers generalizing res with
  | nil =>
    refine returns_pure ⟨canonical, ?_⟩
    have none : self.indicesOf (heap.viewOf []) = ∅ := by
      apply Set.eq_empty_of_forall_notMem
      intro n either
      rcases either with ⟨_, no, _⟩ | ⟨_, ⟨_, _, no, _⟩, _⟩
      · cases no
      · cases no
    rw [none, Set.union_empty]
  | cons peer rest ih =>
    have first : Returns (self.intervalsOf heap peer) _ :=
      intervalsOf_spec indexed valid
        (fun ref member => refers ref (List.mem_cons.mpr (Or.inl (List.mem_singleton.mp member))))
        fun k member => registered k (List.mem_cons.mpr (Or.inl (List.mem_singleton.mp member)))
    rw [List.foldlM_cons]
    have step : Returns (do (← self.intervalsOf heap peer).foldlM CanonicalIntervalSet.addInterval res)
        fun t => t.Canonical ∧ {n | n ∈ t} = {n | n ∈ res} ∪ self.indicesOf (heap.viewOf [peer]) := by
      apply returns_bind first
      intro intervals ⟨proper, same⟩
      apply returns_mono (addIntervals_spec canonical proper)
      intro t ⟨canonical', members⟩
      rw [← same]
      exact ⟨canonical', Set.ext members⟩
    apply returns_bind step
    intro t ⟨canonical', members⟩
    apply returns_mono (ih (fun ref member => refers ref (List.mem_cons_of_mem peer member))
      (fun k member => registered k (List.mem_cons_of_mem peer member)) canonical')
    intro u ⟨canonical'', members'⟩
    refine ⟨canonical'', ?_⟩
    rw [members', members, Set.union_assoc, ← indicesOf_union, ← viewOf_append]
    rfl

theorem getPeerIntervalOf_exact (indexed : Indexed self) (valid : heap.Valid) {peer_set : Nat}
    (covers : heap.Covers peer_set S) (registered : ∀ k ∈ S.others, k ∈ self.ordered_peer_list) :
    Returns (self.getPeerIntervalOf heap peer_set) fun t =>
      t.Canonical ∧ {n | n ∈ t} = self.indicesOf S := by
  obtain ⟨peers, found, rfl⟩ := covers
  unfold getPeerIntervalOf
  rw [item_found found, ok_bind]
  apply returns_mono (addPeers_spec indexed valid (valid.refers found) registered
    CanonicalIntervalSet.canonical_empty)
  intro t ⟨canonical, members⟩
  have none : {n | n ∈ ({} : CanonicalIntervalSet)} = ∅ :=
    Set.eq_empty_of_forall_notMem fun _ => CanonicalIntervalSet.not_mem_empty
  rw [none, Set.empty_union] at members
  exact ⟨canonical, members⟩

end Indices

end RegisteredPeers
end Nca.CoreDS
