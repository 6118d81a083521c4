import Nca.FWRules.BasicGrouping

/-!
What the basic grouping keeps: each step that records a pair of base elements takes from what is left
over only pairs of these, and records only pairs that are covered. So what is recorded and what is left
over has all the given pairs, and what is recorded has only pairs that are given or borrowed.
-/

namespace Nca.FWRules
open CoreDS Lib Lib.Python LabeledPeers

section Sides

variable {E : Type} {is_src : Bool} {dim_peers other_dim_peers : PeerSet E}

theorem mem_dimProduct {e e' : E} : dimPair is_src e e' ∈ dimProduct is_src dim_peers other_dim_peers ↔
    e ∈ dim_peers ∧ e' ∈ other_dim_peers := by
  cases is_src <;> simp [dimPair, dimProduct, and_comm]

/-- Every pair is a pair of its sides. -/
theorem dimPair_surjective (is_src : Bool) (pair : E × E) : ∃ e e', pair = dimPair is_src e e' := by
  cases is_src with
  | false => exact ⟨pair.2, pair.1, rfl⟩
  | true => exact ⟨pair.1, pair.2, rfl⟩

theorem dimProduct_subset {props : PeerProps E} : dimProduct is_src dim_peers other_dim_peers ⊆ props ↔
    ∀ e ∈ dim_peers, ∀ e' ∈ other_dim_peers, dimPair is_src e e' ∈ props := by
  constructor
  · intro inside e member e' member'
    exact inside (mem_dimProduct.mpr ⟨member, member'⟩)
  · intro each pair member
    obtain ⟨e, e', rfl⟩ := dimPair_surjective is_src pair
    obtain ⟨here, there⟩ := mem_dimProduct.mp member
    exact each e here e' there

theorem dimProduct_nonempty (some : dimProduct is_src dim_peers other_dim_peers ≠ ∅) :
    dim_peers ≠ ∅ ∧ other_dim_peers ≠ ∅ := by
  obtain ⟨pair, member⟩ := Finset.nonempty_of_ne_empty some
  obtain ⟨e, e', rfl⟩ := dimPair_surjective is_src pair
  obtain ⟨here, there⟩ := mem_dimProduct.mp member
  exact ⟨Finset.ne_empty_of_mem here, Finset.ne_empty_of_mem there⟩

end Sides

section Recording

variable {E : Type} [DecidableEq E] {cluster_info : ClusterInfo E} {is_src : Bool}
  {peer_props covered : PeerProps E} {grouping : BasicGrouping E} {pair : E × E}

/-- The pair belongs to some pair of base elements that is recorded. -/
def BasicGrouping.Records (cluster_info : ClusterInfo E) (grouping : BasicGrouping E) (pair : E × E) : Prop :=
  (∃ p ∈ grouping.ns_set_pairs, pair.1 ∈ FWRuleElement.nsPodsSet cluster_info p.1 ∧
    pair.2 ∈ FWRuleElement.nsPodsSet cluster_info p.2) ∨
  ∃ p ∈ grouping.base_elem_pairs, pair.1 ∈ p.1.peers cluster_info ∧ pair.2 ∈ p.2.peers cluster_info

/-- What is recorded stays inside what is covered, and with what is left over it has all pairs. -/
structure GroupedPairs (cluster_info : ClusterInfo E) (peer_props covered : PeerProps E)
    (grouping : BasicGrouping E) : Prop where
  covered_props : grouping.covered_peer_props ⊆ covered
  left_over : grouping.peer_props_without_ns_expr ⊆ peer_props
  inside : ∀ pair, grouping.Records cluster_info pair → pair ∈ covered
  kept : ∀ pair ∈ peer_props,
    grouping.Records cluster_info pair ∨ pair ∈ grouping.peer_props_without_ns_expr
  nonempty : ∀ p ∈ grouping.base_elem_pairs, p.1.peers cluster_info ≠ ∅ ∧ p.2.peers cluster_info ≠ ∅

/-- The recording of two sides, with what is left over without their pairs. -/
def BasicGrouping.record (grouping : BasicGrouping E) (cluster_info : ClusterInfo E) (is_src : Bool)
    (dim other_dim : BaseElement E) : BasicGrouping E :=
  { grouping with
    peer_props_without_ns_expr := grouping.peer_props_without_ns_expr \
      dimProduct is_src (dim.peers cluster_info) (other_dim.peers cluster_info)
    base_elem_pairs := insert (dimPair is_src dim other_dim) grouping.base_elem_pairs }

theorem dimPair_peers {dim other_dim : BaseElement E} :
    pair.1 ∈ (dimPair is_src dim other_dim).1.peers cluster_info ∧
      pair.2 ∈ (dimPair is_src dim other_dim).2.peers cluster_info ↔
    pair ∈ dimProduct is_src (dim.peers cluster_info) (other_dim.peers cluster_info) := by
  cases is_src <;> simp [dimPair, dimProduct]

theorem records_record {dim other_dim : BaseElement E} :
    (grouping.record cluster_info is_src dim other_dim).Records cluster_info pair ↔
      grouping.Records cluster_info pair ∨
        pair ∈ dimProduct is_src (dim.peers cluster_info) (other_dim.peers cluster_info) := by
  rw [← dimPair_peers]
  simp only [BasicGrouping.Records, BasicGrouping.record, Finset.exists_mem_insert]
  rw [or_assoc]
  exact or_congr_right or_comm

theorem GroupedPairs.record (dim other_dim : BaseElement E)
    (grouped : GroupedPairs cluster_info peer_props covered grouping)
    (within : dimProduct is_src (dim.peers cluster_info) (other_dim.peers cluster_info) ⊆ covered)
    (some : dim.peers cluster_info ≠ ∅) (some' : other_dim.peers cluster_info ≠ ∅) :
    GroupedPairs cluster_info peer_props covered (grouping.record cluster_info is_src dim other_dim) where
  covered_props := grouped.covered_props
  left_over := Finset.sdiff_subset.trans grouped.left_over
  inside pair recorded := by
    cases records_record.mp recorded with
    | inl before => exact grouped.inside pair before
    | inr now => exact within now
  kept pair given := by
    rw [records_record]
    show _ ∨ pair ∈ _ \ _
    rw [Finset.mem_sdiff]
    have before := grouped.kept pair given
    tauto
  nonempty p listed := by
    cases Finset.mem_insert.mp listed with
    | inl now =>
      rw [now]
      cases is_src with
      | false => exact ⟨some', some⟩
      | true => exact ⟨some, some'⟩
    | inr before => exact grouped.nonempty p before

theorem recordIfNeeded_grouped {curr_ns_set : Namespaces} {other_dim_peers : PeerSet E}
    (grouped : GroupedPairs cluster_info peer_props covered grouping)
    (within : dimProduct is_src (FWRuleElement.nsPodsSet cluster_info curr_ns_set) other_dim_peers ⊆ covered) :
    GroupedPairs cluster_info peer_props covered
      (recordIfNeeded cluster_info is_src curr_ns_set other_dim_peers grouping) := by
  unfold recordIfNeeded
  dsimp only
  split
  case isTrue changed =>
    have some : dimProduct is_src (FWRuleElement.nsPodsSet cluster_info curr_ns_set) other_dim_peers ≠ ∅ := by
      intro nothing
      rw [nothing, Finset.sdiff_empty] at changed
      exact changed rfl
    obtain ⟨here, there⟩ := dimProduct_nonempty some
    exact grouped.record (.namespaces curr_ns_set) (.peerSet other_dim_peers) within here there
  case isFalse => exact grouped

end Recording

section Tables

variable {E : Type} {is_src : Bool} {covered : PeerProps E}

/-- The sides that a table relates have all their pairs in what is covered. -/
def Backed {κ : Type} (peers : κ → PeerSet E) (is_src : Bool) (covered : PeerProps E)
    (table : List (κ × PeerSet E)) : Prop :=
  ∀ k e', SetDict.Relates table k e' → ∀ e ∈ peers k, dimPair is_src e e' ∈ covered

theorem Backed.entry {κ : Type} {peers : κ → PeerSet E} {table : List (κ × PeerSet E)}
    (backed : Backed peers is_src covered table) {entry : κ × PeerSet E} (listed : entry ∈ table) :
    dimProduct is_src (peers entry.1) entry.2 ⊆ covered :=
  dimProduct_subset.mpr fun e member e' member' => backed entry.1 e' ⟨entry, listed, rfl, member'⟩ e member

variable [DecidableEq E] {cluster_info : ClusterInfo E}

theorem Backed.update {κ : Type} [DecidableEq κ] {peers : κ → PeerSet E} {table : List (κ × PeerSet E)}
    {k : κ} {others : PeerSet E} (backed : Backed peers is_src covered table)
    (now : dimProduct is_src (peers k) others ⊆ covered) :
    Backed peers is_src covered (SetDict.update table k others) := by
  intro k' e' related e member
  cases SetDict.relates_update.mp related with
  | inl before => exact backed k' e' before e member
  | inr new =>
    obtain ⟨rfl, inside⟩ := new
    exact dimProduct_subset.mp now e member e' inside

theorem coveredNsSet_inside {ns_set : Namespaces} {without_ns : PeerProps E}
    {cube : PeerSet E × PeerSet E} : FWRuleElement.nsPodsSet cluster_info
      (coveredNsSet cluster_info ns_set is_src without_ns cube) ⊆ cube.1 := by
  intro e member
  obtain ⟨ns, chosen, placed⟩ := Finset.mem_biUnion.mp member
  exact (Finset.mem_filter.mp chosen).2.1 placed

theorem addCoveredNsSets_backed (cluster_info : ClusterInfo E) (ns_set : Namespaces)
    (without_ns : PeerProps E) {cubes : List (PeerSet E × PeerSet E)}
    (inside : ∀ cube ∈ cubes, dimProduct is_src cube.1 cube.2 ⊆ covered) :
    Backed (FWRuleElement.nsPodsSet cluster_info) is_src covered
      (cubes.foldl (addCoveredNsSet cluster_info ns_set is_src without_ns) []) := by
  apply foldl_prefix fun _ table => Backed (FWRuleElement.nsPodsSet cluster_info) is_src covered table
  · intro k e' ⟨entry, listed, _⟩
    exact absurd listed List.not_mem_nil
  · intro _ cube table listed backed
    unfold addCoveredNsSet
    dsimp only
    split
    case isTrue =>
      apply backed.update
      apply dimProduct_subset.mpr
      intro e member e' member'
      exact dimProduct_subset.mp (inside cube listed) e (coveredNsSet_inside member) e' member'
    case isFalse => exact backed

end Tables

section Borrowing

variable {E : Type} [DecidableEq E] [RulePeers E] {cluster_info : ClusterInfo E} {is_src : Bool}
  {peer_props covered : PeerProps E} {grouping : BasicGrouping E}

theorem addNsElement_grouped {entry : Namespaces × PeerSet E}
    (grouped : GroupedPairs cluster_info peer_props covered grouping)
    (within : dimProduct is_src (FWRuleElement.nsPodsSet cluster_info entry.1) entry.2 ⊆ covered) :
    GroupedPairs cluster_info peer_props covered (addNsElement cluster_info is_src grouping entry) := by
  have part : ∀ others ⊆ entry.2,
      dimProduct is_src (FWRuleElement.nsPodsSet cluster_info entry.1) others ⊆ covered := by
    intro others fewer
    apply dimProduct_subset.mpr
    intro e member e' member'
    exact dimProduct_subset.mp within e member e' (fewer member')
  exact recordIfNeeded_grouped (recordIfNeeded_grouped grouped (part _ (Finset.filter_subset _ _)))
    (part _ (Finset.filter_subset _ _))

variable [Fintype E] {orders : GroupingOrders E}

omit [RulePeers E] in
theorem reorder_eq {props : PeerProps E} (some_out : props ≠ Finset.univ) :
    reorderBySwitchingSrcDstPeers orders props = .ok (orders.switched_cubes props) := if_neg some_out

/-- The cubes are inside the properties; they can be had unless all pairs are in these. -/
theorem cubesByDim_inside (sound : orders.Sound) {props : PeerProps E} (some_out : props ≠ Finset.univ) :
    Returns (cubesByDim orders is_src props) fun cubes =>
      ∀ cube ∈ cubes, dimProduct is_src cube.1 cube.2 ⊆ props := by
  unfold cubesByDim
  apply returns_ite
  · intro src
    rw [reorder_eq some_out, src]
    apply returns_ok
    intro cube listed pair member
    exact (sound.switched_cubes.pairs props pair).mp ⟨cube, listed, Finset.mem_product.mp member⟩
  · intro dst
    rw [Bool.not_eq_true] at dst
    rw [dst]
    apply returns_pure
    intro cube listed pair member
    obtain ⟨cube, present, rfl⟩ := List.mem_map.mp listed
    exact (sound.cubes.pairs props pair).mp ⟨cube, present, Finset.mem_product.mp member⟩

omit [RulePeers E] in
/-- Not everything is covered, so not everything is still to be covered. -/
theorem GroupedPairs.some_out (grouped : GroupedPairs cluster_info peer_props covered grouping)
    (some_out : covered ≠ Finset.univ) : grouping.covered_peer_props ≠ Finset.univ := by
  intro all
  have above := grouped.covered_props
  rw [all, Finset.univ_subset_iff] at above
  exact some_out above

theorem computePartialNsGrouping_grouped (sound : orders.Sound) {ns_set : Namespaces}
    (some_out : covered ≠ Finset.univ)
    (grouped : GroupedPairs cluster_info peer_props covered grouping) :
    Returns (computePartialNsGrouping orders cluster_info ns_set is_src grouping)
      (GroupedPairs cluster_info peer_props covered) := by
  unfold computePartialNsGrouping
  apply returns_bind (cubesByDim_inside sound (grouped.some_out some_out))
  intro cubes inside
  apply returns_pure
  have backed := addCoveredNsSets_backed cluster_info ns_set grouping.peer_props_without_ns_expr
    fun cube listed => (inside cube listed).trans grouped.covered_props
  apply foldl_prefix (fun _ => GroupedPairs cluster_info peer_props covered) grouped
  intro _ entry acc listed so_far
  exact addNsElement_grouped so_far (backed.entry listed)


/-- The keys of a table and what they have are not empty. -/
def Filled (table : List (PeerSet E × PeerSet E)) : Prop := ∀ entry ∈ table, entry.1 ≠ ∅ ∧ entry.2 ≠ ∅

omit [Fintype E] [RulePeers E] in
theorem addToMapIfCovered_backed {without_ns : PeerProps E} {table : List (PeerSet E × PeerSet E)}
    {dim_peers other_dim_peers : PeerSet E} (filled : Filled table)
    (backed : Backed (fun peers => peers) is_src covered table)
    (within : dimProduct is_src dim_peers other_dim_peers ⊆ covered) :
    Filled (addToMapIfCovered is_src without_ns other_dim_peers table dim_peers) ∧
      Backed (fun peers => peers) is_src covered
        (addToMapIfCovered is_src without_ns other_dim_peers table dim_peers) := by
  unfold addToMapIfCovered
  split
  case isTrue needed =>
    refine ⟨?_, backed.update within⟩
    have some : dimProduct is_src dim_peers other_dim_peers ≠ ∅ := by
      intro nothing
      rw [nothing, Finset.empty_inter] at needed
      exact needed rfl
    obtain ⟨here, there⟩ := dimProduct_nonempty some
    intro entry listed
    cases Dict.mem_set listed with
    | inl before => exact filled entry before
    | inr now =>
      rw [now]
      refine ⟨here, ?_⟩
      intro nothing
      exact there (Finset.union_eq_empty.mp nothing).2
  case isFalse => exact ⟨filled, backed⟩

theorem addFullIpblockAndDns_backed (sound : orders.Sound) (without_ns : PeerProps E)
    {cubes : List (PeerSet E × PeerSet E)}
    (inside : ∀ cube ∈ cubes, dimProduct is_src cube.1 cube.2 ⊆ covered) :
    Filled (cubes.foldl (addFullIpblockAndDns orders is_src without_ns) []) ∧
      Backed (fun peers => peers) is_src covered
        (cubes.foldl (addFullIpblockAndDns orders is_src without_ns) []) := by
  apply foldl_prefix fun _ table => Filled table ∧ Backed (fun peers => peers) is_src covered table
  · refine ⟨List.forall_mem_nil _, ?_⟩
    intro k e' ⟨entry, listed, _⟩
    exact absurd listed List.not_mem_nil
  · intro _ cube table listed before
    unfold addFullIpblockAndDns
    dsimp only
    apply foldl_prefix (fun _ table => Filled table ∧ Backed (fun peers => peers) is_src covered table) before
    intro _ key acc chosen ⟨filled, backed⟩
    apply addToMapIfCovered_backed filled backed
    -- a key is a set of peers of the cube
    have part : key ⊆ cube.1 := by
      cases List.mem_append.mp chosen with
      | inl block =>
        split at block
        case isTrue =>
          rw [List.mem_singleton.mp block]
          exact Finset.filter_subset _ _
        case isFalse => exact absurd block List.not_mem_nil
      | inr entry =>
        obtain ⟨dns_entry, visited, rfl⟩ := List.mem_map.mp entry
        have given := (sound.peers 1 _ dns_entry).mp visited
        exact Finset.singleton_subset_iff.mpr (Finset.mem_filter.mp given).1
    apply dimProduct_subset.mpr
    intro e member e' member'
    exact dimProduct_subset.mp (inside cube listed) e (part member) e' member'

theorem computeFullIpblockAndDnsGrouping_grouped (sound : orders.Sound) (some_out : covered ≠ Finset.univ)
    (grouped : GroupedPairs cluster_info peer_props covered grouping) :
    Returns (computeFullIpblockAndDnsGrouping orders is_src grouping)
      (GroupedPairs cluster_info peer_props covered) := by
  unfold computeFullIpblockAndDnsGrouping
  apply returns_bind (cubesByDim_inside sound (grouped.some_out some_out))
  intro cubes inside
  apply returns_pure
  obtain ⟨filled, backed⟩ := addFullIpblockAndDns_backed sound grouping.peer_props_without_ns_expr
    fun cube listed => (inside cube listed).trans grouped.covered_props
  apply foldl_prefix (fun _ => GroupedPairs cluster_info peer_props covered) grouped
  intro _ entry acc listed so_far
  obtain ⟨here, there⟩ := filled entry listed
  exact so_far.record (.peerSet entry.1) (.peerSet entry.2) (backed.entry listed) here there

omit [Fintype E] [RulePeers E] in
theorem ifLeftOver_grouped {step : BasicGrouping E → Except Failure (BasicGrouping E)}
    (kept : ∀ grouping, GroupedPairs cluster_info peer_props covered grouping →
      Returns (step grouping) (GroupedPairs cluster_info peer_props covered))
    (grouped : GroupedPairs cluster_info peer_props covered grouping) :
    Returns (ifLeftOver step grouping) (GroupedPairs cluster_info peer_props covered) :=
  returns_ite (fun _ => kept grouping grouped) fun _ => returns_pure grouped

end Borrowing

section FullNs

variable {E : Type} [DecidableEq E] {cluster_info : ClusterInfo E} {peer_props covered : PeerProps E}
  {visited : List (Option String × Option String)} {state : FullNsGrouping E}

/-- After some pairs of namespaces: a pair that is recorded is covered as a whole, and a given pair of
peers of a visited pair is recorded or left over. -/
structure NsGrouped (cluster_info : ClusterInfo E) (peer_props covered : PeerProps E)
    (visited : List (Option String × Option String)) (state : FullNsGrouping E) : Prop where
  covered_props : state.grouping.covered_peer_props ⊆ covered
  left_over : state.grouping.peer_props_without_ns_expr ⊆ peer_props
  ns_set_pairs : state.grouping.ns_set_pairs = ∅
  base_elem_pairs : state.grouping.base_elem_pairs = ∅
  same : ∀ s d, SetDict.Relates state.src_ns_to_dst_ns s d ↔ SetDict.Relates state.dst_ns_to_src_ns d s
  inside : ∀ s d, SetDict.Relates state.src_ns_to_dst_ns s d →
    nsPeers cluster_info s ×ˢ nsPeers cluster_info d ⊆ covered
  kept : ∀ p ∈ visited, ∀ pair ∈ peer_props,
    pair ∈ nsPeers cluster_info p.1 ×ˢ nsPeers cluster_info p.2 →
      SetDict.Relates state.src_ns_to_dst_ns p.1 p.2 ∨ pair ∈ state.grouping.peer_props_without_ns_expr

theorem addNsProduct_grouped (grouped : NsGrouped cluster_info peer_props covered visited state)
    (p : Option String × Option String) : NsGrouped cluster_info peer_props covered (visited ++ [p])
      (addNsProduct cluster_info peer_props state p) := by
  unfold addNsProduct
  dsimp only
  split
  case isTrue contained =>
    have above : state.grouping.covered_peer_props \
        nsPeers cluster_info p.1 ×ˢ nsPeers cluster_info p.2 ⊆ covered :=
      Finset.sdiff_subset.trans grouped.covered_props
    split
    case isTrue needed =>
      exact {
        covered_props := above
        left_over := grouped.left_over
        ns_set_pairs := grouped.ns_set_pairs
        base_elem_pairs := grouped.base_elem_pairs
        same := by
          intro s d
          rw [SetDict.relates_add, SetDict.relates_add, grouped.same]
          tauto
        inside := by
          intro s d related
          cases SetDict.relates_add.mp related with
          | inl before => exact grouped.inside s d before
          | inr now =>
            obtain ⟨rfl, rfl⟩ := now
            exact contained.trans grouped.covered_props
        kept := by
          intro q seen pair given member
          rw [SetDict.relates_add]
          cases List.mem_append.mp seen with
          | inl before =>
            have now := grouped.kept q before pair given member
            tauto
          | inr last =>
            rw [List.mem_singleton.mp last]
            exact .inl (.inr ⟨rfl, rfl⟩) }
    case isFalse unneeded =>
      exact {
        covered_props := above
        left_over := grouped.left_over
        ns_set_pairs := grouped.ns_set_pairs
        base_elem_pairs := grouped.base_elem_pairs
        same := grouped.same
        inside := grouped.inside
        kept := by
          intro q seen pair given member
          cases List.mem_append.mp seen with
          | inl before => exact grouped.kept q before pair given member
          | inr last =>
            rw [List.mem_singleton.mp last] at member
            have both := Finset.ne_empty_of_mem (Finset.mem_inter.mpr ⟨member, given⟩)
            exact absurd both unneeded }
  case isFalse =>
    exact {
      covered_props := grouped.covered_props
      left_over := Finset.union_subset grouped.left_over Finset.inter_subset_right
      ns_set_pairs := grouped.ns_set_pairs
      base_elem_pairs := grouped.base_elem_pairs
      same := grouped.same
      inside := grouped.inside
      kept := by
        intro q seen pair given member
        show _ ∨ pair ∈ _ ∪ _
        rw [Finset.mem_union, Finset.mem_inter]
        cases List.mem_append.mp seen with
        | inl before =>
          have now := grouped.kept q before pair given member
          tauto
        | inr last =>
          rw [List.mem_singleton.mp last] at member
          exact .inr (.inr ⟨member, given⟩) }

omit [DecidableEq E] in
/-- Either of the two groupings has the pairs of namespaces that are recorded. -/
theorem mem_compactNsSetPairs (grouped : NsGrouped cluster_info peer_props covered visited state)
    {s d : Option String} : (∃ p ∈ compactNsSetPairs state, s ∈ p.1 ∧ d ∈ p.2) ↔
      SetDict.Relates state.src_ns_to_dst_ns s d := by
  unfold compactNsSetPairs
  dsimp only
  split
  case isTrue =>
    rw [← SetDict.invert_relates]
    constructor
    · intro ⟨p, listed, source, target⟩
      obtain ⟨group, made, rfl⟩ := List.mem_map.mp (List.mem_toFinset.mp listed)
      exact ⟨group, made, source, target⟩
    · intro ⟨group, made, source, target⟩
      exact ⟨_, List.mem_toFinset.mpr (List.mem_map_of_mem made), source, target⟩
  case isFalse =>
    rw [grouped.same, ← SetDict.invert_relates]
    simp [and_comm]

end FullNs

section Basic

variable {E : Type} [Fintype E] [DecidableEq E] [RulePeers E] {orders : GroupingOrders E}
  {all_peers : List E} {allowed_labels : List Str} {peer_props containing : PeerProps E}

theorem peerProps_covered : peer_props ∪ containing ⊆ computeCoveredPeerProps orders peer_props containing := by
  unfold computeCoveredPeerProps
  dsimp only
  split
  case isTrue =>
    apply foldl_prefix (fun _ (acc : PeerProps E) => peer_props ∪ containing ⊆ acc) subset_rfl
    intro _ pod acc _ before
    split
    · exact before.trans Finset.subset_union_left
    · exact before
  case isFalse => exact subset_rfl

/-- What is covered is given, or allowed by connections that contain these, or joins a cluster endpoint
of the given pairs to itself. -/
theorem covered_origin (sound : orders.Sound) {pair : E × E}
    (member : pair ∈ computeCoveredPeerProps orders peer_props containing) :
    pair ∈ peer_props ∨ pair ∈ containing ∨
      pair.1 = pair.2 ∧ IsClusterEP pair.1 ∧ pair.1 ∈ PeerProps.getAllPeers peer_props := by
  unfold computeCoveredPeerProps at member
  dsimp only at member
  split at member
  case isTrue =>
    revert member
    apply foldl_prefix (fun _ (acc : PeerProps E) => pair ∈ acc → pair ∈ peer_props ∨ pair ∈ containing ∨
      pair.1 = pair.2 ∧ IsClusterEP pair.1 ∧ pair.1 ∈ PeerProps.getAllPeers peer_props)
    · intro given
      exact (Finset.mem_union.mp given).imp_right .inl
    · intro _ pod acc visited before member
      split at member
      case isTrue endpoint =>
        cases Finset.mem_union.mp member with
        | inl old => exact before old
        | inr own =>
          rw [Finset.mem_singleton.mp own]
          exact .inr (.inr ⟨rfl, endpoint, (sound.peers 0 _ pod).mp visited⟩)
      case isFalse => exact before member
  case isFalse => exact (Finset.mem_union.mp member).imp_right .inl

/-- Both ends of the pairs are known. -/
def KnownPairs (cluster_info : ClusterInfo E) (props : PeerProps E) : Prop :=
  ∀ pair ∈ props, (IsClusterEP pair.1 → pair.1 ∈ cluster_info.allPods) ∧
    (IsClusterEP pair.2 → pair.2 ∈ cluster_info.allPods)

omit [RulePeers E] in
theorem mem_project (is_src : Bool) {props : PeerProps E} {pair : E × E} (member : pair ∈ props) :
    (if is_src then pair.1 else pair.2) ∈ projectOnOneDimension is_src props := by
  unfold projectOnOneDimension
  rw [if_neg (Finset.ne_empty_of_mem member)]
  exact Finset.mem_image_of_mem _ member

theorem mem_allNsSet (is_src : Bool) {covered : PeerProps E} {pair : E × E} (member : pair ∈ covered)
    (pod : Peers.kind (if is_src then pair.1 else pair.2) = .pod) :
    peer_namespace (if is_src then pair.1 else pair.2) ∈ allNsSet is_src covered :=
  Finset.mem_image_of_mem _ (Finset.mem_filter.mpr ⟨mem_project is_src member, pod⟩)

/-- The grouping by namespaces on both sides, with the pairs of peers that have no namespace. -/
theorem fullNsGrouping_grouped (sound : orders.Sound) {covered : PeerProps E}
    (known : KnownPairs (ClusterInfo.init all_peers allowed_labels) peer_props)
    (given : peer_props ⊆ covered) :
    GroupedPairs (ClusterInfo.init all_peers allowed_labels) peer_props covered
      (addElemsWithoutNs peer_props (computeFullNsGrouping orders (ClusterInfo.init all_peers allowed_labels)
        peer_props (allNsSet true covered) (allNsSet false covered) { covered_peer_props := covered })) := by
  let cluster_info := ClusterInfo.init all_peers allowed_labels
  let pairs := orders.namespaces 0 (allNsSet true covered) ×ˢ orders.namespaces 1 (allNsSet false covered)
  let state : FullNsGrouping E :=
    pairs.foldl (addNsProduct cluster_info peer_props) ⟨{ covered_peer_props := covered }, [], []⟩
  have grouped : NsGrouped cluster_info peer_props covered pairs state := by
    apply foldl_prefix (NsGrouped cluster_info peer_props covered)
    · exact {
        covered_props := subset_rfl
        left_over := Finset.empty_subset _
        ns_set_pairs := rfl
        base_elem_pairs := rfl
        same := by simp [SetDict.Relates]
        inside := by simp [SetDict.Relates]
        kept := List.forall_mem_nil _ }
    · intro before p acc _ so_far
      exact addNsProduct_grouped so_far p
  have recorded (pair : E × E) : (∃ p ∈ compactNsSetPairs state,
      pair.1 ∈ FWRuleElement.nsPodsSet cluster_info p.1 ∧ pair.2 ∈ FWRuleElement.nsPodsSet cluster_info p.2) ↔
        ∃ s d, SetDict.Relates state.src_ns_to_dst_ns s d ∧
          pair ∈ nsPeers cluster_info s ×ˢ nsPeers cluster_info d := by
    refine ⟨fun found => ?_, fun related => ?_⟩
    · obtain ⟨p, listed, here, there⟩ := found
      obtain ⟨s, source, here⟩ := Finset.mem_biUnion.mp here
      obtain ⟨d, target, there⟩ := Finset.mem_biUnion.mp there
      exact ⟨s, d, (mem_compactNsSetPairs grouped).mp ⟨p, listed, source, target⟩,
        Finset.mem_product.mpr ⟨here, there⟩⟩
    · obtain ⟨s, d, related, member⟩ := related
      obtain ⟨here, there⟩ := Finset.mem_product.mp member
      obtain ⟨p, listed, source, target⟩ := (mem_compactNsSetPairs grouped).mpr related
      exact ⟨p, listed, Finset.mem_biUnion.mpr ⟨s, source, here⟩, Finset.mem_biUnion.mpr ⟨d, target, there⟩⟩
  have records (pair : E × E) : BasicGrouping.Records cluster_info (addElemsWithoutNs peer_props
      (computeFullNsGrouping orders cluster_info peer_props (allNsSet true covered) (allNsSet false covered)
        { covered_peer_props := covered })) pair ↔
      ∃ s d, SetDict.Relates state.src_ns_to_dst_ns s d ∧
        pair ∈ nsPeers cluster_info s ×ˢ nsPeers cluster_info d := by
    rw [← recorded]
    show (∃ p ∈ state.grouping.ns_set_pairs ∪ compactNsSetPairs state, _) ∨
      (∃ p ∈ state.grouping.base_elem_pairs, _) ↔ _
    rw [grouped.ns_set_pairs, grouped.base_elem_pairs, Finset.empty_union]
    simp
  exact {
    covered_props := grouped.covered_props
    left_over := Finset.union_subset grouped.left_over Finset.inter_subset_right
    inside := by
      intro pair was
      obtain ⟨s, d, related, member⟩ := (records pair).mp was
      exact grouped.inside s d related member
    kept := by
      intro pair here
      rw [records]
      show _ ∨ pair ∈ state.grouping.peer_props_without_ns_expr ∪ _
      rw [Finset.mem_union, Finset.mem_inter]
      by_cases pods : Peers.kind pair.1 = .pod ∧ Peers.kind pair.2 = .pod
      · obtain ⟨source, target⟩ := pods
        obtain ⟨source_known, target_known⟩ := known pair here
        have listed : (peer_namespace pair.1, peer_namespace pair.2) ∈ pairs := List.mem_product.mpr
          ⟨(sound.namespaces 0 _ _).mpr (mem_allNsSet true (given here) source),
            (sound.namespaces 1 _ _).mpr (mem_allNsSet false (given here) target)⟩
        have member : pair ∈ nsPeers cluster_info (peer_namespace pair.1) ×ˢ
            nsPeers cluster_info (peer_namespace pair.2) := Finset.mem_product.mpr
          ⟨ClusterInfo.mem_ns_dict.mpr ⟨source_known (.inl source), rfl⟩,
            ClusterInfo.mem_ns_dict.mpr ⟨target_known (.inl target), rfl⟩⟩
        cases grouped.kept _ listed pair here member with
        | inl related => exact .inl ⟨_, _, related, member⟩
        | inr left => exact .inr (.inl left)
      · refine .inr (.inr ⟨?_, here⟩)
        simp only [Finset.mem_union, Finset.mem_product, Finset.mem_filter, Finset.mem_univ]
        have source := mem_project true here
        have target := mem_project false here
        grind
    nonempty := by
      intro p listed
      have none_yet : p ∈ state.grouping.base_elem_pairs := listed
      rw [grouped.base_elem_pairs] at none_yet
      exact absurd none_yet (Finset.notMem_empty p) }

/-- What the basic grouping records and what it leaves over. -/
theorem computeBasicGrouping_grouped (sound : orders.Sound)
    (known : KnownPairs (ClusterInfo.init all_peers allowed_labels) peer_props)
    (some_out : computeCoveredPeerProps orders peer_props containing ≠ Finset.univ) :
    Returns (computeBasicGrouping orders (ClusterInfo.init all_peers allowed_labels) peer_props containing)
      (GroupedPairs (ClusterInfo.init all_peers allowed_labels) peer_props
        (computeCoveredPeerProps orders peer_props containing)) := by
  unfold computeBasicGrouping
  have given : peer_props ⊆ computeCoveredPeerProps orders peer_props containing :=
    Finset.subset_union_left.trans peerProps_covered
  have full := fullNsGrouping_grouped sound known given
  apply returns_bind (computePartialNsGrouping_grouped sound some_out full)
  intro dst_ns grouped
  apply returns_bind (ifLeftOver_grouped (fun _ => computePartialNsGrouping_grouped sound some_out) grouped)
  intro src_ns grouped
  apply returns_bind
    (ifLeftOver_grouped (fun _ => computeFullIpblockAndDnsGrouping_grouped sound some_out) grouped)
  intro dst_block grouped
  exact ifLeftOver_grouped (fun _ => computeFullIpblockAndDnsGrouping_grouped sound some_out) grouped

end Basic
end Nca.FWRules
