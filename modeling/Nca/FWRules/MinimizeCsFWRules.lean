import Nca.FWRules.GroupedPairs

/-!
`MinimizeCsFwRules`: the firewall rules of one connection set. The rules are made of the pairs that the
basic grouping records and of the cubes of what it leaves over. They apply to all given pairs of peers,
and otherwise only to pairs that connections containing these allow, and to endpoints that are connected
to themselves.
-/

namespace Nca.FWRules
open CoreDS Lib Lib.Python LabeledPeers

section Rules

variable {E P : Type} [Fintype E] [DecidableEq E] [RulePeers E] (orders : GroupingOrders E)
  (cluster_info : ClusterInfo E) (fwRulesGroupByLabelSinglePod : Bool) (fuel : Nat) (props : P)

/-- A loop that collects rules. -/
def collectRules {ι : Type} (make : ι → Except Failure (List (FWRule E P))) (items : List ι) :
    Except Failure (List (FWRule E P)) :=
  items.foldlM (fun res x => do
    let rules ← make x
    pure (res ++ rules)) []

def createFwRulesFromBaseElementsList (base_elems_pairs : List (BaseElement E × BaseElement E)) :
    Except Failure (List (FWRule E P)) :=
  base_elems_pairs |> collectRules fun p => createFwRulesFromBaseElements orders.toPeerOrders
    cluster_info fwRulesGroupByLabelSinglePod fuel p.1 p.2 props

/-- One cube of the loop of `_create_fw_rules_from_peer_props_aux`. -/
def createFwRulesFromCube (cube : PeerSet E × PeerSet E) : Except Failure (List (FWRule E P)) := do
  assert (cube.1 ≠ ∅ ∧ cube.2 ≠ ∅)
  createFwRulesFromBaseElements orders.toPeerOrders cluster_info fwRulesGroupByLabelSinglePod fuel
    (.peerSet cube.1) (.peerSet cube.2) props

def createFwRulesFromPeerPropsAux (cubes : List (PeerSet E × PeerSet E)) :
    Except Failure (List (FWRule E P)) :=
  collectRules (createFwRulesFromCube orders cluster_info fwRulesGroupByLabelSinglePod fuel props) cubes

/-- Of the two orders of the dimensions, the one with fewer cubes. -/
def minimize (peer_props : PeerProps E) : Except Failure (List (PeerSet E × PeerSet E)) := do
  let new_cubes ← reorderBySwitchingSrcDstPeers orders peer_props
  let cubes := orders.cubes peer_props
  pure (if cubes.length ≤ new_cubes.length then cubes else new_cubes)

/-- Rules are made only for properties that are not empty. -/
def ifSome (some : PeerProps E) (make : Except Failure (List (FWRule E P))) :
    Except Failure (List (FWRule E P)) :=
  if some ≠ ∅ then make else pure []

/-- The pairs with addresses on a side come first, those with sources before those with destinations. -/
def createFwRulesFromPeerProps (peer_props : PeerProps E) : Except Failure (List (FWRule E P)) := do
  let fromCubes : List (PeerSet E × PeerSet E) → Except Failure (List (FWRule E P)) :=
    createFwRulesFromPeerPropsAux orders cluster_info fwRulesGroupByLabelSinglePod fuel props
  let ipblock := getAllIpsBlockPeerSet
  let src_ipblock_props := ipblock ×ˢ Finset.univ ∩ peer_props
  let src_res ←
    ifSome src_ipblock_props (reorderBySwitchingSrcDstPeers orders src_ipblock_props >>= fromCubes)
  let peer_props := peer_props \ src_ipblock_props
  let dst_ipblock_props := Finset.univ ×ˢ ipblock ∩ peer_props
  let dst_res ← ifSome dst_ipblock_props (fromCubes (orders.cubes dst_ipblock_props))
  let peer_props := peer_props \ dst_ipblock_props
  let res ← ifSome peer_props (minimize orders peer_props >>= fromCubes)
  pure (src_res ++ dst_res ++ res)

/-- `compute_minimized_fw_rules_per_prop`. -/
def computeMinimizedFwRulesPerProp (peer_props peer_props_in_containing_props : PeerProps E) :
    Except Failure (List (FWRule E P)) := do
  let grouping ←
    computeBasicGrouping orders cluster_info peer_props peer_props_in_containing_props
  let ns_set_pairs := (orders.ns_pairs 0 grouping.ns_set_pairs).map fun p =>
    (BaseElement.namespaces p.1, BaseElement.namespaces p.2)
  let ns_rules ← createFwRulesFromBaseElementsList orders cluster_info fwRulesGroupByLabelSinglePod fuel
    props ns_set_pairs
  let rules ← createFwRulesFromPeerProps orders cluster_info fwRulesGroupByLabelSinglePod fuel props
    grouping.peer_props_without_ns_expr
  let elem_rules ← createFwRulesFromBaseElementsList orders cluster_info fwRulesGroupByLabelSinglePod fuel
    props (orders.elem_pairs 0 grouping.base_elem_pairs)
  pure (ns_rules ++ rules ++ elem_rules)

end Rules

section Lists

variable {E P : Type} [DecidableEq E] {cluster_info : ClusterInfo E} {props : P}

/-- Rules that are collected apply to what the rules of the items apply to. -/
theorem collectRules_exact {ι : Type} {make : ι → Except Failure (List (FWRule E P))} {items : List ι}
    (pairs : ι → E × E → Prop)
    (each : ∀ x ∈ items, Returns (make x) fun rules => RulesFor cluster_info props rules (pairs x)) :
    Returns (collectRules make items)
      fun rules => RulesFor cluster_info props rules fun pair => ∃ x ∈ items, pairs x pair := by
  apply returns_foldlM fun before rules =>
    RulesFor cluster_info props rules fun pair => ∃ x ∈ before, pairs x pair
  · exact rulesFor_nil.congr (by simp)
  · intro before x after res whole made
    apply returns_bind (each x (whole ▸ List.mem_append_right _ List.mem_cons_self))
    intro rules now
    refine returns_pure ((made.append now).congr fun pair => ?_)
    simp only [List.mem_append, List.mem_singleton, or_and_right, exists_or, exists_eq_left]

variable {orders : GroupingOrders E} {all_peers : List E} {allowed_labels : List Str}
  {fwRulesGroupByLabelSinglePod : Bool} {fuel : Nat}

/-- Some cube of the list has the pair. -/
def InCubes (cubes : List (PeerSet E × PeerSet E)) (pair : E × E) : Prop :=
  ∃ cube ∈ cubes, pair.1 ∈ cube.1 ∧ pair.2 ∈ cube.2

variable [RulePeers E]

omit [DecidableEq E] in
/-- Two sets of peers, with all pairs between them known, are known if none is empty. -/
theorem known_sides {cluster_info : ClusterInfo E} {peer_props : PeerProps E} {peers others : PeerSet E}
    (known : KnownPairs cluster_info peer_props) (some : peers ≠ ∅) (some' : others ≠ ∅)
    (inside : ∀ e ∈ peers, ∀ e' ∈ others, (e, e') ∈ peer_props) :
    Known cluster_info peers ∧ Known cluster_info others := by
  obtain ⟨e, member⟩ := Finset.nonempty_of_ne_empty some
  obtain ⟨e', member'⟩ := Finset.nonempty_of_ne_empty some'
  exact ⟨fun a source => (known (a, e') (inside a source e' member')).1,
    fun a target => (known (e, a) (inside e member a target)).2⟩

/-- The rules of pairs of base elements apply to the pairs of their peers. -/
theorem createFwRulesFromBaseElementsList_exact (sound : orders.Sound) (enough : ∀ s : PeerSet E, s.card < fuel)
    {base_elems_pairs : List (BaseElement E × BaseElement E)} {pairs : E × E → Prop}
    (known : ∀ p ∈ base_elems_pairs,
      Known (ClusterInfo.init all_peers allowed_labels) (p.1.peers (ClusterInfo.init all_peers allowed_labels)) ∧
      Known (ClusterInfo.init all_peers allowed_labels) (p.2.peers (ClusterInfo.init all_peers allowed_labels)))
    (inside : ∀ pair, (∃ p ∈ base_elems_pairs,
      pair.1 ∈ p.1.peers (ClusterInfo.init all_peers allowed_labels) ∧
        pair.2 ∈ p.2.peers (ClusterInfo.init all_peers allowed_labels)) ↔ pairs pair) :
    Returns (createFwRulesFromBaseElementsList orders (ClusterInfo.init all_peers allowed_labels)
        fwRulesGroupByLabelSinglePod fuel props base_elems_pairs)
      fun rules => RulesFor (ClusterInfo.init all_peers allowed_labels) props rules pairs := by
  let cluster_info := ClusterInfo.init all_peers allowed_labels
  let sides := fun (p : BaseElement E × BaseElement E) (pair : E × E) =>
    pair.1 ∈ p.1.peers cluster_info ∧ pair.2 ∈ p.2.peers cluster_info
  have each : ∀ p ∈ base_elems_pairs, Returns (createFwRulesFromBaseElements orders.toPeerOrders cluster_info
      fwRulesGroupByLabelSinglePod fuel p.1 p.2 props)
      fun rules => RulesFor cluster_info props rules (sides p) := by
    intro p listed
    obtain ⟨source, target⟩ := known p listed
    exact createFwRulesFromBaseElements_exact sound.toSound source target enough
  refine returns_mono (collectRules_exact sides each) fun rules made => ?_
  exact made.congr inside

/-- The rules of some cubes apply to the pairs of these; no assertion fails on cubes with two sides. -/
theorem createFwRulesFromPeerPropsAux_exact (sound : orders.Sound) (enough : ∀ s : PeerSet E, s.card < fuel)
    {cubes : List (PeerSet E × PeerSet E)} (inhabited : ∀ cube ∈ cubes, cube.1 ≠ ∅ ∧ cube.2 ≠ ∅)
    {peer_props : PeerProps E} (known : KnownPairs (ClusterInfo.init all_peers allowed_labels) peer_props)
    (inside : ∀ pair, InCubes cubes pair ↔ pair ∈ peer_props) :
    Returns (createFwRulesFromPeerPropsAux orders (ClusterInfo.init all_peers allowed_labels)
        fwRulesGroupByLabelSinglePod fuel props cubes)
      fun rules => RulesFor (ClusterInfo.init all_peers allowed_labels) props rules (· ∈ peer_props) := by
  have each : ∀ cube ∈ cubes, Returns (createFwRulesFromCube orders
      (ClusterInfo.init all_peers allowed_labels) fwRulesGroupByLabelSinglePod fuel props cube)
      fun rules => RulesFor (ClusterInfo.init all_peers allowed_labels) props rules fun pair =>
        pair.1 ∈ cube.1 ∧ pair.2 ∈ cube.2 := by
    intro cube listed
    unfold createFwRulesFromCube
    rw [assert_true (inhabited cube listed)]
    obtain ⟨some, some'⟩ := inhabited cube listed
    obtain ⟨source, target⟩ := known_sides known some some' fun e here e' there =>
      (inside (e, e')).mp ⟨cube, listed, here, there⟩
    exact createFwRulesFromBaseElements_exact sound.toSound source target enough
  refine returns_mono (collectRules_exact _ each) fun rules made => ?_
  exact made.congr inside

end Lists

section LeftOver

variable {E P : Type} [Fintype E] [DecidableEq E] [RulePeers E] {orders : GroupingOrders E}
  {all_peers : List E} {allowed_labels : List Str} {fwRulesGroupByLabelSinglePod : Bool} {fuel : Nat}
  {props : P} {peer_props : PeerProps E}

theorem minimize_exact (sound : orders.Sound) (some_out : peer_props ≠ Finset.univ) :
    Returns (minimize orders peer_props) fun cubes =>
      (∀ cube ∈ cubes, cube.1 ≠ ∅ ∧ cube.2 ≠ ∅) ∧ ∀ pair, InCubes cubes pair ↔ pair ∈ peer_props := by
  unfold minimize
  rw [reorder_eq some_out]
  apply returns_ok
  split
  · exact ⟨sound.cubes.inhabited peer_props, sound.cubes.pairs peer_props⟩
  · exact ⟨sound.switched_cubes.inhabited peer_props, sound.switched_cubes.pairs peer_props⟩

omit [Fintype E] [RulePeers E] in
theorem ifSome_exact {cluster_info : ClusterInfo E} {some : PeerProps E}
    {make : Except Failure (List (FWRule E P))}
    (made : some ≠ ∅ → Returns make fun rules => RulesFor cluster_info props rules (· ∈ some)) :
    Returns (ifSome some make) fun rules => RulesFor cluster_info props rules (· ∈ some) := by
  apply returns_ite made
  intro none
  rw [Classical.not_not.mp none]
  exact returns_pure (rulesFor_nil.congr (by simp))

/-- The rules that are made of the cubes of properties apply to exactly the pairs of these. -/
theorem createFwRulesFromPeerProps_exact (sound : orders.Sound) (enough : ∀ s : PeerSet E, s.card < fuel)
    (known : KnownPairs (ClusterInfo.init all_peers allowed_labels) peer_props)
    (some_out : peer_props ≠ Finset.univ) :
    Returns (createFwRulesFromPeerProps orders (ClusterInfo.init all_peers allowed_labels)
        fwRulesGroupByLabelSinglePod fuel props peer_props)
      fun rules => RulesFor (ClusterInfo.init all_peers allowed_labels) props rules (· ∈ peer_props) := by
  have part {some : PeerProps E} (inside : some ⊆ peer_props) :
      KnownPairs (ClusterInfo.init all_peers allowed_labels) some ∧ some ≠ Finset.univ := by
    refine ⟨fun pair member => known pair (inside member), ?_⟩
    intro all
    rw [all, Finset.univ_subset_iff] at inside
    exact some_out inside
  unfold createFwRulesFromPeerProps
  dsimp only
  let src_ipblock_props : PeerProps E := getAllIpsBlockPeerSet ×ˢ Finset.univ ∩ peer_props
  let without_src := peer_props \ src_ipblock_props
  let dst_ipblock_props : PeerProps E := Finset.univ ×ˢ getAllIpsBlockPeerSet ∩ without_src
  apply returns_bind
  · apply ifSome_exact
    intro _
    have inside : src_ipblock_props ⊆ peer_props := Finset.inter_subset_right
    obtain ⟨fewer, out⟩ := part inside
    rw [reorder_eq out]
    exact createFwRulesFromPeerPropsAux_exact sound enough (sound.switched_cubes.inhabited _) fewer
      (sound.switched_cubes.pairs _)
  intro src_res made
  apply returns_bind
  · apply ifSome_exact
    intro _
    have inside : dst_ipblock_props ⊆ peer_props := Finset.inter_subset_right.trans Finset.sdiff_subset
    obtain ⟨fewer, -⟩ := part inside
    exact createFwRulesFromPeerPropsAux_exact sound enough (sound.cubes.inhabited _) fewer
      (sound.cubes.pairs _)
  intro dst_res made'
  apply returns_bind
  · apply ifSome_exact
    intro _
    have inside : without_src \ dst_ipblock_props ⊆ peer_props :=
      Finset.sdiff_subset.trans Finset.sdiff_subset
    obtain ⟨fewer, out⟩ := part inside
    apply returns_bind (minimize_exact sound out)
    intro cubes ⟨inhabited, inside⟩
    exact createFwRulesFromPeerPropsAux_exact sound enough inhabited fewer inside
  intro res made''
  refine returns_pure (((made.append made').append made'').congr fun pair => ?_)
  simp only [Finset.mem_sdiff, Finset.mem_inter]
  tauto

/-- What the minimization is given: some pairs, with known endpoints and never two addresses. -/
structure RulePairs (cluster_info : ClusterInfo E) (peer_props containing : PeerProps E) : Prop where
  some : peer_props ≠ ∅
  known : KnownPairs cluster_info (peer_props ∪ containing)
  external : ∀ pair ∈ peer_props ∪ containing,
    ¬ (Peers.kind pair.1 = .ipBlock ∧ Peers.kind pair.2 = .ipBlock)

/-- The rules have the given connections. They apply to all the given pairs, and to no others than
pairs that containing connections allow and endpoints of given pairs with themselves. -/
structure MinimizedFor (cluster_info : ClusterInfo E) (props : P) (peer_props containing : PeerProps E)
    (rules : List (FWRule E P)) : Prop where
  props : ∀ rule ∈ rules, rule.props = props
  covers : ∀ pair ∈ peer_props, ∃ rule ∈ rules, rule.Joins cluster_info pair
  inside : ∀ rule ∈ rules, ∀ pair, rule.Joins cluster_info pair → pair ∈ peer_props ∨
    pair ∈ containing ∨ pair.1 = pair.2 ∧ IsClusterEP pair.1 ∧ pair.1 ∈ PeerProps.getAllPeers peer_props

variable {containing : PeerProps E}

omit [Fintype E] in
theorem nsPodsSet_known (ns_info : Namespaces) : Known (ClusterInfo.init all_peers allowed_labels)
    (FWRuleElement.nsPodsSet (ClusterInfo.init all_peers allowed_labels) ns_info) := by
  intro e member _
  obtain ⟨ns, -, placed⟩ := Finset.mem_biUnion.mp member
  exact (ClusterInfo.mem_ns_dict.mp placed).1

/-- The ends of what is covered are known. -/
theorem covered_known (sound : orders.Sound)
    (given : RulePairs (ClusterInfo.init all_peers allowed_labels) peer_props containing) :
    KnownPairs (ClusterInfo.init all_peers allowed_labels)
      (computeCoveredPeerProps orders peer_props containing) := by
  intro pair member
  rcases covered_origin sound member with here | there | ⟨same, -, listed⟩
  · exact given.known pair (Finset.mem_union_left _ here)
  · exact given.known pair (Finset.mem_union_right _ there)
  · -- an endpoint that is connected to itself is a side of some given pair
    rw [← same, and_self]
    intro endpoint
    unfold PeerProps.getAllPeers projectOnOneDimension at listed
    rw [if_neg given.some, if_neg given.some] at listed
    cases Finset.mem_union.mp listed with
    | inl source =>
      obtain ⟨other, here, side⟩ := Finset.mem_image.mp source
      have end_known := (given.known other (Finset.mem_union_left _ here)).1
      rw [show other.1 = pair.1 from side] at end_known
      exact end_known endpoint
    | inr target =>
      obtain ⟨other, here, side⟩ := Finset.mem_image.mp target
      have end_known := (given.known other (Finset.mem_union_left _ here)).2
      rw [show other.2 = pair.1 from side] at end_known
      exact end_known endpoint

/-- An address is never covered as connected to itself, so some pair is not covered. -/
theorem covered_some_out (sound : orders.Sound) {address : E} (kind : Peers.kind address = .ipBlock)
    (given : RulePairs (ClusterInfo.init all_peers allowed_labels) peer_props containing) :
    computeCoveredPeerProps orders peer_props containing ≠ Finset.univ := by
  intro all
  have member : (address, address) ∈ computeCoveredPeerProps orders peer_props containing :=
    all ▸ Finset.mem_univ _
  rcases covered_origin sound member with here | there | ⟨-, endpoint, -⟩
  · exact given.external _ (Finset.mem_union_left _ here) ⟨kind, kind⟩
  · exact given.external _ (Finset.mem_union_right _ there) ⟨kind, kind⟩
  · exact (isClusterEP_iff.mp endpoint).1 kind

theorem minimizedFor_returns (sound : orders.Sound) (enough : Fintype.card E < fuel)
    {address : E} (kind : Peers.kind address = .ipBlock)
    (given : RulePairs (ClusterInfo.init all_peers allowed_labels) peer_props containing) :
    Returns (computeMinimizedFwRulesPerProp orders (ClusterInfo.init all_peers allowed_labels)
        fwRulesGroupByLabelSinglePod fuel props peer_props containing)
      (MinimizedFor (ClusterInfo.init all_peers allowed_labels) props peer_props containing) := by
  let cluster_info := ClusterInfo.init all_peers allowed_labels
  have bound (s : PeerSet E) : s.card < fuel := (Finset.card_le_univ s).trans_lt enough
  have given_known : KnownPairs cluster_info peer_props := fun pair member =>
    given.known pair (Finset.mem_union_left _ member)
  have some_out := covered_some_out sound kind given
  have known := covered_known sound given
  unfold computeMinimizedFwRulesPerProp
  apply returns_bind (computeBasicGrouping_grouped sound given_known some_out)
  intro grouping grouped
  have ns_pairs : ∀ p ∈ (orders.ns_pairs 0 grouping.ns_set_pairs).map fun p =>
      (BaseElement.namespaces (E := E) p.1, BaseElement.namespaces (E := E) p.2),
      Known cluster_info (p.1.peers cluster_info) ∧ Known cluster_info (p.2.peers cluster_info) := by
    intro p listed
    obtain ⟨q, -, rfl⟩ := List.mem_map.mp listed
    exact ⟨nsPodsSet_known q.1, nsPodsSet_known q.2⟩
  have of_ns_pairs (pair : E × E) : (∃ p ∈ (orders.ns_pairs 0 grouping.ns_set_pairs).map fun p =>
      (BaseElement.namespaces (E := E) p.1, BaseElement.namespaces (E := E) p.2),
      pair.1 ∈ p.1.peers cluster_info ∧ pair.2 ∈ p.2.peers cluster_info) ↔
        ∃ p ∈ grouping.ns_set_pairs, pair.1 ∈ FWRuleElement.nsPodsSet cluster_info p.1 ∧
          pair.2 ∈ FWRuleElement.nsPodsSet cluster_info p.2 := by
    simp [sound.ns_pairs 0, BaseElement.peers]
  apply returns_bind (createFwRulesFromBaseElementsList_exact sound bound ns_pairs of_ns_pairs)
  intro ns_rules of_namespaces
  have left_out : grouping.peer_props_without_ns_expr ≠ Finset.univ := by
    intro all
    have above := grouped.left_over
    rw [all, Finset.univ_subset_iff] at above
    have member : (address, address) ∈ peer_props := above ▸ Finset.mem_univ _
    exact given.external _ (Finset.mem_union_left _ member) ⟨kind, kind⟩
  have left_known : KnownPairs cluster_info grouping.peer_props_without_ns_expr :=
    fun pair member => given_known pair (grouped.left_over member)
  apply returns_bind (createFwRulesFromPeerProps_exact sound bound left_known left_out)
  intro rules of_left
  have elem_pairs : ∀ p ∈ orders.elem_pairs 0 grouping.base_elem_pairs,
      Known cluster_info (p.1.peers cluster_info) ∧ Known cluster_info (p.2.peers cluster_info) := by
    intro p visited
    have listed := (sound.elem_pairs 0 _ p).mp visited
    obtain ⟨some, some'⟩ := grouped.nonempty p listed
    exact known_sides known some some' fun e here e' there =>
      grouped.inside (e, e') (.inr ⟨p, listed, here, there⟩)
  have of_elem_pairs (pair : E × E) : (∃ p ∈ orders.elem_pairs 0 grouping.base_elem_pairs,
      pair.1 ∈ p.1.peers cluster_info ∧ pair.2 ∈ p.2.peers cluster_info) ↔
        ∃ p ∈ grouping.base_elem_pairs, pair.1 ∈ p.1.peers cluster_info ∧ pair.2 ∈ p.2.peers cluster_info := by
    simp [sound.elem_pairs 0]
  apply returns_bind (createFwRulesFromBaseElementsList_exact sound bound elem_pairs of_elem_pairs)
  intro elem_rules of_elements
  have all := (of_namespaces.append of_left).append of_elements
  refine returns_pure ⟨all.props, ?_, ?_⟩
  · intro pair here
    rw [all.joins pair]
    rcases grouped.kept pair here with (recorded | recorded) | left
    · exact .inl (.inl recorded)
    · exact .inr recorded
    · exact .inl (.inr left)
  · intro rule made pair joins
    rcases (all.joins pair).mp ⟨rule, made, joins⟩ with (recorded | left) | recorded
    · exact covered_origin sound (grouped.inside pair (.inl recorded))
    · exact .inl (grouped.left_over left)
    · exact covered_origin sound (grouped.inside pair (.inr recorded))

/-- The minimized rules of one connection set: they have its connections, they apply to all its pairs,
and to others only if larger connection sets do or an endpoint meets itself. -/
theorem computeMinimizedFwRulesPerProp_exact (sound : orders.Sound) (enough : Fintype.card E < fuel)
    {address : E} (kind : Peers.kind address = .ipBlock)
    (given : RulePairs (ClusterInfo.init all_peers allowed_labels) peer_props containing) :
    Returns (computeMinimizedFwRulesPerProp orders (ClusterInfo.init all_peers allowed_labels)
        fwRulesGroupByLabelSinglePod fuel props peer_props containing) fun rules =>
      (∀ rule ∈ rules, rule.props = props) ∧
      (∀ pair ∈ peer_props, ∃ rule ∈ rules, rule.Joins (ClusterInfo.init all_peers allowed_labels) pair) ∧
      ∀ rule ∈ rules, ∀ pair, rule.Joins (ClusterInfo.init all_peers allowed_labels) pair →
        pair ∈ peer_props ∨ pair ∈ containing ∨
          pair.1 = pair.2 ∧ IsClusterEP pair.1 ∧ pair.1 ∈ PeerProps.getAllPeers peer_props := by
  apply returns_mono (minimizedFor_returns sound enough kind given)
  exact fun _ made => ⟨made.props, made.covers, made.inside⟩

end LeftOver

section Example

variable {E : Type} [Fintype E] [DecidableEq E] [Peers E]

/-- The other sides of the pairs with this one. -/
def otherSides (props : PeerProps E) (e : E) : PeerSet E :=
  (props.filter fun pair => pair.1 = e).image Prod.snd

/-- The cubes of the canonical form: the sources with equal sets of destinations, with these. -/
noncomputable def canonicalCubes (props : PeerProps E) : List (PeerSet E × PeerSet E) :=
  let sources := props.image Prod.fst
  (sources.image fun e =>
    (sources.filter fun e' => otherSides props e' = otherSides props e, otherSides props e)).toList

omit [Fintype E] [Peers E] in
theorem mem_otherSides {props : PeerProps E} {e e' : E} : e' ∈ otherSides props e ↔ (e, e') ∈ props := by
  simp [otherSides]

omit [Fintype E] [Peers E] in
theorem canonicalCubes_of : CubesOf (canonicalCubes (E := E)) where
  pairs props pair := by
    simp only [canonicalCubes, Finset.mem_toList, Finset.mem_image, exists_exists_and_eq_and,
      Finset.mem_filter, mem_otherSides]
    constructor
    · intro ⟨other, _, ⟨_, same⟩, member⟩
      rwa [← mem_otherSides, same, mem_otherSides]
    · intro member
      exact ⟨pair, member, ⟨⟨pair, member, rfl⟩, rfl⟩, member⟩
  inhabited props cube listed := by
    obtain ⟨e, source, rfl⟩ := Finset.mem_image.mp (Finset.mem_toList.mp listed)
    obtain ⟨pair, member, rfl⟩ := Finset.mem_image.mp source
    exact ⟨Finset.ne_empty_of_mem (Finset.mem_filter.mpr ⟨source, rfl⟩),
      Finset.ne_empty_of_mem (mem_otherSides.mpr member)⟩

/-- The cubes of the canonical forms for both orders of the dimensions. -/
noncomputable def canonicalOrders (E : Type) [Fintype E] [DecidableEq E] [Peers E] : GroupingOrders E where
  peers _ s := s.toList
  blocks s := [s.filter fun e => Peers.kind e = .ipBlock]
  cubes := canonicalCubes
  switched_cubes props := (canonicalCubes (props.image Prod.swap)).map Prod.swap
  namespaces _ s := s.toList
  ns_pairs _ s := s.toList
  elem_pairs _ s := s.toList
  num_peers := Finset.card

theorem canonicalOrders_sound : (canonicalOrders E).Sound where
  peers _ _ _ := Finset.mem_toList
  blocks s e := by simp [canonicalOrders]
  cubes := canonicalCubes_of
  switched_cubes := {
    pairs := by
      intro props pair
      have swapped := canonicalCubes_of.pairs (props.image Prod.swap) pair.swap
      simp only [canonicalOrders, List.mem_map, exists_exists_and_eq_and]
      simpa [and_comm] using swapped
    inhabited := by
      intro props cube listed
      obtain ⟨cube, present, rfl⟩ := List.mem_map.mp listed
      exact (canonicalCubes_of.inhabited _ cube present).symm }
  namespaces _ _ _ := Finset.mem_toList
  ns_pairs _ _ _ := Finset.mem_toList
  elem_pairs _ _ _ := Finset.mem_toList

instance : RulePeers PeerKind where
  is_ip_block e := decide (e = .ipBlock)
  peer_namespace
    | .pod => some "default"
    | _ => none
  labels _ := []
  labels_nodup _ := List.nodup_nil
  block_kind e := by cases e <;> decide

theorem pod_known : PeerKind.pod ∈ (ClusterInfo.init [PeerKind.pod, .ipBlock] []).allPods := by
  rw [ClusterInfo.mem_allPods, ClusterInfo.init_all_peers]
  exact ⟨List.mem_cons_self, rfl⟩

theorem podToAddress_minimized : Returns
    (computeMinimizedFwRulesPerProp (canonicalOrders PeerKind) (ClusterInfo.init [.pod, .ipBlock] []) true 5
      "TCP" {(.pod, .ipBlock)} ∅) fun rules =>
    (∀ rule ∈ rules, rule.props = "TCP") ∧
    (∀ pair ∈ ({(.pod, .ipBlock)} : PeerProps PeerKind), ∃ rule ∈ rules,
      rule.Joins (ClusterInfo.init [.pod, .ipBlock] []) pair) ∧
    ∀ rule ∈ rules, ∀ pair, rule.Joins (ClusterInfo.init [PeerKind.pod, .ipBlock] []) pair →
      pair ∈ ({(.pod, .ipBlock)} : PeerProps PeerKind) ∨ pair ∈ (∅ : PeerProps PeerKind) ∨
        pair.1 = pair.2 ∧ IsClusterEP pair.1 ∧
          pair.1 ∈ PeerProps.getAllPeers ({(.pod, .ipBlock)} : PeerProps PeerKind) :=
  computeMinimizedFwRulesPerProp_exact canonicalOrders_sound (by decide)
    (show Peers.kind PeerKind.ipBlock = .ipBlock from rfl)
    { some := by decide
      known := fun pair member => by
        rw [Finset.union_empty, Finset.mem_singleton] at member
        rw [member]
        exact ⟨fun _ => pod_known, fun endpoint => absurd endpoint (by decide)⟩
      external := by decide }

end Example
end Nca.FWRules
