import Nca.FWRules.EqualGroups

/-!
What the drawing of the groups shows of the graph: an edge between two groups stands for the edges
between all their peers, and the edge of a group to itself for the edges inside it.
-/

namespace Nca.FWRules
open CoreDS Lib Python LabeledPeers

section Shown

variable {K C : Type} {p q : GraphPeer K} {c : C} {groups : List (List (GraphPeer K) × Option C)}
  {g h : List (GraphPeer K) × Option C}

theorem group_unique (disjoint : (groups.flatMap Prod.fst).Nodup) (first : g ∈ groups)
    (second : h ∈ groups) (inside : p ∈ g.1) (inside' : p ∈ h.1) : g = h := by
  by_contra different
  have symm : Std.Symm (Function.onFun List.Disjoint (Prod.fst : List (GraphPeer K) × Option C → _)) :=
    ⟨fun _ _ apart => List.Disjoint.symm apart⟩
  have apart := (List.nodup_flatMap.mp disjoint).2.forall first second different
  exact apart inside inside'

variable [DecidableEq C] {graph : ConnectivityGraph K C}

/-- What the groups show of two peers: the edge of the first peers of their groups, or the edge of
their group to itself. -/
def Drawn (graph : ConnectivityGraph K C) (groups : List (List (GraphPeer K) × Option C))
    (p q : GraphPeer K) (c : C) : Prop :=
  (∃ g ∈ groups, ∃ h ∈ groups, g ≠ h ∧ p ∈ g.1 ∧ q ∈ h.1 ∧
    ∃ p' ∈ g.1.head?, ∃ q' ∈ h.1.head?, graph.Carries p' q' c) ∨
  ∃ g ∈ groups, p ∈ g.1 ∧ q ∈ g.1 ∧ g.2 = some c

/-- The groups partition the peers of the edges, and what they show is what the graph has. -/
structure ShowsGraph (graph : ConnectivityGraph K C)
    (groups : List (List (GraphPeer K) × Option C)) : Prop where
  filled : ∀ g ∈ groups, g.1 ≠ []
  disjoint : (groups.flatMap Prod.fst).Nodup
  covers : ∀ p, p ∈ groups.flatMap Prod.fst ↔ graph.Occurs p
  drawn : ∀ p q c, graph.Occurs p → graph.Occurs q → p ≠ q →
    (graph.Carries p q c ↔ Drawn graph groups p q c)

/-- The peers of a group have the same edges with all others, and between each other those that the
group shows. -/
structure Uniform (graph : ConnectivityGraph K C) (g : List (GraphPeer K) × Option C) : Prop where
  filled : g.1 ≠ []
  alike : ∀ p ∈ g.1, ∀ q ∈ g.1, graph.Alike p q
  inner : ∀ p ∈ g.1, ∀ q ∈ g.1, p ≠ q → ∀ c, graph.Carries p q c ↔ g.2 = some c

theorem showsGraph_of_uniform (disjoint : (groups.flatMap Prod.fst).Nodup)
    (covers : ∀ p, p ∈ groups.flatMap Prod.fst ↔ graph.Occurs p)
    (each : ∀ g ∈ groups, Uniform graph g) : ShowsGraph graph groups := by
  have between : ∀ g ∈ groups, ∀ h ∈ groups, g ≠ h → ∀ p ∈ g.1, ∀ q ∈ h.1, ∀ p' ∈ g.1, ∀ q' ∈ h.1,
      ∀ c, graph.Carries p q c ↔ graph.Carries p' q' c := by
    intro g first h second different p source q target p' source' q' target' c
    have apart : ∀ x ∈ g.1, ∀ y ∈ h.1, y ≠ x := by
      intro x inside y inside' same
      exact different (group_unique disjoint first second inside (same ▸ inside'))
    exact carries_of_alike ((each g first).alike p source p' source')
      ((each h second).alike q target q' target') (apart p source q target) (apart p' source' q target)
      (apart p' source' q' target')
  refine ⟨fun g listed => (each g listed).filled, disjoint, covers, ?_⟩
  intro p q c source target different
  obtain ⟨g, first, inside⟩ := List.mem_flatMap.mp ((covers p).mpr source)
  obtain ⟨h, second, inside'⟩ := List.mem_flatMap.mp ((covers q).mpr target)
  constructor
  · intro carried
    by_cases same : g = h
    · subst same
      exact Or.inr ⟨g, first, inside, inside', ((each g first).inner p inside q inside' different c).mp carried⟩
    · have head := List.head?_eq_some_head (each g first).filled
      have head' := List.head?_eq_some_head (each h second).filled
      refine Or.inl ⟨g, first, h, second, same, inside, inside', _, head, _, head', ?_⟩
      exact (between g first h second same p inside q inside' _ (List.head_mem _) _ (List.head_mem _) c).mp
        carried
  · intro shown
    rcases shown with ⟨g, first, h, second, apart, inside, inside', p', head, q', head', carried⟩ |
      ⟨g, listed, inside, inside', shown⟩
    · exact (between g first h second apart p inside q inside' p' (List.mem_of_mem_head? head) q'
        (List.mem_of_mem_head? head') c).mpr carried
    · exact ((each g listed).inner p inside q inside' different c).mpr shown

theorem has_of_connections (same : graph.connectionsOf p = graph.connectionsOf q)
    (has : ∃ other ∈ graph.edgesOf p, other.2.1 = c) : ∃ other ∈ graph.edgesOf q, other.2.1 = c := by
  by_cases equal : p = q
  · exact equal ▸ has
  · exact ⟨(p, c, true), ⟨equal, carries_of_connections equal same has⟩, rfl⟩

theorem has_of_carries (different : p ≠ q) (carried : graph.Carries p q c ∨ graph.Carries q p c) :
    ∃ other ∈ graph.edgesOf p, other.2.1 = c := by
  rcases carried with out | into
  · exact ⟨(q, c, false), ⟨different.symm, out⟩, rfl⟩
  · exact ⟨(q, c, true), ⟨different.symm, into⟩, rfl⟩

variable [Endpoints K]

/-- Two peers of one namespace with the same connections, each taken to be connected with itself by
all its labels, are connected by at most one label. -/
def OneLabel (graph : ConnectivityGraph K C) : Prop :=
  ∀ p q, p ≠ q → peer_namespace p = peer_namespace q → graph.connectionsOf p = graph.connectionsOf q →
    ∀ c c', graph.Carries p q c → graph.Carries p q c' → c = c'

variable [DecidableEq K] [EdgeLabels C] {peers : List (GraphPeer K)} {collected : CollectedEdges K C}

/-- A group of peers that are also connected with each other. -/
theorem uniform_connected (keyed : Keyed graph.props_to_peers)
    (holds : Collects peers graph.labeledPairs collected) (one_label : OneLabel graph)
    {group : List (GraphPeer K)} (large : 1 < group.length) (distinct : group.Nodup)
    (together : ∀ p ∈ group, ∀ q ∈ group, peer_namespace p = peer_namespace q ∧
      graph.connectionsOf p = graph.connectionsOf q) :
    Uniform graph (group, groupProps collected.edges_props group) := by
  constructor
  · show group ≠ []
    exact List.ne_nil_of_length_pos (by omega)
  · exact fun p inside q inside' => alike_of_connections (together p inside q inside').2
  · intro p inside q inside' different c
    match group, large with
    | first :: second :: rest, _ =>
      have apart : first ≠ second := by
        intro same
        exact (List.nodup_cons.mp distinct).1 (same ▸ List.mem_cons_self)
      have listed : first ∈ first :: second :: rest := List.mem_cons_self
      have listed' : second ∈ first :: second :: rest := List.mem_cons_of_mem _ List.mem_cons_self
      obtain ⟨namespaces, same⟩ := together first listed second listed'
      have back : ∀ c, graph.Carries first second c ∨ graph.Carries second first c →
          graph.Carries first second c :=
        fun c either => carries_of_connections apart same (has_of_carries apart either)
      have found : ∀ c, Dict.get collected.edges_props (first, second) = some c → graph.Carries first second c := by
        intro c known
        have either := holds.found first second c known
        rw [mem_labeledPairs keyed, mem_labeledPairs keyed] at either
        exact back c either
      show _ ↔ Dict.get collected.edges_props (first, second) = some c
      constructor
      · intro carried
        have has := has_of_connections (together p inside first listed).2 (has_of_carries different (Or.inl carried))
        have drawn := carries_of_connections apart same has
        have known := holds.known first second c apart (Or.inl ((mem_labeledPairs keyed).mpr drawn))
        obtain ⟨c', known⟩ := Option.isSome_iff_exists.mp known
        rw [known, one_label first second apart namespaces same c' c (found c' known) drawn]
      · intro known
        have has := has_of_carries apart (Or.inl (found c known))
        exact carries_of_connections different (together p inside q inside').2
          (has_of_connections (together first listed p inside).2 has)

end Shown

section Parts

variable {K C : Type} [DecidableEq K] [DecidableEq C] [Endpoints K] {collected : CollectedEdges K C}
  {str : GraphPeer K → Str} {connected not_connected : List (List (GraphPeer K))}
  {left_out singles : List (GraphPeer K)}

/-- The edges that the loops have collected of a peer, with those to itself. -/
def CollectedEdges.edgesOf (collected : CollectedEdges K C) (p : GraphPeer K) : Finset (PeerEdge K C) :=
  withSelfEdges p (ListDict.find collected.peers_edges p)

/-- The three kinds of groups: peers that are also connected with each other, peers that are not, and
single peers. -/
structure GroupParts (collected : CollectedEdges K C) (connected : List (List (GraphPeer K)))
    (left_out : List (GraphPeer K)) (not_connected : List (List (GraphPeer K)))
    (singles : List (GraphPeer K)) : Prop where
  first : EqualGroups (fun peer => (peer_namespace peer, collected.edgesOf peer))
    (Dict.keys collected.peers_edges) connected left_out
  second : EqualGroups
    (fun peer => (peer_namespace peer, (collected.edgesOf peer).filter fun edge => edge.1 ≠ peer))
    ((Dict.keys collected.peers_edges).filter (· ∈ left_out)) not_connected singles

/-- The groups in the order in which they are returned. -/
def groupsOfParts (collected : CollectedEdges K C) (connected not_connected : List (List (GraphPeer K)))
    (singles : List (GraphPeer K)) : List (List (GraphPeer K) × Option C) :=
  connected.map (fun group => (group, groupProps collected.edges_props group)) ++
    not_connected.map (fun group => (group, none)) ++ singles.map fun peer => ([peer], none)

theorem groupsOfEdges_parts (str : GraphPeer K → Str) (unique : (Dict.keys collected.peers_edges).Nodup) :
    ∃ connected left_out not_connected singles,
      GroupParts collected connected left_out not_connected singles ∧
      groupsOfEdges str collected = groupsOfParts collected connected not_connected singles := by
  have entries : (collected.peers_edges.map fun entry => (entry.1, withSelfEdges entry.1 entry.2)) =
      (Dict.keys collected.peers_edges).map fun peer => (peer, collected.edgesOf peer) := by
    unfold Dict.keys
    rw [List.map_map]
    apply List.map_congr_left
    intro entry listed
    show _ = (entry.1, withSelfEdges entry.1 (ListDict.find collected.peers_edges entry.1))
    rw [ListDict.find_eq unique listed]
  unfold groupsOfEdges
  rw [entries]
  simp only [List.filter_map, List.map_map]
  exact ⟨_, _, _, _, ⟨findEqualGroups_spec str _ _, findEqualGroups_spec str _ _⟩, rfl⟩

theorem perm_groupsOfParts (unique : (Dict.keys collected.peers_edges).Nodup)
    (parts : GroupParts collected connected left_out not_connected singles) :
    ((groupsOfParts collected connected not_connected singles).flatMap Prod.fst).Perm
      (Dict.keys collected.peers_edges) := by
  have flat : (groupsOfParts collected connected not_connected singles).flatMap Prod.fst =
      connected.flatten ++ (not_connected.flatten ++ singles) := by
    unfold groupsOfParts
    rw [List.flatMap_append, List.flatMap_append, List.flatMap_map, List.flatMap_map, List.flatMap_map,
      List.append_assoc]
    congr 1
    · exact List.flatMap_id
    · congr 1
      · exact List.flatMap_id
      · exact List.flatMap_singleton' singles
  have distinct := parts.first.perm.nodup_iff.mpr unique
  have rest : ((Dict.keys collected.peers_edges).filter (· ∈ left_out)).Perm left_out := by
    apply (List.perm_ext_iff_of_nodup (unique.filter _) (List.nodup_append.mp distinct).2.1).mpr
    intro peer
    rw [List.mem_filter, decide_eq_true_eq]
    apply and_iff_right_of_imp
    intro listed
    exact parts.first.perm.mem_iff.mp (List.mem_append_right _ listed)
  rw [flat]
  exact ((parts.second.perm.trans rest).append_left _).trans parts.first.perm

variable [EdgeLabels C] {graph : ConnectivityGraph K C} {peers : List (GraphPeer K)}

theorem uniform_of_parts (keyed : Keyed graph.props_to_peers)
    (holds : Collects peers graph.labeledPairs collected) (one_label : OneLabel graph)
    (parts : GroupParts collected connected left_out not_connected singles) :
    ∀ g ∈ groupsOfParts collected connected not_connected singles, Uniform graph g := by
  have members : ∀ group ∈ connected, ∀ p ∈ group, p ∈ Dict.keys collected.peers_edges := by
    intro group listed p inside
    exact parts.first.perm.mem_iff.mp (List.mem_append_left _ (List.mem_flatten.mpr ⟨group, listed, inside⟩))
  have members' : ∀ group ∈ not_connected, ∀ p ∈ group,
      p ∈ (Dict.keys collected.peers_edges).filter (· ∈ left_out) := by
    intro group listed p inside
    exact parts.second.perm.mem_iff.mp (List.mem_append_left _ (List.mem_flatten.mpr ⟨group, listed, inside⟩))
  intro g listed
  rcases List.mem_append.mp listed with either | single
  · rcases List.mem_append.mp either with first | second
    · obtain ⟨group, member, rfl⟩ := List.mem_map.mp first
      apply uniform_connected keyed holds one_label (parts.first.large group member)
      · have distinct := parts.first.perm.nodup_iff.mpr holds.unique
        exact (List.nodup_flatten.mp (List.nodup_append.mp distinct).1).1 group member
      · intro p inside q inside'
        have same := (parts.first.together group member q inside' p (members group member p inside)).mp inside
        obtain ⟨namespaces, edges⟩ := Prod.mk.inj same
        refine ⟨namespaces, ?_⟩
        rw [← collected_connections keyed holds p, ← collected_connections keyed holds q]
        exact congrArg _ edges
    · obtain ⟨group, member, rfl⟩ := List.mem_map.mp second
      have same : ∀ p ∈ group, ∀ q ∈ group, graph.edgesOf p = graph.edgesOf q := by
        intro p inside q inside'
        have same := (parts.second.together group member q inside' p (members' group member p inside)).mp inside
        rw [← collected_edges p (collected_connections keyed holds p),
          ← collected_edges q (collected_connections keyed holds q)]
        exact congrArg _ (Prod.mk.inj same).2
      constructor
      · have large := parts.second.large group member
        show group ≠ []
        exact List.ne_nil_of_length_pos (by omega)
      · exact fun p inside q inside' => alike_of_edges (same p inside q inside')
      · intro p inside q inside' different c
        have apart := not_carries_of_edges (c := c) different (same p inside q inside')
        exact iff_of_false apart (Option.some_ne_none c).symm
  · obtain ⟨peer, member, rfl⟩ := List.mem_map.mp single
    constructor
    · exact List.cons_ne_nil peer []
    · intro p inside q inside'
      rw [List.mem_singleton.mp inside, List.mem_singleton.mp inside']
      exact fun _ _ _ => Iff.rfl
    · intro p inside q inside' different
      exact absurd ((List.mem_singleton.mp inside).trans (List.mem_singleton.mp inside').symm) different

end Parts

section Returned

variable {K C : Type} [DecidableEq K] [EdgeLabels C] {graph : ConnectivityGraph K C}
  {collected : CollectedEdges K C} {peers : List (GraphPeer K)}

theorem collects_of_ok (keyed : Keyed graph.props_to_peers)
    (run : graph.props_to_peers.foldlM addLabel ⟨noEdges peers, []⟩ = .ok collected) :
    Collects peers graph.labeledPairs collected := by
  rw [foldlM_addLabel keyed.filled] at run
  apply foldlM_ok (Collects peers) (noEdges_spec peers) ?_ run
  intro before labeled acc next holds step
  exact addPair_step holds step

variable [DecidableEq C]

theorem collects_of_occurs (keyed : Keyed graph.props_to_peers)
    (known : ∀ p, graph.Occurs p → p ∈ peers) :
    Returns (graph.props_to_peers.foldlM addLabel ⟨noEdges peers, []⟩)
      (Collects peers graph.labeledPairs) := by
  rw [foldlM_addLabel keyed.filled]
  apply returns_foldlM (Collects peers) (noEdges_spec peers)
  intro before labeled after acc whole holds
  obtain ⟨c, p, q⟩ := labeled
  have listed : (c, p, q) ∈ graph.labeledPairs := by
    show (c, p, q) ∈ graph.props_to_peers.flatMap _
    rw [whole]
    exact List.mem_append_right _ List.mem_cons_self
  have carried := (mem_labeledPairs keyed).mp listed
  have source := (holds.keys p).mpr (known p ⟨q, c, Or.inl carried⟩)
  have target := (holds.keys q).mpr (known q ⟨p, c, Or.inr carried⟩)
  obtain ⟨next, step⟩ : ∃ next, addPair c acc (p, q) = .ok next := by
    by_cases same : p = q
    · exact ⟨_, addPair_ok.mpr (Or.inl ⟨same, rfl⟩)⟩
    · exact ⟨_, addPair_ok.mpr (Or.inr ⟨same, source, target, rfl⟩)⟩
  exact ⟨next, step, addPair_step holds step⟩

variable [Endpoints K] {str : GraphPeer K → Str} {order : SetOrder (GraphPeer K)}
  {groups : List (List (GraphPeer K) × Option C)}

/-- What is known of a run that ends. -/
theorem parts_of_ok (keyed : Keyed graph.props_to_peers)
    (run : getEqualsGroups str order graph = .ok groups) :
    ∃ collected connected left_out not_connected singles,
      Collects (order 0 graph.cluster_info.all_peers.toFinset) graph.labeledPairs collected ∧
      GroupParts collected connected left_out not_connected singles ∧
      groups = groupsOfParts collected connected not_connected singles := by
  obtain ⟨collected, loops, last⟩ := bind_ok.mp run
  have holds := collects_of_ok keyed loops
  obtain ⟨connected, left_out, not_connected, singles, parts, same⟩ := groupsOfEdges_parts str holds.unique
  exact ⟨collected, connected, left_out, not_connected, singles, holds, parts,
    (Except.ok.inj last).symm.trans same⟩

theorem getEqualsGroups_shows (keyed : Keyed graph.props_to_peers) (visits : order.Visits)
    (occurring : ∀ p, p ∈ graph.cluster_info.all_peers ↔ graph.Occurs p) (one_label : OneLabel graph) :
    Returns (getEqualsGroups str order graph) (ShowsGraph graph) := by
  have listed : ∀ p, p ∈ order 0 graph.cluster_info.all_peers.toFinset ↔ graph.Occurs p := by
    intro p
    rw [visits, List.mem_toFinset, occurring]
  apply returns_bind (collects_of_occurs keyed fun p occurs => (listed p).mpr occurs)
  intro collected holds
  obtain ⟨connected, left_out, not_connected, singles, parts, same⟩ := groupsOfEdges_parts str holds.unique
  have perm := perm_groupsOfParts holds.unique parts
  apply returns_pure
  rw [same]
  apply showsGraph_of_uniform
  · exact perm.nodup_iff.mpr holds.unique
  · intro p
    rw [perm.mem_iff, holds.keys, listed]
  · exact uniform_of_parts keyed holds one_label parts

theorem occurring_of_shows (keyed : Keyed graph.props_to_peers) (visits : order.Visits)
    (run : getEqualsGroups str order graph = .ok groups) (shows_graph : ShowsGraph graph groups)
    (p : GraphPeer K) : p ∈ graph.cluster_info.all_peers ↔ graph.Occurs p := by
  obtain ⟨collected, connected, left_out, not_connected, singles, holds, parts, rfl⟩ :=
    parts_of_ok keyed run
  rw [← shows_graph.covers, (perm_groupsOfParts holds.unique parts).mem_iff, holds.keys, visits,
    List.mem_toFinset]

theorem oneLabel_of_shows (keyed : Keyed graph.props_to_peers) (visits : order.Visits)
    (run : getEqualsGroups str order graph = .ok groups) (shows_graph : ShowsGraph graph groups) :
    OneLabel graph := by
  have occurring := occurring_of_shows keyed visits run shows_graph
  obtain ⟨collected, connected, left_out, not_connected, singles, holds, parts, rfl⟩ :=
    parts_of_ok keyed run
  have known : ∀ p, graph.Occurs p → p ∈ Dict.keys collected.peers_edges := by
    intro p occurs
    rw [holds.keys, visits, List.mem_toFinset, occurring]
    exact occurs
  intro p q different namespaces same c c' first second
  have source : graph.Occurs p := ⟨q, c, Or.inl first⟩
  have target : graph.Occurs q := ⟨p, c, Or.inr first⟩
  have edges : collected.edgesOf q = collected.edgesOf p := by
    apply Finset.coe_injective
    exact (collected_connections keyed holds q).trans (same.symm.trans (collected_connections keyed holds p).symm)
  have equal : (peer_namespace q, collected.edgesOf q) = (peer_namespace p, collected.edgesOf p) := by
    rw [namespaces, edges]
  -- the two peers are in one group, which shows one label
  obtain ⟨group, listed, inside, inside'⟩ : ∃ group ∈ connected, p ∈ group ∧ q ∈ group := by
    rcases List.mem_append.mp (parts.first.perm.mem_iff.mpr (known p source)) with grouped | alone
    · obtain ⟨group, listed, inside⟩ := List.mem_flatten.mp grouped
      exact ⟨group, listed, inside, (parts.first.together group listed p inside q (known q target)).mpr equal⟩
    · exact absurd (parts.first.alone p alone q (known q target) equal).symm different
  have member : (group, groupProps collected.edges_props group) ∈
      groupsOfParts collected connected not_connected singles :=
    List.mem_append_left _ (List.mem_append_left _ (List.mem_map_of_mem listed))
  have shown : ∀ c, graph.Carries p q c → groupProps collected.edges_props group = some c := by
    intro c carried
    rcases (shows_graph.drawn p q c source target different).mp carried with
      ⟨g, first, h, second, apart, in_g, in_h, _⟩ | ⟨g, first, in_g, _, shown⟩
    · have one := group_unique shows_graph.disjoint first member in_g inside
      have other := group_unique shows_graph.disjoint second member in_h inside'
      exact absurd (one.trans other.symm) apart
    · rw [group_unique shows_graph.disjoint first member in_g inside] at shown
      exact shown
  exact Option.some.inj ((shown c first).symm.trans (shown c' second))

/-- The IP blocks on the sides of the cubes are single ranges of addresses, and without a cube no peer
is left of a dimension that is not active. -/
structure OneRange (props : EdgesProps K C) : Prop where
  blocks : ∀ cube ∈ props.cubes, ∀ block, .ipBlock block ∈ cube.src_peers ++ cube.dst_peers →
    block.interval_set.length = 1
  no_cubes : props.cubes = [] → getAllPeers props = []

end Returned

section Ranges

variable {K C : Type} [DecidableEq K] [EdgeLabels C] {props : EdgesProps K C} {p : GraphPeer K}
  {peers : List (GraphPeer K)}

theorem mem_projectPeers {domain : Option (List (GraphPeer K))} {side : EdgesCube K C → List (GraphPeer K)}
    (some_cube : props.cubes ≠ []) (inactive : ∀ peers ∈ domain, ∀ cube ∈ props.cubes, side cube = peers) :
    p ∈ projectPeers props domain side ↔ ∃ cube ∈ props.cubes, p ∈ side cube := by
  cases domain with
  | some peers =>
    show p ∈ peers ↔ _
    have same := inactive peers rfl
    constructor
    · intro inside
      have listed := List.head_mem some_cube
      exact ⟨_, listed, (same _ listed) ▸ inside⟩
    · intro taken
      obtain ⟨cube, listed, inside⟩ := taken
      exact (same cube listed) ▸ inside
  | none =>
    have walk : ∀ (cubes : List (EdgesCube K C)) (res : List (GraphPeer K)),
        p ∈ cubes.foldl (fun res cube => res ∪ side cube) res ↔ p ∈ res ∨ ∃ cube ∈ cubes, p ∈ side cube := by
      intro cubes
      induction cubes with
      | nil => simp
      | cons cube rest ih =>
        intro res
        rw [List.foldl_cons, ih, List.mem_union_iff, List.exists_mem_cons_iff, or_assoc]
    refine (walk props.cubes []).trans (or_iff_right ?_)
    exact List.not_mem_nil

theorem mem_getAllPeers (some_cube : props.cubes ≠ []) :
    p ∈ getAllPeers props ↔ ∃ cube ∈ props.cubes, p ∈ cube.src_peers ++ cube.dst_peers := by
  unfold getAllPeers
  rw [List.mem_union_iff, mem_projectPeers some_cube props.src_inactive,
    mem_projectPeers some_cube props.dst_inactive]
  simp only [List.mem_append, ← exists_or, ← and_or_left]

omit [EdgeLabels C] in
/-- Blocks of one range are split into themselves. -/
theorem mem_split_peers_self (single : ∀ block, .ipBlock block ∈ peers → block.interval_set.length = 1) :
    p ∈ splitPeers peers ↔ p ∈ peers := by
  have self : ∀ peer ∈ peers, peer.split = [peer] := by
    intro peer listed
    cases peer with
    | other => rfl
    | ipBlock block =>
      obtain ⟨ip_range, one⟩ := List.length_eq_one_iff.mp (single block listed)
      show block.interval_set.map _ = _
      rw [one, List.map_singleton, ← one]
  rw [mem_splitPeers]
  constructor
  · intro taken
    obtain ⟨peer, listed, inside⟩ := taken
    rw [self peer listed, List.mem_singleton] at inside
    exact inside ▸ listed
  · intro listed
    refine ⟨p, listed, ?_⟩
    rw [self p listed]
    exact List.mem_singleton_self p

theorem one_range_of_split {block : IpBlock} (inside : .ipBlock block ∈ splitPeers peers) :
    block.interval_set.length = 1 := by
  obtain ⟨peer, _, inside⟩ := mem_splitPeers.mp inside
  cases peer with
  | other => cases List.mem_singleton.mp inside
  | ipBlock whole =>
    obtain ⟨ip_range, _, same⟩ := List.mem_map.mp inside
    rw [← GraphPeer.ipBlock.inj same]
    rfl

variable [DecidableEq C] [Endpoints K] {allowed_labels : List Str}

theorem occurs_iff (one_range : OneRange props) :
    (ConnectivityGraph.ofProps props allowed_labels).Occurs p ↔
      ∃ cube ∈ props.cubes, p ∈ cube.src_peers ++ cube.dst_peers := by
  have src : ∀ cube ∈ props.cubes, ∀ p, p ∈ splitPeers cube.src_peers ↔ p ∈ cube.src_peers :=
    fun cube listed p => mem_split_peers_self fun block inside =>
      one_range.blocks cube listed block (List.mem_append_left _ inside)
  have dst : ∀ cube ∈ props.cubes, ∀ p, p ∈ splitPeers cube.dst_peers ↔ p ∈ cube.dst_peers :=
    fun cube listed p => mem_split_peers_self fun block inside =>
      one_range.blocks cube listed block (List.mem_append_right _ inside)
  constructor
  · intro occurs
    obtain ⟨q, c, either⟩ := occurs
    rw [carries_ofProps, carries_ofProps] at either
    rcases either with ⟨cube, listed, _, source, _⟩ | ⟨cube, listed, _, _, target⟩
    · exact ⟨cube, listed, List.mem_append_left _ ((src cube listed p).mp source)⟩
    · exact ⟨cube, listed, List.mem_append_right _ ((dst cube listed p).mp target)⟩
  · intro taken
    obtain ⟨cube, listed, inside⟩ := taken
    rcases List.mem_append.mp inside with source | target
    · have other := (dst cube listed _).mpr (List.head_mem cube.some_dst)
      refine ⟨cube.dst_peers.head cube.some_dst, cube.props, Or.inl ?_⟩
      exact carries_ofProps.mpr ⟨cube, listed, rfl, (src cube listed p).mpr source, other⟩
    · have other := (src cube listed _).mpr (List.head_mem cube.some_src)
      refine ⟨cube.src_peers.head cube.some_src, cube.props, Or.inr ?_⟩
      exact carries_ofProps.mpr ⟨cube, listed, rfl, other, (dst cube listed p).mpr target⟩

/-- All peers of the properties are peers of edges. -/
theorem occurring_iff : (∀ p, p ∈ getAllPeers props ↔
    (ConnectivityGraph.ofProps props allowed_labels).Occurs p) ↔ OneRange props := by
  constructor
  · intro occurring
    constructor
    · intro cube listed block inside
      have known := (mem_getAllPeers (List.ne_nil_of_mem listed)).mpr ⟨cube, listed, inside⟩
      obtain ⟨q, c, either⟩ := (occurring _).mp known
      rw [carries_ofProps, carries_ofProps] at either
      rcases either with ⟨_, _, _, source, _⟩ | ⟨_, _, _, _, target⟩
      · exact one_range_of_split source
      · exact one_range_of_split target
    · intro none
      apply List.eq_nil_iff_forall_not_mem.mpr
      intro p inside
      obtain ⟨q, c, either⟩ := (occurring p).mp inside
      rw [carries_ofProps, carries_ofProps, none] at either
      simp at either
  · intro one_range p
    rw [occurs_iff one_range]
    by_cases none : props.cubes = []
    · rw [one_range.no_cubes none, none]
      simp
    · exact mem_getAllPeers none

end Ranges

section Exact

variable {K C : Type} [DecidableEq K] [DecidableEq C] [EdgeLabels C] [Endpoints K]

end Exact

section Pods

/-- Pods of the default namespace, by their names. -/
local instance defaultPods : Endpoints String := ⟨fun _ => some "default", fun _ => [], fun _ => List.nodup_nil⟩

local instance namedLabels : EdgeLabels String := ⟨fun label => label != ""⟩

/-- A pod that may connect to the addresses of a block. -/
def podToBlock (block : IpBlock) : EdgesProps String String where
  cubes := [⟨[.other "default/a"], [.ipBlock block], "All connections", List.cons_ne_nil _ _,
    List.cons_ne_nil _ _, rfl⟩]
  src_domain := none
  dst_domain := none
  src_inactive domain absent := by cases absent
  dst_inactive domain absent := by cases absent

/-- 12.0.0.0/8 -/
def firstRange : IntervalOf IPNetworkAddress := ⟨⟨.v4, 201326592, by decide⟩, ⟨.v4, 218103807, by decide⟩⟩

/-- 14.0.0.0/8 -/
def secondRange : IntervalOf IPNetworkAddress := ⟨⟨.v4, 234881024, by decide⟩, ⟨.v4, 251658239, by decide⟩⟩

end Pods

end Nca.FWRules
