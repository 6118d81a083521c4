import Nca.FWRules.DrawnGraph

/-!
Drawing the groups and then the labels one after another shows each label as it was drawn, and the
drawing has exactly the edges of each label if and only if no two labels number nodes of cliques of
one namespace alike.
-/

namespace Nca.FWRules
open CoreDS Lib Lib.Python LabeledPeers DotGraph

section Labels

variable {find_cliques : Finset Edge → List (List Node)} {order : SetOrder (Finset Node)}
  {edge_order : SetOrder Edge} {dot : DotGraph} {N : Set DotNode} {E : Set NamedEdge}
  {directed_edges : Finset Edge} {e : Edge} {n : Node}

/-- All nodes of the edges that are drawn are nodes of the label or new. -/
theorem DrawnLabel.edge_ends (d : DrawnLabel find_cliques) (finds : FindsCliques find_cliques)
    (edge : (e ∈ d.passes.directed_edges ∪ d.passes.bicliqued.bicliques_edges) ∨
      e ∈ d.passes.undirected_edges ∪ d.passes.cliqued.cliques_edges) (either : n = e.1 ∨ n = e.2) :
    n ∈ ends d.directed_edges ∨ n ∈ d.passes.cliqued.cliques_nodes ∨ n ∈ d.passes.bicliqued.bicliques_nodes := by
  have given : ∀ n ∈ ends d.passes.towards, n ∈ ends d.directed_edges := by
    intro n inside
    obtain ⟨e, edge, either⟩ := mem_ends.mp inside
    exact mem_ends.mpr ⟨e, towards_subset d.passed d.replaces edge, either⟩
  have kept : ∀ e ∈ d.passes.bicliqued.directed_edges, ∀ n, n = e.1 ∨ n = e.2 → n ∈ ends d.directed_edges :=
    fun e edge n either => given n (mem_ends.mpr ⟨e, d.passed.kept edge, either⟩)
  rcases edge with edge | edge
  · rcases Finset.mem_union.mp edge with directed | bicliqued
    · exact Or.inl (kept e (d.passed.directed directed) n either)
    · rcases d.passed.biclique_ends e bicliqued n either with new | old
      · exact Or.inr (Or.inr new)
      · exact Or.inl (given n old)
  · rcases Finset.mem_union.mp edge with undirected | cliqued
    · exact Or.inl (kept e ((d.passed.undirected e).mp undirected).1.1 n either)
    · obtain ⟨hub, listed, inside⟩ := (d.replaces.drawn e).mp cliqued
      rcases (d.replaces.each hub listed).inside e inside n either with old | new
      · exact Or.inl ((hub_clique finds d.replaces listed).1 n old)
      · exact Or.inr (Or.inl (d.hub_name listed new))

/-- One label is drawn. -/
theorem drawLabel_draws (finds : FindsCliques find_cliques) (visits : order.Visits) (edge_visits : edge_order.Visits)
    (conn_str : String) (holds : dot.Shows N E)
    (known : ∀ n ∈ ends directed_edges, ∃ node ∈ N, node.name = n.name) :
    Returns (drawLabel find_cliques order edge_order conn_str directed_edges dot) fun next =>
      ∃ d : DrawnLabel find_cliques, (d.conn_str = conn_str ∧ d.directed_edges = directed_edges ∧
        labelPasses find_cliques order conn_str directed_edges = .ok d.passes) ∧
        next.do_not_subgraph = dot.do_not_subgraph ∧
        next.Shows (N ∪ d.nodesIn dot.do_not_subgraph) (E ∪ d.edgesIn) := by
  obtain ⟨passes, run, passed⟩ := labelPasses_spec visits find_cliques conn_str directed_edges
  obtain ⟨hubs, replaces⟩ := createsCliquedGraph_replaces finds conn_str (undirectedOf directed_edges)
  rw [← passed.cliqued] at replaces
  let d : DrawnLabel find_cliques := ⟨conn_str, directed_edges, passes, hubs, passed, replaces⟩
  obtain ⟨kept, first⟩ := shows_addNodes passes.cliqued.cliques_nodes holds .clique [conn_str]
  obtain ⟨kept', second⟩ := shows_addNodes passes.bicliqued.bicliques_nodes first .biClique [conn_str]
  rw [kept, Set.union_assoc] at second
  have ends_known : ∀ e, (e ∈ passes.directed_edges ∪ passes.bicliqued.bicliques_edges) ∨
      e ∈ passes.undirected_edges ∪ passes.cliqued.cliques_edges → ∀ n, n = e.1 ∨ n = e.2 →
      ∃ node ∈ N ∪ d.nodesIn dot.do_not_subgraph, node.name = n.name := by
    intro e edge n either
    rcases d.edge_ends finds edge either with old | clique | biclique
    · obtain ⟨node, inside, same⟩ := known n old
      exact ⟨node, Or.inl inside, same⟩
    · exact ⟨_, Or.inr (Or.inl ⟨n, clique, rfl⟩), rfl⟩
    · exact ⟨_, Or.inr (Or.inr ⟨n, biclique, rfl⟩), rfl⟩
  have passed_run : Returns (labelPasses find_cliques order conn_str directed_edges) (· = passes) :=
    ⟨passes, run, rfl⟩
  apply returns_bind passed_run
  intro made same
  rw [same]
  apply returns_bind (shows_addEdges (edge_order 0 _) second conn_str true ?_)
  · intro third stepped
    apply returns_mono (shows_addEdges (edge_order 1 _) stepped.2 conn_str false ?_)
    · intro last reached
      refine ⟨d, ⟨rfl, rfl, run⟩, ?_, ?_⟩
      · exact reached.1.trans (stepped.1.trans (kept'.trans kept))
      · have shown := reached.2
        rw [Set.union_assoc] at shown
        simp only [edge_visits _ _ _] at shown
        exact shown
    · intro e edge
      exact ends_known e (Or.inr ((edge_visits _ _ _).mp edge))
  · intro e edge
    exact ends_known e (Or.inl ((edge_visits _ _ _).mp edge))

end Labels

section Runs

variable {K C : Type} [DrawnPeers K] [DrawnLabels C] {find_cliques : Finset Edge → List (List Node)}
  {order : SetOrder (Finset Node)} {edge_order : SetOrder Edge} {dot : DotGraph} {N : Set DotNode}
  {E : Set NamedEdge} {representing_peers : List (GraphPeer K)} {group : List (GraphPeer K) × Option C}
  {p q : GraphPeer K}

/-- The graph shows these peers, and no edges but of peers to themselves. -/
structure ShowsPeers (representing_peers : List (GraphPeer K)) (dot : DotGraph) (N : Set DotNode)
    (E : Set NamedEdge) : Prop where
  shows : dot.Shows N E
  no_clique : ∀ node ∈ N, node.node_type ≠ .clique
  loops : ∀ named ∈ E, named.1 = named.2.1 ∧ ∃ p ∈ representing_peers, named.1 = (nodeOf p).name
  known : ∀ p ∈ representing_peers, ∃ node ∈ N, node.name = (nodeOf p).name

theorem addGroup_shows (holds : ShowsPeers representing_peers dot N E) (filled : group.1 ≠ []) :
    Returns (addGroup dot group) fun next =>
      ∃ N E, ShowsPeers (representing_peers ++ [group.1.head filled]) next N E := by
  obtain ⟨members, group_props⟩ := group
  cases members with
  | nil => exact absurd rfl filled
  | cons first rest =>
    let text :=
      if 1 < (first :: rest).length then ((first :: rest).map DrawnPeers.text).dedup.insertionSort (· ≤ ·)
      else [DrawnPeers.text first]
    let node_type := if 1 < text.length then NodeType.multiPod else DrawnPeers.node_type first
    let made := newNode dot.do_not_subgraph (nodeOf first).nc_name (nodeOf first).name node_type text
    have no_clique : node_type ≠ .clique := by
      show (if 1 < text.length then NodeType.multiPod else DrawnPeers.node_type first) ≠ .clique
      split
      · exact NodeType.noConfusion
      · exact DrawnPeers.peer_type first
    have added := shows_addNode holds.shows (nodeOf first).nc_name (nodeOf first).name node_type text
    have next : ∀ dot' E', dot'.Shows (insert made N) E' →
        (∀ named ∈ E', named ∈ E ∨ named.1 = (nodeOf first).name ∧ named.2.1 = (nodeOf first).name) →
        ShowsPeers (representing_peers ++ [first]) dot' (insert made N) E' := by
      intro dot' E' shows_dot each
      constructor
      · exact shows_dot
      · intro node inside
        rcases inside with rfl | before
        · exact no_clique
        · exact holds.no_clique node before
      · intro named inside
        rcases each named inside with before | ⟨start, stop⟩
        · obtain ⟨same, p, listed, name⟩ := holds.loops named before
          exact ⟨same, p, List.mem_append_left _ listed, name⟩
        · exact ⟨start.trans stop.symm, first, List.mem_append_right _ List.mem_cons_self, start⟩
      · intro p listed
        rcases List.mem_append.mp listed with before | last
        · obtain ⟨node, inside, same⟩ := holds.known p before
          exact ⟨node, Or.inr inside, same⟩
        · rw [List.mem_singleton.mp last]
          exact ⟨made, Or.inl rfl, rfl⟩
    have plain : ShowsPeers (representing_peers ++ [first]) _ (insert made N) E :=
      next _ E added fun named before => Or.inl before
    unfold addGroup
    rw [item_zero, ok_bind]
    cases group_props with
    | none => exact returns_pure ⟨_, _, plain⟩
    | some props =>
      apply returns_ite
      · intro _
        have source : made ∈ insert made N := Or.inl rfl
        apply returns_mono (shows_addEdge added source source (DrawnLabels.conn_str props) false)
        intro last stepped
        refine ⟨_, _, next _ _ stepped.2 ?_⟩
        intro named inside
        rcases inside with rfl | before
        · exact Or.inr ⟨rfl, rfl⟩
        · exact Or.inl before
      · intro _
        exact returns_pure ⟨_, _, plain⟩

theorem addGroups_show (simplify_graph : Bool) (peers_groups : List (List (GraphPeer K) × Option C))
    (filled : ∀ group ∈ peers_groups, group.1 ≠ []) :
    Returns (peers_groups.foldlM addGroup ⟨simplify_graph, [], [], []⟩) fun dot =>
      ∃ N E, ShowsPeers (representingPeers peers_groups) dot N E := by
  apply returns_foldlM fun before dot => ∃ N E, ShowsPeers (representingPeers before) dot N E
  · refine ⟨∅, ∅, shows_empty simplify_graph, ?_, ?_, ?_⟩
    · exact fun node inside => inside.elim
    · exact fun named inside => inside.elim
    · exact List.forall_mem_nil _
  · intro before group after dot whole holds
    obtain ⟨N, E, holds⟩ := holds
    have some_peers : group.1 ≠ [] := filled group (whole ▸ List.mem_append_right _ List.mem_cons_self)
    apply returns_mono (addGroup_shows holds some_peers)
    intro next stepped
    have more : representingPeers (before ++ [group]) = representingPeers before ++ [group.1.head some_peers] := by
      unfold representingPeers
      rw [List.filterMap_append]
      simp [List.head?_eq_some_head some_peers]
    rw [more]
    exact stepped

variable [DecidableEq K]

/-- The entry of a label has been drawn. -/
structure DrawnAs (order : SetOrder (Finset Node)) (representing_peers : List (GraphPeer K))
    (entry : C × List (GraphPeer K × GraphPeer K)) (d : DrawnLabel find_cliques) : Prop where
  conn_str : d.conn_str = DrawnLabels.conn_str entry.1
  directed_edges : d.directed_edges = directedEdges representing_peers entry
  run : labelPasses find_cliques order (DrawnLabels.conn_str entry.1) (directedEdges representing_peers entry) =
    .ok d.passes

theorem ends_directedEdges {entry : C × List (GraphPeer K × GraphPeer K)} {n : Node}
    (inside : n ∈ ends (directedEdges representing_peers entry)) : ∃ p ∈ representing_peers, n = nodeOf p := by
  obtain ⟨e, edge, either⟩ := mem_ends.mp inside
  unfold directedEdges at edge
  rw [List.mem_toFinset, List.mem_map] at edge
  obtain ⟨pair, listed, rfl⟩ := edge
  have conditions := of_decide_eq_true (List.mem_filter.mp listed).2
  rcases either with rfl | rfl
  · exact ⟨pair.1, conditions.2.2.1, rfl⟩
  · exact ⟨pair.2, conditions.2.2.2, rfl⟩

/-- The labels of the entries have been drawn over what was there. -/
def LabelsDrawn (find_cliques : Finset Edge → List (List Node)) (order : SetOrder (Finset Node))
    (representing_peers : List (GraphPeer K)) (N : Set DotNode) (E : Set NamedEdge)
    (entries : List (C × List (GraphPeer K × GraphPeer K))) (dot : DotGraph) : Prop :=
  ∃ drawn : List (DrawnLabel find_cliques), List.Forall₂ (DrawnAs order representing_peers) entries drawn ∧
    dot.Shows (N ∪ {node | ∃ d ∈ drawn, node ∈ d.nodesIn dot.do_not_subgraph})
      (E ∪ {named | ∃ d ∈ drawn, named ∈ d.edgesIn})

/-- The labels are drawn one after another. -/
theorem drawLabels_draw (finds : FindsCliques find_cliques) (visits : order.Visits)
    (edge_visits : edge_order.Visits) (holds : ShowsPeers representing_peers dot N E)
    (props_to_peers : List (C × List (GraphPeer K × GraphPeer K))) :
    Returns (props_to_peers.foldlM (fun dot_graph entry =>
        drawLabel find_cliques order edge_order (DrawnLabels.conn_str entry.1)
          (directedEdges representing_peers entry) dot_graph) dot)
      (LabelsDrawn find_cliques order representing_peers N E props_to_peers) := by
  apply returns_foldlM (LabelsDrawn find_cliques order representing_peers N E)
  · refine ⟨[], List.Forall₂.nil, ?_⟩
    simpa using holds.shows
  · intro before entry after dot whole step
    obtain ⟨drawn, aligned, shown⟩ := step
    have known : ∀ n ∈ ends (directedEdges representing_peers entry),
        ∃ node ∈ N ∪ {node | ∃ d ∈ drawn, node ∈ d.nodesIn dot.do_not_subgraph}, node.name = n.name := by
      intro n inside
      obtain ⟨p, listed, rfl⟩ := ends_directedEdges inside
      obtain ⟨node, base, same⟩ := holds.known p listed
      exact ⟨node, Or.inl base, same⟩
    apply returns_mono (drawLabel_draws finds visits edge_visits (DrawnLabels.conn_str entry.1) shown known)
    intro next stepped
    obtain ⟨d, ⟨conn_str, directed_edges, run⟩, kept, last⟩ := stepped
    refine ⟨drawn ++ [d], List.rel_append aligned (List.Forall₂.cons ⟨conn_str, directed_edges, run⟩ List.Forall₂.nil), ?_⟩
    have more : ∀ {α : Type} (f : DrawnLabel find_cliques → Set α) (base : Set α),
        base ∪ {x | ∃ d' ∈ drawn ++ [d], x ∈ f d'} = (base ∪ {x | ∃ d' ∈ drawn, x ∈ f d'}) ∪ f d := by
      intro α f base
      ext x
      simp only [Set.mem_union, Set.mem_ofPred_eq, List.mem_append, List.mem_singleton, or_and_right, exists_or,
        exists_eq_left, or_assoc]
    rw [kept, more (DrawnLabel.nodesIn · dot.do_not_subgraph), more DrawnLabel.edgesIn]
    exact last

/-- `drawGraph` draws the labels over the representing peers. -/
theorem drawGraph_draws (finds : FindsCliques find_cliques) (visits : order.Visits)
    (edge_visits : edge_order.Visits) (simplify_graph : Bool)
    {peers_groups : List (List (GraphPeer K) × Option C)} (filled : ∀ group ∈ peers_groups, group.1 ≠ [])
    {props_to_peers : List (C × List (GraphPeer K × GraphPeer K))}
    (distinct : (props_to_peers.map fun entry => stripText (DrawnLabels.conn_str entry.1)).Nodup) :
    Returns (drawGraph find_cliques order edge_order simplify_graph peers_groups props_to_peers) fun dot =>
      ∃ drawn : List (DrawnLabel find_cliques),
        List.Forall₂ (DrawnAs order (representingPeers peers_groups)) props_to_peers drawn ∧
        Drawing find_cliques dot {n | ∃ p ∈ representingPeers peers_groups, n = nodeOf p} drawn := by
  apply returns_bind (addGroups_show simplify_graph peers_groups filled)
  intro dot shown
  obtain ⟨N, E, holds⟩ := shown
  apply returns_mono (drawLabels_draw finds visits edge_visits holds props_to_peers)
  intro last reached
  obtain ⟨drawn, aligned, shows_dot⟩ := reached
  refine ⟨drawn, aligned, finds, ?_, ?_, N, E, shows_dot, holds.no_clique, ?_⟩
  · intro d listed n inside
    obtain ⟨entry, _, as⟩ := forall₂_source aligned listed
    rw [as.directed_edges] at inside
    exact ends_directedEdges inside
  · apply List.pairwise_map.mpr
    apply forall₂_pairwise aligned (List.pairwise_map.mp distinct)
    intro entry entry' d d' as as' different
    rw [as.conn_str, as'.conn_str]
    exact different
  · intro named inside
    obtain ⟨loop, p, listed, same⟩ := holds.loops named inside
    exact ⟨loop, nodeOf p, ⟨p, listed, rfl⟩, same⟩

end Runs

section Exact

variable {K C : Type} [DrawnPeers K] [DrawnLabels C] [DecidableEq K] {find_cliques : Finset Edge → List (List Node)}
  {order : SetOrder (Finset Node)} {edge_order : SetOrder Edge} {dot : DotGraph}
  {representing_peers : List (GraphPeer K)} {props_to_peers : List (C × List (GraphPeer K × GraphPeer K))}
  {drawn : List (DrawnLabel find_cliques)}

/-- For each label the peers that are joined by its undirected edges or through the nodes of its
cliques are those of the edges that remain, and the nodes of cliques of different labels are
different. -/
structure DrawsLabels (find_cliques : Finset Edge → List (List Node)) (order : SetOrder (Finset Node))
    (representing_peers : List (GraphPeer K)) (props_to_peers : List (C × List (GraphPeer K × GraphPeer K)))
    (dot : DotGraph) : Prop where
  exact : ∀ entry ∈ props_to_peers, ∀ passes,
    labelPasses find_cliques order (DrawnLabels.conn_str entry.1) (directedEdges representing_peers entry) = .ok passes →
    ∀ p ∈ representing_peers, ∀ q ∈ representing_peers, nodeOf p ≠ nodeOf q →
      (dot.Joins (DrawnLabels.conn_str entry.1) (nodeOf p).name (nodeOf q).name ↔
        passes.Remains (directedEdges representing_peers entry) (nodeOf p, nodeOf q))
  apart : ∀ a ∈ dot.nodes, ∀ b ∈ dot.nodes, a.node_type = .clique → b.node_type = .clique →
    a.label ≠ b.label → a.name ≠ b.name

/-- No two labels have nodes that stand for a namespace under one number. -/
def LabelsApart (find_cliques : Finset Edge → List (List Node)) (representing_peers : List (GraphPeer K))
    (props_to_peers : List (C × List (GraphPeer K × GraphPeer K))) : Prop :=
  props_to_peers.Pairwise fun entry other => ∀ number : Nat,
    ¬ ((labelKinds find_cliques (directedEdges representing_peers entry))[number]? = some false ∧
      (labelKinds find_cliques (directedEdges representing_peers other))[number]? = some false)

/-- A name of a peer tells its namespace and is not the name of a node of a clique. -/
structure PeersApart (find_cliques : Finset Edge → List (List Node)) (representing_peers : List (GraphPeer K))
    (props_to_peers : List (C × List (GraphPeer K × GraphPeer K))) : Prop where
  named : ∀ p ∈ representing_peers, ∀ q ∈ representing_peers, (nodeOf p).name = (nodeOf q).name →
    nodeOf p = nodeOf q
  other : ∀ p ∈ representing_peers, ∀ entry ∈ props_to_peers, (nodeOf p).name ∉
    labelNames find_cliques (DrawnLabels.conn_str entry.1) (directedEdges representing_peers entry)

theorem DrawnAs.names {entry : C × List (GraphPeer K × GraphPeer K)} {d : DrawnLabel find_cliques}
    (as : DrawnAs order representing_peers entry d) : d.names =
      labelNames find_cliques (DrawnLabels.conn_str entry.1) (directedEdges representing_peers entry) := by
  rw [d.names_eq, as.conn_str, as.directed_edges]

theorem namesApart_of_labels (aligned : List.Forall₂ (DrawnAs order representing_peers) props_to_peers drawn)
    (distinct : (props_to_peers.map fun entry => stripText (DrawnLabels.conn_str entry.1)).Nodup)
    (peers_apart : PeersApart find_cliques representing_peers props_to_peers)
    (labels_apart : LabelsApart find_cliques representing_peers props_to_peers) :
    Drawing.NamesApart {n | ∃ p ∈ representing_peers, n = nodeOf p} drawn := by
  constructor
  · intro n source m target same
    obtain ⟨p, listed, rfl⟩ := source
    obtain ⟨q, listed', rfl⟩ := target
    exact peers_apart.named p listed q listed' same
  · apply List.nodup_flatMap.mpr
    constructor
    · intro d listed
      obtain ⟨entry, _, as⟩ := forall₂_source aligned listed
      rw [as.names]
      exact nodup_numberedNames (DrawnLabels.framed entry.1) _
    · apply forall₂_pairwise aligned ((List.pairwise_map.mp distinct).and labels_apart)
      intro entry other d d' as as' both
      show d.names.Disjoint d'.names
      rw [as.names, as'.names]
      apply (disjoint_numberedNames (DrawnLabels.framed entry.1) (DrawnLabels.framed other.1) ?_).mpr both.2
      exact fun same => both.1 (congrArg stripText same)
  · intro n peer shared
    obtain ⟨p, listed, rfl⟩ := peer
    obtain ⟨d, member, named⟩ := List.mem_flatMap.mp shared
    obtain ⟨entry, listed', as⟩ := forall₂_source aligned member
    rw [as.names] at named
    exact peers_apart.other p listed entry listed' named

theorem drawsLabels_of_apart (aligned : List.Forall₂ (DrawnAs order representing_peers) props_to_peers drawn)
    (drawing : Drawing find_cliques dot {n | ∃ p ∈ representing_peers, n = nodeOf p} drawn)
    (apart : Drawing.NamesApart {n | ∃ p ∈ representing_peers, n = nodeOf p} drawn) :
    DrawsLabels find_cliques order representing_peers props_to_peers dot := by
  constructor
  · intro entry listed passes run p source q target different
    obtain ⟨d, member, as⟩ := forall₂_source aligned.flip listed
    have same : d.passes = passes := Except.ok.inj (as.run.symm.trans run)
    have exact_edges := drawing.joins_iff apart member ⟨p, source, rfl⟩ ⟨q, target, rfl⟩ different
    rw [as.conn_str, as.directed_edges, same] at exact_edges
    exact exact_edges
  · intro a member b member' is_clique is_clique' different same
    obtain ⟨d, listed, label⟩ := drawing.label_of_cliqueNode member is_clique
    obtain ⟨d', listed', label'⟩ := drawing.label_of_cliqueNode member' is_clique'
    obtain ⟨hub, hub_listed, n, new, name⟩ := drawing.name_of_cliqueNode listed ⟨a, member, rfl, is_clique, label⟩
    obtain ⟨hub', hub_listed', n', new', name'⟩ :=
      drawing.name_of_cliqueNode listed' ⟨b, member', rfl, is_clique', label'⟩
    have equal := (Drawing.name_unique apart.nodup listed hub_listed new listed' hub_listed' new'
      (name.trans (same.trans name'.symm))).1
    rw [label, label', equal] at different
    exact different rfl

/-- Two labels with nodes under one number have nodes of one name. -/
theorem labelsApart_of_draws (aligned : List.Forall₂ (DrawnAs order representing_peers) props_to_peers drawn)
    (drawing : Drawing find_cliques dot {n | ∃ p ∈ representing_peers, n = nodeOf p} drawn)
    (draws : DrawsLabels find_cliques order representing_peers props_to_peers dot) :
    LabelsApart find_cliques representing_peers props_to_peers := by
  have disjoint : drawn.Pairwise fun d d' => stripText d.conn_str ≠ stripText d'.conn_str ∧ d.names.Disjoint d'.names := by
    apply (List.pairwise_map.mp drawing.distinct).imp_of_mem
    intro d d' listed listed' different
    refine ⟨different, ?_⟩
    intro name named named'
    obtain ⟨a, member, rfl, is_clique, label⟩ := drawing.cliqueNode_of_name listed named
    obtain ⟨b, member', same, is_clique', label'⟩ := drawing.cliqueNode_of_name listed' named'
    refine draws.apart a member b member' is_clique is_clique' ?_ same.symm
    rw [label, label']
    exact fun equal => different (stripText_of_stripLabel equal)
  apply forall₂_pairwise aligned.flip disjoint
  intro d d' entry other as as' both
  rw [as.names, as'.names] at both
  apply (disjoint_numberedNames (DrawnLabels.framed entry.1) (DrawnLabels.framed other.1) ?_).mp both.2
  intro same
  rw [as.conn_str, as'.conn_str, same] at both
  exact both.1 rfl

end Exact
end Nca.FWRules
