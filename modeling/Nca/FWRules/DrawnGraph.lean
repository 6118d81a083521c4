import Nca.FWRules.CliqueNames
import Nca.FWRules.DotGraph
import Nca.FWRules.EqualGroups
import Nca.FWRules.LabelPasses

/-!
The drawing of a connectivity graph: its groups of peers as nodes, and for each label the edges that
are left, with the nodes of cliques and bicliques in place of the others. When the nodes of all
cliques have names of their own, the drawing has exactly the edges of each label.
-/

namespace Nca.FWRules
open CoreDS Lib Lib.Python LabeledPeers DotGraph

/-- What is drawn of a peer. -/
class DrawnPeers (K : Type) extends Endpoints K where
  peer_name : GraphPeer K → String
  node_type : GraphPeer K → NodeType
  text : GraphPeer K → String
  peer_type : ∀ p, node_type p ≠ .clique

/-- The labels with the texts that are drawn for them: `All`, `All but`, `No connections` or cubes in
braces. -/
class DrawnLabels (C : Type) extends EdgeLabels C where
  conn_str : C → String
  framed : ∀ c, Numerals.Framed (conn_str c)

section Draw

variable {K C : Type} [DrawnPeers K] [DrawnLabels C]

/-- The first two parts of `_get_peer_details`. -/
def nodeOf (peer : GraphPeer K) : Node := ⟨DrawnPeers.peer_name peer, (peer_namespace peer).getD ""⟩

/-- The node of a group, and its edge to itself if the group has several texts. -/
def addGroup (dot_graph : DotGraph) (group : List (GraphPeer K) × Option C) : Except Failure DotGraph := do
  let first ← item group.1 0
  let text :=
    if 1 < group.1.length then (group.1.map DrawnPeers.text).dedup.insertionSort (· ≤ ·)
    else [DrawnPeers.text first]
  let node_type := if 1 < text.length then .multiPod else DrawnPeers.node_type first
  let dot_graph := dot_graph.addNode (nodeOf first).nc_name (nodeOf first).name node_type text
  match group.2 with
  | some group_props =>
    if 1 < text.length ∧ EdgeLabels.bool group_props = true then
      dot_graph.addEdge (nodeOf first).name (nodeOf first).name (DrawnLabels.conn_str group_props) false
    else pure dot_graph
  | none => pure dot_graph

/-- The first peers of the groups. -/
def representingPeers (peers_groups : List (List (GraphPeer K) × Option C)) : List (GraphPeer K) :=
  peers_groups.filterMap fun group => group.1.head?

variable [DecidableEq K]

omit [DrawnPeers K] in
theorem lawfulGraphPeer : LawfulBEq (GraphPeer K) := inferInstance

attribute [local instance] lawfulGraphPeer

/-- The edges of a label between the peers that stand for groups. -/
def directedEdges (representing_peers : List (GraphPeer K)) (entry : C × List (GraphPeer K × GraphPeer K)) :
    Finset Edge :=
  ((entry.2.filter fun pair => pair.1 ≠ pair.2 ∧ EdgeLabels.bool entry.1 = true ∧
    pair.1 ∈ representing_peers ∧ pair.2 ∈ representing_peers).map fun pair =>
      (nodeOf pair.1, nodeOf pair.2)).toFinset

/-- What is drawn for a label, with the edges in the order in which their set is iterated. -/
def drawLabel (find_cliques : Finset Edge → List (List Node)) (order : SetOrder (Finset Node))
    (edge_order : SetOrder Edge) (conn_str : String) (directed_edges : Finset Edge) (dot_graph : DotGraph) :
    Except Failure DotGraph := do
  let passes ← labelPasses find_cliques order conn_str directed_edges
  let dot_graph := dot_graph.addNodes passes.cliqued.cliques_nodes .clique [conn_str]
  let dot_graph := dot_graph.addNodes passes.bicliqued.bicliques_nodes .biClique [conn_str]
  let dot_graph ← dot_graph.addEdges
    (edge_order 0 (passes.directed_edges ∪ passes.bicliqued.bicliques_edges)) conn_str true
  dot_graph.addEdges
    (edge_order 1 (passes.undirected_edges ∪ passes.cliqued.cliques_edges)) conn_str false

/-- `get_connectivity_dot_format_str` for the groups of peers, up to the writing. -/
def drawGraph (find_cliques : Finset Edge → List (List Node)) (order : SetOrder (Finset Node))
    (edge_order : SetOrder Edge) (simplify_graph : Bool)
    (peers_groups : List (List (GraphPeer K) × Option C))
    (props_to_peers : List (C × List (GraphPeer K × GraphPeer K))) : Except Failure DotGraph := do
  let dot_graph ← peers_groups.foldlM addGroup ⟨simplify_graph, [], [], []⟩
  let representing_peers := representingPeers peers_groups
  props_to_peers.foldlM (fun dot_graph entry =>
    drawLabel find_cliques order edge_order (DrawnLabels.conn_str entry.1)
      (directedEdges representing_peers entry) dot_graph) dot_graph

end Draw

section Joins

/-- An undirected edge between the two names. -/
def DotGraph.Adjacent (dot : DotGraph) (x y : String) : Prop :=
  ∃ label, dot.HasEdge (x, y, label, false) ∨ dot.HasEdge (y, x, label, false)

/-- A node of a clique of the label has the name. -/
def DotGraph.IsCliqueNode (dot : DotGraph) (label name : String) : Prop :=
  ∃ node ∈ dot.nodes, node.name = name ∧ node.node_type = .clique ∧ node.label = stripLabel [label]

/-- An undirected edge with the label, or a way through nodes of cliques of the label. -/
def DotGraph.Joins (dot : DotGraph) (label x y : String) : Prop :=
  dot.HasEdge (x, y, stripText label, false) ∨ dot.HasEdge (y, x, stripText label, false) ∨
  ∃ m n, dot.Adjacent x m ∧ dot.IsCliqueNode label m ∧
    Relation.ReflTransGen (fun a b => dot.Adjacent a b ∧ dot.IsCliqueNode label b) m n ∧ dot.Adjacent n y

/-- The edge goes both ways, and no direction of it is drawn through a biclique. -/
def LabelPasses.Remains (passes : LabelPasses) (directed_edges : Finset Edge) (e : Edge) : Prop :=
  (e ∈ directed_edges ∧ (e.2, e.1) ∈ directed_edges) ∧
  e ∉ passes.towards \ passes.bicliqued.directed_edges ∧
  (e.2, e.1) ∉ passes.towards \ passes.bicliqued.directed_edges

/-- Which nodes the cliques of a label need, in their order. -/
def labelKinds (find_cliques : Finset Edge → List (List Node)) (directed_edges : Finset Edge) : List Bool :=
  (sortedCliques (find_cliques (undirectedOf directed_edges))).flatMap nodeKinds

/-- The names of the nodes of the cliques of a label. -/
def labelNames (find_cliques : Finset Edge → List (List Node)) (conn_str : String)
    (directed_edges : Finset Edge) : List String :=
  numberedNames conn_str (labelKinds find_cliques directed_edges) 0

/-- A label as it has been drawn. -/
structure DrawnLabel (find_cliques : Finset Edge → List (List Node)) where
  conn_str : String
  directed_edges : Finset Edge
  passes : LabelPasses
  hubs : List Hub
  passed : Passed find_cliques conn_str directed_edges passes
  replaces : Replaces (undirectedOf directed_edges)
    (sortedCliques (find_cliques (undirectedOf directed_edges))) hubs passes.cliqued

namespace DrawnLabel

variable {find_cliques : Finset Edge → List (List Node)} (d : DrawnLabel find_cliques)

def nodesIn (do_not_subgraph : Bool) : Set DotNode :=
  {made | ∃ n ∈ d.passes.cliqued.cliques_nodes,
    made = newNode do_not_subgraph n.nc_name n.name .clique [d.conn_str]} ∪
  {made | ∃ n ∈ d.passes.bicliqued.bicliques_nodes,
    made = newNode do_not_subgraph n.nc_name n.name .biClique [d.conn_str]}

def edgesIn : Set NamedEdge :=
  {named | ∃ e ∈ d.passes.directed_edges ∪ d.passes.bicliqued.bicliques_edges,
    named = (e.1.name, e.2.name, stripText d.conn_str, true)} ∪
  {named | ∃ e ∈ d.passes.undirected_edges ∪ d.passes.cliqued.cliques_edges,
    named = (e.1.name, e.2.name, stripText d.conn_str, false)}

def names : List String := d.passes.cliqued.cliques_nodes.map Node.name

theorem names_eq : d.names = labelNames find_cliques d.conn_str d.directed_edges := by
  unfold names
  rw [d.passed.cliqued]
  exact createsCliquedGraph_names _ _ _

theorem hub_name {hub : Hub} (listed : hub ∈ d.hubs) {n : Node} (new : n ∈ hub.nodes) :
    n ∈ d.passes.cliqued.cliques_nodes := by
  rw [d.replaces.nodes]
  exact List.mem_flatMap.mpr ⟨hub, listed, new⟩

end DrawnLabel

theorem stripText_of_stripLabel {a b : String} (same : stripLabel [a] = stripLabel [b]) :
    stripText a = stripText b := by
  have whole : ∀ text : String, stripLabel [text] = if text = "" then [] else [stripText text] := by
    intro text
    unfold stripLabel
    by_cases empty : text = ""
    · simp [empty]
    · simp [empty]
  rw [whole, whole] at same
  split at same
  case isTrue empty =>
    split at same
    case isTrue empty' => rw [empty, empty']
    case isFalse => exact absurd same (List.cons_ne_nil _ _).symm
  case isFalse =>
    split at same
    case isTrue => exact absurd same (List.cons_ne_nil _ _)
    case isFalse => exact List.head_eq_of_cons_eq same

/-- A drawing of labels over the nodes of peers. -/
structure Drawing (find_cliques : Finset Edge → List (List Node)) (dot : DotGraph) (peers : Set Node)
    (drawn : List (DrawnLabel find_cliques)) : Prop where
  finds : FindsCliques find_cliques
  ends : ∀ d ∈ drawn, ∀ n ∈ ends d.directed_edges, n ∈ peers
  distinct : (drawn.map fun d => stripText d.conn_str).Nodup
  shows : ∃ N E, dot.Shows (N ∪ {node | ∃ d ∈ drawn, node ∈ d.nodesIn dot.do_not_subgraph})
      (E ∪ {named | ∃ d ∈ drawn, named ∈ d.edgesIn}) ∧
    (∀ node ∈ N, node.node_type ≠ .clique) ∧ ∀ named ∈ E, named.1 = named.2.1 ∧ ∃ p ∈ peers, named.1 = p.name

namespace Drawing

variable {find_cliques : Finset Edge → List (List Node)} {dot : DotGraph} {peers : Set Node}
  {drawn : List (DrawnLabel find_cliques)} {d d' : DrawnLabel find_cliques} {hub hub' : Hub}
  {n n' p q : Node} {x y : String}

/-- Peers have different names, and so have the nodes of cliques, none of which has the name of a
peer. -/
structure NamesApart (peers : Set Node) (drawn : List (DrawnLabel find_cliques)) : Prop where
  named : ∀ p ∈ peers, ∀ q ∈ peers, p.name = q.name → p = q
  nodup : (drawn.flatMap DrawnLabel.names).Nodup
  peers : ∀ p ∈ peers, p.name ∉ drawn.flatMap DrawnLabel.names

theorem hub_peers (drawing : Drawing find_cliques dot peers drawn) (listed : d ∈ drawn) (hub_listed : hub ∈ d.hubs)
    (inside : p ∈ hub.clique) : p ∈ peers :=
  drawing.ends d listed p ((hub_clique drawing.finds d.replaces hub_listed).1 p inside)

/-- The edges of the drawing that are not directed. -/
theorem undirected_cases (drawing : Drawing find_cliques dot peers drawn) {label : String}
    (edge : dot.HasEdge (x, y, label, false)) :
    (x = y ∧ ∃ p ∈ peers, x = p.name) ∨
    ∃ d ∈ drawn, label = stripText d.conn_str ∧
      ∃ e, x = e.1.name ∧ y = e.2.name ∧
        (e ∈ d.passes.undirected_edges ∨ ∃ hub ∈ d.hubs, e ∈ hub.edges) := by
  obtain ⟨N, E, shows_dot, _, loops⟩ := drawing.shows
  rcases (shows_dot.edges _).mp edge with base | ⟨d, listed, directed | undirected⟩
  · exact Or.inl (loops _ base)
  · obtain ⟨e, _, same⟩ := directed
    simp at same
  · obtain ⟨e, inside, same⟩ := undirected
    simp only [Prod.mk.injEq, and_true] at same
    refine Or.inr ⟨d, listed, same.2.2, e, same.1, same.2.1, ?_⟩
    rw [Finset.mem_union, d.replaces.drawn] at inside
    exact inside

/-- An undirected edge of a label joins peers. -/
theorem undirected_peers (drawing : Drawing find_cliques dot peers drawn) (listed : d ∈ drawn) {e : Edge}
    (edge : e ∈ d.passes.undirected_edges) : e.1 ∈ peers ∧ e.2 ∈ peers := by
  have both := ((d.passed.undirected e).mp edge).1.1
  have given := towards_subset d.passed d.replaces (d.passed.kept both)
  exact ⟨drawing.ends d listed _ (mem_ends.mpr ⟨e, given, Or.inl rfl⟩),
    drawing.ends d listed _ (mem_ends.mpr ⟨e, given, Or.inr rfl⟩)⟩

theorem name_listed (listed : d ∈ drawn) (hub_listed : hub ∈ d.hubs) (new : n ∈ hub.nodes) :
    n.name ∈ drawn.flatMap DrawnLabel.names :=
  List.mem_flatMap.mpr ⟨d, listed, List.mem_map_of_mem (d.hub_name hub_listed new)⟩

/-- A name belongs to one node of one clique of one label. -/
theorem name_unique (nodup : (drawn.flatMap DrawnLabel.names).Nodup) (listed : d ∈ drawn)
    (hub_listed : hub ∈ d.hubs) (new : n ∈ hub.nodes) (listed' : d' ∈ drawn) (hub_listed' : hub' ∈ d'.hubs)
    (new' : n' ∈ hub'.nodes) (same : n.name = n'.name) : d = d' ∧ hub = hub' ∧ n = n' := by
  let made : List (DrawnLabel find_cliques × Hub × Node) :=
    drawn.flatMap fun d => d.hubs.flatMap fun hub => hub.nodes.map fun n => (d, hub, n)
  have all : made.map (fun entry => entry.2.2.name) = drawn.flatMap DrawnLabel.names := by
    rw [List.map_flatMap]
    apply List.flatMap_congr
    intro d _
    unfold DrawnLabel.names
    rw [d.replaces.nodes, List.map_flatMap, List.map_flatMap]
    apply List.flatMap_congr
    intro hub _
    rw [List.map_map]
    rfl
  have mem : ∀ {d : DrawnLabel find_cliques} {hub : Hub} {n : Node}, d ∈ drawn → hub ∈ d.hubs →
      n ∈ hub.nodes → (d, hub, n) ∈ made := by
    intro d hub n listed hub_listed new
    exact List.mem_flatMap.mpr ⟨d, listed, List.mem_flatMap.mpr ⟨hub, hub_listed, List.mem_map_of_mem new⟩⟩
  have equal := List.inj_on_of_nodup_map (all.symm ▸ nodup) (mem listed hub_listed new)
    (mem listed' hub_listed' new') same
  simpa using equal

/-- The undirected edges at a node of a clique are those of the clique. -/
theorem edge_at_hub (drawing : Drawing find_cliques dot peers drawn) (apart : NamesApart peers drawn)
    (listed : d ∈ drawn) (hub_listed : hub ∈ d.hubs) (new : n ∈ hub.nodes) (edge : dot.Adjacent n.name y) :
    ∃ m, m.name = y ∧ (m ∈ hub.clique ∨ m ∈ hub.nodes) := by
  have no_peer : ∀ p ∈ peers, p.name ≠ n.name := by
    intro p inside same
    exact apart.peers p inside (same ▸ name_listed listed hub_listed new)
  have own : ∀ d' ∈ drawn, ∀ hub' ∈ d'.hubs, ∀ e ∈ hub'.edges, ∀ m, m = e.1 ∨ m = e.2 → m.name = n.name →
      hub' = hub := by
    intro d' listed' hub' hub_listed' e edge m either same
    rcases (d'.replaces.each hub' hub_listed').inside e edge m either with peer | new'
    · exact absurd same (no_peer m (drawing.hub_peers listed' hub_listed' peer))
    · exact ((name_unique apart.nodup listed hub_listed new listed' hub_listed' new' same.symm).2.1).symm
  have ends_of : ∀ e ∈ hub.edges, ∀ m, m = e.1 ∨ m = e.2 → m ∈ hub.clique ∨ m ∈ hub.nodes :=
    fun e edge m either => (d.replaces.each hub hub_listed).inside e edge m either
  obtain ⟨label, out | into⟩ := edge
  · rcases drawing.undirected_cases out with ⟨_, p, peer, same⟩ | ⟨d', listed', _, e, first, second, kind⟩
    · exact absurd same.symm (no_peer p peer)
    · rcases kind with plain | ⟨hub', hub_listed', edge⟩
      · exact absurd first.symm (no_peer _ (drawing.undirected_peers listed' plain).1)
      · obtain rfl := own d' listed' hub' hub_listed' e edge e.1 (Or.inl rfl) first.symm
        exact ⟨e.2, second.symm, ends_of e edge e.2 (Or.inr rfl)⟩
  · rcases drawing.undirected_cases into with ⟨loop, p, peer, same⟩ | ⟨d', listed', _, e, first, second, kind⟩
    · exact absurd (loop ▸ same).symm (no_peer p peer)
    · rcases kind with plain | ⟨hub', hub_listed', edge⟩
      · exact absurd second.symm (no_peer _ (drawing.undirected_peers listed' plain).2)
      · obtain rfl := own d' listed' hub' hub_listed' e edge e.2 (Or.inr rfl) second.symm
        exact ⟨e.1, first.symm, ends_of e edge e.1 (Or.inl rfl)⟩

/-- The label of a node of a clique is the one for which it was drawn. -/
theorem name_of_cliqueNode (drawing : Drawing find_cliques dot peers drawn) (listed : d ∈ drawn)
    (drawn_node : dot.IsCliqueNode d.conn_str x) : ∃ hub ∈ d.hubs, ∃ n ∈ hub.nodes, n.name = x := by
  obtain ⟨N, E, shows_dot, no_clique, _⟩ := drawing.shows
  obtain ⟨node, member, rfl, is_clique, same_label⟩ := drawn_node
  rcases (shows_dot.nodes node).mp member with base | ⟨d', listed', made | made⟩
  · exact absurd is_clique (no_clique node base)
  · obtain ⟨n, new, rfl⟩ := made
    have same := List.inj_on_of_nodup_map drawing.distinct listed' listed (stripText_of_stripLabel same_label)
    subst same
    rw [d'.replaces.nodes] at new
    obtain ⟨hub, hub_listed, new⟩ := List.mem_flatMap.mp new
    exact ⟨hub, hub_listed, n, new, rfl⟩
  · obtain ⟨n, _, rfl⟩ := made
    exact absurd is_clique NodeType.noConfusion

theorem cliqueNode_of_name (drawing : Drawing find_cliques dot peers drawn) (listed : d ∈ drawn)
    (named : x ∈ d.names) : dot.IsCliqueNode d.conn_str x := by
  obtain ⟨N, E, shows_dot, _, _⟩ := drawing.shows
  obtain ⟨n, new, rfl⟩ := List.mem_map.mp named
  refine ⟨newNode dot.do_not_subgraph n.nc_name n.name .clique [d.conn_str], ?_, rfl, rfl, rfl⟩
  exact (shows_dot.nodes _).mpr (Or.inr ⟨d, listed, Or.inl ⟨n, new, rfl⟩⟩)

/-- A node of a clique was drawn for a label. -/
theorem label_of_cliqueNode (drawing : Drawing find_cliques dot peers drawn) {node : DotNode}
    (member : node ∈ dot.nodes) (is_clique : node.node_type = .clique) :
    ∃ d ∈ drawn, node.label = stripLabel [d.conn_str] := by
  obtain ⟨N, E, shows_dot, no_clique, _⟩ := drawing.shows
  rcases (shows_dot.nodes node).mp member with base | ⟨d, listed, ⟨n, _, rfl⟩ | ⟨n, _, rfl⟩⟩
  · exact absurd is_clique (no_clique node base)
  · exact ⟨d, listed, rfl⟩
  · exact absurd is_clique NodeType.noConfusion

theorem hasEdge_of_hub (drawing : Drawing find_cliques dot peers drawn) (listed : d ∈ drawn)
    (hub_listed : hub ∈ d.hubs) (linked : Linked hub.edges p q) : dot.Adjacent p.name q.name := by
  obtain ⟨N, E, shows_dot, _, _⟩ := drawing.shows
  have drawn_edge : ∀ e ∈ hub.edges, dot.HasEdge (e.1.name, e.2.name, stripText d.conn_str, false) := by
    intro e edge
    have member := (d.replaces.drawn e).mpr ⟨hub, hub_listed, edge⟩
    exact (shows_dot.edges _).mpr (Or.inr ⟨d, listed, Or.inr ⟨e, Finset.mem_union_right _ member, rfl⟩⟩)
  exact ⟨stripText d.conn_str, linked.imp (drawn_edge _) (drawn_edge _)⟩

/-- A way through nodes of cliques of a label does not leave the clique. -/
theorem stays_in_hub (drawing : Drawing find_cliques dot peers drawn) (apart : NamesApart peers drawn)
    (listed : d ∈ drawn) (hub_listed : hub ∈ d.hubs) (new : n ∈ hub.nodes)
    (way : Relation.ReflTransGen (fun a b => dot.Adjacent a b ∧ dot.IsCliqueNode d.conn_str b) n.name y) :
    ∃ m ∈ hub.nodes, m.name = y := by
  induction way with
  | refl => exact ⟨n, new, rfl⟩
  | tail _ step ih =>
    obtain ⟨m, inside, rfl⟩ := ih
    obtain ⟨k, rfl, peer | next⟩ := drawing.edge_at_hub apart listed hub_listed inside step.1
    · obtain ⟨hub', hub_listed', n', new', same⟩ := drawing.name_of_cliqueNode listed step.2
      have shared := name_listed listed hub_listed' new'
      exact absurd (same ▸ shared) (apart.peers k (drawing.hub_peers listed hub_listed peer))
    · exact ⟨k, next, rfl⟩

theorem remains_swap {passes : LabelPasses} {edges : Finset Edge} (remains : passes.Remains edges (p, q)) :
    passes.Remains edges (q, p) :=
  ⟨remains.1.symm, remains.2.symm⟩

/-- An undirected edge of a label is what remains of it. -/
theorem remains_of_undirected (listed : (p, q) ∈ d.passes.undirected_edges) :
    d.passes.Remains d.directed_edges (p, q) := by
  obtain ⟨⟨forth, back⟩, _⟩ := (d.passed.undirected _).mp listed
  refine ⟨⟨?_, ?_⟩, ?_, ?_⟩
  · exact towards_subset d.passed d.replaces (d.passed.kept forth)
  · exact towards_subset d.passed d.replaces (d.passed.kept back)
  · exact fun cut => (Finset.mem_sdiff.mp cut).2 forth
  · exact fun cut => (Finset.mem_sdiff.mp cut).2 back

/-- The edges inside a clique that is replaced are not given to the pass for bicliques. -/
theorem remains_in_hub (drawing : Drawing find_cliques dot peers drawn) (hub_listed : hub ∈ d.hubs)
    (inside : p ∈ hub.clique) (inside' : q ∈ hub.clique) (different : p ≠ q) :
    d.passes.Remains d.directed_edges (p, q) := by
  have both := (hub_clique drawing.finds d.replaces hub_listed).2
  have replaced : ∀ p ∈ hub.clique, ∀ q ∈ hub.clique, p ≠ q → (p, q) ∉ d.passes.towards := by
    intro p inside q inside' different given
    rcases (d.passed.towards _).mp given with single | left | left
    · exact single.2 (both p inside q inside' different).2
    · exact ((d.replaces.left_over _).mp left).2 hub hub_listed ⟨inside, inside'⟩
    · exact ((d.replaces.left_over _).mp left).2 hub hub_listed ⟨inside', inside⟩
  refine ⟨both p inside q inside' different, ?_, ?_⟩
  · exact fun cut => replaced p inside q inside' different (Finset.mem_sdiff.mp cut).1
  · exact fun cut => replaced q inside' p inside different.symm (Finset.mem_sdiff.mp cut).1

/-- A drawn edge between two peers remains of the label. -/
theorem remains_of_hasEdge (drawing : Drawing find_cliques dot peers drawn) (apart : NamesApart peers drawn)
    (listed : d ∈ drawn) (source : p ∈ peers) (target : q ∈ peers) (different : p ≠ q)
    (edge : dot.HasEdge (p.name, q.name, stripText d.conn_str, false)) :
    d.passes.Remains d.directed_edges (p, q) := by
  rcases drawing.undirected_cases edge with ⟨loop, _⟩ | ⟨d', listed', label, e, first, second, kind⟩
  · exact absurd (apart.named p source q target loop) different
  · obtain rfl := List.inj_on_of_nodup_map drawing.distinct listed listed' label
    rcases kind with plain | ⟨hub, hub_listed, inside⟩
    · obtain ⟨start, stop⟩ := drawing.undirected_peers listed plain
      obtain rfl := apart.named p source _ start first
      obtain rfl := apart.named q target _ stop second
      exact remains_of_undirected plain
    · rcases (d.replaces.each hub hub_listed).new e inside with new | new
      · exact absurd (name_listed listed hub_listed new) (first ▸ apart.peers p source)
      · exact absurd (name_listed listed hub_listed new) (second ▸ apart.peers q target)

/-- What is next to a node of a clique among the peers is a peer of the clique. -/
theorem peer_at_hub (drawing : Drawing find_cliques dot peers drawn) (apart : NamesApart peers drawn)
    (listed : d ∈ drawn) (hub_listed : hub ∈ d.hubs) (new : n ∈ hub.nodes) (peer : p ∈ peers)
    (edge : dot.Adjacent n.name p.name) : p ∈ hub.clique := by
  obtain ⟨m, same, inside | new'⟩ := drawing.edge_at_hub apart listed hub_listed new edge
  · rw [← apart.named m (drawing.hub_peers listed hub_listed inside) p peer same]
    exact inside
  · exact absurd (name_listed listed hub_listed new') (same ▸ apart.peers p peer)

theorem adjacent_symm (edge : dot.Adjacent x y) : dot.Adjacent y x := by
  obtain ⟨label, either⟩ := edge
  exact ⟨label, either.symm⟩

theorem remains_of_joins (drawing : Drawing find_cliques dot peers drawn) (apart : NamesApart peers drawn)
    (listed : d ∈ drawn) (source : p ∈ peers) (target : q ∈ peers) (different : p ≠ q)
    (joins : dot.Joins d.conn_str p.name q.name) : d.passes.Remains d.directed_edges (p, q) := by
  rcases joins with edge | edge | ⟨x, y, start, is_node, way, stop⟩
  · exact drawing.remains_of_hasEdge apart listed source target different edge
  · exact remains_swap (drawing.remains_of_hasEdge apart listed target source different.symm edge)
  · obtain ⟨hub, hub_listed, n, new, rfl⟩ := drawing.name_of_cliqueNode listed is_node
    obtain ⟨m, new', rfl⟩ := drawing.stays_in_hub apart listed hub_listed new way
    have inside := drawing.peer_at_hub apart listed hub_listed new source (adjacent_symm start)
    have inside' := drawing.peer_at_hub apart listed hub_listed new' target stop
    exact drawing.remains_in_hub hub_listed inside inside' different

/-- Two peers of a clique that is replaced are joined through its nodes. -/
theorem joins_in_hub (drawing : Drawing find_cliques dot peers drawn) (apart : NamesApart peers drawn)
    (listed : d ∈ drawn) (hub_listed : hub ∈ d.hubs) (inside : p ∈ hub.clique) (inside' : q ∈ hub.clique) :
    dot.Joins d.conn_str p.name q.name := by
  have replaces := d.replaces.each hub hub_listed
  have no_node : ∀ p ∈ hub.clique, p ∉ hub.nodes := by
    intro p inside new
    exact apart.peers p (drawing.hub_peers listed hub_listed inside) (name_listed listed hub_listed new)
  obtain ⟨n, new, first⟩ := replaces.attached p inside (no_node p inside)
  obtain ⟨m, new', last⟩ := replaces.attached q inside' (no_node q inside')
  refine Or.inr (Or.inr ⟨n.name, m.name, ?_, ?_, ?_, ?_⟩)
  · exact drawing.hasEdge_of_hub listed hub_listed first
  · exact drawing.cliqueNode_of_name listed (List.mem_map_of_mem (d.hub_name hub_listed new))
  · refine Relation.ReflTransGen.lift Node.name ?_ _ _ (replaces.connected n new m new')
    intro a b step
    exact ⟨drawing.hasEdge_of_hub listed hub_listed step.1,
      drawing.cliqueNode_of_name listed (List.mem_map_of_mem (d.hub_name hub_listed step.2))⟩
  · exact adjacent_symm (drawing.hasEdge_of_hub listed hub_listed last)

theorem joins_of_remains (drawing : Drawing find_cliques dot peers drawn) (apart : NamesApart peers drawn)
    (listed : d ∈ drawn) (order : q.lt p = true) (remains : d.passes.Remains d.directed_edges (p, q)) :
    dot.Joins d.conn_str p.name q.name ∧ dot.Joins d.conn_str q.name p.name := by
  by_cases shared : ∃ hub ∈ d.hubs, p ∈ hub.clique ∧ q ∈ hub.clique
  · obtain ⟨hub, hub_listed, inside, inside'⟩ := shared
    exact ⟨drawing.joins_in_hub apart listed hub_listed inside inside',
      drawing.joins_in_hub apart listed hub_listed inside' inside⟩
  · have left : (p, q) ∈ d.passes.cliqued.undirected_edges := by
      refine (d.replaces.left_over _).mpr ⟨mem_undirectedOf.mpr ⟨remains.1, order⟩, ?_⟩
      exact fun hub hub_listed both => shared ⟨hub, hub_listed, both⟩
    have forth : (p, q) ∈ d.passes.towards := (d.passed.towards _).mpr (Or.inr (Or.inl left))
    have back : (q, p) ∈ d.passes.towards := (d.passed.towards _).mpr (Or.inr (Or.inr left))
    have kept : ∀ e ∈ d.passes.towards, e ∉ d.passes.towards \ d.passes.bicliqued.directed_edges →
        e ∈ d.passes.bicliqued.directed_edges := by
      intro e given stays
      by_contra cut
      exact stays (Finset.mem_sdiff.mpr ⟨given, cut⟩)
    have member : (p, q) ∈ d.passes.undirected_edges :=
      (d.passed.undirected _).mpr ⟨⟨kept _ forth remains.2.1, kept _ back remains.2.2⟩, order⟩
    obtain ⟨N, E, shows_dot, _, _⟩ := drawing.shows
    have edge : dot.HasEdge (p.name, q.name, stripText d.conn_str, false) :=
      (shows_dot.edges _).mpr
        (Or.inr ⟨d, listed, Or.inr ⟨(p, q), Finset.mem_union_left _ member, rfl⟩⟩)
    exact ⟨Or.inl edge, Or.inr (Or.inl edge)⟩

/-- The drawing has exactly the edges that remain. -/
theorem joins_iff (drawing : Drawing find_cliques dot peers drawn) (apart : NamesApart peers drawn)
    (listed : d ∈ drawn) (source : p ∈ peers) (target : q ∈ peers) (different : p ≠ q) :
    dot.Joins d.conn_str p.name q.name ↔ d.passes.Remains d.directed_edges (p, q) := by
  constructor
  · exact drawing.remains_of_joins apart listed source target different
  · intro remains
    rcases lt_or_lt different with order | order
    · exact (drawing.joins_of_remains apart listed order (remains_swap remains)).2
    · exact (drawing.joins_of_remains apart listed order remains).1

end Drawing

end Joins
end Nca.FWRules
