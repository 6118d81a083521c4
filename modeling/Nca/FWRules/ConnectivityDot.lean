import Mathlib.Data.Finset.Powerset
import Nca.FWRules.ShownLabels

/-!
The drawing of a whole connectivity graph. It has exactly the edges of each label, with different
nodes for the cliques of different labels, if and only if no two labels have nodes of cliques that
stand for a namespace under one number.
-/

namespace Nca.FWRules
open CoreDS Lib Lib.Python LabeledPeers DotGraph

section Whole

variable {K C : Type} [DecidableEq K] [DecidableEq C] [DrawnPeers K] [DrawnLabels C]
  {graph : ConnectivityGraph K C} {groups : List (List (GraphPeer K) × Option C)} {str : GraphPeer K → Str}
  {find_cliques : Finset Edge → List (List Node)} {peer_order : SetOrder (GraphPeer K)}
  {order : SetOrder (Finset Node)} {edge_order : SetOrder Edge}

/-- `get_connectivity_dot_format_str` up to the writing of the graph. -/
def ConnectivityGraph.drawDotGraph (str : GraphPeer K → Str) (find_cliques : Finset Edge → List (List Node))
    (peer_order : SetOrder (GraphPeer K)) (order : SetOrder (Finset Node)) (edge_order : SetOrder Edge)
    (simplify_graph : Bool) (self : ConnectivityGraph K C) : Except Failure DotGraph := do
  let peers_groups ← getEqualsGroups str peer_order self
  drawGraph find_cliques order edge_order simplify_graph peers_groups self.props_to_peers

omit [DrawnLabels C] in
theorem filled_of_equalGroups {peers_edges : List (GraphPeer K × Finset (PeerEdge K C))}
    {group : List (GraphPeer K)} (listed : group ∈ (findEqualGroups str peers_edges).1) : group ≠ [] := by
  obtain ⟨peers, member, rfl⟩ := List.mem_map.mp listed
  have large : 1 < peers.length := of_decide_eq_true (List.mem_filter.mp member).2
  apply List.ne_nil_of_length_pos
  rw [List.length_insertionSort]
  omega

theorem filled_groups (run : getEqualsGroups str peer_order graph = .ok groups) :
    ∀ group ∈ groups, group.1 ≠ [] := by
  obtain ⟨collected, _, last⟩ := bind_ok.mp run
  rw [← Except.ok.inj last]
  intro group listed
  rcases List.mem_append.mp listed with several | single
  · rcases List.mem_append.mp several with connected | apart
    · obtain ⟨peers, member, rfl⟩ := List.mem_map.mp connected
      exact filled_of_equalGroups member
    · obtain ⟨peers, member, rfl⟩ := List.mem_map.mp apart
      exact filled_of_equalGroups member
  · obtain ⟨peer, _, rfl⟩ := List.mem_map.mp single
    exact List.cons_ne_nil peer []

/-- The labels are drawn over the peers that stand for the groups. -/
theorem drawDotGraph_draws (finds : FindsCliques find_cliques) (visits : order.Visits)
    (edge_visits : edge_order.Visits) (simplify_graph : Bool)
    (distinct : (graph.props_to_peers.map fun entry => stripText (DrawnLabels.conn_str entry.1)).Nodup)
    (grouped : getEqualsGroups str peer_order graph = .ok groups) :
    Returns (graph.drawDotGraph str find_cliques peer_order order edge_order simplify_graph) fun dot =>
      ∃ drawn : List (DrawnLabel find_cliques),
        List.Forall₂ (DrawnAs order (representingPeers groups)) graph.props_to_peers drawn ∧
        Drawing find_cliques dot {n | ∃ p ∈ representingPeers groups, n = nodeOf p} drawn := by
  have grouped' : Returns (getEqualsGroups str peer_order graph) (· = groups) := ⟨groups, grouped, rfl⟩
  apply returns_bind grouped'
  intro peers_groups same
  rw [same]
  exact drawGraph_draws finds visits edge_visits simplify_graph (filled_groups grouped) distinct

/-- Each label is drawn with exactly its edges only if no two labels number nodes of cliques of one
namespace alike, and then if the names of the peers are names of nothing else. -/
theorem drawDotGraph_exact (finds : FindsCliques find_cliques) (visits : order.Visits)
    (edge_visits : edge_order.Visits) (simplify_graph : Bool)
    (distinct : (graph.props_to_peers.map fun entry => stripText (DrawnLabels.conn_str entry.1)).Nodup)
    (grouped : getEqualsGroups str peer_order graph = .ok groups) :
    Returns (graph.drawDotGraph str find_cliques peer_order order edge_order simplify_graph) fun dot =>
      (DrawsLabels find_cliques order (representingPeers groups) graph.props_to_peers dot →
        LabelsApart find_cliques (representingPeers groups) graph.props_to_peers) ∧
      (PeersApart find_cliques (representingPeers groups) graph.props_to_peers →
        LabelsApart find_cliques (representingPeers groups) graph.props_to_peers →
        DrawsLabels find_cliques order (representingPeers groups) graph.props_to_peers dot) := by
  apply returns_mono (drawDotGraph_draws finds visits edge_visits simplify_graph distinct grouped)
  intro dot shown
  obtain ⟨drawn, aligned, drawing⟩ := shown
  constructor
  · exact labelsApart_of_draws aligned drawing
  · intro peers_apart labels_apart
    exact drawsLabels_of_apart aligned drawing (namesApart_of_labels aligned distinct peers_apart labels_apart)

end Whole

section Complete

variable {find_cliques : Finset Edge → List (List Node)} {edges : Finset Edge} {namespace_name : String}
  {clique : List Node}

theorem nodeKinds_of_namespace (namespace_name : String) (large : minCliqueSize ≤ clique.length)
    (inside : ∀ p ∈ clique, p.nc_name = namespace_name) : nodeKinds clique = [false] := by
  have size : 4 ≤ clique.length := large
  have namespaces : clqNamespaces clique = [namespace_name] := by
    have same : clique.map Node.nc_name = List.replicate clique.length namespace_name :=
      List.map_eq_replicate_iff.mpr inside
    unfold clqNamespaces
    rw [same, List.replicate_dedup (by omega)]
    rfl
  have all : (clique.filter fun peer => peer.nc_name = namespace_name) = clique :=
    List.filter_eq_self.mpr fun p listed => decide_eq_true (inside p listed)
  have several : 1 < (clique.filter fun peer => peer.nc_name = namespace_name).length := by
    rw [all]
    omega
  unfold nodeKinds namespaceKinds
  rw [if_neg (Nat.not_lt.mpr large), namespaces, List.filter_cons_of_pos (by simpa using several)]
  rfl

/-- A graph all of whose nodes are connected has one maximal clique. -/
theorem labelKinds_of_complete (finds : FindsCliques find_cliques)
    (complete : IsClique (undirectedOf edges) (ends (undirectedOf edges)))
    (large : minCliqueSize ≤ (ends (undirectedOf edges)).card)
    (inside : ∀ n ∈ ends (undirectedOf edges), n.nc_name = namespace_name) :
    labelKinds find_cliques edges = [false] := by
  have size : 4 ≤ (ends (undirectedOf edges)).card := large
  have some_nodes : (ends (undirectedOf edges)).Nonempty := Finset.card_pos.mp (by omega)
  have only : ∀ nodes, nodes ∈ (find_cliques (undirectedOf edges)).map List.toFinset ↔
      nodes = ends (undirectedOf edges) := by
    intro nodes
    rw [finds.maximal]
    constructor
    · intro found
      exact Finset.Subset.antisymm found.2.prop.1 (found.2.le_of_ge complete found.2.prop.1)
    · intro same
      rw [same]
      exact ⟨some_nodes, complete, fun other is_clique _ => is_clique.1⟩
  have single : (find_cliques (undirectedOf edges)).map List.toFinset = [ends (undirectedOf edges)] := by
    apply List.perm_singleton.mp
    apply (List.perm_ext_iff_of_nodup (finds.once _) (List.nodup_singleton _)).mpr
    intro nodes
    rw [only, List.mem_singleton]
  obtain ⟨clique, rest, found, whole, none⟩ := List.map_eq_cons_iff.mp single
  have one : find_cliques (undirectedOf edges) = [clique] := by
    rw [found, List.map_eq_nil_iff.mp none]
  have perm := List.perm_insertionSort (fun a b => !b.lt a) clique
  unfold labelKinds sortedCliques
  rw [one]
  show nodeKinds (clique.insertionSort _) ++ [] = [false]
  rw [List.append_nil]
  apply nodeKinds_of_namespace namespace_name
  · have distinct := finds.nodup _ clique (one ▸ List.mem_singleton_self clique)
    rw [perm.length_eq, ← List.toFinset_card_of_nodup distinct, whole]
    exact large
  · intro p listed
    apply inside
    rw [← whole, List.mem_toFinset, ← perm.mem_iff]
    exact listed

open scoped Classical in
noncomputable def maximalSets (edges : Finset Edge) : Finset (Finset Node) :=
  (ends edges).powerset.filter fun nodes => nodes.Nonempty ∧ Maximal (IsClique edges) nodes

open scoped Classical in
theorem mem_maximalSets {nodes : Finset Node} :
    nodes ∈ maximalSets edges ↔ nodes.Nonempty ∧ Maximal (IsClique edges) nodes := by
  unfold maximalSets
  rw [Finset.mem_filter, Finset.mem_powerset]
  exact and_iff_right_of_imp fun found => found.2.prop.1

/-- The maximal cliques, found among the sets of nodes. -/
noncomputable def maximalCliques (edges : Finset Edge) : List (List Node) :=
  (maximalSets edges).toList.map Finset.toList

theorem maximalCliques_finds : FindsCliques maximalCliques := by
  have sets : ∀ edges, (maximalCliques edges).map List.toFinset = (maximalSets edges).toList := by
    intro edges
    unfold maximalCliques
    rw [List.map_map]
    exact (List.map_congr_left fun nodes _ => Finset.toList_toFinset nodes).trans (List.map_id _)
  constructor
  · intro edges clique listed
    obtain ⟨nodes, _, rfl⟩ := List.mem_map.mp listed
    exact Finset.nodup_toList nodes
  · intro edges
    rw [sets]
    exact Finset.nodup_toList _
  · intro edges nodes
    rw [sets, Finset.mem_toList]
    exact mem_maximalSets

end Complete

section Clusters

/-- Pods of the default namespace, by their numbers. -/
local instance numberedPods : DrawnPeers Nat where
  peer_namespace _ := some "default"
  labels _ := []
  labels_nodup _ := List.nodup_nil
  peer_name
    | .other number => "default/pod" ++ toString number
    | .ipBlock _ => "0.0.0.0/0"
  node_type
    | .other _ => .pod
    | .ipBlock _ => .ipBlock
  text
    | .other number => "pod" ++ toString number
    | .ipBlock _ => "0.0.0.0/0"
  peer_type
    | .other _ => NodeType.noConfusion
    | .ipBlock _ => NodeType.noConfusion

inductive Transport where
  | tcp
  | udp
  deriving DecidableEq

theorem framed_protocols (text : String) : Numerals.Framed ("\x7bprotocols:" ++ text ++ "\x7d") := by
  constructor
  · exact ⟨'{', by simp, by decide⟩
  · refine ⟨'}', ?_, by decide⟩
    rw [String.toList_append, List.getLast?_append_of_ne_nil _ (by decide)]
    rfl

def Transport.text : Transport → String
  | .tcp => "TCP"
  | .udp => "UDP"

local instance transports : DrawnLabels Transport where
  bool _ := true
  conn_str label := "\x7bprotocols:" ++ label.text ++ "\x7d"
  framed label := framed_protocols label.text

def pods : List (GraphPeer Nat) := (List.range 8).map .other

/-- The edges between all pods of the list. -/
def cliqueOf (numbers : List Nat) : List (GraphPeer Nat × GraphPeer Nat) :=
  ((numbers.product numbers).filter fun pair => pair.1 ≠ pair.2).map fun pair => (.other pair.1, .other pair.2)

/-- Edges to pods of their own, by which no two pods of the first clique are in one group. -/
def singleEdges : List (GraphPeer Nat × GraphPeer Nat) :=
  [0, 1, 2, 3].map fun number => (.other number, .other (number + 4))

def podsGraph (props_to_peers : List (Transport × List (GraphPeer Nat × GraphPeer Nat))) :
    ConnectivityGraph Nat Transport :=
  { (ConnectivityGraph.init pods [] : ConnectivityGraph Nat Transport) with props_to_peers := props_to_peers }

/-- The order in which the set of the pods is iterated. -/
noncomputable def podsFirst : SetOrder (GraphPeer Nat) :=
  fun _ peers => if peers = pods.toFinset then pods else peers.toList

def oneClique : ConnectivityGraph Nat Transport := podsGraph [(.tcp, cliqueOf [0, 1, 2, 3] ++ singleEdges)]

def twoCliques : ConnectivityGraph Nat Transport :=
  podsGraph [(.tcp, cliqueOf [0, 1, 2, 3] ++ singleEdges), (.udp, cliqueOf [4, 5, 6, 7])]

theorem twoCliques_groups : getEqualsGroups (fun _ => []) podsFirst twoCliques =
    .ok (pods.map fun peer => ([peer], none)) := by
  have first : podsFirst 0 twoCliques.cluster_info.all_peers.toFinset = pods := if_pos (by decide +kernel)
  unfold getEqualsGroups
  rw [first]
  decide +kernel

theorem oneClique_groups : getEqualsGroups (fun _ => []) podsFirst oneClique =
    .ok (pods.map fun peer => ([peer], none)) := by
  have first : podsFirst 0 oneClique.cluster_info.all_peers.toFinset = pods := if_pos (by decide +kernel)
  unfold getEqualsGroups
  rw [first]
  decide +kernel

theorem representing_pods : representingPeers (C := Transport) (pods.map fun peer => ([peer], none)) = pods := rfl

theorem oneClique_drawn :
    Returns (oneClique.drawDotGraph (fun _ => []) maximalCliques podsFirst (fun _ sets => sets.toList)
        (fun _ edges => edges.toList) false)
      (DrawsLabels maximalCliques (fun _ sets => sets.toList) pods oneClique.props_to_peers) := by
  have distinct : (oneClique.props_to_peers.map fun entry => stripText (DrawnLabels.conn_str entry.1)).Nodup :=
    List.nodup_singleton _
  apply returns_mono (drawDotGraph_exact maximalCliques_finds (fun _ _ _ => Finset.mem_toList)
    (fun _ _ _ => Finset.mem_toList) false distinct oneClique_groups)
  intro dot conditions
  apply conditions.2
  · constructor
    · decide +kernel
    · intro p listed entry _ named
      rw [representing_pods] at listed
      obtain ⟨number, _, rfl⟩ := List.mem_map.mp listed
      obtain ⟨rest, same⟩ := prefix_of_numberedNames named
      have letters : ("default/pod" ++ toString number).toList = ("clique_" ++ rest).toList :=
        congrArg String.toList same
      simp at letters
  · exact List.pairwise_singleton _ _

/-- Both labels have a node for the default namespace under the number zero. -/
theorem twoCliques_clash :
    ¬ Returns (twoCliques.drawDotGraph (fun _ => []) maximalCliques podsFirst (fun _ sets => sets.toList)
        (fun _ edges => edges.toList) false)
      (DrawsLabels maximalCliques (fun _ sets => sets.toList) pods twoCliques.props_to_peers) := by
  intro returns
  have distinct : (twoCliques.props_to_peers.map fun entry => stripText (DrawnLabels.conn_str entry.1)).Nodup := by
    decide +kernel
  obtain ⟨dot, _, ⟨drawn, aligned, drawing⟩, draws⟩ := returns_and
    (drawDotGraph_draws maximalCliques_finds (fun _ _ _ => Finset.mem_toList) (fun _ _ _ => Finset.mem_toList) false
      distinct twoCliques_groups) returns
  have apart := labelsApart_of_draws aligned drawing draws
  have kinds : ∀ entry ∈ twoCliques.props_to_peers,
      labelKinds maximalCliques (directedEdges pods entry) = [false] := by
    intro entry listed
    have complete : ∀ entry ∈ twoCliques.props_to_peers,
        IsClique (undirectedOf (directedEdges pods entry)) (ends (undirectedOf (directedEdges pods entry))) ∧
        minCliqueSize ≤ (ends (undirectedOf (directedEdges pods entry))).card ∧
        ∀ n ∈ ends (undirectedOf (directedEdges pods entry)), n.nc_name = "default" := by
      unfold IsClique
      decide +kernel
    obtain ⟨is_clique, large, inside⟩ := complete entry listed
    exact labelKinds_of_complete maximalCliques_finds is_clique large inside
  apply (List.pairwise_cons.mp apart).1 _ (List.mem_singleton_self _) 0
  constructor
  · exact congrArg (fun kinds => kinds[0]?) (kinds _ List.mem_cons_self)
  · exact congrArg (fun kinds => kinds[0]?) (kinds _ (List.mem_cons_of_mem _ (List.mem_singleton_self _)))

end Clusters
end Nca.FWRules
