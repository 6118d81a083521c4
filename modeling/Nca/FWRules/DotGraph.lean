import Mathlib.Data.Set.Insert
import Nca.FWRules.ConnectivityGraph
import Nca.Lib.ListDict
import Nca.Lib.Python
import Nca.Lib.Texts

/-!
The graph that is written in dot format. Its nodes are known by their names: a node that is added
under the name of another one takes the edges that are added from then on.
-/

namespace Nca.FWRules
open Lib Lib.Python Lib.Texts

inductive NodeType where
  | ipBlock
  | pod
  | livesim
  | clique
  | biClique
  | multiPod
  deriving DecidableEq, Repr

structure DotNode where
  name : String
  node_type : NodeType
  label : List String
  title : String
  deriving DecidableEq, Repr

structure DotEdge where
  src : DotNode
  dst : DotNode
  label : String
  is_dir : Bool
  deriving DecidableEq, Repr

/-- The parts of a `DotGraph` that hold its nodes and edges. -/
structure DotGraph where
  do_not_subgraph : Bool
  subgraphs : List (String × List DotNode) := []
  edges : List DotEdge := []
  all_nodes : List (String × DotNode) := []

namespace DotGraph

def stripText (text : String) : String := String.ofList (strip text.toList)

/-- `[tok.strip() for tok in label if tok != '']`. -/
def stripLabel (label : List String) : List String := (label.filter fun tok => tok ≠ "").map stripText

/-- The node that `add_node` makes. -/
def newNode (do_not_subgraph : Bool) (subgraph name : String) (node_type : NodeType)
    (label : List String) : DotNode :=
  ⟨name, node_type, stripLabel label, if do_not_subgraph then subgraph else ""⟩

def addNode (self : DotGraph) (subgraph name : String) (node_type : NodeType) (label : List String) :
    DotGraph :=
  let node := newNode self.do_not_subgraph subgraph name node_type label
  let subgraph := if self.do_not_subgraph then "" else subgraph
  { self with
    subgraphs := ListDict.append self.subgraphs subgraph node
    all_nodes := Dict.set self.all_nodes name node }

/-- `self.all_nodes[name]`. -/
def findNode (self : DotGraph) (name : String) : Except Failure DotNode :=
  match Dict.get self.all_nodes name with
  | some node => .ok node
  | none => .error .key

def addEdge (self : DotGraph) (src_name dst_name label : String) (is_dir : Bool) :
    Except Failure DotGraph := do
  let src_node ← self.findNode src_name
  let dst_node ← self.findNode dst_name
  pure { self with edges := self.edges ++ [⟨src_node, dst_node, stripText label, is_dir⟩] }

/-- The nodes of all subgraphs. -/
def nodes (self : DotGraph) : List DotNode := self.subgraphs.flatMap Prod.snd

/-- An edge by the names of its ends, with its label and whether it is directed. -/
abbrev NamedEdge := String × String × String × Bool

/-- The graph has an edge with these names and this label. -/
def HasEdge (self : DotGraph) (named : NamedEdge) : Prop :=
  ∃ e ∈ self.edges, (e.src.name, e.dst.name, e.label, e.is_dir) = named

variable {dot : DotGraph} {N : Set DotNode} {E : Set NamedEdge} {α : Type}

/-- The graph has these nodes, each of which is found by its name, and these edges. -/
structure Shows (dot : DotGraph) (N : Set DotNode) (E : Set NamedEdge) : Prop where
  nodes : ∀ node, node ∈ dot.nodes ↔ node ∈ N
  known : ∀ node ∈ N, ∃ found, Dict.get dot.all_nodes node.name = some found
  named : ∀ name node, Dict.get dot.all_nodes name = some node → node.name = name
  edges : ∀ named, dot.HasEdge named ↔ named ∈ E

theorem shows_empty (do_not_subgraph : Bool) : Shows ⟨do_not_subgraph, [], [], []⟩ ∅ ∅ where
  nodes node := by simp [nodes]
  known node listed := listed.elim
  named name node found := by cases found
  edges named := by simp [HasEdge]

theorem shows_addNode (holds : Shows dot N E) (subgraph name : String) (node_type : NodeType)
    (label : List String) :
    Shows (dot.addNode subgraph name node_type label) (insert (newNode dot.do_not_subgraph subgraph name node_type label) N) E := by
  let node := newNode dot.do_not_subgraph subgraph name node_type label
  have found : ∀ other, Dict.get (dot.addNode subgraph name node_type label).all_nodes other =
      if name = other then some node else Dict.get dot.all_nodes other :=
    Dict.get_set _ _ _
  constructor
  · intro other
    have perm := Dict.flatMap_set dot.subgraphs (if dot.do_not_subgraph then "" else subgraph)
      (List.perm_append_singleton node (ListDict.find dot.subgraphs _))
    rw [Set.mem_insert_iff, ← holds.nodes]
    exact perm.mem_iff.trans List.mem_cons
  · intro other listed
    rw [found]
    by_cases same : name = other.name
    · exact ⟨node, if_pos same⟩
    · rcases listed with rfl | before
      · exact absurd rfl same
      · rw [if_neg same]
        exact holds.known other before
  · intro other node' present
    rw [found] at present
    by_cases same : name = other
    · rw [if_pos same] at present
      rw [← Option.some.inj present]
      exact same
    · rw [if_neg same] at present
      exact holds.named other node' present
  · exact holds.edges

theorem shows_addEdge (holds : Shows dot N E) {src dst : DotNode} (source : src ∈ N) (target : dst ∈ N)
    (label : String) (is_dir : Bool) :
    Returns (dot.addEdge src.name dst.name label is_dir) fun next =>
      next.do_not_subgraph = dot.do_not_subgraph ∧
      Shows next N (insert (src.name, dst.name, stripText label, is_dir) E) := by
  obtain ⟨src_node, found⟩ := holds.known src source
  obtain ⟨dst_node, found'⟩ := holds.known dst target
  unfold addEdge findNode
  rw [found, found']
  refine returns_pure ⟨rfl, holds.nodes, holds.known, holds.named, ?_⟩
  intro named
  rw [Set.mem_insert_iff, ← holds.edges]
  unfold HasEdge
  simp only [List.mem_append, List.mem_singleton, or_and_right, exists_or, exists_eq_left]
  rw [or_comm, holds.named _ _ found, holds.named _ _ found']
  apply or_congr_left
  exact eq_comm

/-- Nodes of one type with one label. -/
def addNodes (dot : DotGraph) (nodes : List Node) (node_type : NodeType) (label : List String) : DotGraph :=
  nodes.foldl (fun dot node => dot.addNode node.nc_name node.name node_type label) dot

theorem shows_addNodes (nodes : List Node) (holds : Shows dot N E) (node_type : NodeType) (label : List String) :
    (dot.addNodes nodes node_type label).do_not_subgraph = dot.do_not_subgraph ∧
    Shows (dot.addNodes nodes node_type label)
      (N ∪ {made | ∃ node ∈ nodes, made = newNode dot.do_not_subgraph node.nc_name node.name node_type label}) E := by
  unfold addNodes
  induction nodes generalizing dot N with
  | nil => simpa using holds
  | cons node rest ih =>
    obtain ⟨kept, last⟩ := ih (shows_addNode holds node.nc_name node.name node_type label)
    refine ⟨kept, ?_⟩
    have same : N ∪ {made | ∃ n ∈ node :: rest, made = newNode dot.do_not_subgraph n.nc_name n.name node_type label} =
        insert (newNode dot.do_not_subgraph node.nc_name node.name node_type label) N ∪
          {made | ∃ n ∈ rest, made = newNode dot.do_not_subgraph n.nc_name n.name node_type label} := by
      ext made
      simp only [Set.mem_union, Set.mem_ofPred_eq, Set.mem_insert_iff, List.exists_mem_cons_iff]
      tauto
    rw [same]
    exact last

/-- Edges with one label. -/
def addEdges (dot : DotGraph) (edges : List Edge) (label : String) (is_dir : Bool) : Except Failure DotGraph :=
  edges.foldlM (fun dot e => dot.addEdge e.1.name e.2.name label is_dir) dot

theorem shows_addEdges (edges : List Edge) (holds : Shows dot N E) (label : String) (is_dir : Bool)
    (known : ∀ e ∈ edges, ∀ n, n = e.1 ∨ n = e.2 → ∃ node ∈ N, node.name = n.name) :
    Returns (dot.addEdges edges label is_dir) fun next =>
      next.do_not_subgraph = dot.do_not_subgraph ∧
      Shows next N (E ∪ {named | ∃ e ∈ edges, named = (e.1.name, e.2.name, stripText label, is_dir)}) := by
  unfold addEdges
  induction edges generalizing dot E with
  | nil =>
    refine returns_pure ⟨rfl, ?_⟩
    simpa using holds
  | cons e rest ih =>
    obtain ⟨first, others⟩ := List.forall_mem_cons.mp known
    obtain ⟨src, source, src_name⟩ := first e.1 (Or.inl rfl)
    obtain ⟨dst, target, dst_name⟩ := first e.2 (Or.inr rfl)
    rw [List.foldlM_cons, ← src_name, ← dst_name]
    apply returns_bind (shows_addEdge holds source target label is_dir)
    intro next stepped
    apply returns_mono (ih stepped.2 others)
    intro last reached
    refine ⟨reached.1.trans stepped.1, ?_⟩
    have same : E ∪ {named | ∃ e' ∈ e :: rest, named = (e'.1.name, e'.2.name, stripText label, is_dir)} =
        insert (src.name, dst.name, stripText label, is_dir) E ∪
          {named | ∃ e' ∈ rest, named = (e'.1.name, e'.2.name, stripText label, is_dir)} := by
      ext named
      rw [src_name, dst_name]
      simp only [Set.mem_union, Set.mem_ofPred_eq, Set.mem_insert_iff, List.exists_mem_cons_iff]
      tauto
    rw [same]
    exact reached.2

end DotGraph
end Nca.FWRules
