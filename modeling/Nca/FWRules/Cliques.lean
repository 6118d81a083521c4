import Mathlib.Data.List.Sort
import Mathlib.Data.String.Basic
import Mathlib.Logic.Relation
import Mathlib.Order.Minimal
import Nca.FWRules.ConnectivityGraph

/-!
`_creates_cliqued_graph`: the edges of a clique of at least four nodes are replaced by new nodes, one
for the peers of each namespace that has several, and one more that joins three namespaces or more.
-/

namespace Nca.FWRules

/-- The comparison of pairs of texts. -/
def Node.lt (a b : Node) : Bool := a.name < b.name || (a.name = b.name && a.nc_name < b.nc_name)

/-- `<=` on lists of nodes. -/
def nodesLe : List Node → List Node → Bool
  | [], _ => true
  | _ :: _, [] => false
  | a :: rest, b :: rest' => a.lt b || (a = b && nodesLe rest rest')

/-- The parts of the result of `_creates_cliqued_graph`, which are also the state of its loop. -/
structure Cliqued where
  undirected_edges : Finset Edge
  cliques_edges : Finset Edge := ∅
  cliques_nodes : List Node := []
  deriving DecidableEq

def namespaceCliqueNode (number : Nat) (namespace_name : String) : Node :=
  ⟨"clique_" ++ toString number, namespace_name⟩

def cliqueNode (conn_str : String) (number : Nat) : Node := ⟨"clique_" ++ conn_str ++ toString number, ""⟩

/-- The peers of a namespace, by a new node or by themselves. The state has the nodes of the clique. -/
def addNamespace (clique : List Node) (state : Cliqued × List Node) (namespace_name : String) :
    Cliqued × List Node :=
  let clq_namespace_peers := clique.filter fun peer => peer.nc_name = namespace_name
  if 1 < clq_namespace_peers.length then
    let node := namespaceCliqueNode state.1.cliques_nodes.length namespace_name
    ({ state.1 with
        cliques_nodes := state.1.cliques_nodes ++ [node]
        cliques_edges := state.1.cliques_edges ∪ (clq_namespace_peers.map fun peer => (node, peer)).toFinset },
      state.2 ++ [node])
  else (state.1, state.2 ++ clq_namespace_peers.take 1)

/-- The nodes of a clique connected with each other. -/
def joinNamespaces (conn_str : String) (g : Cliqued) (clique_namespaces_nodes : List Node) : Cliqued :=
  if 2 < clique_namespaces_nodes.length then
    let node := cliqueNode conn_str g.cliques_nodes.length
    { g with
      cliques_nodes := g.cliques_nodes ++ [node]
      cliques_edges := g.cliques_edges ∪ (clique_namespaces_nodes.map fun clq_con => (clq_con, node)).toFinset }
  else match clique_namespaces_nodes with
    | [first, second] => { g with cliques_edges := g.cliques_edges ∪ {(first, second)} }
    | _ => g

/-- `sorted(set(peer[1] for peer in clique))`. -/
def clqNamespaces (clique : List Node) : List String :=
  (clique.map Node.nc_name).dedup.insertionSort (· ≤ ·)

def minCliqueSize : Nat := 4

/-- One clique out of the graph. -/
def addClique (conn_str : String) (g : Cliqued) (clique : List Node) : Cliqued :=
  if clique.length < minCliqueSize then g
  else
    let state := (clqNamespaces clique).foldl (addNamespace clique) (g, [])
    let joined := joinNamespaces conn_str state.1 state.2
    { joined with
      undirected_edges := joined.undirected_edges \ clique.toFinset ×ˢ clique.toFinset }

/-- `sorted([sorted(clique) for clique in cliques])`. -/
def sortedCliques (cliques : List (List Node)) : List (List Node) :=
  (cliques.map fun clique => clique.insertionSort fun a b => !b.lt a).insertionSort
    fun x y => nodesLe x y

/-- `_creates_cliqued_graph`, with what `networkx` finds. -/
def createsCliquedGraph (find_cliques : Finset Edge → List (List Node)) (conn_str : String)
    (undirected_edges : Finset Edge) : Cliqued :=
  (sortedCliques (find_cliques undirected_edges)).foldl (addClique conn_str) ⟨undirected_edges, ∅, []⟩

/-- The ends of the edges. -/
def ends (edges : Finset Edge) : Finset Node := edges.image Prod.fst ∪ edges.image Prod.snd

/-- Nodes of the graph any two of which have an edge. -/
def IsClique (edges : Finset Edge) (nodes : Finset Node) : Prop :=
  nodes ⊆ ends edges ∧ ∀ p ∈ nodes, ∀ q ∈ nodes, p ≠ q → (p, q) ∈ edges ∨ (q, p) ∈ edges

/-- The maximal cliques of a graph, each of them once and without repeated nodes. -/
structure FindsCliques (find_cliques : Finset Edge → List (List Node)) : Prop where
  nodup : ∀ edges, ∀ clique ∈ find_cliques edges, clique.Nodup
  once : ∀ edges, ((find_cliques edges).map List.toFinset).Nodup
  maximal : ∀ edges nodes, nodes ∈ (find_cliques edges).map List.toFinset ↔
    nodes.Nonempty ∧ Maximal (IsClique edges) nodes

/-- A clique with the nodes and the edges that replace its edges. -/
structure Hub where
  clique : List Node
  nodes : List Node
  edges : Finset Edge

/-- The two nodes have an edge. -/
def Linked (edges : Finset Edge) (a b : Node) : Prop := (a, b) ∈ edges ∨ (b, a) ∈ edges

namespace Hub

variable (hub : Hub)

/-- From one new node of the clique to another. -/
def Reaches : Node → Node → Prop :=
  Relation.ReflTransGen fun a b => Linked hub.edges a b ∧ b ∈ hub.nodes

/-- Every edge has a new node and lies inside the clique, every peer is at a new node, and the new
nodes are connected. -/
structure Replaces : Prop where
  inside : ∀ e ∈ hub.edges, ∀ n, n = e.1 ∨ n = e.2 → n ∈ hub.clique ∨ n ∈ hub.nodes
  new : ∀ e ∈ hub.edges, e.1 ∈ hub.nodes ∨ e.2 ∈ hub.nodes
  attached : ∀ p ∈ hub.clique, p ∉ hub.nodes → ∃ n ∈ hub.nodes, Linked hub.edges p n
  connected : ∀ n ∈ hub.nodes, ∀ m ∈ hub.nodes, hub.Reaches n m

end Hub

/-- The nodes that namespaces of a clique need, if they have several of its peers. -/
def namespaceKinds (clique : List Node) (namespaces : List String) : List Bool :=
  (namespaces.filter fun namespace_name =>
    1 < (clique.filter fun peer => peer.nc_name = namespace_name).length).map fun _ => false

/-- Which nodes a clique needs: one for each namespace of which it has several peers (`false`), and
one that joins its namespaces if they are more than two (`true`). -/
def nodeKinds (clique : List Node) : List Bool :=
  if clique.length < minCliqueSize then []
  else
    namespaceKinds clique (clqNamespaces clique) ++ if 2 < (clqNamespaces clique).length then [true] else []

def numberedName (conn_str : String) (joint : Bool) (number : Nat) : String :=
  if joint then (cliqueNode conn_str number).name else (namespaceCliqueNode number "").name

def numberedNames (conn_str : String) (kinds : List Bool) (first : Nat) : List String :=
  (kinds.zipIdx first).map fun entry => numberedName conn_str entry.1 entry.2

/-- The names of the nodes of the cliques of a label. -/
def cliqueNames (conn_str : String) (cliques : List (List Node)) : List String :=
  numberedNames conn_str (cliques.flatMap nodeKinds) 0

section Made

variable {clique : List Node} {g : Cliqued} {state : Cliqued × List Node} {hub : Hub}
  {namespace_name : String} {done : List String} {conn_str : String} {rep : Node}

/-- The node stands for the peers of a namespace: it is new and has an edge to each of them, or it is
the only one. -/
def Hub.Stands (hub : Hub) (namespace_name : String) (rep : Node) : Prop :=
  (rep ∈ hub.nodes ∧ ∀ p ∈ hub.clique, p.nc_name = namespace_name → (rep, p) ∈ hub.edges) ∨
  (rep ∈ hub.clique ∧ ∀ p ∈ hub.clique, p.nc_name = namespace_name → p = rep)

/-- What the loop over the namespaces of a clique has made. -/
structure Prepared (hub : Hub) (g : Cliqued) (done : List String) (state : Cliqued × List Node) : Prop where
  undirected : state.1.undirected_edges = g.undirected_edges
  nodes : state.1.cliques_nodes = g.cliques_nodes ++ hub.nodes
  edges : state.1.cliques_edges = g.cliques_edges ∪ hub.edges
  inside : ∀ e ∈ hub.edges, e.1 ∈ hub.nodes ∧ e.2 ∈ hub.clique
  made : ∀ n ∈ hub.nodes, n ∈ state.2
  reps : List.Forall₂ hub.Stands done state.2

theorem Hub.Stands.mono {more : Hub} (stands : hub.Stands namespace_name rep)
    (same : more.clique = hub.clique) (nodes : ∀ n ∈ hub.nodes, n ∈ more.nodes)
    (edges : hub.edges ⊆ more.edges) : more.Stands namespace_name rep := by
  unfold Stands
  rw [same]
  rcases stands with ⟨new, drawn⟩ | single
  · exact Or.inl ⟨nodes rep new, fun p inside namespace_eq => edges (drawn p inside namespace_eq)⟩
  · exact Or.inr single

theorem addNamespace_step (holds : Prepared hub g done state) (occurs : ∃ p ∈ hub.clique, p.nc_name = namespace_name) :
    ∃ more : Hub, more.clique = hub.clique ∧
      Prepared more g (done ++ [namespace_name]) (addNamespace hub.clique state namespace_name) := by
  let peers := hub.clique.filter fun peer => peer.nc_name = namespace_name
  have listed : ∀ p, p ∈ peers ↔ p ∈ hub.clique ∧ p.nc_name = namespace_name := by
    intro p
    rw [List.mem_filter, decide_eq_true_eq]
  by_cases several : 1 < peers.length
  · let node := namespaceCliqueNode state.1.cliques_nodes.length namespace_name
    let more : Hub :=
      ⟨hub.clique, hub.nodes ++ [node], hub.edges ∪ (peers.map fun peer => (node, peer)).toFinset⟩
    have drawn : ∀ e, e ∈ more.edges ↔ e ∈ hub.edges ∨ e.1 = node ∧ e.2 ∈ peers := by
      intro e
      show e ∈ hub.edges ∪ (peers.map fun peer => (node, peer)).toFinset ↔ _
      rw [Finset.mem_union, List.mem_toFinset, List.mem_map]
      apply or_congr_right
      constructor
      · intro taken
        obtain ⟨peer, inside, rfl⟩ := taken
        exact ⟨rfl, inside⟩
      · intro taken
        exact ⟨e.2, taken.2, Prod.ext taken.1.symm rfl⟩
    have result : addNamespace hub.clique state namespace_name =
        ({ state.1 with
            cliques_nodes := state.1.cliques_nodes ++ [node]
            cliques_edges := state.1.cliques_edges ∪ (peers.map fun peer => (node, peer)).toFinset },
          state.2 ++ [node]) := if_pos several
    have last : node ∈ more.nodes := List.mem_append_right _ (List.mem_singleton_self node)
    refine ⟨more, rfl, ?_⟩
    rw [result]
    constructor
    · exact holds.undirected
    · show state.1.cliques_nodes ++ [node] = g.cliques_nodes ++ (hub.nodes ++ [node])
      rw [holds.nodes, List.append_assoc]
    · show state.1.cliques_edges ∪ _ = g.cliques_edges ∪ (hub.edges ∪ _)
      rw [holds.edges, Finset.union_assoc]
    · intro e edge
      rcases (drawn e).mp edge with before | ⟨start, target⟩
      · exact ⟨List.mem_append_left _ (holds.inside e before).1, (holds.inside e before).2⟩
      · exact ⟨start ▸ last, ((listed e.2).mp target).1⟩
    · intro n new
      rcases List.mem_append.mp new with before | now
      · exact List.mem_append_left _ (holds.made n before)
      · exact List.mem_append_right _ now
    · apply List.rel_append
      · apply holds.reps.imp
        intro _ _ stands
        exact stands.mono rfl (fun n => List.mem_append_left _) Finset.subset_union_left
      · apply List.Forall₂.cons ?_ List.Forall₂.nil
        refine Or.inl ⟨last, ?_⟩
        intro p inside namespace_eq
        exact (drawn _).mpr (Or.inr ⟨rfl, (listed p).mpr ⟨inside, namespace_eq⟩⟩)
  · have result : addNamespace hub.clique state namespace_name = (state.1, state.2 ++ peers.take 1) :=
      if_neg several
    obtain ⟨p, inside, namespace_eq⟩ := occurs
    have member : p ∈ peers := (listed p).mpr ⟨inside, namespace_eq⟩
    have one : peers.length = 1 := by
      have some := List.length_pos_of_mem member
      omega
    obtain ⟨single, alone⟩ := List.length_eq_one_iff.mp one
    refine ⟨hub, rfl, ?_⟩
    rw [result, alone]
    refine { holds with made := ?_, reps := ?_ }
    · exact fun n new => List.mem_append_left _ (holds.made n new)
    · apply List.rel_append holds.reps
      apply List.Forall₂.cons ?_ List.Forall₂.nil
      have known : single ∈ peers := alone ▸ List.mem_singleton_self single
      refine Or.inr ⟨((listed single).mp known).1, ?_⟩
      intro q inside' namespace_eq'
      have other : q ∈ peers := (listed q).mpr ⟨inside', namespace_eq'⟩
      rw [alone] at other
      exact List.mem_singleton.mp other

/-- The loop over the namespaces of a clique. -/
theorem addNamespaces_spec {namespaces : List String} (holds : Prepared hub g done state)
    (occur : ∀ namespace_name ∈ namespaces, ∃ p ∈ hub.clique, p.nc_name = namespace_name) :
    ∃ more : Hub, more.clique = hub.clique ∧
      Prepared more g (done ++ namespaces) (namespaces.foldl (addNamespace hub.clique) state) := by
  induction namespaces generalizing hub done state with
  | nil =>
    rw [List.append_nil]
    exact ⟨hub, rfl, holds⟩
  | cons namespace_name rest ih =>
    obtain ⟨first, others⟩ := List.forall_mem_cons.mp occur
    obtain ⟨next, same, step⟩ := addNamespace_step holds first
    obtain ⟨more, same', last⟩ := ih step (same ▸ others)
    rw [same] at same' last
    rw [List.append_assoc, List.singleton_append] at last
    exact ⟨more, same', last⟩

theorem mem_clqNamespaces : namespace_name ∈ clqNamespaces clique ↔
    ∃ p ∈ clique, p.nc_name = namespace_name := by
  unfold clqNamespaces
  rw [(List.perm_insertionSort _ _).mem_iff, List.mem_dedup, List.mem_map]

/-- Each peer has a node that stands for it. -/
theorem Prepared.stands_for (holds : Prepared hub g (clqNamespaces hub.clique) state) {p : Node}
    (inside : p ∈ hub.clique) :
    ∃ rep ∈ state.2, (rep ∈ hub.nodes ∧ (rep, p) ∈ hub.edges) ∨ p = rep := by
  obtain ⟨i, bound, found⟩ := List.getElem_of_mem (mem_clqNamespaces.mpr ⟨p, inside, rfl⟩)
  have other : i < state.2.length := holds.reps.length_eq ▸ bound
  have stands := holds.reps.get bound other
  refine ⟨state.2[i], List.getElem_mem other, ?_⟩
  rw [List.get_eq_getElem, List.get_eq_getElem, found] at stands
  exact stands.imp (fun new => ⟨new.1, new.2 p inside rfl⟩) fun single => single.2 p inside rfl

/-- What stands for a namespace is a new node or a peer. -/
theorem Prepared.kind (holds : Prepared hub g done state) {rep : Node} (listed : rep ∈ state.2) :
    rep ∈ hub.nodes ∨ rep ∈ hub.clique := by
  obtain ⟨i, bound, rfl⟩ := List.getElem_of_mem listed
  have other : i < done.length := holds.reps.length_eq.symm ▸ bound
  exact (holds.reps.get other bound).imp And.left And.left

/-- The result of one clique. -/
structure Joined (hub : Hub) (g joined : Cliqued) : Prop where
  undirected : joined.undirected_edges = g.undirected_edges
  nodes : joined.cliques_nodes = g.cliques_nodes ++ hub.nodes
  edges : joined.cliques_edges = g.cliques_edges ∪ hub.edges
  replaces : hub.Replaces

/-- More than two namespaces are joined by a node of their own. -/
theorem join_many (holds : Prepared hub g (clqNamespaces hub.clique) state)
    (many : 2 < state.2.length) :
    ∃ more : Hub, more.clique = hub.clique ∧ Joined more g (joinNamespaces conn_str state.1 state.2) := by
  let node := cliqueNode conn_str state.1.cliques_nodes.length
  let more : Hub :=
    ⟨hub.clique, hub.nodes ++ [node], hub.edges ∪ (state.2.map fun clq_con => (clq_con, node)).toFinset⟩
  have drawn : ∀ e, e ∈ more.edges ↔ e ∈ hub.edges ∨ e.1 ∈ state.2 ∧ e.2 = node := by
    intro e
    show e ∈ hub.edges ∪ (state.2.map fun clq_con => (clq_con, node)).toFinset ↔ _
    rw [Finset.mem_union, List.mem_toFinset, List.mem_map]
    apply or_congr_right
    constructor
    · intro taken
      obtain ⟨clq_con, inside, rfl⟩ := taken
      exact ⟨inside, rfl⟩
    · intro taken
      exact ⟨e.1, taken.1, Prod.ext rfl taken.2.symm⟩
  have last : node ∈ more.nodes := List.mem_append_right _ (List.mem_singleton_self node)
  have before : ∀ n ∈ hub.nodes, n ∈ more.nodes := fun n => List.mem_append_left _
  have result : joinNamespaces conn_str state.1 state.2 =
      { state.1 with
        cliques_nodes := state.1.cliques_nodes ++ [node]
        cliques_edges := state.1.cliques_edges ∪ (state.2.map fun clq_con => (clq_con, node)).toFinset } :=
    if_pos many
  have central : ∀ n ∈ more.nodes, n = node ∨ (n, node) ∈ more.edges := by
    intro n new
    rcases List.mem_append.mp new with earlier | now
    · exact Or.inr ((drawn _).mpr (Or.inr ⟨holds.made n earlier, rfl⟩))
    · exact Or.inl (List.mem_singleton.mp now)
  refine ⟨more, rfl, ?_⟩
  rw [result]
  constructor
  · exact holds.undirected
  · show state.1.cliques_nodes ++ [node] = g.cliques_nodes ++ (hub.nodes ++ [node])
    rw [holds.nodes, List.append_assoc]
  · show state.1.cliques_edges ∪ _ = g.cliques_edges ∪ (hub.edges ∪ _)
    rw [holds.edges, Finset.union_assoc]
  · constructor
    · intro e edge n either
      rcases (drawn e).mp edge with earlier | ⟨start, target⟩
      · rcases either with rfl | rfl
        · exact Or.inr (before _ (holds.inside e earlier).1)
        · exact Or.inl (holds.inside e earlier).2
      · rcases either with rfl | rfl
        · exact (holds.kind start).symm.imp_right (before _)
        · exact Or.inr (target ▸ last)
    · intro e edge
      rcases (drawn e).mp edge with earlier | ⟨_, target⟩
      · exact Or.inl (before _ (holds.inside e earlier).1)
      · exact Or.inr (target ▸ last)
    · intro p inside _
      obtain ⟨rep, listed, ⟨new, edge⟩ | rfl⟩ := holds.stands_for inside
      · exact ⟨rep, before _ new, Or.inr ((drawn _).mpr (Or.inl edge))⟩
      · exact ⟨node, last, Or.inl ((drawn _).mpr (Or.inr ⟨listed, rfl⟩))⟩
    · intro n new m new'
      have into : more.Reaches n node := by
        rcases central n new with rfl | edge
        · exact Relation.ReflTransGen.refl
        · exact Relation.ReflTransGen.single ⟨Or.inl edge, last⟩
      rcases central m new' with rfl | edge
      · exact into
      · exact into.tail ⟨Or.inr edge, new'⟩

/-- Two namespaces are joined by an edge. -/
theorem join_two (holds : Prepared hub g (clqNamespaces hub.clique) state) {first second : Node}
    (two : state.2 = [first, second]) (large : minCliqueSize ≤ hub.clique.length)
    (distinct : hub.clique.Nodup) :
    ∃ more : Hub, more.clique = hub.clique ∧ Joined more g (joinNamespaces conn_str state.1 state.2) := by
  let more : Hub := ⟨hub.clique, hub.nodes, hub.edges ∪ {(first, second)}⟩
  have drawn : ∀ e, e ∈ more.edges ↔ e ∈ hub.edges ∨ e = (first, second) := by
    intro e
    show e ∈ hub.edges ∪ {(first, second)} ↔ _
    rw [Finset.mem_union, Finset.mem_singleton]
  have listed : ∀ n, n ∈ state.2 ↔ n = first ∨ n = second := by
    intro n
    simp [two]
  -- a clique of at least four nodes has several peers of one of the two namespaces
  have some_new : first ∈ hub.nodes ∨ second ∈ hub.nodes := by
    by_contra neither
    have few : hub.clique ⊆ [first, second] := by
      intro p inside
      obtain ⟨rep, member, ⟨new, _⟩ | rfl⟩ := holds.stands_for inside
      · rcases (listed rep).mp member with rfl | rfl
        · exact absurd (Or.inl new) neither
        · exact absurd (Or.inr new) neither
      · exact two ▸ member
    have bound := (List.subperm_of_subset distinct few).length_le
    simp only [List.length_cons, List.length_nil, minCliqueSize] at bound large
    omega
  have result : joinNamespaces conn_str state.1 state.2 =
      { state.1 with cliques_edges := state.1.cliques_edges ∪ {(first, second)} } := by
    rw [two]
    rfl
  have linked : Linked more.edges first second := Or.inl ((drawn _).mpr (Or.inr rfl))
  refine ⟨more, rfl, ?_⟩
  rw [result]
  constructor
  · exact holds.undirected
  · exact holds.nodes
  · show state.1.cliques_edges ∪ _ = g.cliques_edges ∪ (hub.edges ∪ _)
    rw [holds.edges, Finset.union_assoc]
  · constructor
    · intro e edge n either
      rcases (drawn e).mp edge with earlier | rfl
      · rcases either with rfl | rfl
        · exact Or.inr (holds.inside e earlier).1
        · exact Or.inl (holds.inside e earlier).2
      · exact (holds.kind ((listed n).mpr either)).symm
    · intro e edge
      rcases (drawn e).mp edge with earlier | rfl
      · exact Or.inl (holds.inside e earlier).1
      · exact some_new
    · intro p inside other
      obtain ⟨rep, member, ⟨new, edge⟩ | rfl⟩ := holds.stands_for inside
      · exact ⟨rep, new, Or.inr ((drawn _).mpr (Or.inl edge))⟩
      · rcases (listed p).mp member with rfl | rfl
        · exact ⟨second, some_new.resolve_left other, linked⟩
        · exact ⟨first, some_new.resolve_right other, linked.symm⟩
    · intro n new m new'
      rcases (listed n).mp (holds.made n new) with rfl | rfl
      · rcases (listed m).mp (holds.made m new') with rfl | rfl
        · exact Relation.ReflTransGen.refl
        · exact Relation.ReflTransGen.single ⟨linked, new'⟩
      · rcases (listed m).mp (holds.made m new') with rfl | rfl
        · exact Relation.ReflTransGen.single ⟨linked.symm, new'⟩
        · exact Relation.ReflTransGen.refl

/-- A clique inside one namespace has one node. -/
theorem join_one (holds : Prepared hub g (clqNamespaces hub.clique) state) {only : Node}
    (one : state.2 = [only]) (large : minCliqueSize ≤ hub.clique.length) (distinct : hub.clique.Nodup) :
    Joined hub g (joinNamespaces conn_str state.1 state.2) := by
  have listed : ∀ n, n ∈ state.2 ↔ n = only := by
    intro n
    simp [one]
  have new : only ∈ hub.nodes := by
    by_contra other
    have few : hub.clique ⊆ [only] := by
      intro p inside
      obtain ⟨rep, member, ⟨new, _⟩ | rfl⟩ := holds.stands_for inside
      · exact absurd ((listed rep).mp member ▸ new) other
      · exact one ▸ member
    have bound := (List.subperm_of_subset distinct few).length_le
    simp only [List.length_cons, List.length_nil, minCliqueSize] at bound large
    omega
  have result : joinNamespaces conn_str state.1 state.2 = state.1 := by
    rw [one]
    rfl
  rw [result]
  refine ⟨holds.undirected, holds.nodes, holds.edges, ?_⟩
  constructor
  · intro e edge n either
    rcases either with rfl | rfl
    · exact Or.inr (holds.inside e edge).1
    · exact Or.inl (holds.inside e edge).2
  · exact fun e edge => Or.inl (holds.inside e edge).1
  · intro p inside other
    obtain ⟨rep, member, ⟨new, edge⟩ | rfl⟩ := holds.stands_for inside
    · exact ⟨rep, new, Or.inr edge⟩
    · exact absurd ((listed p).mp member ▸ new) other
  · intro n here m there
    rw [(listed n).mp (holds.made n here), (listed m).mp (holds.made m there)]
    exact Relation.ReflTransGen.refl

/-- A clique that is large enough is replaced. -/
theorem addClique_joined (conn_str : String) (g : Cliqued) (large : minCliqueSize ≤ clique.length) (distinct : clique.Nodup) :
    ∃ hub : Hub, hub.clique = clique ∧ hub.Replaces ∧
      (addClique conn_str g clique).cliques_nodes = g.cliques_nodes ++ hub.nodes ∧
      (addClique conn_str g clique).cliques_edges = g.cliques_edges ∪ hub.edges ∧
      (addClique conn_str g clique).undirected_edges =
        g.undirected_edges \ clique.toFinset ×ˢ clique.toFinset := by
  have start : Prepared ⟨clique, [], ∅⟩ g [] (g, []) :=
    ⟨rfl, (List.append_nil _).symm, (Finset.union_empty _).symm,
      fun e edge => absurd edge (Finset.notMem_empty e), List.forall_mem_nil _, List.Forall₂.nil⟩
  obtain ⟨hub, rfl, holds⟩ := addNamespaces_spec start fun namespace_name => mem_clqNamespaces.mp
  rw [List.nil_append] at holds
  let state := (clqNamespaces hub.clique).foldl (addNamespace hub.clique) (g, [])
  have holds' : Prepared hub g (clqNamespaces hub.clique) state := holds
  obtain ⟨more, same, joined⟩ : ∃ more : Hub, more.clique = hub.clique ∧
      Joined more g (joinNamespaces conn_str state.1 state.2) := by
    rcases Nat.lt_or_ge 2 state.2.length with many | few
    · exact join_many holds' many
    · rcases nodes : state.2 with _ | ⟨first, _ | ⟨second, _ | ⟨third, rest⟩⟩⟩
      · have some : 0 < hub.clique.length := by
          unfold minCliqueSize at large
          omega
        obtain ⟨p, inside⟩ := List.exists_mem_of_length_pos some
        obtain ⟨rep, member, _⟩ := holds'.stands_for inside
        rw [nodes] at member
        exact absurd member List.not_mem_nil
      · rw [← nodes]
        exact ⟨hub, rfl, join_one holds' nodes large distinct⟩
      · rw [← nodes]
        exact join_two holds' nodes large distinct
      · rw [nodes] at few
        simp only [List.length_cons] at few
        omega
  have small : ¬ hub.clique.length < minCliqueSize := Nat.not_lt.mpr large
  unfold addClique
  rw [if_neg small]
  refine ⟨more, same, joined.replaces, joined.nodes, joined.edges, ?_⟩
  show (joinNamespaces conn_str state.1 state.2).undirected_edges \ _ = _
  rw [joined.undirected]

end Made

section Created

variable {find_cliques : Finset Edge → List (List Node)} {conn_str : String} {edges : Finset Edge}
  {before : List (List Node)} {clique : List Node} {g : Cliqued} {hubs : List Hub}

/-- What the loop has made of the cliques of `before`. -/
structure Replaces (edges : Finset Edge) (before : List (List Node)) (hubs : List Hub) (g : Cliqued) :
    Prop where
  cliques : hubs.map Hub.clique = before.filter fun clique => minCliqueSize ≤ clique.length
  each : ∀ hub ∈ hubs, hub.Replaces
  nodes : g.cliques_nodes = hubs.flatMap Hub.nodes
  drawn : ∀ e, e ∈ g.cliques_edges ↔ ∃ hub ∈ hubs, e ∈ hub.edges
  left_over : ∀ e, e ∈ g.undirected_edges ↔
    e ∈ edges ∧ ∀ hub ∈ hubs, ¬ (e.1 ∈ hub.clique ∧ e.2 ∈ hub.clique)

theorem addClique_step (conn_str : String) (holds : Replaces edges before hubs g) (distinct : clique.Nodup) :
    ∃ more, Replaces edges (before ++ [clique]) more (addClique conn_str g clique) := by
  by_cases large : minCliqueSize ≤ clique.length
  · obtain ⟨hub, same, replaces, nodes, drawn, left_over⟩ :=
      addClique_joined conn_str g large distinct
    refine ⟨hubs ++ [hub], ?_⟩
    constructor
    · rw [List.map_append, holds.cliques, List.filter_append, List.map_singleton, same,
        List.filter_cons_of_pos (by simpa using large)]
      rfl
    · exact List.forall_mem_append.mpr ⟨holds.each, List.forall_mem_singleton.mpr replaces⟩
    · rw [nodes, holds.nodes, List.flatMap_append, List.flatMap_singleton]
    · intro e
      rw [drawn, Finset.mem_union, holds.drawn]
      simp only [List.mem_append, List.mem_singleton, or_and_right, exists_or, exists_eq_left]
    · intro e
      rw [left_over, Finset.mem_sdiff, holds.left_over, Finset.mem_product, List.mem_toFinset,
        List.mem_toFinset, and_assoc]
      simp only [List.forall_mem_append, List.forall_mem_singleton, same]
  · have result : addClique conn_str g clique = g := if_pos (Nat.lt_of_not_le large)
    refine ⟨hubs, ?_⟩
    rw [result]
    refine { holds with cliques := ?_ }
    rw [holds.cliques, List.filter_append, List.filter_cons_of_neg (by simpa using large),
      List.filter_nil, List.append_nil]

theorem mem_sortedCliques {cliques : List (List Node)} (listed : clique ∈ sortedCliques cliques) :
    ∃ found ∈ cliques, clique.Perm found := by
  unfold sortedCliques at listed
  rw [(List.perm_insertionSort _ _).mem_iff] at listed
  obtain ⟨found, member, rfl⟩ := List.mem_map.mp listed
  exact ⟨found, member, List.perm_insertionSort _ _⟩

theorem createsCliquedGraph_replaces (finds : FindsCliques find_cliques) (conn_str : String)
    (edges : Finset Edge) :
    ∃ hubs, Replaces edges (sortedCliques (find_cliques edges)) hubs
      (createsCliquedGraph find_cliques conn_str edges) := by
  have walk : ∀ (cliques before : List (List Node)) (hubs : List Hub) (g : Cliqued),
      (∀ clique ∈ cliques, clique.Nodup) → Replaces edges before hubs g →
      ∃ more, Replaces edges (before ++ cliques) more (cliques.foldl (addClique conn_str) g) := by
    intro cliques
    induction cliques with
    | nil =>
      intro before hubs g _ holds
      rw [List.append_nil]
      exact ⟨hubs, holds⟩
    | cons clique rest ih =>
      intro before hubs g distinct holds
      obtain ⟨first, others⟩ := List.forall_mem_cons.mp distinct
      obtain ⟨more, next⟩ := addClique_step conn_str holds first
      rw [List.append_cons]
      exact ih _ more _ others next
  have distinct : ∀ clique ∈ sortedCliques (find_cliques edges), clique.Nodup := by
    intro clique listed
    obtain ⟨found, member, perm⟩ := mem_sortedCliques listed
    exact perm.nodup_iff.mpr (finds.nodup edges found member)
  have start : Replaces edges [] [] ⟨edges, ∅, []⟩ :=
    ⟨rfl, List.forall_mem_nil _, rfl, by simp, by simp⟩
  exact walk _ [] [] _ distinct start

theorem numberedNames_append (conn_str : String) (kinds more : List Bool) (first : Nat) :
    numberedNames conn_str (kinds ++ more) first =
      numberedNames conn_str kinds first ++ numberedNames conn_str more (first + kinds.length) := by
  unfold numberedNames
  rw [List.zipIdx_append, List.map_append]

theorem length_numberedNames (kinds : List Bool) (first : Nat) :
    (numberedNames conn_str kinds first).length = kinds.length := by
  unfold numberedNames
  rw [List.length_map, List.length_zipIdx]

theorem addNamespace_names (conn_str : String) (clique : List Node) (namespace_name : String)
    (state : Cliqued × List Node) (occurs : ∃ p ∈ clique, p.nc_name = namespace_name) :
    (addNamespace clique state namespace_name).1.cliques_nodes.map Node.name =
        state.1.cliques_nodes.map Node.name ++
          numberedNames conn_str (namespaceKinds clique [namespace_name]) state.1.cliques_nodes.length ∧
      (addNamespace clique state namespace_name).2.length = state.2.length + 1 := by
  obtain ⟨p, inside, same⟩ := occurs
  have some : 0 < (clique.filter fun peer => peer.nc_name = namespace_name).length :=
    List.length_pos_of_mem (List.mem_filter.mpr ⟨inside, decide_eq_true same⟩)
  unfold addNamespace namespaceKinds
  by_cases several : 1 < (clique.filter fun peer => peer.nc_name = namespace_name).length
  · rw [List.filter_cons_of_pos (by simpa using several), List.filter_nil]
    simp only [if_pos several, List.map_append]
    exact ⟨rfl, List.length_append⟩
  · rw [List.filter_cons_of_neg (by simpa using several), List.filter_nil]
    simp only [if_neg several, List.length_append, List.length_take]
    constructor
    · exact (List.append_nil _).symm
    · omega

/-- The names that the loop over the namespaces adds, and the number of nodes that it hands on. -/
theorem addNamespaces_names (conn_str : String) (clique : List Node) (namespaces : List String)
    (state : Cliqued × List Node)
    (occur : ∀ namespace_name ∈ namespaces, ∃ p ∈ clique, p.nc_name = namespace_name) :
    (namespaces.foldl (addNamespace clique) state).1.cliques_nodes.map Node.name =
        state.1.cliques_nodes.map Node.name ++
          numberedNames conn_str (namespaceKinds clique namespaces) state.1.cliques_nodes.length ∧
      (namespaces.foldl (addNamespace clique) state).2.length = state.2.length + namespaces.length := by
  induction namespaces generalizing state with
  | nil => exact ⟨(List.append_nil _).symm, rfl⟩
  | cons namespace_name rest ih =>
    obtain ⟨first, others⟩ := List.forall_mem_cons.mp occur
    obtain ⟨step, one⟩ := addNamespace_names conn_str clique namespace_name state first
    obtain ⟨names, count⟩ := ih (addNamespace clique state namespace_name) others
    have reached := congrArg List.length step
    rw [List.length_append, length_numberedNames, List.length_map, List.length_map] at reached
    have kinds : namespaceKinds clique (namespace_name :: rest) =
        namespaceKinds clique [namespace_name] ++ namespaceKinds clique rest := by
      unfold namespaceKinds
      rw [← List.map_append, ← List.filter_append, List.singleton_append]
    rw [List.foldl_cons, names, count, step, one, reached, kinds, numberedNames_append,
      List.append_assoc, List.length_cons]
    apply And.intro rfl
    omega

theorem addClique_names (conn_str : String) (g : Cliqued) (clique : List Node) :
    (addClique conn_str g clique).cliques_nodes.map Node.name =
      g.cliques_nodes.map Node.name ++ numberedNames conn_str (nodeKinds clique) g.cliques_nodes.length := by
  unfold addClique nodeKinds
  by_cases small : clique.length < minCliqueSize
  · rw [if_pos small, if_pos small]
    exact (List.append_nil _).symm
  · rw [if_neg small, if_neg small]
    obtain ⟨names, count⟩ := addNamespaces_names conn_str clique (clqNamespaces clique) (g, [])
      fun namespace_name => mem_clqNamespaces.mp
    generalize (clqNamespaces clique).foldl (addNamespace clique) (g, []) = state at names count ⊢
    have reached := congrArg List.length names
    rw [List.length_append, length_numberedNames, List.length_map, List.length_map] at reached
    show (joinNamespaces conn_str state.1 state.2).cliques_nodes.map Node.name = _
    rw [numberedNames_append, ← List.append_assoc, ← names, ← reached]
    unfold joinNamespaces
    rw [count, List.length_nil, Nat.zero_add]
    by_cases many : 2 < (clqNamespaces clique).length
    · rw [if_pos many, if_pos many, List.map_append]
      rfl
    · rw [if_neg many, if_neg many]
      show _ = state.1.cliques_nodes.map Node.name ++ []
      rw [List.append_nil]
      split
      · rfl
      · rfl

/-- The names are those of the cliques. -/
theorem createsCliquedGraph_names (find_cliques : Finset Edge → List (List Node)) (conn_str : String)
    (edges : Finset Edge) :
    (createsCliquedGraph find_cliques conn_str edges).cliques_nodes.map Node.name =
      cliqueNames conn_str (sortedCliques (find_cliques edges)) := by
  have walk : ∀ (cliques : List (List Node)) (g : Cliqued),
      (cliques.foldl (addClique conn_str) g).cliques_nodes.map Node.name =
        g.cliques_nodes.map Node.name ++
          numberedNames conn_str (cliques.flatMap nodeKinds) g.cliques_nodes.length := by
    intro cliques
    induction cliques with
    | nil => intro g; simp [numberedNames]
    | cons clique rest ih =>
      intro g
      have names := addClique_names conn_str g clique
      have reached := congrArg List.length names
      rw [List.length_append, length_numberedNames, List.length_map, List.length_map] at reached
      rw [List.foldl_cons, ih, names, reached, List.flatMap_cons, numberedNames_append, List.append_assoc]
  exact walk _ _

end Created

end Nca.FWRules
