import Nca.FWRules.Bicliques
import Nca.FWRules.Cliques

/-!
The passes over the edges of a label: first its cliques are replaced, then bicliques, and what is left
is drawn by undirected edges where it is left in both directions.
-/

namespace Nca.FWRules
open Lib Lib.Python

/-- `reformat_graph`: the undirected and the directed edges. -/
def reformatGraph (undirected_edges directed_edges : Finset Edge) (allow_undirected : Bool) :
    Finset Edge × Finset Edge :=
  if allow_undirected then
    let undirected_edges :=
      (directed_edges.filter fun edge => (edge.2, edge.1) ∈ directed_edges) ∪ undirected_edges
    (undirected_edges.filter fun edge => edge.2.lt edge.1, directed_edges \ undirected_edges)
  else (∅, directed_edges ∪ undirected_edges ∪ undirected_edges.image fun edge => (edge.2, edge.1))

/-- What the passes over the edges of a label make of them. -/
structure LabelPasses where
  cliqued : Cliqued
  /-- the edges that are given to the pass for bicliques -/
  towards : Finset Edge
  bicliqued : Bicliqued
  undirected_edges : Finset Edge
  directed_edges : Finset Edge

/-- The graph whose cliques are looked for. -/
def undirectedOf (directed_edges : Finset Edge) : Finset Edge := (reformatGraph ∅ directed_edges true).1

def labelPasses (find_cliques : Finset Edge → List (List Node)) (order : SetOrder (Finset Node))
    (conn_str : String) (directed_edges : Finset Edge) : Except Failure LabelPasses := do
  let cliqued := createsCliquedGraph find_cliques conn_str (undirectedOf directed_edges)
  let (undirected_edges, towards) :=
    reformatGraph cliqued.undirected_edges (reformatGraph ∅ directed_edges true).2 false
  let bicliqued ← createsBicliquedGraph order (towards.card + 1) towards conn_str
  let (undirected_edges, directed_edges) := reformatGraph undirected_edges bicliqued.directed_edges true
  pure ⟨cliqued, towards, bicliqued, undirected_edges, directed_edges⟩

section Facts

variable {find_cliques : Finset Edge → List (List Node)} {order : SetOrder (Finset Node)}
  {conn_str : String} {edges directed_edges : Finset Edge} {passes : LabelPasses} {p q : Node} {e : Edge}
  {hubs : List Hub}

theorem lt_or_lt (different : p ≠ q) : p.lt q = true ∨ q.lt p = true := by
  unfold Node.lt
  simp only [Bool.or_eq_true, Bool.and_eq_true, decide_eq_true_eq]
  rcases lt_trichotomy p.name q.name with less | same | more
  · exact Or.inl (Or.inl less)
  · rcases lt_trichotomy p.nc_name q.nc_name with less | same' | more
    · exact Or.inl (Or.inr ⟨same, less⟩)
    · exact absurd (by cases p; cases q; simp_all) different
    · exact Or.inr (Or.inr ⟨same.symm, more⟩)
  · exact Or.inr (Or.inl more)

theorem mem_undirectedOf : e ∈ undirectedOf edges ↔
    (e ∈ edges ∧ (e.2, e.1) ∈ edges) ∧ e.2.lt e.1 = true := by
  unfold undirectedOf reformatGraph
  simp

/-- What is known of the passes over the edges of a label. -/
structure Passed (find_cliques : Finset Edge → List (List Node)) (conn_str : String)
    (directed_edges : Finset Edge) (passes : LabelPasses) : Prop where
  cliqued : passes.cliqued = createsCliquedGraph find_cliques conn_str (undirectedOf directed_edges)
  towards : ∀ e, e ∈ passes.towards ↔ (e ∈ directed_edges ∧ (e.2, e.1) ∉ directed_edges) ∨
    e ∈ passes.cliqued.undirected_edges ∨ (e.2, e.1) ∈ passes.cliqued.undirected_edges
  kept : passes.bicliqued.directed_edges ⊆ passes.towards
  biclique_ends : ∀ e ∈ passes.bicliqued.bicliques_edges, ∀ n, n = e.1 ∨ n = e.2 →
    n ∈ passes.bicliqued.bicliques_nodes ∨ n ∈ ends passes.towards
  undirected : ∀ e, e ∈ passes.undirected_edges ↔
    (e ∈ passes.bicliqued.directed_edges ∧ (e.2, e.1) ∈ passes.bicliqued.directed_edges) ∧ e.2.lt e.1 = true
  directed : passes.directed_edges ⊆ passes.bicliqued.directed_edges

theorem mem_ends {n : Node} : n ∈ ends edges ↔ ∃ e ∈ edges, n = e.1 ∨ n = e.2 := by
  unfold ends
  simp only [Finset.mem_union, Finset.mem_image, ← exists_or, ← and_or_left]
  simp only [eq_comm]

/-- The edges of the pass for bicliques end in given nodes and in new ones. -/
theorem replaced_ends {g : Bicliqued} {made : List Biclique} (replaced : Replaced conn_str edges made g)
    (edge : e ∈ g.bicliques_edges) {n : Node} (either : n = e.1 ∨ n = e.2) :
    n ∈ g.bicliques_nodes ∨ n ∈ ends edges := by
  obtain ⟨i, b, found, sides⟩ := (replaced.drawn e).mp edge
  have listed := List.mem_of_getElem? found
  have new : bicliqueNode conn_str i ∈ g.bicliques_nodes := by
    rw [replaced.nodes]
    exact List.mem_map_of_mem (List.mem_range.mpr (List.getElem?_eq_some_iff.mp found).1)
  obtain ⟨⟨src, source⟩, dst, target⟩ := replaced.used b listed
  have given : ∀ src ∈ b.1, ∀ dst ∈ b.2, (src, dst) ∈ edges :=
    fun src source dst target => (replaced.edges _).mpr (Or.inr ⟨b, listed, source, target⟩)
  rcases sides with ⟨start, stop⟩ | ⟨start, stop⟩
  · rcases either with rfl | rfl
    · exact Or.inr (mem_ends.mpr ⟨_, given _ start dst target, Or.inl rfl⟩)
    · exact Or.inl (stop ▸ new)
  · rcases either with rfl | rfl
    · exact Or.inl (start ▸ new)
    · exact Or.inr (mem_ends.mpr ⟨_, given src source _ stop, Or.inr rfl⟩)

theorem labelPasses_spec (visits : order.Visits) (find_cliques : Finset Edge → List (List Node))
    (conn_str : String) (directed_edges : Finset Edge) :
    Returns (labelPasses find_cliques order conn_str directed_edges)
      (Passed find_cliques conn_str directed_edges) := by
  unfold labelPasses
  apply returns_bind (createsBicliquedGraph_replaced visits (Nat.lt_succ_self _))
  intro bicliqued replaced
  obtain ⟨made, replaced⟩ := replaced
  apply returns_pure
  constructor
  · rfl
  · intro e
    show e ∈ ((reformatGraph ∅ directed_edges true).2 ∪ _ ∪ Finset.image _ _) ↔ _
    unfold reformatGraph
    simp only [if_true, Finset.mem_union, Finset.mem_image, Finset.mem_sdiff, Finset.mem_filter,
      Finset.notMem_empty, or_false, not_and, or_assoc]
    apply or_congr
    · apply and_congr_right
      intro inside
      exact ⟨fun other => other inside, fun other _ => other⟩
    · apply or_congr_right
      constructor
      · intro taken
        obtain ⟨e', inside, rfl⟩ := taken
        exact inside
      · intro inside
        exact ⟨_, inside, rfl⟩
  · intro e inside
    exact (replaced.edges e).mpr (Or.inl inside)
  · exact fun e edge n either => replaced_ends replaced edge either
  · intro e
    show e ∈ (reformatGraph ∅ bicliqued.directed_edges true).1 ↔ _
    exact mem_undirectedOf
  · exact Finset.sdiff_subset

/-- All edges that the passes handle are given ones. -/
theorem towards_subset (passed : Passed find_cliques conn_str directed_edges passes)
    (replaces : Replaces (undirectedOf directed_edges) (sortedCliques (find_cliques (undirectedOf directed_edges)))
      hubs passes.cliqued) : passes.towards ⊆ directed_edges := by
  intro e inside
  rcases (passed.towards e).mp inside with single | both | both
  · exact single.1
  · exact (mem_undirectedOf.mp ((replaces.left_over _).mp both).1).1.1
  · exact (mem_undirectedOf.mp ((replaces.left_over _).mp both).1).1.2

/-- The nodes of a clique that is replaced are nodes of the graph, and any two of them have edges in
both directions. -/
theorem hub_clique (finds : FindsCliques find_cliques)
    (replaces : Replaces (undirectedOf directed_edges) (sortedCliques (find_cliques (undirectedOf directed_edges)))
      hubs passes.cliqued) {hub : Hub} (listed : hub ∈ hubs) :
    (∀ p ∈ hub.clique, p ∈ ends directed_edges) ∧
    ∀ p ∈ hub.clique, ∀ q ∈ hub.clique, p ≠ q → (p, q) ∈ directed_edges ∧ (q, p) ∈ directed_edges := by
  have among : hub.clique ∈ sortedCliques (find_cliques (undirectedOf directed_edges)) := by
    have mapped := List.mem_map_of_mem (f := Hub.clique) listed
    rw [replaces.cliques] at mapped
    exact (List.mem_filter.mp mapped).1
  obtain ⟨found, member, perm⟩ := mem_sortedCliques among
  obtain ⟨_, maximal⟩ := (finds.maximal _ _).mp (List.mem_map_of_mem (f := List.toFinset) member)
  have inside : ∀ p, p ∈ hub.clique → p ∈ found.toFinset :=
    fun p known => List.mem_toFinset.mpr (perm.mem_iff.mp known)
  constructor
  · intro p known
    obtain ⟨e, edge, either⟩ := mem_ends.mp (maximal.prop.1 (inside p known))
    exact mem_ends.mpr ⟨e, (mem_undirectedOf.mp edge).1.1, either⟩
  · intro p known q known' different
    rcases maximal.prop.2 p (inside p known) q (inside q known') different with edge | edge
    · exact (mem_undirectedOf.mp edge).1
    · exact (mem_undirectedOf.mp edge).1.symm

end Facts
end Nca.FWRules
