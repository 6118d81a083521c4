import Nca.FWRules.ConnectivityGraph
import Nca.Lib.Numerals

/-!
`_creates_bicliqued_graph`: as long as some pair of node sets that are connected completely is worth
it, the edges between the two sets are replaced by a new node. The edges that are left and the pairs
joined through new nodes are the given edges.
-/

namespace Nca.FWRules
open Lib Lib.Python

/-- The sources and the destinations. -/
abbrev Biclique := Finset Node × Finset Node

/-- The parts of the result of `_creates_bicliqued_graph`, which are also the state of its loop. -/
structure Bicliqued where
  directed_edges : Finset Edge
  bicliques_edges : Finset Edge := ∅
  bicliques_nodes : List Node := []
  deriving DecidableEq

def allSources (directed_edges : Finset Edge) : Finset Node := directed_edges.image Prod.fst

def srcToDstSet (directed_edges : Finset Edge) (src : Node) : Finset Node :=
  (directed_edges.filter fun e => e.1 = src).image Prod.snd

def allDstSet (directed_edges : Finset Edge) : Finset (Finset Node) :=
  (allSources directed_edges).image (srcToDstSet directed_edges)

def srcSet (directed_edges : Finset Edge) (dst_set : Finset Node) : Finset Node :=
  (allSources directed_edges).filter fun src => dst_set ⊆ srcToDstSet directed_edges src

def rank (biclique : Biclique) : Int :=
  (biclique.1.card : Int) * biclique.2.card - biclique.1.card - biclique.2.card

/-- The nodes are numbered in the order in which they are made. -/
def bicliqueNode (conn_str : String) (number : Nat) : Node :=
  ⟨"biclique_" ++ conn_str ++ toString number, ""⟩

/-- One biclique out of the graph. -/
def replaceBiclique (conn_str : String) (best : Biclique) (g : Bicliqued) : Bicliqued :=
  let node := bicliqueNode conn_str g.bicliques_nodes.length
  { directed_edges := g.directed_edges \ best.1 ×ˢ best.2
    bicliques_nodes := g.bicliques_nodes ++ [node]
    bicliques_edges := g.bicliques_edges ∪ best.1.image (fun src => (src, node)) ∪
      best.2.image (fun dst => (node, dst)) }

/-- The order of the integers, by the instance that can be evaluated. -/
local instance intPreorder : Preorder Int := Int.instLinearOrder.toPreorder

/-- One turn of the loop, over the destination sets in the order in which they are visited. -/
def bicliqueTurn (order : SetOrder (Finset Node)) (conn_str : String) (g : Bicliqued) :
    Except Failure (Turn Bicliqued Bicliqued) :=
  if g.directed_edges = ∅ then pure (.done g)
  else
    let dst_sets := order g.bicliques_nodes.length (allDstSet g.directed_edges)
    let all_bicliques := dst_sets.map fun dst_set => (srcSet g.directed_edges dst_set, dst_set)
    match all_bicliques.argmax rank with
    | none => .error (.raised "max() arg is an empty sequence")
    | some best_biclique =>
      if rank best_biclique < 1 then pure (.done g)
      else pure (.again (replaceBiclique conn_str best_biclique g))

def createsBicliquedGraph (order : SetOrder (Finset Node)) (fuel : Nat) (directed_edges : Finset Edge)
    (conn_str : String) : Except Failure Bicliqued :=
  loop (bicliqueTurn order conn_str) fuel ⟨directed_edges, ∅, []⟩

variable {directed_edges : Finset Edge} {conn_str : String} {g : Bicliqued} {order : SetOrder (Finset Node)}
  {fuel : Nat} {best : Biclique} {made : List Biclique}

theorem mem_srcToDstSet {src dst : Node} :
    dst ∈ srcToDstSet directed_edges src ↔ (src, dst) ∈ directed_edges := by
  unfold srcToDstSet
  rw [Finset.mem_image]
  constructor
  · intro ⟨⟨_, _⟩, member, same⟩
    obtain ⟨inside, rfl⟩ := Finset.mem_filter.mp member
    rw [← same]
    exact inside
  · intro inside
    exact ⟨(src, dst), Finset.mem_filter.mpr ⟨inside, rfl⟩, rfl⟩

/-- The number of a node can be read off its name. -/
theorem bicliqueNode_inj {i j : Nat} (same : bicliqueNode conn_str i = bicliqueNode conn_str j) :
    i = j := by
  have names : "biclique_" ++ conn_str ++ toString i = "biclique_" ++ conn_str ++ toString j :=
    congrArg Node.name same
  exact Numerals.append_inj names

/-- Every source of a biclique has all its destinations. -/
theorem biclique_complete {dst_set : Finset Node} {src dst : Node}
    (source : src ∈ srcSet directed_edges dst_set) (target : dst ∈ dst_set) :
    (src, dst) ∈ directed_edges := by
  have covered := (Finset.mem_filter.mp source).2
  exact mem_srcToDstSet.mp (covered target)

/-- A biclique that is worth a node has both sources and destinations. -/
theorem nonempty_of_rank (worth : ¬ rank best < 1) : best.1.Nonempty ∧ best.2.Nonempty := by
  unfold rank at worth
  constructor
  · apply Finset.card_pos.mp
    apply Nat.pos_of_ne_zero
    intro none_left
    rw [none_left] at worth
    omega
  · apply Finset.card_pos.mp
    apply Nat.pos_of_ne_zero
    intro none_left
    rw [none_left] at worth
    omega

/-- What a run of the loop has made of the given edges: the edges that are left and, for each
biclique of `made`, its node with the number of its place. -/
structure Replaced (conn_str : String) (directed_edges : Finset Edge) (made : List Biclique)
    (g : Bicliqued) : Prop where
  nodes : g.bicliques_nodes = (List.range made.length).map (bicliqueNode conn_str)
  drawn : ∀ e, e ∈ g.bicliques_edges ↔ ∃ i b, made[i]? = some b ∧
    ((e.1 ∈ b.1 ∧ e.2 = bicliqueNode conn_str i) ∨ (e.1 = bicliqueNode conn_str i ∧ e.2 ∈ b.2))
  edges : ∀ e, e ∈ directed_edges ↔
    e ∈ g.directed_edges ∨ ∃ b ∈ made, e.1 ∈ b.1 ∧ e.2 ∈ b.2
  used : ∀ b ∈ made, b.1.Nonempty ∧ b.2.Nonempty

theorem replaced_start : Replaced conn_str directed_edges [] ⟨directed_edges, ∅, []⟩ where
  nodes := rfl
  drawn := by simp
  edges := by simp
  used := by simp

theorem replaced_step (before : Replaced conn_str directed_edges made g)
    (complete : ∀ src ∈ best.1, ∀ dst ∈ best.2, (src, dst) ∈ g.directed_edges)
    (used : best.1.Nonempty ∧ best.2.Nonempty) :
    Replaced conn_str directed_edges (made ++ [best]) (replaceBiclique conn_str best g) := by
  have count : g.bicliques_nodes.length = made.length := by
    rw [before.nodes, List.length_map, List.length_range]
  constructor
  · show g.bicliques_nodes ++ [bicliqueNode conn_str g.bicliques_nodes.length] = _
    rw [count, before.nodes, List.length_append, List.length_singleton, List.range_succ,
      List.map_append]
    rfl
  · intro e
    show e ∈ g.bicliques_edges ∪ _ ∪ _ ↔ _
    rw [Finset.mem_union, Finset.mem_union, before.drawn, count]
    constructor
    · rintro ((⟨i, b, found, ends⟩ | fromSrc) | toDst)
      · refine ⟨i, b, ?_, ends⟩
        rw [List.getElem?_append_left (List.getElem?_eq_some_iff.mp found).1]
        exact found
      · obtain ⟨src, inside, rfl⟩ := Finset.mem_image.mp fromSrc
        exact ⟨made.length, best, by simp, Or.inl ⟨inside, rfl⟩⟩
      · obtain ⟨dst, inside, rfl⟩ := Finset.mem_image.mp toDst
        exact ⟨made.length, best, by simp, Or.inr ⟨rfl, inside⟩⟩
    · intro ⟨i, b, found, ends⟩
      by_cases old : i < made.length
      · rw [List.getElem?_append_left old] at found
        exact Or.inl (Or.inl ⟨i, b, found, ends⟩)
      · have last : i = made.length := by
          have bound := (List.getElem?_eq_some_iff.mp found).1
          rw [List.length_append, List.length_singleton] at bound
          omega
        subst last
        rw [List.getElem?_concat_length] at found
        obtain rfl := Option.some.inj found
        rcases ends with ⟨source, target⟩ | ⟨source, target⟩
        · exact Or.inl (Or.inr (Finset.mem_image.mpr ⟨e.1, source, Prod.ext rfl target.symm⟩))
        · exact Or.inr (Finset.mem_image.mpr ⟨e.2, target, Prod.ext source.symm rfl⟩)
  · intro e
    show _ ↔ e ∈ g.directed_edges \ best.1 ×ˢ best.2 ∨ _
    rw [before.edges, Finset.mem_sdiff, Finset.mem_product]
    constructor
    · rintro (left_over | ⟨b, listed, joined⟩)
      · by_cases inside : e.1 ∈ best.1 ∧ e.2 ∈ best.2
        · exact Or.inr ⟨best, List.mem_append_right made List.mem_cons_self, inside⟩
        · exact Or.inl ⟨left_over, inside⟩
      · exact Or.inr ⟨b, List.mem_append_left _ listed, joined⟩
    · rintro (⟨left_over, _⟩ | ⟨b, listed, joined⟩)
      · exact Or.inl left_over
      · rcases List.mem_append.mp listed with old | new
        · exact Or.inr ⟨b, old, joined⟩
        · obtain rfl := List.mem_singleton.mp new
          exact Or.inl (complete e.1 joined.1 e.2 joined.2)
  · intro b listed
    rcases List.mem_append.mp listed with old | new
    · exact before.used b old
    · obtain rfl := List.mem_singleton.mp new
      exact used

/-- The step of the loop. -/
theorem bicliqueTurn_spec (visits : order.Visits)
    (before : ∃ made, Replaced conn_str directed_edges made g) :
    Returns (bicliqueTurn order conn_str g)
      (TurnKeeps (fun g => ∃ made, Replaced conn_str directed_edges made g)
        (fun g => g.directed_edges.card) (fun g => ∃ made, Replaced conn_str directed_edges made g)
        g) := by
  obtain ⟨made, before⟩ := before
  unfold bicliqueTurn
  by_cases finished : g.directed_edges = ∅
  · rw [if_pos finished]
    exact returns_pure ⟨made, before⟩
  · rw [if_neg finished]
    dsimp only
    -- some edge is left, so its source gives a biclique
    obtain ⟨edge, left_over⟩ := Finset.nonempty_iff_ne_empty.mpr finished
    have listed : srcToDstSet g.directed_edges edge.1 ∈
        order g.bicliques_nodes.length (allDstSet g.directed_edges) := by
      rw [visits]
      exact Finset.mem_image_of_mem _ (Finset.mem_image_of_mem _ left_over)
    generalize order g.bicliques_nodes.length (allDstSet g.directed_edges) = dst_sets at listed
    cases found : (dst_sets.map fun dst_set => (srcSet g.directed_edges dst_set, dst_set)).argmax
        rank with
    | none =>
      rw [List.argmax_eq_none, List.map_eq_nil_iff] at found
      rw [found] at listed
      exact absurd listed List.not_mem_nil
    | some best =>
      dsimp only
      by_cases worth : rank best < 1
      · rw [if_pos worth]
        exact returns_pure ⟨made, before⟩
      · rw [if_neg worth]
        apply returns_pure
        obtain ⟨dst_set, _, rfl⟩ := List.mem_map.mp (List.argmax_mem found)
        have complete : ∀ src ∈ srcSet g.directed_edges dst_set, ∀ dst ∈ dst_set,
            (src, dst) ∈ g.directed_edges :=
          fun src source dst target => biclique_complete source target
        have used := nonempty_of_rank worth
        refine ⟨⟨_, replaced_step before complete used⟩, ?_⟩
        obtain ⟨⟨src, source⟩, dst, target⟩ := used
        apply Finset.card_lt_card
        apply Finset.ssubset_iff_subset_ne.mpr
        refine ⟨Finset.sdiff_subset, ?_⟩
        intro unchanged
        have kept := complete src source dst target
        rw [← unchanged] at kept
        exact (Finset.mem_sdiff.mp kept).2 (Finset.mem_product.mpr ⟨source, target⟩)

/-- An edge that is left, or a source and a destination joined through a biclique node. -/
def Bicliqued.Connects (g : Bicliqued) (e : Edge) : Prop :=
  e ∈ g.directed_edges ∨
    ∃ node ∈ g.bicliques_nodes, (e.1, node) ∈ g.bicliques_edges ∧ (node, e.2) ∈ g.bicliques_edges

/-- No end of an edge is the node. -/
def Apart (directed_edges : Finset Edge) (node : Node) : Prop :=
  ∀ e ∈ directed_edges, e.1 ≠ node ∧ e.2 ≠ node

theorem connects_iff (run : Replaced conn_str directed_edges made g)
    (apart : ∀ node ∈ g.bicliques_nodes, Apart directed_edges node) (e : Edge) :
    g.Connects e ↔ e ∈ directed_edges := by
  have node_of : ∀ {i : Nat} {b : Biclique}, made[i]? = some b →
      bicliqueNode conn_str i ∈ g.bicliques_nodes := by
    intro i b found
    rw [run.nodes]
    exact List.mem_map_of_mem (List.mem_range.mpr (List.getElem?_eq_some_iff.mp found).1)
  have no_source : ∀ b ∈ made, ∀ node ∈ g.bicliques_nodes, node ∉ b.1 := by
    intro b listed node new source
    obtain ⟨_, dst, target⟩ := run.used b listed
    exact (apart node new (node, dst) ((run.edges _).mpr (Or.inr ⟨b, listed, source, target⟩))).1 rfl
  have no_target : ∀ b ∈ made, ∀ node ∈ g.bicliques_nodes, node ∉ b.2 := by
    intro b listed node new target
    obtain ⟨⟨src, source⟩, _⟩ := run.used b listed
    exact (apart node new (src, node) ((run.edges _).mpr (Or.inr ⟨b, listed, source, target⟩))).2 rfl
  rw [run.edges]
  constructor
  · rintro (left_over | ⟨node, new, into, out⟩)
    · exact Or.inl left_over
    · obtain ⟨i, b, found, ⟨source, place⟩ | ⟨_, target⟩⟩ := (run.drawn _).mp into
      · obtain ⟨j, b', found', ⟨source', _⟩ | ⟨place', target⟩⟩ := (run.drawn _).mp out
        · exact absurd source' (no_source b' (List.mem_of_getElem? found') node new)
        · obtain rfl := bicliqueNode_inj (place.symm.trans place')
          obtain rfl := Option.some.inj (found.symm.trans found')
          exact Or.inr ⟨b, List.mem_of_getElem? found, source, target⟩
      · exact absurd target (no_target b (List.mem_of_getElem? found) node new)
  · rintro (left_over | ⟨b, listed, source, target⟩)
    · exact Or.inl left_over
    · obtain ⟨i, found⟩ := List.getElem?_of_mem listed
      refine Or.inr ⟨bicliqueNode conn_str i, node_of found, ?_, ?_⟩
      · exact (run.drawn _).mpr ⟨i, b, found, Or.inl ⟨source, rfl⟩⟩
      · exact (run.drawn _).mpr ⟨i, b, found, Or.inr ⟨rfl, target⟩⟩

theorem createsBicliquedGraph_replaced (visits : order.Visits) (enough : directed_edges.card < fuel) :
    Returns (createsBicliquedGraph order fuel directed_edges conn_str) fun g =>
      ∃ made, Replaced conn_str directed_edges made g := by
  apply returns_loop (fun g before => bicliqueTurn_spec visits before) ⟨[], replaced_start⟩ enough

/-- The loop ends, and where no biclique node has the name of a given node, no edge is lost and
none is added. -/
theorem createsBicliquedGraph_connects (visits : order.Visits) (enough : directed_edges.card < fuel) :
    Returns (createsBicliquedGraph order fuel directed_edges conn_str) fun g =>
      (∀ node ∈ g.bicliques_nodes, Apart directed_edges node) →
        ∀ e, g.Connects e ↔ e ∈ directed_edges := by
  apply returns_mono (createsBicliquedGraph_replaced visits enough)
  intro g ⟨made, replaced⟩ apart
  exact connects_iff replaced apart

/-- Three peers, the first one with the given name, with connections to three others. -/
def threeByThree (first : String) : Finset Edge :=
  {⟨first, ""⟩, ⟨"web", "a"⟩, ⟨"api", "a"⟩} ×ˢ {⟨"db", "b"⟩, ⟨"cache", "b"⟩, ⟨"log", "b"⟩}

theorem threeByThree_connects :
    Returns (createsBicliquedGraph (fun _ dst_sets => dst_sets.toList) 10 (threeByThree "node-1")
      "All") fun g =>
      (∀ node ∈ g.bicliques_nodes, Apart (threeByThree "node-1") node) →
        ∀ e, g.Connects e ↔ e ∈ threeByThree "node-1" :=
  createsBicliquedGraph_connects (fun _ _ _ => Finset.mem_toList) (by decide +kernel)

/-- A host endpoint may have the name of a biclique node, and is then joined with itself. -/
theorem clashing_name_connects :
    ¬ ∀ (order : SetOrder (Finset Node)) (fuel : Nat) (directed_edges : Finset Edge) (conn_str : String),
      order.Visits → directed_edges.card < fuel →
      Returns (createsBicliquedGraph order fuel directed_edges conn_str) fun g =>
        ∀ e, g.Connects e ↔ e ∈ directed_edges := by
  intro exact_always
  let order : SetOrder (Finset Node) := fun _ dst_sets => dst_sets.toList
  let clash : Node := ⟨"biclique_All0", ""⟩
  let given := threeByThree "biclique_All0"
  let targets : Finset Node := {⟨"db", "b"⟩, ⟨"cache", "b"⟩, ⟨"log", "b"⟩}
  let replaced := replaceBiclique "All" (srcSet given targets, targets) ⟨given, ∅, []⟩
  obtain ⟨g, run, connects⟩ := exact_always order 10 given "All" (fun _ _ _ => Finset.mem_toList)
    (by decide +kernel)
  have one_set : allDstSet given = {targets} := by decide +kernel
  have first : bicliqueTurn order "All" ⟨given, ∅, []⟩ = .ok (.again replaced) := by
    unfold bicliqueTurn
    rw [if_neg (by decide +kernel), one_set]
    show (match List.argmax rank (List.map _ (Finset.toList {targets})) with
      | none => _
      | some _ => _) = _
    rw [Finset.toList_singleton]
    show (if rank (srcSet given targets, targets) < 1 then _ else _) = _
    rw [if_neg (by decide +kernel)]
    rfl
  have second : bicliqueTurn order "All" replaced = .ok (.done replaced) := if_pos (by decide +kernel)
  have ended : createsBicliquedGraph order 10 given "All" = .ok replaced :=
    (loop_again first).trans (loop_done second)
  obtain rfl : g = replaced := Except.ok.inj (run.symm.trans ended)
  have joined : replaced.Connects (clash, clash) :=
    Or.inr ⟨clash, by decide +kernel, by decide +kernel, by decide +kernel⟩
  exact absurd ((connects _).mp joined) (by decide +kernel)

end Nca.FWRules
