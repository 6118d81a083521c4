import Mathlib.Data.List.Lex
import Mathlib.Data.List.Sort
import Mathlib.Data.String.Basic
import Nca.CoreDS.IpBlock
import Nca.FWRules.ClusterInfo
import Nca.Lib.ListDict
import Nca.Lib.Loops

/-!
The groups of peers with equal connections that the drawing of the connectivity graph puts in one
node, and when what is drawn of the groups is all that the graph has.
-/

namespace Nca.FWRules
open CoreDS Lib Python LabeledPeers

/-- What the graph reads of a peer that is no IP block. -/
class Endpoints (K : Type) where
  peer_namespace : K → Option String
  labels : K → List (Str × Str)
  labels_nodup : ∀ peer, (Dict.keys (labels peer)).Nodup

/-- A peer as sets compare it: an IP block by its ranges. -/
inductive GraphPeer (K : Type) where
  | other (peer : K)
  | ipBlock (block : IpBlock)
  deriving DecidableEq

/-- The labels of the edges. An empty one is false. -/
class EdgeLabels (C : Type) where
  bool : C → Bool

section Graph

variable {K C : Type}

instance graphPeers [Endpoints K] : LabeledPeers (GraphPeer K) where
  is_ip_block
    | .other _ => false
    | .ipBlock _ => true
  peer_namespace
    | .other peer => Endpoints.peer_namespace peer
    | .ipBlock _ => none
  labels
    | .other peer => Endpoints.labels peer
    | .ipBlock _ => []
  labels_nodup
    | .other peer => Endpoints.labels_nodup peer
    | .ipBlock _ => List.nodup_nil

/-- A cube without its empty dimensions: the peers on its two sides and the label that the rest of it
makes. -/
structure EdgesCube (K C : Type) [EdgeLabels C] where
  src_peers : List (GraphPeer K)
  dst_peers : List (GraphPeer K)
  props : C
  some_src : src_peers ≠ []
  some_dst : dst_peers ≠ []
  some_props : EdgeLabels.bool props = true

/-- Connectivity properties as they are iterated. The peers of a dimension that is not active are the
same in every cube. -/
structure EdgesProps (K C : Type) [EdgeLabels C] where
  cubes : List (EdgesCube K C)
  src_domain : Option (List (GraphPeer K))
  dst_domain : Option (List (GraphPeer K))
  src_inactive : ∀ domain ∈ src_domain, ∀ cube ∈ cubes, cube.src_peers = domain
  dst_inactive : ∀ domain ∈ dst_domain, ∀ cube ∈ cubes, cube.dst_peers = domain

variable [DecidableEq K] [DecidableEq C] [EdgeLabels C]

/-- `project_on_one_dimension` for a dimension of peers. -/
def projectPeers (props : EdgesProps K C) (domain : Option (List (GraphPeer K)))
    (side : EdgesCube K C → List (GraphPeer K)) : List (GraphPeer K) :=
  match domain with
  | some peers => peers
  | none => props.cubes.foldl (fun res cube => res ∪ side cube) []

def getAllPeers (props : EdgesProps K C) : List (GraphPeer K) :=
  projectPeers props props.src_domain EdgesCube.src_peers ∪
    projectPeers props props.dst_domain EdgesCube.dst_peers

/-- A peer of which an edge starts or ends: a range of an IP block is a block. -/
def GraphPeer.split : GraphPeer K → List (GraphPeer K)
  | .other peer => [.other peer]
  | .ipBlock block => block.interval_set.map fun ip_range => .ipBlock ⟨[ip_range]⟩

/-- `PeerSet.split`. -/
def splitPeers (peers : List (GraphPeer K)) : List (GraphPeer K) := (peers.flatMap GraphPeer.split).dedup

structure ConnectivityGraph (K C : Type) where
  cluster_info : ClusterInfo (GraphPeer K)
  props_to_peers : List (C × List (GraphPeer K × GraphPeer K)) := []

namespace ConnectivityGraph

def init [Endpoints K] (all_peers : List (GraphPeer K)) (allowed_labels : List Str) :
    ConnectivityGraph K C :=
  ⟨ClusterInfo.init all_peers allowed_labels, []⟩

def addEdgesFromCubeDict (self : ConnectivityGraph K C) (cube : EdgesCube K C) : ConnectivityGraph K C :=
  let pairs := (splitPeers cube.src_peers).product (splitPeers cube.dst_peers)
  { self with
    props_to_peers := pairs.foldl (fun d pair => ListDict.append d cube.props pair) self.props_to_peers }

def addPropsToGraph (self : ConnectivityGraph K C) (props : EdgesProps K C) : ConnectivityGraph K C :=
  props.cubes.foldl addEdgesFromCubeDict self

/-- `dot_format_from_props`, up to the drawing. -/
def ofProps [Endpoints K] (props : EdgesProps K C) (allowed_labels : List Str) : ConnectivityGraph K C :=
  (init (getAllPeers props) allowed_labels).addPropsToGraph props

end ConnectivityGraph

/-- An edge of a peer: the other end, the label, and whether the edge comes in. -/
abbrev PeerEdge (K C : Type) := GraphPeer K × C × Bool

structure CollectedEdges (K C : Type) where
  peers_edges : List (GraphPeer K × List (PeerEdge K C))
  edges_props : List ((GraphPeer K × GraphPeer K) × C) := []

/-- `{peer: [] for peer in peers}`. -/
def noEdges (peers : List (GraphPeer K)) : List (GraphPeer K × List (PeerEdge K C)) :=
  peers.foldl (fun d peer => Dict.set d peer []) []

/-- `peers_edges[peer].append(edge)`. -/
def appendEdge (peers_edges : List (GraphPeer K × List (PeerEdge K C))) (peer : GraphPeer K)
    (edge : PeerEdge K C) : Except Failure (List (GraphPeer K × List (PeerEdge K C))) :=
  match Dict.get peers_edges peer with
  | some edges => .ok (Dict.set peers_edges peer (edges ++ [edge]))
  | none => .error .key

def addPair (props : C) (collected : CollectedEdges K C) (pair : GraphPeer K × GraphPeer K) :
    Except Failure (CollectedEdges K C) :=
  if pair.1 = pair.2 then pure collected
  else do
    let peers_edges ← appendEdge collected.peers_edges pair.1 (pair.2, props, false)
    let peers_edges ← appendEdge peers_edges pair.2 (pair.1, props, true)
    let edges_props := Dict.set collected.edges_props pair props
    pure ⟨peers_edges, Dict.set edges_props (pair.2, pair.1) props⟩

def addLabel (collected : CollectedEdges K C) (entry : C × List (GraphPeer K × GraphPeer K)) :
    Except Failure (CollectedEdges K C) :=
  if EdgeLabels.bool entry.1 then entry.2.foldlM (addPair entry.1) collected else pure collected

/-- The edges of a peer with its edges to itself. -/
def withSelfEdges (peer : GraphPeer K) (edges : List (PeerEdge K C)) : Finset (PeerEdge K C) :=
  (edges ++ (edges.map fun edge => edge.2.1).dedup.flatMap fun connection =>
    [(peer, connection, false), (peer, connection, true)]).toFinset

section Groups

variable [Endpoints K] (str : GraphPeer K → Str)

/-- The groups of more than one peer, and the peers that are left out. -/
def findEqualGroups (peers_edges : List (GraphPeer K × Finset (PeerEdge K C))) :
    List (List (GraphPeer K)) × List (GraphPeer K) :=
  let groups_dict := ListDict.groupBy (fun entry => (peer_namespace entry.1, entry.2)) peers_edges
  let values := groups_dict.map fun group => group.2.map Prod.fst
  ((values.filter fun peers => 1 < peers.length).map fun peers =>
      peers.insertionSort fun peer other => str peer ≤ str other,
    (values.filter fun peers => peers.length = 1).flatten)

/-- `edges_props.get((group[0], group[1]), None)`. -/
def groupProps (edges_props : List ((GraphPeer K × GraphPeer K) × C)) : List (GraphPeer K) → Option C
  | first :: second :: _ => Dict.get edges_props (first, second)
  | _ => none

/-- `_get_equals_groups` after its first loops. -/
def groupsOfEdges (collected : CollectedEdges K C) : List (List (GraphPeer K) × Option C) :=
  let peers_edges := collected.peers_edges.map fun entry => (entry.1, withSelfEdges entry.1 entry.2)
  let connected := findEqualGroups str peers_edges
  let connected_groups := connected.1.map fun group => (group, groupProps collected.edges_props group)
  let peers_edges := peers_edges.filter fun entry => entry.1 ∈ connected.2
  let peers_edges := peers_edges.map fun entry => (entry.1, entry.2.filter fun edge => edge.1 ≠ entry.1)
  let not_connected := findEqualGroups str peers_edges
  connected_groups ++ not_connected.1.map (fun group => (group, none)) ++
    not_connected.2.map fun peer => ([peer], none)

/-- `_get_equals_groups`, with the peers in the order in which their set is iterated. -/
def getEqualsGroups (order : SetOrder (GraphPeer K)) (self : ConnectivityGraph K C) :
    Except Failure (List (List (GraphPeer K) × Option C)) := do
  let peers := order 0 self.cluster_info.all_peers.toFinset
  let collected ← self.props_to_peers.foldlM addLabel ⟨noEdges peers, []⟩
  pure (groupsOfEdges str collected)

end Groups

end Graph
section Carries

variable {K C : Type} [DecidableEq C] {p q : GraphPeer K} {c : C}

/-- An edge with the label from the one peer to the other. -/
def ConnectivityGraph.Carries (self : ConnectivityGraph K C) (p q : GraphPeer K) (c : C) : Prop :=
  (p, q) ∈ ListDict.find self.props_to_peers c

def ConnectivityGraph.Occurs (self : ConnectivityGraph K C) (p : GraphPeer K) : Prop :=
  ∃ q c, self.Carries p q c ∨ self.Carries q p c

variable [EdgeLabels C]

/-- Different labels in the order in which they came, and none that is false. -/
structure Keyed (props_to_peers : List (C × List (GraphPeer K × GraphPeer K))) : Prop where
  unique : (Dict.keys props_to_peers).Nodup
  filled : ∀ props ∈ Dict.keys props_to_peers, EdgeLabels.bool props = true

theorem keyed_append {d : List (C × List (GraphPeer K × GraphPeer K))} (keyed : Keyed d)
    {pair : GraphPeer K × GraphPeer K} (filled : EdgeLabels.bool c = true) :
    Keyed (ListDict.append d c pair) := by
  constructor
  · exact Dict.nodup_keys_set keyed.unique _ _
  · intro props listed
    rw [ListDict.append, Dict.keys_set] at listed
    split at listed
    case isTrue => exact keyed.filled props listed
    case isFalse =>
      rcases List.mem_append.mp listed with before | new
      · exact keyed.filled props before
      · rw [List.mem_singleton.mp new]
        exact filled

variable [DecidableEq K] {graph : ConnectivityGraph K C} {cube : EdgesCube K C} {peers : List (GraphPeer K)}

omit [DecidableEq C] [EdgeLabels C] in
theorem mem_splitPeers : p ∈ splitPeers peers ↔ ∃ peer ∈ peers, p ∈ peer.split := by
  unfold splitPeers
  rw [List.mem_dedup, List.mem_flatMap]

theorem mem_addEdgesFromCubeDict : (graph.addEdgesFromCubeDict cube).Carries p q c ↔
    graph.Carries p q c ∨ cube.props = c ∧ p ∈ splitPeers cube.src_peers ∧ q ∈ splitPeers cube.dst_peers := by
  have found := ListDict.find_foldl_append (fun _ => cube.props) (k := c)
    ((splitPeers cube.src_peers).product (splitPeers cube.dst_peers)) graph.props_to_peers
  show (p, q) ∈ ListDict.find (List.foldl _ _ _) c ↔ _
  rw [found, List.mem_append, List.mem_filter, List.pair_mem_product]
  show _ ↔ (p, q) ∈ ListDict.find _ _ ∨ _
  simp only [decide_eq_true_eq, and_comm]

theorem carries_addPropsToGraph (cubes : List (EdgesCube K C)) (graph : ConnectivityGraph K C) :
    (cubes.foldl ConnectivityGraph.addEdgesFromCubeDict graph).Carries p q c ↔ graph.Carries p q c ∨
      ∃ cube ∈ cubes, cube.props = c ∧ p ∈ splitPeers cube.src_peers ∧ q ∈ splitPeers cube.dst_peers := by
  induction cubes generalizing graph with
  | nil => simp
  | cons cube rest ih =>
    rw [List.foldl_cons, ih, mem_addEdgesFromCubeDict, List.exists_mem_cons_iff, or_assoc]

variable [Endpoints K] {props : EdgesProps K C} {allowed_labels : List Str}

theorem carries_ofProps : (ConnectivityGraph.ofProps props allowed_labels).Carries p q c ↔
    ∃ cube ∈ props.cubes, cube.props = c ∧ p ∈ splitPeers cube.src_peers ∧ q ∈ splitPeers cube.dst_peers := by
  refine (carries_addPropsToGraph props.cubes _).trans (or_iff_right ?_)
  exact List.not_mem_nil

theorem keyed_ofProps (props : EdgesProps K C) (allowed_labels : List Str) :
    Keyed (ConnectivityGraph.ofProps props allowed_labels).props_to_peers := by
  have pairs : ∀ (pairs : List (GraphPeer K × GraphPeer K)) (d : List (C × List _)) (cube : EdgesCube K C),
      Keyed d → Keyed (pairs.foldl (fun d pair => ListDict.append d cube.props pair) d) := by
    intro pairs d cube
    induction pairs generalizing d with
    | nil => exact id
    | cons pair rest ih => exact fun keyed => ih _ (keyed_append keyed cube.some_props)
  have cubes : ∀ (cubes : List (EdgesCube K C)) (graph : ConnectivityGraph K C), Keyed graph.props_to_peers →
      Keyed (cubes.foldl ConnectivityGraph.addEdgesFromCubeDict graph).props_to_peers := by
    intro cubes graph
    induction cubes generalizing graph with
    | nil => exact id
    | cons cube rest ih => exact fun keyed => ih _ (pairs _ _ cube keyed)
  apply cubes
  exact ⟨List.nodup_nil, fun _ listed => absurd listed List.not_mem_nil⟩

theorem all_peers_ofProps :
    (ConnectivityGraph.ofProps props allowed_labels).cluster_info.all_peers = getAllPeers props := by
  have kept : ∀ (cubes : List (EdgesCube K C)) (graph : ConnectivityGraph K C),
      (cubes.foldl ConnectivityGraph.addEdgesFromCubeDict graph).cluster_info = graph.cluster_info := by
    intro cubes graph
    induction cubes generalizing graph with
    | nil => rfl
    | cons cube rest ih => exact ih _
  unfold ConnectivityGraph.ofProps ConnectivityGraph.addPropsToGraph
  rw [kept]
  exact ClusterInfo.init_all_peers

end Carries

section Collected

variable {K C : Type} [DecidableEq K] {p q : GraphPeer K} {c : C} {peers : List (GraphPeer K)}
  {peers_edges peers_edges' : List (GraphPeer K × List (PeerEdge K C))} {edge : PeerEdge K C}
  {before : List (C × GraphPeer K × GraphPeer K)} {collected next : CollectedEdges K C}

/-- All edges with their labels, in the order in which the loops visit them. -/
def ConnectivityGraph.labeledPairs (self : ConnectivityGraph K C) : List (C × GraphPeer K × GraphPeer K) :=
  self.props_to_peers.flatMap fun entry => entry.2.map fun pair => (entry.1, pair)

/-- What the loops have collected once they visited the edges of `before`. -/
structure Collects (peers : List (GraphPeer K)) (before : List (C × GraphPeer K × GraphPeer K))
    (collected : CollectedEdges K C) : Prop where
  unique : (Dict.keys collected.peers_edges).Nodup
  keys : ∀ p, p ∈ Dict.keys collected.peers_edges ↔ p ∈ peers
  edges : ∀ p (edge : PeerEdge K C), edge ∈ ListDict.find collected.peers_edges p ↔
    edge.1 ≠ p ∧ (edge.2.1, if edge.2.2 then (edge.1, p) else (p, edge.1)) ∈ before
  found : ∀ p q c, Dict.get collected.edges_props (p, q) = some c →
    (c, p, q) ∈ before ∨ (c, q, p) ∈ before
  known : ∀ p q c, p ≠ q → (c, p, q) ∈ before ∨ (c, q, p) ∈ before →
    (Dict.get collected.edges_props (p, q)).isSome

theorem noEdges_spec (peers : List (GraphPeer K)) :
    Collects (C := C) peers [] ⟨noEdges peers, []⟩ := by
  have kept : ∀ (peers : List (GraphPeer K)) (d : List (GraphPeer K × List (PeerEdge K C))),
      (Dict.keys d).Nodup → (∀ p, ListDict.find d p = []) →
      (Dict.keys (peers.foldl (fun d peer => Dict.set d peer []) d)).Nodup ∧
      (∀ p, p ∈ Dict.keys (peers.foldl (fun d peer => Dict.set d peer []) d) ↔
        p ∈ Dict.keys d ∨ p ∈ peers) ∧
      ∀ p, ListDict.find (peers.foldl (fun d peer => Dict.set d peer []) d) p = [] := by
    intro peers
    induction peers with
    | nil => exact fun d unique none => ⟨unique, by simp, none⟩
    | cons peer rest ih =>
      intro d unique none
      have none' : ∀ p, ListDict.find (Dict.set d peer []) p = [] := by
        intro p
        have before := none p
        unfold ListDict.find at before ⊢
        rw [Dict.get_set]
        split
        · rfl
        · exact before
      obtain ⟨unique', keys, last⟩ := ih _ (Dict.nodup_keys_set unique peer []) none'
      refine ⟨unique', ?_, last⟩
      intro p
      rw [List.foldl_cons, keys, Dict.keys_set]
      split
      case isTrue present => grind
      case isFalse => grind
  obtain ⟨unique, keys, none⟩ := kept peers [] List.nodup_nil fun _ => rfl
  constructor
  · exact unique
  · intro p
    refine (keys p).trans (or_iff_right ?_)
    exact List.not_mem_nil
  · intro p edge
    show edge ∈ ListDict.find (noEdges peers) p ↔ _
    rw [show ListDict.find (noEdges peers) p = [] from none p]
    simp
  · intro p q c found
    cases found
  · intro p q c _ inside
    simp at inside

theorem appendEdge_ok : appendEdge peers_edges p edge = .ok peers_edges' ↔
    p ∈ Dict.keys peers_edges ∧ peers_edges' = ListDict.append peers_edges p edge := by
  rw [← Dict.get_isSome]
  unfold appendEdge ListDict.append ListDict.find
  cases Dict.get peers_edges p with
  | none => simp
  | some edges => simp [eq_comm]

theorem keys_append (listed : p ∈ Dict.keys peers_edges) :
    Dict.keys (ListDict.append peers_edges p edge) = Dict.keys peers_edges := by
  rw [ListDict.append, Dict.keys_set, if_pos listed]

/-- A pair of different peers needs both as keys. -/
theorem addPair_ok : addPair c collected (p, q) = .ok next ↔
    (p = q ∧ next = collected) ∨ (p ≠ q ∧ p ∈ Dict.keys collected.peers_edges ∧
      q ∈ Dict.keys collected.peers_edges ∧
      next = ⟨ListDict.append (ListDict.append collected.peers_edges p (q, c, false)) q (p, c, true),
        Dict.set (Dict.set collected.edges_props (p, q) c) (q, p) c⟩) := by
  unfold addPair
  by_cases same : p = q
  · rw [if_pos same]
    simp [same, eq_comm, pure, Except.pure]
  · rw [if_neg same]
    simp only [bind_ok, appendEdge_ok, same, false_and, false_or, ne_eq, not_false_eq_true, true_and]
    constructor
    · intro run
      obtain ⟨first, ⟨src, rfl⟩, second, ⟨dst, rfl⟩, last⟩ := run
      rw [keys_append src] at dst
      exact ⟨src, dst, (Except.ok.inj last).symm⟩
    · intro run
      obtain ⟨src, dst, rfl⟩ := run
      exact ⟨_, ⟨src, rfl⟩, _, ⟨by rwa [keys_append src], rfl⟩, rfl⟩

theorem addPair_step (holds : Collects peers before collected)
    (run : addPair c collected (p, q) = .ok next) : Collects peers (before ++ [(c, p, q)]) next := by
  rcases addPair_ok.mp run with ⟨same, rfl⟩ | ⟨different, src, dst, rfl⟩
  · subst same
    constructor
    · exact holds.unique
    · exact holds.keys
    · intro peer edge
      rw [holds.edges]
      obtain ⟨other, label, incoming⟩ := edge
      cases incoming <;> grind
    · intro peer other label found
      exact (holds.found peer other label found).imp (List.mem_append_left _) (List.mem_append_left _)
    · intro peer other label apart inside
      apply holds.known peer other label apart
      grind
  · have keys : Dict.keys (ListDict.append (ListDict.append collected.peers_edges p (q, c, false)) q
        (p, c, true)) = Dict.keys collected.peers_edges := by
      rw [keys_append (by rwa [keys_append src]), keys_append src]
    constructor
    · rw [keys]
      exact holds.unique
    · intro peer
      rw [keys]
      exact holds.keys peer
    · intro peer edge
      rw [ListDict.mem_find_append, ListDict.mem_find_append, holds.edges]
      obtain ⟨other, label, incoming⟩ := edge
      cases incoming <;> grind
    · intro peer other label found
      rw [Dict.get_set, Dict.get_set] at found
      have earlier := holds.found peer other label
      grind
    · intro peer other label apart inside
      rw [Dict.get_set, Dict.get_set]
      have earlier := holds.known peer other label apart
      grind

variable [EdgeLabels C]

/-- The two loops are one over all edges. -/
theorem foldlM_addLabel {entries : List (C × List (GraphPeer K × GraphPeer K))}
    (filled : ∀ props ∈ Dict.keys entries, EdgeLabels.bool props = true) :
    entries.foldlM addLabel collected =
      (entries.flatMap fun entry => entry.2.map fun pair => (entry.1, pair)).foldlM
        (fun collected labeled => addPair labeled.1 collected labeled.2) collected := by
  induction entries generalizing collected with
  | nil => rfl
  | cons entry rest ih =>
    obtain ⟨first, others⟩ := List.forall_mem_cons.mp filled
    rw [List.foldlM_cons, List.flatMap_cons, List.foldlM_append, List.foldlM_map]
    unfold addLabel
    rw [if_pos first]
    apply bind_congr
    intro next
    exact ih others

omit [DecidableEq K] in
theorem mem_labeledPairs [DecidableEq C] {graph : ConnectivityGraph K C} (keyed : Keyed graph.props_to_peers) :
    (c, p, q) ∈ graph.labeledPairs ↔ graph.Carries p q c := by
  unfold ConnectivityGraph.labeledPairs ConnectivityGraph.Carries
  rw [List.mem_flatMap]
  constructor
  · intro inside
    obtain ⟨entry, listed, inside⟩ := inside
    obtain ⟨pair, member, same⟩ := List.mem_map.mp inside
    obtain ⟨rfl, rfl⟩ := Prod.mk.inj same
    rw [ListDict.find_eq keyed.unique listed]
    exact member
  · intro inside
    unfold ListDict.find at inside
    cases found : Dict.get graph.props_to_peers c with
    | none =>
      rw [found] at inside
      exact absurd inside List.not_mem_nil
    | some pairs =>
      rw [found] at inside
      exact ⟨(c, pairs), Dict.get_mem found, List.mem_map_of_mem inside⟩

end Collected

section Connections

variable {K C : Type} [DecidableEq C] {graph : ConnectivityGraph K C} {p q : GraphPeer K} {c : C}

/-- The graph has the edge of the peer. -/
def ConnectivityGraph.HasEdge (self : ConnectivityGraph K C) (p : GraphPeer K) (edge : PeerEdge K C) : Prop :=
  if edge.2.2 then self.Carries edge.1 p edge.2.1 else self.Carries p edge.1 edge.2.1

/-- The edges of a peer to and from the others. -/
def ConnectivityGraph.edgesOf (self : ConnectivityGraph K C) (p : GraphPeer K) : Set (PeerEdge K C) :=
  {edge | edge.1 ≠ p ∧ self.HasEdge p edge}

/-- The edges of a peer when it is connected with itself, in both directions, by every label that
it has. -/
def ConnectivityGraph.connectionsOf (self : ConnectivityGraph K C) (p : GraphPeer K) :
    Set (PeerEdge K C) :=
  {edge | edge ∈ self.edgesOf p ∨ edge.1 = p ∧ ∃ other ∈ self.edgesOf p, other.2.1 = edge.2.1}

/-- The peers have the same edges with all the others. -/
def ConnectivityGraph.Alike (self : ConnectivityGraph K C) (p q : GraphPeer K) : Prop :=
  ∀ edge : PeerEdge K C, edge.1 ≠ p → edge.1 ≠ q → (self.HasEdge p edge ↔ self.HasEdge q edge)

theorem alike_of_connections (same : graph.connectionsOf p = graph.connectionsOf q) : graph.Alike p q := by
  intro edge first second
  have both := Set.ext_iff.mp same edge
  show _ ↔ _
  unfold ConnectivityGraph.connectionsOf ConnectivityGraph.edgesOf at both
  simpa [first, second] using both

theorem alike_of_edges (same : graph.edgesOf p = graph.edgesOf q) : graph.Alike p q := by
  intro edge first second
  have both := Set.ext_iff.mp same edge
  unfold ConnectivityGraph.edgesOf at both
  simpa [first, second] using both

/-- Peers that are alike with their edges to themselves have every label of theirs between them. -/
theorem carries_of_connections (different : p ≠ q)
    (same : graph.connectionsOf p = graph.connectionsOf q)
    (has : ∃ other ∈ graph.edgesOf p, other.2.1 = c) : graph.Carries p q c := by
  have own : (p, c, true) ∈ graph.connectionsOf p := Or.inr ⟨rfl, has⟩
  rw [same] at own
  rcases own with ⟨_, edge⟩ | ⟨loop, _⟩
  · exact edge
  · exact absurd loop different

/-- Peers that are alike without them have no edge between them. -/
theorem not_carries_of_edges (different : p ≠ q) (same : graph.edgesOf p = graph.edgesOf q) :
    ¬ graph.Carries p q c := by
  intro carried
  have own : (q, c, false) ∈ graph.edgesOf p := ⟨different.symm, carried⟩
  rw [same] at own
  exact own.1 rfl

theorem carries_of_alike {p' q' : GraphPeer K} (sources : graph.Alike p p') (targets : graph.Alike q q')
    (first : q ≠ p) (second : q ≠ p') (third : q' ≠ p') : graph.Carries p q c ↔ graph.Carries p' q' c :=
  (sources (q, c, false) first second).trans (targets (p', c, true) second.symm third.symm)

variable [DecidableEq K] {edge : PeerEdge K C}

theorem mem_withSelfEdges {edges : List (PeerEdge K C)} : edge ∈ withSelfEdges p edges ↔
    edge ∈ edges ∨ edge.1 = p ∧ ∃ other ∈ edges, other.2.1 = edge.2.1 := by
  obtain ⟨peer, label, incoming⟩ := edge
  unfold withSelfEdges
  rw [List.mem_toFinset, List.mem_append, List.mem_flatMap]
  apply or_congr_right
  simp only [List.mem_dedup, List.mem_map, List.mem_cons, List.not_mem_nil, or_false, Prod.mk.injEq]
  constructor
  · intro inside
    obtain ⟨connection, ⟨other, member, rfl⟩, either⟩ := inside
    rcases either with ⟨rfl, rfl, _⟩ | ⟨rfl, rfl, _⟩
    · exact ⟨rfl, other, member, rfl⟩
    · exact ⟨rfl, other, member, rfl⟩
  · intro inside
    obtain ⟨rfl, other, member, rfl⟩ := inside
    refine ⟨_, ⟨other, member, rfl⟩, ?_⟩
    cases incoming <;> simp

theorem collected_edges (p : GraphPeer K) {S : Finset (PeerEdge K C)}
    (same : (S : Set (PeerEdge K C)) = graph.connectionsOf p) :
    ((S.filter fun edge => edge.1 ≠ p : Finset (PeerEdge K C)) : Set (PeerEdge K C)) = graph.edgesOf p := by
  ext edge
  rw [Finset.mem_coe, Finset.mem_filter, ← Finset.mem_coe, same]
  constructor
  · intro inside
    obtain ⟨edge | loop, other⟩ := inside
    · exact edge
    · exact absurd loop.1 other
  · intro inside
    exact ⟨Or.inl inside, inside.1⟩

/-- What the loops have collected of the whole graph. -/
theorem collected_connections [EdgeLabels C] {peers : List (GraphPeer K)}
    {collected : CollectedEdges K C} (keyed : Keyed graph.props_to_peers)
    (holds : Collects peers graph.labeledPairs collected) (p : GraphPeer K) :
    (withSelfEdges p (ListDict.find collected.peers_edges p) : Set (PeerEdge K C)) =
      graph.connectionsOf p := by
  have edges : ∀ edge : PeerEdge K C, edge ∈ ListDict.find collected.peers_edges p ↔ edge ∈ graph.edgesOf p := by
    intro edge
    rw [holds.edges]
    apply and_congr_right
    intro _
    unfold ConnectivityGraph.HasEdge
    split
    · exact mem_labeledPairs keyed
    · exact mem_labeledPairs keyed
  ext edge
  rw [Finset.mem_coe, mem_withSelfEdges]
  show _ ↔ edge ∈ graph.edgesOf p ∨ _
  simp only [edges]

end Connections

section Grouping

variable {α κ : Type} [DecidableEq κ] {key : α → κ} {xs : List α}
  {groups : List (List α)} {left_out : List α}

/-- Elements that share their key with another are grouped with it, and the others are left out. -/
structure EqualGroups (key : α → κ) (xs : List α) (groups : List (List α)) (left_out : List α) : Prop where
  perm : (groups.flatten ++ left_out).Perm xs
  large : ∀ group ∈ groups, 1 < group.length
  together : ∀ group ∈ groups, ∀ x ∈ group, ∀ y ∈ xs, y ∈ group ↔ key y = key x
  alone : ∀ x ∈ left_out, ∀ y ∈ xs, key y = key x → y = x

theorem perm_by_length (values : List (List α)) :
    ((values.filter fun value => 1 < value.length).flatten ++
      (values.filter fun value => value.length = 1).flatten).Perm values.flatten := by
  induction values with
  | nil => exact List.Perm.refl _
  | cons value rest ih =>
    rcases Nat.lt_trichotomy value.length 1 with none | one | more
    · have empty : value = [] := List.length_eq_zero_iff.mp (by omega)
      subst empty
      simpa using ih
    · rw [List.filter_cons_of_neg (by simp [one]), List.filter_cons_of_pos (by simp [one])]
      rw [List.flatten_cons, List.flatten_cons]
      exact (List.perm_append_comm_assoc _ _ _).trans (ih.append_left value)
    · have apart : ¬ value.length = 1 := by omega
      rw [List.filter_cons_of_pos (by simpa using more), List.filter_cons_of_neg (by simpa using apart)]
      rw [List.flatten_cons, List.flatten_cons, List.append_assoc]
      exact ih.append_left value

end Grouping

theorem findEqualGroups_spec {K C : Type} [DecidableEq K] [DecidableEq C] [Endpoints K] (str : GraphPeer K → Str) (peers : List (GraphPeer K))
    (F : GraphPeer K → Finset (PeerEdge K C)) :
    EqualGroups (fun peer => (peer_namespace peer, F peer)) peers
      (findEqualGroups str (peers.map fun peer => (peer, F peer))).1
      (findEqualGroups str (peers.map fun peer => (peer, F peer))).2 := by
  let key : GraphPeer K × Finset (PeerEdge K C) → Option String × Finset (PeerEdge K C) :=
    fun entry => (peer_namespace entry.1, entry.2)
  let entries := peers.map fun peer => (peer, F peer)
  let values := (ListDict.groupBy key entries).map fun group => group.2.map Prod.fst
  have classes : ∀ value ∈ values, ∃ k, value = peers.filter fun peer => key (peer, F peer) = k := by
    intro value listed
    obtain ⟨group, member, rfl⟩ := List.mem_map.mp listed
    refine ⟨group.1, ?_⟩
    rw [ListDict.mem_groupBy member, List.filter_map, List.map_map]
    exact List.map_id _
  have whole : values.flatten.Perm peers := by
    have same : values.flatten = ((ListDict.groupBy key entries).flatMap Prod.snd).map Prod.fst := by
      rw [List.map_flatMap]
      rfl
    rw [same]
    have perm := (ListDict.perm_groupBy key entries).map Prod.fst
    rwa [show entries.map Prod.fst = peers by rw [List.map_map]; exact List.map_id _] at perm
  let sorted : List (GraphPeer K) → List (GraphPeer K) :=
    fun peers => peers.insertionSort fun peer other => str peer ≤ str other
  have same_sorted : ∀ value : List (GraphPeer K), (sorted value).Perm value :=
    fun value => List.perm_insertionSort _ value
  show EqualGroups (fun peer => key (peer, F peer)) peers
    ((values.filter fun value => 1 < value.length).map sorted)
    (values.filter fun value => value.length = 1).flatten
  constructor
  · apply List.Perm.trans (List.Perm.append_right _ ?_) ((perm_by_length values).trans whole)
    have each := List.Perm.flatMap_left (f := sorted) (g := id)
      (values.filter fun value => 1 < value.length) fun value _ => same_sorted value
    rw [List.flatMap_id] at each
    exact each
  · intro group listed
    obtain ⟨value, member, rfl⟩ := List.mem_map.mp listed
    rw [(same_sorted value).length_eq]
    exact of_decide_eq_true (List.mem_filter.mp member).2
  · intro group listed x inside y known
    obtain ⟨value, member, rfl⟩ := List.mem_map.mp listed
    obtain ⟨k, rfl⟩ := classes value (List.mem_filter.mp member).1
    rw [(same_sorted _).mem_iff] at inside ⊢
    have own := of_decide_eq_true (List.mem_filter.mp inside).2
    rw [List.mem_filter, own]
    exact ⟨fun both => of_decide_eq_true both.2, fun same => ⟨known, decide_eq_true same⟩⟩
  · intro x listed y known same
    obtain ⟨value, member, inside⟩ := List.mem_flatten.mp listed
    obtain ⟨among, single⟩ := List.mem_filter.mp member
    obtain ⟨k, rfl⟩ := classes value among
    have own := of_decide_eq_true (List.mem_filter.mp inside).2
    have other : y ∈ peers.filter fun peer => key (peer, F peer) = k :=
      List.mem_filter.mpr ⟨known, decide_eq_true (same.trans own)⟩
    obtain ⟨z, alone⟩ := List.length_eq_one_iff.mp (of_decide_eq_true single)
    rw [alone, List.mem_singleton] at inside other
    exact other.trans inside.symm

end Nca.FWRules
