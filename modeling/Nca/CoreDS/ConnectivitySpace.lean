import Mathlib.Data.Bool.AllAny
import Nca.CoreDS.HyperCubeCubes
import Nca.CoreDS.MinDFA
import Nca.CoreDS.PeerDecoding

/-!
The dimensions of connectivity properties: their names, types, domains and empty values. Only the
domains of the two dimensions of peers may change.
-/

namespace Nca.CoreDS
open Lib Python Space

/-- Automata as values of a dimension, whose words are texts. -/
def DfaElem (D : Type) : Type := D

instance {D : Type} [MinDFA D] : ExactSet (DfaElem D) String where
  union := (Union.union : D → D → D)
  inter := (Inter.inter : D → D → D)
  sdiff := (SDiff.sdiff : D → D → D)
  emptyCollection := (∅ : D)
  decEq := (ExactSet.decEq : DecidableEq D)
  contains s w := ExactSet.contains (S := D) s w.toList
  contains_empty w := ExactSet.contains_empty (S := D) w.toList
  contains_union s t w := ExactSet.contains_union (S := D) s t w.toList
  contains_inter s t w := ExactSet.contains_inter (S := D) s t w.toList
  contains_sdiff s t w := ExactSet.contains_sdiff (S := D) s t w.toList
  ext s t same := by
    apply ExactSet.ext (S := D)
    intro w
    have here := same (String.ofList w)
    rwa [String.toList_ofList] at here

/-- An automaton as a value of a dimension. -/
def dfaElem {D : Type} (dfa : D) : DfaElem D := dfa

theorem mem_dfaElem {D : Type} [MinDFA D] {dfa : D} {w : String} : w ∈ dfaElem dfa ↔ w.toList ∈ dfa := Iff.rfl

/-- `ConnectivityCube.all_dimensions_list`. -/
def allDimensionsList : List String :=
  ["src_peers", "dst_peers", "protocols", "src_ports", "dst_ports", "methods", "hosts", "paths",
    "icmp_type", "icmp_code"]

def IsPeers (dim_name : String) : Prop := dim_name = "src_peers" ∨ dim_name = "dst_peers"

def IsPorts (dim_name : String) : Prop := dim_name = "src_ports" ∨ dim_name = "dst_ports"

def IsWords (dim_name : String) : Prop := dim_name = "hosts" ∨ dim_name = "paths"

instance {dim_name : String} : Decidable (IsPeers dim_name) := inferInstanceAs (Decidable (_ ∨ _))

instance {dim_name : String} : Decidable (IsPorts dim_name) := inferInstanceAs (Decidable (_ ∨ _))

instance {dim_name : String} : Decidable (IsWords dim_name) := inferInstanceAs (Decidable (_ ∨ _))

theorem peers_noWords {dim_name : String} (isPeers : IsPeers dim_name) : ¬ IsWords dim_name := by
  rcases isPeers with rfl | rfl <;> decide

theorem ports_noWords {dim_name : String} (isPorts : IsPorts dim_name) : ¬ IsWords dim_name := by
  rcases isPorts with rfl | rfl <;> decide

/-- A domain of a dimension of peers: some indices, not over the gaps between their ranges. -/
structure PeerDomain where
  set : CanonicalIntervalSet
  canonical : set.Canonical
  inhabited : ∃ n, n ∈ set
  ranges : ∀ i ∈ set.interval_set, RegisteredPeers.InOneRange i

section Table
variable (D : Type) [MinDFA D]

/-- The interval from `start` to `end_` as values of a dimension. -/
def intervalValues (start end_ : Int) : LayerElem (DfaElem D) := .intervals ⟨[⟨start, end_⟩]⟩

/-- Types and domains in `dim_dict`. -/
def dimDict (src_peers dst_peers : CanonicalIntervalSet) :
    List (String × DimensionType × LayerElem (DfaElem D)) :=
  [("src_ports", .IntervalSet, intervalValues D 1 65535),
    ("dst_ports", .IntervalSet, intervalValues D 1 65535),
    ("methods", .IntervalSet, intervalValues D 0 8),
    ("protocols", .IntervalSet, intervalValues D 0 255),
    ("src_peers", .IntervalSet, .intervals src_peers),
    ("dst_peers", .IntervalSet, .intervals dst_peers),
    ("paths", .DFA, .dfa (dfaElem MinDFA.pathDomain)),
    ("hosts", .DFA, .dfa (dfaElem MinDFA.hostDomain)),
    ("icmp_type", .IntervalSet, intervalValues D 0 254),
    ("icmp_code", .IntervalSet, intervalValues D 0 255)]

/-- The empty value of `dim_dict` for a dimension, which its type determines. -/
def getEmptyDimensionByName (manager : DimensionsManager (DfaElem D)) (dim_name : String) :
    Except Failure (LayerElem (DfaElem D)) := do
  match ← manager.getDimensionTypeByName dim_name with
  | .IntervalSet => pure (.intervals {})
  | .DFA => pure (.dfa (dfaElem (MinDFA.dfaFromRegex [])))

end Table

variable {D : Type} [MinDFA D]

theorem intervalValues_domain {start end_ : Int} (proper : start ≤ end_) :
    (intervalValues D start end_).Canonical ∧ ∃ x, x ∈ intervalValues D start end_ :=
  ⟨CanonicalIntervalSet.canonical_singleton proper, .int start, _, List.mem_singleton_self _,
    Interval.start_mem proper⟩

theorem some_path : "/" ∈ dfaElem (MinDFA.pathDomain : D) := by
  rw [mem_dfaElem, MinDFA.mem_pathDomain]
  exact ⟨List.prefix_rfl, List.all_iff_forall_prop.mp (by decide)⟩

theorem some_host : "" ∈ dfaElem (MinDFA.hostDomain : D) := by
  rw [mem_dfaElem, MinDFA.mem_hostWords]
  exact List.forall_mem_nil _

/-- The empty value of the dimensions of words has a word. -/
theorem mem_emptyWords {w : String} : w ∈ dfaElem (MinDFA.dfaFromRegex [] : D) ↔ w = "" := by
  rw [mem_dfaElem, MinDFA.mem_dfaFromPlain (List.forall_mem_nil _), ← String.toList_eq_nil_iff]
  generalize w.toList = cs
  constructor
  · intro reads
    cases reads
    rfl
  · rintro rfl
    exact .nil

/-- A space of connectivity properties: their dimensions in some order, and the domains of peers. -/
structure ConnectivitySpace (D : Type) [MinDFA D] where
  src_peers : PeerDomain
  dst_peers : PeerDomain
  all_dimensions_list : List String
  dims : all_dimensions_list.Perm allDimensionsList

namespace ConnectivitySpace

/-- `BasePeerSet.get_all_peers_and_ip_blocks_interval`, the default domain of peers. -/
def allPeersAndIpBlocks : PeerDomain where
  set := ⟨[⟨BasePeerSet.min_ipv4_index, BasePeerSet.max_ipv4_index⟩,
    ⟨BasePeerSet.min_ipv6_index, BasePeerSet.max_ipv6_index⟩,
    ⟨BasePeerSet.min_pod_index, BasePeerSet.max_pod_index⟩]⟩
  canonical := by
    constructor
    · simp only [Interval.Proper]
      decide
    · show List.Pairwise (fun a b : Interval => a.end_ + 1 < b.start) _
      decide
  inhabited := ⟨BasePeerSet.min_ipv4_index, _, List.mem_cons_self, Int.le_refl _, by decide⟩
  ranges := by
    unfold RegisteredPeers.InOneRange
    decide

/-- The space before a query sets domains of its own. -/
def init (D : Type) [MinDFA D] : ConnectivitySpace D :=
  ⟨allPeersAndIpBlocks, allPeersAndIpBlocks, allDimensionsList, List.Perm.refl _⟩

variable (space : ConnectivitySpace D)

def manager : DimensionsManager (DfaElem D) := ⟨dimDict D space.src_peers.set space.dst_peers.set⟩

/-- Every dimension has a domain of its type that has an element. -/
theorem table {d : String} (known : d ∈ allDimensionsList) :
    ∃ entry, Dict.get space.manager.dim_dict d = some entry ∧
      entry.2.type = entry.1 ∧ entry.2.Canonical ∧ ∃ x, x ∈ entry.2 := by
  have peers : ∀ domain : PeerDomain, ∃ x, x ∈ (LayerElem.intervals domain.set : LayerElem (DfaElem D)) :=
    fun domain => domain.inhabited.imp' Item.int fun _ inside => inside
  simp only [allDimensionsList, List.mem_cons, List.not_mem_nil, or_false] at known
  rcases known with rfl | rfl | rfl | rfl | rfl | rfl | rfl | rfl | rfl | rfl
  · exact ⟨_, rfl, rfl, space.src_peers.canonical, peers _⟩
  · exact ⟨_, rfl, rfl, space.dst_peers.canonical, peers _⟩
  · exact ⟨_, rfl, rfl, intervalValues_domain (by decide)⟩
  · exact ⟨_, rfl, rfl, intervalValues_domain (by decide)⟩
  · exact ⟨_, rfl, rfl, intervalValues_domain (by decide)⟩
  · exact ⟨_, rfl, rfl, intervalValues_domain (by decide)⟩
  · exact ⟨_, rfl, rfl, trivial, .str "", some_host⟩
  · exact ⟨_, rfl, rfl, trivial, .str "/", some_path⟩
  · exact ⟨_, rfl, rfl, intervalValues_domain (by decide)⟩
  · exact ⟨_, rfl, rfl, intervalValues_domain (by decide)⟩

def toSpace : Space (DfaElem D) where
  manager := space.manager
  all_dimensions_list := space.all_dimensions_list
  nodup := space.dims.nodup_iff.mpr (by decide)
  some_dimension := fun none => absurd (none ▸ space.dims).length_eq (by decide)
  domains _ member := space.table (space.dims.mem_iff.mp member)

variable {space} {d : String}

theorem domain_peers (isPeers : IsPeers d) :
    ∃ domain : PeerDomain, space.toSpace.domain d = .intervals domain.set := by
  rcases isPeers with rfl | rfl
  · exact ⟨space.src_peers, rfl⟩
  · exact ⟨space.dst_peers, rfl⟩

theorem domain_words (isWords : IsWords d) : (space.toSpace.domain d).type = .DFA := by
  rcases isWords with rfl | rfl
  · rfl
  · rfl

theorem domain_intervals (known : d ∈ allDimensionsList) (noWords : ¬ IsWords d) :
    (space.toSpace.domain d).type = .IntervalSet := by
  simp only [allDimensionsList, List.mem_cons, List.not_mem_nil, or_false] at known
  rcases known with rfl | rfl | rfl | rfl | rfl | rfl | rfl | rfl | rfl | rfl
  · rfl
  · rfl
  · rfl
  · rfl
  · rfl
  · rfl
  · exact (noWords (Or.inl rfl)).elim
  · exact (noWords (Or.inr rfl)).elim
  · rfl
  · rfl

/-- The values of a dimension of intervals are interval sets. -/
theorem key_intervals {value : LayerElem (DfaElem D)} (key : Key space.toSpace d value)
    (typed : (space.toSpace.domain d).type = .IntervalSet) :
    ∃ s, value = .intervals s ∧ s.Canonical := by
  cases value with
  | dfa l => cases key.shaped.type.trans typed
  | intervals s => exact ⟨s, rfl, key.shaped.canonical⟩

/-- No interval of a value of a dimension of peers reaches over a gap. -/
theorem key_ranges (isPeers : IsPeers d) {s : CanonicalIntervalSet}
    (key : Key space.toSpace d (.intervals s)) : ∀ i ∈ s.interval_set, RegisteredPeers.InOneRange i := by
  obtain ⟨domain, same⟩ : ∃ domain : PeerDomain, space.toSpace.domain d = .intervals domain.set :=
    domain_peers isPeers
  intro i listed
  have within : ∀ n, n ∈ i → n ∈ domain.set := by
    intro n inside
    have inside : Item.int n ∈ space.toSpace.domain d := key.within (.int n) ⟨i, listed, inside⟩
    rwa [same] at inside
  obtain ⟨j, listed', low, high⟩ :=
    (CanonicalIntervalSet.interval_within domain.canonical (key.shaped.canonical.proper i listed)).mp within
  have range := domain.ranges j listed'
  unfold RegisteredPeers.InOneRange at range ⊢
  omega

end ConnectivitySpace
end Nca.CoreDS
