import Mathlib.Data.List.Sort
import Nca.FWRules.FWRule
import Nca.Lib.Partition

/-!
Label grouping: in each namespace the values of a label whose pods are all in the given set stand
for them, and a label is chosen when its pods are still there. The elements are a partition of the
given pods.
-/

namespace Nca.FWRules
open CoreDS Lib LabeledPeers

/-- The values of a key that are covered, with their pods. -/
structure LabelsRep (K : Type) where
  key : Str
  values : Finset Str
  pods : Finset K
  deriving DecidableEq

section Grouping

variable {K : Type} [DecidableEq K] [LabeledPeers K]
  (cluster_info : ClusterInfo K) (fwRulesGroupByLabelSinglePod : Bool)

/-- The pods of a namespace with a value. -/
def allPodsPerLabelVal (ns : Option String) (key v : Str) : Finset K :=
  SetDict.find cluster_info.pods_labels_map (key, v) ∩ SetDict.find cluster_info.ns_dict ns

/-- The values all of whose pods can be used, and some of whose pods are to be grouped. -/
def fullyCoveredLabelValues (pods_set extra_pods_set : Finset K) (ns : Option String) (key : Str) :
    Finset Str :=
  let all_pods_set := pods_set ∪ extra_pods_set
  (cluster_info.getAllValuesSetForKeyPerNamespace key {ns}).filter fun v =>
    let all_pods_per_label_val := allPodsPerLabelVal cluster_info ns key v
    all_pods_per_label_val ≠ ∅ ∧ all_pods_per_label_val = all_pods_per_label_val ∩ all_pods_set ∧
      all_pods_per_label_val ∩ pods_set ≠ ∅

/-- The option of one key. -/
def labelsRepOption (pods_set extra_pods_set : Finset K) (ns : Option String) (key : Str) :
    Option (LabelsRep K) :=
  let all_pods_set := pods_set ∪ extra_pods_set
  let values := fullyCoveredLabelValues cluster_info pods_set extra_pods_set ns key
  let pods := values.biUnion fun v => allPodsPerLabelVal cluster_info ns key v ∩ all_pods_set
  let enough := if fwRulesGroupByLabelSinglePod then 1 ≤ pods.card else 1 < pods.card
  if values ≠ ∅ ∧ enough then some ⟨key, values, pods⟩ else none

/-- The loop that chooses among the options, until no pods remain. -/
def chooseReps (pods_set : Finset K) : List (LabelsRep K) → Finset K → List (LabelsRep K) × Finset K
  | [], remaining_pods => ([], remaining_pods)
  | option :: options, remaining_pods =>
    if option.pods ∩ pods_set ⊆ remaining_pods then
      if remaining_pods \ option.pods = ∅ then ([option], remaining_pods \ option.pods)
      else
        let (chosen_rep, rest) := chooseReps pods_set options (remaining_pods \ option.pods)
        (option :: chosen_rep, rest)
    else if remaining_pods = ∅ then ([], remaining_pods)
    else chooseReps pods_set options remaining_pods

def getPodsGroupingByLabels (pods_set : Finset K) (ns : Option String) (extra_pods_set : Finset K) :
    List (LabelsRep K) × Finset K :=
  let labels_rep_options := cluster_info.allowed_labels.filterMap
    (labelsRepOption cluster_info fwRulesGroupByLabelSinglePod pods_set extra_pods_set ns)
  let sorted_rep_options :=
    labels_rep_options.insertionSort fun x y => y.pods.card ≤ x.pods.card
  chooseReps pods_set sorted_rep_options pods_set

/-- One namespace of the loop of `_get_pods_grouping_by_labels_main`. -/
def groupNamespace (pods_set extra_pods_set : Finset K)
    (res : List (LabelsRep K × Option String) × Finset K) (ns : Option String) :
    List (LabelsRep K × Option String) × Finset K :=
  let ns_pods := SetDict.find cluster_info.ns_dict ns
  let (chosen_rep, remaining_pods) := getPodsGroupingByLabels cluster_info
    fwRulesGroupByLabelSinglePod (pods_set ∩ ns_pods) ns (extra_pods_set ∩ ns_pods)
  (res.1 ++ chosen_rep.map (·, ns), res.2 ∪ remaining_pods)

def getPodsGroupingByLabelsMain (pods_set extra_pods_set : Finset K) :
    List (LabelsRep K × Option String) × Finset K :=
  (cluster_info.namespacesOf pods_set).foldl
    (groupNamespace cluster_info fwRulesGroupByLabelSinglePod pods_set extra_pods_set) ([], ∅)

def podLabelsElement (rep : LabelsRep K) (ns_info : Finset (Option String)) : FWRuleElement K :=
  let map_simple_keys_to_all_values := cluster_info.getMapOfSimpleKeysToAllValues rep.key ns_info
  let all_key_values := cluster_info.getAllValuesSetForKeyPerNamespace rep.key ns_info
  .podLabels ⟨rep.key, rep.values, map_simple_keys_to_all_values, all_key_values⟩ ns_info

def createFwElementsByPodsGroupingByLabels (pods_set : Finset K) : List (FWRuleElement K) :=
  let (chosen_rep, remaining_pods) :=
    getPodsGroupingByLabelsMain cluster_info fwRulesGroupByLabelSinglePod pods_set ∅
  let res := chosen_rep.map fun (rep, ns) => podLabelsElement cluster_info rep {ns}
  if remaining_pods = ∅ then res else res ++ [.peerSet remaining_pods]

end Grouping

section Options

variable {K : Type} [DecidableEq K] {cluster_info : ClusterInfo K}
  {fwRulesGroupByLabelSinglePod : Bool} {pods_set remaining_pods : Finset K} {ns : Option String}
  {key v : Str} {rep : LabelsRep K} {options : List (LabelsRep K)}

theorem mem_fullyCovered (covered : v ∈ fullyCoveredLabelValues cluster_info pods_set ∅ ns key) :
    v ∈ cluster_info.getAllValuesSetForKeyPerNamespace key {ns} ∧
      allPodsPerLabelVal cluster_info ns key v ⊆ pods_set := by
  obtain ⟨listed, -, within, -⟩ := Finset.mem_filter.mp covered
  rw [Finset.union_empty] at within
  exact ⟨listed, Finset.inter_eq_left.mp within.symm⟩

/-- An option has the pods of its values, all of them given. -/
structure LabelsRep.Covers (cluster_info : ClusterInfo K) (pods_set : Finset K) (ns : Option String)
    (rep : LabelsRep K) : Prop where
  allowed : rep.key ∈ cluster_info.allowed_labels
  nonempty : rep.values ≠ ∅
  values : rep.values ⊆ cluster_info.getAllValuesSetForKeyPerNamespace rep.key {ns}
  pods : rep.pods = rep.values.biUnion (allPodsPerLabelVal cluster_info ns rep.key)
  inside : rep.pods ⊆ pods_set

theorem labelsRepOption_covers (allowed : key ∈ cluster_info.allowed_labels)
    (option : labelsRepOption cluster_info fwRulesGroupByLabelSinglePod pods_set ∅ ns key = some rep) :
    rep.Covers cluster_info pods_set ns := by
  unfold labelsRepOption at option
  simp only [Option.ite_none_right_eq_some, Option.some.injEq] at option
  obtain ⟨⟨nonempty, -⟩, rfl⟩ := option
  have whole : ∀ v ∈ fullyCoveredLabelValues cluster_info pods_set ∅ ns key,
      allPodsPerLabelVal cluster_info ns key v ∩ (pods_set ∪ ∅) =
        allPodsPerLabelVal cluster_info ns key v := by
    intro v covered
    rw [Finset.union_empty]
    exact Finset.inter_eq_left.mpr (mem_fullyCovered covered).2
  exact {
    allowed := allowed
    nonempty := nonempty
    values := fun v covered => (mem_fullyCovered covered).1
    pods := Finset.biUnion_congr rfl whole
    inside := by
      intro p inside
      obtain ⟨v, covered, inside⟩ := Finset.mem_biUnion.mp inside
      rw [whole v covered] at inside
      exact (mem_fullyCovered covered).2 inside }

theorem chooseReps_subset (chosen : rep ∈ (chooseReps pods_set options remaining_pods).1) :
    rep ∈ options := by
  induction options generalizing remaining_pods with
  | nil => exact chosen
  | cons option options ih =>
    unfold chooseReps at chosen
    split at chosen
    case isTrue =>
      split at chosen
      case isTrue => exact List.mem_cons.mpr (.inl (List.mem_singleton.mp chosen))
      case isFalse =>
        cases List.mem_cons.mp chosen with
        | inl same => exact List.mem_cons.mpr (.inl same)
        | inr later => exact List.mem_cons_of_mem _ (ih later)
    case isFalse =>
      split at chosen
      case isTrue => exact absurd chosen List.not_mem_nil
      case isFalse => exact List.mem_cons_of_mem _ (ih chosen)

/-- What the loop chooses and what it leaves are a partition of what it has. -/
theorem chooseReps_partition (inside : ∀ rep ∈ options, rep.pods ⊆ pods_set) :
    Partition ((chooseReps pods_set options remaining_pods).2 ::
      (chooseReps pods_set options remaining_pods).1.map LabelsRep.pods) remaining_pods := by
  induction options generalizing remaining_pods with
  | nil => exact Partition.single _
  | cons option options ih =>
    obtain ⟨given, others⟩ := List.forall_mem_cons.mp inside
    unfold chooseReps
    rw [Finset.inter_eq_left.mpr given]
    split
    case isTrue fits =>
      have choose {chosen : List (Finset K)} {rest : Finset K}
          (split : Partition (rest :: chosen) (remaining_pods \ option.pods)) :
          Partition (rest :: option.pods :: chosen) remaining_pods :=
        (split.cons fits).perm (List.Perm.swap _ _ _)
      split
      case isTrue => exact choose (Partition.single _)
      case isFalse => exact choose (ih others)
    case isFalse =>
      split
      case isTrue => exact Partition.single _
      case isFalse => exact ih others

theorem getPodsGroupingByLabels_covers (chosen : rep ∈ (getPodsGroupingByLabels cluster_info
    fwRulesGroupByLabelSinglePod pods_set ns ∅).1) : rep.Covers cluster_info pods_set ns := by
  have listed := (List.mem_insertionSort _).mp (chooseReps_subset chosen)
  obtain ⟨key, allowed, option⟩ := List.mem_filterMap.mp listed
  exact labelsRepOption_covers allowed option

theorem getPodsGroupingByLabels_partition (cluster_info : ClusterInfo K)
    (fwRulesGroupByLabelSinglePod : Bool) (pods_set : Finset K) (ns : Option String) : Partition
    ((getPodsGroupingByLabels cluster_info fwRulesGroupByLabelSinglePod pods_set ns ∅).2 ::
      (getPodsGroupingByLabels cluster_info fwRulesGroupByLabelSinglePod pods_set ns ∅).1.map
        LabelsRep.pods) pods_set := by
  apply chooseReps_partition
  intro rep listed
  obtain ⟨key, allowed, option⟩ := List.mem_filterMap.mp ((List.mem_insertionSort _).mp listed)
  exact (labelsRepOption_covers allowed option).inside

end Options

section Elements

variable {K : Type} [DecidableEq K] {cluster_info : ClusterInfo K}
  {fwRulesGroupByLabelSinglePod : Bool} {pods_set visited : Finset K} {ns : Option String}
  {rep : LabelsRep K} {res : List (LabelsRep K × Option String) × Finset K}

/-- The element that is made of a choice stands for its pods. -/
theorem podLabelsElement_pods (covers : rep.Covers cluster_info pods_set ns) :
    (podLabelsElement cluster_info rep {ns}).getPodsSet cluster_info = rep.pods := by
  rw [covers.pods]
  show rep.values.biUnion (fun v => SetDict.find cluster_info.pods_labels_map (rep.key, v) ∩
    FWRuleElement.nsPodsSet cluster_info {ns}) = _
  unfold FWRuleElement.nsPodsSet
  rw [Finset.singleton_biUnion]
  rfl

/-- After some namespaces: the choices so far, and what they leave of the pods of these. -/
structure Grouped (cluster_info : ClusterInfo K) (pods_set visited : Finset K)
    (res : List (LabelsRep K × Option String) × Finset K) : Prop where
  partition : Partition (res.2 :: res.1.map fun entry => entry.1.pods) visited
  covers : ∀ entry ∈ res.1,
    entry.1.Covers cluster_info (pods_set ∩ SetDict.find cluster_info.ns_dict entry.2) entry.2

theorem groupNamespace_grouped (grouped : Grouped cluster_info pods_set visited res)
    (apart : Disjoint visited (pods_set ∩ SetDict.find cluster_info.ns_dict ns)) :
    Grouped cluster_info pods_set (visited ∪ pods_set ∩ SetDict.find cluster_info.ns_dict ns)
      (groupNamespace cluster_info fwRulesGroupByLabelSinglePod pods_set ∅ res ns) := by
  unfold groupNamespace
  dsimp only
  rw [Finset.empty_inter]
  exact {
    partition := by
      have split := grouped.partition.append
        (getPodsGroupingByLabels_partition cluster_info fwRulesGroupByLabelSinglePod _ ns) apart
      simp only [List.map_append, List.map_map]
      apply Partition.join
      apply split.perm
      apply List.Perm.cons
      exact List.perm_middle
    covers := by
      intro entry chosen
      cases List.mem_append.mp chosen with
      | inl before => exact grouped.covers entry before
      | inr now =>
        obtain ⟨rep, choice, rfl⟩ := List.mem_map.mp now
        exact getPodsGroupingByLabels_covers choice }

theorem foldl_groupNamespace {namespaces : List (Option String)} (once : namespaces.Nodup)
    (distinct : ∀ n n', n ≠ n' → Disjoint (SetDict.find cluster_info.ns_dict n)
      (SetDict.find cluster_info.ns_dict n'))
    (grouped : Grouped cluster_info pods_set visited res)
    (apart : ∀ n ∈ namespaces, Disjoint visited (SetDict.find cluster_info.ns_dict n)) :
    Grouped cluster_info pods_set
      (visited ∪ pods_set ∩ namespaces.toFinset.biUnion (SetDict.find cluster_info.ns_dict))
      (namespaces.foldl (groupNamespace cluster_info fwRulesGroupByLabelSinglePod pods_set ∅) res) := by
  induction namespaces generalizing visited res with
  | nil => simpa using grouped
  | cons n rest ih =>
    obtain ⟨unseen, once⟩ := List.nodup_cons.mp once
    obtain ⟨now, later⟩ := List.forall_mem_cons.mp apart
    rw [List.toFinset_cons, Finset.biUnion_insert, Finset.inter_union_distrib_left,
      ← Finset.union_assoc]
    apply ih once
    · exact groupNamespace_grouped grouped (now.mono_right Finset.inter_subset_right)
    · intro n' member
      have other : n ≠ n' := fun same => unseen (same ▸ member)
      exact Finset.disjoint_union_left.mpr
        ⟨later n' member, (distinct n n' other).mono_left Finset.inter_subset_right⟩

/-- The pods of each element. -/
def elementPods (cluster_info : ClusterInfo K) (elements : List (FWRuleElement K)) :
    List (Finset K) := elements.map (FWRuleElement.getPodsSet cluster_info)

theorem elementPods_chosen  (grouped : Grouped cluster_info pods_set visited res) :
    elementPods cluster_info (res.1.map fun (rep, ns) => podLabelsElement cluster_info rep {ns}) =
      res.1.map fun entry => entry.1.pods := by
  unfold elementPods
  rw [List.map_map]
  apply List.map_congr_left
  intro entry chosen
  exact podLabelsElement_pods (grouped.covers entry chosen)

end Elements

section Partitions

variable {K : Type} [DecidableEq K] [LabeledPeers K]

theorem init_namespaces_disjoint {all_peers : List K} {allowed_labels : List Str}
    {n n' : Option String} (other : n ≠ n') :
    Disjoint (SetDict.find (ClusterInfo.init all_peers allowed_labels).ns_dict n)
      (SetDict.find (ClusterInfo.init all_peers allowed_labels).ns_dict n') := by
  apply Finset.disjoint_left.mpr
  intro p here there
  obtain ⟨-, rfl⟩ := ClusterInfo.mem_ns_dict.mp here
  exact other (ClusterInfo.mem_ns_dict.mp there).2

theorem getPodsGroupingByLabelsMain_grouped {all_peers : List K} {allowed_labels : List Str}
    (fwRulesGroupByLabelSinglePod : Bool) {pods_set : Finset K}
    (pods : ∀ p ∈ pods_set, p ∈ (ClusterInfo.init all_peers allowed_labels).allPods) :
    Grouped (ClusterInfo.init all_peers allowed_labels) pods_set pods_set
      (getPodsGroupingByLabelsMain (ClusterInfo.init all_peers allowed_labels)
        fwRulesGroupByLabelSinglePod pods_set ∅) := by
  let cluster_info := ClusterInfo.init all_peers allowed_labels
  have none_yet : Grouped cluster_info pods_set ∅ ([], ∅) :=
    ⟨Partition.single ∅, fun _ listed => absurd listed List.not_mem_nil⟩
  have once : (cluster_info.namespacesOf pods_set).Nodup := List.nodup_dedup _
  have all_pods : ∅ ∪ pods_set ∩ (cluster_info.namespacesOf pods_set).toFinset.biUnion
      (SetDict.find cluster_info.ns_dict) = pods_set := by
    rw [Finset.empty_union]
    apply Finset.inter_eq_left.mpr
    intro p given
    apply Finset.mem_biUnion.mpr
    use peer_namespace p
    rw [List.mem_toFinset, ClusterInfo.mem_namespacesOf, ClusterInfo.mem_ns_dict]
    exact ⟨⟨p, pods p given, given, rfl⟩, pods p given, rfl⟩
  have grouped := @foldl_groupNamespace K _ cluster_info fwRulesGroupByLabelSinglePod pods_set ∅
    ([], ∅) _ once (fun n n' => init_namespaces_disjoint) none_yet
    (fun n _ => Finset.disjoint_empty_left _)
  rw [all_pods] at grouped
  exact grouped

/-- The elements are disjoint, and together they have exactly the given pods. -/
theorem createFwElements_partition (all_peers : List K) (allowed_labels : List Str)
    (fwRulesGroupByLabelSinglePod : Bool) (pods_set : Finset K)
    (pods : ∀ p ∈ pods_set, p ∈ (ClusterInfo.init all_peers allowed_labels).allPods) :
    Partition (elementPods (ClusterInfo.init all_peers allowed_labels)
      (createFwElementsByPodsGroupingByLabels (ClusterInfo.init all_peers allowed_labels)
        fwRulesGroupByLabelSinglePod pods_set)) pods_set := by
  have grouped := getPodsGroupingByLabelsMain_grouped fwRulesGroupByLabelSinglePod pods
  unfold createFwElementsByPodsGroupingByLabels
  dsimp only
  split
  case isTrue nothing =>
    rw [elementPods_chosen grouped]
    have split := grouped.partition
    rw [nothing] at split
    exact split.drop_empty
  case isFalse =>
    unfold elementPods
    rw [List.map_append]
    apply grouped.partition.perm
    show (_ :: _).Perm (elementPods _ _ ++ [_])
    rw [elementPods_chosen grouped]
    exact (List.perm_append_singleton _ _).symm

/-- A peer of a topology that is written down. -/
structure TopologyPeer where
  name : String
  ns : Option String
  labels : List (Str × Str)
  is_ip_block : Bool := false
  labels_nodup : (Dict.keys labels).Nodup := by decide
  deriving DecidableEq

instance : LabeledPeers TopologyPeer where
  is_ip_block := TopologyPeer.is_ip_block
  peer_namespace := TopologyPeer.ns
  labels := TopologyPeer.labels
  labels_nodup := TopologyPeer.labels_nodup

def frontend : TopologyPeer :=
  ⟨"frontend", some "default", [("app".toList, "web".toList), ("tier".toList, "1".toList)], false, by decide⟩

def backend : TopologyPeer :=
  ⟨"backend", some "default", [("app".toList, "web".toList)], false, by decide⟩

def database : TopologyPeer := ⟨"database", some "default", [], false, by decide⟩

theorem webPods_partition : Partition
    (elementPods (ClusterInfo.init [frontend, backend, database] ["app".toList, "app:tier".toList])
      (createFwElementsByPodsGroupingByLabels
        (ClusterInfo.init [frontend, backend, database] ["app".toList, "app:tier".toList]) true
        {frontend, backend})) {frontend, backend} :=
  createFwElements_partition _ _ true {frontend, backend} (by
    simp [ClusterInfo.mem_allPods, ClusterInfo.init_all_peers]
    decide)

end Partitions

end Nca.FWRules
