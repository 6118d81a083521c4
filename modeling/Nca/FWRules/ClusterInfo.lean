import Mathlib.Data.Finset.Image
import Mathlib.Data.Finset.Union
import Nca.CoreDS.MinDFA
import Nca.Lib.SetDict

/-!
`ClusterInfo`: the pods of the namespaces, and the pods of the values of a label. A label that some
pod of a namespace lacks while others have it has a value of its own for that, and the labels that
are allowed as a conjunction have the combinations of values that occur.
-/

namespace Nca.FWRules
open CoreDS Lib

/-- The peers of a topology. Their labels are the items of a dictionary. -/
class LabeledPeers (K : Type) where
  is_ip_block : K → Bool
  peer_namespace : K → Option String
  labels : K → List (Str × Str)
  labels_nodup : ∀ peer, (Dict.keys (labels peer)).Nodup

open LabeledPeers

structure ClusterInfo (K : Type) where
  all_peers : List K
  allowed_labels : List Str
  ns_dict : List (Option String × Finset K) := []
  pods_labels_map : List ((Str × Str) × Finset K) := []
  all_label_values_per_ns : List ((Str × Option String) × Finset Str) := []

namespace ClusterInfo

def invalid_val : Str := "#NO_LABEL_VALUE".toList

/-- `key.split(':')`. -/
def splitKey (key : Str) : List Str := key.splitOn ':'

/-- `':'.join(values)`. -/
def joinValues (values : List Str) : Str := [':'].intercalate values

/-- `itertools.product(*sets)`. -/
def product {α : Type} : List (List α) → List (List α)
  | [] => [[]]
  | values :: rest => values.flatMap fun v => (product rest).map (v :: ·)

section Tables

variable {K : Type} [DecidableEq K] [LabeledPeers K] (self : ClusterInfo K)

/-- The peers that are no IP blocks. -/
def allPods : List K := self.all_peers.filter fun peer => !is_ip_block peer

def getValuesSetForKey (key : Str) : List Str :=
  ((Dict.keys self.pods_labels_map).filter fun entry => entry.1 == key).map Prod.snd

def getAllValuesSetForKeyPerNamespace (key : Str) (ns_set : Finset (Option String)) : Finset Str :=
  ns_set.biUnion fun ns => SetDict.find self.all_label_values_per_ns (key, ns)

def getAllowedLabelsFlattened : List Str := self.allowed_labels.flatMap splitKey

/-- The namespaces of some of the pods. -/
def namespacesOf (pods_set : Finset K) : List (Option String) :=
  ((self.allPods.filter fun pod => decide (pod ∈ pods_set)).map peer_namespace).dedup

def updateAllLabelValuesPerNs (key value : Str) (pods_set : Finset K) : ClusterInfo K :=
  let values := (self.namespacesOf pods_set).foldl
    (fun values ns => SetDict.add values (key, ns) value) self.all_label_values_per_ns
  { self with all_label_values_per_ns := values }

/-- One label of a peer. -/
def addLabel (peer : K) (label : Str × Str) : ClusterInfo K :=
  { self with
    pods_labels_map := SetDict.add self.pods_labels_map label peer
    all_label_values_per_ns :=
      SetDict.add self.all_label_values_per_ns (label.1, peer_namespace peer) label.2 }

/-- One peer. -/
def addPeer (peer : K) : ClusterInfo K :=
  if is_ip_block peer then self
  else (labels peer).foldl (fun self label => self.addLabel peer label)
    { self with ns_dict := SetDict.add self.ns_dict (peer_namespace peer) peer }

/-- The pods without the key, of namespaces in which some pod has it. -/
def podsWithoutKeyNsRestricted (key : Str) : Finset K :=
  let pod_sets_with_key_val_union :=
    (self.getValuesSetForKey key).foldl (fun pods v => pods ∪ SetDict.find self.pods_labels_map (key, v)) ∅
  let ns_context_options := pod_sets_with_key_val_union.image peer_namespace
  (self.allPods.toFinset \ pod_sets_with_key_val_union).filter fun pod =>
    peer_namespace pod ∈ ns_context_options

/-- One key of the loop of `add_update_pods_labels_map_with_invalid_val`. -/
def addInvalidVal (key : Str) : ClusterInfo K :=
  let pods := self.podsWithoutKeyNsRestricted key
  let self := { self with pods_labels_map := Dict.set self.pods_labels_map (key, invalid_val) pods }
  self.updateAllLabelValuesPerNs key invalid_val pods

def addUpdatePodsLabelsMapWithInvalidVal : ClusterInfo K :=
  let all_keys := ((Dict.keys self.pods_labels_map).map Prod.fst).dedup.filter
    fun key => key ∈ self.getAllowedLabelsFlattened
  all_keys.foldl addInvalidVal self

/-- The pods that have each of the values for its key. -/
def finalPodSet : List Str → List Str → Finset K
  | key :: keys, val :: vals => vals.zip keys |>.foldl
      (fun pods (val, key) => pods ∩ SetDict.find self.pods_labels_map (key, val))
      (SetDict.find self.pods_labels_map (key, val))
  | _, _ => ∅

/-- One combination of values of a key. -/
def addCombination (key : Str) (elem : List Str) : ClusterInfo K :=
  let final_pod_set := self.finalPodSet (splitKey key) elem
  if final_pod_set = ∅ then self
  else
    let flattened_elem_value := joinValues elem
    let self := { self with
      pods_labels_map := Dict.set self.pods_labels_map (key, flattened_elem_value) final_pod_set }
    self.updateAllLabelValuesPerNs key flattened_elem_value final_pod_set

/-- One key of the loop of `add_update_pods_labels_map_with_required_conjunction_labels`. -/
def addConjunction (key : Str) : ClusterInfo K :=
  (product ((splitKey key).map self.getValuesSetForKey)).foldl (addCombination · key) self

def addUpdatePodsLabelsMapWithRequiredConjunctionLabels : ClusterInfo K :=
  (self.allowed_labels.filter fun k => ':' ∈ k).foldl addConjunction self

/-- The constructor. -/
def init (all_peers : List K) (allowed_labels : List Str) : ClusterInfo K :=
  (all_peers.foldl addPeer
    ⟨all_peers, allowed_labels, [], [], []⟩).addUpdatePodsLabelsMapWithInvalidVal
      |>.addUpdatePodsLabelsMapWithRequiredConjunctionLabels

/-- A map from each simple key of the key to all its values. -/
def getMapOfSimpleKeysToAllValues (key : Str) (ns_set : Finset (Option String)) :
    List (Str × Finset Str) :=
  (splitKey key).foldl (fun map simple_key =>
    Dict.set map simple_key (self.getAllValuesSetForKeyPerNamespace simple_key ns_set)) []

end Tables

section Namespaces

variable {K : Type} [DecidableEq K] [LabeledPeers K] {self : ClusterInfo K} {p : K}
  {ns : Option String}

omit [DecidableEq K] in
theorem mem_allPods : p ∈ self.allPods ↔ p ∈ self.all_peers ∧ is_ip_block p = false := by
  simp [allPods]

/-- What each step of a loop leaves alone the loop leaves alone. -/
theorem foldl_keeps {ι σ τ : Type} {step : σ → ι → σ} (read : σ → τ)
    (each : ∀ s i, read (step s i) = read s) (items : List ι) (s : σ) :
    read (items.foldl step s) = read s := by
  induction items generalizing s with
  | nil => rfl
  | cons i rest ih => rw [List.foldl_cons, ih, each]

/-- The fields that the updates of the labels leave alone. -/
def frame (self : ClusterInfo K) : List K × List Str × List (Option String × Finset K) :=
  (self.all_peers, self.allowed_labels, self.ns_dict)

/-- A pod in the table of namespaces. -/
def addToNamespace (ns_dict : List (Option String × Finset K)) (peer : K) :
    List (Option String × Finset K) :=
  if is_ip_block peer then ns_dict else SetDict.add ns_dict (peer_namespace peer) peer

theorem addPeer_frame (peer : K) : (self.addPeer peer).frame =
    (self.all_peers, self.allowed_labels, addToNamespace self.ns_dict peer) := by
  unfold addPeer addToNamespace
  split
  case isTrue => rfl
  case isFalse =>
    have each : ∀ (self : ClusterInfo K) label, (self.addLabel peer label).frame = self.frame :=
      fun _ _ => rfl
    exact foldl_keeps frame each (labels peer) _

theorem addPeers_frame (peers : List K) (self : ClusterInfo K) : (peers.foldl addPeer self).frame =
    (self.all_peers, self.allowed_labels, peers.foldl addToNamespace self.ns_dict) := by
  induction peers generalizing self with
  | nil => rfl
  | cons peer rest ih =>
    have step := self.addPeer_frame peer
    simp only [frame, Prod.mk.injEq] at step
    rw [List.foldl_cons, ih, List.foldl_cons, step.1, step.2.1, step.2.2]

theorem addCombination_frame (self : ClusterInfo K) (key : Str) (elem : List Str) :
    (self.addCombination key elem).frame = self.frame := by
  unfold addCombination
  dsimp only
  split <;> rfl

theorem init_frame (all_peers : List K) (allowed_labels : List Str) :
    (init all_peers allowed_labels).frame =
      (all_peers, allowed_labels, all_peers.foldl addToNamespace []) := by
  unfold init addUpdatePodsLabelsMapWithRequiredConjunctionLabels
  rw [foldl_keeps frame]
  · have invalid : ∀ (self : ClusterInfo K) key, (self.addInvalidVal key).frame = self.frame :=
      fun _ _ => rfl
    exact (foldl_keeps frame invalid _ _).trans (addPeers_frame all_peers _)
  · intro self key
    exact foldl_keeps frame (fun self elem => addCombination_frame self key elem) _ _

theorem init_all_peers {all_peers : List K} {allowed_labels : List Str} :
    (init all_peers allowed_labels).all_peers = all_peers :=
  congrArg Prod.fst (init_frame all_peers allowed_labels)

theorem init_allowed_labels {all_peers : List K} {allowed_labels : List Str} :
    (init all_peers allowed_labels).allowed_labels = allowed_labels :=
  congrArg (·.2.1) (init_frame all_peers allowed_labels)

/-- The table of namespaces has each pod under its namespace. -/
theorem mem_ns_dict {all_peers : List K} {allowed_labels : List Str} :
    p ∈ SetDict.find (init all_peers allowed_labels).ns_dict ns ↔
      p ∈ (init all_peers allowed_labels).allPods ∧ peer_namespace p = ns := by
  have walk : ∀ (peers : List K) (ns_dict : List (Option String × Finset K)),
      p ∈ SetDict.find (peers.foldl addToNamespace ns_dict) ns ↔ p ∈ SetDict.find ns_dict ns ∨
        p ∈ peers ∧ is_ip_block p = false ∧ peer_namespace p = ns := by
    intro peers
    induction peers with
    | nil => simp
    | cons peer rest ih =>
      intro ns_dict
      rw [List.foldl_cons, ih, List.mem_cons]
      unfold addToNamespace
      split
      case isTrue block =>
        have other : p = peer → is_ip_block p = true := fun same => same ▸ block
        grind
      case isFalse pod =>
        rw [SetDict.mem_find_add]
        grind
  have table : (init all_peers allowed_labels).ns_dict = all_peers.foldl addToNamespace [] :=
    congrArg (·.2.2) (init_frame all_peers allowed_labels)
  rw [table, walk, mem_allPods, init_all_peers, and_assoc]
  simp [SetDict.find, Dict.get]

theorem mem_namespacesOf {pods_set : Finset K} :
    ns ∈ self.namespacesOf pods_set ↔ ∃ p ∈ self.allPods, p ∈ pods_set ∧ peer_namespace p = ns := by
  simp [namespacesOf, and_assoc]

end Namespaces

end ClusterInfo
end Nca.FWRules
