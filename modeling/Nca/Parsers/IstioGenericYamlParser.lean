import Nca.NetworkConfig.PeerLookups

/-!
What the parsers of Istio resources share: the peers that a resource applies to, by its namespace
and by the labels of its workload selector.
-/

namespace Nca.Parsers
open CoreDS Lib NetworkConfig TopologyPeers

def istio_root_namespace : String := "istio-config"

namespace IstioGenericYamlParser

section

variable {E : Type} [TopologyPeers E]

/-- `get_peers_with_label(key, [val])` with any value; a peer without the label has the value null. -/
def getPeersWithValue (peer_container : PeerContainer E) (key : String) (val : Yaml) : PeerSet E :=
  match val with
  | .str s => peer_container.getPeersWithLabel key [s]
  | .null => peer_container.peer_set.filter fun peer =>
      (labels peer key).isNone || (extra_labels peer key).isNone
  | _ => ∅

variable [Fintype E] [DecidableEq E] (peer_container : PeerContainer E)

def parseWorkloadSelector (workload_selector : Yaml) (element_key : String) :
    Except ParseError (PeerSet E) := do
  if !workload_selector.truthy then return peer_container.getAllPeersGroup
  checkFieldsValidity workload_selector "Istio policy WorkloadSelector"
    [(element_key, ⟨1, some .dict⟩)]
  let match_labels ← workload_selector.get element_key
  syntaxErrorIf (!match_labels.truthy)
    "One or more labels that indicate a specific set of pods are required."
  return (← match_labels.items).foldl
    (fun res entry => res ∩ getPeersWithValue peer_container entry.1 entry.2)
    peer_container.getAllPeersGroup

/-- The namespace is given by its name. -/
def updatePolicyPeers (ns : String) (workload_selector : Yaml) (dict_key : String) :
    Except ParseError (PeerSet E) := do
  let selected_peers ← (if workload_selector.isNull then pure (peer_container.getPeersGroup false)
    else parseWorkloadSelector peer_container workload_selector dict_key)
  if ns ≠ istio_root_namespace then
    return selected_peers ∩ peer_container.getNamespacePods (some ⟨ns, fun _ => none⟩)
  else return selected_peers

end

section Selected

variable {E : Type} [TopologyPeers E] {peer_container : PeerContainer E} {e : E} {ns : String}

/-- The peer has the label with the value. -/
def CarriesValue (e : E) (key : String) : Yaml → Prop
  | .str s => labels e key = some s ∨ extra_labels e key = some s
  | .null => labels e key = none ∨ extra_labels e key = none
  | _ => False

/-- The peer has all labels that the selector lists. -/
def CarriesLabels (e : E) (workload_selector : Yaml) (element_key : String) : Prop :=
  ∀ entry ∈ (workload_selector.field element_key).toDict, CarriesValue e entry.1 entry.2

def InNamespace (e : E) (ns : String) : Prop :=
  ∃ own, peer_namespace e = some own ∧ own.name = ns

theorem mem_peersWithValue {key : String} {val : Yaml} :
    e ∈ getPeersWithValue peer_container key val ↔
      e ∈ peer_container.peer_set ∧ CarriesValue e key val := by
  cases val with
  | str s =>
    show e ∈ peer_container.getPeersWithLabel key [s] ↔ _
    rw [PeerContainer.mem_peersWithLabel]
    apply and_congr_right
    intro _
    show (filterAction .In [s] (labels e key) || filterAction .In [s] (extra_labels e key)) = true ↔ _
    simp [filterAction, CarriesValue, Option.any_eq_true]
  | null =>
    show e ∈ peer_container.peer_set.filter _ ↔ _
    rw [Finset.mem_filter]
    simp [CarriesValue]
  | _ => simp [getPeersWithValue, CarriesValue]

variable [Fintype E] [DecidableEq E]

theorem mem_namespacePods_named : e ∈ peer_container.getNamespacePods (some ⟨ns, fun _ => none⟩) ↔
    e ∈ peer_container.peer_set ∧ InNamespace e ns := by
  rw [PeerContainer.getNamespacePods, Finset.mem_filter]
  apply and_congr_right
  intro _
  unfold PeerContainer.considered InNamespace
  cases peer_namespace e <;> simp

theorem parseWorkloadSelector_ok {workload_selector : Yaml} {element_key : String} {res : PeerSet E}
    (dict : ∃ entries, workload_selector = .dict entries)
    (parsed : parseWorkloadSelector peer_container workload_selector element_key = .ok res) :
    e ∈ res ↔ e ∈ peer_container.getAllPeersGroup ∧ CarriesLabels e workload_selector element_key := by
  obtain ⟨entries, rfl⟩ := dict
  unfold parseWorkloadSelector at parsed
  split at parsed
  case isTrue empty =>
    obtain rfl := Except.ok.inj parsed
    have none_left : entries = [] := by simpa [Yaml.truthy] using empty
    subst none_left
    simp [CarriesLabels, Yaml.field, Dict.get, Yaml.toDict]
  case isFalse =>
    obtain ⟨_, _, parsed⟩ := bind_ok.mp parsed
    obtain ⟨match_labels, found, parsed⟩ := bind_ok.mp parsed
    obtain ⟨_, _, parsed⟩ := bind_ok.mp parsed
    obtain ⟨pairs, listed, parsed⟩ := bind_ok.mp parsed
    obtain rfl := Except.ok.inj parsed
    have field : (Yaml.dict entries).field element_key = match_labels := (Yaml.get_ok.mp found).2
    have all_pairs : match_labels.toDict = pairs := by
      cases match_labels with
      | dict => exact Except.ok.inj listed
      | _ => cases listed
    unfold CarriesLabels
    rw [field, all_pairs]
    have walk : ∀ (rest : List (String × Yaml)) (acc : PeerSet E),
        acc ⊆ peer_container.peer_set →
        (e ∈ rest.foldl (fun res entry => res ∩ getPeersWithValue peer_container entry.1 entry.2)
          acc ↔ e ∈ acc ∧ ∀ entry ∈ rest, CarriesValue e entry.1 entry.2) := by
      intro rest
      induction rest with
      | nil => simp
      | cons entry rest ih =>
        intro acc placed
        rw [List.foldl_cons, ih _ (Finset.inter_subset_left.trans placed), Finset.mem_inter,
          mem_peersWithValue, List.forall_mem_cons, and_assoc, and_assoc]
        apply and_congr_right
        intro member
        rw [and_iff_right (placed member)]
    exact walk pairs _ fun peer member => (PeerContainer.mem_group.mp member).1

/-- What a resource with a workload selector applies to, and what one without applies to. -/
def Applies (ns : String) (workload_selector : Yaml) (dict_key : String) (e : E) : Prop :=
  (workload_selector = .null → is_global_peer e = false) ∧
    CarriesLabels e workload_selector dict_key ∧ (ns ≠ istio_root_namespace → InNamespace e ns)

theorem updatePolicyPeers_ok {workload_selector : Yaml} {dict_key : String} {res : PeerSet E}
    (dict : workload_selector = .null ∨ ∃ entries, workload_selector = .dict entries)
    (parsed : updatePolicyPeers peer_container ns workload_selector dict_key = .ok res) :
    e ∈ res ↔ e ∈ peer_container.peer_set ∧ Peers.kind e ≠ .dnsEntry ∧
      Applies ns workload_selector dict_key e := by
  unfold updatePolicyPeers at parsed
  obtain ⟨selected_peers, selected, parsed⟩ := bind_ok.mp parsed
  have mem_selected : e ∈ selected_peers ↔ e ∈ peer_container.getAllPeersGroup ∧
      (workload_selector = .null → is_global_peer e = false) ∧
        CarriesLabels e workload_selector dict_key := by
    rcases dict with rfl | dict
    · obtain rfl := Except.ok.inj selected
      rw [PeerContainer.getPeersGroup, Finset.mem_filter]
      simp [CarriesLabels, Yaml.field, Yaml.toDict]
    · have given : workload_selector ≠ .null := by
        obtain ⟨entries, rfl⟩ := dict
        intro same
        cases same
      rw [if_neg (fun null => given (Yaml.isNull_iff.mp null))] at selected
      rw [parseWorkloadSelector_ok dict selected, and_iff_right (fun same => absurd same given)]
  unfold Applies
  rw [PeerContainer.mem_group] at mem_selected
  split at parsed
  case isTrue named =>
    obtain rfl := Except.ok.inj parsed
    rw [Finset.mem_inter, mem_selected, mem_namespacePods_named]
    constructor
    · rintro ⟨⟨⟨placed, kind⟩, global, carried⟩, _, inside⟩
      exact ⟨placed, kind, global, carried, fun _ => inside⟩
    · rintro ⟨placed, kind, global, carried, inside⟩
      exact ⟨⟨⟨placed, kind⟩, global, carried⟩, placed, inside named⟩
  case isFalse root =>
    obtain rfl := Except.ok.inj parsed
    rw [mem_selected, and_assoc]
    apply and_congr_right
    intro _
    apply and_congr_right
    intro _
    apply and_congr_right
    intro _
    exact (and_iff_left (fun named => absurd named root)).symm

end Selected
end IstioGenericYamlParser
end Nca.Parsers
