import Nca.NetworkConfig.PeerContainer
import Nca.Parsers.GenericYamlParser

/-!
The lookups of the peer container: peers by their labels, by the labels of their namespaces, by
their namespace and by their service account.
-/

namespace Nca.NetworkConfig
open CoreDS Parsers

/-- A namespace; namespaces are compared by their names. -/
structure K8sNamespace where
  name : String
  labels : String → Option String

/-- Peers of a topology. Extra labels come from Calico profiles; a pod has a namespace. -/
class TopologyPeers (E : Type) extends Peers E where
  peer_namespace : E → Option K8sNamespace
  labels : E → String → Option String
  extra_labels : E → String → Option String
  service_account_name : E → String
  is_global_peer : E → Bool
  pod_namespace : ∀ e, kind e = .pod → ∃ ns, peer_namespace e = some ns

open TopologyPeers

/-- One pod of the namespace `default`, and peers of the other kinds without labels. -/
instance : TopologyPeers PeerKind where
  toPeers := inferInstance
  peer_namespace
    | .pod => some ⟨"default", fun _ => none⟩
    | _ => none
  labels _ _ := none
  extra_labels _ _ := none
  service_account_name _ := "default"
  is_global_peer kind := kind == .hostEP
  pod_namespace := by
    intro kind pod
    obtain rfl : kind = .pod := pod
    exact ⟨_, rfl⟩

/-- The test of one label that an action makes; a missing label has the default value, if any. -/
def filterAction (action : FilterActionType) (values : List String) (label : Option String) : Bool :=
  match action with
  | .In => label.any fun value => decide (value ∈ values)
  | .NotIn => !label.any fun value => decide (value ∈ values)
  | .Contain => decide ((values.headD "").toList <:+: (label.getD "").toList)
  | .StartWith => decide ((values.headD "").toList <+: (label.getD "").toList)
  | .EndWith => decide ((values.headD "").toList <:+ (label.getD "").toList)

namespace PeerContainer

variable {E : Type} [TopologyPeers E]

/-- `namespace is None or peer.namespace == namespace`. -/
def considered (ns : Option K8sNamespace) (peer : E) : Bool :=
  ns.all fun ns => (peer_namespace peer).any fun own => own.name == ns.name

/-- A value that is not to be in the list must be in neither dictionary of labels. -/
def labelMatches (key : String) (values : List String) (action : FilterActionType) (peer : E) : Bool :=
  match action with
  | .NotIn => filterAction .NotIn values (labels peer key) &&
      filterAction .NotIn values (extra_labels peer key)
  | action => filterAction action values (labels peer key) ||
      filterAction action values (extra_labels peer key)

def hasKey (key : String) (peer : E) : Bool :=
  (labels peer key).isSome || (extra_labels peer key).isSome

variable (self : PeerContainer E)

def getPeersWithLabel (key : String) (values : List String) (action : FilterActionType := .In)
    (ns : Option K8sNamespace := none) : PeerSet E :=
  self.peer_set.filter fun peer => considered ns peer && labelMatches key values action peer

def getPeersWithKey (ns : Option K8sNamespace) (key : String) (does_not_exist : Bool) : PeerSet E :=
  self.peer_set.filter fun peer => considered ns peer && (hasKey key peer ^^ does_not_exist)

/-- The labels of namespaces are read with the empty value where they are missing. -/
def getNamespacePodsWithLabel (key : String) (values : List String)
    (action : FilterActionType := .In) : PeerSet E :=
  self.peer_set.filter fun peer => (peer_namespace peer).any fun ns =>
    filterAction action values (some ((ns.labels key).getD ""))

def getNamespacePodsWithKey (key : String) (does_not_exist : Bool) : PeerSet E :=
  self.peer_set.filter fun peer => (peer_namespace peer).any fun ns =>
    (ns.labels key).isSome ^^ does_not_exist

def getNamespacePods [Fintype E] [DecidableEq E] (ns : Option K8sNamespace) : PeerSet E :=
  match ns with
  | none => self.getAllPeersGroup
  | some ns => self.peer_set.filter fun peer => considered (some ns) peer

/-- `get_all_peers_group(include_globals=include_globals)` -/
def getPeersGroup [Fintype E] [DecidableEq E] (include_globals : Bool) : PeerSet E :=
  self.getAllPeersGroup.filter fun peer => include_globals || !is_global_peer peer

def getAllGlobalPeers : PeerSet E := self.peer_set.filter fun peer => is_global_peer peer

def getPodsWithServiceAccountName (sa_name namespace_str : String) : PeerSet E :=
  self.peer_set.filter fun peer => decide (Peers.kind peer = .pod) &&
    (service_account_name peer == sa_name &&
      (peer_namespace peer).any fun ns => ns.name == namespace_str)

section Membership

variable {self} {e : E} {key : String} {values : List String} {action : FilterActionType}
  {does_not_exist : Bool}

theorem mem_peersWithLabel : e ∈ self.getPeersWithLabel key values action ↔
    e ∈ self.peer_set ∧ labelMatches key values action e = true := by
  simp [getPeersWithLabel, considered]

theorem mem_peersWithKey {ns : Option K8sNamespace} :
    e ∈ self.getPeersWithKey ns key does_not_exist ↔
      e ∈ self.peer_set ∧ considered ns e = true ∧ (hasKey key e ^^ does_not_exist) = true := by
  simp [getPeersWithKey]

theorem mem_namespacePodsWithLabel {ns : K8sNamespace} (own : peer_namespace e = some ns) :
    e ∈ self.getNamespacePodsWithLabel key values action ↔
      e ∈ self.peer_set ∧ filterAction action values (some ((ns.labels key).getD "")) = true := by
  simp [getNamespacePodsWithLabel, own]

theorem mem_namespacePodsWithKey {ns : K8sNamespace} (own : peer_namespace e = some ns) :
    e ∈ self.getNamespacePodsWithKey key does_not_exist ↔
      e ∈ self.peer_set ∧ ((ns.labels key).isSome ^^ does_not_exist) = true := by
  simp [getNamespacePodsWithKey, own]

theorem mem_namespacePods [Fintype E] [DecidableEq E] {ns own : K8sNamespace}
    (inside : peer_namespace e = some own) :
    e ∈ self.getNamespacePods (some ns) ↔ e ∈ self.peer_set ∧ own.name = ns.name := by
  rw [getNamespacePods, Finset.mem_filter]
  simp [considered, inside]

end Membership

end PeerContainer
end Nca.NetworkConfig
