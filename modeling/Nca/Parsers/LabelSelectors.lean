import Nca.Parsers.K8sPolicyYamlParser

/-!
The pods that the selectors of a network policy peer select, compared with the meaning of label
selectors in Kubernetes.
-/

namespace Nca.Parsers
open CoreDS Lib NetworkConfig TopologyPeers K8sPolicyYamlParser

section Selectors

inductive SelectorOperator where
  | In
  | NotIn
  | Exists
  | DoesNotExist
  deriving DecidableEq, Repr

structure Requirement where
  key : String
  operator : SelectorOperator
  values : List String
  deriving DecidableEq, Repr

/-- All requirements of a selector have to hold. -/
structure LabelSelector where
  matchLabels : List (String × String)
  matchExpressions : List Requirement
  deriving DecidableEq, Repr

/-- The requirement holds of labels, given by the values that keys have and by the known keys. -/
def Requirement.Sat (carries : String → String → Prop) (known : String → Prop)
    (requirement : Requirement) : Prop :=
  match requirement.operator with
  | .In => ∃ value ∈ requirement.values, carries requirement.key value
  | .NotIn => ¬ ∃ value ∈ requirement.values, carries requirement.key value
  | .Exists => known requirement.key
  | .DoesNotExist => ¬ known requirement.key

def LabelSelector.Sat (carries : String → String → Prop) (known : String → Prop)
    (selector : LabelSelector) : Prop :=
  (∀ label ∈ selector.matchLabels, carries label.1 label.2) ∧
  ∀ requirement ∈ selector.matchExpressions, requirement.Sat carries known

/-- The selector selects an object that carries the labels. -/
def LabelSelector.Selects (carries : String → String → Prop) (selector : LabelSelector) : Prop :=
  selector.Sat carries fun key => ∃ value, carries key value

/-- Some requirement is about a key alone. -/
def LabelSelector.AsksForKey (selector : LabelSelector) : Prop :=
  ∃ requirement ∈ selector.matchExpressions,
    requirement.operator = .Exists ∨ requirement.operator = .DoesNotExist

end Selectors

section Resources

def operatorOf (operator : String) : SelectorOperator :=
  if operator = "In" then .In
  else if operator = "NotIn" then .NotIn
  else if operator = "Exists" then .Exists
  else .DoesNotExist

def requirementOf (requirement : Yaml) : Requirement where
  key := (requirement.field "key").toStr
  operator := operatorOf (requirement.field "operator").toStr
  values := (requirement.field "values").toList.map Yaml.toStr

/-- The selector that a resource describes. -/
def selectorOf (label_selector : Yaml) : LabelSelector where
  matchLabels := (label_selector.field "matchLabels").toDict.map fun entry => (entry.1, entry.2.toStr)
  matchExpressions := (label_selector.field "matchExpressions").toList.map requirementOf

end Resources

section Topology

variable {E : Type} [TopologyPeers E]

def podCarries (e : E) (key value : String) : Prop :=
  labels e key = some value ∨ extra_labels e key = some value

def namespaceCarries (ns : K8sNamespace) (key value : String) : Prop := ns.labels key = some value

/-- The labels of a namespace as the lookups read them. -/
def readCarries (ns : K8sNamespace) (key value : String) : Prop := (ns.labels key).getD "" = value

theorem hasKey_iff {e : E} {key : String} :
    PeerContainer.hasKey key e = true ↔ ∃ value, podCarries e key value := by
  simp [PeerContainer.hasKey, podCarries, Option.isSome_iff_exists, exists_or]

theorem labelMatches_In {e : E} {key : String} {values : List String} :
    PeerContainer.labelMatches key values .In e = true ↔ ∃ value ∈ values, podCarries e key value := by
  simp only [PeerContainer.labelMatches, filterAction, podCarries, Bool.or_eq_true, Option.any_eq_true,
    decide_eq_true_iff]
  constructor
  · rintro (⟨value, carried, listed⟩ | ⟨value, carried, listed⟩)
    · exact ⟨value, listed, Or.inl carried⟩
    · exact ⟨value, listed, Or.inr carried⟩
  · rintro ⟨value, listed, carried | carried⟩
    · exact Or.inl ⟨value, carried, listed⟩
    · exact Or.inr ⟨value, carried, listed⟩

theorem labelMatches_NotIn {e : E} {key : String} {values : List String} :
    PeerContainer.labelMatches key values .NotIn e = true ↔
      ¬ ∃ value ∈ values, podCarries e key value := by
  rw [← labelMatches_In]
  simp [PeerContainer.labelMatches, filterAction]

theorem namespaceMatches_In {own : K8sNamespace} {key : String} {values : List String} :
    filterAction .In values (some ((own.labels key).getD "")) = true ↔
      ∃ value ∈ values, readCarries own key value := by
  simp [filterAction, readCarries]

theorem namespaceMatches_NotIn {own : K8sNamespace} {key : String} {values : List String} :
    filterAction .NotIn values (some ((own.labels key).getD "")) = true ↔
      ¬ ∃ value ∈ values, readCarries own key value := by
  simp [filterAction, readCarries]

end Topology

section Parsed

variable {E : Type} [TopologyPeers E] {peer_container : PeerContainer E} {ns : K8sNamespace} {e : E}
  {requirement : Yaml} {set : PeerSet E}

theorem checkLabelValue_ok {val : Yaml} {key s : String}
    (checked : checkLabelValueSyntax val key = .ok s) : val = .str s := by
  unfold checkLabelValueSyntax at checked
  cases val with
  | str val =>
    obtain ⟨_, _, checked⟩ := bind_ok.mp checked
    obtain ⟨_, _, checked⟩ := bind_ok.mp checked
    rw [Except.ok.inj checked]
  | _ => cases checked

theorem checkedValues {values : List Yaml} {key : String} {found : List String}
    (checked : (values.mapM fun value => checkLabelValueSyntax value key) = .ok found) :
    values.map Yaml.toStr = found := by
  have each := mapM_ok checked
  clear checked
  induction each with
  | nil => rfl
  | cons first _ ih => rw [List.map_cons, checkLabelValue_ok first, ih, Yaml.toStr]

/-- The lookup that parsing a requirement comes down to. -/
inductive LookedUp (peer_container : PeerContainer E) (ns : K8sNamespace) (namespace_selector : Bool)
    (requirement : Requirement) : PeerSet E → Prop
  | label (action : FilterActionType)
      (operator : requirement.operator = .In ∧ action = .In ∨
        requirement.operator = .NotIn ∧ action = .NotIn) :
      LookedUp peer_container ns namespace_selector requirement
        (if namespace_selector then
          peer_container.getNamespacePodsWithLabel requirement.key requirement.values action
        else peer_container.getPeersWithLabel requirement.key requirement.values action)
  | key (does_not_exist : Bool)
      (operator : requirement.operator = .Exists ∧ does_not_exist = false ∨
        requirement.operator = .DoesNotExist ∧ does_not_exist = true) :
      LookedUp peer_container ns namespace_selector requirement
        (if namespace_selector then
          peer_container.getNamespacePodsWithKey requirement.key does_not_exist
        else peer_container.getPeersWithKey (some ns) requirement.key does_not_exist)

theorem lookedUp {namespace_selector : Bool} (parsed : parseLabelSelectorRequirement peer_container ns
      requirement namespace_selector = .ok set) :
    LookedUp peer_container ns namespace_selector (requirementOf requirement) set := by
  unfold parseLabelSelectorRequirement at parsed
  obtain ⟨_, _, parsed⟩ := bind_ok.mp parsed
  obtain ⟨_, keyRead, parsed⟩ := bind_ok.mp parsed
  obtain ⟨key, keyStr, parsed⟩ := bind_ok.mp parsed
  obtain ⟨_, operatorRead, parsed⟩ := bind_ok.mp parsed
  obtain ⟨operator, operatorStr, parsed⟩ := bind_ok.mp parsed
  obtain ⟨_, _, parsed⟩ := bind_ok.mp parsed
  obtain ⟨values, valuesRead, parsed⟩ := bind_ok.mp parsed
  have keyEq : (requirementOf requirement).key = key := by
    rw [requirementOf, (Yaml.get_ok.mp keyRead).2, Yaml.asStr_ok.mp keyStr, Yaml.toStr]
  have operatorEq : (requirementOf requirement).operator = operatorOf operator := by
    rw [requirementOf, (Yaml.get_ok.mp operatorRead).2, Yaml.asStr_ok.mp operatorStr, Yaml.toStr]
  split at parsed
  · rename_i valued
    obtain ⟨_, _, parsed⟩ := bind_ok.mp parsed
    obtain ⟨items, listed, parsed⟩ := bind_ok.mp parsed
    obtain ⟨found, checked, parsed⟩ := bind_ok.mp parsed
    have valuesEq : (requirementOf requirement).values = found := by
      rw [requirementOf, (Yaml.get_ok.mp valuesRead).2, Yaml.asList_toList listed, checkedValues checked]
    have shape : LookedUp peer_container ns namespace_selector (requirementOf requirement) _ :=
      .label (if operator = "In" then .In else .NotIn) (by
        rw [operatorEq]
        rcases valued with rfl | rfl
        · exact Or.inl ⟨rfl, rfl⟩
        · exact Or.inr ⟨rfl, rfl⟩)
    rw [keyEq, valuesEq] at shape
    cases namespace_selector <;> exact Except.ok.inj parsed ▸ shape
  · split at parsed
    · rename_i asked
      obtain ⟨_, _, parsed⟩ := bind_ok.mp parsed
      have shape : LookedUp peer_container ns namespace_selector (requirementOf requirement) _ :=
        .key (decide (operator = "DoesNotExist")) (by
          rw [operatorEq]
          rcases asked with rfl | rfl
          · exact Or.inl ⟨rfl, rfl⟩
          · exact Or.inr ⟨rfl, rfl⟩)
      rw [keyEq] at shape
      cases namespace_selector <;> exact Except.ok.inj parsed ▸ shape
    · cases parsed

/-- What a pod has to satisfy for a requirement of a podSelector. -/
theorem lookedUp_pod {found : Requirement} (looked : LookedUp peer_container ns false found set) :
    e ∈ set ↔ e ∈ peer_container.peer_set ∧
      found.Sat (podCarries e) (fun key => ∃ value, podCarries e key value) ∧
      ((found.operator = .Exists ∨ found.operator = .DoesNotExist) →
        PeerContainer.considered (some ns) e = true) := by
  cases looked with
  | label action operator =>
    simp only [Bool.false_eq_true, if_false, PeerContainer.mem_peersWithLabel, Requirement.Sat]
    rcases operator with ⟨same, rfl⟩ | ⟨same, rfl⟩
    · simp [same, labelMatches_In]
    · simp [same, labelMatches_NotIn]
  | key does_not_exist operator =>
    simp only [Bool.false_eq_true, if_false, PeerContainer.mem_peersWithKey, Requirement.Sat]
    rcases operator with ⟨same, rfl⟩ | ⟨same, rfl⟩
    · simp [same, hasKey_iff, and_comm]
    · simp [same, ← hasKey_iff, and_comm]

/-- What the namespace of a pod has to satisfy for a requirement of a namespaceSelector. -/
theorem lookedUp_namespace {found : Requirement} {own : K8sNamespace}
    (looked : LookedUp peer_container ns true found set) (inside : peer_namespace e = some own) :
    e ∈ set ↔ e ∈ peer_container.peer_set ∧
      found.Sat (readCarries own) (fun key => ∃ value, namespaceCarries own key value) := by
  cases looked with
  | label action operator =>
    simp only [if_true, PeerContainer.mem_namespacePodsWithLabel inside, Requirement.Sat]
    rcases operator with ⟨same, rfl⟩ | ⟨same, rfl⟩
    · simp only [same, namespaceMatches_In]
    · simp only [same, namespaceMatches_NotIn]
  | key does_not_exist operator =>
    simp only [if_true, PeerContainer.mem_namespacePodsWithKey inside, Requirement.Sat]
    rcases operator with ⟨same, rfl⟩ | ⟨same, rfl⟩
    · simp [same, namespaceCarries, Option.isSome_iff_exists]
    · simp [same, namespaceCarries, Option.eq_none_iff_forall_ne_some]

variable [Fintype E] [DecidableEq E]

omit [Fintype E] in
theorem mem_restricted {namespace_selector : Bool} {sat : Requirement → Prop}
    (looked : ∀ found set, LookedUp peer_container ns namespace_selector found set →
      (e ∈ set ↔ e ∈ peer_container.peer_set ∧ sat found))
    {res next : PeerSet E} (inside : e ∈ res → e ∈ peer_container.peer_set) :
    (∀ entry, restrictToLabel peer_container namespace_selector res entry = .ok next →
      (e ∈ next ↔ e ∈ res ∧ sat ⟨entry.1, .In, [entry.2.toStr]⟩)) ∧
    ∀ requirement, restrictToRequirement peer_container ns namespace_selector res requirement =
      .ok next → (e ∈ next ↔ e ∈ res ∧ sat (requirementOf requirement)) := by
  constructor
  · intro entry run
    obtain ⟨_, _, run⟩ := bind_ok.mp run
    obtain ⟨val, checked, run⟩ := bind_ok.mp run
    have shape : LookedUp peer_container ns namespace_selector ⟨entry.1, .In, [val]⟩ _ :=
      .label .In (Or.inl ⟨rfl, rfl⟩)
    have found := looked _ _ shape
    rw [checkLabelValue_ok checked, Yaml.toStr]
    cases namespace_selector
    · rw [← Except.ok.inj run, Finset.mem_inter]
      tauto
    · rw [← Except.ok.inj run, Finset.mem_inter]
      tauto
  · intro requirement run
    obtain ⟨set, parsed, rfl⟩ := map_ok.mp run
    rw [Finset.mem_inter, looked _ _ (lookedUp parsed)]
    tauto

theorem mem_selector {namespace_selector : Bool} {sat : Requirement → Prop} {label_selector : Yaml}
    (pod : Peers.kind e = .pod) (looked : ∀ found set,
      LookedUp peer_container ns namespace_selector found set →
      (e ∈ set ↔ e ∈ peer_container.peer_set ∧ sat found)) (given : label_selector.isNull = false)
    (parsed : K8sPolicyYamlParser.parseLabelSelector peer_container ns label_selector
      namespace_selector = .ok set) :
    e ∈ set ↔ e ∈ peer_container.peer_set ∧
      (∀ label ∈ (selectorOf label_selector).matchLabels, sat ⟨label.1, .In, [label.2]⟩) ∧
      ∀ requirement ∈ (selectorOf label_selector).matchExpressions, sat requirement := by
  unfold K8sPolicyYamlParser.parseLabelSelector at parsed
  have group : e ∈ peer_container.getAllPeersGroup ↔ e ∈ peer_container.peer_set := by
    simp [PeerContainer.mem_group, pod]
  simp only [given, Bool.false_eq_true, if_false] at parsed
  split at parsed
  · rename_i nothing
    have labels : (selectorOf label_selector).matchLabels = [] := by
      cases label_selector with
      | dict entries =>
        have empty : entries = [] := by simpa [Yaml.truthy] using nothing
        rw [empty]
        rfl
      | _ => rfl
    have expressions : (selectorOf label_selector).matchExpressions = [] := by
      cases label_selector with
      | dict entries =>
        have empty : entries = [] := by simpa [Yaml.truthy] using nothing
        rw [empty]
        rfl
      | _ => rfl
    rw [← Except.ok.inj parsed, group, labels, expressions]
    simp
  · obtain ⟨_, _, parsed⟩ := bind_ok.mp parsed
    obtain ⟨_, labelsRead, parsed⟩ := bind_ok.mp parsed
    obtain ⟨match_labels, labelsDict, parsed⟩ := bind_ok.mp parsed
    obtain ⟨res, labelsFolded, parsed⟩ := bind_ok.mp parsed
    obtain ⟨_, expressionsRead, parsed⟩ := bind_ok.mp parsed
    obtain ⟨match_expressions, expressionsList, parsed⟩ := bind_ok.mp parsed
    have labels : e ∈ res ↔ e ∈ peer_container.peer_set ∧
        ∀ entry ∈ match_labels, sat ⟨entry.1, .In, [entry.2.toStr]⟩ := by
      apply foldlM_ok (fun before acc => e ∈ acc ↔ e ∈ peer_container.peer_set ∧
        ∀ entry ∈ before, sat ⟨entry.1, .In, [entry.2.toStr]⟩) _ _ labelsFolded
      · simp [group]
      · intro before entry acc next holds stepped
        rw [(mem_restricted looked fun inside => (holds.mp inside).1).1 entry stepped, holds,
          List.forall_mem_append, List.forall_mem_singleton, and_assoc]
    have expressions : e ∈ set ↔ e ∈ res ∧
        ∀ requirement ∈ match_expressions, sat (requirementOf requirement) := by
      apply foldlM_ok (fun before acc => e ∈ acc ↔ e ∈ res ∧
        ∀ requirement ∈ before, sat (requirementOf requirement)) _ _ parsed
      · simp
      · intro before requirement acc next holds stepped
        have inside : e ∈ acc → e ∈ peer_container.peer_set := fun member =>
          (labels.mp (holds.mp member).1).1
        rw [(mem_restricted looked inside).2 requirement stepped, holds, List.forall_mem_append,
          List.forall_mem_singleton, and_assoc]
    rw [expressions, labels, selectorOf, (Yaml.get_ok.mp labelsRead).2,
      (Yaml.get_ok.mp expressionsRead).2, Yaml.asDict_toDict labelsDict, Yaml.asList_toList expressionsList,
      List.forall_mem_map, List.forall_mem_map, and_assoc]

/-- A selector of pods looks at the labels of pods, and for keys only in the namespace of the policy. -/
theorem mem_podSelector {label_selector : Yaml} (pod : Peers.kind e = .pod)
    (given : label_selector.isNull = false)
    (parsed : K8sPolicyYamlParser.parseLabelSelector peer_container ns label_selector = .ok set) :
    e ∈ set ↔ e ∈ peer_container.peer_set ∧ (selectorOf label_selector).Selects (podCarries e) ∧
      ((selectorOf label_selector).AsksForKey → PeerContainer.considered (some ns) e = true) := by
  rw [mem_selector pod (fun found set looked => lookedUp_pod looked) given parsed]
  constructor
  · intro ⟨member, labels, requirements⟩
    refine ⟨member, ⟨fun label listed => ?_, fun requirement listed => ?_⟩, ?_⟩
    · simpa [Requirement.Sat] using (labels label listed).1
    · exact (requirements requirement listed).1
    · intro ⟨requirement, listed, asks⟩
      exact (requirements requirement listed).2 asks
  · intro ⟨member, ⟨labels, requirements⟩, scope⟩
    refine ⟨member, fun label listed => ⟨?_, by simp⟩, fun requirement listed => ⟨?_, ?_⟩⟩
    · simpa [Requirement.Sat] using labels label listed
    · exact requirements requirement listed
    · exact fun asks => scope ⟨requirement, listed, asks⟩

/-- A selector of namespaces reads a missing label as an empty one, except for keys alone. -/
theorem mem_namespaceSelector {label_selector : Yaml} {own : K8sNamespace} (pod : Peers.kind e = .pod)
    (inside : peer_namespace e = some own) (given : label_selector.isNull = false)
    (parsed :
      K8sPolicyYamlParser.parseLabelSelector peer_container ns label_selector true = .ok set) :
    e ∈ set ↔ e ∈ peer_container.peer_set ∧ (selectorOf label_selector).Sat (readCarries own)
      fun key => ∃ value, namespaceCarries own key value := by
  rw [mem_selector pod (fun found set looked => lookedUp_namespace looked inside) given parsed]
  simp [LabelSelector.Sat, Requirement.Sat]

end Parsed

section Peers

variable {E : Type} [TopologyPeers E] (peer_container : PeerContainer E) (ns : K8sNamespace)

/-- The namespace satisfies the namespaceSelector; without one it is that of the policy. -/
def NamespaceSelected (ns_selector : Yaml) (own : K8sNamespace) : Prop :=
  if ns_selector.isNull then own.name = ns.name
  else (selectorOf ns_selector).Selects (namespaceCarries own)

/-- The namespace satisfies the namespaceSelector with missing labels taken for empty ones. -/
def NamespaceRead (ns_selector : Yaml) (own : K8sNamespace) : Prop :=
  if ns_selector.isNull then own.name = ns.name
  else (selectorOf ns_selector).Sat (readCarries own) fun key => ∃ value, namespaceCarries own key value

def PodSelected (pod_selector : Yaml) (e : E) : Prop :=
  pod_selector.isNull = false → (selectorOf pod_selector).Selects (podCarries e)

/-- The peer selects the pod, by the meaning of selectors in Kubernetes. -/
def PeerSelects (peer : Yaml) (e : E) : Prop :=
  e ∈ peer_container.peer_set ∧ PodSelected (peer.field "podSelector") e ∧
  ∃ own, peer_namespace e = some own ∧ NamespaceSelected ns (peer.field "namespaceSelector") own

/-- A pod outside the namespace of the policy, which a podSelector with a requirement for a key alone
never finds. -/
def Unfindable (peer : Yaml) (own : K8sNamespace) : Prop :=
  (selectorOf (peer.field "podSelector")).AsksForKey ∧ own.name ≠ ns.name

/-- The pods whose labels satisfy the podSelector are found, and missing labels of their namespaces
do not matter. -/
structure Regular (peer : Yaml) : Prop where
  findable : ∀ e own, Peers.kind e = .pod → e ∈ peer_container.peer_set →
    peer_namespace e = some own → PodSelected (peer.field "podSelector") e →
    Unfindable ns peer own → ¬ NamespaceSelected ns (peer.field "namespaceSelector") own
  read : ∀ e own, Peers.kind e = .pod → e ∈ peer_container.peer_set →
    peer_namespace e = some own → PodSelected (peer.field "podSelector") e →
    ¬ Unfindable ns peer own → (NamespaceRead ns (peer.field "namespaceSelector") own ↔
      NamespaceSelected ns (peer.field "namespaceSelector") own)

variable {peer_container ns} [Fintype E] [DecidableEq E] {e : E} {own : K8sNamespace}
  {set : PeerSet E} {peer : Yaml} {parse_ip_block : Yaml → Except ParseError (PeerSet E)}

theorem mem_namespacePeers {ns_selector : Yaml} (pod : Peers.kind e = .pod)
    (inside : peer_namespace e = some own)
    (parsed : namespacePeers peer_container ns ns_selector = .ok set) :
    e ∈ set ↔ e ∈ peer_container.peer_set ∧ NamespaceRead ns ns_selector own := by
  unfold namespacePeers at parsed
  unfold NamespaceRead
  split at parsed
  · rename_i missing
    rw [← Except.ok.inj parsed, if_pos missing, PeerContainer.mem_namespacePods inside]
  · rename_i given
    rw [if_neg given]
    exact mem_namespaceSelector pod inside (Bool.not_eq_true _ ▸ given) parsed

theorem mem_parsePeer (pod : Peers.kind e = .pod) (inside : peer_namespace e = some own)
    (noBlock : (peer.field "ipBlock").isNull = true)
    (parsed : parsePeer peer_container ns parse_ip_block peer = .ok set) :
    e ∈ set ↔ e ∈ peer_container.peer_set ∧ PodSelected (peer.field "podSelector") e ∧
      NamespaceRead ns (peer.field "namespaceSelector") own ∧ ¬ Unfindable ns peer own := by
  unfold parsePeer at parsed
  obtain ⟨_, _, parsed⟩ := bind_ok.mp parsed
  obtain ⟨pod_selector, podRead, parsed⟩ := bind_ok.mp parsed
  obtain ⟨ns_selector, nsRead, parsed⟩ := bind_ok.mp parsed
  obtain ⟨ip_block, blockRead, parsed⟩ := bind_ok.mp parsed
  obtain ⟨_, _, parsed⟩ := bind_ok.mp parsed
  unfold Unfindable
  rw [(Yaml.get_ok.mp blockRead).2] at noBlock
  rw [(Yaml.get_ok.mp podRead).2, (Yaml.get_ok.mp nsRead).2]
  simp only [noBlock, Bool.not_true, Bool.false_eq_true, if_false] at parsed
  obtain ⟨res, namespaces, parsed⟩ := bind_ok.mp parsed
  have read := mem_namespacePeers pod inside namespaces
  split at parsed
  · rename_i missing
    have nothing : ¬ (selectorOf pod_selector).AsksForKey := by
      cases pod_selector with
      | null => simp [selectorOf, Yaml.field, Yaml.toList, LabelSelector.AsksForKey]
      | _ => cases missing
    rw [← Except.ok.inj parsed, read]
    simp [PodSelected, missing, nothing]
  · rename_i given
    obtain ⟨selected_pods, pods, parsed⟩ := bind_ok.mp parsed
    have isGiven : pod_selector.isNull = false := Bool.not_eq_true _ ▸ given
    rw [← Except.ok.inj parsed, Finset.mem_inter, read, mem_podSelector pod isGiven pods]
    simp only [PodSelected, isGiven, true_implies, PeerContainer.considered, inside, Option.all_some,
      Option.any_some, beq_iff_eq]
    tauto

/-- The parsed peer is the one that the selectors select if and only if all pods whose labels satisfy
the podSelector can be found and the missing labels of their namespaces do not matter. -/
theorem parsePeer_selects_iff (noBlock : (peer.field "ipBlock").isNull = true)
    (parsed : parsePeer peer_container ns parse_ip_block peer = .ok set) :
    (∀ e, Peers.kind e = .pod → (e ∈ set ↔ PeerSelects peer_container ns peer e)) ↔
      Regular peer_container ns peer := by
  have selects : ∀ e own, peer_namespace e = some own → (PeerSelects peer_container ns peer e ↔
      e ∈ peer_container.peer_set ∧ PodSelected (peer.field "podSelector") e ∧
      NamespaceSelected ns (peer.field "namespaceSelector") own) := by
    intro e own inside
    simp [PeerSelects, inside]
  constructor
  · intro exact
    constructor
    · intro e own pod member inside labels unfindable
      have same := exact e pod
      rw [mem_parsePeer pod inside noBlock parsed, selects e own inside] at same
      tauto
    · intro e own pod member inside labels findable
      have same := exact e pod
      rw [mem_parsePeer pod inside noBlock parsed, selects e own inside] at same
      tauto
  · intro regular e pod
    obtain ⟨own, inside⟩ := TopologyPeers.pod_namespace e pod
    rw [mem_parsePeer pod inside noBlock parsed, selects e own inside]
    have findable := regular.findable e own pod
    have read := regular.read e own pod
    tauto

end Peers

section OnePod

/-- The only pod of a topology; its namespace is not that of the policy. -/
inductive LonePod where
  | pod
  deriving DecidableEq, Repr

instance : Fintype LonePod := ⟨{.pod}, by intro e; cases e; decide⟩

def otherNamespace : K8sNamespace := ⟨"other", fun key => if key = "team" then some "a" else none⟩

instance : TopologyPeers LonePod where
  kind _ := .pod
  ipv6 _ := false
  peer_namespace _ := some otherNamespace
  labels _ key := if key = "app" then some "web" else none
  extra_labels _ _ := none
  service_account_name _ := "web"
  is_global_peer _ := false
  pod_namespace _ _ := ⟨otherNamespace, rfl⟩

def lonePods : PeerContainer LonePod := ⟨{.pod}⟩

def defaultNamespace : K8sNamespace := ⟨"default", fun _ => none⟩

def appPeer : Yaml := .dict [("podSelector", .dict [("matchLabels", .dict [("app", .str "web")])]),
  ("namespaceSelector", .dict [("matchLabels", .dict [("team", .str "a")])])]

theorem appPeer_selects_iff : ∃ set, parsePeer lonePods defaultNamespace (fun _ => .ok ∅) appPeer = .ok set ∧
    ((∀ e, Peers.kind e = .pod → (e ∈ set ↔ PeerSelects lonePods defaultNamespace appPeer e)) ↔
      Regular lonePods defaultNamespace appPeer) :=
  ⟨_, rfl, parsePeer_selects_iff rfl
    (show parsePeer lonePods defaultNamespace (fun _ => .ok ∅) appPeer = .ok _ from rfl)⟩

/-- The pod has the key, in a namespace with the label. -/
def keyPeer : Yaml := .dict
  [("podSelector", .dict [("matchExpressions",
      .list [.dict [("key", .str "app"), ("operator", .str "Exists")]])]),
    ("namespaceSelector", .dict [("matchLabels", .dict [("team", .str "a")])])]

/-- The namespace of the pod does not have the label. -/
def emptyPeer : Yaml := .dict [("namespaceSelector", .dict [("matchExpressions",
  .list [.dict [("key", .str "env"), ("operator", .str "NotIn"), ("values", .list [.str ""])]])])]

/-- The peer selects the pod, and what is parsed from it does not have the pod. -/
def Missed (peer : Yaml) : Prop := ∃ set,
  parsePeer lonePods defaultNamespace (fun _ => .ok ∅) peer = .ok set ∧
    PeerSelects lonePods defaultNamespace peer .pod ∧ LonePod.pod ∉ set

theorem lonePod_missed : Missed keyPeer ∧ Missed emptyPeer := by
  constructor
  · have pods : selectorOf (keyPeer.field "podSelector") = ⟨[], [⟨"app", .Exists, []⟩]⟩ := rfl
    have namespaces : selectorOf (keyPeer.field "namespaceSelector") = ⟨[("team", "a")], []⟩ := rfl
    refine ⟨_, rfl, ⟨by decide, ?_, otherNamespace, rfl, ?_⟩, by decide⟩
    · intro _
      rw [pods]
      simp [LabelSelector.Selects, LabelSelector.Sat, Requirement.Sat, podCarries, labels]
    · show LabelSelector.Selects _ _
      rw [namespaces]
      simp [LabelSelector.Selects, LabelSelector.Sat, namespaceCarries, otherNamespace]
  · have namespaces : selectorOf (emptyPeer.field "namespaceSelector") =
        ⟨[], [⟨"env", .NotIn, [""]⟩]⟩ := rfl
    refine ⟨_, rfl, ⟨by decide, ?_, otherNamespace, rfl, ?_⟩, by decide⟩
    · intro given
      cases given
    · show LabelSelector.Selects _ _
      rw [namespaces]
      simp [LabelSelector.Selects, LabelSelector.Sat, Requirement.Sat, namespaceCarries,
        otherNamespace]

end OnePod
end Nca.Parsers
