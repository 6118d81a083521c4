import Nca.NetworkConfig.NetworkConfig
import Nca.NetworkConfig.K8sCalicoSemantics
import Mathlib.Order.WithBot

/-!
Appending policies to configurations. The layers hold the policies of the map, each in its layer,
in whatever order insertion has left them.
-/

namespace Nca.NetworkConfig
open CoreDS Lib Resources

variable {P E κ : Type} [Peers E] [ConnectivityProperties P E κ] {policy : Policy P}

/-- The layer that the policy belongs to. -/
def layerOf (policy : Policy P) : Option NetworkLayerName :=
  NetworkLayerName.policyTypeToLayer policy.base.policy_kind

/-- The policies of a layer; a layer that is missing has none. -/
def PoliciesContainer.layerPolicies (self : PoliciesContainer P) (layer : NetworkLayerName) :
    List (Policy P) :=
  (Dict.get self.layers layer).getD []

def NetworkConfig.layerPolicies (self : NetworkConfig P) (layer : NetworkLayerName) :
    List (Policy P) :=
  self.policies_container.layerPolicies layer

theorem insort_nil : Python.insort Policy.lt [] policy = [policy] := rfl

theorem insort_ne_nil (policies_list : List (Policy P)) :
    Python.insort Policy.lt policies_list policy ≠ [] := by
  intro empty
  have member : policy ∈ Python.insort Policy.lt policies_list policy :=
    Python.mem_insort.mpr (Or.inl rfl)
  rw [empty] at member
  cases member

/-- The layers after the insertion itself. -/
def written (layers : NetworkLayersContainer P) (layer_name : NetworkLayerName)
    (policy : Policy P) : NetworkLayersContainer P :=
  Dict.set layers layer_name
    (Python.insort Policy.lt ((Dict.get layers layer_name).getD []) policy)

theorem addPolicy_cases (layers : NetworkLayersContainer P) (layer_name : NetworkLayerName)
    (policy : Policy P) :
    (Dict.get (written layers layer_name policy) NetworkLayersContainer.default_layer = some [] ∧
      layers.addPolicy policy (some layer_name) = (written layers layer_name policy).filter
        fun entry => decide (entry.1 ≠ NetworkLayersContainer.default_layer)) ∨
    (Dict.get (written layers layer_name policy) NetworkLayersContainer.default_layer ≠ some [] ∧
      layers.addPolicy policy (some layer_name) = written layers layer_name policy) := by
  by_cases empty : Dict.get (written layers layer_name policy) NetworkLayersContainer.default_layer = some []
  · refine Or.inl ⟨empty, ?_⟩
    cases found : Dict.get layers layer_name <;>
      simp only [NetworkLayersContainer.addPolicy, written, found, Option.getD, insort_nil] at empty ⊢ <;>
      rw [empty]
  · refine Or.inr ⟨empty, ?_⟩
    cases found : Dict.get layers layer_name <;>
      simp only [NetworkLayersContainer.addPolicy, written, found, Option.getD, insort_nil] at empty ⊢ <;>
      split <;> first | rfl | exact (empty ‹_›).elim

theorem get_addPolicy (layers : NetworkLayersContainer P) (layer_name : Option NetworkLayerName)
    (layer : NetworkLayerName) :
    (Dict.get (layers.addPolicy policy layer_name) layer).getD [] =
      if layer_name = some layer then
        Python.insort Policy.lt ((Dict.get layers layer).getD []) policy
      else (Dict.get layers layer).getD [] := by
  cases layer_name with
  | none => rfl
  | some layer_name =>
    have kept : (Dict.get (written layers layer_name policy) layer).getD [] =
        if some layer_name = some layer then
          Python.insort Policy.lt ((Dict.get layers layer).getD []) policy
        else (Dict.get layers layer).getD [] := by
      rw [written, Dict.get_set]
      by_cases same : layer_name = layer
      · subst same
        simp
      · simp [same]
    rw [← kept]
    obtain ⟨empty, deleted⟩ | ⟨_, same⟩ := addPolicy_cases layers layer_name policy
    · rw [deleted]
      by_cases default : layer = NetworkLayersContainer.default_layer
      · rw [default, empty, Dict.get_filter_eq]
        rfl
      · rw [Dict.get_filter_ne _ default]
    · rw [same]

theorem addPolicy_entries {layers : NetworkLayersContainer P} (layer_name : NetworkLayerName)
    (policy : Policy P)
    (unique : (Dict.keys layers).Nodup)
    (idle : ∀ entry ∈ layers, entry.2 = [] → entry.1 = NetworkLayersContainer.default_layer) :
    (Dict.keys (layers.addPolicy policy (some layer_name))).Nodup ∧
      ∀ entry ∈ layers.addPolicy policy (some layer_name), entry.2 ≠ [] := by
  have unique' : (Dict.keys (written layers layer_name policy)).Nodup :=
    Dict.nodup_keys_set unique layer_name _
  have idle' : ∀ entry ∈ written layers layer_name policy, entry.2 = [] →
      entry.1 = NetworkLayersContainer.default_layer ∧ Dict.get (written layers layer_name policy)
        NetworkLayersContainer.default_layer = some [] := by
    intro entry member empty
    have default : entry.1 = NetworkLayersContainer.default_layer := by
      rcases Dict.mem_set member with old | rfl
      · exact idle entry old empty
      · exact (insort_ne_nil _ empty).elim
    refine ⟨default, Dict.get_of_mem unique' ?_⟩
    rw [← default, ← empty]
    exact member
  obtain ⟨_, deleted⟩ | ⟨busy, same⟩ := addPolicy_cases layers layer_name policy
  · rw [deleted]
    refine ⟨unique'.sublist (List.filter_sublist.map _), fun entry member empty => ?_⟩
    obtain ⟨inside, other⟩ := List.mem_filter.mp member
    exact of_decide_eq_true other (idle' entry inside empty).1
  · rw [same]
    exact ⟨unique', fun entry member empty => busy (idle' entry member empty).2⟩

theorem addPolicy_flatMap {layers : NetworkLayersContainer P} (layer_name : NetworkLayerName)
    (policy : Policy P) (unique : (Dict.keys layers).Nodup) :
    ((layers.addPolicy policy (some layer_name)).flatMap Prod.snd).Perm
      (policy :: layers.flatMap Prod.snd) := by
  have added : ((written layers layer_name policy).flatMap Prod.snd).Perm
      (policy :: layers.flatMap Prod.snd) :=
    Dict.flatMap_set layers layer_name (Python.insort_perm _ _ _)
  obtain ⟨empty, deleted⟩ | ⟨_, same⟩ := addPolicy_cases layers layer_name policy
  · have kept : ((written layers layer_name policy).filter fun entry =>
        decide (entry.1 ≠ NetworkLayersContainer.default_layer)).flatMap Prod.snd =
        (written layers layer_name policy).flatMap Prod.snd := by
      have unique' : (Dict.keys (written layers layer_name policy)).Nodup :=
        Dict.nodup_keys_set unique layer_name _
      generalize written layers layer_name policy = d at empty unique'
      induction d with
      | nil => rfl
      | cons entry rest ih =>
        rw [Dict.keys, List.map_cons, List.nodup_cons] at unique'
        rw [Dict.get] at empty
        by_cases default : entry.1 = NetworkLayersContainer.default_layer
        · -- the other keys differ from the default layer
          rw [if_pos default, Option.some_inj] at empty
          have others : rest.filter (fun entry =>
              decide (entry.1 ≠ NetworkLayersContainer.default_layer)) = rest := by
            refine List.filter_eq_self.mpr fun other member => decide_eq_true fun same => ?_
            exact unique'.1 (default.trans same.symm ▸ List.mem_map_of_mem member)
          rw [List.filter_cons_of_neg (by simpa using default), others, List.flatMap_cons, empty]
          rfl
        · rw [if_neg default] at empty
          rw [List.filter_cons_of_pos (by simpa using default), List.flatMap_cons,
            List.flatMap_cons, ih empty unique'.2]
    rw [deleted, kept]
    exact added
  · rw [same]
    exact added

theorem appendPolicy_layerPolicies (self : PoliciesContainer P) (layer : NetworkLayerName) :
    (self.appendPolicy policy).layerPolicies layer =
      if (Dict.get self.policies (PoliciesContainer.key policy)).isNone = true ∧
        layerOf policy = some layer
      then Python.insort Policy.lt (self.layerPolicies layer) policy
      else self.layerPolicies layer := by
  unfold PoliciesContainer.layerPolicies PoliciesContainer.appendPolicy
  cases Dict.get self.policies (PoliciesContainer.key policy) with
  | some old => simp
  | none => simp [get_addPolicy, layerOf]

theorem layerPolicies_append (self : NetworkConfig P) (layer : NetworkLayerName) :
    (self.appendPolicyToConfig policy).layerPolicies layer =
      if (Dict.get self.policies_container.policies (PoliciesContainer.key policy)).isNone = true ∧
        layerOf policy = some layer
      then Python.insort Policy.lt (self.layerPolicies layer) policy
      else self.layerPolicies layer :=
  appendPolicy_layerPolicies self.policies_container layer

theorem cloneWithoutPolicy_eq [Fintype E] [DecidableEq E] (self : NetworkConfig P)
    (policy_to_exclude : Policy P) :
    self.cloneWithoutPolicy policy_to_exclude =
      ((self.policies_container.policies.filter
        fun entry => !entry.2.eq policy_to_exclude).map Prod.snd).foldl
        NetworkConfig.appendPolicyToConfig self.cloneWithoutPolicies := by
  rw [NetworkConfig.cloneWithoutPolicy, List.foldl_map, List.foldl_filter]

section Invariant

theorem layerOf_isSome (policy : Policy P) : ∃ layer, layerOf policy = some layer := by
  cases policy with
  | k8s p | istio p | sidecar p =>
    simp [layerOf, Policy.base, p.kind, NetworkLayerName.policyTypeToLayer]
  | calico p =>
    have kind := p.kind
    simp only [List.mem_cons, List.not_mem_nil, or_false] at kind
    rcases kind with kind | kind | kind <;>
      simp [layerOf, Policy.base, kind, NetworkLayerName.policyTypeToLayer]
  | gateway p =>
    have kind := p.kind
    simp only [List.mem_cons, List.not_mem_nil, or_false] at kind
    rcases kind with kind | kind <;>
      simp [layerOf, Policy.base, kind, NetworkLayerName.policyTypeToLayer]

/-- The order of a policy; a missing order is infinite. -/
def orderKey (policy : Policy P) : WithTop ℚ :=
  match policy.getOrder with
  | some order => order
  | none => ⊤

theorem lt_k8sCalico {p q : Policy P} (layer : IsK8sCalico p) :
    p.lt q = decide (orderKey p < orderKey q) := by
  have byOrder : p.lt q = p.orderLt q := by
    obtain ⟨p, rfl⟩ | ⟨p, rfl⟩ := k8sCalico_cases layer <;> rfl
  rw [byOrder]
  unfold Policy.orderLt orderKey
  cases p.getOrder with
  | none => simp
  | some a => cases q.getOrder <;> simp

/-- What appending policies makes of a container. -/
structure WellPlaced (container : PoliciesContainer P) (appended : List (Policy P)) : Prop where
  keys : ∀ entry ∈ container.policies, entry.1 = PoliciesContainer.key entry.2
  unique : (Dict.keys container.policies).Nodup
  inOrder : (container.policies.map Prod.snd).Sublist appended
  complete : ∀ policy ∈ appended, PoliciesContainer.key policy ∈ Dict.keys container.policies
  once : (container.layers.flatMap Prod.snd).Perm (container.policies.map Prod.snd)
  oneLayer : (Dict.keys container.layers).Nodup
  own : ∀ entry ∈ container.layers, ∀ policy ∈ entry.2, layerOf policy = some entry.1
  occupied : (container.policies = [] ∧ container.layers = [(.K8s_Calico, [])]) ∨
    ∀ entry ∈ container.layers, entry.2 ≠ []
  sorted : (container.layerPolicies .K8s_Calico).Pairwise fun p q => orderKey p ≤ orderKey q
  stable : ∀ order, (container.layerPolicies .K8s_Calico).filter (fun p => decide (orderKey p = order)) =
    (container.policies.map Prod.snd).filter
      fun p => decide (layerOf p = some .K8s_Calico ∧ orderKey p = order)

variable {self : PoliciesContainer P} {appended : List (Policy P)}

theorem init_wellPlaced : WellPlaced (PoliciesContainer.init : PoliciesContainer P) [] where
  keys := List.forall_mem_nil _
  unique := List.nodup_nil
  inOrder := List.Sublist.refl []
  complete := List.forall_mem_nil _
  once := List.Perm.refl []
  oneLayer := List.nodup_singleton _
  own := by simp [PoliciesContainer.init, NetworkLayersContainer.init]
  occupied := Or.inl ⟨rfl, rfl⟩
  sorted := List.Pairwise.nil
  stable := fun _ => rfl

theorem append_known (placed : WellPlaced self appended)
    (known : (Dict.get self.policies (PoliciesContainer.key policy)).isSome = true) :
    WellPlaced (self.appendPolicy policy) (appended ++ [policy]) := by
  have same : self.appendPolicy policy = self := if_pos known
  rw [same]
  refine { placed with
    inOrder := placed.inOrder.trans (List.sublist_append_left _ _)
    complete := fun p member => ?_ }
  rcases List.mem_append.mp member with old | new
  · exact placed.complete p old
  · rw [List.mem_singleton.mp new]
    exact Dict.get_isSome.mp known

theorem WellPlaced.mem_layer (placed : WellPlaced self appended) {layer : NetworkLayerName}
    {p : Policy P} (member : p ∈ self.layerPolicies layer) : layerOf p = some layer := by
  unfold PoliciesContainer.layerPolicies at member
  cases found : Dict.get self.layers layer with
  | none => simp [found] at member
  | some policies_list =>
    rw [found] at member
    exact placed.own (layer, policies_list) (Dict.get_mem found) p member

/-- Insertion into the K8s_Calico layer keeps it sorted by order, and puts the policy behind those of
its own order. -/
theorem insort_k8sCalico {policies_list : List (Policy P)} (layer : IsK8sCalico policy)
    (sorted : policies_list.Pairwise fun p q => orderKey p ≤ orderKey q) :
    ((Python.insort Policy.lt policies_list policy).Pairwise fun p q => orderKey p ≤ orderKey q) ∧
      ∀ order, (Python.insort Policy.lt policies_list policy).filter
          (fun p => decide (orderKey p = order)) =
        policies_list.filter (fun p => decide (orderKey p = order)) ++
          [policy].filter fun p => decide (orderKey p = order) := by
  obtain ⟨before, after, rfl, whole, low, high⟩ := Python.insort_sorted orderKey
    (fun _ _ => lt_k8sCalico layer) sorted
  obtain ⟨first, second, across⟩ := List.pairwise_append.mp sorted
  rw [whole]
  refine ⟨List.pairwise_append.mpr ⟨first, ?_, fun p left q right => ?_⟩, fun order => ?_⟩
  · exact List.pairwise_cons.mpr ⟨fun q member => le_of_lt (high q member), second⟩
  · rcases List.mem_cons.mp right with rfl | right
    · exact low p left
    · exact across p left q right
  · by_cases same : orderKey policy = order
    · have none : after.filter (fun p => decide (orderKey p = order)) = [] := by
        refine List.filter_eq_nil_iff.mpr fun q member other => ?_
        exact absurd (same.trans (of_decide_eq_true other).symm) (ne_of_lt (high q member))
      simp [same, none]
    · simp [same]

theorem append_new (placed : WellPlaced self appended)
    (new : Dict.get self.policies (PoliciesContainer.key policy) = none) :
    WellPlaced (self.appendPolicy policy) (appended ++ [policy]) := by
  obtain ⟨layer, belongs⟩ := layerOf_isSome policy
  have fresh : PoliciesContainer.key policy ∉ Dict.keys self.policies := by
    rw [← Dict.get_isSome, new]
    exact Bool.false_ne_true
  have apart : ∀ e ∈ self.policies, e.1 ≠ PoliciesContainer.key policy :=
    fun e member same => fresh (same ▸ List.mem_map_of_mem member)
  have policies : (self.appendPolicy policy).policies =
      self.policies ++ [(PoliciesContainer.key policy, policy)] := by
    rw [PoliciesContainer.appendPolicy, if_neg (by simp [new]), Dict.set_fresh policy apart]
  have layers : (self.appendPolicy policy).layers = self.layers.addPolicy policy (some layer) := by
    rw [PoliciesContainer.appendPolicy, if_neg (by simp [new]), ← belongs, layerOf]
  have idle : ∀ entry ∈ self.layers, entry.2 = [] →
      entry.1 = NetworkLayersContainer.default_layer := by
    intro entry member empty
    obtain ⟨_, sole⟩ | busy := placed.occupied
    · rw [sole, List.mem_singleton] at member
      rw [member]
      rfl
    · exact (busy entry member empty).elim
  obtain ⟨oneLayer, occupied⟩ := addPolicy_entries layer policy placed.oneLayer idle
  have values : (self.appendPolicy policy).policies.map Prod.snd =
      self.policies.map Prod.snd ++ [policy] := by
    rw [policies, List.map_append]
    rfl
  have keys : Dict.keys (self.appendPolicy policy).policies =
      Dict.keys self.policies ++ [PoliciesContainer.key policy] := by
    rw [policies, Dict.keys, List.map_append]
    rfl
  refine ⟨?_, ?_, ?_, ?_, ?_, ?_, ?_, Or.inr ?_, ?_, ?_⟩
  · intro entry member
    rw [policies] at member
    rcases List.mem_append.mp member with old | last
    · exact placed.keys entry old
    · rw [List.mem_singleton.mp last]
  · rw [keys]
    exact List.nodup_append.mpr ⟨placed.unique, List.nodup_singleton _, fun a old b last same =>
      fresh (List.mem_singleton.mp last ▸ same ▸ old)⟩
  · rw [values]
    exact placed.inOrder.append (List.Sublist.refl _)
  · intro p member
    rw [keys]
    rcases List.mem_append.mp member with old | last
    · exact List.mem_append_left _ (placed.complete p old)
    · rw [List.mem_singleton.mp last]
      exact List.mem_append_right _ (List.mem_singleton_self _)
  · rw [layers, values]
    exact (addPolicy_flatMap layer policy placed.oneLayer).trans
      ((placed.once.cons policy).trans (List.perm_append_singleton _ _).symm)
  · rw [layers]
    exact oneLayer
  · intro entry member p inside
    have found : (self.appendPolicy policy).layerPolicies entry.1 = entry.2 := by
      have unique : (Dict.keys (self.appendPolicy policy).layers).Nodup := layers ▸ oneLayer
      rw [PoliciesContainer.layerPolicies, Dict.get_of_mem unique member]
      rfl
    rw [← found, appendPolicy_layerPolicies] at inside
    split at inside
    · rename_i own
      rcases Python.mem_insort.mp inside with rfl | old
      · exact own.2
      · exact placed.mem_layer old
    · exact placed.mem_layer inside
  · rw [layers]
    exact occupied
  · rw [appendPolicy_layerPolicies]
    split
    · rename_i k8s
      exact (insort_k8sCalico k8s.2 placed.sorted).1
    · exact placed.sorted
  · intro order
    rw [appendPolicy_layerPolicies, values, List.filter_append, ← placed.stable order]
    by_cases k8s : layerOf policy = some .K8s_Calico
    · rw [if_pos ⟨by simp [new], k8s⟩,
        (insort_k8sCalico k8s placed.sorted).2 order]
      congr 1
      simp only [List.filter_cons, List.filter_nil, k8s, true_and]
    · simp [k8s]

/-- Containers are well placed after any sequence of policies. -/
theorem appendAll_wellPlaced (appended : List (Policy P)) :
    WellPlaced (appended.foldl PoliciesContainer.appendPolicy .init) appended := by
  induction appended using List.reverseRecOn with
  | nil => exact init_wellPlaced
  | append_singleton appended policy ih =>
    rw [List.foldl_append, List.foldl_cons, List.foldl_nil]
    generalize appended.foldl PoliciesContainer.appendPolicy .init = container at ih
    cases found : Dict.get container.policies (PoliciesContainer.key policy) with
    | none => exact append_new ih found
    | some old => exact append_known ih (by simp [found])

theorem WellPlaced.values_keys (placed : WellPlaced self appended) :
    (self.policies.map Prod.snd).map PoliciesContainer.key = Dict.keys self.policies := by
  rw [Dict.keys, List.map_map]
  exact List.map_congr_left fun entry member => (placed.keys entry member).symm

theorem WellPlaced.values_nodup (placed : WellPlaced self appended) :
    ((self.policies.map Prod.snd).map PoliciesContainer.key).Nodup :=
  placed.values_keys ▸ placed.unique

theorem WellPlaced.mem_layer_iff (placed : WellPlaced self appended) {layer : NetworkLayerName} :
    policy ∈ self.layerPolicies layer ↔
      policy ∈ self.policies.map Prod.snd ∧ layerOf policy = some layer := by
  constructor
  · intro member
    refine ⟨?_, placed.mem_layer member⟩
    unfold PoliciesContainer.layerPolicies at member
    cases found : Dict.get self.layers layer with
    | none => simp [found] at member
    | some policies_list =>
      rw [found] at member
      exact placed.once.mem_iff.mp
        (List.mem_flatMap.mpr ⟨(layer, policies_list), Dict.get_mem found, member⟩)
  · rintro ⟨member, belongs⟩
    obtain ⟨entry, inside, among⟩ := List.mem_flatMap.mp (placed.once.mem_iff.mpr member)
    have same : entry.1 = layer :=
      Option.some.inj ((placed.own entry inside policy among).symm.trans belongs)
    unfold PoliciesContainer.layerPolicies
    rw [← same, Dict.get_of_mem placed.oneLayer inside]
    exact among

theorem WellPlaced.layer_nodup (placed : WellPlaced self appended) (layer : NetworkLayerName) :
    ((self.layerPolicies layer).map PoliciesContainer.key).Nodup := by
  unfold PoliciesContainer.layerPolicies
  cases found : Dict.get self.layers layer with
  | none => exact List.nodup_nil
  | some policies_list =>
    have whole : ((self.layers.flatMap Prod.snd).map PoliciesContainer.key).Nodup :=
      (placed.once.map _).nodup_iff.mpr placed.values_nodup
    refine whole.sublist (List.Sublist.map _ ?_)
    obtain ⟨before, after, split⟩ := List.append_of_mem (Dict.get_mem found)
    rw [split, List.flatMap_append, List.flatMap_cons]
    exact (List.sublist_append_left _ _).trans (List.sublist_append_right _ _)

theorem WellPlaced.values_eq (placed : WellPlaced self appended)
    (distinct : (appended.map PoliciesContainer.key).Nodup) :
    self.policies.map Prod.snd = appended := by
  refine placed.inOrder.eq_of_length_le ?_
  have covered : appended.map PoliciesContainer.key ⊆ Dict.keys self.policies := by
    intro key member
    obtain ⟨policy, inside, rfl⟩ := List.mem_map.mp member
    exact placed.complete policy inside
  have shorter := (List.subperm_of_subset distinct covered).length_le
  simpa [Dict.keys] using shorter

/-- The configuration of these peers after appending the policies. -/
def configOf (peer_container : PeerContainer E) (appended : List (Policy P)) : NetworkConfig P :=
  ⟨peer_container, appended.foldl PoliciesContainer.appendPolicy .init⟩

/-- The layers hold every policy of the map once, in its own layer; none is left without policies but
the default one of an empty container; and the K8s_Calico layer is sorted by order, where policies
of the same order stand as they were appended. -/
theorem layers_of_appended (appended : List (Policy P)) :
    let container := appended.foldl PoliciesContainer.appendPolicy .init
    ((Dict.keys container.policies).Nodup ∧ (Dict.keys container.layers).Nodup ∧
      (container.layers.flatMap Prod.snd).Perm (container.policies.map Prod.snd) ∧
      ∀ entry ∈ container.layers, ∀ policy ∈ entry.2, layerOf policy = some entry.1) ∧
    ((container.policies = [] ∧ container.layers = [(.K8s_Calico, [])]) ∨
      ∀ entry ∈ container.layers, entry.2 ≠ []) ∧
    ((container.layerPolicies .K8s_Calico).Pairwise fun p q => orderKey p ≤ orderKey q) ∧
    (container.policies.map Prod.snd).Sublist appended ∧
    ∀ order, (container.layerPolicies .K8s_Calico).filter (fun p => decide (orderKey p = order)) =
      (container.policies.map Prod.snd).filter
        fun p => decide (layerOf p = some .K8s_Calico ∧ orderKey p = order) := by
  have placed := appendAll_wellPlaced appended
  exact ⟨⟨placed.unique, placed.oneLayer, placed.once, placed.own⟩, placed.occupied, placed.sorted,
    placed.inOrder, placed.stable⟩

end Invariant
end Nca.NetworkConfig
