import Nca.FWRules.ClusterInfo

/-!
What the tables of `ClusterInfo` say when the labels are label texts: a pod is under the values that
it has for the parts of a key, where a part that it lacks, and other pods of its namespace have, has
the value of a missing label.
-/

namespace Nca.FWRules
open CoreDS Lib LabeledPeers

/-- The characters of the keys and the values of Kubernetes labels. -/
def labelChar (c : Char) : Bool := c.isAlphanum || c ∈ ['-', '_', '.', '/']

def LabelText (s : Str) : Prop := ∀ c ∈ s, labelChar c = true

/-- The pods have labels as Kubernetes admits them. -/
def KubernetesLabels {K : Type} [LabeledPeers K] (all_peers : List K) : Prop :=
  ∀ peer ∈ all_peers, is_ip_block peer = false → ∀ label ∈ labels peer,
    label.1 ≠ [] ∧ LabelText label.1 ∧ LabelText label.2

theorem labelText_colon {s : Str} (text : LabelText s) : ':' ∉ s :=
  fun inside => absurd (text ':' inside) (by decide)

theorem labelText_invalid {s : Str} (text : LabelText s) : s ≠ ClusterInfo.invalid_val := by
  intro same
  have hash : labelChar '#' = true := text '#' (by rw [same]; decide)
  exact absurd hash (by decide)

namespace ClusterInfo

section Keys

theorem splitKey_simple {k : Str} (simple : ':' ∉ k) : splitKey k = [k] :=
  List.splitOn_eq_singleton simple

theorem splitKey_join {values : List Str} (simple : ∀ v ∈ values, ':' ∉ v) (some : values ≠ []) :
    splitKey (joinValues values) = values :=
  List.splitOn_intercalate ':' simple some

theorem splitKey_parts {key k : Str} (part : k ∈ splitKey key) : ':' ∉ k := by
  induction key generalizing k with
  | nil =>
    have empty : k = [] := by simpa [splitKey] using part
    simp [empty]
  | cons c key ih =>
    unfold splitKey at part ih
    rw [List.splitOn_cons_eq_if_modifyHead] at part
    split at part
    case isTrue =>
      cases List.mem_cons.mp part with
      | inl empty => simp [empty]
      | inr later => exact ih later
    case isFalse other =>
      obtain ⟨first, rest, pieces⟩ := List.exists_cons_of_ne_nil (List.splitOn_ne_nil ':' key)
      rw [pieces] at part ih
      cases List.mem_cons.mp part with
      | inl grown =>
        have colon : ':' ≠ c := by
          intro same
          simp [← same] at other
        rw [grown]
        exact List.not_mem_cons_of_ne_of_not_mem colon (ih List.mem_cons_self)
      | inr later => exact ih (List.mem_cons_of_mem _ later)

theorem mem_product {α : Type} {sets : List (List α)} {elem : List α} :
    elem ∈ product sets ↔ List.Forall₂ (fun values v => v ∈ values) sets elem := by
  induction sets generalizing elem with
  | nil => simp [product]
  | cons values rest ih =>
    unfold product
    simp only [List.mem_flatMap, List.mem_map, ih]
    constructor
    · intro ⟨v, member, others, each, same⟩
      rw [← same]
      exact .cons member each
    · intro each
      cases each with
      | cons member each => exact ⟨_, member, _, each, rfl⟩

end Keys

section Consistency

variable {K : Type} [DecidableEq K] [LabeledPeers K] {self : ClusterInfo K} {p : K}
  {ns : Option String} {key k value v : Str} {pods : Finset K}

/-- The values of a namespace are those of its pods. -/
def Consistent (self : ClusterInfo K) : Prop :=
  ∀ key v ns, v ∈ SetDict.find self.all_label_values_per_ns (key, ns) ↔
    ∃ p ∈ SetDict.find self.pods_labels_map (key, v), peer_namespace p = ns

theorem addLabel_consistent (consistent : self.Consistent) (peer : K) (label : Str × Str) :
    (self.addLabel peer label).Consistent := by
  intro key v ns
  show v ∈ SetDict.find (SetDict.add _ _ _) _ ↔ ∃ p ∈ SetDict.find (SetDict.add _ _ _) _, _
  simp only [SetDict.mem_find_add, consistent key v ns]
  constructor
  · intro listed
    cases listed with
    | inl before =>
      obtain ⟨p, under, same⟩ := before
      exact ⟨p, .inl under, same⟩
    | inr now =>
      obtain ⟨same, rfl⟩ := now
      obtain ⟨rfl, rfl⟩ := Prod.mk.inj same
      exact ⟨peer, .inr ⟨rfl, rfl⟩, rfl⟩
  · rintro ⟨p, under, same⟩
    cases under with
    | inl before => exact .inl ⟨p, before, same⟩
    | inr now =>
      obtain ⟨rfl, rfl⟩ := now
      exact .inr ⟨by rw [same], rfl⟩

theorem mem_updateAll : v ∈ SetDict.find
      (self.updateAllLabelValuesPerNs key value pods).all_label_values_per_ns (k, ns) ↔
    v ∈ SetDict.find self.all_label_values_per_ns (k, ns) ∨
      (k = key ∧ v = value) ∧ ns ∈ self.namespacesOf pods := by
  have walk : ∀ (namespaces : List (Option String)) values,
      v ∈ SetDict.find (namespaces.foldl (fun values ns => SetDict.add values (key, ns) value) values)
        (k, ns) ↔ v ∈ SetDict.find values (k, ns) ∨ (k = key ∧ v = value) ∧ ns ∈ namespaces := by
    intro namespaces
    induction namespaces with
    | nil => simp
    | cons n rest ih =>
      intro values
      rw [List.foldl_cons, ih, SetDict.mem_find_add, List.mem_cons, Prod.mk.injEq]
      grind
  exact walk _ _

/-- A value gets its pods, which are at least those that it had. -/
theorem assign_consistent (consistent : self.Consistent)
    (grows : SetDict.find self.pods_labels_map (key, value) ⊆ pods)
    (inside : ∀ p ∈ pods, p ∈ self.allPods) :
    (updateAllLabelValuesPerNs { self with
      pods_labels_map := Dict.set self.pods_labels_map (key, value) pods } key value pods).Consistent := by
  intro k v ns
  rw [mem_updateAll, mem_namespacesOf]
  show v ∈ SetDict.find self.all_label_values_per_ns (k, ns) ∨ _ ↔
    ∃ p ∈ SetDict.find (Dict.set self.pods_labels_map (key, value) pods) (k, v), _
  rw [SetDict.find_set, consistent k v ns]
  split
  case isTrue same =>
    obtain ⟨rfl, rfl⟩ := Prod.mk.inj same
    constructor
    · intro listed
      cases listed with
      | inl before =>
        obtain ⟨p, under, same⟩ := before
        exact ⟨p, grows under, same⟩
      | inr now =>
        obtain ⟨-, p, -, given, same⟩ := now
        exact ⟨p, given, same⟩
    · rintro ⟨p, given, same⟩
      exact .inr ⟨⟨rfl, rfl⟩, p, inside p given, given, same⟩
  case isFalse other =>
    apply or_iff_left
    rintro ⟨⟨first, second⟩, _⟩
    exact other (by rw [first, second])

end Consistency

section Labels

variable {K : Type} [DecidableEq K] [LabeledPeers K] {self : ClusterInfo K} {p : K}
  {key k v : Str} {all_peers : List K}

theorem addPeer_consistent (consistent : self.Consistent) (peer : K) :
    (self.addPeer peer).Consistent := by
  unfold addPeer
  split
  case isTrue => exact consistent
  case isFalse =>
    have walk : ∀ (items : List (Str × Str)) (self : ClusterInfo K), self.Consistent →
        (items.foldl (fun self label => self.addLabel peer label) self).Consistent := by
      intro items
      induction items with
      | nil => exact fun _ => id
      | cons item rest ih => exact fun self before => ih _ (addLabel_consistent before peer item)
    exact walk (labels peer) _ consistent

theorem addPeer_map (peer : K) : p ∈ SetDict.find (self.addPeer peer).pods_labels_map (k, v) ↔
    p ∈ SetDict.find self.pods_labels_map (k, v) ∨
      p = peer ∧ is_ip_block p = false ∧ (k, v) ∈ labels p := by
  have walk : ∀ (items : List (Str × Str)) (self : ClusterInfo K),
      p ∈ SetDict.find (items.foldl (fun self label => self.addLabel peer label) self).pods_labels_map
        (k, v) ↔ p ∈ SetDict.find self.pods_labels_map (k, v) ∨ p = peer ∧ (k, v) ∈ items := by
    intro items
    induction items with
    | nil => simp
    | cons item rest ih =>
      intro self
      rw [List.foldl_cons, ih, List.mem_cons]
      show p ∈ SetDict.find (SetDict.add _ _ _) _ ∨ _ ↔ _
      rw [SetDict.mem_find_add]
      grind
  unfold addPeer
  split
  case isTrue block =>
    have other : p = peer → is_ip_block p = true := fun same => same ▸ block
    grind
  case isFalse pod =>
    rw [walk]
    have kind : p = peer → is_ip_block p = false := fun same => same ▸ by simpa using pod
    grind

/-- The tables after the loop over the peers. -/
def labeled (all_peers : List K) (allowed_labels : List Str) : ClusterInfo K :=
  all_peers.foldl addPeer ⟨all_peers, allowed_labels, [], [], []⟩

theorem labeled_consistent {allowed_labels : List Str} :
    (labeled all_peers allowed_labels).Consistent := by
  have walk : ∀ (peers : List K) (self : ClusterInfo K), self.Consistent →
      (peers.foldl addPeer self).Consistent := by
    intro peers
    induction peers with
    | nil => exact fun _ => id
    | cons peer rest ih => exact fun self before => ih _ (addPeer_consistent before peer)
  apply walk
  intro key v ns
  simp [SetDict.find, Dict.get]

theorem labeled_map {allowed_labels : List Str} :
    p ∈ SetDict.find (labeled all_peers allowed_labels).pods_labels_map (k, v) ↔
      p ∈ all_peers ∧ is_ip_block p = false ∧ (k, v) ∈ labels p := by
  have walk : ∀ (peers : List K) (self : ClusterInfo K),
      p ∈ SetDict.find (peers.foldl addPeer self).pods_labels_map (k, v) ↔
        p ∈ SetDict.find self.pods_labels_map (k, v) ∨
          p ∈ peers ∧ is_ip_block p = false ∧ (k, v) ∈ labels p := by
    intro peers
    induction peers with
    | nil => simp
    | cons peer rest ih =>
      intro self
      rw [List.foldl_cons, ih, addPeer_map, List.mem_cons]
      grind
  unfold labeled
  rw [walk]
  simp [SetDict.find, Dict.get]

end Labels

section MissingLabels

variable {K : Type} [DecidableEq K] [LabeledPeers K] {self : ClusterInfo K} {p : K}
  {key k v : Str} {keys : List Str}

omit [DecidableEq K] [LabeledPeers K] in
theorem mem_getValuesSetForKey :
    v ∈ self.getValuesSetForKey key ↔ (key, v) ∈ Dict.keys self.pods_labels_map := by
  simp [getValuesSetForKey]

omit [DecidableEq K] [LabeledPeers K] in
theorem mem_keys_of_find (under : p ∈ SetDict.find self.pods_labels_map (key, v)) :
    (key, v) ∈ Dict.keys self.pods_labels_map := by
  apply Dict.get_isSome.mp
  unfold SetDict.find at under
  cases found : Dict.get self.pods_labels_map (key, v) with
  | none => simp [found] at under
  | some pods => rfl

theorem mem_podsWithoutKey : p ∈ self.podsWithoutKeyNsRestricted key ↔ p ∈ self.allPods ∧
    (∀ v, p ∉ SetDict.find self.pods_labels_map (key, v)) ∧
    ∃ q v, q ∈ SetDict.find self.pods_labels_map (key, v) ∧ peer_namespace q = peer_namespace p := by
  have walk : ∀ (values : List Str) (pods : Finset K) q,
      q ∈ values.foldl (fun pods v => pods ∪ SetDict.find self.pods_labels_map (key, v)) pods ↔
        q ∈ pods ∨ ∃ v ∈ values, q ∈ SetDict.find self.pods_labels_map (key, v) := by
    intro values
    induction values with
    | nil => simp
    | cons v rest ih =>
      intro pods q
      rw [List.foldl_cons, ih, Finset.mem_union, List.exists_mem_cons_iff, or_assoc]
  have union : ∀ q, q ∈ (self.getValuesSetForKey key).foldl
      (fun pods v => pods ∪ SetDict.find self.pods_labels_map (key, v)) ∅ ↔
        ∃ v, q ∈ SetDict.find self.pods_labels_map (key, v) := by
    intro q
    rw [walk]
    simp only [Finset.notMem_empty, false_or]
    constructor
    · rintro ⟨v, _, under⟩
      exact ⟨v, under⟩
    · rintro ⟨v, under⟩
      exact ⟨v, mem_getValuesSetForKey.mpr (mem_keys_of_find under), under⟩
  unfold podsWithoutKeyNsRestricted
  simp only [Finset.mem_filter, Finset.mem_sdiff, List.mem_toFinset, Finset.mem_image, union,
    not_exists, and_assoc, exists_and_right]

theorem addInvalidVal_map : SetDict.find (self.addInvalidVal key).pods_labels_map (k, v) =
    if key = k ∧ invalid_val = v then self.podsWithoutKeyNsRestricted key
    else SetDict.find self.pods_labels_map (k, v) := by
  show SetDict.find (Dict.set _ _ _) _ = _
  rw [SetDict.find_set]
  simp only [Prod.mk.injEq]

theorem podsWithoutKey_other (other : key ≠ k) :
    (self.addInvalidVal key).podsWithoutKeyNsRestricted k = self.podsWithoutKeyNsRestricted k := by
  ext p
  have same : ∀ v, SetDict.find (self.addInvalidVal key).pods_labels_map (k, v) =
      SetDict.find self.pods_labels_map (k, v) := by
    intro v
    rw [addInvalidVal_map, if_neg fun both => other both.1]
  simp only [mem_podsWithoutKey, same]
  rfl

theorem foldl_addInvalidVal (once : keys.Nodup) (consistent : self.Consistent)
    (unmarked : ∀ k ∈ keys, SetDict.find self.pods_labels_map (k, invalid_val) = ∅) :
    (keys.foldl addInvalidVal self).Consistent ∧ ∀ p k v,
      p ∈ SetDict.find (keys.foldl addInvalidVal self).pods_labels_map (k, v) ↔
        p ∈ SetDict.find self.pods_labels_map (k, v) ∨
          k ∈ keys ∧ v = invalid_val ∧ p ∈ self.podsWithoutKeyNsRestricted k := by
  induction keys generalizing self with
  | nil => simpa using consistent
  | cons key rest ih =>
    obtain ⟨unseen, once⟩ := List.nodup_cons.mp once
    obtain ⟨empty, others⟩ := List.forall_mem_cons.mp unmarked
    have kept : (self.addInvalidVal key).Consistent := by
      apply assign_consistent consistent
      · rw [empty]
        exact Finset.empty_subset _
      · intro p given
        exact (mem_podsWithoutKey.mp given).1
    have still : ∀ k ∈ rest,
        SetDict.find (self.addInvalidVal key).pods_labels_map (k, invalid_val) = ∅ := by
      intro k member
      have different : ¬(key = k ∧ invalid_val = invalid_val) := fun both => unseen (both.1 ▸ member)
      rw [addInvalidVal_map, if_neg different]
      exact others k member
    obtain ⟨consistent, tables⟩ := ih once kept still
    refine ⟨consistent, ?_⟩
    intro p k v
    rw [List.foldl_cons, tables, addInvalidVal_map, List.mem_cons]
    by_cases now : key = k
    · subst now
      by_cases marker : v = invalid_val
      · subst marker
        simp [unseen, empty]
      · simp [unseen, marker, Ne.symm marker]
    · have different : ¬(key = k ∧ invalid_val = v) := fun both => now both.1
      rw [podsWithoutKey_other now, if_neg different]
      simp [Ne.symm now]

end MissingLabels

section Values

variable {K : Type} [LabeledPeers K]

def labelOf (p : K) (k : Str) : Option Str := Dict.get (labels p) k

/-- Some pod of the namespace has the label. -/
def Known (all_peers : List K) (ns : Option String) (k : Str) : Prop :=
  ∃ q ∈ all_peers, is_ip_block q = false ∧ peer_namespace q = ns ∧ labelOf q k ≠ none

instance (all_peers : List K) (ns : Option String) (k : Str) : Decidable (Known all_peers ns k) :=
  inferInstanceAs (Decidable (∃ q ∈ all_peers, _))

/-- The value of a pod for a key without a colon. -/
def simpleValue (all_peers : List K) (p : K) (k : Str) : Option Str :=
  match labelOf p k with
  | some v => some v
  | none => if Known all_peers (peer_namespace p) k then some invalid_val else none

/-- The values of a pod for the parts of a key. -/
def HasTuple (all_peers : List K) (p : K) (keys values : List Str) : Prop :=
  List.Forall₂ (fun k v => simpleValue all_peers p k = some v) keys values

theorem labelOf_eq {p : K} {k v : Str} : (k, v) ∈ labels p ↔ labelOf p k = some v :=
  ⟨Dict.get_of_mem (labels_nodup p), Dict.get_mem⟩

variable {p : K} {k v : Str} {all_peers : List K}

theorem simpleValue_text (kubernetes : KubernetesLabels all_peers) (listed : p ∈ all_peers)
    (pod : is_ip_block p = false) (value : simpleValue all_peers p k = some v) :
    LabelText v ∨ v = invalid_val := by
  unfold simpleValue at value
  split at value
  case h_1 w label =>
    obtain rfl := Option.some.inj value
    exact .inl (kubernetes p listed pod _ (labelOf_eq.mpr label)).2.2
  case h_2 =>
    obtain ⟨-, same⟩ := Option.ite_none_right_eq_some.mp value
    exact .inr (Option.some.inj same).symm

/-- The values of the parts have no colon, so the value of the whole key has them all. -/
theorem hasTuple_colon {keys elem : List Str} (kubernetes : KubernetesLabels all_peers)
    (listed : p ∈ all_peers) (pod : is_ip_block p = false) (tuple : HasTuple all_peers p keys elem) :
    ∀ v ∈ elem, ':' ∉ v := by
  intro v member
  obtain ⟨k, -, value⟩ := forall₂_source tuple member
  cases simpleValue_text kubernetes listed pod value with
  | inl text => exact labelText_colon text
  | inr marker =>
    rw [marker]
    decide

theorem hasTuple_unique {keys elem elem' : List Str} (tuple : HasTuple all_peers p keys elem)
    (tuple' : HasTuple all_peers p keys elem') : elem = elem' := by
  induction tuple generalizing elem' with
  | nil => cases tuple'; rfl
  | cons value _ ih =>
    cases tuple' with
    | cons value' rest =>
      rw [Option.some.inj (value.symm.trans value'), ih rest]

variable [DecidableEq K] {allowed_labels : List Str}

/-- The tables before the conjunctions are added. -/
def simpleTables (all_peers : List K) (allowed_labels : List Str) : ClusterInfo K :=
  (labeled all_peers allowed_labels).addUpdatePodsLabelsMapWithInvalidVal

theorem simpleTables_map (kubernetes : KubernetesLabels all_peers) :
    (simpleTables all_peers allowed_labels).Consistent ∧ ∀ p k v,
      p ∈ SetDict.find (simpleTables all_peers allowed_labels).pods_labels_map (k, v) ↔
        (p ∈ all_peers ∧ is_ip_block p = false) ∧ (labelOf p k = some v ∨
          k ∈ allowed_labels.flatMap splitKey ∧ v = invalid_val ∧ labelOf p k = none ∧
            Known all_peers (peer_namespace p) k) := by
  have unmarked : ∀ k, SetDict.find (labeled all_peers allowed_labels).pods_labels_map
      (k, invalid_val) = ∅ := by
    intro k
    apply Finset.eq_empty_of_forall_notMem
    intro p under
    obtain ⟨listed, pod, label⟩ := labeled_map.mp under
    exact labelText_invalid (kubernetes p listed pod _ label).2.2 rfl
  have fields := addPeers_frame all_peers ⟨all_peers, allowed_labels, [], [], []⟩
  have flattened : (labeled all_peers allowed_labels).getAllowedLabelsFlattened =
      allowed_labels.flatMap splitKey := congrArg (fun fields => fields.2.1.flatMap splitKey) fields
  have pods : (labeled all_peers allowed_labels).all_peers = all_peers := congrArg Prod.fst fields
  have without : ∀ p k, p ∈ (labeled all_peers allowed_labels).podsWithoutKeyNsRestricted k ↔
      (p ∈ all_peers ∧ is_ip_block p = false) ∧ labelOf p k = none ∧
        Known all_peers (peer_namespace p) k := by
    intro p k
    rw [mem_podsWithoutKey, mem_allPods, pods]
    simp only [labeled_map, labelOf_eq, Known]
    apply and_congr_right
    rintro ⟨listed, pod⟩
    simp only [listed, pod, true_and, Option.eq_none_iff_forall_ne_some, ne_eq, not_forall, not_not]
    apply and_congr_right
    intro _
    constructor
    · rintro ⟨q, v, ⟨listed, pod, label⟩, same⟩
      exact ⟨q, listed, pod, same, v, label⟩
    · rintro ⟨q, listed, pod, same, v, label⟩
      exact ⟨q, v, ⟨listed, pod, label⟩, same⟩
  have once := (List.nodup_dedup ((Dict.keys (labeled all_peers allowed_labels).pods_labels_map).map
    Prod.fst)).filter fun key => decide (key ∈ allowed_labels.flatMap splitKey)
  obtain ⟨consistent, tables⟩ := foldl_addInvalidVal once labeled_consistent fun k _ => unmarked k
  unfold simpleTables addUpdatePodsLabelsMapWithInvalidVal
  rw [flattened]
  refine ⟨consistent, ?_⟩
  intro p k v
  rw [tables, without, labeled_map, labelOf_eq, List.mem_filter, List.mem_dedup]
  simp only [decide_eq_true_eq]
  constructor
  · intro under
    cases under with
    | inl labeled => exact ⟨⟨labeled.1, labeled.2.1⟩, .inl labeled.2.2⟩
    | inr missing =>
      obtain ⟨⟨_, allowed⟩, marker, pod, lacks, known⟩ := missing
      exact ⟨pod, .inr ⟨allowed, marker, lacks, known⟩⟩
  · rintro ⟨pod, value⟩
    cases value with
    | inl label => exact .inl ⟨pod.1, pod.2, label⟩
    | inr missing =>
      obtain ⟨allowed, marker, lacks, known⟩ := missing
      refine .inr ⟨⟨?_, allowed⟩, marker, pod, lacks, known⟩
      -- some pod has the key, so the tables have it
      obtain ⟨q, listed, kind, -, has⟩ := known
      obtain ⟨w, label⟩ := Option.ne_none_iff_exists'.mp has
      have under : q ∈ SetDict.find (labeled all_peers allowed_labels).pods_labels_map (k, w) :=
        labeled_map.mpr ⟨listed, kind, labelOf_eq.mpr label⟩
      exact List.mem_map.mpr ⟨_, mem_keys_of_find under, rfl⟩

theorem simpleTables_value (kubernetes : KubernetesLabels all_peers)
    (allowed : k ∈ allowed_labels.flatMap splitKey) :
    p ∈ SetDict.find (simpleTables all_peers allowed_labels).pods_labels_map (k, v) ↔
      (p ∈ all_peers ∧ is_ip_block p = false) ∧ simpleValue all_peers p k = some v := by
  rw [(simpleTables_map kubernetes).2]
  apply and_congr_right
  intro pod
  unfold simpleValue
  cases label : labelOf p k with
  | some w => simp
  | none =>
    simp only [reduceCtorEq, false_or, allowed, true_and]
    split
    case isTrue known => simp [known, eq_comm]
    case isFalse unknown => simp [unknown]

end Values

section Conjunctions

variable {K : Type} [DecidableEq K] {self : ClusterInfo K} {p : K} {key k v w : Str}
  {keys elem : List Str}

theorem mem_finalPodSet (parts : keys ≠ []) (same : keys.length = elem.length) :
    p ∈ self.finalPodSet keys elem ↔
      List.Forall₂ (fun k v => p ∈ SetDict.find self.pods_labels_map (k, v)) keys elem := by
  have walk : ∀ (keys vals : List Str) (pods : Finset K), keys.length = vals.length →
      (p ∈ (vals.zip keys).foldl
        (fun pods entry => pods ∩ SetDict.find self.pods_labels_map (entry.2, entry.1)) pods ↔ p ∈ pods ∧
        List.Forall₂ (fun k v => p ∈ SetDict.find self.pods_labels_map (k, v)) keys vals) := by
    intro keys
    induction keys with
    | nil =>
      intro vals pods same
      obtain rfl := List.length_eq_zero_iff.mp same.symm
      simp
    | cons k keys ih =>
      intro vals pods same
      cases vals with
      | nil => simp at same
      | cons v vals =>
        rw [List.zip_cons_cons, List.foldl_cons, ih _ _ (by simpa using same), Finset.mem_inter,
          List.forall₂_cons, and_assoc]
  cases keys with
  | nil => exact absurd rfl parts
  | cons k keys =>
    cases elem with
    | nil => simp at same
    | cons v vals =>
      unfold finalPodSet
      rw [List.forall₂_cons]
      exact walk _ _ _ (by simpa using same)

variable [LabeledPeers K] {all_peers : List K} {allowed_labels : List Str}

/-- A pod has the combined value of a key. -/
def HasValue (all_peers : List K) (p : K) (key w : Str) : Prop :=
  (p ∈ all_peers ∧ is_ip_block p = false) ∧
    ∃ elem, HasTuple all_peers p (splitKey key) elem ∧ w = joinValues elem

/-- What holds while the conjunctions are added. -/
structure Completing (all_peers : List K) (allowed_labels : List Str) (tables : ClusterInfo K) : Prop where
  peers : tables.all_peers = all_peers
  consistent : tables.Consistent
  simple : ∀ k v, ':' ∉ k → SetDict.find tables.pods_labels_map (k, v) =
    SetDict.find (simpleTables all_peers allowed_labels).pods_labels_map (k, v)
  sound : ∀ p key w, ':' ∈ key → p ∈ SetDict.find tables.pods_labels_map (key, w) →
    HasValue all_peers p key w

theorem completing_final (kubernetes : KubernetesLabels all_peers)
    (completing : Completing all_peers allowed_labels self) (allowed : key ∈ allowed_labels)
    (same : (splitKey key).length = elem.length) : p ∈ self.finalPodSet (splitKey key) elem ↔
      (p ∈ all_peers ∧ is_ip_block p = false) ∧ HasTuple all_peers p (splitKey key) elem := by
  have parts : splitKey key ≠ [] := List.splitOn_ne_nil ':' key
  have each : ∀ k ∈ splitKey key, ∀ v, p ∈ SetDict.find self.pods_labels_map (k, v) ↔
      (p ∈ all_peers ∧ is_ip_block p = false) ∧ simpleValue all_peers p k = some v := by
    intro k part v
    rw [completing.simple k v (splitKey_parts part)]
    exact simpleTables_value kubernetes (List.mem_flatMap.mpr ⟨key, allowed, part⟩)
  rw [mem_finalPodSet parts same]
  constructor
  · intro under
    have pod : p ∈ all_peers ∧ is_ip_block p = false := by
      have values : elem ≠ [] := by
        intro empty
        rw [empty] at same
        exact parts (List.length_eq_zero_iff.mp same)
      obtain ⟨v, member⟩ := List.exists_mem_of_ne_nil elem values
      obtain ⟨k, part, first⟩ := forall₂_source under member
      exact ((each k part v).mp first).1
    exact ⟨pod, (forall₂_members under).imp fun k v both => ((each k both.1 v).mp both.2).2⟩
  · intro ⟨pod, tuple⟩
    exact (forall₂_members tuple).imp fun k v both => (each k both.1 v).mpr ⟨pod, both.2⟩

omit [DecidableEq K] in
/-- A combined value has one tuple. -/
theorem hasValue_tuple (kubernetes : KubernetesLabels all_peers) (value : HasValue all_peers p key w)
    (each : ∀ v ∈ elem, ':' ∉ v) (parts : elem ≠ []) (same : w = joinValues elem) :
    HasTuple all_peers p (splitKey key) elem := by
  obtain ⟨⟨listed, pod⟩, elem', tuple, same'⟩ := value
  have parts' : elem' ≠ [] := by
    intro empty
    rw [empty] at tuple
    exact List.splitOn_ne_nil ':' key (List.forall₂_nil_right_iff.mp tuple)
  have joined : splitKey (joinValues elem) = splitKey (joinValues elem') := by rw [← same, same']
  rw [splitKey_join each parts,
    splitKey_join (hasTuple_colon kubernetes listed pod tuple) parts'] at joined
  rw [joined]
  exact tuple

theorem addCombination_completing (kubernetes : KubernetesLabels all_peers)
    (completing : Completing all_peers allowed_labels self) (allowed : key ∈ allowed_labels)
    (combined : ':' ∈ key) (same : (splitKey key).length = elem.length) :
    Completing all_peers allowed_labels (self.addCombination key elem) ∧
    (∀ k v, SetDict.find self.pods_labels_map (k, v) ⊆
      SetDict.find (self.addCombination key elem).pods_labels_map (k, v)) ∧
    ∀ p, (p ∈ all_peers ∧ is_ip_block p = false) → HasTuple all_peers p (splitKey key) elem →
      p ∈ SetDict.find (self.addCombination key elem).pods_labels_map (key, joinValues elem) := by
  have parts : elem ≠ [] := by
    intro empty
    rw [empty] at same
    exact List.splitOn_ne_nil ':' key (List.length_eq_zero_iff.mp same)
  have final {p : K} := completing_final (p := p) kubernetes completing allowed same
  unfold addCombination
  dsimp only
  split
  case isTrue nobody =>
    refine ⟨completing, fun k v => Finset.Subset.refl _, ?_⟩
    intro p pod tuple
    have inside := final.mpr ⟨pod, tuple⟩
    rw [nobody] at inside
    exact absurd inside (Finset.notMem_empty p)
  case isFalse somebody =>
    obtain ⟨q, found⟩ := Finset.nonempty_iff_ne_empty.mpr somebody
    obtain ⟨pod, tuple⟩ := final.mp found
    have colons := hasTuple_colon kubernetes pod.1 pod.2 tuple
    have grows : SetDict.find self.pods_labels_map (key, joinValues elem) ⊆
        self.finalPodSet (splitKey key) elem := by
      intro p under
      have value := completing.sound p key _ combined under
      exact final.mpr ⟨value.1, hasValue_tuple kubernetes value colons parts rfl⟩
    have tables : ∀ k v, SetDict.find (Dict.set self.pods_labels_map (key, joinValues elem)
        (self.finalPodSet (splitKey key) elem)) (k, v) =
        if key = k ∧ joinValues elem = v then self.finalPodSet (splitKey key) elem
        else SetDict.find self.pods_labels_map (k, v) := by
      intro k v
      rw [SetDict.find_set]
      simp only [Prod.mk.injEq]
    refine ⟨⟨completing.peers, ?_, ?_, ?_⟩, ?_, ?_⟩
    · apply assign_consistent completing.consistent grows
      intro p inside
      rw [mem_allPods, completing.peers]
      exact (final.mp inside).1
    · intro k v simple
      have other : ¬(key = k ∧ joinValues elem = v) := fun both => simple (both.1 ▸ combined)
      exact (tables k v).trans ((if_neg other).trans (completing.simple k v simple))
    · intro p k v colon under
      change p ∈ SetDict.find (Dict.set _ _ _) _ at under
      rw [tables] at under
      split at under
      case isTrue this =>
        obtain ⟨rfl, rfl⟩ := this
        obtain ⟨pod, tuple⟩ := final.mp under
        exact ⟨pod, elem, tuple, rfl⟩
      case isFalse => exact completing.sound p k v colon under
    · intro k v
      show _ ⊆ SetDict.find (Dict.set _ _ _) _
      rw [tables]
      split
      case isTrue this =>
        obtain ⟨rfl, rfl⟩ := this
        exact grows
      case isFalse => exact Finset.Subset.refl _
    · intro p pod tuple
      show p ∈ SetDict.find (Dict.set _ _ _) _
      rw [tables, if_pos ⟨rfl, rfl⟩]
      exact final.mpr ⟨pod, tuple⟩

theorem addConjunction_completing (kubernetes : KubernetesLabels all_peers)
    (completing : Completing all_peers allowed_labels self) (allowed : key ∈ allowed_labels)
    (combined : ':' ∈ key) :
    Completing all_peers allowed_labels (self.addConjunction key) ∧
    (∀ k v, SetDict.find self.pods_labels_map (k, v) ⊆
      SetDict.find (self.addConjunction key).pods_labels_map (k, v)) ∧
    ∀ p w, HasValue all_peers p key w →
      p ∈ SetDict.find (self.addConjunction key).pods_labels_map (key, w) := by
  have walk : ∀ (elems : List (List Str)) (self : ClusterInfo K),
      (∀ elem ∈ elems, (splitKey key).length = elem.length) →
      Completing all_peers allowed_labels self →
      Completing all_peers allowed_labels (elems.foldl (addCombination · key) self) ∧
      (∀ k v, SetDict.find self.pods_labels_map (k, v) ⊆
        SetDict.find (elems.foldl (addCombination · key) self).pods_labels_map (k, v)) ∧
      ∀ elem ∈ elems, ∀ p, (p ∈ all_peers ∧ is_ip_block p = false) →
        HasTuple all_peers p (splitKey key) elem →
        p ∈ SetDict.find (elems.foldl (addCombination · key) self).pods_labels_map
          (key, joinValues elem) := by
    intro elems
    induction elems with
    | nil => exact fun self _ completing => ⟨completing, fun _ _ => Finset.Subset.refl _, by simp⟩
    | cons elem rest ih =>
      intro self same completing
      obtain ⟨now, later⟩ := List.forall_mem_cons.mp same
      obtain ⟨next, grown, added⟩ := addCombination_completing kubernetes completing allowed combined now
      obtain ⟨done, kept, others⟩ := ih _ later next
      refine ⟨done, fun k v => (grown k v).trans (kept k v), ?_⟩
      intro elem' member p pod tuple
      cases List.mem_cons.mp member with
      | inl same =>
        subst same
        exact kept _ _ (added p pod tuple)
      | inr later => exact others elem' later p pod tuple
  unfold addConjunction
  obtain ⟨done, grown, added⟩ := walk _ self (by
    intro elem member
    rw [mem_product.mp member |>.length_eq.symm, List.length_map]) completing
  refine ⟨done, grown, ?_⟩
  rintro p w ⟨pod, elem, tuple, same⟩
  rw [same]
  apply added elem _ p pod tuple
  apply mem_product.mpr
  rw [List.forall₂_map_left_iff]
  apply (forall₂_members tuple).imp
  rintro k v ⟨part, value⟩
  have under : p ∈ SetDict.find self.pods_labels_map (k, v) := by
    rw [completing.simple k v (splitKey_parts part)]
    exact (simpleTables_value kubernetes (List.mem_flatMap.mpr ⟨key, allowed, part⟩)).mpr ⟨pod, value⟩
  exact mem_getValuesSetForKey.mpr (mem_keys_of_find under)

theorem init_completing (kubernetes : KubernetesLabels all_peers) :
    Completing all_peers allowed_labels (init all_peers allowed_labels) ∧
    ∀ key ∈ allowed_labels, ':' ∈ key → ∀ p w, HasValue all_peers p key w →
      p ∈ SetDict.find (init all_peers allowed_labels).pods_labels_map (key, w) := by
  have walk : ∀ (keys : List Str) (self : ClusterInfo K),
      (∀ key ∈ keys, key ∈ allowed_labels ∧ ':' ∈ key) → Completing all_peers allowed_labels self →
      Completing all_peers allowed_labels (keys.foldl addConjunction self) ∧
      (∀ k v, SetDict.find self.pods_labels_map (k, v) ⊆
        SetDict.find (keys.foldl addConjunction self).pods_labels_map (k, v)) ∧
      ∀ key ∈ keys, ∀ p w, HasValue all_peers p key w →
        p ∈ SetDict.find (keys.foldl addConjunction self).pods_labels_map (key, w) := by
    intro keys
    induction keys with
    | nil => exact fun self _ completing => ⟨completing, fun _ _ => Finset.Subset.refl _, by simp⟩
    | cons key rest ih =>
      intro self each completing
      obtain ⟨⟨allowed, combined⟩, later⟩ := List.forall_mem_cons.mp each
      obtain ⟨next, grown, added⟩ := addConjunction_completing kubernetes completing allowed combined
      obtain ⟨done, kept, others⟩ := ih _ later next
      refine ⟨done, fun k v => (grown k v).trans (kept k v), ?_⟩
      intro key' member p w value
      cases List.mem_cons.mp member with
      | inl same =>
        subst same
        exact kept _ _ (added p w value)
      | inr later => exact others key' later p w value
  have fields := addPeers_frame all_peers ⟨all_peers, allowed_labels, [], [], []⟩
  have updated : (simpleTables all_peers allowed_labels).frame =
      (labeled all_peers allowed_labels).frame := by
    have each : ∀ (self : ClusterInfo K) key, (self.addInvalidVal key).frame = self.frame :=
      fun _ _ => rfl
    exact foldl_keeps frame each _ _
  have start : Completing all_peers allowed_labels (simpleTables all_peers allowed_labels) := {
    peers := congrArg Prod.fst (updated.trans fields)
    consistent := (simpleTables_map kubernetes).1
    simple := fun _ _ _ => rfl
    sound := by
      intro p key w combined under
      -- neither a label nor a part of a key has a colon
      cases ((simpleTables_map kubernetes).2 p key w).mp under with
      | intro pod value =>
        cases value with
        | inl label =>
          have text := (kubernetes p pod.1 pod.2 _ (labelOf_eq.mpr label)).2.1
          exact absurd combined (labelText_colon text)
        | inr missing =>
          obtain ⟨_, -, part⟩ := List.mem_flatMap.mp missing.1
          exact absurd combined (splitKey_parts part) }
  have allowed : (simpleTables all_peers allowed_labels).allowed_labels = allowed_labels :=
    congrArg (·.2.1) (updated.trans fields)
  obtain ⟨done, -, added⟩ := walk (allowed_labels.filter fun k => ':' ∈ k) _ (by simp) start
  have whole : init all_peers allowed_labels = (allowed_labels.filter fun k => ':' ∈ k).foldl
      addConjunction (simpleTables all_peers allowed_labels) := by
    show (simpleTables all_peers allowed_labels).addUpdatePodsLabelsMapWithRequiredConjunctionLabels = _
    unfold addUpdatePodsLabelsMapWithRequiredConjunctionLabels
    rw [allowed]
  rw [whole]
  exact ⟨done, fun key listed combined => added key (by simp [listed, combined])⟩

/-- The pods of a value of an allowed key are those that have it. -/
theorem mem_pods_labels_map (kubernetes : KubernetesLabels all_peers) (allowed : key ∈ allowed_labels) :
    p ∈ SetDict.find (init all_peers allowed_labels).pods_labels_map (key, w) ↔
      HasValue all_peers p key w := by
  obtain ⟨done, added⟩ := @init_completing K _ _ all_peers allowed_labels kubernetes
  by_cases combined : ':' ∈ key
  · exact ⟨done.sound p key w combined, added key allowed combined p w⟩
  · have part : key ∈ allowed_labels.flatMap splitKey :=
      List.mem_flatMap.mpr ⟨key, allowed, by rw [splitKey_simple combined]; exact List.mem_singleton_self _⟩
    rw [done.simple key w combined, simpleTables_value kubernetes part]
    unfold HasValue HasTuple
    rw [splitKey_simple combined]
    apply and_congr_right
    intro _
    constructor
    · intro value
      exact ⟨[w], .cons value .nil, (by simp [joinValues])⟩
    · intro ⟨elem, tuple, same⟩
      cases tuple with
      | cons value rest =>
        cases rest
        rw [same]
        simpa [joinValues] using value

/-- The pods of a value of a part of an allowed key. -/
theorem mem_pods_labels_map_part (kubernetes : KubernetesLabels all_peers)
    (allowed : key ∈ allowed_labels) (part : k ∈ splitKey key) :
    p ∈ SetDict.find (init all_peers allowed_labels).pods_labels_map (k, v) ↔
      (p ∈ all_peers ∧ is_ip_block p = false) ∧ simpleValue all_peers p k = some v := by
  obtain ⟨done, -⟩ := @init_completing K _ _ all_peers allowed_labels kubernetes
  rw [done.simple k v (splitKey_parts part)]
  exact simpleTables_value kubernetes (List.mem_flatMap.mpr ⟨key, allowed, part⟩)

theorem mem_values {ns : Option String} (kubernetes : KubernetesLabels all_peers) :
    v ∈ (init all_peers allowed_labels).getAllValuesSetForKeyPerNamespace key {ns} ↔
      ∃ p ∈ SetDict.find (init all_peers allowed_labels).pods_labels_map (key, v),
        peer_namespace p = ns := by
  obtain ⟨done, -⟩ := @init_completing K _ _ all_peers allowed_labels kubernetes
  unfold getAllValuesSetForKeyPerNamespace
  rw [Finset.singleton_biUnion]
  exact done.consistent key v ns

end Conjunctions

end ClusterInfo
end Nca.FWRules
