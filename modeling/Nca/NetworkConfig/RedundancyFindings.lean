import Nca.NetworkConfig.RuleRedundancy
import Mathlib.Data.Finset.Sort
import Mathlib.Data.String.Basic

/-!
What the redundancy query lists. It goes over the layers and their policies with a counter, the names
of redundant policies and the numbers of redundant rules; the names are those of one layer only, and
the rules are those of one policy for each title.
-/

namespace Nca.NetworkConfig
open CoreDS Lib Resources

instance names_trans : IsTrans String (· ≤ ·) := inferInstance

instance names_antisymm : Std.Antisymm (α := String) (· ≤ ·) := inferInstance

instance names_total : Std.Total (α := String) (· ≤ ·) := inferInstance

/-- `sorted(xs)` with the comparison of the elements. -/
def sorted {α : Type} (lt : α → α → Bool) (xs : List α) : List α := xs.mergeSort fun x y => !lt y x

theorem sorted_perm {α : Type} {lt : α → α → Bool} {xs : List α} : (sorted lt xs).Perm xs :=
  List.mergeSort_perm xs _

variable {P E κ : Type} [Fintype E] [DecidableEq E] [Peers E] [ConnectivityProperties P E κ]

def policyTypeStr (policy : Policy P) : String :=
  if policy.base.policy_kind = .Ingress then "Ingress resource"
  else if policy.base.policy_kind = .GatewayPolicy then "Istio Gateway/VirtualService resource"
  else "NetworkPolicy"

def policyTitle (policy : Policy P) : String := policyTypeStr policy ++ " " ++ policy.base.fullName

structure PoliciesAndRulesExplanations where
  explanation_description : String
  policies_list : List String
  policies_to_ingress_rules_dict : List (String × List Nat)
  policies_to_egress_rules_dict : List (String × List Nat)

/-- An answer with its texts. -/
structure ExplainedAnswer extends QueryAnswer where
  output_result : String
  output_explanation : List PoliciesAndRulesExplanations := []

namespace RedundancyQuery

/-- The variables of the loops. -/
structure Findings where
  res : Nat := 0
  redundant_policies : List String := []
  redundant_ingress_rules : List (String × List Nat) := []
  redundant_egress_rules : List (String × List Nat) := []

section Model
variable (config : NetworkConfig P)

/-- One turn of the loop over the policies of a layer. -/
def isRedundantPolicy (layer_name : NetworkLayerName) (policy : Policy P) : Bool :=
  EquivalenceQuery.exec ⟨config, config.cloneWithoutPolicy policy, true⟩ (some layer_name)

def redundantPolicies (policies_list : List (Policy P)) (layer_name : NetworkLayerName) :
    Finset String :=
  if policies_list.length > 1 then
    ((policies_list.filter (isRedundantPolicy config layer_name)).map (·.base.fullName)).toFinset
  else ∅

/-- One turn of the loop over the sorted policies. -/
def addRules (layer_name : NetworkLayerName) (findings : Findings) (policy : Policy P) : Findings :=
  if policy.base.fullName ∈ findings.redundant_policies then findings
  else
    let (ingress_rules, egress_rules) := findRedundantRules config policy layer_name
    let findings :=
      if ingress_rules ≠ [] then { findings with
        res := findings.res + ingress_rules.length
        redundant_ingress_rules := Dict.set findings.redundant_ingress_rules (policyTitle policy)
          (sorted (fun i j => decide (i < j)) ingress_rules) }
      else findings
    if egress_rules ≠ [] then { findings with
      res := findings.res + egress_rules.length
      redundant_egress_rules := Dict.set findings.redundant_egress_rules (policyTitle policy)
        (sorted (fun i j => decide (i < j)) egress_rules) }
    else findings

/-- One turn of the loop over the layers. -/
def addLayer (findings : Findings) (layer : NetworkLayerName × List (Policy P)) : Findings :=
  if layer.1 ∈ [.K8sGateway, .IstioGateway] then findings
  else
    let redundant_policies := (redundantPolicies config layer.2 layer.1).sort
    (sorted Policy.lt layer.2).foldl (addRules config layer.1) { findings with
      res := findings.res + redundant_policies.length
      redundant_policies := redundant_policies }

def findings : Findings := config.policies_container.layers.foldl (addLayer config) {}

def exec (name : String) : ExplainedAnswer :=
  let found := findings config
  if found.res > 0 then
    { bool_result := true
      output_result := "Redundancies found in " ++ name
      output_explanation := [{
        explanation_description := " that are redundant in " ++ name
        policies_list := found.redundant_policies
        policies_to_ingress_rules_dict := found.redundant_ingress_rules
        policies_to_egress_rules_dict := found.redundant_egress_rules }]
      numerical_result := found.res }
  else { output_result := "No redundancy found in " ++ name }

end Model

section Statement

/-- What the query lists: policies by their names, and rules by the titles of their policies. -/
inductive Item where
  | policy (name : String)
  | rule (is_ingress : Bool) (title : String) (index : Nat)
  deriving DecidableEq

def ruleItems (is_ingress : Bool) (entry : String × List Nat) : List Item :=
  entry.2.map (.rule is_ingress entry.1)

def items (explanation : PoliciesAndRulesExplanations) : List Item :=
  explanation.policies_list.map .policy ++
    explanation.policies_to_ingress_rules_dict.flatMap (ruleItems true) ++
    explanation.policies_to_egress_rules_dict.flatMap (ruleItems false)

/-- Everything that the answer lists. -/
def listed (answer : ExplainedAnswer) : List Item := answer.output_explanation.flatMap items

abbrev Layer (P : Type) {E κ : Type} [Peers E] [ConnectivityProperties P E κ] :=
  NetworkLayerName × List (Policy P)

variable (config : NetworkConfig P)

def notGatewayLayers : List (Layer P) :=
  config.policies_container.layers.filter fun layer =>
    decide (layer.1 ∉ [.K8sGateway, .IstioGateway])

/-- The policies of the layers, with their layers. -/
def layeredPolicies : List (Layer P × Policy P) :=
  (notGatewayLayers config).flatMap fun layer => layer.2.map (layer, ·)

/-- The policy is not the only one of its layer, and the layer allows the same without it. -/
def isRedundant (at_ : Layer P × Policy P) : Bool :=
  decide (at_.1.2.length > 1) && isRedundantPolicy config at_.1.1 at_.2

/-- The redundant rules of a policy of a layer. -/
def rulesOf (is_ingress : Bool) (at_ : Layer P × Policy P) : List Nat :=
  redundantRules config at_.2 at_.1.1 is_ingress

def redundantRuleItems (is_ingress : Bool) : List Item :=
  ((layeredPolicies config).filter (!isRedundant config ·)).flatMap fun at_ =>
    ruleItems is_ingress (policyTitle at_.2, rulesOf config is_ingress at_)

/-- The redundant policies of all layers, and the redundant rules of the other policies. -/
def redundantItems : List Item :=
  ((layeredPolicies config).filter (isRedundant config)).map (fun at_ => .policy at_.2.base.fullName) ++
    redundantRuleItems config true ++ redundantRuleItems config false

/-- No finding takes the place of another one, and none is hidden by another one. -/
structure FindingsKept : Prop where
  last_layer : ∀ layer ∈ (notGatewayLayers config).dropLast, ∀ policy ∈ layer.2,
    isRedundant config (layer, policy) = false
  names : (((layeredPolicies config).filter (isRedundant config)).map
    (·.2.base.fullName)).Nodup
  unhidden : ∀ layer ∈ notGatewayLayers config, ∀ policy ∈ layer.2, ∀ other ∈ layer.2,
    isRedundant config (layer, policy) = false → isRedundant config (layer, other) = true →
    policy.base.fullName = other.base.fullName → ∀ is_ingress, rulesOf config is_ingress (layer, policy) = []
  titles : ∀ is_ingress, (((layeredPolicies config).filter fun at_ =>
    !isRedundant config at_ && !(rulesOf config is_ingress at_).isEmpty).map (policyTitle ·.2)).Nodup

end Statement

section Runs

variable (config : NetworkConfig P)

/-- The rules are looked for: no redundant policy of the layer has the name of the policy. -/
def isAsked (at_ : Layer P × Policy P) : Bool :=
  decide (at_.2.base.fullName ∉ redundantPolicies config at_.1.2 at_.1.1)

/-- What is written for policies whose rules are looked for. -/
def entries (is_ingress : Bool) (asked : List (Layer P × Policy P)) : List (String × List Nat) :=
  (asked.filter fun at_ => !(rulesOf config is_ingress at_).isEmpty).map fun at_ =>
    (policyTitle at_.2, sorted (fun i j => decide (i < j)) (rulesOf config is_ingress at_))

def Findings.rules (found : Findings) (is_ingress : Bool) : List (String × List Nat) :=
  if is_ingress then found.redundant_ingress_rules else found.redundant_egress_rules

/-- The findings with the rules of policies added. -/
structure Gathered (found found' : Findings) (asked : List (Layer P × Policy P)) : Prop where
  res : found'.res = found.res + ((entries config true asked).flatMap Prod.snd).length +
    ((entries config false asked).flatMap Prod.snd).length
  rules : ∀ is_ingress, found'.rules is_ingress = (entries config is_ingress asked).foldl
    (fun dict entry => Dict.set dict entry.1 entry.2) (found.rules is_ingress)

variable {config} {found found' found'' : Findings} {asked asked' : List (Layer P × Policy P)}
  {layer : Layer P}

theorem entries_append {is_ingress : Bool} : entries config is_ingress (asked ++ asked') =
    entries config is_ingress asked ++ entries config is_ingress asked' := by
  unfold entries
  rw [List.filter_append, List.map_append]

theorem Gathered.nil : Gathered config found found [] := ⟨rfl, fun _ => rfl⟩

theorem Gathered.append (first : Gathered config found found' asked)
    (second : Gathered config found' found'' asked') :
    Gathered config found found'' (asked ++ asked') := by
  constructor
  · rw [second.res, first.res, entries_append, entries_append]
    simp only [List.flatMap_append, List.length_append]
    omega
  · intro is_ingress
    rw [second.rules, first.rules, entries_append, List.foldl_append]

theorem addRules_gathered (policy : Policy P)
    (names : found.redundant_policies = (redundantPolicies config layer.2 layer.1).sort) :
    Gathered config found (addRules config layer.1 found policy)
        ([(layer, policy)].filter (isAsked config)) ∧
      (addRules config layer.1 found policy).redundant_policies = found.redundant_policies := by
  unfold addRules
  by_cases hidden : policy.base.fullName ∈ redundantPolicies config layer.2 layer.1
  · have skipped : isAsked config (layer, policy) = false := decide_eq_false (not_not_intro hidden)
    rw [if_pos (names ▸ (Finset.mem_sort _).mpr hidden), List.filter_singleton, skipped]
    exact ⟨.nil, rfl⟩
  · have shown : isAsked config (layer, policy) = true := decide_eq_true hidden
    rw [if_neg fun inside => hidden ((Finset.mem_sort _).mp (names ▸ inside)),
      List.filter_singleton, shown]
    have lengths : ∀ rules : List Nat, (sorted (fun i j => decide (i < j)) rules).length = rules.length :=
      fun _ => sorted_perm.length_eq
    by_cases ingress : redundantRules config policy layer.1 true = [] <;>
      by_cases egress : redundantRules config policy layer.1 false = [] <;>
      refine ⟨⟨?_, Bool.forall_bool.mpr ⟨?_, ?_⟩⟩, ?_⟩ <;>
      simp [findRedundantRules, entries, rulesOf, Findings.rules, ingress, egress, lengths, add_assoc]

theorem policies_gathered (policies : List (Policy P))
    (names : found.redundant_policies = (redundantPolicies config layer.2 layer.1).sort) :
    Gathered config found (policies.foldl (addRules config layer.1) found)
        ((policies.map (layer, ·)).filter (isAsked config)) ∧
      (policies.foldl (addRules config layer.1) found).redundant_policies =
        found.redundant_policies := by
  induction policies generalizing found with
  | nil => exact ⟨.nil, rfl⟩
  | cons policy rest ih =>
    obtain ⟨first, kept⟩ := addRules_gathered policy names
    obtain ⟨others, kept'⟩ := ih (kept.trans names)
    have split : ((policy :: rest).map (layer, ·)).filter (isAsked config) =
        [(layer, policy)].filter (isAsked config) ++
          (rest.map (layer, ·)).filter (isAsked config) := by
      rw [← List.filter_append]
      rfl
    rw [split]
    exact ⟨first.append others, kept'.trans kept⟩

variable (config)

/-- The policies of a layer whose rules are looked for, in the order of the loop. -/
def askedPolicies (layer : Layer P) : List (Layer P × Policy P) :=
  ((sorted Policy.lt layer.2).map (layer, ·)).filter (isAsked config)

/-- What the loop over the layers has found. -/
structure Found (layers : List (Layer P)) (found : Findings) : Prop where
  policies : found.redundant_policies = match layers.getLast? with
    | some layer => (redundantPolicies config layer.2 layer.1).sort
    | none => []
  rules : ∀ is_ingress, found.rules is_ingress =
    (entries config is_ingress (layers.flatMap (askedPolicies config))).foldl
      (fun dict entry => Dict.set dict entry.1 entry.2) []
  res : found.res = (layers.flatMap fun layer => (redundantPolicies config layer.2 layer.1).sort).length +
    ((entries config true (layers.flatMap (askedPolicies config))).flatMap Prod.snd).length +
    ((entries config false (layers.flatMap (askedPolicies config))).flatMap Prod.snd).length

variable {config}

theorem addLayer_found {layers : List (Layer P)} (layer : Layer P) (so_far : Found config layers found)
    (notGateway : layer.1 ∉ [.K8sGateway, .IstioGateway]) :
    Found config (layers ++ [layer]) (addLayer config found layer) := by
  unfold addLayer
  rw [if_neg notGateway]
  have started : ({ found with
      res := found.res + ((redundantPolicies config layer.2 layer.1).sort).length
      redundant_policies := (redundantPolicies config layer.2 layer.1).sort } :
        Findings).redundant_policies = (redundantPolicies config layer.2 layer.1).sort := rfl
  obtain ⟨gathered, names⟩ := policies_gathered (sorted Policy.lt layer.2) started
  have last : (layers ++ [layer]).flatMap (askedPolicies config) =
      layers.flatMap (askedPolicies config) ++ askedPolicies config layer := by
    rw [List.flatMap_append, List.flatMap_singleton]
  constructor
  · rw [List.getLast?_concat]
    exact names
  · intro is_ingress
    rw [last, entries_append, List.foldl_append, ← so_far.rules]
    exact gathered.rules is_ingress
  · have res := gathered.res
    dsimp only at res ⊢
    rw [res, so_far.res, last, entries_append, entries_append]
    simp only [List.flatMap_append, List.flatMap_singleton, List.length_append]
    unfold askedPolicies
    omega

theorem layers_found (layers : List (Layer P)) :
    Found config (layers.filter fun layer => decide (layer.1 ∉ [.K8sGateway, .IstioGateway]))
      (layers.foldl (addLayer config) {}) := by
  induction layers using List.reverseRecOn with
  | nil => exact ⟨rfl, Bool.forall_bool.mpr ⟨rfl, rfl⟩, rfl⟩
  | append_singleton layers layer ih =>
    rw [List.foldl_append, List.filter_append]
    by_cases gateway : layer.1 ∈ [.K8sGateway, .IstioGateway]
    · rw [List.filter_singleton, decide_eq_false (not_not_intro gateway)]
      have skipped : addLayer config (layers.foldl (addLayer config) {}) layer =
          layers.foldl (addLayer config) {} := if_pos gateway
      rw [List.foldl_cons, List.foldl_nil, skipped]
      simpa using ih
    · rw [List.filter_singleton, decide_eq_true gateway]
      exact addLayer_found layer ih gateway

/-- The variables of the query when its loops have ended. -/
theorem findings_found : Found config (notGatewayLayers config) (findings config) := layers_found _

end Runs

section Counting

variable {config : NetworkConfig P} {is_ingress : Bool}

theorem length_flatMap_filter {α β : Type} {q r : α → Bool} (g : α → List β) {xs : List α}
    (sub : ∀ x ∈ xs, q x = true → r x = true) :
    ((xs.filter q).flatMap g).length ≤ ((xs.filter r).flatMap g).length ∧
    (((xs.filter q).flatMap g).length = ((xs.filter r).flatMap g).length →
      ∀ x ∈ xs, r x = true → g x ≠ [] → q x = true) := by
  induction xs with
  | nil => simp
  | cons x rest ih =>
    obtain ⟨first, others⟩ := List.forall_mem_cons.mp sub
    obtain ⟨most, all⟩ := ih others
    by_cases asked : q x = true
    · rw [List.filter_cons_of_pos asked, List.filter_cons_of_pos (first asked)]
      simp only [List.flatMap_cons, List.length_append, List.forall_mem_cons]
      exact ⟨by omega, fun same => ⟨fun _ _ => asked, all (by omega)⟩⟩
    · rw [List.filter_cons_of_neg asked]
      by_cases kept : r x = true
      · rw [List.filter_cons_of_pos kept]
        simp only [List.flatMap_cons, List.length_append, List.forall_mem_cons]
        refine ⟨by omega, fun same => ⟨fun _ some => ?_, all (by omega)⟩⟩
        have positive := List.length_pos_iff.mpr some
        omega
      · rw [List.filter_cons_of_neg kept]
        simp only [List.forall_mem_cons]
        exact ⟨most, fun same => ⟨fun inside => absurd inside kept, all same⟩⟩

theorem ruleItems_length (entry : String × List Nat) :
    (ruleItems is_ingress entry).length = entry.2.length := List.length_map _

theorem flatMap_ruleItems_length (is_ingress : Bool) (dict : List (String × List Nat)) :
    (dict.flatMap (ruleItems is_ingress)).length = (dict.flatMap Prod.snd).length := by
  simp only [List.length_flatMap, ruleItems_length]

theorem entries_filled (config : NetworkConfig P) (is_ingress : Bool)
    (asked : List (Layer P × Policy P)) : ∀ entry ∈ entries config is_ingress asked, ruleItems is_ingress entry ≠ [] := by
  intro entry member
  obtain ⟨at_, inside, rfl⟩ := List.mem_map.mp member
  have some := (List.mem_filter.mp inside).2
  rw [Bool.not_eq_true', List.isEmpty_eq_false_iff] at some
  rw [← List.length_pos_iff, ruleItems_length, sorted_perm.length_eq]
  exact List.length_pos_iff.mpr some

theorem entries_items (asked : List (Layer P × Policy P)) :
    ((entries config is_ingress asked).flatMap (ruleItems is_ingress)).Perm
      (asked.flatMap fun at_ => ruleItems is_ingress (policyTitle at_.2, rulesOf config is_ingress at_)) := by
  induction asked with
  | nil => exact .nil
  | cons at_ rest ih =>
    rw [← List.singleton_append, entries_append, List.flatMap_append, List.flatMap_append]
    apply List.Perm.append _ ih
    unfold entries ruleItems
    rw [List.filter_singleton]
    cases rules : rulesOf config is_ingress at_ with
    | nil => simp [rules]
    | cons i rest =>
      have values : ((sorted (fun i j => decide (i < j)) (i :: rest)).map
          (Item.rule is_ingress (policyTitle at_.2))).Perm _ := sorted_perm.map _
      simpa [rules] using values

/-- The policies whose rules are looked for. -/
theorem asked_perm : ((notGatewayLayers config).flatMap (askedPolicies config)).Perm
    ((layeredPolicies config).filter (isAsked config)) := by
  unfold layeredPolicies askedPolicies
  induction notGatewayLayers config with
  | nil => exact .nil
  | cons layer rest ih =>
    rw [List.flatMap_cons, List.flatMap_cons, List.filter_append]
    exact ((sorted_perm.map _).filter _).append ih

theorem redundantPolicies_eq (layer : Layer P) : redundantPolicies config layer.2 layer.1 =
    (((layer.2.map (layer, ·)).filter (isRedundant config)).map (·.2.base.fullName)).toFinset := by
  unfold redundantPolicies
  rw [List.filter_map, List.map_map]
  by_cases several : layer.2.length > 1
  · rw [if_pos several]
    simp [Function.comp_def, isRedundant, several]
  · rw [if_neg several]
    simp [Function.comp_def, isRedundant, several]

theorem mem_redundantPolicies {layer : Layer P} {name : String} :
    name ∈ redundantPolicies config layer.2 layer.1 ↔
      ∃ other ∈ layer.2, isRedundant config (layer, other) = true ∧ other.base.fullName = name := by
  rw [redundantPolicies_eq]
  simp [and_assoc]

omit [Fintype E] [DecidableEq E] in
theorem mem_layeredPolicies {at_ : Layer P × Policy P} : at_ ∈ layeredPolicies config ↔
    at_.1 ∈ notGatewayLayers config ∧ at_.2 ∈ at_.1.2 := by
  obtain ⟨layer, policy⟩ := at_
  simp [layeredPolicies]

/-- No rule of a redundant policy is looked for. -/
theorem asked_not_redundant (config : NetworkConfig P) : ∀ at_ ∈ layeredPolicies config, isAsked config at_ = true →
    (!isRedundant config at_) = true := by
  intro at_ inside asked
  rw [Bool.not_eq_true', ← Bool.not_eq_true]
  intro redundant
  apply of_decide_eq_true asked
  rw [mem_redundantPolicies]
  exact ⟨at_.2, (mem_layeredPolicies.mp inside).2, redundant, rfl⟩

end Counting

section Kept

variable {config : NetworkConfig P}

/-- The redundant policies of one layer. -/
def redundantOf (config : NetworkConfig P) (layer : Layer P) : List (Layer P × Policy P) :=
  (layer.2.map (layer, ·)).filter (isRedundant config)

theorem redundant_layers : (layeredPolicies config).filter (isRedundant config) =
    (notGatewayLayers config).flatMap (redundantOf config) := by
  unfold layeredPolicies redundantOf
  rw [List.filter_flatMap]

theorem card_names (config : NetworkConfig P) (layer : Layer P) : (redundantPolicies config layer.2 layer.1).card ≤
      (redundantOf config layer).length ∧
    ((redundantPolicies config layer.2 layer.1).card = (redundantOf config layer).length →
      ((redundantOf config layer).map (·.2.base.fullName)).Nodup) := by
  rw [redundantPolicies_eq]
  constructor
  · exact (List.toFinset_card_le _).trans_eq (List.length_map _)
  · intro same
    have whole : (((redundantOf config layer).map (·.2.base.fullName) : List String) :
        Multiset String).toFinset.card = Multiset.card
          (((redundantOf config layer).map (·.2.base.fullName) : List String) : Multiset String) := by
      rw [Multiset.coe_card, List.length_map]
      exact same
    exact Multiset.coe_nodup.mp (Multiset.toFinset_card_eq_card_iff_nodup.mp whole)

/-- The names are all there only if they are those of the last layer and are all different. -/
theorem names_kept (config : NetworkConfig P) : (findings config).redundant_policies.length ≤
      ((layeredPolicies config).filter (isRedundant config)).length ∧
    ((findings config).redundant_policies.length =
        ((layeredPolicies config).filter (isRedundant config)).length →
      (∀ layer ∈ (notGatewayLayers config).dropLast, redundantOf config layer = []) ∧
      (((layeredPolicies config).filter (isRedundant config)).map (·.2.base.fullName)).Nodup) := by
  rw [findings_found.policies, redundant_layers]
  rcases List.eq_nil_or_concat (notGatewayLayers config) with none | ⟨before, last, whole⟩
  · simp [none]
  · obtain ⟨most, unique⟩ := card_names config last
    rw [whole, List.concat_eq_append, List.getLast?_concat, List.dropLast_concat, List.flatMap_append,
      List.flatMap_singleton, List.length_append]
    dsimp only
    rw [Finset.length_sort]
    apply And.intro (by omega)
    intro same
    have nothing : before.flatMap (redundantOf config) = [] := List.length_eq_zero_iff.mp (by omega)
    rw [nothing, List.nil_append]
    exact ⟨List.flatMap_eq_nil_iff.mp nothing, unique (by omega)⟩

theorem names_perm (last_layer : ∀ layer ∈ (notGatewayLayers config).dropLast, redundantOf config layer = [])
    (unique : (((layeredPolicies config).filter (isRedundant config)).map (·.2.base.fullName)).Nodup) :
    (findings config).redundant_policies.Perm
      (((layeredPolicies config).filter (isRedundant config)).map (·.2.base.fullName)) := by
  rw [findings_found.policies]
  rw [redundant_layers] at unique ⊢
  rcases List.eq_nil_or_concat (notGatewayLayers config) with none | ⟨before, last, whole⟩
  · simp [none]
  · rw [whole, List.concat_eq_append] at last_layer unique ⊢
    rw [List.dropLast_concat] at last_layer
    rw [List.flatMap_append, List.flatMap_eq_nil_iff.mpr last_layer, List.nil_append,
      List.flatMap_singleton] at unique ⊢
    rw [List.getLast?_concat]
    dsimp only
    rw [redundantPolicies_eq]
    exact (Finset.sort_perm_toList _ _).trans (List.toFinset_toList unique)

/-- The rules of a policy of a layer, as they are listed. -/
def itemsOf (config : NetworkConfig P) (is_ingress : Bool) (at_ : Layer P × Policy P) : List Item :=
  ruleItems is_ingress (policyTitle at_.2, rulesOf config is_ingress at_)

theorem itemsOf_nil {is_ingress : Bool} {at_ : Layer P × Policy P} :
    itemsOf config is_ingress at_ = [] ↔ rulesOf config is_ingress at_ = [] := List.map_eq_nil_iff

/-- What is written for a direction: the rules of the policies that are looked at. -/
theorem asked_items (config : NetworkConfig P) (is_ingress : Bool) : ((entries config is_ingress
    ((notGatewayLayers config).flatMap (askedPolicies config))).flatMap (ruleItems is_ingress)).Perm
      (((layeredPolicies config).filter (isAsked config)).flatMap (itemsOf config is_ingress)) :=
  (entries_items _).trans (asked_perm.flatMap_right _)

/-- The rules of a direction are all there only if no policy hides another one and all titles are
different. -/
theorem rules_kept (config : NetworkConfig P) (is_ingress : Bool) :
    (((findings config).rules is_ingress).flatMap (ruleItems is_ingress)).length ≤
      (redundantRuleItems config is_ingress).length ∧
    ((((findings config).rules is_ingress).flatMap (ruleItems is_ingress)).length =
        (redundantRuleItems config is_ingress).length →
      (Dict.keys (entries config is_ingress
        ((notGatewayLayers config).flatMap (askedPolicies config)))).Nodup ∧
      ∀ at_ ∈ layeredPolicies config, (!isRedundant config at_) = true →
        rulesOf config is_ingress at_ ≠ [] → isAsked config at_ = true) := by
  rw [findings_found.rules]
  have written := (asked_items config is_ingress).length_eq
  have filled := entries_filled config is_ingress
    ((notGatewayLayers config).flatMap (askedPolicies config))
  generalize entries config is_ingress ((notGatewayLayers config).flatMap (askedPolicies config)) =
    writes at written filled ⊢
  obtain ⟨most, fresh⟩ := Dict.length_flatMap_foldl_set writes (d := []) (by simp) filled
  obtain ⟨most', asked⟩ := length_flatMap_filter (itemsOf config is_ingress)
    (asked_not_redundant config)
  have whole : redundantRuleItems config is_ingress =
      ((layeredPolicies config).filter (!isRedundant config ·)).flatMap (itemsOf config is_ingress) := rfl
  rw [List.flatMap_nil, List.length_nil, Nat.zero_add] at most fresh
  rw [whole]
  constructor
  · omega
  · intro all
    refine ⟨(fresh (by omega)).1, fun at_ inside kept some => asked (by omega) at_ inside kept ?_⟩
    rwa [ne_eq, itemsOf_nil]

theorem filter_flatMap_eq {α β : Type} {q r : α → Bool} {g : α → List β} {xs : List α}
    (same : ∀ x ∈ xs, g x ≠ [] → (q x = true ↔ r x = true)) :
    (xs.filter q).flatMap g = (xs.filter r).flatMap g := by
  induction xs with
  | nil => rfl
  | cons x rest ih =>
    obtain ⟨first, others⟩ := List.forall_mem_cons.mp same
    have flat : ∀ p : α → Bool, ((x :: rest).filter p).flatMap g =
        (if p x then g x else []) ++ (rest.filter p).flatMap g := by
      intro p
      rw [List.filter_cons]
      split <;> simp
    rw [flat, flat, ih others]
    by_cases nothing : g x = []
    · simp [nothing]
    · simp only [first nothing]

variable {is_ingress : Bool}

/-- The titles under which rules are written. -/
theorem keys_perm (unhidden : ∀ at_ ∈ layeredPolicies config, (!isRedundant config at_) = true →
      rulesOf config is_ingress at_ ≠ [] → isAsked config at_ = true) :
    (Dict.keys (entries config is_ingress
      ((notGatewayLayers config).flatMap (askedPolicies config)))).Perm
    (((layeredPolicies config).filter fun at_ =>
      !isRedundant config at_ && !(rulesOf config is_ingress at_).isEmpty).map (policyTitle ·.2)) := by
  unfold Dict.keys entries
  rw [List.map_map]
  apply List.Perm.map
  apply (asked_perm.filter _).trans
  rw [List.filter_filter]
  apply List.Perm.of_eq
  apply List.filter_congr
  intro at_ inside
  have asked := asked_not_redundant config at_ inside
  have shown := unhidden at_ inside
  rw [ne_eq, ← List.isEmpty_iff] at shown
  have cases : ∀ asked redundant empty : Bool, (asked = true → (!redundant) = true) →
      ((!redundant) = true → ¬ empty = true → asked = true) →
      (!empty && asked) = (!redundant && !empty) := by decide
  exact cases _ _ _ asked shown

theorem rules_perm (unhidden : ∀ at_ ∈ layeredPolicies config, (!isRedundant config at_) = true →
      rulesOf config is_ingress at_ ≠ [] → isAsked config at_ = true)
    (titles : (((layeredPolicies config).filter fun at_ =>
      !isRedundant config at_ && !(rulesOf config is_ingress at_).isEmpty).map (policyTitle ·.2)).Nodup) :
    (findings config).rules is_ingress =
      entries config is_ingress ((notGatewayLayers config).flatMap (askedPolicies config)) ∧
    (((findings config).rules is_ingress).flatMap (ruleItems is_ingress)).Perm
      (redundantRuleItems config is_ingress) := by
  have written : (findings config).rules is_ingress =
      entries config is_ingress ((notGatewayLayers config).flatMap (askedPolicies config)) := by
    rw [findings_found.rules, Dict.foldl_set_fresh Prod.fst Prod.snd _
      ((keys_perm unhidden).nodup_iff.mpr titles) [] (by simp [Dict.keys])]
    exact List.map_id _
  apply And.intro written
  rw [written]
  apply (asked_items config is_ingress).trans (List.Perm.of_eq _)
  apply filter_flatMap_eq
  intro at_ inside some
  have listed := (not_congr itemsOf_nil).mp some
  exact ⟨asked_not_redundant config at_ inside, fun kept => unhidden at_ inside kept listed⟩

/-- What the variables of the query hold when its loops have ended. -/
def foundItems (found : Findings) : List Item :=
  found.redundant_policies.map .policy ++ (found.rules true).flatMap (ruleItems true) ++
    (found.rules false).flatMap (ruleItems false)

/-- The counter counts at least what is held. -/
theorem foundItems_length (config : NetworkConfig P) : (foundItems (findings config)).length ≤ (findings config).res := by
  have names : (findings config).redundant_policies.length ≤ ((notGatewayLayers config).flatMap
      fun layer => (redundantPolicies config layer.2 layer.1).sort).length := by
    rw [findings_found.policies]
    rcases List.eq_nil_or_concat (notGatewayLayers config) with none | ⟨before, last, whole⟩
    · simp [none]
    · rw [whole, List.concat_eq_append, List.getLast?_concat, List.flatMap_append,
        List.flatMap_singleton, List.length_append]
      exact Nat.le_add_left _ _
  have rules : ∀ is_ingress, (((findings config).rules is_ingress).flatMap (ruleItems is_ingress)).length ≤
      ((entries config is_ingress
        ((notGatewayLayers config).flatMap (askedPolicies config))).flatMap Prod.snd).length := by
    intro is_ingress
    rw [findings_found.rules, ← flatMap_ruleItems_length is_ingress]
    have most := (Dict.length_flatMap_foldl_set _ (d := []) (by simp)
      (entries_filled config is_ingress ((notGatewayLayers config).flatMap (askedPolicies config)))).1
    rwa [List.flatMap_nil, List.length_nil, Nat.zero_add] at most
  have first := rules true
  have second := rules false
  rw [findings_found.res]
  unfold foundItems
  rw [List.length_append, List.length_append, List.length_map]
  omega

theorem listed_exec (config : NetworkConfig P) (name : String) : listed (exec config name) = foundItems (findings config) ∧
    (exec config name).numerical_result = (findings config).res := by
  have least := foundItems_length config
  unfold exec listed
  dsimp only
  split
  · constructor
    · rw [List.flatMap_singleton]
      rfl
    · rfl
  · have nothing : foundItems (findings config) = [] := List.length_eq_zero_iff.mp (by omega)
    constructor
    · rw [nothing]
      rfl
    · show 0 = _
      omega

/-- If only the last layer has redundant policies, then the counter counts the names of that layer. -/
theorem names_counted (last_layer : ∀ layer ∈ (notGatewayLayers config).dropLast,
      redundantOf config layer = []) :
    ((notGatewayLayers config).flatMap
      fun layer => (redundantPolicies config layer.2 layer.1).sort).length =
        (findings config).redundant_policies.length := by
  rw [findings_found.policies]
  rcases List.eq_nil_or_concat (notGatewayLayers config) with none | ⟨before, last, whole⟩
  · simp [none]
  · rw [whole, List.concat_eq_append] at last_layer ⊢
    rw [List.dropLast_concat] at last_layer
    have nothing : (before.flatMap fun layer =>
        (redundantPolicies config layer.2 layer.1).sort) = [] := by
      apply List.flatMap_eq_nil_iff.mpr
      intro layer inside
      have none : (layer.2.map (layer, ·)).filter (isRedundant config) = [] := last_layer layer inside
      rw [redundantPolicies_eq, none, List.map_nil, List.toFinset_nil, Finset.sort_empty]
    rw [List.flatMap_append, nothing, List.nil_append, List.flatMap_singleton, List.getLast?_concat]

/-- The rules of a policy are looked for unless a redundant policy of the layer has its name. -/
theorem shown_iff : (∀ at_ ∈ layeredPolicies config, (!isRedundant config at_) = true →
      rulesOf config is_ingress at_ ≠ [] → isAsked config at_ = true) ↔
    ∀ layer ∈ notGatewayLayers config, ∀ policy ∈ layer.2, ∀ other ∈ layer.2,
      isRedundant config (layer, policy) = false → isRedundant config (layer, other) = true →
      policy.base.fullName = other.base.fullName → rulesOf config is_ingress (layer, policy) = [] := by
  constructor
  · intro shown layer inside policy member other member' kept redundant same
    by_contra some
    have asked := shown (layer, policy) (mem_layeredPolicies.mpr ⟨inside, member⟩)
      ((Bool.not_eq_true' _).mpr kept) some
    apply of_decide_eq_true asked
    exact mem_redundantPolicies.mpr ⟨other, member', redundant, same.symm⟩
  · intro unhidden at_ inside kept some
    obtain ⟨inside, member⟩ := mem_layeredPolicies.mp inside
    apply decide_eq_true
    intro hidden
    obtain ⟨other, member', redundant, same⟩ := mem_redundantPolicies.mp hidden
    exact some (unhidden at_.1 inside at_.2 member other member' ((Bool.not_eq_true' _).mp kept)
      redundant same.symm)

/-- The query lists every finding once and counts what it lists if and only if no finding takes the
place of another one or is hidden by another one. -/
theorem exec_exact (config : NetworkConfig P) (name : String) :
    ((listed (exec config name)).Perm (redundantItems config) ∧
      (exec config name).numerical_result = (listed (exec config name)).length) ↔
    FindingsKept config := by
  obtain ⟨same, counted⟩ := listed_exec config name
  rw [same, counted]
  have layer_nil : ∀ layer, redundantOf config layer = [] ↔
      ∀ policy ∈ layer.2, isRedundant config (layer, policy) = false := by
    intro layer
    simp [redundantOf]
  constructor
  · intro ⟨perm, _⟩
    have length := perm.length_eq
    simp only [foundItems, redundantItems, List.length_append, List.length_map] at length
    obtain ⟨most, names⟩ := names_kept config
    obtain ⟨ingress, kept⟩ := rules_kept config true
    obtain ⟨egress, kept'⟩ := rules_kept config false
    obtain ⟨last_layer, unique⟩ := names (by omega)
    have unique_titles := kept (by omega)
    have unique_titles' := kept' (by omega)
    refine ⟨fun layer inside => (layer_nil layer).mp (last_layer layer inside), unique, ?_, ?_⟩
    · intro layer inside policy member other member' kept redundant name is_ingress
      cases is_ingress with
      | true => exact shown_iff.mp unique_titles.2 layer inside policy member other member' kept redundant name
      | false => exact shown_iff.mp unique_titles'.2 layer inside policy member other member' kept redundant name
    · intro is_ingress
      cases is_ingress with
      | true => exact (keys_perm unique_titles.2).nodup_iff.mp unique_titles.1
      | false => exact (keys_perm unique_titles'.2).nodup_iff.mp unique_titles'.1
  · intro kept
    have last_layer : ∀ layer ∈ (notGatewayLayers config).dropLast, redundantOf config layer = [] :=
      fun layer inside => (layer_nil layer).mpr (kept.last_layer layer inside)
    have rules := fun is_ingress => rules_perm
      (shown_iff.mpr fun layer inside policy member other member' kept' redundant name =>
        kept.unhidden layer inside policy member other member' kept' redundant name is_ingress)
      (kept.titles is_ingress)
    have names := (names_perm last_layer kept.names).map Item.policy
    rw [List.map_map] at names
    apply And.intro ((names.append (rules true).2).append (rules false).2)
    rw [findings_found.res, names_counted last_layer, ← (rules true).1, ← (rules false).1]
    simp only [foundItems, List.length_append, List.length_map, flatMap_ruleItems_length]

end Kept

section TwoLayers

/-- A policy that selects nothing. -/
def idlePolicy (name : String) : Policy (FlowSet PeerKind Unit) := .k8s
  { name := name
    policy_namespace := some "default"
    selected_peers := ∅
    affects_ingress := true
    affects_egress := false
    policy_kind := .K8sNetworkPolicy
    ingress_rules := []
    egress_rules := []
    kind := rfl
    ingress_inside := nofun
    egress_inside := nofun }

def idleIstio : Policy (FlowSet PeerKind Unit) := .istio
  { name := "c"
    policy_namespace := some "default"
    selected_peers := ∅
    affects_ingress := true
    affects_egress := false
    policy_kind := .IstioAuthorizationPolicy
    action := .Allow
    ingress_rules := []
    kind := rfl
    ingress_inside := nothing_inside
    no_dns := nothing_noDns }

def idleConfig : NetworkConfig (FlowSet PeerKind Unit) :=
  configOf ⟨{.pod}⟩ [idlePolicy "a", idlePolicy "b", idleIstio]


/-- Policies that select nothing decide nothing. -/
theorem idle_sameDecisions {policies_list policies_list' : List (Policy (FlowSet PeerKind Unit))}
    (idle : ∀ p ∈ policies_list, ∀ is_ingress, p.captured is_ingress = ∅)
    (idle' : ∀ p ∈ policies_list', ∀ is_ingress, p.captured is_ingress = ∅) :
    NetworkLayer.SameDecisions policies_list policies_list' := by
  have none : ∀ {list : List (Policy (FlowSet PeerKind Unit))}, (∀ p ∈ list, ∀ is_ingress,
      p.captured is_ingress = ∅) → ∀ is_ingress (x : Flow PeerKind Unit),
      list.findSome? (Policy.verdictOn · is_ingress x) = none := by
    intro list idle is_ingress x
    apply List.findSome?_eq_none_iff.mpr
    intro p inside
    exact if_neg (not_not_intro (idle p inside is_ingress))
  constructor
  · intro is_ingress x
    rw [none idle, none idle']
  · intro captured_func _ is_ingress e
    have nobody : ∀ {list : List (Policy (FlowSet PeerKind Unit))}, (∀ p ∈ list, ∀ is_ingress,
        p.captured is_ingress = ∅) →
        ¬ ∃ p ∈ list, captured_func p = true ∧ e ∈ p.captured is_ingress := by
      intro list idle ⟨p, inside, _, captured⟩
      rw [idle p inside is_ingress] at captured
      exact absurd captured (Finset.notMem_empty e)
    exact iff_of_false (nobody idle) (nobody idle')

theorem idle_captured (name : String) (is_ingress : Bool) : (idlePolicy name).captured is_ingress = ∅ := by
  cases is_ingress <;> rfl

/-- The policy is redundant. -/
theorem idle_redundant : isRedundantPolicy idleConfig .K8s_Calico (idlePolicy "a") = true := by
  have values : idleConfig.policies_container.policies.map Prod.snd =
      [idlePolicy "a", idlePolicy "b", idleIstio] := rfl
  have alone : ∀ p ∈ idleConfig.policies_container.policies.map Prod.snd,
      p.eq (idlePolicy "a") = true → PoliciesContainer.key p = PoliciesContainer.key (idlePolicy "a") := by
    rw [values]
    simp [idlePolicy, idleIstio, Policy.eq, Policy.baseEq, Policy.base]
  have cloned : idleConfig.cloneWithoutPolicy (idlePolicy "a") =
      configOf ⟨{.pod}⟩ [idlePolicy "b", idleIstio] := cloneWithoutPolicy_others List.mem_cons_self alone
  unfold isRedundantPolicy
  rw [cloned]
  have fewer : (⟨idleConfig, configOf ⟨{.pod}⟩ [idlePolicy "b", idleIstio], true⟩ :
      TwoNetworkConfigsQuery (FlowSet PeerKind Unit)).samePolicies = false := rfl
  have exclude : (configOf ⟨{.pod}⟩ [idlePolicy "b", idleIstio]).checkForExcludingIpv6Addresses true =
      true := rfl
  have peers : (configOf ⟨{.pod}⟩ [idlePolicy "b", idleIstio]).peer_container =
      idleConfig.peer_container := rfl
  rw [exec_iff peers fewer fun _ => exclude]
  · intro x _ _
    have layer : idleConfig.layerPolicies .K8s_Calico = [idlePolicy "a", idlePolicy "b"] := rfl
    have layer' : (configOf ⟨{.pod}⟩ [idlePolicy "b", idleIstio]).layerPolicies .K8s_Calico =
        [idlePolicy "b"] := rfl
    rw [layer, layer', NetworkLayer.allowedConnections_congr (idle_sameDecisions _ _)]
    · simp [idle_captured]
    · simp [idle_captured]

/-- Both policies of the first layer are redundant, and neither of them is listed. -/
theorem idleConfig_unlisted : ¬ ((listed (exec idleConfig "idle")).Perm (redundantItems idleConfig) ∧
    (exec idleConfig "idle").numerical_result = (listed (exec idleConfig "idle")).length) := by
  intro ⟨perm, _⟩
  have layers : notGatewayLayers idleConfig =
      [(.K8s_Calico, [idlePolicy "a", idlePolicy "b"]), (.Istio, [idleIstio])] := rfl
  have expected : Item.policy "default/a" ∈ redundantItems idleConfig := by
    apply List.mem_append_left
    apply List.mem_append_left
    apply List.mem_map.mpr
    refine ⟨((.K8s_Calico, [idlePolicy "a", idlePolicy "b"]), idlePolicy "a"), ?_, rfl⟩
    apply List.mem_filter.mpr
    refine ⟨mem_layeredPolicies.mpr ⟨layers ▸ List.mem_cons_self, List.mem_cons_self⟩, ?_⟩
    exact (Bool.and_eq_true _ _).mpr ⟨rfl, idle_redundant⟩
  have names : (findings idleConfig).redundant_policies = [] := by
    rw [findings_found.policies, layers]
    exact Finset.sort_empty _
  have found := perm.mem_iff.mpr expected
  rw [(listed_exec idleConfig "idle").1, foundItems, names] at found
  simp [ruleItems] at found

end TwoLayers
end RedundancyQuery
end Nca.NetworkConfig
