import Mathlib.Data.Finset.Sort
import Mathlib.Data.List.Lex
import Mathlib.Data.List.Sort
import Mathlib.Data.String.Basic
import Nca.FWRules.ClusterInfo
import Nca.Lib.Python

/-!
The elements of firewall rules that label grouping makes: the pods of some values of a label, with
the text that is printed for them, and the pods that no label stands for.
-/

namespace Nca.FWRules
open CoreDS Lib Lib.Python ClusterInfo

/-- The values of a label, with all that it has in the namespaces in question. -/
structure LabelExpr where
  key : Str
  values : Finset Str
  map_simple_keys_to_all_values : List (Str × Finset Str)
  all_values : Finset Str
  deriving DecidableEq

namespace LabelExpr

/-- `sep.join(parts)`. -/
def joinStr (sep : String) (parts : List Str) : Str := sep.toList.intercalate parts

def sorted (parts : List Str) : List Str := parts.insertionSort (· ≤ ·)

def hasStr (key : Str) : Str := "has(".toList ++ key ++ ")".toList

def getInvalidValueExprStr (k : Str) : Str :=
  joinStr " and " ((sorted (splitKey k)).map fun key => "!".toList ++ hasStr key)

def getAllValidValuesExprStr (k : Str) : Str :=
  joinStr " and " ((sorted (splitKey k)).map hasStr)

instance values_trans : IsTrans Str (· ≤ ·) := inferInstance

instance values_antisymm : Std.Antisymm (α := Str) (· ≤ ·) := inferInstance

instance values_total : Std.Total (α := Str) (· ≤ ·) := inferInstance

def getValidValuesExprStr (k : Str) (values complement_values : Finset Str)
    (ns_has_pods_without_label_k : Bool) : Str :=
  if values = ∅ then []
  else
    let complemented := complement_values ≠ ∅ ∧ complement_values.card < values.card
    let shorter_values_list := if complemented then complement_values else values
    let containment_str := if complemented then "not in".toList else "in".toList
    let prefix_expr :=
      if complemented ∧ ns_has_pods_without_label_k then hasStr k ++ " and ".toList else []
    let vals_str := joinStr "," (shorter_values_list.sort (· ≤ ·))
    let label_containment_expr :=
      if shorter_values_list.card = 1 then
        let equality_operator := if complemented then "!=".toList else "=".toList
        k ++ equality_operator ++ vals_str
      else k ++ " ".toList ++ containment_str ++ " (".toList ++ vals_str ++ ")".toList
    if prefix_expr ≠ [] then "(".toList ++ prefix_expr ++ label_containment_expr ++ ")".toList
    else label_containment_expr

variable (self : LabelExpr)

def getValuesExprStrPerSimpleKey (k : Str) (values : Finset Str) : Except Failure Str := do
  let all_values ← match Dict.get self.map_simple_keys_to_all_values k with
    | none => .error .key
    | some all_values => pure all_values
  let invalid_exprs := if invalid_val ∈ values then [getInvalidValueExprStr k] else []
  let valid_values := values.erase invalid_val
  let all_valid_values := all_values.erase invalid_val
  let valid_exprs :=
    if valid_values = ∅ then []
    else if valid_values = all_valid_values ∧ 1 < all_valid_values.card then
      [getAllValidValuesExprStr k]
    else [getValidValuesExprStr k valid_values (all_valid_values \ valid_values)
      (invalid_val ∈ all_values)]
  let expr_str_list := invalid_exprs ++ valid_exprs
  let res_expr_str := joinStr " or " (sorted expr_str_list)
  pure (if 1 < expr_str_list.length then "\x7b".toList ++ res_expr_str ++ "\x7d".toList
    else res_expr_str)

/-- `set(v.split(':')[index] for v in self.values)`. -/
def valuesSetPerKey (index : Nat) : Except Failure (Finset Str) :=
  if ∀ val ∈ self.values, index < (splitKey val).length then
    pure (self.values.image fun val => (splitKey val).getD index [])
  else .error .index

/-- `LabelExpr.__str__`. -/
def str : Except Failure Str := do
  let all_valid_values := self.all_values.filter fun v => ¬ invalid_val <:+: v
  if self.values = all_valid_values ∧ 1 < all_valid_values.card then
    pure (getAllValidValuesExprStr self.key)
  else
    let expr_str_list ← (splitKey self.key).zipIdx.mapM fun (key, index) => do
      let values_set_per_key ← self.valuesSetPerKey index
      self.getValuesExprStrPerSimpleKey key values_set_per_key
    match expr_str_list with
    | [expr_str] => pure (expr_str.filter fun c => c ≠ '\x7b' ∧ c ≠ '\x7d')
    | _ => pure (joinStr " and " (sorted expr_str_list))

end LabelExpr

/-- A `PodLabelsElement` or a `PeerSetElement`. -/
inductive FWRuleElement (K : Type) where
  | podLabels (element : LabelExpr) (ns_info : Finset (Option String))
  | peerSet (element : Finset K)
  deriving DecidableEq

namespace FWRuleElement

variable {K : Type} [DecidableEq K] (cluster_info : ClusterInfo K)

/-- `FWRuleElement.get_pods_set`: the pods of the namespaces. -/
def nsPodsSet (ns_info : Finset (Option String)) : Finset K :=
  ns_info.biUnion fun ns => SetDict.find cluster_info.ns_dict ns

def getPodsSet : FWRuleElement K → Finset K
  | podLabels element ns_info =>
    let ns_pods := nsPodsSet cluster_info ns_info
    element.values.biUnion fun v =>
      SetDict.find cluster_info.pods_labels_map (element.key, v) ∩ ns_pods
  | peerSet element => element

end FWRuleElement
end Nca.FWRules
