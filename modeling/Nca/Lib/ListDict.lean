import Nca.Lib.Dict

/-!
Dictionaries of lists, in which a missing key has the empty list, and the grouping of a list by a key
of its elements.
-/

namespace Nca.Lib.ListDict

variable {κ α : Type} [DecidableEq κ]

/-- `d[k]` of a `defaultdict(list)`. -/
def find (d : List (κ × List α)) (k : κ) : List α := (Dict.get d k).getD []

/-- `d[k].append(x)`. -/
def append (d : List (κ × List α)) (k : κ) (x : α) : List (κ × List α) :=
  Dict.set d k (find d k ++ [x])

/-- Each element appended to the list of its key. -/
def groupBy (key : α → κ) (xs : List α) : List (κ × List α) :=
  xs.foldl (fun d x => append d (key x) x) []

variable {d : List (κ × List α)} {k k' : κ} {x y : α} {key : α → κ} {xs group : List α}

theorem find_append : find (append d k x) k' = find d k' ++ if k = k' then [x] else [] := by
  show (Dict.get (Dict.set d k _) k').getD [] = _
  rw [Dict.get_set]
  by_cases same : k = k'
  · rw [if_pos same, if_pos same, same]
    rfl
  · rw [if_neg same, if_neg same, List.append_nil]
    rfl

theorem mem_find_append : y ∈ find (append d k x) k' ↔ y ∈ find d k' ∨ k = k' ∧ y = x := by
  rw [find_append, List.mem_append]
  by_cases same : k = k' <;> simp [same]

theorem find_eq (unique : (Dict.keys d).Nodup) (listed : (k, group) ∈ d) : find d k = group := by
  unfold find
  rw [Dict.get_of_mem unique listed]
  rfl

theorem find_foldl_append (key : α → κ) (xs : List α) (d : List (κ × List α)) :
    find (xs.foldl (fun d x => append d (key x) x) d) k = find d k ++ xs.filter fun x => key x = k := by
  induction xs generalizing d with
  | nil => simp
  | cons x rest ih =>
    rw [List.foldl_cons, ih, find_append, List.filter_cons, List.append_assoc]
    by_cases same : key x = k <;> simp [same]

theorem find_groupBy : find (groupBy key xs) k = xs.filter fun x => key x = k :=
  find_foldl_append key xs []

theorem nodup_keys_groupBy : (Dict.keys (groupBy key xs)).Nodup := by
  have kept : ∀ (xs : List α) (d : List (κ × List α)), (Dict.keys d).Nodup →
      (Dict.keys (xs.foldl (fun d x => append d (key x) x) d)).Nodup := by
    intro xs
    induction xs with
    | nil => exact fun _ unique => unique
    | cons x rest ih => exact fun d unique => ih _ (Dict.nodup_keys_set unique _ _)
  exact kept xs [] List.nodup_nil

/-- The group of a key has the elements with the key, in their order. -/
theorem mem_groupBy (listed : (k, group) ∈ groupBy key xs) :
    group = xs.filter fun x => key x = k := by
  rw [← find_eq nodup_keys_groupBy listed, find_groupBy]

theorem perm_groupBy (key : α → κ) (xs : List α) : ((groupBy key xs).flatMap Prod.snd).Perm xs := by
  have walk : ∀ (xs : List α) (d : List (κ × List α)),
      ((xs.foldl (fun d x => append d (key x) x) d).flatMap Prod.snd).Perm
        (d.flatMap Prod.snd ++ xs) := by
    intro xs
    induction xs with
    | nil =>
      intro d
      rw [List.append_nil]
      exact List.Perm.refl _
    | cons x rest ih =>
      intro d
      apply (ih _).trans
      have added := Dict.flatMap_set d (key x) (List.perm_append_singleton x (find d (key x)))
      exact (added.append_right rest).trans List.perm_middle.symm
  exact walk xs []

end Nca.Lib.ListDict
