import Nca.FWRules.Cliques
import Nca.Lib.Numerals

/-!
The names of the nodes of cliques. Inside a label they are different, and two labels share a name
when both have a node that stands for a namespace under one number.
-/

namespace Nca.FWRules
open Lib.Numerals

variable {conn_str conn_str' name : String} {joint joint' : Bool} {number number' : Nat}
  {kinds kinds' : List Bool}

theorem numberedName_eq (conn_str : String) (joint : Bool) (number : Nat) :
    numberedName conn_str joint number =
      "clique_" ++ if joint then conn_str ++ toString number else toString number := by
  cases joint
  · rfl
  · exact String.append_assoc

/-- A name tells the number and the kind of its node, and the label if the node joins namespaces. -/
theorem numberedName_inj (framed : Framed conn_str) (framed' : Framed conn_str')
    (same : numberedName conn_str joint number = numberedName conn_str' joint' number') :
    number = number' ∧ joint = joint' ∧ (joint = true → conn_str = conn_str') := by
  rw [numberedName_eq, numberedName_eq] at same
  have rest := (String.append_right_inj _).mp same
  cases joint <;> cases joint'
  · exact ⟨number_inj rest, rfl, fun joint => by cases joint⟩
  · exact absurd rest (number_ne framed')
  · exact absurd rest.symm (number_ne framed)
  · obtain ⟨texts, numbers⟩ := framed_append_inj framed framed' rest
    exact ⟨numbers, rfl, fun _ => texts⟩

theorem mem_numberedNames : name ∈ numberedNames conn_str kinds 0 ↔
    ∃ number joint, kinds[number]? = some joint ∧ name = numberedName conn_str joint number := by
  unfold numberedNames
  rw [List.mem_map]
  constructor
  · intro taken
    obtain ⟨⟨joint, number⟩, listed, rfl⟩ := taken
    exact ⟨number, joint, List.mem_zipIdx_iff_getElem?.mp listed, rfl⟩
  · intro taken
    obtain ⟨number, joint, found, rfl⟩ := taken
    exact ⟨(joint, number), List.mem_zipIdx_iff_getElem?.mpr found, rfl⟩

theorem nodup_numberedNames (framed : Framed conn_str) (kinds : List Bool) :
    (numberedNames conn_str kinds 0).Nodup := by
  apply List.Nodup.map_on
  · intro a listed b listed' same
    have numbers := (numberedName_inj framed framed same).1
    have first : kinds[a.2]? = some a.1 := List.mem_zipIdx_iff_getElem?.mp listed
    have second : kinds[b.2]? = some b.1 := List.mem_zipIdx_iff_getElem?.mp listed'
    rw [numbers, second] at first
    exact Prod.ext (Option.some.inj first).symm numbers
  · exact List.Nodup.of_map Prod.snd (List.zipIdx_map_snd 0 kinds ▸ List.nodup_range')

/-- Two labels share a name exactly where both number a node of a namespace alike. -/
theorem disjoint_numberedNames (framed : Framed conn_str) (framed' : Framed conn_str')
    (different : conn_str ≠ conn_str') :
    (numberedNames conn_str kinds 0).Disjoint (numberedNames conn_str' kinds' 0) ↔
      ∀ number : Nat, ¬ (kinds[number]? = some false ∧ kinds'[number]? = some false) := by
  constructor
  · intro apart number both
    exact apart (mem_numberedNames.mpr ⟨number, false, both.1, rfl⟩)
      (mem_numberedNames.mpr ⟨number, false, both.2, rfl⟩)
  · intro apart name listed listed'
    obtain ⟨number, joint, found, rfl⟩ := mem_numberedNames.mp listed
    obtain ⟨number', joint', found', same⟩ := mem_numberedNames.mp listed'
    obtain ⟨rfl, rfl, texts⟩ := numberedName_inj framed framed' same
    cases joint
    · exact apart number ⟨found, found'⟩
    · exact different (texts rfl)

theorem prefix_of_numberedNames (listed : name ∈ numberedNames conn_str kinds 0) :
    ∃ rest, name = "clique_" ++ rest := by
  obtain ⟨number, joint, _, rfl⟩ := mem_numberedNames.mp listed
  exact ⟨_, numberedName_eq conn_str joint number⟩

end Nca.FWRules
