import Mathlib.Data.Finset.Union
import Mathlib.Data.Finset.Lattice.Basic

/-!
Lists of sets that are disjoint and together make a whole. A part may be empty.
-/

namespace Nca.Lib

variable {ω : Type} [DecidableEq ω] {parts more : List (Finset ω)} {part last whole rest : Finset ω}

/-- The parts are disjoint, and the whole has the elements that some part has. -/
structure Partition (parts : List (Finset ω)) (whole : Finset ω) : Prop where
  disjoint : parts.Pairwise Disjoint
  covers : ∀ x, x ∈ whole ↔ ∃ part ∈ parts, x ∈ part

namespace Partition

omit [DecidableEq ω] in
theorem single (whole : Finset ω) : Partition [whole] whole where
  disjoint := List.pairwise_singleton _ _
  covers := by simp

omit [DecidableEq ω] in
theorem part_subset (split : Partition parts whole) (member : part ∈ parts) : part ⊆ whole :=
  fun x inside => (split.covers x).mpr ⟨part, member, inside⟩

/-- A part of the whole, and a partition of what is left. -/
theorem cons (inside : part ⊆ whole) (split : Partition parts (whole \ part)) :
    Partition (part :: parts) whole where
  disjoint := by
    apply List.pairwise_cons.mpr ⟨?_, split.disjoint⟩
    intro other member
    exact Finset.disjoint_sdiff.mono_right (split.part_subset member)
  covers x := by
    rw [List.exists_mem_cons_iff, ← split.covers, Finset.mem_sdiff]
    by_cases first : x ∈ part
    · exact iff_of_true (inside first) (.inl first)
    · rw [and_iff_left first, or_iff_right first]

theorem append (left : Partition parts whole) (right : Partition more rest)
    (apart : Disjoint whole rest) : Partition (parts ++ more) (whole ∪ rest) where
  disjoint := by
    apply List.pairwise_append.mpr ⟨left.disjoint, right.disjoint, ?_⟩
    intro part member other member'
    exact apart.mono (left.part_subset member) (right.part_subset member')
  covers x := by
    rw [Finset.mem_union, left.covers, right.covers]
    simp only [List.mem_append, or_and_right, exists_or]

/-- Two parts can be one. -/
theorem join (split : Partition (part :: last :: parts) whole) :
    Partition ((part ∪ last) :: parts) whole where
  disjoint := by
    obtain ⟨first, rest⟩ := List.pairwise_cons.mp split.disjoint
    obtain ⟨second, rest⟩ := List.pairwise_cons.mp rest
    apply List.pairwise_cons.mpr ⟨?_, rest⟩
    intro other member
    exact Finset.disjoint_union_left.mpr ⟨first other (List.mem_cons_of_mem _ member), second other member⟩
  covers x := by
    rw [split.covers]
    simp [or_assoc]

omit [DecidableEq ω] in
theorem perm (split : Partition parts whole) (same : parts.Perm more) : Partition more whole where
  disjoint := (same.pairwise_iff fun apart => apart.symm).mp split.disjoint
  covers x := by
    rw [split.covers]
    simp only [same.mem_iff]

omit [DecidableEq ω] in
/-- An empty part can be left out. -/
theorem drop_empty (split : Partition (∅ :: parts) whole) : Partition parts whole where
  disjoint := (List.pairwise_cons.mp split.disjoint).2
  covers x := by
    rw [split.covers]
    simp

end Partition
end Nca.Lib
