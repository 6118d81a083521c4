import Mathlib.Data.Finset.Basic
import Mathlib.Data.Finset.SDiff
import Nca.Lib.Returns

/-!
Exact representations of sets: a type whose values stand for sets of points, with computable
operations that denote the set operations, and with one value for each set it can represent.
-/

namespace Nca.Lib

/-- `S` represents sets of `α` exactly, one value a set. -/
class ExactSet (S : Type) (α : outParam Type) extends
    Union S, Inter S, SDiff S, EmptyCollection S where
  decEq : DecidableEq S
  contains : S → α → Bool
  contains_empty : ∀ x, contains ∅ x = false
  contains_union : ∀ s t x, contains (s ∪ t) x = (contains s x || contains t x)
  contains_inter : ∀ s t x, contains (s ∩ t) x = (contains s x && contains t x)
  contains_sdiff : ∀ s t x, contains (s \ t) x = (contains s x && !contains t x)
  ext : ∀ s t, (∀ x, contains s x = contains t x) → s = t

namespace ExactSet

variable {S α : Type} [ExactSet S α]

instance (priority := 10) : DecidableEq S := decEq
instance (priority := 10) : Membership α S := ⟨fun s x => contains s x = true⟩
instance (priority := 10) (x : α) (s : S) : Decidable (x ∈ s) := inferInstanceAs (Decidable (contains s x = true))

/-- Truth value of a set: whether it is not the empty one. -/
def bool (s : S) : Bool := decide (s ≠ ∅)

theorem mem_iff_contains {x : α} {s : S} : x ∈ s ↔ contains s x = true := Iff.rfl

@[simp] theorem not_mem_empty {x : α} : x ∉ (∅ : S) := by
  simp [mem_iff_contains, contains_empty]

@[simp] theorem mem_union {x : α} {s t : S} : x ∈ s ∪ t ↔ x ∈ s ∨ x ∈ t := by
  simp [mem_iff_contains, contains_union]

@[simp] theorem mem_inter {x : α} {s t : S} : x ∈ s ∩ t ↔ x ∈ s ∧ x ∈ t := by
  simp [mem_iff_contains, contains_inter]

@[simp] theorem mem_sdiff {x : α} {s t : S} : x ∈ s \ t ↔ x ∈ s ∧ x ∉ t := by
  simp [mem_iff_contains, contains_sdiff]

theorem eq_iff {s t : S} : s = t ↔ ∀ x, x ∈ s ↔ x ∈ t := by
  constructor
  · rintro rfl x
    rfl
  · intro same
    refine ext s t fun x => ?_
    exact Bool.eq_iff_iff.mpr (same x)

theorem bool_iff {s : S} : bool s = true ↔ ∃ x, x ∈ s := by
  rw [bool, decide_eq_true_iff, ne_eq, eq_iff]
  simp

theorem bool_eq_false {s : S} : bool s = false ↔ ∀ x, x ∉ s := by
  rw [← Bool.not_eq_true, bool_iff]
  simp

/-- A fold that adds up the sets that items are parsed to. -/
theorem mem_foldlM_union {ε ι : Type} {parse : ι → Except ε S} {xs : List ι} {res : S} {a : α}
    (run : xs.foldlM (fun acc x => (acc ∪ ·) <$> parse x) ∅ = .ok res) :
    a ∈ res ↔ ∃ x ∈ xs, ∃ s, parse x = .ok s ∧ a ∈ s := by
  apply foldlM_ok (fun before acc => a ∈ acc ↔ ∃ x ∈ before, ∃ s, parse x = .ok s ∧ a ∈ s)
    (by simp) _ run
  intro before x acc next holds stepped
  obtain ⟨s, read, rfl⟩ := map_ok.mp stepped
  simp [holds, or_and_right, exists_or, read]

theorem mem_foldl_union {ι : Type} {f : ι → S} {xs : List ι} {init : S} {a : α} :
    a ∈ xs.foldl (fun acc x => acc ∪ f x) init ↔ a ∈ init ∨ ∃ x ∈ xs, a ∈ f x := by
  induction xs generalizing init with
  | nil => simp
  | cons x rest ih =>
    rw [List.foldl_cons, ih, mem_union]
    simp only [List.mem_cons, exists_eq_or_imp, or_assoc]

theorem mem_foldl_sdiff {ι : Type} {f : ι → S} {xs : List ι} {init : S} {a : α} :
    a ∈ xs.foldl (fun acc x => acc \ f x) init ↔ a ∈ init ∧ ¬ ∃ x ∈ xs, a ∈ f x := by
  induction xs generalizing init with
  | nil => simp
  | cons x rest ih =>
    rw [List.foldl_cons, ih, mem_sdiff]
    simp only [List.mem_cons, exists_eq_or_imp, not_or, and_assoc]

end ExactSet

/-- Finite sets are exact. -/
instance {α : Type} [DecidableEq α] : ExactSet (Finset α) α where
  decEq := inferInstance
  contains s x := decide (x ∈ s)
  contains_empty x := by simp
  contains_union s t x := by simp
  contains_inter s t x := by simp
  contains_sdiff s t x := by simp
  ext s t same := by
    ext x
    simpa using same x

theorem ExactSet.mem_finset {α : Type} [DecidableEq α] {s : Finset α} {a : α} :
    ExactSet.contains s a = true ↔ a ∈ s := decide_eq_true_iff

/-- `mem_foldlM_union`, with the membership of finite sets. -/
theorem ExactSet.mem_foldlM_finset {α ε ι : Type} [DecidableEq α] {parse : ι → Except ε (Finset α)}
    {xs : List ι} {res : Finset α} {a : α}
    (run : xs.foldlM (fun acc x => (acc ∪ ·) <$> parse x) ∅ = .ok res) :
    a ∈ res ↔ ∃ x ∈ xs, ∃ s, parse x = .ok s ∧ a ∈ s := by
  simpa only [mem_iff_contains, mem_finset] using mem_foldlM_union (a := a) run

end Nca.Lib
