import Mathlib.Data.Finset.Insert
import Mathlib.Data.Finset.Lattice.Lemmas
import Nca.Lib.Dict

/-!
Dictionaries of sets, in which a missing key has the empty set.
-/

namespace Nca.Lib.SetDict

variable {κ ω : Type} [DecidableEq κ] [DecidableEq ω]

/-- `d[k]` of a `defaultdict(set)`. -/
def find (d : List (κ × Finset ω)) (k : κ) : Finset ω := (Dict.get d k).getD ∅

/-- `d[k].add(x)`. -/
def add (d : List (κ × Finset ω)) (k : κ) (x : ω) : List (κ × Finset ω) :=
  Dict.set d k (insert x (find d k))

variable {d : List (κ × Finset ω)} {k k' : κ} {x y : ω}

omit [DecidableEq ω] in
theorem find_set {s : Finset ω} : find (Dict.set d k s) k' = if k = k' then s else find d k' := by
  unfold find
  rw [Dict.get_set]
  split <;> rfl

theorem mem_find_add : x ∈ find (add d k y) k' ↔ x ∈ find d k' ∨ k = k' ∧ x = y := by
  unfold add
  rw [find_set]
  split
  case isTrue same =>
    subst same
    rw [Finset.mem_insert, or_comm, and_iff_right rfl]
  case isFalse other => simp [other]

theorem mem_keys_set {s : Finset ω} : k' ∈ Dict.keys (Dict.set d k s) ↔ k' ∈ Dict.keys d ∨ k' = k := by
  rw [Dict.keys_set]
  split
  case isTrue present =>
    constructor
    · exact Or.inl
    · rintro (listed | rfl)
      · exact listed
      · exact present
  case isFalse => rw [List.mem_append, List.mem_singleton]

section Relation

/-- `d[k] |= s`. -/
def update (d : List (κ × Finset ω)) (k : κ) (s : Finset ω) : List (κ × Finset ω) :=
  Dict.set d k (find d k ∪ s)

/-- The keys with equal sets together, under their set. -/
def invert (d : List (κ × Finset ω)) : List (Finset ω × Finset κ) :=
  d.foldl (fun groups e => add groups e.2 e.1) []

/-- The relation that a dictionary stores. -/
def Relates (d : List (κ × Finset ω)) (k : κ) (x : ω) : Prop := ∃ e ∈ d, e.1 = k ∧ x ∈ e.2

variable {s : Finset ω}

theorem relates_update : Relates (update d k s) k' x ↔ Relates d k' x ∨ k = k' ∧ x ∈ s := by
  have extended : x ∈ find d k ∪ s ↔ (∃ old, Dict.get d k = some old ∧ x ∈ old) ∨ x ∈ s := by
    unfold find
    rw [Finset.mem_union]
    cases Dict.get d k <;> simp
  let inside := fun group : Finset ω => x ∈ group
  exact Dict.exists_set (p := inside) extended

omit [DecidableEq ω] in
theorem relates_of_find (inside : x ∈ find d k) : Relates d k x := by
  unfold find at inside
  cases found : Dict.get d k with
  | none =>
    rw [found] at inside
    exact absurd inside (Finset.notMem_empty x)
  | some group =>
    rw [found] at inside
    exact ⟨(k, group), Dict.get_mem found, rfl, inside⟩

theorem relates_add : Relates (add d k y) k' x ↔ Relates d k' x ∨ k = k' ∧ x = y := by
  have same : add d k y = update d k {y} := by
    unfold add update
    rw [Finset.insert_eq, Finset.union_comm]
  rw [same, relates_update, Finset.mem_singleton]

theorem relates_foldl_add (entries : List (κ × Finset ω)) (groups : List (Finset ω × Finset κ)) :
    Relates (entries.foldl (fun groups e => add groups e.2 e.1) groups) s k ↔
      Relates groups s k ∨ (k, s) ∈ entries := by
  induction entries generalizing groups with
  | nil => simp
  | cons e rest ih =>
    rw [List.foldl_cons, ih, relates_add, List.mem_cons, or_assoc]
    refine or_congr_right (or_congr_left ?_)
    rw [Prod.ext_iff, and_comm]
    exact and_congr_right' eq_comm

/-- The groups store the same relation, a set for each set of keys. -/
theorem invert_relates : (∃ group ∈ invert d, k ∈ group.2 ∧ x ∈ group.1) ↔ Relates d k x := by
  have groups (s : Finset ω) : Relates (invert d) s k ↔ (k, s) ∈ d := by
    unfold invert
    rw [relates_foldl_add]
    simp [Relates]
  constructor
  · intro ⟨group, listed, keyed, inside⟩
    exact ⟨(k, group.1), (groups group.1).mp ⟨group, listed, rfl, keyed⟩, rfl, inside⟩
  · intro ⟨e, listed, same, inside⟩
    obtain ⟨group, made, keys, keyed⟩ := (groups e.2).mpr (same ▸ listed)
    exact ⟨group, made, keyed, keys ▸ inside⟩

end Relation

end Nca.Lib.SetDict
