import Mathlib.Order.Defs.LinearOrder
import Mathlib.Data.List.Basic
import Mathlib.Order.Lattice

/-!
One scan of a list in the order of a key, for two elements of one key that are related: the scan
keeps the elements of the current key, and starts anew where the key grows.
-/

namespace Nca.Lib

variable {α κ : Type} {lt related : α → α → Bool} {curr_set xs before : List α}

/-- The element at which the scan stops, with the earlier one that it is related to. -/
def scanRuns (lt related : α → α → Bool) : List α → List α → Option (α × α)
  | _, [] => none
  | [], x :: rest => scanRuns lt related [x] rest
  | first :: others, x :: rest =>
    if lt first x then scanRuns lt related [x] rest
    else match (first :: others).find? (related x) with
      | some other => some (x, other)
      | none => scanRuns lt related (first :: others ++ [x]) rest

/-- The current set is the end of what has been visited, and has one key; what is before it has
smaller ones. -/
structure CurrentRun [LinearOrder κ] (key : α → κ) (before curr_set : List α) : Prop where
  started : curr_set = [] → before = []
  smaller : ∀ a ∈ before, ∀ b ∈ curr_set, key a < key b
  same : ∀ a ∈ curr_set, ∀ b ∈ curr_set, key a = key b

theorem scanRuns_related {x other : α} (found : scanRuns lt related curr_set xs = some (x, other)) :
    ∃ first rest, xs = first ++ x :: rest ∧ other ∈ curr_set ++ first ∧ related x other = true := by
  induction xs generalizing curr_set with
  | nil => simp [scanRuns] at found
  | cons y ys ih =>
    have step {set : List α} (found : scanRuns lt related set ys = some (x, other))
        (inside : ∀ a ∈ set, a ∈ curr_set ++ [y]) :
        ∃ first rest, y :: ys = first ++ x :: rest ∧ other ∈ curr_set ++ first ∧
          related x other = true := by
      obtain ⟨first, rest, rfl, member, holds⟩ := ih found
      refine ⟨y :: first, rest, rfl, ?_, holds⟩
      cases List.mem_append.mp member with
      | inl earlier =>
        have listed := inside other earlier
        cases List.mem_append.mp listed with
        | inl before => exact List.mem_append_left _ before
        | inr now =>
          obtain rfl := List.mem_singleton.mp now
          exact List.mem_append_right _ List.mem_cons_self
      | inr later => exact List.mem_append_right _ (List.mem_cons_of_mem _ later)
    cases curr_set with
    | nil => exact step found (by simp)
    | cons first others =>
      unfold scanRuns at found
      split at found
      case isTrue => exact step found (by simp)
      case isFalse =>
        split at found
        case h_1 found' hit =>
          obtain ⟨rfl, rfl⟩ := Prod.mk.inj (Option.some.inj found)
          exact ⟨[], ys, rfl, by simpa using List.mem_of_find?_eq_some hit, List.find?_some hit⟩
        case h_2 => exact step found (by simp)

/-- In a sorted list a scan that does not stop has missed no related elements. -/
theorem scanRuns_none [LinearOrder κ] {key : α → κ} (byKey : ∀ a b, lt a b = decide (key a < key b))
    (sameKey : ∀ a b, related a b = true → key a = key b) (run : CurrentRun key before curr_set)
    (sorted : (before ++ curr_set ++ xs).Pairwise fun a b => key a ≤ key b)
    (quiet : scanRuns lt related curr_set xs = none) :
    (∀ x ∈ xs, ∀ a ∈ before ++ curr_set, related x a = false) ∧
      xs.Pairwise fun a b => related b a = false := by
  induction xs generalizing before curr_set with
  | nil => exact ⟨List.forall_mem_nil _, List.Pairwise.nil⟩
  | cons x xs ih =>
    -- what is left to show once the next element is part of what has been visited
    have step {before' curr' : List α} (run' : CurrentRun key before' curr')
        (whole : before' ++ curr' = before ++ curr_set ++ [x])
        (quiet : scanRuns lt related curr' xs = none)
        (now : ∀ a ∈ before ++ curr_set, related x a = false) :
        (∀ y ∈ x :: xs, ∀ a ∈ before ++ curr_set, related y a = false) ∧
          (x :: xs).Pairwise fun a b => related b a = false := by
      obtain ⟨visited, later⟩ := ih run' (by rw [whole, List.append_assoc]; exact sorted) quiet
      rw [whole] at visited
      constructor
      · intro y member
        cases List.mem_cons.mp member with
        | inl first =>
          subst first
          exact now
        | inr later => exact fun a earlier => visited y later a (List.mem_append_left _ earlier)
      · apply List.pairwise_cons.mpr ⟨?_, later⟩
        exact fun y member => visited y member x (List.mem_append_right _ (List.mem_singleton_self x))
    have single {before : List α} (smaller : ∀ a ∈ before, key a < key x) : CurrentRun key before [x] := {
      started := fun empty => absurd empty (List.cons_ne_nil _ _)
      smaller := fun a earlier b member => List.mem_singleton.mp member ▸ smaller a earlier
      same := by simp }
    cases curr_set with
    | nil =>
      obtain rfl := run.started rfl
      exact step (single (List.forall_mem_nil _)) rfl quiet (List.forall_mem_nil _)
    | cons first others =>
      have below : ∀ a ∈ before ++ first :: others, key a ≤ key first := by
        intro a member
        cases List.mem_append.mp member with
        | inl earlier => exact le_of_lt (run.smaller a earlier first List.mem_cons_self)
        | inr current => exact le_of_eq (run.same a current first List.mem_cons_self)
      unfold scanRuns at quiet
      split at quiet
      case isTrue larger =>
        have grows : key first < key x := by rwa [byKey, decide_eq_true_eq] at larger
        have smaller : ∀ a ∈ before ++ first :: others, key a < key x :=
          fun a member => lt_of_le_of_lt (below a member) grows
        apply step (single smaller) rfl quiet
        intro a member
        apply Bool.eq_false_iff.mpr
        exact fun holds => ne_of_gt (smaller a member) (sameKey x a holds)
      case isFalse notLarger =>
        have stays : ¬key first < key x := by rwa [byKey, decide_eq_true_eq] at notLarger
        have equal : key first = key x := by
          apply le_antisymm _ (le_of_not_gt stays)
          exact (List.pairwise_append.mp sorted).2.2 first (by simp) x List.mem_cons_self
        split at quiet
        case h_1 => exact absurd quiet (by simp)
        case h_2 unrelated =>
          have run' : CurrentRun key before (first :: others ++ [x]) := {
            started := fun empty => absurd empty (by simp)
            smaller := by
              intro a earlier b member
              cases List.mem_append.mp member with
              | inl current => exact run.smaller a earlier b current
              | inr last =>
                rw [List.mem_singleton.mp last, ← equal]
                exact run.smaller a earlier first List.mem_cons_self
            same := by
              have each : ∀ a ∈ first :: others ++ [x], key a = key x := by
                intro a member
                cases List.mem_append.mp member with
                | inl current => exact (run.same a current first List.mem_cons_self).trans equal
                | inr last => rw [List.mem_singleton.mp last]
              exact fun a member b member' => (each a member).trans (each b member').symm }
          apply step run' (List.append_assoc _ _ _).symm quiet
          intro a member
          cases List.mem_append.mp member with
          | inl earlier =>
            apply Bool.eq_false_iff.mpr
            intro holds
            have less := run.smaller a earlier first List.mem_cons_self
            rw [equal] at less
            exact ne_of_gt less (sameKey x a holds)
          | inr current =>
            have missed := List.find?_eq_none.mp unrelated a current
            simpa using missed

theorem scanRuns_eq_none_iff [LinearOrder κ] {key : α → κ} (byKey : ∀ a b, lt a b = decide (key a < key b))
    (sameKey : ∀ a b, related a b = true → key a = key b)
    (sorted : xs.Pairwise fun a b => key a ≤ key b) :
    scanRuns lt related [] xs = none ↔ xs.Pairwise fun a b => related b a = false := by
  constructor
  · intro quiet
    have run : CurrentRun key [] ([] : List α) := ⟨fun _ => rfl, by simp, by simp⟩
    exact (scanRuns_none byKey sameKey run sorted quiet).2
  · intro unrelated
    cases found : scanRuns lt related [] xs with
    | none => rfl
    | some pair =>
      obtain ⟨x, other⟩ := pair
      obtain ⟨first, rest, rfl, earlier, holds⟩ := scanRuns_related found
      have apart := (List.pairwise_append.mp unrelated).2.2 other earlier x List.mem_cons_self
      rw [holds] at apart
      cases apart

end Nca.Lib
